import Mathlib.Logic.Function.Basic
import Mathlib.Data.List.Nodup

/-!
# Singly linked lists in memory

A memory gives a node at some addresses, and a node gives the address of the next one.
`Linked next m a ps b` says that the nodes at `a`, at the address next to it and so on are those of
`ps`, each with its address, up to the address `b`. Segments are put together and taken apart at an
address between them (`linked_append`), a change to the memory elsewhere does not matter
(`Linked.congr`), and the last node can be made to point elsewhere (`Linked.concat`).
-/

namespace DnsRelayer.Lib

variable {N : Type} {next : N → ℕ}

/-- Following `next` from an address visits nodes, and comes to another address. -/
inductive Linked (next : N → ℕ) (m : ℕ → Option N) : ℕ → List (ℕ × N) → ℕ → Prop
  | nil (a : ℕ) : Linked next m a [] a
  | cons {a b : ℕ} {n : N} {ps : List (ℕ × N)} (node : m a = some n)
      (rest : Linked next m (next n) ps b) : Linked next m a ((a, n) :: ps) b

variable {m m' : ℕ → Option N} {a b : ℕ} {n : N} {ps qs : List (ℕ × N)}

theorem linked_nil : Linked next m a [] b ↔ a = b := by
  constructor
  · rintro ⟨⟩
    rfl
  · rintro rfl
    exact .nil a

theorem linked_cons {p : ℕ × N} :
    Linked next m a (p :: ps) b ↔ p.1 = a ∧ m a = some p.2 ∧ Linked next m (next p.2) ps b := by
  constructor
  · rintro ⟨⟩
    exact ⟨rfl, ‹_›, ‹_›⟩
  · rintro ⟨rfl, node, rest⟩
    exact .cons node rest

/-- Two segments that meet. -/
theorem linked_append :
    Linked next m a (ps ++ qs) b ↔ ∃ c, Linked next m a ps c ∧ Linked next m c qs b := by
  induction ps generalizing a with
  | nil => simp [linked_nil]
  | cons p ps ih =>
    simp only [List.cons_append, linked_cons, ih]
    constructor
    · rintro ⟨hp, node, c, hps, hqs⟩
      exact ⟨c, ⟨hp, node, hps⟩, hqs⟩
    · rintro ⟨c, ⟨hp, node, hps⟩, hqs⟩
      exact ⟨hp, node, c, hps, hqs⟩

/-- The nodes are those at their addresses. -/
theorem Linked.node (h : Linked next m a ps b) {p : ℕ × N} (hp : p ∈ ps) : m p.1 = some p.2 := by
  induction h with
  | nil => simp at hp
  | cons node _ ih =>
    rcases List.mem_cons.mp hp with rfl | hp
    · exact node
    · exact ih hp

/-- What is at other addresses does not matter. -/
theorem Linked.congr (h : Linked next m a ps b) (hm : ∀ p ∈ ps, m' p.1 = m p.1) :
    Linked next m' a ps b := by
  induction h with
  | nil a => exact .nil a
  | cons node _ ih =>
    refine .cons ((hm _ List.mem_cons_self).trans node) (ih fun p hp => ?_)
    exact hm p (List.mem_cons_of_mem _ hp)

/-- A change at an address that is not visited. -/
theorem Linked.update (h : Linked next m a ps b) {c : ℕ} (hc : c ∉ ps.map Prod.fst)
    (x : Option N) : Linked next (Function.update m c x) a ps b := by
  refine h.congr fun p hp => Function.update_of_ne ?_ _ _
  rintro rfl
  exact hc (List.mem_map_of_mem hp)

/-- The last node of a segment, changed. -/
theorem Linked.concat {l : ℕ} (h : Linked next m a (ps ++ [(l, n)]) b)
    (hl : l ∉ ps.map Prod.fst) (n' : N) :
    Linked next (Function.update m l (some n')) a (ps ++ [(l, n')]) (next n') := by
  obtain ⟨c, hps, hlast⟩ := linked_append.mp h
  obtain ⟨rfl, -, -⟩ := linked_cons.mp hlast
  refine linked_append.mpr ⟨_, hps.update hl _, .cons ?_ (.nil _)⟩
  exact Function.update_self _ _ _

end DnsRelayer.Lib
