import Mathlib.Data.List.Perm.Basic
import Mathlib.Data.List.Flatten
import Mathlib.Data.List.TakeWhile

/-!
# Arrays of chains

A table `h` of chains of nodes, each node with a key, where an index function says in which chain
the nodes of a key are. A change to one chain is seen on the list of all nodes up to its order
(`exists_chain`), and a search of the key's chain finds what a search of all nodes finds
(`find?_chain`), as long as the nodes of that key are where the index function says (`Placed`). So
the contents of a table are reasoned about on the list of its nodes, up to permutation.
-/

namespace DnsRelayer.Lib

variable {N K : Type}

/-- The nodes whose key satisfies `good` are in the chain of their key's index. -/
def Placed (key : N → K) (index : K → ℕ) (good : K → Prop) (h : List (List N)) : Prop :=
  ∀ i c, h[i]? = some c → ∀ n ∈ c, good (key n) → index (key n) = i

/-- A chain of the table, with the table split around it: how the table reads and changes there. -/
theorem exists_chain {h : List (List N)} {i : ℕ} (hi : i < h.length) :
    ∃ l c r, h = l ++ c :: r ∧ l.length = i ∧ h.getD i [] = c ∧ h[i]? = some c ∧
      (∀ c', h.set i c' = l ++ c' :: r) ∧ (∀ f, h.modify i f = l ++ f c :: r) := by
  refine ⟨h.take i, h[i], h.drop (i + 1), ?_, ?_, ?_, ?_, ?_, ?_⟩
  · rw [List.getElem_cons_drop, List.take_append_drop]
  · simp [hi.le]
  · simp [hi]
  · simp [hi]
  · exact fun c' => List.set_eq_take_append_cons_drop .. |>.trans (by simp [hi])
  · exact fun f => List.modify_eq_take_cons_drop hi

/-- A changed chain stays placed when its good nodes all have its index. -/
theorem Placed.set {key : N → K} {index : K → ℕ} {good : K → Prop} {h : List (List N)} {i : ℕ}
    {c' : List N} (hp : Placed key index good h)
    (hc : ∀ n ∈ c', good (key n) → index (key n) = i) :
    Placed key index good (h.set i c') := by
  intro j d hj n hn hg
  rw [List.getElem?_set] at hj
  split_ifs at hj with hij hlt
  · subst hij
    obtain rfl := Option.some.inj hj
    exact hc n hn hg
  · exact hp j d hj n hn hg

section Search

variable [DecidableEq K] (key : N → K) {index : K → ℕ} {good : K → Prop} {h : List (List N)}

/-- The nodes of a good key are those of its chain. -/
theorem filter_chain (hp : Placed key index good h) {k : K} (hk : good k)
    (hi : index k < h.length) :
    h.flatten.filter (key · = k) = (h.getD (index k) []).filter (key · = k) := by
  obtain ⟨l, c, r, hh, hlen, hc, -, -, -⟩ := exists_chain hi
  -- A chain other than the key's own has no node of the key.
  have hother : ∀ j d, h[j]? = some d → j ≠ index k → d.filter (key · = k) = [] := by
    intro j d hj hne
    rw [List.filter_eq_nil_iff]
    intro n hn hkey
    have hkey : key n = k := by simpa using hkey
    exact hne (hkey ▸ (hp j d hj n hn (hkey ▸ hk)).symm)
  have hl : l.flatten.filter (key · = k) = [] := by
    rw [List.filter_flatten, List.flatten_eq_nil_iff]
    intro d hd
    obtain ⟨d', hd', rfl⟩ := List.mem_map.mp hd
    obtain ⟨j, hj, rfl⟩ := List.getElem_of_mem hd'
    exact hother j _ (by rw [hh, List.getElem?_append_left hj, List.getElem?_eq_getElem hj]) (by omega)
  have hr : r.flatten.filter (key · = k) = [] := by
    rw [List.filter_flatten, List.flatten_eq_nil_iff]
    intro d hd
    obtain ⟨d', hd', rfl⟩ := List.mem_map.mp hd
    obtain ⟨j, hj, rfl⟩ := List.getElem_of_mem hd'
    refine hother (l.length + 1 + j) _ ?_ (by omega)
    rw [hh, List.getElem?_append_right (by omega),
      show l.length + 1 + j - l.length = j + 1 by omega]
    simp [hj]
  rw [hc, hh]
  simp [hl, hr]

/-- Searching the chain of a good key is searching all nodes. -/
theorem find?_chain (hp : Placed key index good h) {k : K} (hk : good k)
    (hi : index k < h.length) :
    (h.getD (index k) []).find? (key · = k) = h.flatten.find? (key · = k) := by
  rw [← List.head?_filter, ← List.head?_filter, filter_chain key hp hk hi]

end Search

/-- A search that at most one element can answer does not depend on the order. -/
theorem find?_perm {p : N → Bool} {l l' : List N} (h : l.Perm l')
    (hu : (l.filter p).length ≤ 1) : l.find? p = l'.find? p := by
  have hf : (l.filter p).Perm (l'.filter p) := h.filter p
  rw [← List.head?_filter, ← List.head?_filter]
  cases hl : l.filter p with
  | nil =>
    rw [hl] at hf
    rw [List.nil_perm.mp hf]
  | cons n rest =>
    have hrest : rest = [] := by
      rw [hl] at hu
      exact List.eq_nil_of_length_eq_zero (by simpa using hu)
    rw [hl, hrest] at hf
    rw [hrest, List.singleton_perm.mp hf]

end DnsRelayer.Lib
