import Mathlib.Data.List.Nodup
import Mathlib.Data.List.Perm.Basic

/-!
# Circular doubly linked lists

A doubly linked list with one sentinel, over addresses of any type, held by two functions: `next`
and `pre`. `IsRing next pre s xs` says that following `next` from the sentinel `s` visits exactly
`xs` and returns to `s`, that following `pre` visits `xs` backwards, and that no address occurs
twice. The two directions are the same statement about `xs` and its reverse (`IsRing.symm`), so that
each rule is proved for one of them: putting a new address between two neighbours (`IsRing.insert`),
taking an address out (`IsRing.unlink`), and assignments outside the ring (`IsRing.congr`).
-/

namespace DnsRelayer.Lib

variable {A : Type}

/-- Following `f` from `s` visits `xs` and returns to `s`. -/
def Links (f : A → A) (s : A) (xs : List A) : Prop := (s :: xs).map f = xs ++ [s]

/-- The addresses `xs` form a ring with the sentinel `s`, in both directions. -/
structure IsRing (next pre : A → A) (s : A) (xs : List A) : Prop where
  /-- No address occurs twice. -/
  nodup : (s :: xs).Nodup
  /-- `next` visits the addresses in order. -/
  next_links : Links next s xs
  /-- `pre` visits them in the reverse order. -/
  pre_links : Links pre s xs.reverse

/-- Split at an address `p`: `f` takes the addresses before `p` to the ones that follow them, and
the addresses from `p` on to the rest and the sentinel. -/
theorem Links.split {f : A → A} {s p : A} {l l' r : List A} (hp : s :: l = l' ++ [p])
    (h : Links f s (l ++ r)) : l'.map f = l ∧ f p :: r.map f = r ++ [s] := by
  have hlen : l'.length = l.length := by simpa using (congrArg List.length hp).symm
  have heq : l'.map f ++ (f p :: r.map f) = l ++ (r ++ [s]) := by
    have := h
    rw [Links, ← List.cons_append, hp] at this
    simpa using this
  exact List.append_inj heq (by simpa using hlen)

/-- An address after the sentinel, or the sentinel itself when there is none, is the last of
`s :: l`. -/
theorem exists_last (s : A) (l : List A) : ∃ l' p, s :: l = l' ++ [p] :=
  ⟨_, _, (List.dropLast_append_getLast (List.cons_ne_nil s l)).symm⟩

/-- A function that takes each address to the one after it takes the first through all of them. -/
theorem iterate_of_map {f : A → A} {a b : A} {l : List A} (h : (a :: l).map f = l ++ [b]) :
    List.iterate f (f a) (l.length + 1) = l ++ [b] := by
  induction l generalizing a with
  | nil => exact h
  | cons c l ih =>
    obtain ⟨hac, hl⟩ := List.cons.inj h
    calc List.iterate f (f a) (l.length + 2)
        = f a :: List.iterate f (f (f a)) (l.length + 1) := rfl
      _ = c :: List.iterate f (f c) (l.length + 1) := by rw [hac]
      _ = c :: (l ++ [b]) := by rw [ih hl]

/-- Taking step after step from the sentinel gives the addresses in order, and then the sentinel. -/
theorem Links.iterate {f : A → A} {s : A} {xs : List A} (h : Links f s xs) :
    List.iterate f (f s) (xs.length + 1) = xs ++ [s] := iterate_of_map h

variable {next pre : A → A} {s x : A} {l r xs : List A}

/-- A ring read backwards. -/
theorem IsRing.symm (h : IsRing next pre s xs) : IsRing pre next s xs.reverse where
  nodup := by simpa using h.nodup
  next_links := h.pre_links
  pre_links := by simpa using h.next_links

/-- The empty ring: the sentinel linked to itself. -/
theorem IsRing.nil (hn : next s = s) (hp : pre s = s) : IsRing next pre s [] where
  nodup := by simp
  next_links := by simp [Links, hn]
  pre_links := by simp [Links, hp]

/-- Links outside the ring do not matter. -/
theorem IsRing.congr {next' pre' : A → A} (h : IsRing next pre s xs)
    (hn : ∀ a ∈ s :: xs, next' a = next a) (hp : ∀ a ∈ s :: xs, pre' a = pre a) :
    IsRing next' pre' s xs where
  nodup := h.nodup
  next_links := by rw [Links, List.map_congr_left hn]; exact h.next_links
  pre_links := by
    rw [Links, List.map_congr_left (g := pre) (fun a ha => hp a (by simpa using ha))]
    exact h.pre_links

/-- With an address in its middle a list has no repetition, when it has none without that and the
address is nowhere else in it. -/
theorem nodup_around :
    (s :: (l ++ x :: r)).Nodup ↔ x ∉ s :: (l ++ r) ∧ (s :: (l ++ r)).Nodup := by
  rw [← List.nodup_cons]
  exact @List.nodup_middle _ x (s :: l) r

/-- The successor of the last address before a split is the first one after it, and the links
back agree. -/
theorem IsRing.neighbours (h : IsRing next pre s (l ++ r)) {u v : List A} {p q : A}
    (hp : s :: l = u ++ [p]) (hq : r ++ [s] = q :: v) : next p = q ∧ pre q = p := by
  have hn := (h.next_links.split hp).2
  have hq' : s :: r.reverse = v.reverse ++ [q] := by
    have := congrArg List.reverse hq
    simpa using this
  have hb := h.pre_links
  rw [List.reverse_append] at hb
  have hb := (hb.split hq').2
  have hl : l.reverse ++ [s] = p :: u.reverse := by
    have := congrArg List.reverse hp
    simpa using this
  rw [hq] at hn
  rw [hl] at hb
  exact ⟨(List.cons.inj hn).1, (List.cons.inj hb).1⟩

/-- The ring is empty exactly when the sentinel follows itself. -/
theorem IsRing.next_eq_self_iff (h : IsRing next pre s xs) : next s = s ↔ xs = [] := by
  obtain ⟨r', q, hq⟩ : ∃ r' q, xs ++ [s] = q :: r' := by cases xs <;> simp
  have hn := (IsRing.neighbours (l := []) h (u := []) rfl hq).1
  cases xs with
  | nil =>
    have hs : q = s := by simpa using (congrArg List.head? hq).symm
    simp [hn, hs]
  | cons y ys =>
    have hy : q = y := by simpa using (congrArg List.head? hq).symm
    have hne : s ≠ y := by have := h.nodup; simp at this; tauto
    simp [hn, hy, hne.symm]

/-- The sentinel's successor is the first address. -/
theorem IsRing.next_sentinel (h : IsRing next pre s (x :: r)) : next s = x :=
  (IsRing.neighbours (l := []) h (u := []) rfl rfl).1

/-- The sentinel's predecessor is the last address. -/
theorem IsRing.pre_sentinel (h : IsRing next pre s (l ++ [x])) : pre s = x :=
  (IsRing.neighbours (l := l ++ [x]) (r := []) (by simpa using h) (u := s :: l) rfl rfl).2

section Assignments

variable [DecidableEq A]

/-- An assignment at an address that a list does not have does not change what it visits. -/
theorem map_update_of_notMem {f : A → A} {a b : A} {l : List A} (h : a ∉ l) :
    l.map (Function.update f a b) = l.map f :=
  List.map_congr_left fun c hc => Function.update_of_ne (fun e : c = a => h (e ▸ hc)) _ _

/-- A new address `x` goes after `p`: `p` is linked to `x`, and `x` to what followed `p`. -/
theorem Links.insert {f : A → A} {s p x : A} {l l' r : List A} (hp : s :: l = l' ++ [p])
    (hnd : (s :: (l ++ r)).Nodup) (hx : x ∉ s :: (l ++ r)) (h : Links f s (l ++ r)) :
    Links (Function.update (Function.update f x (f p)) p x) s (l ++ x :: r) := by
  obtain ⟨hl, hr⟩ := h.split hp
  rw [← List.cons_append, hp] at hnd hx
  have hpl : p ∉ l' ∧ p ∉ r := by
    simp only [List.append_assoc, List.singleton_append, List.nodup_append, List.nodup_cons,
      List.mem_cons] at hnd
    exact ⟨fun hm => hnd.2.2 p hm p (Or.inl rfl) rfl, hnd.2.1.1⟩
  simp only [List.append_assoc, List.singleton_append, List.mem_append, List.mem_cons,
    not_or] at hx
  have h1 : l'.map (Function.update (Function.update f x (f p)) p x) = l := by
    rw [map_update_of_notMem hpl.1, map_update_of_notMem hx.1, hl]
  have h2 : r.map (Function.update (Function.update f x (f p)) p x) = r.map f := by
    rw [map_update_of_notMem hpl.2, map_update_of_notMem hx.2.2]
  rw [Links, ← List.cons_append, hp]
  simp [h1, h2, Function.update_of_ne hx.2.1, hr]

/-- An address `x` goes out: its predecessor `p` is linked to its successor. -/
theorem Links.unlink {f : A → A} {s p x : A} {l l' r : List A} (hp : s :: l = l' ++ [p])
    (hnd : (s :: (l ++ x :: r)).Nodup) (h : Links f s (l ++ x :: r)) :
    Links (Function.update f p (f x)) s (l ++ r) := by
  obtain ⟨hl, hr⟩ := h.split hp
  rw [← List.cons_append, hp] at hnd
  have hpl : p ∉ l' ∧ p ∉ r := by
    simp only [List.append_assoc, List.singleton_append, List.nodup_append, List.nodup_cons,
      List.mem_cons, not_or] at hnd
    exact ⟨fun hm => hnd.2.2 p hm p (Or.inl rfl) rfl, hnd.2.1.1.2⟩
  have hx : f x :: r.map f = r ++ [s] := (List.cons.inj (by simpa using hr)).2
  rw [Links, ← List.cons_append, hp]
  simp [map_update_of_notMem hpl.1, map_update_of_notMem hpl.2, hl, hx]

/-- Put a new address `x` between two neighbours `p` and `q`. -/
theorem IsRing.insert (h : IsRing next pre s (l ++ r)) {u v : List A} {p q : A}
    (hp : s :: l = u ++ [p]) (hq : r ++ [s] = q :: v) (hx : x ∉ s :: (l ++ r)) :
    IsRing (Function.update (Function.update next x q) p x)
      (Function.update (Function.update pre x p) q x) s (l ++ x :: r) := by
  obtain ⟨hpq, hqp⟩ := h.neighbours hp hq
  have hq' : s :: r.reverse = v.reverse ++ [q] := by
    have := congrArg List.reverse hq
    simpa using this
  refine ⟨?_, ?_, ?_⟩
  · exact nodup_around.mpr ⟨hx, h.nodup⟩
  · rw [← hpq]
    exact h.next_links.insert hp h.nodup hx
  · have hnd : (s :: (r.reverse ++ l.reverse)).Nodup := by
      rw [← List.reverse_append]
      exact h.symm.nodup
    have hb := h.pre_links
    rw [List.reverse_append] at hb
    rw [← hqp]
    simpa using hb.insert hq' hnd (by simpa [and_comm] using hx)

/-- Take an address `x` out, linking its neighbours. -/
theorem IsRing.unlink (h : IsRing next pre s (l ++ x :: r)) :
    IsRing (Function.update next (pre x) (next x)) (Function.update pre (next x) (pre x)) s
      (l ++ r) := by
  obtain ⟨l', p, hp⟩ := exists_last s l
  obtain ⟨r', q, hq⟩ := exists_last s r.reverse
  have hq' : r ++ [s] = q :: r'.reverse := by
    have := congrArg List.reverse hq
    simpa using this
  have hpx : next p = x ∧ pre x = p := h.neighbours hp (v := r ++ [s]) rfl
  have hxq : next x = q ∧ pre q = x :=
    IsRing.neighbours (l := l ++ [x]) (by simpa using h) (u := s :: l) rfl hq'
  refine ⟨?_, ?_, ?_⟩
  · exact (nodup_around.mp h.nodup).2
  · rw [hpx.2]
    exact h.next_links.unlink hp h.nodup
  · have hnd : (s :: (r.reverse ++ x :: l.reverse)).Nodup := by simpa using h.symm.nodup
    have hb : Links pre s (r.reverse ++ x :: l.reverse) := by simpa using h.pre_links
    rw [hxq.1, List.reverse_append]
    exact hb.unlink hq hnd

end Assignments

end DnsRelayer.Lib
