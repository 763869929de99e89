import Mathlib.Data.List.Nodup

/-!
# Tails that were seen

A list is read up to its longest tail that was seen before (`cut`), and the tails that begin with what
was read are seen then, each at an offset of its own (`tailsAt`). So no tail is ever seen at a second
offset (`nodup_append_tailsAt`). The tails that are read go in one by one, before the later ones are
asked for, which makes no difference as they are longer (`cut_concat`).
-/

namespace DnsRelayer.Lib

variable {A : Type}

/-- The tails seen so far with their offsets, in the order in which they came. -/
abbrev Seen (A : Type) := List (List A × ℕ)

section Position

variable [DecidableEq A] {seen : Seen A} {key t ls us vs : List A} {o : ℕ}

/-- The offset where a tail was first seen. -/
def Seen.position (seen : Seen A) (t : List A) : Option ℕ := (seen.find? (·.1 = t)).map (·.2)

theorem Seen.position_eq_none_iff : seen.position t = none ↔ ∀ e ∈ seen, e.1 ≠ t := by
  simp [position, List.find?_eq_none]

theorem Seen.position_concat (seen : Seen A) (key : List A) (o : ℕ) (t : List A) :
    Seen.position (seen ++ [(key, o)]) t =
      (seen.position t).or (if key = t then some o else none) := by
  unfold Seen.position
  rw [List.find?_append, Option.map_or]
  by_cases h : key = t <;> simp [h]

/-- Another tail that is seen does not change where a tail is. -/
theorem Seen.position_concat_of_ne (h : key ≠ t) :
    Seen.position (seen ++ [(key, o)]) t = seen.position t := by
  rw [position_concat, if_neg h, Option.or_none]

/-- A tail that was seen at one offset only is found there. -/
theorem Seen.position_of_mem (hnodup : (seen.map (·.1)).Nodup) (h : (t, o) ∈ seen) :
    seen.position t = some o := by
  induction seen with
  | nil => cases h
  | cons e seen ih =>
    obtain ⟨hnot, hnodup⟩ := List.nodup_cons.mp hnodup
    unfold Seen.position at ih ⊢
    rcases List.mem_cons.mp h with rfl | h
    · rw [List.find?_cons_of_pos (by simp)]
      rfl
    · -- the first of the tails is another one
      have hne : e.1 ≠ t := fun he => hnot (List.mem_map.mpr ⟨(t, o), h, he.symm⟩)
      rw [List.find?_cons_of_neg (by simpa using hne)]
      exact ih hnodup h

/-! ## The longest tail that was seen -/

/-- The elements before the longest tail that was seen, and that tail. -/
def cut (seen : Seen A) : List A → List A × List A
  | [] => ([], [])
  | l :: ls => if (seen.position (l :: ls)).isSome then ([], l :: ls)
    else (l :: (cut seen ls).1, (cut seen ls).2)

/-- A list is cut at the longest of its tails that was seen, or at its end. -/
structure IsCut (seen : Seen A) (ls us vs : List A) : Prop where
  split : ls = us ++ vs
  seen_tail : vs ≠ [] → (seen.position vs).isSome
  /-- No longer tail was seen. -/
  longest : ∀ us₁ us₂, us = us₁ ++ us₂ → us₂ ≠ [] → seen.position (us₂ ++ vs) = none

theorem isCut_cut (seen : Seen A) (ls : List A) : IsCut seen ls (cut seen ls).1 (cut seen ls).2 := by
  induction ls with
  | nil =>
    refine ⟨rfl, fun hne => absurd rfl hne, fun us₁ us₂ hus hne => ?_⟩
    exact absurd (List.append_eq_nil_iff.mp hus.symm).2 hne
  | cons l ls ih =>
    by_cases hl : (seen.position (l :: ls)).isSome
    · rw [cut, if_pos hl]
      refine ⟨rfl, fun _ => hl, fun us₁ us₂ hus hne => ?_⟩
      exact absurd (List.append_eq_nil_iff.mp hus.symm).2 hne
    · rw [cut, if_neg hl]
      refine ⟨congrArg (l :: ·) ih.split, ih.seen_tail, fun us₁ us₂ hus hne => ?_⟩
      -- the tail is the whole list, or one of the rest
      cases us₁ with
      | nil =>
        rw [List.nil_append] at hus
        rw [← hus, List.cons_append, ← ih.split]
        simpa using hl
      | cons u us₁ => exact ih.longest us₁ us₂ (List.cons.inj hus).2 hne

/-- Longer tails that are seen do not change where a list is cut. -/
theorem cut_concat (h : ls.length < key.length) : cut (seen ++ [(key, o)]) ls = cut seen ls := by
  induction ls with
  | nil => rfl
  | cons l ls ih =>
    have hne : key ≠ l :: ls := fun e => by
      rw [e] at h
      exact Nat.lt_irrefl _ h
    rw [List.length_cons] at h
    rw [cut, cut, Seen.position_concat_of_ne hne, ih (by omega)]

end Position

/-! ## What is seen then -/

/-- The tails that begin with an element of `us`, each at the offset of that element. -/
def tailsAt (size : A → ℕ) (vs : List A) : List A → ℕ → Seen A
  | [], _ => []
  | u :: us, off => (u :: (us ++ vs), off) :: tailsAt size vs us (off + size u)

variable {size : A → ℕ} {us vs : List A} {off : ℕ}

theorem mem_tailsAt {e : List A × ℕ} (h : e ∈ tailsAt size vs us off) :
    ∃ us₁ us₂, us = us₁ ++ us₂ ∧ us₂ ≠ [] ∧ e.1 = us₂ ++ vs ∧ off ≤ e.2 := by
  induction us generalizing off with
  | nil => simp [tailsAt] at h
  | cons u us ih =>
    rcases List.mem_cons.mp h with rfl | h
    · exact ⟨[], u :: us, rfl, List.cons_ne_nil u us, rfl, Nat.le_refl _⟩
    · obtain ⟨us₁, us₂, rfl, hne, he, hle⟩ := ih h
      exact ⟨u :: us₁, us₂, rfl, hne, he, by omega⟩

@[simp]
theorem length_tailsAt (vs us : List A) (off : ℕ) : (tailsAt size vs us off).length = us.length := by
  induction us generalizing off with
  | nil => rfl
  | cons u us ih => rw [tailsAt, List.length_cons, ih, List.length_cons]

/-- The tails are as many as they are at different lengths. -/
theorem nodup_tailsAt (vs us : List A) (off : ℕ) : ((tailsAt size vs us off).map (·.1)).Nodup := by
  induction us generalizing off with
  | nil => exact List.nodup_nil
  | cons u us ih =>
    refine List.nodup_cons.mpr ⟨fun hmem => ?_, ih _⟩
    obtain ⟨e, he, heq⟩ := List.mem_map.mp hmem
    obtain ⟨us₁, us₂, rfl, -, hkey, -⟩ := mem_tailsAt he
    have hlen := congrArg List.length (heq.symm.trans hkey)
    simp only [List.length_cons, List.length_append] at hlen
    omega

/-- A tail that is seen after the list was read was not seen before. -/
theorem nodup_append_tailsAt [DecidableEq A] {seen : Seen A} {ls : List A}
    (hnodup : (seen.map (·.1)).Nodup) (h : IsCut seen ls us vs) (off : ℕ) :
    ((seen ++ tailsAt size vs us off).map (·.1)).Nodup := by
  rw [List.map_append]
  refine List.nodup_append.mpr ⟨hnodup, nodup_tailsAt vs us off, ?_⟩
  rintro a ha b hb rfl
  obtain ⟨e, he, rfl⟩ := List.mem_map.mp ha
  obtain ⟨e', he', heq⟩ := List.mem_map.mp hb
  obtain ⟨us₁, us₂, hus, hne, hkey, -⟩ := mem_tailsAt he'
  have hnone := Seen.position_eq_none_iff.mp (h.longest us₁ us₂ hus hne)
  exact hnone e he (heq.symm.trans hkey)

end DnsRelayer.Lib
