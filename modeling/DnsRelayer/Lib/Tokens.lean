import Mathlib.Data.List.DropRight
import Mathlib.Data.List.TakeWhile

/-!
# Tokens between blanks

Reading a text word by word: `token` skips blanks and takes the longest run of letters that are not.
On a text that is blanks, a word, and a rest that the word does not run into, it reads the word and
leaves the rest (`token_append`).
-/

namespace DnsRelayer.Lib

variable {A : Type} (blank : A → Bool)

/-- The text from its first letter that is not blank. -/
def skipBlank (s : List A) : List A := s.dropWhile blank

/-- The first word of a text and what follows it, if there is a word. -/
def token (s : List A) : Option (List A × List A) :=
  let s := skipBlank blank s
  if s.isEmpty then none
  else some (s.takeWhile (!blank ·), s.dropWhile (!blank ·))

/-- A list of blanks. -/
def Blank (s : List A) : Prop := ∀ c ∈ s, blank c = true

/-- A list with a letter, and without blanks. -/
structure Word (s : List A) : Prop where
  ne_nil : s ≠ []
  letters : ∀ c ∈ s, blank c = false

instance (s : List A) : Decidable (Blank blank s) :=
  inferInstanceAs (Decidable (∀ c ∈ s, blank c = true))

instance [DecidableEq A] (s : List A) : Decidable (Word blank s) :=
  decidable_of_iff (s ≠ [] ∧ ∀ c ∈ s, blank c = false)
    ⟨fun h => ⟨h.1, h.2⟩, fun h => ⟨h.ne_nil, h.letters⟩⟩

/-- A text that does not continue a word: it is empty or starts with a blank. -/
def Stops (s : List A) : Prop := ∀ c ∈ s.head?, blank c = true

instance (s : List A) : Decidable (Stops blank s) :=
  inferInstanceAs (Decidable (∀ c ∈ s.head?, blank c = true))

variable {blank} {s t u : List A}

/-- Blanks in front are skipped. -/
theorem skipBlank_append (hs : Blank blank s) : skipBlank blank (s ++ t) = skipBlank blank t := by
  unfold skipBlank
  exact List.dropWhile_append_of_pos hs

/-- Nothing is left of a blank text. -/
theorem skipBlank_eq_nil (hs : Blank blank s) : skipBlank blank s = [] := by
  unfold skipBlank
  exact List.dropWhile_eq_nil_iff.mpr hs

/-- A word in front is not skipped. -/
theorem skipBlank_word (ht : Word blank t) : skipBlank blank (t ++ u) = t ++ u := by
  obtain ⟨c, t', rfl⟩ := List.exists_cons_of_ne_nil ht.ne_nil
  have hc : blank c = false := ht.letters c (by simp)
  simp [skipBlank, hc]

/-- Blanks in front make no difference to the first word. -/
theorem token_congr (h : skipBlank blank s = skipBlank blank t) : token blank s = token blank t := by
  rw [token, token, h]

/-- Blanks are skipped once. -/
theorem skipBlank_skipBlank (s : List A) :
    skipBlank blank (skipBlank blank s) = skipBlank blank s := by
  unfold skipBlank
  exact List.dropWhile_idempotent ..

/-- What is left without the blanks in front is the end of the text. -/
theorem skipBlank_suffix (s : List A) : skipBlank blank s <:+ s := List.dropWhile_suffix _

/-- What follows the first word is the end of the text, and there is less of it. -/
theorem token_suffix {w r : List A} (h : token blank s = some (w, r)) :
    r <:+ s ∧ r.length < s.length := by
  have hskip := @skipBlank_suffix A blank s
  simp only [token] at h
  split at h
  · cases h
  · rename_i hne
    obtain ⟨rfl, rfl⟩ := Prod.mk.inj (Option.some.inj h)
    have hdrop : (skipBlank blank s).dropWhile (!blank ·) <:+ skipBlank blank s :=
      List.dropWhile_suffix _
    refine ⟨hdrop.trans hskip, lt_of_lt_of_le ?_ hskip.length_le⟩
    -- the first letter is not blank, so the word has it
    cases hs : skipBlank blank s with
    | nil => simp [hs] at hne
    | cons c rest =>
      have hc : blank c = false := by
        have hhead := List.head?_dropWhile_not blank s
        unfold skipBlank at hs
        rw [hs] at hhead
        simpa using hhead
      rw [List.dropWhile_cons_of_pos (by simp [hc])]
      exact Nat.lt_succ_of_le (List.dropWhile_suffix _).length_le

/-- What follows the first word does not continue it. -/
theorem token_stops {w r : List A} (h : token blank s = some (w, r)) : Stops blank r := by
  simp only [token] at h
  split at h
  · cases h
  · obtain ⟨-, rfl⟩ := Prod.mk.inj (Option.some.inj h)
    intro c hc
    have hhead := List.head?_dropWhile_not (!blank ·) (skipBlank blank s)
    rw [Option.mem_def.mp hc] at hhead
    simpa using hhead

/-- The letter that ends a word can be passed over before the next word is looked for. -/
theorem token_drop_one (hs : Stops blank s) : token blank (s.drop 1) = token blank s := by
  cases s with
  | nil => rfl
  | cons c s =>
    have hc : blank c = true := hs c rfl
    exact token_congr (by simp [skipBlank, hc])

/-- A blank text has no word. -/
theorem token_blank (hs : Blank blank s) : token blank s = none := by
  rw [token, skipBlank_eq_nil hs]
  rfl

/-- After blanks, a word is read to its end. -/
theorem token_append (hs : Blank blank s) (ht : Word blank t) (hu : Stops blank u) :
    token blank (s ++ (t ++ u)) = some (t, u) := by
  have hpos : ∀ c ∈ t, (!blank c) = true := fun c hc => by simp [ht.letters c hc]
  -- The word is not empty, and it stops where the rest begins.
  have htake : u.takeWhile (!blank ·) = [] ∧ u.dropWhile (!blank ·) = u := by
    cases u with
    | nil => simp
    | cons c u =>
      have hc : blank c = true := hu c rfl
      simp [hc]
  have hne : (t ++ u).isEmpty = false := by
    cases t with
    | nil => exact absurd rfl ht.ne_nil
    | cons c t => rfl
  unfold token
  rw [skipBlank_append hs, skipBlank_word ht]
  simp only [hne, List.takeWhile_append_of_pos hpos, List.dropWhile_append_of_pos hpos, htake,
    List.append_nil]
  rfl

/-- A text that starts with a blank, or with nothing, stops a word. -/
theorem stops_append_of_ne_nil (hs : Blank blank s) (hne : s ≠ []) : Stops blank (s ++ t) := by
  obtain ⟨c, s', rfl⟩ := List.exists_cons_of_ne_nil hne
  intro d hd
  obtain rfl : c = d := by simpa using hd
  exact hs c (by simp)

end DnsRelayer.Lib
