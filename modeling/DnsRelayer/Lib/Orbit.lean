import Mathlib.Data.Finset.Card
import Mathlib.Data.Finset.Range
import Mathlib.Logic.Relation

/-!
# Orbits of partial functions

A partial function `f`, followed from a point, either stops after some number of steps (`Halts`) or
goes on for ever. Where it is defined on finitely many points only, it stops exactly when it leads
into no circle (`halts_iff`), and then it takes no more steps than there are such points
(`Halts.le_card`).
-/

namespace DnsRelayer.Lib

variable {A : Type} (f : A → Option A)

/-- Following `f` from a point stops after this many steps. -/
inductive Halts : ℕ → A → Prop
  | stop {a : A} (h : f a = none) : Halts 0 a
  | step {k : ℕ} {a b : A} (h : f a = some b) (hb : Halts k b) : Halts (k + 1) a

/-- One step of `f`. -/
def Leads (a b : A) : Prop := f a = some b

/-- Following `f` from a point leads into a circle. -/
def Circular (a : A) : Prop :=
  ∃ b, Relation.ReflTransGen (Leads f) a b ∧ Relation.TransGen (Leads f) b b

variable {f} {a b : A} {k j : ℕ}

/-- A point's orbit has one length. -/
theorem Halts.unique (hk : Halts f k a) (hj : Halts f j a) : k = j := by
  induction hk generalizing j with
  | stop h =>
    cases hj with
    | stop => rfl
    | step h' => simp [h] at h'
  | step h hb ih =>
    cases hj with
    | stop h' => simp [h] at h'
    | step h' hb' =>
      obtain rfl := Option.some.inj (h.symm.trans h')
      rw [ih hb']

/-- Every point of an orbit that stops has a shorter orbit. -/
theorem Halts.of_transGen (hk : Halts f k a) (hab : Relation.TransGen (Leads f) a b) :
    ∃ j < k, Halts f j b := by
  induction hab with
  | single hab =>
    cases hk with
    | stop h => simp [Leads, h] at hab
    | step h hb =>
      obtain rfl := Option.some.inj (h.symm.trans hab)
      exact ⟨_, Nat.lt_succ_self _, hb⟩
  | tail _ hbc ih =>
    obtain ⟨j, hj, hb⟩ := ih
    cases hb with
    | stop h => simp [Leads, h] at hbc
    | step h hc =>
      obtain rfl := Option.some.inj (h.symm.trans hbc)
      exact ⟨_, by omega, hc⟩

/-- An orbit that stops leads into no circle. -/
theorem Halts.not_circular (hk : Halts f k a) : ¬ Circular f a := by
  rintro ⟨b, hab, hbb⟩
  obtain ⟨j, hb⟩ : ∃ j, Halts f j b := by
    rcases Relation.reflTransGen_iff_eq_or_transGen.mp hab with rfl | hab
    · exact ⟨k, hk⟩
    · obtain ⟨j, -, hb⟩ := hk.of_transGen hab
      exact ⟨j, hb⟩
  obtain ⟨i, hi, hb'⟩ := hb.of_transGen hbb
  exact hi.ne (hb'.unique hb)

/-- A circle ahead of the next point is a circle ahead. -/
theorem Circular.of_leads (h : Leads f a b) (hb : Circular f b) : Circular f a := by
  obtain ⟨c, hbc, hcc⟩ := hb
  exact ⟨c, Relation.ReflTransGen.head h hbc, hcc⟩

/-- A circle ahead is ahead of the next point as well. -/
theorem Circular.leads (ha : Circular f a) : ∃ b, Leads f a b ∧ Circular f b := by
  obtain ⟨c, hac, hcc⟩ := ha
  rcases Relation.ReflTransGen.cases_head hac with rfl | ⟨b, hab, hbc⟩
  · obtain ⟨b, hab, hbc⟩ := Relation.TransGen.head'_iff.mp hcc
    exact ⟨b, hab, a, hbc, hcc⟩
  · exact ⟨b, hab, c, hbc, hcc⟩

variable [DecidableEq A] {s : Finset A}

/-- A function defined on finitely many points stops when it leads into no circle. -/
theorem exists_halts (hs : ∀ b c, Relation.ReflTransGen (Leads f) a b → f b = some c → b ∈ s)
    (ha : ¬ Circular f a) : ∃ k, Halts f k a := by
  induction hn : s.card generalizing s a with
  | zero =>
    cases h : f a with
    | none => exact ⟨0, .stop h⟩
    | some b =>
      have := hs a b .refl h
      rw [Finset.card_eq_zero.mp hn] at this
      simp at this
  | succ n ih =>
    cases h : f a with
    | none => exact ⟨0, .stop h⟩
    | some b =>
      -- The rest of the orbit does not come back, so it is in one point fewer.
      have hback : ¬ Relation.ReflTransGen (Leads f) b a := fun hba =>
        ha ⟨a, .refl, Relation.TransGen.head' h hba⟩
      have hmem : a ∈ s := hs a b .refl h
      obtain ⟨k, hk⟩ := ih (a := b) (s := s.erase a)
        (fun c d hbc hcd => Finset.mem_erase.mpr
          ⟨fun e => hback (e ▸ hbc), hs c d (.head h hbc) hcd⟩)
        (fun hb => ha (hb.of_leads h)) (by rw [Finset.card_erase_of_mem hmem]; omega)
      exact ⟨k + 1, .step h hk⟩

/-- A function defined on finitely many points stops exactly when it leads into no circle. -/
theorem halts_iff (hs : ∀ b c, f b = some c → b ∈ s) : (∃ k, Halts f k a) ↔ ¬ Circular f a :=
  ⟨fun ⟨_, hk⟩ => hk.not_circular, exists_halts fun b c _ => hs b c⟩

omit [DecidableEq A] in
/-- An orbit that stops visits as many points where the function is defined as it has steps. -/
theorem Halts.le_card (hs : ∀ b c, f b = some c → b ∈ s) (hk : Halts f k a) : k ≤ s.card := by
  -- For each length up to `k` the orbit has a point from which it takes that many steps.
  have hpoints : ∀ j ∈ Finset.range k, ∃ b ∈ s, Halts f (j + 1) b := by
    induction hk with
    | stop _ => simp
    | step h hb ih =>
      intro j hj
      rcases Nat.lt_succ_iff_lt_or_eq.mp (Finset.mem_range.mp hj) with hlt | rfl
      · exact ih j (Finset.mem_range.mpr hlt)
      · exact ⟨_, hs _ _ h, .step h hb⟩
  have : Nonempty A := ⟨a⟩
  choose! g hg using hpoints
  rw [← Finset.card_range k]
  refine Finset.card_le_card_of_injOn g (fun j hj => (hg j hj).1) ?_
  intro i hi j hj hij
  have := (hg i hi).2.unique (hij ▸ (hg j hj).2)
  omega

end DnsRelayer.Lib
