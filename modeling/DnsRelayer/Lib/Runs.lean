import Mathlib.Data.List.Induction

/-!
# Runs of a system that steps or fails

A system is a step function: in a state, an action leads to another state, or to a failure that ends
the run. A run is a list of actions. What an invariant says about every state that a run reaches
follows from what it says about one step (`exec_invariant`), where the step may rely on a condition
that the run meets at each of its actions.
-/

namespace DnsRelayer.Lib

variable {σ A ε : Type} (step : σ → A → Except ε σ)

/-- The state after a list of actions. -/
def exec (s : σ) (as : List A) : Except ε σ := as.foldlM step s

/-- What the steps of a run emit, in order, where a step emits what its action and the states before
and after it make. -/
def gathered {β : Type} (emit : σ → A → σ → List β) : σ → List A → List β
  | _, [] => []
  | s, a :: as =>
    match step s a with
    | .ok t => emit s a t ++ gathered emit t as
    | .error _ => []

/-- Every action of a run meets the condition, in the state in which it is taken. -/
def Meets (ok : σ → A → Prop) (s : σ) (as : List A) : Prop :=
  ∀ pre a, pre ++ [a] <+: as → ∀ s', exec step s pre = .ok s' → ok s' a

variable {step}

/-- The last action of a run is taken in the state that the others lead to. -/
theorem exec_concat {s s' : σ} {as : List A} {a : A} :
    exec step s (as ++ [a]) = .ok s' ↔ ∃ t, exec step s as = .ok t ∧ step t a = .ok s' := by
  rw [exec, List.foldlM_append, exec]
  cases h : as.foldlM step s with
  | error e => simp [bind, Except.bind]
  | ok t => cases ht : step t a <;> simp [bind, Except.bind, pure, Except.pure, ht]

/-- The last step of a run emits after the others. -/
theorem gathered_concat {β : Type} {emit : σ → A → σ → List β} {s t u : σ} {as : List A} {a : A}
    (hs : exec step s as = .ok t) (hstep : step t a = .ok u) :
    gathered step emit s (as ++ [a]) = gathered step emit s as ++ emit t a u := by
  induction as generalizing s with
  | nil =>
    cases hs
    simp [gathered, hstep]
  | cons b as ih =>
    rw [exec, List.foldlM_cons] at hs
    cases hb : step s b with
    | error e =>
      rw [hb] at hs
      cases hs
    | ok s' =>
      rw [hb] at hs
      simp only [List.cons_append, gathered, hb, ih hs, List.append_assoc]

/-- A run meets a condition when its first action does, and the others do from where it leads. -/
theorem meets_cons {ok : σ → A → Prop} {s : σ} {a : A} {as : List A} (ha : ok s a)
    (has : ∀ t, step s a = .ok t → Meets step ok t as) : Meets step ok s (a :: as) := by
  intro pre b hp s' hs
  cases pre with
  | nil =>
    obtain ⟨rfl, -⟩ := List.cons_prefix_cons.mp hp
    cases hs
    exact ha
  | cons c pre =>
    obtain ⟨rfl, hp'⟩ := List.cons_prefix_cons.mp hp
    rw [exec, List.foldlM_cons] at hs
    cases ht : step s c with
    | error e =>
      rw [ht] at hs
      cases hs
    | ok t =>
      rw [ht] at hs
      exact has t ht pre b hp' s' hs

/-- A run meets a condition when the run without its last action does, and the last action does. -/
theorem meets_concat {ok : σ → A → Prop} {s : σ} {as : List A} {a : A} :
    Meets step ok s (as ++ [a]) ↔
      Meets step ok s as ∧ ∀ t, exec step s as = .ok t → ok t a := by
  constructor
  · intro h
    exact ⟨fun pre b hp => h pre b (hp.trans (List.prefix_append as [a])), h as a (List.prefix_refl _)⟩
  · rintro ⟨has, ha⟩ pre b hp s' hs
    rcases List.prefix_concat_iff.mp hp with heq | hp
    · obtain ⟨rfl, hb⟩ := List.append_inj' heq rfl
      obtain rfl := List.singleton_inj.mp hb
      exact ha s' hs
    · exact has pre b hp s' hs

/-- A run goes on with another from where it leads. -/
theorem exec_append {s t u : σ} {as bs : List A} (has : exec step s as = .ok t)
    (hbs : exec step t bs = .ok u) : exec step s (as ++ bs) = .ok u := by
  rw [exec, List.foldlM_append]
  rw [exec] at has
  rw [has]
  exact hbs

/-- A run meets a condition when its two parts do, the second from where the first leads. -/
theorem meets_append {ok : σ → A → Prop} {s t : σ} {as bs : List A}
    (has : Meets step ok s as) (hexec : exec step s as = .ok t) (hbs : Meets step ok t bs) :
    Meets step ok s (as ++ bs) := by
  induction bs using List.reverseRecOn with
  | nil => rwa [List.append_nil]
  | append_singleton bs b ih =>
    rw [meets_concat] at hbs
    rw [← List.append_assoc, meets_concat]
    refine ⟨ih hbs.1, fun u hu => hbs.2 u ?_⟩
    rw [exec, List.foldlM_append] at hu
    rw [exec] at hexec
    rw [hexec] at hu
    exact hu

/-- A run without actions meets any condition. -/
theorem meets_nil {ok : σ → A → Prop} {s : σ} : Meets step ok s [] := by
  intro pre a hp
  simp at hp

/-- A run meets a condition that its actions meet in every state. -/
theorem meets_of_forall {ok : σ → A → Prop} {s : σ} {as : List A} (h : ∀ a ∈ as, ∀ t, ok t a) :
    Meets step ok s as := fun _ a hp t _ => h a (hp.subset (by simp)) t

/-- A run that can be computed gets to a state that is as a test says. -/
theorem exec_reaches {p : σ → Bool} {s : σ} {as : List A}
    (h : (exec step s as).toOption.any p = true) : ∃ s', exec step s as = .ok s' ∧ p s' = true := by
  cases hs : exec step s as with
  | error e =>
    rw [hs] at h
    cases h
  | ok s' =>
    rw [hs] at h
    exact ⟨s', rfl, h⟩

/-- An invariant that every step keeps, when its condition is met, holds in every state that a run
reaches whose actions all meet the condition. -/
theorem exec_invariant {I : σ → Prop} {ok : σ → A → Prop} {s : σ} {as : List A} (h0 : I s)
    (hstep : ∀ t a t', I t → ok t a → step t a = .ok t' → I t') (hok : Meets step ok s as) :
    ∀ pre, pre <+: as → ∀ s', exec step s pre = .ok s' → I s' := by
  intro pre
  induction pre using List.reverseRecOn with
  | nil =>
    intro _ s' hs
    cases hs
    exact h0
  | append_singleton pre a ih =>
    intro hp s' hs
    obtain ⟨t, ht, hta⟩ := exec_concat.mp hs
    have hpre : pre <+: as := (List.prefix_append pre [a]).trans hp
    exact hstep t a s' (ih hpre t ht) (hok pre a hp t ht) hta

/-- Where no step fails whose condition is met, a run whose actions all meet it does not fail. What
the steps keep may speak of the actions taken so far. -/
theorem exec_history {I : List A → σ → Prop} {ok : σ → A → Prop} {s : σ} {as : List A} (h0 : I [] s)
    (hstep : ∀ us t a, us ++ [a] <+: as → I us t → ok t a → ∃ t', step t a = .ok t' ∧ I (us ++ [a]) t')
    (hok : Meets step ok s as) : ∀ pre, pre <+: as → ∃ s', exec step s pre = .ok s' ∧ I pre s' := by
  intro pre
  induction pre using List.reverseRecOn with
  | nil => exact fun _ => ⟨s, rfl, h0⟩
  | append_singleton pre a ih =>
    intro hp
    obtain ⟨t, ht, hI⟩ := ih ((List.prefix_append pre [a]).trans hp)
    obtain ⟨t', hta, hI'⟩ := hstep pre t a hp hI (hok pre a hp t ht)
    exact ⟨t', exec_concat.mpr ⟨t, ht, hta⟩, hI'⟩

/-- Where no step fails whose condition is met, a run whose actions all meet it does not fail, and
the invariant holds in every state that it reaches. -/
theorem exec_total {I : σ → Prop} {ok : σ → A → Prop} {s : σ} {as : List A} (h0 : I s)
    (hstep : ∀ t a, I t → ok t a → ∃ t', step t a = .ok t' ∧ I t') (hok : Meets step ok s as) :
    ∀ pre, pre <+: as → ∃ s', exec step s pre = .ok s' ∧ I s' :=
  exec_history h0 (fun _ t a _ => hstep t a) hok

/-- A run meets a condition exactly when its first action does, and the others do from where it
leads. -/
theorem meets_cons_iff {ok : σ → A → Prop} {s : σ} {a : A} {as : List A} :
    Meets step ok s (a :: as) ↔ ok s a ∧ ∀ t, step s a = .ok t → Meets step ok t as := by
  refine ⟨fun h => ⟨h [] a (by simp) s rfl, ?_⟩, fun h => meets_cons h.1 h.2⟩
  intro t ht pre b hp s' hs
  refine h (a :: pre) b (List.cons_prefix_cons.mpr ⟨rfl, hp⟩) s' ?_
  rw [exec, List.foldlM_cons, ht]
  exact hs

/-- Whether a run meets a condition is decided by running it. -/
instance Meets.instDecidable {ok : σ → A → Prop} [DecidableRel ok] :
    ∀ s as, Decidable (Meets step ok s as)
  | _, [] => isTrue meets_nil
  | s, a :: as =>
    if h : ok s a then
      match hs : step s a with
      | .ok t =>
        have : Decidable (Meets step ok t as) := Meets.instDecidable t as
        decidable_of_iff (Meets step ok t as) (by simp [meets_cons_iff, h, hs])
      | .error e => isTrue (by simp [meets_cons_iff, h, hs])
    else isFalse fun hm => h (meets_cons_iff.mp hm).1

end DnsRelayer.Lib
