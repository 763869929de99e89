import DnsRelayer.Lib.Runs
import Mathlib.Order.Nat

/-!
# Fair runs without end

A run without end is a sequence of states and of the actions between them. It is fair to the agents of
a system when each of them that can move from some time on does so.

`Trace.Fair.eventually` is the rule for what comes about in a fair run. It asks for a rank of states that no
step raises, and for agents that help: in each state there is one, it can move, its moves lower the rank,
and it goes on helping until the rank is lowered by some step, or the goal is reached.
-/

namespace DnsRelayer.Lib

variable {σ A ε ι : Type}

/-- A run without end. -/
structure Trace (step : σ → A → Except ε σ) where
  state : ℕ → σ
  action : ℕ → A
  steps : ∀ n, step (state n) (action n) = .ok (state (n + 1))

variable {step : σ → A → Except ε σ} {can : ι → σ → Prop} {moves : ι → σ → A → σ → Prop}

namespace Trace

variable (r : Trace step)

/-- What holds at the start and is kept by every step holds at all times. -/
theorem always {I : σ → Prop} (h0 : I (r.state 0))
    (hstep : ∀ n, I (r.state n) → I (r.state (n + 1))) (n : ℕ) : I (r.state n) := by
  induction n with
  | zero => exact h0
  | succ n ih => exact hstep n ih

/-- What holds at a time and is kept by every step holds from then on. -/
theorem onwards {I : σ → Prop} {n : ℕ} (hn : I (r.state n))
    (hstep : ∀ m, I (r.state m) → I (r.state (m + 1))) {m : ℕ} (hm : n ≤ m) : I (r.state m) := by
  induction m, hm using Nat.le_induction with
  | base => exact hn
  | succ m _ ih => exact hstep m ih

/-- Every agent that can move from some time on moves. -/
def Fair (can : ι → σ → Prop) (moves : ι → σ → A → σ → Prop) : Prop :=
  ∀ i n, (∀ m, n ≤ m → can i (r.state m)) →
    ∃ m, n ≤ m ∧ moves i (r.state m) (r.action m) (r.state (m + 1))

variable {r}

/-- **Progress.** In a fair run the goal is reached when in every state before it an agent helps: it can
move, and as long as the goal is not reached, and no step lowers the rank, it helps and does not move, so
that its own moves reach the goal or lower the rank. -/
theorem Fair.eventually (h : r.Fair can moves) {I Q : σ → Prop} (rank : σ → ℕ) (helps : ι → σ → Prop)
    (hhelp : ∀ s, I s → ¬ Q s → ∃ i, helps i s)
    (hcan : ∀ i s, I s → ¬ Q s → helps i s → can i s)
    (hstep : ∀ s a s', I s → I s' → ¬ Q s → step s a = .ok s' → Q s' ∨ rank s' < rank s ∨
      rank s' = rank s ∧ ∀ i, helps i s → helps i s' ∧ ¬ moves i s a s')
    (n : ℕ) (hI : ∀ m, n ≤ m → I (r.state m)) : ∃ m, n ≤ m ∧ Q (r.state m) := by
  -- By induction on the rank: no state without the goal is the last whose rank is lowered.
  induction hrank : rank (r.state n) using Nat.strong_induction_on generalizing n with
  | h k ih =>
    by_contra hnone
    push Not at hnone
    have hlower : ∀ m, n ≤ m → ¬ rank (r.state m) < k := fun m hm hlt => by
      obtain ⟨m', hm', hQ⟩ := ih _ hlt m (fun j hj => hI j (hm.trans hj)) rfl
      exact hnone m' (hm.trans hm') hQ
    obtain ⟨i, hi⟩ := hhelp _ (hI n le_rfl) (hnone n le_rfl)
    -- The agent that helps goes on helping, and does not move.
    have hstays : ∀ m, n ≤ m → rank (r.state m) = k ∧ helps i (r.state m) := by
      intro m hm
      induction m, hm using Nat.le_induction with
      | base => exact ⟨hrank, hi⟩
      | succ m hm ihm =>
        rcases hstep _ _ _ (hI m hm) (hI (m + 1) (Nat.le_succ_of_le hm)) (hnone m hm) (r.steps m) with
          hQ | hlt | ⟨heq, hhelps⟩
        · exact absurd hQ (hnone _ (Nat.le_succ_of_le hm))
        · exact absurd (ihm.1 ▸ hlt) (hlower _ (Nat.le_succ_of_le hm))
        · exact ⟨heq.trans ihm.1, (hhelps i ihm.2).1⟩
    obtain ⟨m, hm, hmoves⟩ := h i n fun m hm => hcan i _ (hI m hm) (hnone m hm) (hstays m hm).2
    rcases hstep _ _ _ (hI m hm) (hI (m + 1) (Nat.le_succ_of_le hm)) (hnone m hm) (r.steps m) with
      hQ | hlt | ⟨-, hhelps⟩
    · exact hnone _ (Nat.le_succ_of_le hm) hQ
    · exact hlower _ (Nat.le_succ_of_le hm) ((hstays m hm).1 ▸ hlt)
    · exact (hhelps i (hstays m hm).2).2 hmoves

/-- The rule, where a step has an effect or does nothing, and who moves has one. -/
theorem Fair.eventually_of_effect (h : r.Fair can moves) {effect : σ → A → σ → Prop}
    (hcases : ∀ {s a s'}, step s a = .ok s' → s' = s ∨ effect s a s')
    (hmoves : ∀ {i s a s'}, moves i s a s' → effect s a s') {I Q : σ → Prop} (rank : σ → ℕ)
    (helps : ι → σ → Prop) (hhelp : ∀ s, I s → ¬ Q s → ∃ i, helps i s)
    (hcan : ∀ i s, I s → ¬ Q s → helps i s → can i s)
    (hstep : ∀ s a s', I s → I s' → ¬ Q s → effect s a s' → Q s' ∨ rank s' < rank s ∨
      rank s' = rank s ∧ ∀ i, helps i s → helps i s' ∧ ¬ moves i s a s')
    (n : ℕ) (hI : ∀ m, n ≤ m → I (r.state m)) : ∃ m, n ≤ m ∧ Q (r.state m) := by
  refine h.eventually rank helps hhelp hcan (fun s a s' hs hs' hnot hok => ?_) n hI
  rcases hcases hok with rfl | he
  · refine Or.inr (Or.inr ⟨rfl, fun i hi => ⟨hi, fun hm => ?_⟩⟩)
    rcases hstep _ _ _ hs hs hnot (hmoves hm) with hQ | hlt | ⟨-, hno⟩
    · exact hnot hQ
    · exact lt_irrefl _ hlt
    · exact (hno i hi).2 hm
  · exact hstep _ _ _ hs hs' hnot he

/-! ## Runs that come to rest -/

/-- A run with a step before it. -/
def cons {s : σ} (a : A) (r : Trace step) (h : step s a = .ok (r.state 0)) : Trace step where
  state n := n.casesOn s r.state
  action n := n.casesOn a r.action
  steps
    | 0 => h
    | n + 1 => r.steps n

/-- A step before a run does not matter for what is fair. -/
theorem Fair.cons (h : r.Fair can moves) {s : σ} {a : A} (hstep : step s a = .ok (r.state 0)) :
    (r.cons a hstep).Fair can moves := by
  intro i n hcan
  obtain ⟨m, hm, hmoves⟩ := h i n fun m hm => hcan (m + 1) (Nat.le_succ_of_le hm)
  exact ⟨m + 1, Nat.le_succ_of_le hm, hmoves⟩

/-- A run to a state in which no agent can move is the start of one without end that is fair: from there on
nothing happens. -/
theorem exists_fair {ok : σ → A → Prop} {s s' : σ} {as : List A} {a : A} (hs : exec step s as = .ok s')
    (hok : Meets step ok s as) (hrest : step s' a = .ok s') (hok' : ok s' a) (hstill : ∀ i, ¬ can i s') :
    ∃ r : Trace step, r.state 0 = s ∧ r.state as.length = s' ∧ r.Fair can moves ∧
      ∀ n, ok (r.state n) (r.action n) := by
  induction as generalizing s with
  | nil =>
    obtain rfl := Except.ok.inj hs
    exact ⟨⟨fun _ => s, fun _ => a, fun _ => hrest⟩, rfl, rfl,
      fun i n hcan => absurd (hcan n le_rfl) (hstill i), fun _ => hok'⟩
  | cons b as ih =>
    obtain ⟨hb, hmore⟩ := meets_cons_iff.mp hok
    rw [exec, List.foldlM_cons] at hs
    cases hstep : step s b with
    | error e =>
      rw [hstep] at hs
      cases hs
    | ok s₁ =>
      rw [hstep] at hs
      obtain ⟨r, h0, hlast, hfair, hall⟩ := ih hs (hmore s₁ hstep)
      refine ⟨r.cons b (h0 ▸ hstep), rfl, hlast, hfair.cons _, fun n => ?_⟩
      cases n with
      | zero => exact hb
      | succ n => exact hall n

end Trace

end DnsRelayer.Lib
