import DnsRelayer.Lib.Pool
import Mathlib.Algebra.BigOperators.Group.Finset.Piecewise
import Mathlib.Data.Multiset.AddSub
import Mathlib.Tactic.Abel

/-!
# Pools with a record of what is called

A recorded pool keeps, for each thread that has a job, what it has called so far and what the calls
returned, and the same for the jobs that have ended. It takes the steps of the pool
(`Recorded.exec_pool`).

`Logs` is the condition on a program that whatever it calls until it ends is as it should be;
`Recorded.Sound.step` is the rule for the pool: every step goes on, every job that has ended called what
it should, and none calls more than its bound.

`Prog.Reaches` says what is left of a program after some calls: it is what a thread of a recorded pool
runs (`Recorded.Traced.step`), so that what the handler of a job calls can be read off its program.

`Recorded.Effect` lists what a step can do, for invariants that are kept case by case.
-/

namespace DnsRelayer.Lib

variable {Op : Type} {Res : Op → Type} {ε α β : Type}

/-- A call of an operation, and what it returned. -/
abbrev Called (Op : Type) (Res : Op → Type) : Type := (o : Op) × Res o

/-- A program that ends with what it called as well, after other calls. -/
def Prog.record : Prog Op Res ε α → List (Called Op Res) → Prog Op Res ε (α × List (Called Op Res))
  | .pure a, cs => .pure (a, cs)
  | .fail e, _ => .fail e
  | .call o k, cs => .call o fun r => (k r).record (cs ++ [⟨o, r⟩])

/-- Programs one after the other record their calls one after the other. -/
theorem Prog.record_bind (p : Prog Op Res ε α) (f : α → Prog Op Res ε β)
    (cs : List (Called Op Res)) :
    (p >>= f).record cs = p.record cs >>= fun x => (f x.1).record x.2 := by
  induction p generalizing cs with
  | pure a => rfl
  | fail e => rfl
  | call o k ih => exact congrArg (Prog.call o) (funext fun r => ih r (cs ++ [⟨o, r⟩]))

/-- What is left of a program after calls that returned what they did. -/
inductive Prog.Reaches : Prog Op Res ε α → List (Called Op Res) → Prog Op Res ε α → Prop
  | refl (p : Prog Op Res ε α) : Reaches p [] p
  | call {o : Op} {k : Res o → Prog Op Res ε α} {r : Res o} {cs : List (Called Op Res)}
    {q : Prog Op Res ε α} (rest : Reaches (k r) cs q) : Reaches (.call o k) (⟨o, r⟩ :: cs) q

/-- The next call. -/
theorem Prog.Reaches.concat {p : Prog Op Res ε α} {cs : List (Called Op Res)} {o : Op}
    {k : Res o → Prog Op Res ε α} (h : p.Reaches cs (.call o k)) (r : Res o) :
    p.Reaches (cs ++ [⟨o, r⟩]) (k r) := by
  generalize hq : Prog.call o k = q at h
  induction h with
  | refl p =>
    subst hq
    exact .call (.refl _)
  | call rest ih => exact .call (ih hq)

/-- A job, and what it called. -/
structure Invocation (Job Op : Type) (Res : Op → Type) where
  job : Job
  calls : List (Called Op Res)

/-- A pool, what the threads that have a job have called so far, and the jobs that have ended. -/
structure Recorded (ι σ Job Op : Type) (Res : Op → Type) (ε : Type) where
  pool : Pool ι σ Op Res ε
  going : ι → Option (Invocation Job Op Res)
  ended : List (Invocation Job Op Res)

variable {ι σ Job Env X : Type} (body : Job → Prog Op Res ε Unit)
  (perform : (o : Op) → Env → σ → Except ε (Res o × σ)) (change : X → σ → σ)

namespace Recorded

/-- No thread has had a job. -/
def init (s : σ) : Recorded ι σ Job Op Res ε := ⟨⟨s, fun _ => none⟩, fun _ => none, []⟩

variable [DecidableEq ι]

/-- The step of the pool, with what is recorded of it. -/
def step (s : Recorded ι σ Job Op Res ε) :
    PoolAction ι Job Env X → Except ε (Recorded ι σ Job Op Res ε)
  | .start t j =>
    match s.pool.threads t with
    | none => .ok { s with
        pool := { s.pool with threads := Function.update s.pool.threads t (some (body j)) }
        going := Function.update s.going t (some ⟨j, []⟩) }
    | some _ => .ok s
  | .run t e =>
    match s.pool.threads t with
    | none => .ok s
    | some (.pure _) => .ok {
        pool := { s.pool with threads := Function.update s.pool.threads t none }
        going := Function.update s.going t none
        ended := (s.going t).toList ++ s.ended }
    | some (.fail err) => .error err
    | some (.call o k) => do
      let (r, shared) ← perform o e s.pool.shared
      .ok { s with
        pool := ⟨shared, Function.update s.pool.threads t (some (k r))⟩
        going := Function.update s.going t
          ((s.going t).map fun i => { i with calls := i.calls ++ [⟨o, r⟩] }) }
  | .outside x => .ok { s with pool := { s.pool with shared := change x s.pool.shared } }

variable {body perform change}

/-- A recorded pool takes the steps of its pool. -/
theorem step_pool (s : Recorded ι σ Job Op Res ε) (a : PoolAction ι Job Env X) :
    (s.step body perform change a).map pool = s.pool.step body perform change a := by
  cases a with
  | start t j =>
    cases h : s.pool.threads t with
    | none => simp [step, Pool.step, h, Except.map]
    | some p => simp [step, Pool.step, h, Except.map]
  | run t e =>
    cases h : s.pool.threads t with
    | none => simp [step, Pool.step, h, Except.map]
    | some p =>
      cases p with
      | pure a => simp [step, Pool.step, h, Except.map]
      | fail err => simp [step, Pool.step, h, Except.map]
      | call o k =>
        simp only [step, Pool.step, h]
        cases perform o e s.pool.shared with
        | error err => rfl
        | ok r => rfl
  | outside x => rfl

/-- A run of a recorded pool is one of its pool. -/
theorem exec_pool (s : Recorded ι σ Job Op Res ε) (as : List (PoolAction ι Job Env X)) :
    (exec (step body perform change) s as).map pool =
      exec (Pool.step body perform change) s.pool as := by
  induction as generalizing s with
  | nil => rfl
  | cons a as ih =>
    rw [exec, exec, List.foldlM_cons, List.foldlM_cons, ← s.step_pool a]
    cases s.step body perform change a with
    | error err => rfl
    | ok t => exact ih t

end Recorded

/-! ## What programs call -/

variable {D : Discipline σ Op Env} {perform}

/-- A program is safe, after the calls `cs`, and ends with a value and all calls so far as `Q`
says. -/
def Logs (perform : (o : Op) → Env → σ → Except ε (Res o × σ)) (D : Discipline σ Op Env)
    (p : Prog Op Res ε α) (cs : List (Called Op Res)) (Q : α → List (Called Op Res) → σ → Prop)
    (s : σ) : Prop :=
  Safe perform D (p.record cs) (fun x s' => Q x.1 x.2 s') s

namespace Logs

variable {p : Prog Op Res ε α} {cs : List (Called Op Res)}
  {Q : α → List (Called Op Res) → σ → Prop} {s : σ}

theorem mono (h : Logs perform D p cs Q s) {s' : σ} (hle : D.le s s') : Logs perform D p cs Q s' :=
  Safe.mono h hle

theorem pure {a : α} (h : ∀ s', D.le s s' → D.inv s' → Q a cs s') :
    Logs perform D (Pure.pure a : Prog Op Res ε α) cs Q s := h

/-- A computation that does not fail. -/
theorem ofOk {x : Except ε α} {a : α} (hx : x = .ok a) (h : ∀ s', D.le s s' → D.inv s' → Q a cs s') :
    Logs perform D (Prog.ofExcept x : Prog Op Res ε α) cs Q s := by
  rw [hx]
  exact h

/-- A call of an operation that does not fail. -/
theorem op (o : Op) {Q : Res o → List (Called Op Res) → σ → Prop}
    (h : ∀ s' e, D.le s s' → D.inv s' → D.ok s' o e → ∃ r s'', perform o e s' = .ok (r, s'') ∧
      D.inv s'' ∧ D.le s' s'' ∧ ∀ s₁, D.le s'' s₁ → D.inv s₁ → Q r (cs ++ [⟨o, r⟩]) s₁) :
    Logs perform D (Prog.op o : Prog Op Res ε (Res o)) cs Q s := by
  intro s' e hle hI hok
  obtain ⟨r, s'', hperf, hsafe⟩ := h s' e hle hI hok
  refine ⟨Or.inr ⟨_, hperf⟩, fun r' t hperf' => ?_⟩
  obtain ⟨rfl, rfl⟩ := Prod.mk.inj (Except.ok.inj (hperf.symm.trans hperf'))
  exact hsafe

/-- Programs one after the other: the second goes on with the calls of the first. -/
theorem bind {f : α → Prog Op Res ε β} {Q' : β → List (Called Op Res) → σ → Prop}
    (h : Logs perform D p cs Q s) (hs : D.inv s)
    (hf : ∀ a cs' s', D.le s s' → D.inv s' → Q a cs' s' → Logs perform D (f a) cs' Q' s') :
    Logs perform D (p >>= f) cs Q' s := by
  rw [Logs, Prog.record_bind]
  exact Safe.bind h hs fun x s' hle hI hx => hf x.1 x.2 s' hle hI hx

/-- What a program ends with may be weakened. -/
theorem weaken {Q' : α → List (Called Op Res) → σ → Prop} (h : Logs perform D p cs Q s)
    (hQ : ∀ a cs' s', D.inv s' → Q a cs' s' → Q' a cs' s') : Logs perform D p cs Q' s :=
  Safe.weaken h fun x s' hI hx => hQ x.1 x.2 s' hI hx

end Logs

/-! ## The rule -/

namespace Recorded

variable (R : Job → List (Called Op Res) → Prop) (n : ℕ)

/-- What a thread has to run, for an invocation that is going on, ends with calls as they should be,
and not too many. -/
def Due (perform : (o : Op) → Env → σ → Except ε (Res o × σ)) (D : Discipline σ Op Env) (s : σ) :
    Option (Prog Op Res ε Unit) → Option (Invocation Job Op Res) → Prop
  | none, none => True
  | some p, some i => Logs perform D p i.calls (fun _ cs _ => R i.job cs) s ∧
      ∃ m, p.Calls (fun _ => True) m ∧ i.calls.length + m ≤ n
  | _, _ => False

/-- The invariant holds, what every thread has to run is due, and the jobs that have ended called what
they should. -/
structure Sound (perform : (o : Op) → Env → σ → Except ε (Res o × σ)) (D : Discipline σ Op Env)
    (s : Recorded ι σ Job Op Res ε) : Prop where
  shared : D.inv s.pool.shared
  threads : ∀ t, Due R n perform D s.pool.shared (s.pool.threads t) (s.going t)
  ended : ∀ i ∈ s.ended, R i.job i.calls

variable {R n}

theorem Due.mono {s s' : σ} {p : Option (Prog Op Res ε Unit)} {i : Option (Invocation Job Op Res)}
    (h : Due R n perform D s p i) (hle : p ≠ none → D.le s s') : Due R n perform D s' p i := by
  cases p <;> cases i
  · trivial
  · exact h
  · exact h
  · exact ⟨h.1.mono (hle (by simp)), h.2⟩

/-- A pool without jobs is sound. -/
theorem init_sound {s : σ} (hs : D.inv s) :
    (init s : Recorded ι σ Job Op Res ε).Sound R n perform D :=
  ⟨hs, fun _ => trivial, fun _ hi => absurd hi List.not_mem_nil⟩

variable [DecidableEq ι] {okJob : Job → Prop} {okChange : Pool ι σ Op Res ε → X → Prop}
  {body : Job → Prog Op Res ε Unit} {change : X → σ → σ}

/-- A step that is allowed does not fail in a sound pool, and keeps it sound. -/
theorem Sound.step (hfail : ¬ D.mayFail)
    (hbody : ∀ j s, okJob j → D.inv s → Logs perform D (body j) [] (fun _ cs _ => R j cs) s)
    (hcalls : ∀ j, (body j).Calls (fun _ => True) n)
    (hchange : ∀ (s : Pool ι σ Op Res ε) x, okChange s x → D.inv s.shared →
      D.inv (change x s.shared) ∧ (¬ s.Idle → D.le s.shared (change x s.shared)))
    {s : Recorded ι σ Job Op Res ε} (h : s.Sound R n perform D) (a : PoolAction ι Job Env X)
    (ha : s.pool.Allows D okJob okChange a) :
    ∃ s', s.step body perform change a = .ok s' ∧ s'.Sound R n perform D := by
  -- One thread has something else to run, or to record.
  have hupdate : ∀ {t : ι} {q : Option (Prog Op Res ε Unit)} {i : Option (Invocation Job Op Res)}
      {σ' : σ}, D.le s.pool.shared σ' → Due R n perform D σ' q i →
      ∀ u, Due R n perform D σ' (Function.update s.pool.threads t q u)
        (Function.update s.going t i u) := by
    intro t q i σ' hle hdue u
    by_cases hut : u = t
    · subst hut
      rwa [Function.update_self, Function.update_self]
    · rw [Function.update_of_ne hut, Function.update_of_ne hut]
      exact (h.threads u).mono fun _ => hle
  cases a with
  | start t j =>
    simp only [Recorded.step]
    cases s.pool.threads t with
    | none =>
      refine ⟨_, rfl, h.shared, hupdate (D.refl _) ⟨hbody j _ ha h.shared, n, hcalls j, ?_⟩, h.ended⟩
      exact Nat.le_of_eq (Nat.zero_add n)
    | some p => exact ⟨s, rfl, h⟩
  | outside x =>
    obtain ⟨hI, hle⟩ := hchange s.pool x ha h.shared
    refine ⟨_, rfl, hI, fun u => (h.threads u).mono fun hu => hle fun hidle => ?_, h.ended⟩
    exact hu (hidle u)
  | run t e =>
    have hdue := h.threads t
    simp only [Recorded.step]
    cases ht : s.pool.threads t with
    | none => exact ⟨s, rfl, h⟩
    | some p =>
      rw [ht] at hdue
      cases hg : s.going t with
      | none =>
        rw [hg] at hdue
        exact hdue.elim
      | some i =>
        rw [hg] at hdue
        obtain ⟨hlogs, m, hm, hle⟩ := hdue
        cases p with
        | pure x =>
          refine ⟨_, rfl, h.shared, hupdate (D.refl _) trivial, fun i' hi' => ?_⟩
          rcases List.mem_cons.mp hi' with rfl | hi'
          · exact hlogs _ (D.refl _) h.shared
          · exact h.ended i' hi'
        | fail err => exact absurd hlogs hfail
        | call o k =>
          obtain ⟨hperf, hcall⟩ := hlogs _ e (D.refl _) h.shared (ha o k ht)
          obtain ⟨⟨r, shared⟩, hr⟩ := hperf.resolve_left hfail
          obtain ⟨hI, hmore, hk⟩ := hcall r shared hr
          cases m with
          | zero => exact hm.elim
          | succ m =>
            simp only [hr]
            refine ⟨_, rfl, hI, hupdate hmore ⟨hk, m, hm.2 r, ?_⟩, h.ended⟩
            rw [List.length_append, List.length_singleton]
            omega

omit [DecidableEq ι] in
/-- A thread at work has called no more than its bound. -/
theorem Sound.calls_le {s : Recorded ι σ Job Op Res ε} (h : s.Sound R n perform D) {t : ι}
    {i : Invocation Job Op Res} (hi : s.going t = some i) : i.calls.length ≤ n := by
  have hdue := h.threads t
  rw [hi] at hdue
  cases ht : s.pool.threads t with
  | none =>
    rw [ht] at hdue
    exact hdue.elim
  | some p =>
    rw [ht] at hdue
    obtain ⟨-, m, -, hle⟩ := hdue
    omega

/-! ### What is left of a program -/

/-- Every thread that has a job has what is left of it to run, and every job that has ended is one that is
allowed. -/
structure Traced (okJob : Job → Prop) (body : Job → Prog Op Res ε Unit)
    (s : Recorded ι σ Job Op Res ε) : Prop where
  going : ∀ t i, s.going t = some i → okJob i.job ∧
    ∃ p, s.pool.threads t = some p ∧ (body i.job).Reaches i.calls p
  ended : ∀ i ∈ s.ended, okJob i.job ∧ ∃ p, (body i.job).Reaches i.calls p

omit [DecidableEq ι] in
theorem init_traced (s : σ) : (init s : Recorded ι σ Job Op Res ε).Traced okJob body where
  going _ _ h := by cases h
  ended _ h := absurd h List.not_mem_nil

/-- A step keeps what is recorded, when the job that it starts is allowed. -/
theorem Traced.step {s s' : Recorded ι σ Job Op Res ε} (h : s.Traced okJob body)
    {a : PoolAction ι Job Env X} (ha : ∀ t j, a = .start t j → okJob j)
    (hs : s.step body perform change a = .ok s') : s'.Traced okJob body := by
  -- One thread has something else to run, or to record.
  have hupdate : ∀ {t : ι} {q : Option (Prog Op Res ε Unit)} {i : Option (Invocation Job Op Res)},
      (∀ j, i = some j → okJob j.job ∧ ∃ p, q = some p ∧ (body j.job).Reaches j.calls p) →
      ∀ u j, Function.update s.going t i u = some j → okJob j.job ∧
        ∃ p, Function.update s.pool.threads t q u = some p ∧ (body j.job).Reaches j.calls p := by
    intro t q i hi u j hj
    by_cases hut : u = t
    · subst hut
      rw [Function.update_self] at hj ⊢
      exact hi j hj
    · rw [Function.update_of_ne hut] at hj ⊢
      exact h.going u j hj
  cases a with
  | start t j =>
    simp only [Recorded.step] at hs
    cases ht : s.pool.threads t with
    | some p =>
      rw [ht] at hs
      obtain rfl := Except.ok.inj hs
      exact h
    | none =>
      rw [ht] at hs
      obtain rfl := Except.ok.inj hs
      refine ⟨hupdate fun i hi => ?_, h.ended⟩
      obtain rfl := Option.some.inj hi
      exact ⟨ha t j rfl, _, rfl, .refl _⟩
  | outside x =>
    obtain rfl := Except.ok.inj hs
    exact ⟨h.going, h.ended⟩
  | run t e =>
    simp only [Recorded.step] at hs
    cases ht : s.pool.threads t with
    | none =>
      rw [ht] at hs
      obtain rfl := Except.ok.inj hs
      exact h
    | some p =>
      rw [ht] at hs
      cases p with
      | pure x =>
        obtain rfl := Except.ok.inj hs
        refine ⟨hupdate fun i hi => (by cases hi), fun i hi => ?_⟩
        rcases List.mem_append.mp hi with hi | hi
        · obtain ⟨hok, p, -, hp⟩ := h.going t i (Option.mem_toList.mp hi)
          exact ⟨hok, p, hp⟩
        · exact h.ended i hi
      | fail err => cases hs
      | call o k =>
        cases hperf : perform o e s.pool.shared with
        | error err =>
          simp only [hperf] at hs
          cases hs
        | ok r =>
          simp only [hperf] at hs
          obtain rfl := Except.ok.inj hs
          refine ⟨hupdate fun i hi => ?_, h.ended⟩
          obtain ⟨i', hi', rfl⟩ := Option.map_eq_some_iff.mp hi
          obtain ⟨hok, p, hp, hreaches⟩ := h.going t i' hi'
          obtain rfl := Option.some.inj (ht.symm.trans hp)
          exact ⟨hok, _, rfl, hreaches.concat r.1⟩

end Recorded

/-! ## What a step does -/

namespace Recorded

variable [DecidableEq ι] (body : Job → Prog Op Res ε Unit)
  (perform : (o : Op) → Env → σ → Except ε (Res o × σ)) (change : X → σ → σ)

/-- What a step does. -/
inductive Effect (s : Recorded ι σ Job Op Res ε) :
    PoolAction ι Job Env X → Recorded ι σ Job Op Res ε → Prop
  /-- The thread has a job already. -/
  | busy {t : ι} {j : Job} {p : Prog Op Res ε Unit} (going : s.pool.threads t = some p) : Effect s (.start t j) s
  | starts {t : ι} {j : Job} (free : s.pool.threads t = none) : Effect s (.start t j) { s with
      pool := { s.pool with threads := Function.update s.pool.threads t (some (body j)) }
      going := Function.update s.going t (some ⟨j, []⟩) }
  /-- The thread has no job. -/
  | idle {t : ι} {e : Env} (free : s.pool.threads t = none) : Effect s (.run t e) s
  | ends {t : ι} {e : Env} {x : Unit} (last : s.pool.threads t = some (.pure x)) : Effect s (.run t e) {
      pool := { s.pool with threads := Function.update s.pool.threads t none }
      going := Function.update s.going t none
      ended := (s.going t).toList ++ s.ended }
  | calls {t : ι} {e : Env} {o : Op} {k : Res o → Prog Op Res ε Unit} {r : Res o} {shared : σ}
      (next : s.pool.threads t = some (.call o k)) (performs : perform o e s.pool.shared = .ok (r, shared)) :
      Effect s (.run t e) { s with
        pool := ⟨shared, Function.update s.pool.threads t (some (k r))⟩
        going := Function.update s.going t
          ((s.going t).map fun i => { i with calls := i.calls ++ [⟨o, r⟩] }) }
  | outside {x : X} : Effect s (.outside x) { s with pool := { s.pool with shared := change x s.pool.shared } }

variable {body perform change}

/-- A step that does not fail has an effect. -/
theorem step_effect {s s' : Recorded ι σ Job Op Res ε} {a : PoolAction ι Job Env X}
    (hs : s.step body perform change a = .ok s') : s.Effect body perform change a s' := by
  cases a with
  | start t j =>
    simp only [step] at hs
    cases ht : s.pool.threads t with
    | none =>
      rw [ht] at hs
      obtain rfl := Except.ok.inj hs
      exact .starts ht
    | some p =>
      rw [ht] at hs
      obtain rfl := Except.ok.inj hs
      exact .busy ht
  | run t e =>
    simp only [step] at hs
    cases ht : s.pool.threads t with
    | none =>
      rw [ht] at hs
      obtain rfl := Except.ok.inj hs
      exact .idle ht
    | some p =>
      rw [ht] at hs
      cases p with
      | pure x =>
        obtain rfl := Except.ok.inj hs
        exact .ends ht
      | fail err => cases hs
      | call o k =>
        cases hperf : perform o e s.pool.shared with
        | error err =>
          simp only [hperf] at hs
          cases hs
        | ok r =>
          simp only [hperf] at hs
          obtain rfl := Except.ok.inj hs
          exact .calls ht hperf
  | outside x =>
    obtain rfl := Except.ok.inj hs
    exact .outside

end Recorded

/-! ## All that was called -/

/-- More in one of several lists. -/
theorem sum_update_append {α : Type} [Fintype ι] [DecidableEq ι] (f : ι → List α) (t : ι) (l : List α) :
    ∑ u, (Function.update f t (f t ++ l) u : Multiset α) = l + ∑ u, (f u : Multiset α) := by
  have hcoe : ∀ u, (Function.update f t (f t ++ l) u : Multiset α) =
      Function.update (fun u => (f u : Multiset α)) t (f t ++ l : List α) u := by
    intro u
    simp only [Function.update_apply]
    split_ifs <;> rfl
  simp only [hcoe]
  rw [Finset.sum_update_of_mem (Finset.mem_univ t), ← Finset.add_sum_erase _ _ (Finset.mem_univ t),
    Finset.sdiff_singleton_eq_erase, ← Multiset.coe_add]
  abel

namespace Recorded

variable [DecidableEq ι] [Fintype ι] {body : Job → Prog Op Res ε Unit} {change : X → σ → σ}
  {s s' : Recorded ι σ Job Op Res ε}

/-- What a thread has called in the job that it has. -/
def called (s : Recorded ι σ Job Op Res ε) (t : ι) : List (Called Op Res) :=
  (s.going t).elim [] (·.calls)

/-- What the jobs that have ended called, and those that are going on. -/
def calls (s : Recorded ι σ Job Op Res ε) : Multiset (Called Op Res) :=
  (s.ended.flatMap (·.calls) : List (Called Op Res)) + ∑ t, (s.called t : Multiset (Called Op Res))

omit [Fintype ι] in
/-- What a thread has called when another job is recorded for a thread. -/
theorem called_update {t : ι} {i : Option (Invocation Job Op Res)}
    (hs : s'.going = Function.update s.going t i) :
    s'.called = Function.update s.called t (i.elim [] (·.calls)) := by
  funext u
  simp only [called, hs, Function.update_apply]
  split_ifs <;> rfl

omit [DecidableEq ι] [Fintype ι] in
/-- A thread that has something to run has calls recorded. -/
theorem exists_going (hgoing : ∀ t, s.going t = none ↔ s.pool.threads t = none) {t : ι}
    {p : Prog Op Res ε Unit} (hp : s.pool.threads t = some p) :
    ∃ i, s.going t = some i ∧ s.called t = i.calls := by
  obtain ⟨i, hi⟩ := Option.ne_none_iff_exists'.mp (mt (hgoing t).mp (by rw [hp]; simp))
  exact ⟨i, hi, by rw [called, hi]; rfl⟩

/-- A step calls an operation once, or none. -/
theorem step_calls (hgoing : ∀ t, s.going t = none ↔ s.pool.threads t = none)
    {a : PoolAction ι Job Env X} (hs : s.step body perform change a = .ok s') :
    (∃ o e r, perform o e s.pool.shared = .ok (r, s'.pool.shared) ∧ s'.calls = ⟨o, r⟩ ::ₘ s.calls) ∨
      s'.calls = s.calls ∧ (s'.pool.shared = s.pool.shared ∨
        ∃ x, s'.pool.shared = change x s.pool.shared) := by
  cases step_effect hs with
  | busy | idle => exact Or.inr ⟨rfl, Or.inl rfl⟩
  | @starts t j free =>
    refine Or.inr ⟨?_, Or.inl rfl⟩
    have hnone : s.called t = [] := by rw [called, (hgoing t).mpr free]; rfl
    have hsame : Function.update s.called t [] = s.called := by rw [← hnone, Function.update_eq_self]
    rw [calls, called_update rfl]
    simp only [Option.elim_some, hsame]
    rfl
  | @ends t e x last =>
    refine Or.inr ⟨?_, Or.inl rfl⟩
    obtain ⟨i, hi, hcalled⟩ := exists_going hgoing last
    -- What it called counts for a job that has ended.
    have hsum := sum_update_append (Function.update s.called t []) t i.calls
    rw [Function.update_self, List.nil_append, Function.update_idem, ← hcalled,
      Function.update_eq_self] at hsum
    rw [calls, calls, called_update rfl, hsum]
    simp only [hi, Option.toList_some, List.singleton_append, List.flatMap_cons, ← Multiset.coe_add,
      Option.elim_none, hcalled]
    abel
  | @calls t e o k r shared next performs =>
    refine Or.inl ⟨o, e, r, performs, ?_⟩
    obtain ⟨i, hi, hcalled⟩ := exists_going hgoing next
    have hsum := sum_update_append s.called t [⟨o, r⟩]
    rw [Recorded.calls, Recorded.calls, called_update rfl]
    simp only [hi, Option.map_some, Option.elim_some, ← hcalled, hsum, Multiset.coe_singleton]
    rw [← Multiset.singleton_add]
    abel
  | @outside x => exact Or.inr ⟨rfl, Or.inr ⟨x, rfl⟩⟩

end Recorded

end DnsRelayer.Lib
