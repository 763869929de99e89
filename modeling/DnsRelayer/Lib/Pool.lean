import DnsRelayer.Lib.Runs

/-!
# Threads that run programs on shared state

A program (`Prog`) computes by itself, and calls operations that act on a state which it shares with
others. A pool of threads takes jobs, each a program to run: a step of a thread is one operation,
with what the environment adds to it, and the steps of the threads interleave in any order. The
environment may change the shared state by itself as well.

A `Discipline` is what the threads keep to: an invariant of the shared state, and a preorder in which
every step moves up. `Safe` is the condition on one program that it does so whatever the others do,
which are known by the discipline only. What a thread learns is stable in the preorder, so that it
may rely on it later (`Safe.mono`); programs are put together by `Safe.bind`. `pool_invariant` is the
rule for the pool.

`Alone` is a program that no other interrupts: what it does is a run of a pool in which a single
thread takes steps (`exec_alone`).

`Tracks` is for what a thread has by itself: a local state that its operations change, and that is
back where it was when the program ends. `Pool.Tracked.step` says how the local states of the threads
change in a step of the pool.
-/

namespace DnsRelayer.Lib

/-- A program: it ends with a value, or fails, or calls an operation and goes on with its result. -/
inductive Prog (Op : Type) (Res : Op → Type) (ε α : Type) where
  | pure (a : α)
  | fail (e : ε)
  | call (o : Op) (k : Res o → Prog Op Res ε α)

variable {Op : Type} {Res : Op → Type} {ε α β : Type}

namespace Prog

/-- One program after the other. -/
def bind : Prog Op Res ε α → (α → Prog Op Res ε β) → Prog Op Res ε β
  | .pure a, f => f a
  | .fail e, _ => .fail e
  | .call o k, f => .call o fun r => (k r).bind f

instance : Monad (Prog Op Res ε) where
  pure := .pure
  bind := .bind

/-- A computation that calls nothing. -/
def ofExcept : Except ε α → Prog Op Res ε α
  | .ok a => .pure a
  | .error e => .fail e

/-- A call. -/
def op (o : Op) : Prog Op Res ε (Res o) := .call o .pure

end Prog

/-! ## The pool -/

/-- The shared state, and what each thread that has a job still has to run. -/
structure Pool (ι σ Op : Type) (Res : Op → Type) (ε : Type) where
  shared : σ
  threads : ι → Option (Prog Op Res ε Unit)

/-- A step of a pool: a thread takes a job, or takes a step of its program, or the shared state is
changed from outside. -/
inductive PoolAction (ι Job Env X : Type) where
  | start (t : ι) (j : Job)
  | run (t : ι) (e : Env)
  | outside (x : X)

variable {ι σ Job Env X : Type} (body : Job → Prog Op Res ε Unit)
  (perform : (o : Op) → Env → σ → Except ε (Res o × σ)) (change : X → σ → σ)

namespace Pool

/-- No thread has a job. -/
def Idle (s : Pool ι σ Op Res ε) : Prop := ∀ t, s.threads t = none

variable [DecidableEq ι]

/-- The step of a pool. A thread that has a job takes no other, and one that has none takes no step:
nothing happens then. -/
def step (s : Pool ι σ Op Res ε) : PoolAction ι Job Env X → Except ε (Pool ι σ Op Res ε)
  | .start t j =>
    match s.threads t with
    | none => .ok { s with threads := Function.update s.threads t (some (body j)) }
    | some _ => .ok s
  | .run t e =>
    match s.threads t with
    | none => .ok s
    | some (.pure _) => .ok { s with threads := Function.update s.threads t none }
    | some (.fail err) => .error err
    | some (.call o k) => do
      let (r, shared) ← perform o e s.shared
      .ok { shared := shared, threads := Function.update s.threads t (some (k r)) }
  | .outside x => .ok { s with shared := change x s.shared }

/-- What a step of a pool does. -/
inductive Effect (s : Pool ι σ Op Res ε) : PoolAction ι Job Env X → Pool ι σ Op Res ε → Prop
  /-- A thread that has a job takes no other. -/
  | busy {t : ι} {j : Job} {p : Prog Op Res ε Unit} (has : s.threads t = some p) :
    Effect s (.start t j) s
  | start {t : ι} {j : Job} (has : s.threads t = none) :
    Effect s (.start t j) { s with threads := Function.update s.threads t (some (body j)) }
  /-- A thread without a job takes no step. -/
  | free {t : ι} {e : Env} (has : s.threads t = none) : Effect s (.run t e) s
  | finish {t : ι} {e : Env} {a : Unit} (has : s.threads t = some (.pure a)) :
    Effect s (.run t e) { s with threads := Function.update s.threads t none }
  | call {t : ι} {e : Env} {o : Op} {k : Res o → Prog Op Res ε Unit} {r : Res o} {shared : σ}
    (has : s.threads t = some (.call o k)) (performs : perform o e s.shared = .ok (r, shared)) :
    Effect s (.run t e)
      { shared := shared, threads := Function.update s.threads t (some (k r)) }
  | outside {x : X} : Effect s (.outside x) { s with shared := change x s.shared }

variable {body perform change}

/-- Every step that does not fail is one of these. -/
theorem step_cases {s s' : Pool ι σ Op Res ε} {a : PoolAction ι Job Env X}
    (h : s.step body perform change a = .ok s') : s.Effect body perform change a s' := by
  cases a with
  | start t j =>
    simp only [step] at h
    split at h <;> cases h
    · exact .start ‹_›
    · exact .busy ‹_›
  | run t e =>
    simp only [step] at h
    split at h
    · cases h
      exact .free ‹_›
    · cases h
      exact .finish ‹_›
    · cases h
    -- The thread calls an operation, which may fail.
    · rename_i o k ht
      cases hperf : perform o e s.shared with
      | error err =>
        rw [hperf] at h
        cases h
      | ok r =>
        rw [hperf] at h
        cases h
        exact .call ht hperf
  | outside x =>
    cases h
    exact .outside

end Pool

/-! ## Safe programs -/

/-- What the threads of a pool keep to. -/
structure Discipline (σ Op Env : Type) where
  /-- The invariant of the shared state. -/
  inv : σ → Prop
  /-- The preorder in which the shared state moves up. -/
  le : σ → σ → Prop
  /-- How an operation may be called, and with what from the environment. -/
  ok : σ → Op → Env → Prop
  /-- Whether programs and operations may fail. -/
  mayFail : Prop
  refl : ∀ s, le s s
  trans : ∀ {a b c}, le a b → le b c → le a c

variable (D : Discipline σ Op Env)

/-- A program keeps the invariant and moves up in the preorder, whatever other threads do in
between, when its operations are called as they are allowed; and if it ends, what it ends with
meets `Q`. It fails only when that may be. -/
def Safe : Prog Op Res ε α → (α → σ → Prop) → σ → Prop
  | .pure a, Q, s => ∀ s', D.le s s' → D.inv s' → Q a s'
  | .fail _, _, _ => D.mayFail
  | .call o k, Q, s => ∀ s' e, D.le s s' → D.inv s' → D.ok s' o e →
      (D.mayFail ∨ ∃ x, perform o e s' = .ok x) ∧ ∀ r s'', perform o e s' = .ok (r, s'') →
        D.inv s'' ∧ D.le s' s'' ∧ Safe (k r) Q s''

variable {perform D} {p : Prog Op Res ε α} {Q : α → σ → Prop} {s : σ}

/-- What is safe stays safe when others take steps. -/
theorem Safe.mono (h : Safe perform D p Q s) {s' : σ} (hle : D.le s s') :
    Safe perform D p Q s' := by
  cases p with
  | pure a => exact fun s'' h' hI => h s'' (D.trans hle h') hI
  | fail e => exact h
  | call o k => exact fun s₁ e h₁ hI hok => h s₁ e (D.trans hle h₁) hI hok

/-- A program that ends with what is so and stays so. -/
theorem Safe.pure {a : α} (h : ∀ s', D.le s s' → D.inv s' → Q a s') :
    Safe perform D (Pure.pure a : Prog Op Res ε α) Q s := h

/-- A program that fails keeps to anything, when it may. -/
theorem Safe.fail (hfail : D.mayFail) {e : ε} :
    Safe perform D (Prog.fail e : Prog Op Res ε α) Q s := hfail

/-- A computation that calls nothing is safe when its value is. -/
theorem Safe.ofExcept (hfail : D.mayFail) {x : Except ε α}
    (h : ∀ a, x = .ok a → ∀ s', D.le s s' → D.inv s' → Q a s') :
    Safe perform D (Prog.ofExcept x : Prog Op Res ε α) Q s := by
  cases x with
  | ok a => exact h a rfl
  | error e => exact hfail

/-- A computation that does not fail. -/
theorem Safe.ofOk {x : Except ε α} {a : α} (hx : x = .ok a)
    (h : ∀ s', D.le s s' → D.inv s' → Q a s') :
    Safe perform D (Prog.ofExcept x : Prog Op Res ε α) Q s := by
  rw [hx]
  exact h

/-- A call is safe when the operation keeps the invariant and its result is as it should be. -/
theorem Safe.op (hfail : D.mayFail) (o : Op) {Q : Res o → σ → Prop}
    (h : ∀ s' e r s'', D.le s s' → D.inv s' → D.ok s' o e → perform o e s' = .ok (r, s'') →
      D.inv s'' ∧ D.le s' s'' ∧ ∀ s₁, D.le s'' s₁ → D.inv s₁ → Q r s₁) :
    Safe perform D (Prog.op o : Prog Op Res ε (Res o)) Q s :=
  fun s' e hle hI hok => ⟨Or.inl hfail, fun r s'' hperf => h s' e r s'' hle hI hok hperf⟩

/-- Programs one after the other: the second starts in any state that the first may end in. -/
theorem Safe.bind {f : α → Prog Op Res ε β} {Q' : β → σ → Prop} (h : Safe perform D p Q s)
    (hs : D.inv s)
    (hf : ∀ a s', D.le s s' → D.inv s' → Q a s' → Safe perform D (f a) Q' s') :
    Safe perform D (p >>= f) Q' s := by
  induction p generalizing s with
  | pure a => exact hf a s (D.refl s) hs (h s (D.refl s) hs)
  | fail e => exact h
  | call o k ih =>
    intro s₁ e h₁ hI hok
    obtain ⟨hfail, hcall⟩ := h s₁ e h₁ hI hok
    refine ⟨hfail, fun r s₂ hperf => ?_⟩
    obtain ⟨hI', hle, hk⟩ := hcall r s₂ hperf
    exact ⟨hI', hle, ih r hk hI' fun a s' hle' => hf a s' (D.trans h₁ (D.trans hle hle'))⟩

/-- What a program ends with may be weakened. -/
theorem Safe.weaken {Q' : α → σ → Prop} (h : Safe perform D p Q s)
    (hQ : ∀ a s', D.inv s' → Q a s' → Q' a s') : Safe perform D p Q' s := by
  induction p generalizing s with
  | pure a => exact fun s' hle hI => hQ a s' hI (h s' hle hI)
  | fail e => exact h
  | call o k ih =>
    intro s₁ e h₁ hI hok
    obtain ⟨hfail, hcall⟩ := h s₁ e h₁ hI hok
    refine ⟨hfail, fun r s₂ hperf => ?_⟩
    obtain ⟨hI', hle, hk⟩ := hcall r s₂ hperf
    exact ⟨hI', hle, ih r hk⟩

/-- A step that takes a job that is allowed, calls an operation as it is allowed, or changes the
state from outside when that is allowed. -/
def Pool.Allows (D : Discipline σ Op Env) (okJob : Job → Prop)
    (okChange : Pool ι σ Op Res ε → X → Prop) (s : Pool ι σ Op Res ε) :
    PoolAction ι Job Env X → Prop
  | .start _ j => okJob j
  | .run t e => ∀ o k, s.threads t = some (.call o k) → D.ok s.shared o e
  | .outside x => okChange s x

/-- The invariant holds, and what every thread still has to run is safe. -/
structure Pool.Sound (perform : (o : Op) → Env → σ → Except ε (Res o × σ))
    (D : Discipline σ Op Env) (s : Pool ι σ Op Res ε) : Prop where
  shared : D.inv s.shared
  threads : ∀ t p, s.threads t = some p → Safe perform D p (fun _ _ => True) s.shared

variable {body change} {okJob : Job → Prop} {okChange : Pool ι σ Op Res ε → X → Prop}
  [DecidableEq ι]

/-- A step that is allowed keeps a pool sound, when every job is safe, and a change from outside
keeps the invariant, and moves up when a thread has a job. -/
theorem Pool.Sound.step
    (hbody : ∀ j s, okJob j → D.inv s → Safe perform D (body j) (fun _ _ => True) s)
    (hchange : ∀ (s : Pool ι σ Op Res ε) x, okChange s x → D.inv s.shared →
      D.inv (change x s.shared) ∧ (¬ s.Idle → D.le s.shared (change x s.shared)))
    {s s' : Pool ι σ Op Res ε} (h : s.Sound perform D) (a : PoolAction ι Job Env X)
    (ha : s.Allows D okJob okChange a) (hstep : s.step body perform change a = .ok s') :
    s'.Sound perform D := by
  -- What a thread has to run after one of them has something else to run.
  have hupdate : ∀ {t : ι} {q : Option (Prog Op Res ε Unit)} {σ' : σ},
      D.le s.shared σ' → (∀ p, q = some p → Safe perform D p (fun _ _ => True) σ') →
      ∀ u p, Function.update s.threads t q u = some p → Safe perform D p (fun _ _ => True) σ' := by
    intro t q σ' hle hq u p hu
    by_cases hut : u = t
    · subst hut
      rw [Function.update_self] at hu
      exact hq p hu
    · rw [Function.update_of_ne hut] at hu
      exact (h.threads u p hu).mono hle
  cases Pool.step_cases hstep with
  | busy _ => exact h
  | free _ => exact h
  | @start t j _ =>
    refine ⟨h.shared, hupdate (D.refl _) fun p hp => ?_⟩
    obtain rfl := Option.some.inj hp
    exact hbody j s.shared ha h.shared
  | finish _ => exact ⟨h.shared, hupdate (D.refl _) fun p hp => by cases hp⟩
  | @call t e o k r shared has performs =>
    obtain ⟨-, hcall⟩ := h.threads t _ has s.shared e (D.refl _) h.shared (ha o k has)
    obtain ⟨hI, hle, hk⟩ := hcall r shared performs
    refine ⟨hI, hupdate hle fun p hp => ?_⟩
    obtain rfl := Option.some.inj hp
    exact hk
  | @outside x =>
    obtain ⟨hI, hle⟩ := hchange s x ha h.shared
    refine ⟨hI, fun u p hu => (h.threads u p hu).mono (hle fun hidle => ?_)⟩
    rw [hidle u] at hu
    cases hu

/-- The invariant holds in every state that a pool reaches by steps that are allowed, when it starts
without jobs, every job that is allowed is safe, and so is every change from outside. -/
theorem pool_invariant
    (hbody : ∀ j s, okJob j → D.inv s → Safe perform D (body j) (fun _ _ => True) s)
    (hchange : ∀ (s : Pool ι σ Op Res ε) x, okChange s x → D.inv s.shared →
      D.inv (change x s.shared) ∧ (¬ s.Idle → D.le s.shared (change x s.shared))) {s : σ}
    (hs : D.inv s) {as : List (PoolAction ι Job Env X)}
    (has : Meets (Pool.step body perform change) (Pool.Allows D okJob okChange)
      (⟨s, fun _ => none⟩ : Pool ι σ Op Res ε) as) :
    ∀ pre, pre <+: as → ∀ s', exec (Pool.step body perform change) ⟨s, fun _ => none⟩ pre = .ok s' →
      D.inv s'.shared := by
  intro pre hpre s' hs'
  have hinit : Pool.Sound perform D (⟨s, fun _ => none⟩ : Pool ι σ Op Res ε) :=
    ⟨hs, fun t p ht => by cases ht⟩
  exact (exec_invariant hinit (fun _ a _ h ha hstep => h.step hbody hchange a ha hstep) has
    pre hpre s' hs').shared

/-! ## Programs alone -/

section Alone

variable (perform) (ok : σ → Op → Env → Prop)

/-- A program, run from a state without interruption, ends with a value in another state, when its
operations are called as `ok` says. -/
inductive Alone : Prog Op Res ε α → σ → α → σ → Prop
  | pure {a : α} {s : σ} : Alone (.pure a) s a s
  | call {o : Op} {k : Res o → Prog Op Res ε α} {e : Env} {r : Res o} {a : α} {s s' s'' : σ}
    (allowed : ok s o e) (performs : perform o e s = .ok (r, s')) (rest : Alone (k r) s' a s'') :
    Alone (.call o k) s a s''

variable {perform ok}

theorem Alone.ofExcept {x : Except ε α} {a : α} {s : σ} (h : x = .ok a) :
    Alone perform ok (Prog.ofExcept x : Prog Op Res ε α) s a s := by
  rw [h]
  exact .pure

theorem Alone.op {o : Op} {e : Env} {r : Res o} {s s' : σ} (hok : ok s o e)
    (h : perform o e s = .ok (r, s')) : Alone perform ok (Prog.op o : Prog Op Res ε _) s r s' :=
  .call hok h .pure

/-- Programs one after the other. -/
theorem Alone.bind {f : α → Prog Op Res ε β} {a : α} {b : β} {s s' s'' : σ}
    (h : Alone perform ok p s a s') (hf : Alone perform ok (f a) s' b s'') :
    Alone perform ok (p >>= f) s b s'' := by
  induction h with
  | pure => exact hf
  | call allowed performs _ ih => exact .call allowed performs (ih hf)

/-- A job that is run alone is a run of a pool in which no other thread has a job. -/
theorem exec_alone {okPool : Pool ι σ Op Res ε → PoolAction ι Job Env X → Prop} {t : ι} {j : Job}
    (hstart : ∀ s, okPool s (.start t j))
    (hrun : ∀ (s : Pool ι σ Op Res ε) e, (∀ o k, s.threads t = some (.call o k) → ok s.shared o e) →
      okPool s (.run t e))
    (e₀ : Env) {s s' : σ} (h : Alone perform ok (body j) s () s') :
    ∃ as, Meets (Pool.step body perform change) okPool ⟨s, fun _ => none⟩ as ∧
      exec (Pool.step body perform change) ⟨s, fun _ => none⟩ as = .ok ⟨s', fun _ => none⟩ := by
  have hset : ∀ (q q' : Option (Prog Op Res ε Unit)),
      Function.update (Function.update (fun _ : ι => none) t q) t q' =
        Function.update (fun _ => none) t q' := fun q q' => Function.update_idem ..
  have hnone : Function.update (fun _ : ι => (none : Option (Prog Op Res ε Unit))) t none =
      fun _ => none := Function.update_eq_self (f := fun _ : ι => none) t
  -- The steps of the thread, from any point of its program.
  have hsteps : ∀ {p : Prog Op Res ε Unit} {s a s'}, Alone perform ok p s a s' →
      ∃ as, Meets (Pool.step body perform change) okPool
          ⟨s, Function.update (fun _ => none) t (some p)⟩ as ∧
        exec (Pool.step body perform change) ⟨s, Function.update (fun _ => none) t (some p)⟩ as =
          .ok ⟨s', fun _ => none⟩ := by
    intro p s a s' h
    induction h with
    | @pure a s =>
      refine ⟨[.run t e₀], meets_cons (hrun _ _ fun o k hcall => ?_) fun _ _ => meets_nil, ?_⟩
      · simp at hcall
      · rw [exec, List.foldlM_cons]
        simp only [Pool.step, Function.update_self, hset, hnone]
        rfl
    | @call o k e r a s s' s'' allowed performs _ ih =>
      obtain ⟨as, has, hexec⟩ := ih
      have hstep : Pool.step body perform change
          (⟨s, Function.update (fun _ => none) t (some (.call o k))⟩ : Pool ι σ Op Res ε)
          (.run t e) = .ok ⟨s', Function.update (fun _ => none) t (some (k r))⟩ := by
        simp only [Pool.step, Function.update_self, performs, hset]
        rfl
      refine ⟨.run t e :: as, meets_cons (hrun _ _ fun o' k' hcall => ?_) fun u hu => ?_, ?_⟩
      · simp only [Function.update_self, Option.some.injEq] at hcall
        cases hcall
        exact allowed
      · obtain rfl := Except.ok.inj (hstep.symm.trans hu)
        exact has
      · rw [exec, List.foldlM_cons, hstep]
        exact hexec
  obtain ⟨as, has, hexec⟩ := hsteps h
  have hstep : Pool.step body perform change (⟨s, fun _ => none⟩ : Pool ι σ Op Res ε)
      (.start t j) = .ok ⟨s, Function.update (fun _ => none) t (some (body j))⟩ := rfl
  refine ⟨.start t j :: as, meets_cons (hstart _) fun u hu => ?_, ?_⟩
  · obtain rfl := Except.ok.inj (hstep.symm.trans hu)
    exact has
  · rw [exec, List.foldlM_cons, hstep]
    exact hexec

end Alone

/-! ## Local states -/

section Local

variable {L : Type} (next : (o : Op) → Res o → L → Option L) (l₀ : L)

/-- Whatever its operations return, a program may call them in the local states that it is in, and
ends with `Q`. -/
def Tracks : Prog Op Res ε α → (α → L → Prop) → L → Prop
  | .pure a, Q, l => Q a l
  | .fail _, _, _ => True
  | .call o k, Q, l => ∀ r, ∃ l', next o r l = some l' ∧ Tracks (k r) Q l'

variable {next l₀} {q : Prog Op Res ε α} {Ql : α → L → Prop} {l : L}

theorem Tracks.pure {a : α} (h : Ql a l) : Tracks next (Pure.pure a : Prog Op Res ε α) Ql l := h

theorem Tracks.fail {e : ε} : Tracks next (Prog.fail e : Prog Op Res ε α) Ql l := trivial

theorem Tracks.ofExcept {x : Except ε α} (h : ∀ a, x = .ok a → Ql a l) :
    Tracks next (Prog.ofExcept x : Prog Op Res ε α) Ql l := by
  cases x with
  | ok a => exact h a rfl
  | error e => trivial

theorem Tracks.op (o : Op) {Qr : Res o → L → Prop} (h : ∀ r, ∃ l', next o r l = some l' ∧ Qr r l') :
    Tracks next (Prog.op o : Prog Op Res ε (Res o)) Qr l := h

/-- Programs one after the other: the second starts where the first may end. -/
theorem Tracks.bind {f : α → Prog Op Res ε β} {Q' : β → L → Prop} (h : Tracks next q Ql l)
    (hf : ∀ a l', Ql a l' → Tracks next (f a) Q' l') : Tracks next (q >>= f) Q' l := by
  induction q generalizing l with
  | pure a => exact hf a l h
  | fail e => trivial
  | call o k ih =>
    intro r
    obtain ⟨l', hnext, hk⟩ := h r
    exact ⟨l', hnext, ih r hk⟩

variable (next l₀) in
/-- Every thread that has a job is where its local state says, and the others are where a job
ends. -/
def Pool.Tracked (s : Pool ι σ Op Res ε) (ls : ι → L) : Prop :=
  ∀ t, match s.threads t with
    | none => ls t = l₀
    | some p => Tracks next p (fun _ l => l = l₀) (ls t)

/-- A step of a pool that calls an operation moves the local state of its thread, one that starts a
job sets it to where the job starts, and any other step leaves the local states as they are. -/
theorem Pool.Tracked.step {start : Job → L}
    (hbody : ∀ j, Tracks next (body j) (fun _ l => l = l₀) (start j))
    {s s' : Pool ι σ Op Res ε} {ls : ι → L} (h : s.Tracked next l₀ ls) {a : PoolAction ι Job Env X}
    (he : s.Effect body perform change a s') :
    ∃ ls', s'.Tracked next l₀ ls' ∧
      ((∃ t e o k r, a = .run t e ∧ s.threads t = some (.call o k) ∧
          perform o e s.shared = .ok (r, s'.shared) ∧ next o r (ls t) = some (ls' t) ∧
          ∀ u, u ≠ t → ls' u = ls u) ∨
        (∃ t j, a = .start t j ∧ s.threads t = none ∧ ls t = l₀ ∧ s'.shared = s.shared ∧
          ls' = Function.update ls t (start j)) ∨
        ls' = ls ∧ (s'.shared = s.shared ∨ ∃ x, s'.shared = change x s.shared) ∧
          (∀ t e, a = .run t e → ∀ o k, s.threads t ≠ some (.call o k)) ∧
          ∀ t j, a = .start t j → s.threads t ≠ none) := by
  -- The thread of the step has something else to run, perhaps in another local state.
  have hupdate : ∀ {t : ι} {q : Option (Prog Op Res ε Unit)} {shared : σ} {ls' : ι → L},
      (∀ u, u ≠ t → ls' u = ls u) →
      (match q with
        | none => ls' t = l₀
        | some p => Tracks next p (fun _ l => l = l₀) (ls' t)) →
      Pool.Tracked next l₀ ⟨shared, Function.update s.threads t q⟩ ls' := by
    intro t q shared ls' hls hq u
    by_cases hut : u = t
    · subst hut
      simp only [Function.update_self]
      exact hq
    · simp only [Function.update_of_ne hut, hls u hut]
      exact h u
  cases he with
  | @busy t j p has =>
    refine ⟨ls, h, Or.inr (Or.inr ⟨rfl, Or.inl rfl, fun _ _ ha => (by cases ha), ?_⟩)⟩
    rintro u i ⟨⟩ hnone
    rw [has] at hnone
    cases hnone
  | @start t j has =>
    have hl : ls t = l₀ := by
      have := h t
      rw [has] at this
      exact this
    have hself : Function.update ls t (start j) t = start j := Function.update_self ..
    refine ⟨Function.update ls t (start j), hupdate (fun u hut => Function.update_of_ne hut ..) ?_,
      Or.inr (Or.inl ⟨t, j, rfl, has, hl, rfl, rfl⟩)⟩
    rw [hself]
    exact hbody j
  | @free t e has =>
    refine ⟨ls, h, Or.inr (Or.inr ⟨rfl, Or.inl rfl, ?_, fun _ _ ha => (by cases ha)⟩)⟩
    rintro u f ⟨⟩ o k hu
    rw [has] at hu
    cases hu
  | @finish t e x has =>
    have hl := h t
    rw [has] at hl
    refine ⟨ls, hupdate (fun _ _ => rfl) hl,
      Or.inr (Or.inr ⟨rfl, Or.inl rfl, ?_, fun _ _ ha => (by cases ha)⟩)⟩
    rintro u f ⟨⟩ o k hu
    rw [has] at hu
    cases hu
  | @call t e o k r shared has performs =>
    have hl := h t
    rw [has] at hl
    obtain ⟨l', hnext, hk⟩ := hl r
    have hself : Function.update ls t l' t = l' := Function.update_self ..
    have hother : ∀ u, u ≠ t → Function.update ls t l' u = ls u := fun u hut =>
      Function.update_of_ne hut ..
    refine ⟨Function.update ls t l', hupdate hother ?_, Or.inl ⟨t, e, o, k, r, rfl, has, performs,
      ?_, hother⟩⟩
    · rw [hself]
      exact hk
    · rw [hself]
      exact hnext
  | @outside x =>
    exact ⟨ls, h, Or.inr (Or.inr ⟨rfl, Or.inr ⟨x, rfl⟩, fun _ _ ha => (by cases ha),
      fun _ _ ha => (by cases ha)⟩)⟩

end Local

/-! ## Bounded programs -/

/-- A program calls at most `n` operations, all of which are in a set. -/
def Prog.Calls (S : Op → Prop) : ℕ → Prog Op Res ε α → Prop
  | _, .pure _ => True
  | _, .fail _ => True
  | 0, .call _ _ => False
  | n + 1, .call o k => S o ∧ ∀ r, (k r).Calls S n

namespace Prog.Calls

variable {S S' : Op → Prop} {m n : ℕ} {p : Prog Op Res ε α}

theorem pure {a : α} : (Pure.pure a : Prog Op Res ε α).Calls S n := by cases n <;> trivial

theorem fail {e : ε} : (Prog.fail e : Prog Op Res ε α).Calls S n := by cases n <;> trivial

theorem ofExcept {x : Except ε α} : (Prog.ofExcept x : Prog Op Res ε α).Calls S n := by
  cases x with
  | ok a => exact pure
  | error e => exact fail

theorem op {o : Op} (h : S o) : (Prog.op o : Prog Op Res ε (Res o)).Calls S (n + 1) :=
  ⟨h, fun _ => pure⟩

/-- A program may call fewer operations, of a smaller set. -/
theorem mono (h : p.Calls S m) (hS : ∀ o, S o → S' o) (hle : m ≤ n) : p.Calls S' n := by
  induction p generalizing m n with
  | pure a => exact pure
  | fail e => exact fail
  | call o k ih =>
    cases m with
    | zero => exact h.elim
    | succ m =>
      obtain ⟨n, rfl⟩ : ∃ i, n = i + 1 := ⟨n - 1, by omega⟩
      exact ⟨hS o h.1, fun r => ih r (h.2 r) (by omega)⟩

/-- Programs one after the other. -/
theorem bind {f : α → Prog Op Res ε β} (h : p.Calls S m) (hf : ∀ a, (f a).Calls S n) :
    (p >>= f).Calls S (m + n) := by
  induction p generalizing m with
  | pure a => exact (hf a).mono (fun _ h => h) (Nat.le_add_left n m)
  | fail e => exact fail
  | call o k ih =>
    cases m with
    | zero => exact h.elim
    | succ m =>
      rw [Nat.succ_add]
      exact ⟨h.1, fun r => ih r (h.2 r)⟩

/-- A computation first, which calls nothing. -/
theorem ofExcept_bind {x : Except ε α} {f : α → Prog Op Res ε β} (hf : ∀ a, (f a).Calls S n) :
    (Prog.ofExcept x >>= f).Calls S n := by
  cases x with
  | ok a => exact hf a
  | error e => exact fail

/-- A call first. -/
theorem op_bind {o : Op} {f : Res o → Prog Op Res ε β} (h : S o) (hf : ∀ r, (f r).Calls S n) :
    (Prog.op o >>= f).Calls S (n + 1) :=
  ⟨h, hf⟩

/-- A program that calls only operations which leave the local state as it is. -/
theorem tracks {L : Type} {next : (o : Op) → Res o → L → Option L}
    (hS : ∀ o, S o → ∀ r l, next o r l = some l) (h : p.Calls S n) (l : L) :
    Tracks next p (fun _ l' => l' = l) l := by
  induction p generalizing n with
  | pure a => rfl
  | fail e => trivial
  | call o k ih =>
    cases n with
    | zero => exact h.elim
    | succ n => exact fun r => ⟨l, hS o h.1 r l, ih r (h.2 r)⟩

end Prog.Calls

end DnsRelayer.Lib
