import DnsRelayer.Lib.Record

/-!
# The chronicle of a pool

The chronicle of a run of a pool is the list of all calls that its threads made, in order, each with
its thread, its result and a mark of the shared state in which it was made, such as the time
(`Pool.chronicle`). It is read off the run, so that a pool knows nothing of it.

For proofs a thread puts its name to what it calls (`Prog.tag`), and the operations keep the chronicle
with the shared state (`chronicled`). `Tells` is `Safe` for such a program: it speaks of what is in the
chronicle as of any part of the shared state, and a chronicle only grows. `chronicle_invariant` is the
rule for the pool.
-/

namespace DnsRelayer.Lib

variable {Op : Type} {Res : Op → Type} {ε α β ι T σ Job Env X : Type}

/-- A call of a thread, what it returned, and the mark of the state in which it was made. -/
structure Event (ι Op : Type) (Res : Op → Type) (T : Type) where
  thread : ι
  call : Called Op Res
  mark : T

/-! ## Programs of a thread -/

namespace Prog

/-- A program with the name of its thread at each call. -/
def tag (t : ι) : Prog Op Res ε α → Prog (ι × Op) (fun o => Res o.2) ε α
  | .pure a => .pure a
  | .fail e => .fail e
  | .call o k => .call (t, o) fun r => (k r).tag t

theorem tag_bind (t : ι) (p : Prog Op Res ε α) (f : α → Prog Op Res ε β) :
    (p >>= f).tag t = p.tag t >>= fun a => (f a).tag t := by
  induction p with
  | pure a => rfl
  | fail e => rfl
  | call o k ih => exact congrArg (Prog.call (t, o)) (funext ih)

theorem tag_ofExcept (t : ι) (x : Except ε α) :
    (ofExcept x : Prog Op Res ε α).tag t = ofExcept x := by
  cases x <;> rfl

end Prog

/-- An operation that a thread calls, with the chronicle. -/
def chronicled (mark : σ → T) (perform : (o : Op) → Env → σ → Except ε (Res o × σ)) :
    (o : ι × Op) → Env → σ × List (Event ι Op Res T) → Except ε (Res o.2 × σ × List (Event ι Op Res T))
  | (t, o), e, (s, log) => do
    let (r, s') ← perform o e s
    return (r, s', log ++ [⟨t, ⟨o, r⟩, mark s⟩])

variable {mark : σ → T} {perform : (o : Op) → Env → σ → Except ε (Res o × σ)}

/-- What an operation with the chronicle does. -/
theorem chronicled_eq_ok {t : ι} {o : Op} {e : Env} {s : σ} {log : List (Event ι Op Res T)} {r : Res o}
    {x : σ × List (Event ι Op Res T)} : chronicled mark perform (t, o) e (s, log) = .ok (r, x) ↔
      perform o e s = .ok (r, x.1) ∧ x.2 = log ++ [⟨t, ⟨o, r⟩, mark s⟩] := by
  obtain ⟨s', log'⟩ := x
  simp only [chronicled]
  cases perform o e s with
  | error err => simp [bind, Except.bind]
  | ok y =>
    obtain ⟨r', s''⟩ := y
    simp only [bind, Except.bind, pure, Except.pure, Except.ok.injEq, Prod.mk.injEq]
    constructor
    · rintro ⟨rfl, rfl, rfl⟩
      exact ⟨⟨rfl, rfl⟩, rfl⟩
    · rintro ⟨⟨rfl, rfl⟩, rfl⟩
      exact ⟨rfl, rfl, rfl⟩

/-! ## What a thread tells -/

variable {D : Discipline (σ × List (Event ι Op Res T)) (ι × Op) Env} {t : ι}

variable (mark perform D t) in
/-- A program of a thread is safe, and so is what it says of the chronicle. -/
def Tells (p : Prog Op Res ε α) (Q : α → σ × List (Event ι Op Res T) → Prop)
    (s : σ × List (Event ι Op Res T)) : Prop :=
  Safe (chronicled mark perform) D (p.tag t) Q s

namespace Tells

variable {p : Prog Op Res ε α} {Q : α → σ × List (Event ι Op Res T) → Prop}
  {s : σ × List (Event ι Op Res T)}

/-- A program that ends with what is so and stays so. -/
theorem pure {a : α} (h : ∀ s', D.le s s' → D.inv s' → Q a s') :
    Tells mark perform D t (Pure.pure a : Prog Op Res ε α) Q s := h

/-- A program that fails keeps to anything, when it may. -/
theorem fail (hfail : D.mayFail) {e : ε} :
    Tells mark perform D t (Prog.fail e : Prog Op Res ε α) Q s := hfail

/-- A computation that calls nothing. -/
theorem ofExcept (hfail : D.mayFail) {x : Except ε α}
    (h : ∀ a, x = .ok a → ∀ s', D.le s s' → D.inv s' → Q a s') :
    Tells mark perform D t (Prog.ofExcept x : Prog Op Res ε α) Q s := by
  rw [Tells, Prog.tag_ofExcept]
  exact Safe.ofExcept hfail h

/-- A call, which is the last in the chronicle when it is made. -/
theorem op (hfail : D.mayFail) (o : Op) {Q : Res o → σ × List (Event ι Op Res T) → Prop}
    (h : ∀ s₁ log e r s₂, D.le s (s₁, log) → D.inv (s₁, log) → perform o e s₁ = .ok (r, s₂) →
      D.inv (s₂, log ++ [⟨t, ⟨o, r⟩, mark s₁⟩]) ∧
      D.le (s₁, log) (s₂, log ++ [⟨t, ⟨o, r⟩, mark s₁⟩]) ∧
      ∀ s₃, D.le (s₂, log ++ [⟨t, ⟨o, r⟩, mark s₁⟩]) s₃ → D.inv s₃ → Q r s₃) :
    Tells mark perform D t (Prog.op o : Prog Op Res ε (Res o)) Q s := by
  refine Safe.op hfail (t, o) fun s₁ e r s₂ hle hI _ hperf => ?_
  obtain ⟨s₁, log⟩ := s₁
  obtain ⟨s₂, log'⟩ := s₂
  obtain ⟨hperf, rfl⟩ := chronicled_eq_ok.mp hperf
  exact h s₁ log e r s₂ hle hI hperf

/-- Programs one after the other. -/
theorem bind {f : α → Prog Op Res ε β} {Q' : β → σ × List (Event ι Op Res T) → Prop}
    (h : Tells mark perform D t p Q s) (hs : D.inv s)
    (hf : ∀ a s', D.le s s' → D.inv s' → Q a s' → Tells mark perform D t (f a) Q' s') :
    Tells mark perform D t (p >>= f) Q' s := by
  rw [Tells, Prog.tag_bind]
  exact Safe.bind h hs hf

end Tells

/-! ## The pool -/

/-- The step of a pool with the name of the thread in its job. -/
def PoolAction.tag : PoolAction ι Job Env X → PoolAction ι (ι × Job) Env X
  | .start t j => .start t (t, j)
  | .run t e => .run t e
  | .outside x => .outside x

namespace Pool

/-- A pool with the names of its threads, and a chronicle. -/
def tag (s : Pool ι σ Op Res ε) (log : List (Event ι Op Res T)) :
    Pool ι (σ × List (Event ι Op Res T)) (ι × Op) (fun o => Res o.2) ε :=
  ⟨(s.shared, log), fun t => (s.threads t).map (Prog.tag t)⟩

variable (mark perform) in
/-- The call that a step of a pool makes. -/
def events (s : Pool ι σ Op Res ε) :
    PoolAction ι Job Env X → Pool ι σ Op Res ε → List (Event ι Op Res T)
  | .run t e, _ =>
    match s.threads t with
    | some (.call o _) =>
      match perform o e s.shared with
      | .ok (r, _) => [⟨t, ⟨o, r⟩, mark s.shared⟩]
      | .error _ => []
    | _ => []
  | _, _ => []

variable [DecidableEq ι] (body : Job → Prog Op Res ε Unit) (change : X → σ → σ)

variable (mark perform) in
/-- The calls of a run, in order. -/
def chronicle (s : Pool ι σ Op Res ε) (as : List (PoolAction ι Job Env X)) :
    List (Event ι Op Res T) :=
  gathered (step body perform change) (events mark perform) s as

variable {body change}

/-- The names of the threads in a pool in which one thread has something else to run. -/
theorem tag_update (s : Pool ι σ Op Res ε) (shared : σ) (log : List (Event ι Op Res T)) (t : ι)
    (p : Option (Prog Op Res ε Unit)) :
    tag ⟨shared, Function.update s.threads t p⟩ log =
      ⟨(shared, log), Function.update (s.tag log).threads t (p.map (Prog.tag t))⟩ := by
  simp only [tag, Pool.mk.injEq, true_and]
  funext u
  by_cases hut : u = t
  · subst hut
    simp only [Function.update_self]
  · simp only [Function.update_of_ne hut]

/-- A pool with names takes the steps of the pool, and keeps its chronicle. -/
theorem step_tag {s s' : Pool ι σ Op Res ε} {a : PoolAction ι Job Env X}
    (h : s.step body perform change a = .ok s') (log : List (Event ι Op Res T)) :
    (s.tag log).step (fun j => (body j.2).tag j.1) (chronicled mark perform)
      (fun x s => (change x s.1, s.2)) a.tag = .ok (s'.tag (log ++ events mark perform s a s')) := by
  cases step_cases h with
  | busy has => simp [PoolAction.tag, step, tag, has, events]
  | start has =>
    simp only [PoolAction.tag, step, events, List.append_nil, tag_update]
    simp [tag, has]
  | free has => simp [PoolAction.tag, step, tag, has, events]
  | finish has =>
    simp only [PoolAction.tag, step, events, has, List.append_nil, tag_update]
    simp [tag, has, Prog.tag]
  | @call t e o k r shared has performs =>
    have hperf : chronicled mark perform (t, o) e (s.shared, log) =
        .ok (r, shared, log ++ [⟨t, ⟨o, r⟩, mark s.shared⟩]) :=
      chronicled_eq_ok.mpr ⟨performs, rfl⟩
    simp only [PoolAction.tag, step, events, has, performs, tag_update]
    simp only [tag, has, Option.map_some, Prog.tag, hperf]
    rfl
  | outside => simp [PoolAction.tag, step, tag, events]

end Pool

variable [DecidableEq ι] {body : Job → Prog Op Res ε Unit} {change : X → σ → σ}
  {ok : Pool ι σ Op Res ε → PoolAction ι Job Env X → Prop}

/-- The invariant holds of every state that a pool reaches and the chronicle up to it, when it starts
without jobs, every thread tells of its jobs what is so, and so is every change from outside. -/
theorem chronicle_invariant (hok : ∀ s o e, D.ok s o e)
    (hbody : ∀ t j s, D.inv s → Tells mark perform D t (body j) (fun _ _ => True) s)
    (hchange : ∀ s x log, ok s (.outside x) → D.inv (s.shared, log) →
      D.inv (change x s.shared, log) ∧ D.le (s.shared, log) (change x s.shared, log)) {s : σ}
    (hs : D.inv (s, [])) {as : List (PoolAction ι Job Env X)}
    (has : Meets (Pool.step body perform change) ok (⟨s, fun _ => none⟩ : Pool ι σ Op Res ε) as) :
    ∀ pre, pre <+: as → ∀ s', exec (Pool.step body perform change) ⟨s, fun _ => none⟩ pre = .ok s' →
      D.inv (s'.shared, Pool.chronicle mark perform body change ⟨s, fun _ => none⟩ pre) := by
  -- What the threads still have to tell is so.
  suffices hsound : ∀ pre, pre <+: as → ∀ s',
      exec (Pool.step body perform change) ⟨s, fun _ => none⟩ pre = .ok s' →
      (s'.tag (Pool.chronicle mark perform body change ⟨s, fun _ => none⟩ pre)).Sound
        (chronicled mark perform) D from
    fun pre hpre s' hs' => (hsound pre hpre s' hs').shared
  intro pre
  induction pre using List.reverseRecOn with
  | nil =>
    intro _ s' hs'
    cases hs'
    exact ⟨hs, fun t p ht => by cases ht⟩
  | append_singleton pre a ih =>
    intro hp s' hs'
    obtain ⟨u, hu, hstep⟩ := exec_concat.mp hs'
    have hsound := ih ((List.prefix_append pre [a]).trans hp) u hu
    have ha := has pre a hp u hu
    rw [Pool.chronicle, gathered_concat hu hstep]
    have hallows : (u.tag (Pool.chronicle mark perform body change ⟨s, fun _ => none⟩ pre)).Allows D
        (fun _ : ι × Job => True) (fun p x => ∃ v, v.shared = p.shared.1 ∧ ok v (.outside x)) a.tag := by
      cases a with
      | start t j => trivial
      | run t e => exact fun o _ _ => hok _ o e
      | outside x => exact ⟨u, rfl, ha⟩
    have htells : ∀ (j : ι × Job) s, True → D.inv s →
        Safe (chronicled mark perform) D ((body j.2).tag j.1) (fun _ _ => True) s :=
      fun j s _ hI => hbody j.1 j.2 s hI
    refine hsound.step htells ?_ a.tag hallows (Pool.step_tag hstep _)
    rintro ⟨⟨shared, log⟩, threads⟩ x ⟨v, rfl, hx⟩ hI
    obtain ⟨hI', hle⟩ := hchange v x log hx hI
    exact ⟨hI', fun _ => hle⟩

end DnsRelayer.Lib
