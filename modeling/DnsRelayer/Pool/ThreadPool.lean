import DnsRelayer.Pool.Fifo
import DnsRelayer.Lib.Record
import Mathlib.Data.Fintype.Sum

/-!
# The thread pool of `src/pool/thread_pool.c`

Clients add tasks to the queue of the pool with `AddTask`. The loop of a `worker` takes a task off the
queue and runs its function, and ends when there is none any more. `ClosePool` destroys the queue, waits for
the workers to end, one after the other, and frees the pool.

The state is the queue as the clients and the workers use it, what the workers have to run, and where
`ClosePool` is. A step is that of a thread in a call on the queue, or of a worker in its task. A thread that
is created takes its first step at any time later, so that the threads of a new pool are all there. Which
tasks each worker has run to their end is kept for the record.

Memory of a thread's own (`malloc` and `free` of tasks) is not modelled.
-/

namespace DnsRelayer

open Lib

/-- Where `ClosePool` is. -/
inductive Closer (ι : Type) where
  /-- It is not called yet, or in `SafeDestroy`. -/
  | destroys
  /-- It waits for these threads to end, in order. -/
  | joins (ids : List ι)
  /-- It has freed the queue and the pool. -/
  | returned
  deriving DecidableEq

/-- The struct `threadpool`: the queue, which the clients `κ` and the workers `ι` use, the ids of the
workers, and what these have to run. -/
structure ThreadPool (ι κ σ Task Op : Type) (Res : Op → Type) where
  q : Users (κ ⊕ ι) Task
  ids : List ι
  workers : Recorded ι σ Task Op Res Fault
  exited : ι → Bool
  closer : Closer ι
  finished : ι → List Task

/-- A step: a client calls `AddTask`, or takes its next step in it; a worker takes the next step of its loop,
which may be one in `SafeDeque`, or wakes up in it, or takes a step of its task; the state that the tasks
share changes from outside; `ClosePool` takes its next step, or wakes up in `SafeDestroy`. -/
inductive ThreadPoolAction (ι κ Task Env X : Type) where
  | addTask (c : κ) (task : Task)
  | client (c : κ) (woken : Option (κ ⊕ ι))
  | worker (t : ι) (woken : Option (κ ⊕ ι))
  | wake (t : ι)
  | run (t : ι) (e : Env)
  | outside (x : X)
  | close
  | wakeCloser

/-! ## What a step on the queue leaves as it is -/

namespace Users

variable {ι α : Type} [DecidableEq ι] [Fintype ι] {s s' : Users ι α} {a : QueueAction ι α} {u : ι}

omit [Fintype ι] in
/-- A thread that is in no call is in none after a step, unless it calls. -/
theorem Effect.idle (he : s.Effect a s') (hu : s.calls u = .idle) (henque : ∀ data, a ≠ .enque u data)
    (hdeque : a ≠ .deque u) : s'.calls u = .idle := by
  cases he <;>
    simp only [goto, discount, answer, Function.update_apply] <;>
    grind [isBlocked_iff]

omit [Fintype ι] in
/-- A thread gets into `SafeDeque` only when it calls it. -/
theorem Effect.inDeque (he : s.Effect a s') (hu : s'.InDeque u) : s.InDeque u ∨ a = .deque u := by
  cases he <;>
    simp only [InDeque, goto, discount, answer, Function.update_apply] at hu ⊢ <;>
    grind [isBlocked_iff]

omit [Fintype ι] in
/-- A thread in no call or in `SafeDeque` gets into no other call, unless it calls `SafeEnque`. -/
theorem Effect.idle_or_inDeque (he : s.Effect a s') (hu : s.calls u = .idle ∨ s.InDeque u)
    (henque : ∀ data, a ≠ .enque u data) : s'.calls u = .idle ∨ s'.InDeque u := by
  cases he <;>
    simp only [InDeque, goto, discount, answer, Function.update_apply] at hu ⊢ <;>
    grind [isBlocked_iff]

omit [Fintype ι] in
/-- What a thread returned changes only when a call of it returns. -/
theorem Effect.returned_eq (he : s.Effect a s')
    (hu : (∀ w, a ≠ .run u w) ∨ ∀ data, s.calls u ≠ .dequeLeaves data) :
    s'.returned u = s.returned u := by
  cases he with
  | @dequeEnds t w data call =>
    refine Function.update_of_ne ?_ _ _
    rintro rfl
    rcases hu with hu | hu
    · exact hu w rfl
    · exact hu data call
  | _ => rfl

omit [Fintype ι] in
/-- `destroyed` stays set. -/
theorem Effect.destroyed (he : s.Effect a s') (hd : s.destroyed = true) : s'.destroyed = true := by
  cases he <;> simp only [goto, discount, answer] <;> grind

omit [Fintype ι] in
/-- The nodes are freed by the last step of `SafeDestroy`. -/
theorem Effect.done_iff (he : s.Effect a s') :
    s'.destroyer = .done ↔ s.destroyer = .done ∨ a = .destroy ∧ s.destroyer = .left := by
  cases he <;> simp only [goto, discount, answer] <;> grind

omit [Fintype ι] in
/-- Only `SafeDestroy` itself takes its first step. -/
theorem Effect.notCalled (he : s.Effect a s') (hd : s.destroyer = .notCalled) (ha : a ≠ .destroy) :
    s'.destroyer = .notCalled := by
  cases he <;> simp only [goto, discount, answer] <;> grind

omit [Fintype ι] in
/-- `SafeDeque` returns `NULL` when it found the queue destroyed. -/
theorem Effect.destroyed_of_leaves (he : s.Effect a s') (hu : s'.calls u = .dequeLeaves none) :
    s.calls u = .dequeLeaves none ∨ s.destroyed = true := by
  cases he <;>
    simp only [goto, discount, answer, Function.update_apply] at hu ⊢ <;>
    grind [isBlocked_iff]

omit [Fintype ι] in
/-- What was taken was taken by threads in `SafeDeque`. -/
theorem Effect.taken (he : s.Effect a s') {p : ι × α} (hp : p ∈ s'.taken) :
    p ∈ s.taken ∨ s.InDeque p.1 := by
  cases he <;>
    simp only [InDeque, goto, discount, answer, List.mem_append, List.mem_singleton] at hp ⊢ <;>
    grind

end Users

namespace ThreadPool

variable {ι κ σ Task Op Env X : Type} {Res : Op → Type}

/-- `CreateThreadPool`, with workers of these ids. -/
def create (ids : List ι) (s : σ) : ThreadPool ι κ σ Task Op Res where
  q := Users.init
  ids := ids
  workers := Recorded.init s
  exited _ := false
  closer := .destroys
  finished _ := []

variable [DecidableEq ι] [DecidableEq κ] [Fintype ι] [Fintype κ]
  (body : Task → Prog Op Res Fault Unit) (perform : (o : Op) → Env → σ → Except Fault (Res o × σ))
  (change : X → σ → σ)

/-- A step on the queue. -/
def onQueue (s : ThreadPool ι κ σ Task Op Res) (a : QueueAction (κ ⊕ ι) Task) :
    Run (ThreadPool ι κ σ Task Op Res) := do
  let q ← s.q.step a
  return { s with q := q }

/-- A step of the workers in their tasks. -/
def work (s : ThreadPool ι κ σ Task Op Res) (a : PoolAction ι Task Env X) :
    Run (ThreadPool ι κ σ Task Op Res) := do
  let workers ← s.workers.step body perform change a
  return { s with workers := workers }

/-- A thread ends. -/
def exit (s : ThreadPool ι κ σ Task Op Res) (t : ι) : ThreadPool ι κ σ Task Op Res :=
  { s with exited := Function.update s.exited t true }

/-- The next step of the loop of `worker`, when the thread is not in a task. `SafeDeque` returns `NULL` at
once when it finds the queue destroyed. -/
def workerStep (s : ThreadPool ι κ σ Task Op Res) (t : ι) (woken : Option (κ ⊕ ι)) :
    Run (ThreadPool ι κ σ Task Op Res) :=
  if s.exited t ∨ (s.workers.pool.threads t).isSome then return s
  else
    match s.q.calls (.inr t) with
    | .idle => if s.q.destroyed then return s.exit t else s.onQueue (.deque (.inr t))
    | .dequeLeaves (some task) => do
      let s ← s.onQueue (.run (.inr t) woken)
      s.work body perform change (.start t task)
    | .dequeLeaves none => do
      let s ← s.onQueue (.run (.inr t) woken)
      return s.exit t
    | _ => s.onQueue (.run (.inr t) woken)

/-- The tasks that each worker has run to their end, after its next step in a task. -/
def finish (s : ThreadPool ι κ σ Task Op Res) (t : ι) : ι → List Task :=
  match s.workers.pool.threads t with
  | some (.pure _) => Function.update s.finished t
      (s.finished t ++ ((s.workers.going t).map (·.job)).toList)
  | _ => s.finished

/-- The next step of `ClosePool`. -/
def closeStep (s : ThreadPool ι κ σ Task Op Res) : Run (ThreadPool ι κ σ Task Op Res) :=
  match s.closer with
  | .destroys => do
    let q ← s.q.step .destroy
    return { s with q := q, closer := if s.q.destroyer = .left then .joins s.ids else .destroys }
  | .joins [] => return { s with closer := .returned }
  | .joins (t :: ids) => return if s.exited t then { s with closer := .joins ids } else s
  | .returned => return s

/-- A step. `AddTask` reads the pool, which must not be freed. -/
def step (s : ThreadPool ι κ σ Task Op Res) :
    ThreadPoolAction ι κ Task Env X → Run (ThreadPool ι κ σ Task Op Res)
  | .addTask c task =>
    match s.closer with
    | .returned => throw .badPointer
    | _ => s.onQueue (.enque (.inl c) task)
  | .client c woken => s.onQueue (.run (.inl c) woken)
  | .worker t woken => s.workerStep body perform change t woken
  | .wake t => s.onQueue (.wake (.inr t))
  | .run t e => do
    let s' ← s.work body perform change (.run t e)
    return { s' with finished := s.finish t }
  | .outside x => s.work body perform change (.outside x)
  | .close => s.closeStep
  | .wakeCloser => s.onQueue .wakeDestroyer

/-! ## What the steps do -/

/-- What a step can do, apart from nothing. -/
inductive Effect (s : ThreadPool ι κ σ Task Op Res) :
    ThreadPoolAction ι κ Task Env X → ThreadPool ι κ σ Task Op Res → Prop
  | adds {c : κ} {task : Task} {q : Users (κ ⊕ ι) Task}
    (enques : s.q.Effect (.enque (.inl c) task) q) : Effect s (.addTask c task) { s with q := q }
  | client {c : κ} {w : Option (κ ⊕ ι)} {q : Users (κ ⊕ ι) Task}
    (proceeds : s.q.Effect (.run (.inl c) w) q) : Effect s (.client c w) { s with q := q }
  | calls {t : ι} {w : Option (κ ⊕ ι)} {q : Users (κ ⊕ ι) Task} (alive : s.exited t = false)
    (free : s.workers.pool.threads t = none) (deques : s.q.Effect (.deque (.inr t)) q) :
    Effect s (.worker t w) { s with q := q }
  | proceeds {t : ι} {w : Option (κ ⊕ ι)} {q : Users (κ ⊕ ι) Task} (alive : s.exited t = false)
    (free : s.workers.pool.threads t = none) (stays : ∀ data, s.q.calls (.inr t) ≠ .dequeLeaves data)
    (proceeds : s.q.Effect (.run (.inr t) w) q) : Effect s (.worker t w) { s with q := q }
  /-- The worker has a task, and calls its function. -/
  | starts {t : ι} {w : Option (κ ⊕ ι)} {task : Task} (alive : s.exited t = false)
    (free : s.workers.pool.threads t = none) (call : s.q.calls (.inr t) = .dequeLeaves (some task)) :
    Effect s (.worker t w) { s with
      q := (s.q.discount.answer (.inr t) (some task)).goto (.inr t) .idle
      workers := { s.workers with
        pool := { s.workers.pool with
          threads := Function.update s.workers.pool.threads t (some (body task)) }
        going := Function.update s.workers.going t (some ⟨task, []⟩) } }
  /-- `SafeDeque` returns `NULL` to the worker. -/
  | leaves {t : ι} {w : Option (κ ⊕ ι)} (alive : s.exited t = false)
    (free : s.workers.pool.threads t = none) (call : s.q.calls (.inr t) = .dequeLeaves none) :
    Effect s (.worker t w) { s with
      q := (s.q.discount.answer (.inr t) none).goto (.inr t) .idle
      exited := Function.update s.exited t true }
  | exits {t : ι} {w : Option (κ ⊕ ι)} (alive : s.exited t = false)
    (free : s.workers.pool.threads t = none) (idle : s.q.calls (.inr t) = .idle)
    (dead : s.q.destroyed = true) :
    Effect s (.worker t w) { s with exited := Function.update s.exited t true }
  | wakes {t : ι} {q : Users (κ ⊕ ι) Task} (wakes : s.q.Effect (.wake (.inr t)) q) :
    Effect s (.wake t) { s with q := q }
  | runs {t : ι} {e : Env} {p : Prog Op Res Fault Unit} {workers : Recorded ι σ Task Op Res Fault}
    (busy : s.workers.pool.threads t = some p)
    (runs : s.workers.step body perform change (.run t e : PoolAction ι Task Env X) = .ok workers) :
    Effect s (.run t e) { s with workers := workers, finished := s.finish t }
  | outside {x : X} :
    Effect s (.outside x) { s with workers := { s.workers with
      pool := { s.workers.pool with shared := change x s.workers.pool.shared } } }
  | destroys {q : Users (κ ⊕ ι) Task} (closer : s.closer = .destroys) (stays : s.q.destroyer ≠ .left)
    (destroys : s.q.Effect .destroy q) : Effect s .close { s with q := q }
  | frees {q : Users (κ ⊕ ι) Task} (closer : s.closer = .destroys) (left : s.q.destroyer = .left)
    (frees : s.q.Effect .destroy q) : Effect s .close { s with q := q, closer := .joins s.ids }
  | joins {t : ι} {ids : List ι} (closer : s.closer = .joins (t :: ids)) (gone : s.exited t = true) :
    Effect s .close { s with closer := .joins ids }
  | returns (closer : s.closer = .joins []) : Effect s .close { s with closer := .returned }
  | wakesCloser {q : Users (κ ⊕ ι) Task} (wakes : s.q.Effect .wakeDestroyer q) :
    Effect s .wakeCloser { s with q := q }

/-- The step on the queue that a step takes. -/
inductive Takes : ThreadPoolAction ι κ Task Env X → QueueAction (κ ⊕ ι) Task → Prop
  | addTask (c : κ) (task : Task) : Takes (.addTask c task) (.enque (.inl c) task)
  | client (c : κ) (w : Option (κ ⊕ ι)) : Takes (.client c w) (.run (.inl c) w)
  | calls (t : ι) (w : Option (κ ⊕ ι)) : Takes (.worker t w) (.deque (.inr t))
  | worker (t : ι) (w : Option (κ ⊕ ι)) : Takes (.worker t w) (.run (.inr t) w)
  | wake (t : ι) : Takes (.wake t) (.wake (.inr t))
  | close : Takes .close .destroy
  | wakeCloser : Takes .wakeCloser .wakeDestroyer

variable {body perform change} {s s' : ThreadPool ι κ σ Task Op Res}

omit [Fintype ι] [Fintype κ] in
/-- What a step does to the queue. -/
theorem Effect.queue {a : ThreadPoolAction ι κ Task Env X} (he : s.Effect body perform change a s') :
    s'.q = s.q ∨ ∃ qa, s.q.Effect qa s'.q ∧ Takes a qa := by
  cases he with
  | adds enques => exact Or.inr ⟨_, enques, .addTask ..⟩
  | client proceeds => exact Or.inr ⟨_, proceeds, .client ..⟩
  | calls alive free deques => exact Or.inr ⟨_, deques, .calls ..⟩
  | proceeds alive free stays proceeds => exact Or.inr ⟨_, proceeds, .worker ..⟩
  | starts alive free call => exact Or.inr ⟨_, .dequeEnds call, .worker ..⟩
  | leaves alive free call => exact Or.inr ⟨_, .dequeEnds call, .worker ..⟩
  | wakes wakes => exact Or.inr ⟨_, wakes, .wake _⟩
  | destroys closer stays destroys => exact Or.inr ⟨_, destroys, .close⟩
  | frees closer left frees => exact Or.inr ⟨_, frees, .close⟩
  | wakesCloser wakes => exact Or.inr ⟨_, wakes, .wakeCloser⟩
  | exits | runs | outside | joins | returns => exact Or.inl rfl

/-- What a step on the queue does. -/
theorem onQueue_cases {a : QueueAction (κ ⊕ ι) Task} (h : s.onQueue a = .ok s') :
    s' = s ∨ ∃ q, s.q.Effect a q ∧ s' = { s with q := q } := by
  obtain ⟨q, hq, hs⟩ := Run.bind_eq_ok.mp h
  obtain rfl := Except.ok.inj hs
  rcases Users.step_cases hq with rfl | he
  · exact Or.inl rfl
  · exact Or.inr ⟨q, he, rfl⟩

/-- `SafeDeque` returns. -/
theorem onQueue_leaves {t : ι} {w : Option (κ ⊕ ι)} {data : Option Task}
    (hcall : s.q.calls (.inr t) = .dequeLeaves data) (h : s.onQueue (.run (.inr t) w) = .ok s') :
    s' = { s with q := (s.q.discount.answer (.inr t) data).goto (.inr t) .idle } := by
  obtain ⟨q, hq, hs⟩ := Run.bind_eq_ok.mp h
  obtain rfl := Except.ok.inj hs
  simp only [Users.step, Users.proceed, hcall] at hq
  split_ifs at hq
  obtain rfl := Except.ok.inj hq
  rfl

/-- A worker to which `SafeDeque` returns a task starts it. -/
theorem workerStep_starts {t : ι} {w : Option (κ ⊕ ι)} {task : Task} (halive : s.exited t = false)
    (hfree : s.workers.pool.threads t = none) (hcall : s.q.calls (.inr t) = .dequeLeaves (some task))
    (h : s.workerStep body perform change t w = .ok s') :
    s.Effect body perform change (.worker t w) s' ∧
      s'.workers = { s.workers with
        pool := { s.workers.pool with
          threads := Function.update s.workers.pool.threads t (some (body task)) }
        going := Function.update s.workers.going t (some ⟨task, []⟩) } := by
  have hbusy : ¬ (s.exited t ∨ (s.workers.pool.threads t).isSome) := by simp [halive, hfree]
  rw [workerStep, if_neg hbusy, hcall] at h
  obtain ⟨s₁, hq, hs⟩ := Run.bind_eq_ok.mp h
  obtain rfl := onQueue_leaves hcall hq
  simp only [work, Recorded.step, hfree, Run.ok_bind] at hs
  obtain rfl := Except.ok.inj hs
  exact ⟨.starts halive hfree hcall, rfl⟩

/-- What a step of the loop of `worker` does. -/
theorem workerStep_cases {t : ι} {w : Option (κ ⊕ ι)}
    (h : s.workerStep body perform change t w = .ok s') :
    s' = s ∨ s.Effect body perform change (.worker t w) s' := by
  have hstep := h
  unfold workerStep at h
  by_cases hbusy : s.exited t ∨ (s.workers.pool.threads t).isSome
  · rw [if_pos hbusy] at h
    exact Or.inl (Except.ok.inj h).symm
  rw [if_neg hbusy] at h
  rw [not_or, Bool.not_eq_true, Option.not_isSome_iff_eq_none] at hbusy
  obtain ⟨halive, hfree⟩ := hbusy
  -- A step on the queue, but for the last one of `SafeDeque`.
  have hstays : (∀ data, s.q.calls (.inr t) ≠ .dequeLeaves data) →
      s.onQueue (.run (.inr t) w) = .ok s' →
      s' = s ∨ s.Effect body perform change (.worker t w) s' := by
    intro hstays h
    rcases onQueue_cases h with rfl | ⟨q, he, rfl⟩
    · exact Or.inl rfl
    · exact Or.inr (.proceeds halive hfree hstays he)
  cases hcall : s.q.calls (.inr t) with
  | idle =>
    rw [hcall] at h
    dsimp only at h
    split_ifs at h with hdead
    · obtain rfl := Except.ok.inj h
      exact Or.inr (.exits halive hfree hcall hdead)
    · rcases onQueue_cases h with rfl | ⟨q, he, rfl⟩
      · exact Or.inl rfl
      · exact Or.inr (.calls halive hfree he)
  | dequeLeaves data =>
    rw [hcall] at h
    cases data with
    | none =>
      obtain ⟨s₁, hq, hs⟩ := Run.bind_eq_ok.mp h
      obtain rfl := Except.ok.inj hs
      obtain rfl := onQueue_leaves hcall hq
      exact Or.inr (.leaves halive hfree hcall)
    | some task => exact Or.inr (workerStep_starts halive hfree hcall hstep).1
  | _ =>
    rw [hcall] at h
    exact hstays (by rw [hcall]; simp) h

/-- What a step does. -/
theorem step_cases {a : ThreadPoolAction ι κ Task Env X}
    (h : s.step body perform change a = .ok s') : s' = s ∨ s.Effect body perform change a s' := by
  cases a with
  | addTask c task =>
    cases hcloser : s.closer with
    | returned =>
      simp only [step, hcloser] at h
      cases h
    | destroys | joins =>
      simp only [step, hcloser] at h
      rcases onQueue_cases h with rfl | ⟨q, he, rfl⟩
      · exact Or.inl rfl
      · exact Or.inr (.adds he)
  | client c w =>
    rcases onQueue_cases h with rfl | ⟨q, he, rfl⟩
    · exact Or.inl rfl
    · exact Or.inr (.client he)
  | worker t w =>
    rcases workerStep_cases h with rfl | he
    · exact Or.inl rfl
    · exact Or.inr he
  | wake t =>
    rcases onQueue_cases h with rfl | ⟨q, he, rfl⟩
    · exact Or.inl rfl
    · exact Or.inr (.wakes he)
  | run t e =>
    obtain ⟨s₁, hwork, hs⟩ := Run.bind_eq_ok.mp h
    obtain ⟨workers, hw, hs₁⟩ := Run.bind_eq_ok.mp hwork
    obtain rfl := Except.ok.inj hs₁
    obtain rfl := Except.ok.inj hs
    cases hp : s.workers.pool.threads t with
    | none =>
      refine Or.inl ?_
      have hw' : workers = s.workers := by
        simp only [Recorded.step, hp] at hw
        exact (Except.ok.inj hw).symm
      simp [finish, hp, hw']
    | some p => exact Or.inr (.runs hp hw)
  | outside x =>
    obtain ⟨workers, hw, hs⟩ := Run.bind_eq_ok.mp h
    obtain rfl := Except.ok.inj hw
    obtain rfl := Except.ok.inj hs
    exact Or.inr .outside
  | close =>
    simp only [step, closeStep] at h
    cases hcloser : s.closer with
    | destroys =>
      rw [hcloser] at h
      obtain ⟨q, hq, hs⟩ := Run.bind_eq_ok.mp h
      obtain rfl := Except.ok.inj hs
      rcases Users.step_cases hq with rfl | he
      · -- Before its end `SafeDestroy` may have to wait.
        refine Or.inl ?_
        have hstays : s.q.destroyer ≠ .left := by
          intro hleft
          obtain ⟨nodes, -, hq⟩ := Run.bind_eq_ok.mp
            (show _ = _ by simpa only [Users.step, Users.destroyStep, hleft] using hq)
          have := congrArg Users.destroyer (Except.ok.inj hq)
          rw [hleft] at this
          cases this
        rw [if_neg hstays, ← hcloser]
      · by_cases hleft : s.q.destroyer = .left
        · rw [if_pos hleft]
          exact Or.inr (.frees hcloser hleft he)
        · rw [if_neg hleft, ← hcloser]
          exact Or.inr (.destroys hcloser hleft he)
    | joins ids =>
      rw [hcloser] at h
      cases ids with
      | nil =>
        obtain rfl := Except.ok.inj h
        exact Or.inr (.returns hcloser)
      | cons t ids =>
        dsimp only at h
        split_ifs at h with hgone
        · obtain rfl := Except.ok.inj h
          exact Or.inr (.joins hcloser hgone)
        · exact Or.inl (Except.ok.inj h).symm
    | returned =>
      rw [hcloser] at h
      exact Or.inl (Except.ok.inj h).symm
  | wakeCloser =>
    rcases onQueue_cases h with rfl | ⟨q, he, rfl⟩
    · exact Or.inl rfl
    · exact Or.inr (.wakesCloser he)

end ThreadPool

end DnsRelayer
