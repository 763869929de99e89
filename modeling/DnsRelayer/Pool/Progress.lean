import DnsRelayer.Pool.Tasks
import DnsRelayer.Lib.Fair
import Mathlib.Algebra.Order.BigOperators.Group.Finset

/-!
# Every task is run to its end

As long as the pool is not closed, in a run without end in which no thread that can go on is held up for ever,
every task that is added is run to its end (`ThreadPool.every_task_ends`). Locks need not be fair to each
thread: a worker may find the lock taken again and again, as others take tasks meanwhile.

Two things come about in such a run. As long as the queue is not empty some worker gets to its section of
`SafeDeque`: the measure is how far the workers are from theirs, and a worker that is not blocked helps, or
the client that has a signal to send when all are. And what a worker has taken it runs to its end, as a
task calls a bounded number of operations.
-/

namespace DnsRelayer

open Lib

/-- How far a call of `SafeDeque` is from taking data out of a queue that is not empty, where what is done
with the data takes up to `B` steps. -/
def Call.away {α : Type} (B : ℕ) : Call α → ℕ
  | .idle => 6
  | .dequeTested => 5
  | .dequeBlocked => 4
  | .dequeCounted => 3
  | .dequePassed => 2
  | .dequeLeaves _ => B + 8
  | _ => 0

/-! ## The queue -/

namespace Users

variable {ι α : Type} [DecidableEq ι] {s s' : Users ι α} {a : QueueAction ι α} {t u : ι} {vs : List α}
  {B : ℕ}

/-- A lock that is taken is taken by a thread in its section. -/
def Held (s : Users ι α) : Prop := ∀ u, s.q_lock = some u → s.HasLock u

omit [DecidableEq ι] in
theorem init_held : (init : Users ι α).Held := fun _ h => by cases h

/-- The queue is not closed and not empty, and no thread found it empty. -/
structure Stocked (s : Users ι α) : Prop where
  alive : s.destroyed = false
  filled : s.head ≠ s.tail
  unwaited : ∀ u, s.calls u ≠ .dequeWaits

/-- A queue with data in it is stocked. -/
theorem Sound.stocked (h : s.Sound vs) (halive : s.destroyed = false) (hvs : vs ≠ []) : s.Stocked :=
  ⟨halive, fun heq => hvs ((h.alive halive).head_eq_tail_iff.mp heq), fun u hu => hvs (h.waits u hu)⟩

variable [Fintype ι]

omit [Fintype ι] in
/-- A step keeps this of the lock. -/
theorem Held.step (h : s.Held) (hsound : s.Sound vs) (he : s.Effect a s') : s'.Held := by
  have hlock := hsound.lock
  intro u hu
  have hheld := h u
  cases he <;>
    simp only [HasLock, goto, discount, answer, Function.update_apply] at hlock hheld hu ⊢ <;>
    grind [isBlocked_iff]

omit [Fintype ι] in
/-- No step takes a thread in or before `SafeDeque` away from its section, unless one takes data. -/
theorem Effect.away_le (he : s.Effect a s') (h : s.Stocked) (hu : s.calls u = .idle ∨ s.InDeque u)
    (henque : ∀ data, a ≠ .enque u data)
    (hleaves : ∀ w data, a = .run u w → s.calls u ≠ .dequeLeaves data) :
    s.taken.length < s'.taken.length ∨ (s'.calls u).away B ≤ (s.calls u).away B := by
  obtain ⟨halive, hfilled, hwaits⟩ := h
  cases he <;>
    simp only [InDeque, goto, discount, answer, Function.update_apply] at hu ⊢ <;>
    grind [Call.away, isBlocked_iff]

omit [Fintype ι] in
/-- A thread that takes a step in `SafeDeque`, or calls it, gets closer. -/
theorem Effect.away_lt (he : s.Effect a s') (h : s.Stocked) (hu : s.calls u = .idle ∨ s.InDeque u)
    (ha : a = .deque u ∨ ∃ w, a = .run u w) (hleaves : ∀ data, s.calls u ≠ .dequeLeaves data) :
    s.taken.length < s'.taken.length ∨ (s'.calls u).away B < (s.calls u).away B := by
  obtain ⟨halive, hfilled, hwaits⟩ := h
  rcases ha with rfl | ⟨w, rfl⟩
  · cases he
    simp_all [goto, Call.away]
  · cases he <;>
      simp only [InDeque, goto, discount, answer, Function.update_apply] at hu ⊢ <;>
      grind [Call.away, isBlocked_iff]

omit [Fintype ι] in
/-- The lock that a thread may take stays free, or is taken by another that gets closer. -/
theorem Effect.lock_kept (he : s.Effect a s') (h : s.q_lock = none ∨ s.q_lock = some u) :
    s'.q_lock = none ∨ s'.q_lock = some u ∨ ∃ t w, a = .run t w ∧ s.calls t = .dequeCounted := by
  cases he <;> simp only [goto, discount, answer] <;> grind

omit [Fintype ι] in
/-- No thread blocks that did not find the queue empty. -/
theorem Effect.not_blocked (he : s.Effect a s') (h : s.Stocked) (hu : s.calls u ≠ .dequeBlocked) :
    s'.calls u ≠ .dequeBlocked := by
  obtain ⟨halive, hfilled, hwaits⟩ := h
  cases he <;>
    simp only [goto, discount, answer, Function.update_apply] <;>
    grind [isBlocked_iff]

omit [Fintype ι] in
/-- Only a thread itself sends the signal that it has to send. -/
theorem Effect.linked_kept (he : s.Effect a s') (hu : s.calls u = .enqueLinked) (ha : ∀ w, a ≠ .run u w) :
    s'.calls u = .enqueLinked := by
  cases he <;>
    simp only [goto, discount, answer, Function.update_apply] <;>
    grind [isBlocked_iff]

omit [Fintype ι] in
/-- A blocked thread stays blocked, or wakes up. -/
theorem Effect.blocked_kept (he : s.Effect a s') (hu : s.calls u = .dequeBlocked) :
    s'.calls u = .dequeBlocked ∨ s'.calls u = .dequeCounted := by
  cases he <;>
    simp only [goto, discount, answer, Function.update_apply] <;>
    grind [isBlocked_iff]

omit [Fintype ι] in
/-- A thread that takes a step is in a call, and not blocked. -/
theorem Effect.in_call {w : Option ι} (he : s.Effect (.run u w) s') :
    s.calls u ≠ .idle ∧ s.calls u ≠ .dequeBlocked := by
  cases he <;> simp [*]

omit [Fintype ι] in
/-- The signal of `SafeEnque` wakes a thread when one is blocked. -/
theorem Effect.signals_one {w : Option ι} (he : s.Effect (.run u w) s') (hu : s.calls u = .enqueLinked)
    (ht : s.calls t = .dequeBlocked) : ∃ v, s.calls v = .dequeBlocked ∧ s'.calls v = .dequeCounted := by
  cases he with
  | signals call blocked =>
    refine ⟨_, blocked, ?_⟩
    rw [goto_of_ne _ _ (by rintro rfl; rw [call] at blocked; cases blocked), goto_self]
  | signalsNone call none_blocked => exact absurd ht (none_blocked t)
  | _ => simp_all

omit [Fintype ι] in
/-- A thread that is to leave `SafeDeque` leaves it by itself. -/
theorem Effect.leaves_kept (he : s.Effect a s') {data : Option α} (hu : s.calls u = .dequeLeaves data)
    (ha : ∀ w, a ≠ .run u w) : s'.calls u = .dequeLeaves data := by
  cases he <;>
    simp only [goto, discount, answer, Function.update_apply] <;>
    grind [isBlocked_iff]

omit [Fintype ι] in
/-- What was enqueued and what was taken is only added to. -/
theorem Effect.grows (he : s.Effect a s') :
    s.enqueued <+: s'.enqueued ∧ s.taken <+: s'.taken := by
  cases he <;>
    simp only [goto, discount, answer, List.prefix_append, List.prefix_refl, and_self]

/-- A thread in `SafeDeque` that is not blocked, and does not find the lock taken, can take a step. -/
theorem Sound.canRun (h : s.Sound vs) (hstock : s.Stocked) (hheld : s.Held) (hu : s.InDeque u)
    (hblocked : s.calls u ≠ .dequeBlocked) (hlock : s.q_lock = none ∨ s.q_lock = some u) :
    ∃ q, s.step (.run u none) = .ok q ∧ s.Effect (.run u none) q := by
  have hdone : s.destroyer ≠ .done := by
    intro hd
    have := h.flag.mpr (by rw [hd]; simp)
    rw [hstock.alive] at this
    cases this
  obtain ⟨q, hq⟩ := h.total hdone (.run u none)
  refine ⟨q, hq, (step_cases hq).resolve_left ?_⟩
  rintro rfl
  -- Each step takes it to another point of its call.
  have hmoved : ∀ {r : Users ι α} {c : Call α}, c ≠ q.calls u → r.goto u c ≠ q := by
    rintro r c hc rfl
    exact hc (goto_self _ _ _).symm
  simp only [Users.step, hdone, and_false, if_false, proceed] at hq
  rcases hu with hc | hc | hc | hc | hc | ⟨data, hc⟩
  · simp only [hc] at hq
    exact hmoved (by simp [hc]) (Except.ok.inj hq)
  · have hfree : q.q_lock = none := by
      refine hlock.resolve_right fun hl => ?_
      rcases hheld u hl with hw | hp
      · rw [hc] at hw
        cases hw
      · rw [hc] at hp
        cases hp
    simp only [hc, hfree, Option.isSome_none, Bool.false_eq_true, if_false, hstock.alive,
      hstock.filled, and_false] at hq
    exact hmoved (by simp [hc]) (Except.ok.inj hq)
  · exact hstock.unwaited u hc
  · exact hblocked hc
  · simp only [hc, hstock.alive, Bool.false_eq_true, if_false] at hq
    obtain ⟨x, -, hx⟩ := Run.bind_eq_ok.mp hq
    exact hmoved (by simp [hc]) (Except.ok.inj hx)
  · simp only [hc] at hq
    exact hmoved (by simp [hc]) (Except.ok.inj hq)

end Users

/-! ## The pool -/

namespace ThreadPool

variable {ι κ σ Task Op Env X : Type} {Res : Op → Type} [DecidableEq ι] [DecidableEq κ] [Fintype ι]
  [Fintype κ] (body : Task → Prog Op Res Fault Unit)
  (perform : (o : Op) → Env → σ → Except Fault (Res o × σ)) (change : X → σ → σ)

/-- The step is one that the worker takes, in its loop or in a task. -/
def Works (t : ι) (a : ThreadPoolAction ι κ Task Env X) : Prop :=
  (∃ w, a = .worker t w) ∨ ∃ e, a = .run t e

/-- The threads that a fair run does not hold up: a client in `AddTask`, and a worker. -/
def moves : κ ⊕ ι → ThreadPool ι κ σ Task Op Res → ThreadPoolAction ι κ Task Env X →
    ThreadPool ι κ σ Task Op Res → Prop
  | .inl c, s, a, s' => (∃ w, a = .client c w) ∧ s.Effect body perform change a s'
  | .inr t, s, a, s' => Works t a ∧ s.Effect body perform change a s'

omit [Fintype ι] [Fintype κ] in
theorem moves.effect {body : Task → Prog Op Res Fault Unit}
    {perform : (o : Op) → Env → σ → Except Fault (Res o × σ)} {change : X → σ → σ} {i : κ ⊕ ι}
    {s s' : ThreadPool ι κ σ Task Op Res} {a : ThreadPoolAction ι κ Task Env X}
    (h : moves body perform change i s a s') : s.Effect body perform change a s' := by
  cases i with
  | inl c => exact h.2
  | inr t => exact h.2

/-- The thread can go on: by a step on the queue, or a worker in its task, whose operations return. -/
def CanMove : κ ⊕ ι → ThreadPool ι κ σ Task Op Res → Prop
  | .inl c, s => ∃ w s', s.step body perform change (.client c w) = .ok s' ∧
      s.Effect body perform change (.client c w) s'
  | .inr t, s => s.workers.pool.threads t ≠ none ∨ ∃ w s',
      s.step body perform change (.worker t w) = .ok s' ∧ s.Effect body perform change (.worker t w) s'

/-- How far a worker is from its next section of `SafeDeque`. -/
def away (B : ℕ) (s : ThreadPool ι κ σ Task Op Res) (t : ι) : ℕ :=
  match s.workers.going t with
  | some i => B + 7 - i.calls.length
  | none => (s.q.calls (.inr t)).away B

/-- The worker has a task, or `SafeDeque` is to return one to it. -/
def Busy (s : ThreadPool ι κ σ Task Op Res) (t : ι) : Prop :=
  s.workers.going t ≠ none ∨ ∃ data, s.q.calls (.inr t) = .dequeLeaves data

/-- The pool is sound and open, and no task calls more than `B` operations. -/
structure Running (B : ℕ) (s : ThreadPool ι κ σ Task Op Res) : Prop where
  sound : ∃ vs, s.Sound vs
  notCalled : s.q.destroyer = .notCalled
  awake : s.q.Awake fun u => ∃ t, u = .inr t
  held : s.q.Held
  bounded : ∀ t p, s.workers.pool.threads t = some p → ∃ i m, s.workers.going t = some i ∧
    p.Calls (fun _ => True) m ∧ i.calls.length + m ≤ B

/-- Who helps: a worker that is not blocked and does not find the lock taken, or a client that has a signal
to send when all workers are blocked. -/
def Helps : κ ⊕ ι → ThreadPool ι κ σ Task Op Res → Prop
  | .inr t, s => s.q.calls (.inr t) ≠ .dequeBlocked ∧ (s.q.q_lock = none ∨ s.q.q_lock = some (.inr t))
  | .inl c, s => s.q.calls (.inl c) = .enqueLinked ∧ ∀ t, s.q.calls (.inr t) = .dequeBlocked

variable {body perform change} {s s' : ThreadPool ι κ σ Task Op Res} {B : ℕ}
  {a : ThreadPoolAction ι κ Task Env X} {t : ι}

omit [Fintype κ] in
theorem create_running (ids : List ι) (x : σ) :
    (create ids x : ThreadPool ι κ σ Task Op Res).Running B where
  sound := ⟨[], create_sound ids x⟩
  notCalled := rfl
  awake := ⟨fun u hu => by simp [Users.InDeque, create, Users.init] at hu, fun hne => absurd rfl hne⟩
  held := Users.init_held
  bounded _ _ h := by cases h

omit [Fintype ι] [Fintype κ] in
/-- A step keeps to the bound on what tasks call. -/
theorem bounded_tasks (h : ∀ t p, s.workers.pool.threads t = some p → ∃ i m, s.workers.going t = some i ∧
      p.Calls (fun _ => True) m ∧ i.calls.length + m ≤ B)
    (hbody : ∀ task, (body task).Calls (fun _ => True) B) (he : s.Effect body perform change a s') :
    ∀ t p, s'.workers.pool.threads t = some p → ∃ i m, s'.workers.going t = some i ∧
      p.Calls (fun _ => True) m ∧ i.calls.length + m ≤ B := by
  cases he with
  | @starts t w task alive free call =>
    intro u p hp
    simp only [Function.update_apply] at hp ⊢
    split_ifs at hp ⊢ with hut
    · obtain rfl := Option.some.inj hp
      exact ⟨_, B, rfl, hbody task, Nat.le_of_eq (Nat.zero_add B)⟩
    · exact h u p hp
  | @runs t e p workers busy runs =>
    obtain ⟨i, m, hi, hm, hle⟩ := h t p busy
    intro u p' hp'
    cases Recorded.step_effect runs with
    | idle free => cases busy.symm.trans free
    | ends last =>
      simp only [Function.update_apply] at hp' ⊢
      split_ifs at hp' ⊢
      exact h u p' hp'
    | @calls t e o k r shared next performs =>
      obtain rfl := Option.some.inj (busy.symm.trans next)
      simp only [Function.update_apply] at hp' ⊢
      split_ifs at hp' ⊢
      · obtain rfl := Option.some.inj hp'
        cases m with
        | zero => exact hm.elim
        | succ m =>
          refine ⟨_, m, by rw [hi]; rfl, hm.2 r, ?_⟩
          rw [List.length_append, List.length_singleton]
          omega
      · exact h u p' hp'
  | _ => exact h

omit [DecidableEq κ] [Fintype ι] [Fintype κ] in
/-- A step in a task ends it, or calls one more operation. -/
theorem runs_going (h : ∀ t p, s.workers.pool.threads t = some p → ∃ i m, s.workers.going t = some i ∧
      p.Calls (fun _ => True) m ∧ i.calls.length + m ≤ B) {e : Env} {p : Prog Op Res Fault Unit}
    {workers : Recorded ι σ Task Op Res Fault} (busy : s.workers.pool.threads t = some p)
    (runs : s.workers.step body perform change (.run t e : PoolAction ι Task Env X) = .ok workers) :
    (∀ u, u ≠ t → workers.going u = s.workers.going u) ∧ ∃ i, s.workers.going t = some i ∧
      i.calls.length ≤ B ∧ (workers.going t = none ∨ ∃ i', workers.going t = some i' ∧
        i'.calls.length = i.calls.length + 1 ∧ i'.calls.length ≤ B) := by
  obtain ⟨i, m, hi, hm, hle⟩ := h t p busy
  cases Recorded.step_effect runs with
  | idle free => cases busy.symm.trans free
  | ends last =>
    exact ⟨fun u hut => Function.update_of_ne hut _ _, i, hi, by omega, Or.inl (Function.update_self ..)⟩
  | @calls t e o k r shared next performs =>
    obtain rfl := Option.some.inj (busy.symm.trans next)
    cases m with
    | zero => exact hm.elim
    | succ m =>
      refine ⟨fun u hut => Function.update_of_ne hut _ _, i, hi, by omega,
        Or.inr ⟨⟨i.job, i.calls ++ [⟨o, r⟩]⟩, ?_, List.length_append, ?_⟩⟩
      · exact (Function.update_self ..).trans (by rw [hi]; rfl)
      · rw [List.length_append, List.length_singleton]
        omega

namespace Running

omit [Fintype κ] in
/-- A step of an open pool keeps it running. -/
theorem step [Nonempty ι] (h : s.Running B) (hbody : ∀ task, (body task).Calls (fun _ => True) B)
    (ha : a ≠ .close) (he : s.Effect body perform change a s') : s'.Running B := by
  obtain ⟨vs, hsound⟩ := h.sound
  -- The queue.
  have hqueue : s'.q.destroyer = .notCalled ∧ s'.q.Awake (fun u => ∃ t, u = .inr t) ∧ s'.q.Held := by
    rcases he.queue with heq | ⟨qa, hqa, htakes⟩
    · rw [heq]
      exact ⟨h.notCalled, h.awake, h.held⟩
    · have hdestroy : qa ≠ .destroy := by
        rintro rfl
        cases htakes
        exact ha rfl
      refine ⟨?_, h.awake.step hsound.q h.notCalled ?_ ?_ hqa, h.held.step hsound.q hqa⟩
      · exact hqa.notCalled h.notCalled hdestroy
      · exact ⟨.inr (Classical.arbitrary ι), _, rfl⟩
      · rintro u rfl
        cases htakes
        exact ⟨_, rfl⟩
  exact ⟨hsound.step he, hqueue.1, hqueue.2.1, hqueue.2.2, bounded_tasks h.bounded hbody he⟩

omit [Fintype κ] in
/-- A pool that is open is not flagged. -/
theorem alive (h : s.Running B) : s.q.destroyed = false := by
  obtain ⟨vs, hsound⟩ := h.sound
  rw [← Bool.not_eq_true, hsound.q.flag, h.notCalled]
  simp

omit [Fintype κ] in
/-- A worker of an open pool has not ended. -/
theorem not_exited (h : s.Running B) (t : ι) : s.exited t = false := by
  obtain ⟨vs, hsound⟩ := h.sound
  rw [← Bool.not_eq_true]
  intro hgone
  have := (hsound.exited t hgone).2
  rw [h.alive] at this
  cases this

omit [Fintype κ] in
/-- `SafeDeque` does not return `NULL` in an open pool. -/
theorem leaves_some (h : s.Running B) {data : Option Task} (hc : s.q.calls (.inr t) = .dequeLeaves data) :
    ∃ task, data = some task := by
  obtain ⟨vs, hsound⟩ := h.sound
  cases data with
  | some task => exact ⟨task, rfl⟩
  | none =>
    have := hsound.dead t hc
    rw [h.alive] at this
    cases this

omit [Fintype κ] in
/-- The queue is stocked when less was taken than was enqueued. -/
theorem stocked (h : s.Running B) (hlt : s.q.taken.length < s.q.enqueued.length) : s.q.Stocked := by
  obtain ⟨vs, hsound⟩ := h.sound
  refine hsound.q.stocked h.alive ?_
  rintro rfl
  have := congrArg List.length hsound.q.order
  rw [List.append_nil, List.length_map] at this
  omega

omit [Fintype κ] in
/-- A step in a task brings its worker closer. -/
theorem runs_away (h : s.Running B) {e : Env} {p : Prog Op Res Fault Unit}
    {workers : Recorded ι σ Task Op Res Fault} (busy : s.workers.pool.threads t = some p)
    (runs : s.workers.step body perform change (.run t e : PoolAction ι Task Env X) = .ok workers)
    (u : ι) : u = t ∧ away B { s with workers := workers, finished := s.finish t } u < away B s u ∨
      u ≠ t ∧ away B { s with workers := workers, finished := s.finish t } u = away B s u := by
  obtain ⟨vs, hsound⟩ := h.sound
  have hidle := (hsound.busy t (by rw [busy]; simp)).1
  obtain ⟨hothers, i, hi, hle, hown⟩ := runs_going h.bounded busy runs
  by_cases hut : u = t
  · subst hut
    refine Or.inl ⟨rfl, ?_⟩
    rcases hown with hnone | ⟨i', hi', hlen, hle'⟩
    · simp only [away, hnone, hi, hidle, Call.away]
      omega
    · simp only [away, hi', hi]
      omega
  · refine Or.inr ⟨hut, ?_⟩
    simp only [away, hothers u hut]

omit [Fintype κ] in
/-- A worker that starts a task gets closer. -/
theorem starts_away (h : s.Running B) {task : Task} (free : s.workers.pool.threads t = none)
    (call : s.q.calls (.inr t) = .dequeLeaves (some task))
    (hq : s'.q = (s.q.discount.answer (.inr t) (some task)).goto (.inr t) .idle)
    (hgoing : s'.workers.going = Function.update s.workers.going t (some ⟨task, []⟩)) (u : ι) :
    u = t ∧ away B s' u < away B s u ∨ u ≠ t ∧ away B s' u = away B s u := by
  obtain ⟨vs, hsound⟩ := h.sound
  by_cases hut : u = t
  · subst hut
    refine Or.inl ⟨rfl, ?_⟩
    simp only [away, hgoing, Function.update_self, (hsound.going u).mpr free, call, Call.away,
      List.length_nil]
    omega
  · refine Or.inr ⟨hut, ?_⟩
    simp only [away, hgoing, hq, Function.update_of_ne hut]
    rw [Users.goto_of_ne _ _ (by simpa using hut)]
    rfl

omit [Fintype κ] in
/-- What a step is to a worker: it is its own and brings it closer, when it has a task; it leaves it where it
is; or it is a step on the queue, which is the worker's own only when it has no task. -/
theorem step_for (h : s.Running B) (he : s.Effect body perform change a s') (t : ι) :
    Works t a ∧ away B s' t < away B s t ∨ ¬ Works t a ∧ away B s' t = away B s t ∨
      ∃ qa, s.q.Effect qa s'.q ∧ Takes a qa ∧ s'.workers = s.workers ∧ (Works t a → ¬ s.Busy t) := by
  obtain ⟨vs, hsound⟩ := h.sound
  have hstarts := fun {u : ι} {task : Task} free call hq
    (hgoing : s'.workers.going = Function.update s.workers.going u (some ⟨task, []⟩)) =>
    h.starts_away free call hq hgoing t
  -- A worker in its loop that is not about to leave `SafeDeque` has no task.
  have hfree : ∀ {u w}, s.workers.pool.threads u = none →
      (∀ data, s.q.calls (.inr u) ≠ .dequeLeaves data) →
      Works t (.worker u w : ThreadPoolAction ι κ Task Env X) → ¬ s.Busy t := by
    rintro u w hnone hstays (⟨w', ha⟩ | ⟨e, ha⟩) hbusy
    · cases ha
      exact hbusy.elim (fun hg => hg ((hsound.going _).mpr hnone)) fun ⟨data, hc⟩ => hstays data hc
    · cases ha
  cases he with
  | adds enques => exact Or.inr (Or.inr ⟨_, enques, .addTask .., rfl, by simp [Works]⟩)
  | client proceeds => exact Or.inr (Or.inr ⟨_, proceeds, .client .., rfl, by simp [Works]⟩)
  | calls alive free deques =>
    refine Or.inr (Or.inr ⟨_, deques, .calls .., rfl, hfree free fun data hc => ?_⟩)
    cases deques with
    | deque idle =>
      rw [idle] at hc
      cases hc
  | proceeds alive free stays proceeds =>
    exact Or.inr (Or.inr ⟨_, proceeds, .worker .., rfl, hfree free stays⟩)
  | @starts u w task alive free call =>
    rcases hstarts free call rfl rfl with ⟨rfl, hlt⟩ | ⟨hut, heq⟩
    · exact Or.inl ⟨Or.inl ⟨w, rfl⟩, hlt⟩
    · exact Or.inr (Or.inl ⟨by simpa [Works] using hut.symm, heq⟩)
  | leaves alive free call =>
    obtain ⟨task, htask⟩ := h.leaves_some call
    cases htask
  | exits alive free idle dead =>
    rw [h.alive] at dead
    cases dead
  | wakes wakes => exact Or.inr (Or.inr ⟨_, wakes, .wake _, rfl, by simp [Works]⟩)
  | @runs u e p workers busy runs =>
    rcases h.runs_away busy runs t with ⟨rfl, hlt⟩ | ⟨hut, heq⟩
    · exact Or.inl ⟨Or.inr ⟨e, rfl⟩, hlt⟩
    · exact Or.inr (Or.inl ⟨by simpa [Works] using hut.symm, heq⟩)
  | outside | joins | returns => exact Or.inr (Or.inl ⟨by simp [Works], rfl⟩)
  | destroys closer stays destroys => exact Or.inr (Or.inr ⟨_, destroys, .close, rfl, by simp [Works]⟩)
  | frees closer left frees => exact Or.inr (Or.inr ⟨_, frees, .close, rfl, by simp [Works]⟩)
  | wakesCloser wakes => exact Or.inr (Or.inr ⟨_, wakes, .wakeCloser, rfl, by simp [Works]⟩)

omit [Fintype κ] in
/-- A step of a worker that has a task brings it closer, and the others leave it where it is. -/
theorem busy_away (h : s.Running B) (he : s.Effect body perform change a s') (hbusy : s.Busy t) :
    Works t a ∧ away B s' t < away B s t ∨ ¬ Works t a ∧ away B s' t = away B s t := by
  rcases h.step_for he t with hown | hother | ⟨qa, hqa, htakes, hworkers, hnot⟩
  · exact Or.inl hown
  · exact Or.inr hother
  have hworks : ¬ Works t a := fun hw => hnot hw hbusy
  refine Or.inr ⟨hworks, ?_⟩
  simp only [away, hworkers]
  rcases hbusy with hgoing | ⟨data, hc⟩
  · obtain ⟨i, hi⟩ := Option.ne_none_iff_exists'.mp hgoing
    rw [hi]
  · have hrun : ∀ w, qa ≠ .run (.inr t) w := by
      rintro w rfl
      cases htakes
      exact hworks (Or.inl ⟨_, rfl⟩)
    rw [hqa.leaves_kept hc hrun, hc]

omit [Fintype κ] in
/-- As long as the queue is stocked no step takes a worker away from its section, and each step of its own
brings it closer, unless one takes a task. -/
theorem step_away (h : s.Running B) (hstock : s.q.Stocked) (he : s.Effect body perform change a s') (t : ι) :
    s.q.taken.length < s'.q.taken.length ∨
      away B s' t ≤ away B s t ∧ (Works t a → away B s' t < away B s t) := by
  by_cases hbusy : s.Busy t
  · rcases h.busy_away he hbusy with ⟨-, hlt⟩ | ⟨hnot, heq⟩
    · exact Or.inr ⟨hlt.le, fun _ => hlt⟩
    · exact Or.inr ⟨heq.le, fun hw => absurd hw hnot⟩
  rcases h.step_for he t with ⟨-, hlt⟩ | ⟨hnot, heq⟩ | ⟨qa, hqa, htakes, hworkers, -⟩
  · exact Or.inr ⟨hlt.le, fun _ => hlt⟩
  · exact Or.inr ⟨heq.le, fun hw => absurd hw hnot⟩
  rw [Busy, not_or, not_not, not_exists] at hbusy
  obtain ⟨hnone, hleaves⟩ := hbusy
  obtain ⟨vs, hsound⟩ := h.sound
  simp only [away, hworkers, hnone]
  have henque : ∀ data, qa ≠ .enque (.inr t) data := by
    rintro data rfl
    cases htakes
  rcases hqa.away_le (B := B) hstock (hsound.worker t) henque fun _ data _ => hleaves data with
    hlt | hle
  · exact Or.inl hlt
  by_cases hw : Works t a
  · -- A step of its own.
    have hown : qa = .deque (.inr t) ∨ ∃ w, qa = .run (.inr t) w := by
      rcases hw with ⟨w, rfl⟩ | ⟨e, rfl⟩
      · cases htakes with
        | calls => exact Or.inl rfl
        | worker => exact Or.inr ⟨w, rfl⟩
      · cases htakes
    rcases hqa.away_lt (B := B) hstock (hsound.worker t) hown hleaves with hlt | hlt
    · exact Or.inl hlt
    · exact Or.inr ⟨hle, fun _ => hlt⟩
  · exact Or.inr ⟨hle, fun hw' => absurd hw' hw⟩

/-- A worker that has a task can take a step. -/
theorem busy_canMove (h : s.Running B) (hbusy : s.Busy t) :
    CanMove body perform change (.inr t) s := by
  obtain ⟨vs, hsound⟩ := h.sound
  cases hp : s.workers.pool.threads t with
  | some p => exact Or.inl (by rw [hp]; simp)
  | none =>
    obtain ⟨data, hc⟩ := hbusy.resolve_left (not_not.mpr ((hsound.going t).mpr hp))
    obtain ⟨task, rfl⟩ := h.leaves_some hc
    have hdone : s.q.destroyer ≠ .done := by simp [h.notCalled]
    refine Or.inr ⟨none, _, ?_, .starts (h.not_exited t) hp hc⟩
    simp only [ThreadPool.step, workerStep, h.not_exited t, hp, Option.isSome_none, Bool.false_eq_true,
      or_self, if_false, hc, onQueue, Users.step, hdone, and_false, Users.proceed, pure_bind, work,
      Recorded.step]
    rfl

/-- A worker that is not blocked, and does not find the lock taken, can take a step. -/
theorem canMove (h : s.Running B) (hstock : s.q.Stocked) (hblocked : s.q.calls (.inr t) ≠ .dequeBlocked)
    (hlock : s.q.q_lock = none ∨ s.q.q_lock = some (.inr t)) :
    CanMove body perform change (.inr t) s := by
  obtain ⟨vs, hsound⟩ := h.sound
  by_cases hbusy : s.Busy t
  · exact h.busy_canMove hbusy
  rw [Busy, not_or, not_not, not_exists] at hbusy
  obtain ⟨hnone, hleaves⟩ := hbusy
  have hfree := (hsound.going t).mp hnone
  rcases hsound.worker t with hidle | hin
  · have hdeque : s.q.Effect (.deque (.inr t)) _ := .deque hidle h.alive
    refine Or.inr ⟨none, _, ?_, .calls (h.not_exited t) hfree hdeque⟩
    simp only [ThreadPool.step, workerStep, h.not_exited t, hfree, Option.isSome_none, Bool.false_eq_true,
      or_self, if_false, hidle, h.alive, onQueue, Users.step, Call.isIdle, not_false_eq_true, and_self,
      if_true]
    rfl
  · obtain ⟨q, hq, he⟩ := hsound.q.canRun hstock h.held hin hblocked hlock
    refine Or.inr ⟨none, { s with q := q }, ?_, .proceeds (h.not_exited t) hfree hleaves he⟩
    have hon : s.onQueue (.run (.inr t) none) = .ok { s with q := q } := by
      rw [onQueue, hq]
      rfl
    simp only [ThreadPool.step, workerStep, h.not_exited t, hfree, Option.isSome_none, Bool.false_eq_true,
      or_self, if_false]
    rcases hin with hc | hc | hc | hc | hc | ⟨data, hc⟩
    · rw [hc]
      exact hon
    · rw [hc]
      exact hon
    · rw [hc]
      exact hon
    · exact absurd hc hblocked
    · rw [hc]
      exact hon
    · exact absurd hc (hleaves data)

/-- A client that has a signal to send can send it to a worker. -/
theorem client_canMove (h : s.Running B) {c : κ} (hc : s.q.calls (.inl c) = .enqueLinked)
    (ht : s.q.calls (.inr t) = .dequeBlocked) :
    CanMove body perform change (.inl c) s := by
  have hdone : s.q.destroyer ≠ .done := by simp [h.notCalled]
  refine ⟨some (.inr t), _, ?_, .client (.signals hc ht)⟩
  simp only [ThreadPool.step, onQueue, Users.step, hdone, and_false, if_false, Users.proceed, hc, ht,
    Call.isBlocked, if_true]
  rfl

omit [Fintype κ] in
/-- Somebody helps as long as the queue is stocked. -/
theorem exists_helps (h : s.Running B) (hstock : s.q.Stocked) : ∃ u, Helps u s := by
  obtain ⟨vs, hsound⟩ := h.sound
  cases hlock : s.q.q_lock with
  | some u =>
    -- The thread that has the lock is about to take a task.
    have hpassed := (h.held u hlock).resolve_left (hstock.unwaited u)
    obtain ⟨t, rfl⟩ := h.awake.only u (by simp [Users.InDeque, hpassed])
    exact ⟨.inr t, by simp [hpassed], Or.inr hlock⟩
  | none =>
    by_cases hall : ∀ t, s.q.calls (.inr t) = .dequeBlocked
    · rcases h.awake.awake hstock.filled with ⟨u, hu⟩ | ⟨u, ⟨t, rfl⟩, hu⟩
      · cases u with
        | inl c => exact ⟨.inl c, hu, hall⟩
        | inr t =>
          rw [hall t] at hu
          cases hu
      · exact absurd (hall t) hu
    · push Not at hall
      obtain ⟨t, ht⟩ := hall
      exact ⟨.inr t, ht, Or.inl hlock⟩

omit [Fintype κ] in
/-- A worker in a call has no task. -/
theorem away_of_call (h : s.Running B) (hc : s.q.calls (.inr t) ≠ .idle) :
    away B s t = (s.q.calls (.inr t)).away B := by
  obtain ⟨vs, hsound⟩ := h.sound
  have hfree : s.workers.pool.threads t = none := by
    by_contra hbusy
    exact hc (hsound.busy t hbusy).1
  rw [away, (hsound.going t).mpr hfree]

omit [Fintype κ] in
/-- A worker that wakes up is closer then. -/
theorem wakes_away [Nonempty ι] (h : s.Running B) (h' : s'.Running B)
    (ht : s.q.calls (.inr t) = .dequeBlocked) (ht' : s'.q.calls (.inr t) = .dequeCounted) :
    away B s' t < away B s t := by
  rw [h.away_of_call (by rw [ht]; simp), h'.away_of_call (by rw [ht']; simp), ht, ht']
  simp [Call.away]

omit [Fintype κ] in
/-- What a step of an open pool comes to, when the queue is stocked: it takes a task, or brings a worker
closer, or who helps goes on helping and has not moved. -/
theorem progress [Nonempty ι] (h : s.Running B) (h' : s'.Running B) (hstock : s.q.Stocked)
    (he : s.Effect body perform change a s') : s.q.taken.length < s'.q.taken.length ∨
      ∑ t, away B s' t < ∑ t, away B s t ∨ ∑ t, away B s' t = ∑ t, away B s t ∧
        ∀ i, Helps i s → Helps i s' ∧ ¬ moves body perform change i s a s' := by
  by_cases htaken : s.q.taken.length < s'.q.taken.length
  · exact Or.inl htaken
  refine Or.inr ?_
  have hle : ∀ t, away B s' t ≤ away B s t := fun t =>
    ((h.step_away hstock he t).resolve_left htaken).1
  by_cases hlt : ∃ t, away B s' t < away B s t
  · obtain ⟨t, ht⟩ := hlt
    exact Or.inl (Finset.sum_lt_sum (fun u _ => hle u) ⟨t, Finset.mem_univ t, ht⟩)
  push Not at hlt
  refine Or.inr ⟨Finset.sum_congr rfl fun t _ => (hle t).antisymm (hlt t), fun i hi => ?_⟩
  -- No worker moved.
  have hworks : ∀ t, ¬ Works t a := fun t hw =>
    absurd (((h.step_away hstock he t).resolve_left htaken).2 hw) (not_lt.mpr (hlt t))
  cases i with
  | inr t =>
    refine ⟨?_, fun hm => hworks t hm.1⟩
    rcases he.queue with heq | ⟨qa, hqa, htakes⟩
    · rw [Helps, heq]
      exact hi
    · refine ⟨hqa.not_blocked hstock hi.1, ?_⟩
      rcases hqa.lock_kept hi.2 with hl | hl | ⟨u, w, rfl, hu⟩
      · exact Or.inl hl
      · exact Or.inr hl
      · obtain ⟨v, rfl⟩ := h.awake.only u (by simp [Users.InDeque, hu])
        cases htakes
        exact absurd (Or.inl ⟨w, rfl⟩) (hworks v)
  | inl c =>
    obtain ⟨hc, hall⟩ := hi
    have hwakes : ∀ t, s'.q.calls (.inr t) ≠ .dequeCounted := fun t ht =>
      absurd (h.wakes_away h' (hall t) ht) (not_lt.mpr (hlt t))
    have hnot : ∀ w, a ≠ .client c w := by
      rintro w rfl
      obtain ⟨v, hv, hv'⟩ : ∃ v, s.q.calls v = .dequeBlocked ∧ s'.q.calls v = .dequeCounted := by
        cases he with
        | client proceeds => exact proceeds.signals_one hc (hall (Classical.arbitrary ι))
      obtain ⟨t, rfl⟩ := h.awake.only v (by simp [Users.InDeque, hv])
      exact hwakes t hv'
    refine ⟨?_, fun hm => hm.1.elim hnot⟩
    rcases he.queue with heq | ⟨qa, hqa, htakes⟩
    · rw [Helps, heq]
      exact ⟨hc, hall⟩
    · refine ⟨hqa.linked_kept hc ?_, fun t => (hqa.blocked_kept (hall t)).resolve_right (hwakes t)⟩
      rintro w rfl
      cases htakes
      exact hnot w rfl

end Running

/-! ## Runs without end -/

omit [Fintype ι] [Fintype κ] in
/-- What was enqueued, taken and finished is only added to. -/
theorem Effect.grows (he : s.Effect body perform change a s') :
    s.q.enqueued <+: s'.q.enqueued ∧ s.q.taken <+: s'.q.taken ∧
      ∀ t, s.finished t <+: s'.finished t := by
  have hqueue : s.q.enqueued <+: s'.q.enqueued ∧ s.q.taken <+: s'.q.taken := by
    rcases he.queue with heq | ⟨qa, hqa, -⟩
    · rw [heq]
      exact ⟨List.prefix_refl _, List.prefix_refl _⟩
    · exact hqa.grows
  refine ⟨hqueue.1, hqueue.2, fun t => ?_⟩
  cases he with
  | @runs u e p workers busy runs =>
    simp only [finish, busy]
    cases p with
    | pure x =>
      simp only [Function.update_apply]
      split_ifs with htu
      · rw [htu]
        exact List.prefix_append _ _
      · exact List.prefix_refl _
    | fail err => exact List.prefix_refl _
    | call o k => exact List.prefix_refl _
  | _ => exact List.prefix_refl _

variable {r : Trace (step body perform change : ThreadPool ι κ σ Task Op Res →
  ThreadPoolAction ι κ Task Env X → Run (ThreadPool ι κ σ Task Op Res))} {n m : ℕ}

/-- What holds at a time and is kept by every effect holds from then on. -/
theorem holds_onwards {I : ThreadPool ι κ σ Task Op Res → Prop} (hn : I (r.state n))
    (hstep : ∀ m {s'}, I (r.state m) → (r.state m).Effect body perform change (r.action m) s' → I s')
    (hm : n ≤ m) : I (r.state m) := by
  refine r.onwards hn (fun m h => ?_) hm
  rcases step_cases (r.steps m) with heq | he
  · rwa [heq]
  · exact hstep m h he

/-- What was enqueued, taken and finished at a time is there from then on. -/
theorem grows (r : Trace (step body perform change : ThreadPool ι κ σ Task Op Res →
    ThreadPoolAction ι κ Task Env X → Run (ThreadPool ι κ σ Task Op Res))) (hm : n ≤ m) :
    (r.state n).q.enqueued <+: (r.state m).q.enqueued ∧ (r.state n).q.taken <+: (r.state m).q.taken ∧
      ∀ t, (r.state n).finished t <+: (r.state m).finished t := by
  induction m, hm using Nat.le_induction with
  | base => exact ⟨List.prefix_refl _, List.prefix_refl _, fun _ => List.prefix_refl _⟩
  | succ m _ ih =>
    rcases step_cases (r.steps m) with heq | he
    · rw [heq]
      exact ih
    · obtain ⟨henqueued, htaken, hfinished⟩ := he.grows
      exact ⟨ih.1.trans henqueued, ih.2.1.trans htaken, fun t => (ih.2.2 t).trans (hfinished t)⟩

/-- As long as the pool is open what is in the queue is taken. -/
theorem taken_of_enqueued [Nonempty ι]
    (hfair : r.Fair (CanMove body perform change) (moves body perform change))
    (hrun : ∀ m, n ≤ m → (r.state m).Running B) :
    ∃ m, n ≤ m ∧ (r.state n).q.enqueued.length ≤ (r.state m).q.taken.length := by
  -- One task after the other.
  suffices h : ∀ k ≤ (r.state n).q.enqueued.length, ∃ m, n ≤ m ∧ k ≤ (r.state m).q.taken.length from
    h _ le_rfl
  intro k
  induction k with
  | zero => exact fun _ => ⟨n, le_rfl, Nat.zero_le _⟩
  | succ k ih =>
    intro hk
    obtain ⟨m₀, hm₀, htaken⟩ := ih (Nat.le_of_succ_le hk)
    have hstocked : ∀ {s : ThreadPool ι κ σ Task Op Res}, s.Running B →
        (r.state n).q.enqueued.length ≤ s.q.enqueued.length → ¬ k + 1 ≤ s.q.taken.length →
        s.q.Stocked := fun hs hle hnot => hs.stocked (by omega)
    refine (hfair.eventually_of_effect step_cases moves.effect
      (I := fun s => s.Running B ∧ k ≤ s.q.taken.length ∧
        (r.state n).q.enqueued.length ≤ s.q.enqueued.length)
      (Q := fun s => k + 1 ≤ s.q.taken.length) (fun s => ∑ t, away B s t) Helps
      (fun s hs hnot => hs.1.exists_helps (hstocked hs.1 hs.2.2 hnot))
      (fun i s hs hnot hi => ?_) (fun s a s' hs hs' hnot he => ?_) m₀
      (fun m hm => ⟨hrun m (hm₀.trans hm), htaken.trans (grows r hm).2.1.length_le,
        (grows r (hm₀.trans hm)).1.length_le⟩)).imp fun m hm => ⟨hm₀.trans hm.1, hm.2⟩
    · have hstock := hstocked hs.1 hs.2.2 hnot
      cases i with
      | inr t => exact hs.1.canMove hstock hi.1 hi.2
      | inl c => exact hs.1.client_canMove hi.1 (hi.2 (Classical.arbitrary ι))
    · have hstock := hstocked hs.1 hs.2.2 hnot
      rcases hs.1.progress hs'.1 hstock he with hlt | hrest
      · have hku := hs.2.1
        exact Or.inl (by omega)
      · exact Or.inr hrest

/-- What a worker has taken it runs to its end. -/
theorem finished_of_taken (hfair : r.Fair (CanMove body perform change) (moves body perform change))
    (t : ι) (hrun : ∀ m, n ≤ m → (r.state m).Running B) :
    ∃ m, n ≤ m ∧ (r.state n).q.takenBy (.inr t) <+: (r.state m).finished t := by
  -- It has a task as long as this is not so.
  have hbusy : ∀ {s : ThreadPool ι κ σ Task Op Res}, s.Running B →
      (r.state n).q.takenBy (.inr t) <+: s.q.takenBy (.inr t) →
      ¬ (r.state n).q.takenBy (.inr t) <+: s.finished t → s.Busy t := by
    intro s hs hpre hnot
    obtain ⟨vs, hsound⟩ := hs.sound
    by_contra hno
    rw [Busy, not_or, not_not, not_exists] at hno
    refine hnot ?_
    have hcurrent : s.current t = [] := by rw [current, hno.1]; rfl
    have hflight : (s.q.calls (.inr t)).inFlight = [] := by
      cases hc : s.q.calls (.inr t) with
      | dequeLeaves data => exact absurd hc (hno.2 data)
      | _ => rfl
    rwa [hsound.q.returned, hsound.returned, hcurrent, hflight, List.append_nil,
      List.append_nil] at hpre
  have htakenBy : ∀ m, n ≤ m → (r.state n).q.takenBy (.inr t) <+: (r.state m).q.takenBy (.inr t) :=
    fun m hm => ((grows r hm).2.1.filter _).map _
  refine hfair.eventually_of_effect step_cases moves.effect
    (I := fun s => s.Running B ∧ (r.state n).q.takenBy (.inr t) <+: s.q.takenBy (.inr t))
    (Q := fun s => (r.state n).q.takenBy (.inr t) <+: s.finished t) (fun s => away B s t)
    (fun i _ => i = .inr t) (fun _ _ _ => ⟨_, rfl⟩) (fun i s hs hnot hi => ?_)
    (fun s a s' hs hs' hnot he => ?_) n fun m hm => ⟨hrun m hm, htakenBy m hm⟩
  · obtain rfl := hi
    exact hs.1.busy_canMove (hbusy hs.1 hs.2 hnot)
  · rcases hs.1.busy_away he (hbusy hs.1 hs.2 hnot) with ⟨-, hlt⟩ | ⟨hworks, heq⟩
    · exact Or.inr (Or.inl hlt)
    · refine Or.inr (Or.inr ⟨heq, fun i hi => ⟨hi, fun hm => ?_⟩⟩)
      obtain rfl := hi
      exact hworks hm.1

/-- An open pool runs on. -/
theorem running_at [Nonempty ι] {ids : List ι} {x : σ} (h0 : r.state 0 = create ids x)
    (hbody : ∀ task, (body task).Calls (fun _ => True) B) (hclose : ∀ n, r.action n ≠ .close) (n : ℕ) :
    (r.state n).Running B :=
  holds_onwards (I := fun s => s.Running B) (h0 ▸ create_running ids x)
    (fun n _ h he => h.step hbody (hclose n) he) (Nat.zero_le n)

/-- As long as the pool is open what was added is run to its end. -/
theorem ended_of_enqueued [Nonempty ι] (hrun : ∀ m, (r.state m).Running B)
    (hfair : r.Fair (CanMove body perform change) (moves body perform change)) (n : ℕ) :
    ∃ m, n ≤ m ∧ ((r.state n).q.enqueued : Multiset Task) ≤ (r.state m).workers.ended.map (·.job) := by
  obtain ⟨m₁, hm₁, hlen⟩ := taken_of_enqueued (n := n) hfair fun m _ => hrun m
  choose m hm hfinished using fun t => finished_of_taken (n := m₁) hfair t fun m _ => hrun m
  have hle : ∀ t, m t ≤ m₁ + ∑ u, m u := fun t =>
    (Finset.single_le_sum (fun u _ => Nat.zero_le (m u)) (Finset.mem_univ t)).trans (Nat.le_add_left _ _)
  refine ⟨m₁ + ∑ u, m u, hm₁.trans (Nat.le_add_right _ _), ?_⟩
  obtain ⟨vs₁, h₁⟩ := (hrun m₁).sound
  obtain ⟨vs, h⟩ := (hrun (m₁ + ∑ u, m u)).sound
  -- What was added was taken, as what is taken comes first.
  have htaken : (r.state n).q.enqueued <+: (r.state m₁).q.taken.map Prod.snd := by
    refine List.prefix_of_prefix_length_le (grows r hm₁).1 ?_ (by rwa [List.length_map])
    rw [← h₁.q.order]
    exact List.prefix_append _ _
  calc ((r.state n).q.enqueued : Multiset Task)
      ≤ ((r.state m₁).q.taken.map Prod.snd : List Task) :=
        Multiset.coe_le.mpr htaken.sublist.subperm
    _ = ∑ t, ((r.state m₁).q.takenBy (.inr t) : Multiset Task) := sum_takenBy h₁.taken
    _ ≤ ∑ t, ((r.state (m₁ + ∑ u, m u)).finished t : Multiset Task) :=
        Finset.sum_le_sum fun t _ => Multiset.coe_le.mpr
          ((hfinished t).trans ((grows r (hle t)).2.2 t)).sublist.subperm
    _ = ((r.state (m₁ + ∑ u, m u)).workers.ended.map (·.job) : List Task) := h.ended.symm

/-- **Every task is run to its end.** In every run without end of a pool with at least one worker that is not
closed, in which no thread that can go on is held up for ever, and whose tasks call a bounded number of
operations, what was added by any time has been run to its end some time later: each task as often as it
was added. -/
theorem every_task_ends [Nonempty ι] {ids : List ι} {x : σ} (h0 : r.state 0 = create ids x)
    (hclose : ∀ n, r.action n ≠ .close)
    (hfair : r.Fair (CanMove body perform change) (moves body perform change))
    (hbody : ∀ task, (body task).Calls (fun _ => True) B) (n : ℕ) :
    ∃ m, n ≤ m ∧ ((r.state n).q.enqueued : Multiset Task) ≤ (r.state m).workers.ended.map (·.job) :=
  ended_of_enqueued (running_at h0 hbody hclose) hfair n

/-! ## A pool at rest -/

/-- A pool in which no client is in `AddTask` and every worker is blocked is at rest. -/
theorem at_rest (hclient : ∀ c, s.q.calls (.inl c) = .idle)
    (hworker : ∀ t, s.q.calls (.inr t) = .dequeBlocked) (hfree : ∀ t, s.workers.pool.threads t = none)
    (i : κ ⊕ ι) : ¬ CanMove body perform change i s := by
  cases i with
  | inl c =>
    rintro ⟨w, s', -, he⟩
    cases he with
    | client proceeds => exact proceeds.in_call.1 (hclient c)
  | inr t =>
    rintro (hbusy | ⟨w, s', -, he⟩)
    · exact hbusy (hfree t)
    cases he with
    | calls alive free deques =>
      cases deques with
      | deque idle => simp [hworker t] at idle
    | proceeds alive free stays proceeds => exact proceeds.in_call.2 (hworker t)
    | starts alive free call => simp [hworker t] at call
    | leaves alive free call => simp [hworker t] at call
    | exits alive free idle => simp [hworker t] at idle

/-- `every_task_ends` for a pool that is given a task, and is at rest when it has run it. -/
theorem every_task_ends_one : ∃ (r : Trace trivialStep) (n : ℕ), (r.state n).q.enqueued = [7] ∧
    ∃ m, n ≤ m ∧ ((r.state n).q.enqueued : Multiset ℕ) ≤ (r.state m).workers.ended.map (·.job) := by
  obtain ⟨s, hs, hlast⟩ : ∃ s,
      exec trivialStep (create [()] ()) (added 7 ++ served ++ List.replicate 4 (.worker () none)) =
        .ok s ∧ (decide (s.q.enqueued = [7]) && (s.q.calls (.inl ())).isIdle &&
          (s.q.calls (.inr ())).isBlocked && (s.workers.pool.threads ()).isNone) = true :=
    exec_reaches (by decide +kernel)
  simp only [Bool.and_eq_true, decide_eq_true_eq, Users.isIdle_iff, Users.isBlocked_iff,
    Option.isNone_iff_eq_none] at hlast
  obtain ⟨⟨⟨henqueued, hclient⟩, hworker⟩, hfree⟩ := hlast
  have hrest : trivialStep s (.client () none) = .ok s := by
    simp [trivialStep, step, onQueue, Users.step, Users.proceed, hclient, Call.isIdle]
    rfl
  have hopen : Meets trivialStep (fun _ a => a ≠ .close) (create [()] ())
      (added 7 ++ served ++ List.replicate 4 (.worker () none)) := by
    refine meets_of_forall fun a ha _ hclose => ?_
    rw [hclose] at ha
    revert ha
    simp [added, served]
  obtain ⟨r, h0, hend, hfair, hactions⟩ := Trace.exists_fair hs hopen hrest (by simp)
    (at_rest (fun _ => hclient) (fun _ => hworker) fun _ => hfree)
  exact ⟨r, _, hend ▸ henqueued, every_task_ends (B := 0) h0 hactions hfair
    (fun _ => Prog.Calls.pure) _⟩

end ThreadPool

end DnsRelayer
