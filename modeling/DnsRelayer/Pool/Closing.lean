import DnsRelayer.Pool.Progress
import DnsRelayer.Pool.Shutdown
import Mathlib.Data.Fintype.Option

/-!
# `ClosePool` returns

In a run without end in which no thread that can go on is held up for ever, and in which none of the races of
the shutdown happens that leave a thread blocked or the queue in use, `ClosePool` returns exactly when no
`SafeEnque` finds `destroyed` set under the lock and loses its count (`ThreadPool.close_returns_iff`).

Once `destroyed` is set no thread calls the queue any more, and every step of a thread brings it closer to its
end. The rank is what all of them have left to do, and `ClosePool` with them. It is the threads' turn as long
as `SafeDestroy` waits for them, or `ClosePool` for a worker.
-/

namespace DnsRelayer

open Lib

/-- How many steps a call has left on a queue that is destroyed, where what is done with the data takes up
to `B` steps. -/
def Call.remaining {α : Type} (B : ℕ) : Call α → ℕ
  | .idle => 0
  | .enqueTested _ => 4
  | .enqueCounted _ => 3
  | .enqueLinked => 2
  | .enqueSignalled => 1
  | .dequeTested => 4
  | .dequeWaits => 5
  | .dequeBlocked => 4
  | .dequeCounted => 3
  | .dequePassed => 2
  | .dequeLeaves none => 1
  | .dequeLeaves (some _) => B + 3

/-- A call that is to return has a step left. -/
theorem Call.remaining_leaves {α : Type} (B : ℕ) (data : Option α) : 0 < (Call.dequeLeaves data).remaining B := by
  cases data <;> simp [Call.remaining]

/-- How many steps `SafeDestroy` has left. -/
def Destroyer.remaining : Destroyer → ℕ
  | .notCalled => 5
  | .flagged => 4
  | .broadcast | .waits => 3
  | .left => 2
  | .done => 1

/-! ## The queue -/

namespace Users

variable {ι α : Type} [DecidableEq ι] {s s' : Users ι α} {a : QueueAction ι α} {t u : ι} {vs : List α}
  {B : ℕ}

/-- `SafeDestroy` waits only for a count. -/
def Waited (s : Users ι α) : Prop := s.destroyer = .waits → 0 < s.usedNum

variable [Fintype ι]

omit [Fintype ι] in
/-- A step keeps this of `SafeDestroy`. -/
theorem Waited.step (h : s.Waited) (he : s.Effect a s') : s'.Waited := by
  unfold Waited at h ⊢
  cases he <;>
    simp only [goto, discount, answer] <;>
    grind

omit [Fintype ι] in
/-- When the queue is destroyed no step gives a call more to do. -/
theorem Effect.remaining_le (he : s.Effect a s') (hd : s.destroyed = true) :
    (s'.calls u).remaining B ≤ (s.calls u).remaining B := by
  cases he <;>
    simp only [goto, discount, answer, Function.update_apply] <;>
    grind [Call.remaining, isBlocked_iff]

omit [Fintype ι] in
/-- When the queue is destroyed a step of a thread leaves it less to do. -/
theorem Effect.remaining_lt (he : s.Effect a s') (hd : s.destroyed = true)
    (ha : (∃ w, a = .run u w) ∨ a = .wake u) : (s'.calls u).remaining B < (s.calls u).remaining B := by
  rcases ha with ⟨w, rfl⟩ | rfl
  · cases he <;>
      simp only [goto, discount, answer, Function.update_apply] <;>
      grind [Call.remaining, Call.remaining_leaves, isBlocked_iff]
  · cases he
    simp_all [goto, Call.remaining]

omit [Fintype ι] in
/-- No step gives `SafeDestroy` more to do. -/
theorem Effect.destroyer_le (he : s.Effect a s') : s'.destroyer.remaining ≤ s.destroyer.remaining := by
  cases he <;>
    simp only [goto, discount, answer] <;>
    grind [Destroyer.remaining]

/-- When the queue is destroyed a thread in a call that is not blocked, and does not find the lock taken, can
take a step. -/
theorem Sound.canFinish (h : s.Sound vs) (hd : s.destroyed = true) (hdone : s.destroyer ≠ .done)
    (hheld : s.Held) (hidle : s.calls u ≠ .idle) (hblocked : s.calls u ≠ .dequeBlocked)
    (hlock : s.q_lock = none ∨ s.q_lock = some u) :
    ∃ w q, s.step (.run u w) = .ok q ∧ s.Effect (.run u w) q := by
  -- A signal wakes a thread that is blocked, if there is one.
  obtain ⟨w, hw⟩ : ∃ w : Option ι, ∀ v, (w = some v → s.calls v = .dequeBlocked) ∧
      (w = none → s.calls v ≠ .dequeBlocked) := by
    by_cases hex : ∃ v, s.calls v = .dequeBlocked
    · obtain ⟨v, hv⟩ := hex
      exact ⟨some v, fun v' => ⟨fun heq => Option.some.inj heq ▸ hv, nofun⟩⟩
    · exact ⟨none, fun v => ⟨nofun, fun _ hv => hex ⟨v, hv⟩⟩⟩
  obtain ⟨q, hq⟩ := h.total hdone (.run u w)
  refine ⟨w, q, hq, (step_cases hq).resolve_left ?_⟩
  rintro rfl
  -- Each step takes it to another point of its call.
  have hmoved : ∀ {r : Users ι α} {c : Call α}, c ≠ q.calls u → r.goto u c ≠ q := by
    rintro r c hc rfl
    exact hc (goto_self _ _ _).symm
  simp only [Users.step, hdone, and_false, if_false, proceed] at hq
  cases hc : q.calls u with
  | idle => exact hidle hc
  | dequeBlocked => exact hblocked hc
  | enqueLinked =>
    simp only [hc] at hq
    cases w with
    | some v =>
      simp only [(hw v).1 rfl, Call.isBlocked, if_true] at hq
      exact hmoved (by simp [hc]) (Except.ok.inj hq)
    | none =>
      have hnone : ∀ v, ¬ (q.calls v).isBlocked := fun v hv => (hw v).2 rfl (isBlocked_iff.mp hv)
      rw [if_pos hnone] at hq
      exact hmoved (by simp [hc]) (Except.ok.inj hq)
  | enqueCounted data | dequeCounted =>
    have hfree : q.q_lock = none := by
      refine hlock.resolve_right fun hl => ?_
      rcases hheld u hl with hw | hp
      · rw [hc] at hw
        cases hw
      · rw [hc] at hp
        cases hp
    simp only [hc, hfree, Option.isSome_none, Bool.false_eq_true, if_false, hd, if_true, not_true,
      false_and] at hq
    exact hmoved (by simp [hc]) (Except.ok.inj hq)
  | _ =>
    simp only [hc, hd, if_true] at hq
    exact hmoved (by simp [hc]) (Except.ok.inj hq)

/-- `SafeDestroy` can take a step when it does not wait and is not over. -/
theorem Sound.canDestroy (h : s.Sound vs) (hdone : s.destroyer ≠ .done) (hwaits : s.destroyer ≠ .waits) :
    ∃ q, s.step .destroy = .ok q ∧ s.Effect .destroy q := by
  obtain ⟨q, hq⟩ := h.total hdone .destroy
  refine ⟨q, hq, (step_cases hq).resolve_left ?_⟩
  rintro rfl
  simp only [Users.step, destroyStep] at hq
  -- It is further on after its step.
  cases hd : q.destroyer with
  | waits => exact hwaits hd
  | done => exact hdone hd
  | left =>
    rw [hd] at hq
    obtain ⟨nodes, -, hq⟩ := Run.bind_eq_ok.mp hq
    have := congrArg destroyer (Except.ok.inj hq)
    simp [hd] at this
  | broadcast =>
    rw [hd] at hq
    have := congrArg destroyer (Except.ok.inj hq)
    simp only [hd] at this
    split_ifs at this
  | _ =>
    rw [hd] at hq
    have := congrArg destroyer (Except.ok.inj hq)
    simp [hd] at this

/-- With an excess `SafeDestroy` does not leave its wait. -/
theorem Effect.not_gone (he : s.Effect a s') (hexcess : 1 ≤ s.excess) (h : ¬ s.Gone) : ¬ s'.Gone := by
  have hused : 0 < s.usedNum := by
    simp only [excess] at hexcess
    omega
  simp only [Gone] at h ⊢
  cases he <;>
    simp only [goto, discount, answer] <;>
    grind

end Users

/-! ## The pool -/

namespace ThreadPool

variable {ι κ σ Task Op Env X : Type} {Res : Op → Type} [DecidableEq ι] [DecidableEq κ] [Fintype ι]
  [Fintype κ] (body : Task → Prog Op Res Fault Unit)
  (perform : (o : Op) → Env → σ → Except Fault (Res o × σ)) (change : X → σ → σ)

/-- The threads that a fair run does not hold up: a client in `AddTask`, a worker, and `ClosePool`. -/
def movesOrCloses : Option (κ ⊕ ι) → ThreadPool ι κ σ Task Op Res → ThreadPoolAction ι κ Task Env X →
    ThreadPool ι κ σ Task Op Res → Prop
  | some i, s, a, s' => moves body perform change i s a s'
  | none, s, a, s' => a = .close ∧ s.Effect body perform change a s'

omit [Fintype ι] [Fintype κ] in
theorem movesOrCloses.effect {body : Task → Prog Op Res Fault Unit}
    {perform : (o : Op) → Env → σ → Except Fault (Res o × σ)} {change : X → σ → σ} {i : Option (κ ⊕ ι)}
    {s s' : ThreadPool ι κ σ Task Op Res} {a : ThreadPoolAction ι κ Task Env X}
    (h : movesOrCloses body perform change i s a s') : s.Effect body perform change a s' := by
  cases i with
  | none => exact h.2
  | some i => exact moves.effect h

/-- The thread can go on; `ClosePool` can when it is called. -/
def CanMoveOrClose : Option (κ ⊕ ι) → ThreadPool ι κ σ Task Op Res → Prop
  | some i, s => CanMove body perform change i s
  | none, s => s.q.destroyer ≠ .notCalled ∧ ∃ s', s.step body perform change .close = .ok s' ∧
      s.Effect body perform change .close s'

/-- How many steps a worker has left besides those of its call. -/
def loop (B : ℕ) (s : ThreadPool ι κ σ Task Op Res) (t : ι) : ℕ :=
  if s.exited t then 0
  else
    match s.workers.going t with
    | some i => B + 3 - i.calls.length
    | none => 1

/-- How many steps a thread has left when the pool is closed. -/
def toDo (B : ℕ) (s : ThreadPool ι κ σ Task Op Res) : Option (κ ⊕ ι) → ℕ
  | some (.inl c) => (s.q.calls (.inl c)).remaining B
  | some (.inr t) => (s.q.calls (.inr t)).remaining B + s.loop B t
  | none =>
    match s.closer with
    | .destroys => s.ids.length + 1 + s.q.destroyer.remaining
    | .joins ids => ids.length + 1
    | .returned => 0

/-- Who helps `ClosePool` to return: itself when it does not wait, and else a thread that is not blocked and does
not find the lock taken. -/
def HelpsClose : Option (κ ⊕ ι) → ThreadPool ι κ σ Task Op Res → Prop
  | some (.inl c), s => s.q.calls (.inl c) ≠ .idle ∧ s.q.q_lock = none
  | some (.inr t), s => s.exited t = false ∧ s.q.calls (.inr t) ≠ .dequeBlocked ∧
      (s.q.q_lock = none ∨ s.q.q_lock = some (.inr t))
  | none, s =>
    match s.closer with
    | .destroys => s.q.destroyer ≠ .waits ∧ (s.q.destroyer = .broadcast → s.q.usedNum ≤ 0)
    | .joins [] => True
    | .joins (t :: _) => s.exited t = true
    | .returned => False

/-- None of the races of the shutdown: at the broadcast no worker is between its test and its wait, and when
`SafeDestroy` leaves its wait no thread has tested `destroyed` and not yet counted itself. -/
def Orderly (s : ThreadPool ι κ σ Task Op Res) (a : ThreadPoolAction ι κ Task Env X) : Prop :=
  ∀ qa, Takes a qa → s.q.NoneToWait qa ∧ s.q.NoneToCount qa

/-- The step is of a `SafeEnque` that finds `destroyed` set under the lock. -/
def LosesCount (s : ThreadPool ι κ σ Task Op Res) (a : ThreadPoolAction ι κ Task Env X) : Prop :=
  ∃ qa, Takes a qa ∧ s.q.LosesCount qa

/-- The pool is sound, and closed in order if it is closed; no task calls more than `B` operations. -/
structure Closing (B : ℕ) (s : ThreadPool ι κ σ Task Op Res) : Prop where
  sound : ∃ vs, s.Sound vs
  held : s.q.Held
  bounded : ∀ t p, s.workers.pool.threads t = some p → ∃ i m, s.workers.going t = some i ∧
    p.Calls (fun _ => True) m ∧ i.calls.length + m ≤ B
  closes : s.Closes
  unfinished : s.closer = .destroys → s.q.destroyer ≠ .done
  roused : s.q.Roused
  deserted : s.q.Deserted
  waited : s.q.Waited

variable {body perform change} {s s' : ThreadPool ι κ σ Task Op Res} {B : ℕ}
  {a : ThreadPoolAction ι κ Task Env X} {t : ι}

theorem create_closing (ids : List ι) (x : σ) :
    (create ids x : ThreadPool ι κ σ Task Op Res).Closing B where
  sound := ⟨[], create_sound ids x⟩
  held := Users.init_held
  bounded _ _ h := by cases h
  closes := create_closes ids x
  unfinished _ h := by cases h
  roused := by constructor <;> simp [create, Users.init, Users.Broadcast]
  deserted := by
    refine ⟨?_, by simp [create, Users.init], by simp [create, Users.init]⟩
    simp [create, Users.init, Users.excess, Users.inProgress, Call.isCounted]
  waited h := by cases h

namespace Closing

/-- `SafeDestroy` is over when `ClosePool` goes on to wait for the workers. -/
theorem unfinished_step (h : s.Closing B) (he : s.Effect body perform change a s') (hc : s'.closer = .destroys) :
    s'.q.destroyer ≠ .done := by
  have hstays : s.closer = .destroys → ¬ (a = .close ∧ s.q.destroyer = .left) → s'.q.destroyer ≠ .done := by
    intro hs hnot
    rcases he.queue with heq | ⟨qa, hqa, htakes⟩
    · rw [heq]
      exact h.unfinished hs
    · intro hdone
      rcases hqa.done_iff.mp hdone with hd | ⟨rfl, hleft⟩
      · exact h.unfinished hs hd
      · cases htakes
        exact hnot ⟨rfl, hleft⟩
  cases he with
  | destroys closer stays destroys => exact hstays closer fun hl => stays hl.2
  | frees | joins | returns => cases hc
  | _ => exact hstays hc (by simp)

/-- A step without a race keeps to this. -/
theorem step (h : s.Closing B) (hbody : ∀ task, (body task).Calls (fun _ => True) B) (ha : s.Orderly a)
    (he : s.Effect body perform change a s') : s'.Closing B := by
  obtain ⟨vs, hsound⟩ := h.sound
  have hqueue : s'.q.Held ∧ s'.q.Roused ∧ s'.q.Deserted ∧ s'.q.Waited := by
    rcases he.queue with heq | ⟨qa, hqa, htakes⟩
    · rw [heq]
      exact ⟨h.held, h.roused, h.deserted, h.waited⟩
    · obtain ⟨hwait, hcount⟩ := ha qa htakes
      exact ⟨h.held.step hsound.q hqa, h.roused.step hwait hqa, h.deserted.step hcount hqa, h.waited.step hqa⟩
  exact ⟨hsound.step he, hqueue.1, bounded_tasks h.bounded hbody he, (h.closes.step he).1,
    h.unfinished_step he, hqueue.2.1, hqueue.2.2.1, hqueue.2.2.2⟩

/-- `destroyed` is set once `SafeDestroy` is called. -/
theorem dead (h : s.Closing B) (hcalled : s.q.destroyer ≠ .notCalled) : s.q.destroyed = true :=
  h.roused.flag hcalled

/-- The locks are there for a thread in a call. -/
theorem not_done (h : s.Closing B) {u : κ ⊕ ι} (hu : s.q.calls u ≠ .idle) : s.q.destroyer ≠ .done :=
  fun hdone => hu (h.deserted.gone (Or.inr hdone) u)

/-! ### What the steps leave to do -/

/-- A step on the queue leaves a thread not more to do in its call. -/
theorem remaining_le (h : s.Closing B) (hcalled : s.q.destroyer ≠ .notCalled)
    (he : s.Effect body perform change a s') (u : κ ⊕ ι) :
    (s'.q.calls u).remaining B ≤ (s.q.calls u).remaining B := by
  rcases he.queue with heq | ⟨qa, hqa, -⟩
  · rw [heq]
  · exact hqa.remaining_le (h.dead hcalled)

omit [DecidableEq ι] [DecidableEq κ] [Fintype ι] [Fintype κ] in
/-- A step that leaves the calls, the workers and `ClosePool` not more to do leaves no thread more. -/
theorem toDo_le (hcalls : ∀ u, (s'.q.calls u).remaining B ≤ (s.q.calls u).remaining B)
    (hloop : ∀ t, s'.loop B t ≤ s.loop B t) (hcloser : toDo B s' none ≤ toDo B s none) (i : Option (κ ⊕ ι)) :
    toDo B s' i ≤ toDo B s i := by
  match i with
  | some (.inl c) => exact hcalls (.inl c)
  | some (.inr t) => exact Nat.add_le_add (hcalls (.inr t)) (hloop t)
  | none => exact hcloser

omit [DecidableEq ι] [DecidableEq κ] [Fintype ι] [Fintype κ] in
/-- A step of a worker in its loop leaves no thread more to do, and this worker less. -/
theorem toDo_lt_of_loop (hcalls : ∀ u, (s'.q.calls u).remaining B ≤ (s.q.calls u).remaining B)
    (hloop : ∀ u, s'.loop B u ≤ s.loop B u ∧ (u = t → s'.loop B u < s.loop B u))
    (hcloser : toDo B s' none ≤ toDo B s none) :
    (∀ i, toDo B s' i ≤ toDo B s i) ∧ ∃ i, toDo B s' i < toDo B s i :=
  ⟨toDo_le hcalls (fun u => (hloop u).1) hcloser, some (.inr t),
    Nat.add_lt_add_of_le_of_lt (hcalls (.inr t)) ((hloop t).2 rfl)⟩

omit [DecidableEq κ] [Fintype ι] [Fintype κ] in
/-- A thread that ends has nothing left to do in its loop. -/
theorem loop_exit (hgoing : s'.workers.going = s.workers.going)
    (hexited : s'.exited = Function.update s.exited t true) (halive : s.exited t = false)
    (hfree : s.workers.going t = none) (u : ι) :
    s'.loop B u ≤ s.loop B u ∧ (u = t → s'.loop B u < s.loop B u) := by
  by_cases hut : u = t
  · subst hut
    simp [loop, hexited, halive, hfree]
  · simp [loop, hexited, hgoing, hut]

/-- A step in a task leaves its worker less to do. -/
theorem loop_runs (h : s.Closing B) {e : Env} {p : Prog Op Res Fault Unit}
    {workers : Recorded ι σ Task Op Res Fault} (busy : s.workers.pool.threads t = some p)
    (runs : s.workers.step body perform change (.run t e : PoolAction ι Task Env X) = .ok workers)
    (hworkers : s'.workers = workers) (hexited : s'.exited = s.exited) (u : ι) :
    s'.loop B u ≤ s.loop B u ∧ (u = t → s'.loop B u < s.loop B u) := by
  obtain ⟨vs, hsound⟩ := h.sound
  have halive := (hsound.busy t (by rw [busy]; simp)).2
  obtain ⟨hothers, i, hi, hle, hown⟩ := runs_going h.bounded busy runs
  by_cases hut : u = t
  · subst hut
    have hlt : s'.loop B u < s.loop B u := by
      rcases hown with hnone | ⟨i', hi', hlen, hle'⟩
      · simp only [loop, hexited, halive, hworkers, hnone, hi, Bool.false_eq_true, if_false]
        omega
      · simp only [loop, hexited, halive, hworkers, hi', hi, Bool.false_eq_true, if_false]
        omega
    exact ⟨hlt.le, fun _ => hlt⟩
  · refine ⟨?_, fun heq => absurd heq hut⟩
    rw [loop, loop, hexited, hworkers, hothers u hut]

omit [Fintype ι] [Fintype κ] in
/-- In a step in which no thread moves on, those that help go on helping, and do not move. -/
theorem still (hcalls : s'.q.calls = s.q.calls) (hlock : s'.q.q_lock = s.q.q_lock)
    (hexited : s'.exited = s.exited) (hclient : ∀ c w, a ≠ .client c w) (hworks : ∀ t, ¬ Works t a)
    (hcloser : HelpsClose none s → HelpsClose none s' ∧ ¬ movesOrCloses body perform change none s a s')
    (i : Option (κ ⊕ ι)) (hi : HelpsClose i s) :
    HelpsClose i s' ∧ ¬ movesOrCloses body perform change i s a s' := by
  match i with
  | some (.inl c) =>
    refine ⟨?_, fun hm => hm.1.elim fun w hw => hclient c w hw⟩
    rw [HelpsClose, hcalls, hlock]
    exact hi
  | some (.inr t) =>
    refine ⟨?_, fun hm => hworks t hm.1⟩
    rw [HelpsClose, hcalls, hlock, hexited]
    exact hi
  | none => exact hcloser hi

/-- What a step of a pool that is being closed comes to: no thread has more to do then, and one has less, or who
helps goes on helping and has not moved. -/
theorem step_toDo (h : s.Closing B) (hcalled : s.q.destroyer ≠ .notCalled)
    (he : s.Effect body perform change a s') : (∀ i, toDo B s' i ≤ toDo B s i) ∧
      ((∃ i, toDo B s' i < toDo B s i) ∨
        ∀ i, HelpsClose i s → HelpsClose i s' ∧ ¬ movesOrCloses body perform change i s a s') := by
  obtain ⟨vs, hsound⟩ := h.sound
  have hdead := h.dead hcalled
  have hcalls := h.remaining_le hcalled he
  -- `ClosePool` has not more to do when the threads take a step.
  have hcloser : s'.closer = s.closer → s'.ids = s.ids → toDo B s' none ≤ toDo B s none := by
    intro hc hids
    have hdestroyer : s'.q.destroyer.remaining ≤ s.q.destroyer.remaining := by
      rcases he.queue with heq | ⟨qa, hqa, -⟩
      · rw [heq]
      · exact hqa.destroyer_le
    simp only [toDo, hc, hids]
    split
    · omega
    · rfl
    · rfl
  cases he with
  | adds enques =>
    cases enques with
    | enque idle alive => simp [hdead] at alive
  | calls alive free deques =>
    cases deques with
    | deque idle alive => simp [hdead] at alive
  | @client c w q proceeds =>
    exact ⟨toDo_le hcalls (fun _ => le_rfl) (hcloser rfl rfl),
      Or.inl ⟨some (.inl c), proceeds.remaining_lt hdead (Or.inl ⟨w, rfl⟩)⟩⟩
  | @proceeds t w q alive free stays proceeds =>
    exact ⟨toDo_le hcalls (fun _ => le_rfl) (hcloser rfl rfl),
      Or.inl ⟨some (.inr t), Nat.add_lt_add_right (proceeds.remaining_lt hdead (Or.inl ⟨w, rfl⟩)) _⟩⟩
  | @wakes t q wakes =>
    exact ⟨toDo_le hcalls (fun _ => le_rfl) (hcloser rfl rfl),
      Or.inl ⟨some (.inr t), Nat.add_lt_add_right (wakes.remaining_lt hdead (Or.inr rfl)) _⟩⟩
  | @starts t w task alive free call =>
    -- The steps of the task are those that `SafeDeque` had left to do.
    have hnone := (hsound.going t).mpr free
    have hother : ∀ c, c ≠ .inr t →
        ((s.q.discount.answer (.inr t) (some task)).goto (.inr t) .idle).calls c = s.q.calls c :=
      fun c hc => Users.goto_of_ne _ _ hc
    refine ⟨fun i => ?_, Or.inl ⟨some (.inr t), ?_⟩⟩
    · match i with
      | some (.inl c) => exact hcalls (.inl c)
      | some (.inr u) =>
        by_cases hut : u = t
        · subst hut
          simp [toDo, loop, alive, hnone, call, Call.remaining]
        · simp [toDo, loop, hother (.inr u) (by simpa using hut), hut]
      | none => exact hcloser rfl rfl
    · simp [toDo, loop, alive, hnone, call, Call.remaining]
  | @leaves t w alive free call =>
    have hnone := (hsound.going t).mpr free
    exact (toDo_lt_of_loop hcalls (loop_exit rfl rfl alive hnone) (hcloser rfl rfl)).imp_right Or.inl
  | @exits t w alive free idle dead =>
    have hnone := (hsound.going t).mpr free
    exact (toDo_lt_of_loop hcalls (loop_exit rfl rfl alive hnone) (hcloser rfl rfl)).imp_right Or.inl
  | @runs t e p workers busy runs =>
    exact (toDo_lt_of_loop hcalls (h.loop_runs busy runs rfl rfl) (hcloser rfl rfl)).imp_right Or.inl
  | outside =>
    refine ⟨toDo_le hcalls (fun _ => le_rfl) (hcloser rfl rfl), Or.inr (still rfl rfl rfl ?_ ?_ fun hi => ⟨hi, ?_⟩)⟩
    all_goals simp [Works, movesOrCloses]
  | destroys closer stays destroys =>
    refine ⟨toDo_le hcalls (fun _ => le_rfl) (hcloser rfl rfl), ?_⟩
    cases destroys with
    | flags destroyer => exact absurd destroyer hcalled
    | frees destroyer => exact absurd destroyer stays
    | broadcasts destroyer | leaves destroyer =>
      exact Or.inl ⟨none, by simp [toDo, closer, destroyer, Destroyer.remaining]⟩
    | destroyerWaits destroyer used =>
      refine Or.inr (still rfl rfl rfl (by simp) (by simp [Works]) fun hi => ?_)
      simp only [HelpsClose, closer] at hi
      exact absurd (hi.2 destroyer) (not_le.mpr used)
  | @frees q closer left frees =>
    have hlt : toDo B { s with q := q, closer := .joins s.ids } none < toDo B s none := by
      simp [toDo, closer, left, Destroyer.remaining]
    exact ⟨toDo_le hcalls (fun _ => le_rfl) hlt.le, Or.inl ⟨none, hlt⟩⟩
  | @joins t ids closer gone =>
    have hlt : toDo B { s with closer := .joins ids } none < toDo B s none := by
      simp [toDo, closer]
    exact ⟨toDo_le hcalls (fun _ => le_rfl) hlt.le, Or.inl ⟨none, hlt⟩⟩
  | returns closer =>
    have hlt : toDo B { s with closer := .returned } none < toDo B s none := by
      simp [toDo, closer]
    exact ⟨toDo_le hcalls (fun _ => le_rfl) hlt.le, Or.inl ⟨none, hlt⟩⟩
  | wakesCloser wakes =>
    refine ⟨toDo_le hcalls (fun _ => le_rfl) (hcloser rfl rfl), Or.inr ?_⟩
    cases wakes with
    | destroyerWakes destroyer =>
      refine still rfl rfl rfl (by simp) (by simp [Works]) fun hi => ⟨?_, by simp [movesOrCloses]⟩
      -- `ClosePool` waited.
      by_cases hc : s.closer = .destroys
      · simp only [HelpsClose, hc, destroyer] at hi
        exact absurd rfl hi.1
      · have := h.closes.done hc
        simp [destroyer] at this

/-! ### Who helps -/

/-- A client that helps can take a step. -/
theorem client_canMove (h : s.Closing B) (hcalled : s.q.destroyer ≠ .notCalled) {c : κ}
    (hi : HelpsClose (some (.inl c)) s) : CanMove body perform change (.inl c) s := by
  obtain ⟨vs, hsound⟩ := h.sound
  have hblocked : s.q.calls (.inl c) ≠ .dequeBlocked := fun hb =>
    hsound.client c (by simp [Users.InDeque, hb])
  obtain ⟨w, q, hq, he⟩ := hsound.q.canFinish (h.dead hcalled) (h.not_done hi.1) h.held hi.1 hblocked
    (Or.inl hi.2)
  refine ⟨w, { s with q := q }, ?_, .client he⟩
  rw [ThreadPool.step, onQueue, hq]
  rfl

/-- A worker that helps can take a step. -/
theorem worker_canMove (h : s.Closing B) (hcalled : s.q.destroyer ≠ .notCalled)
    (hi : HelpsClose (some (.inr t)) s) : CanMove body perform change (.inr t) s := by
  obtain ⟨vs, hsound⟩ := h.sound
  obtain ⟨halive, hblocked, hlock⟩ := hi
  by_cases hfree : s.workers.pool.threads t = none
  swap
  · exact Or.inl hfree
  have hstep : ∀ w, s.step body perform change (.worker t w : ThreadPoolAction ι κ Task Env X) =
      s.workerStep body perform change t w := fun _ => rfl
  refine Or.inr ?_
  cases hc : s.q.calls (.inr t) with
  | idle =>
    refine ⟨none, s.exit t, ?_, .exits halive hfree hc (h.dead hcalled)⟩
    simp only [hstep, workerStep, halive, hfree, hc, h.dead hcalled, Option.isSome_none, Bool.false_eq_true,
      or_self, if_false, if_true]
    rfl
  | dequeLeaves data =>
    have hdone := h.not_done (u := .inr t) (by simp [hc])
    cases data with
    | none =>
      refine ⟨none, _, ?_, .leaves halive hfree hc⟩
      simp only [hstep, workerStep, halive, hfree, hc, Option.isSome_none, Bool.false_eq_true, or_self,
        if_false, onQueue, Users.step, hdone, and_false, Users.proceed, pure_bind]
      rfl
    | some task =>
      refine ⟨none, _, ?_, .starts halive hfree hc⟩
      simp only [hstep, workerStep, halive, hfree, hc, Option.isSome_none, Bool.false_eq_true, or_self,
        if_false, onQueue, Users.step, hdone, and_false, Users.proceed, pure_bind, work, Recorded.step]
      rfl
  | _ =>
    obtain ⟨w, q, hq, he⟩ := hsound.q.canFinish (h.dead hcalled) (h.not_done (u := .inr t) (by simp [hc]))
      h.held (by simp [hc]) hblocked hlock
    refine ⟨w, { s with q := q }, ?_, .proceeds halive hfree (by simp [hc]) he⟩
    simp only [hstep, workerStep, halive, hfree, hc, Option.isSome_none, Bool.false_eq_true, or_self, if_false]
    rw [onQueue, hq]
    rfl

/-- `ClosePool` can take a step when it does not wait. -/
theorem close_canMove (h : s.Closing B) (hcalled : s.q.destroyer ≠ .notCalled) (hi : HelpsClose none s) :
    CanMoveOrClose body perform change none s := by
  obtain ⟨vs, hsound⟩ := h.sound
  refine ⟨hcalled, ?_⟩
  simp only [HelpsClose] at hi
  cases hc : s.closer with
  | returned => simp [hc] at hi
  | joins ids =>
    cases ids with
    | nil =>
      refine ⟨_, ?_, .returns hc⟩
      simp only [ThreadPool.step, closeStep, hc]
      rfl
    | cons t ids =>
      simp only [hc] at hi
      refine ⟨_, ?_, .joins hc hi⟩
      simp only [ThreadPool.step, closeStep, hc, hi, if_true]
      rfl
  | destroys =>
    simp only [hc] at hi
    obtain ⟨q, hq, he⟩ := hsound.q.canDestroy (h.unfinished hc) hi.1
    by_cases hleft : s.q.destroyer = .left
    · refine ⟨_, ?_, .frees hc hleft he⟩
      simp only [ThreadPool.step, closeStep, hc, hq, hleft, if_true]
      rfl
    · refine ⟨{ s with q := q }, ?_, .destroys hc hleft he⟩
      simp only [ThreadPool.step, closeStep, hc, hq, hleft, if_false, Run.ok_bind]
      rw [← hc]
      rfl

/-- As long as `ClosePool` has not returned somebody helps, when no count was lost. -/
theorem exists_helps (h : s.Closing B) (hexact : s.q.excess = 0)
    (hnot : s.closer ≠ .returned) : ∃ i, HelpsClose i s := by
  obtain ⟨vs, hsound⟩ := h.sound
  cases hc : s.closer with
  | returned => exact absurd hc hnot
  | joins ids =>
    cases ids with
    | nil => exact ⟨none, by simp [HelpsClose, hc]⟩
    | cons t ids =>
      by_cases hgone : s.exited t = true
      · exact ⟨none, by simpa [HelpsClose, hc] using hgone⟩
      · -- The queue is destroyed, so that the worker is in no call and nobody has the lock.
        have hidle := h.deserted.gone (Or.inr (h.closes.done (by simp [hc])))
        have hlock : s.q.q_lock = none := by
          cases hl : s.q.q_lock with
          | none => rfl
          | some u =>
            rcases h.held u hl with hu | hu
            · simp [hidle u] at hu
            · simp [hidle u] at hu
        exact ⟨some (.inr t), by simpa using hgone, by simp [hidle], Or.inl hlock⟩
  | destroys =>
    by_cases hfree : s.q.destroyer ≠ .waits ∧ (s.q.destroyer = .broadcast → s.q.usedNum ≤ 0)
    · exact ⟨none, by simpa [HelpsClose, hc] using hfree⟩
    -- `SafeDestroy` waits for a call that is in progress.
    obtain ⟨hbroadcast, hused⟩ : s.q.Broadcast ∧ 0 < s.q.usedNum := by
      by_cases hwaits : s.q.destroyer = .waits
      · exact ⟨by simp [Users.Broadcast, hwaits], h.waited hwaits⟩
      · have hrest : s.q.destroyer = .broadcast ∧ ¬ s.q.usedNum ≤ 0 := by
          by_contra hno
          refine hfree ⟨hwaits, fun hb => ?_⟩
          by_contra hu
          exact hno ⟨hb, hu⟩
        exact ⟨by simp [Users.Broadcast, hrest.1], not_le.mp hrest.2⟩
    obtain ⟨u, hu⟩ : s.q.inProgress.Nonempty := by
      rw [← Finset.card_pos]
      simp only [Users.excess] at hexact
      omega
    have hcounted : (s.q.calls u).isCounted := (Finset.mem_filter.mp hu).2
    have hblocked : ∀ v, s.q.calls v ≠ .dequeBlocked := fun v => (h.roused.roused hbroadcast v).1
    cases hl : s.q.q_lock with
    | none =>
      have hbusy : s.q.calls u ≠ .idle := by
        intro hidle
        simp [hidle, Call.isCounted] at hcounted
      cases u with
      | inl c => exact ⟨some (.inl c), hbusy, hl⟩
      | inr t =>
        refine ⟨some (.inr t), ?_, hblocked _, Or.inl hl⟩
        rw [← Bool.not_eq_true]
        exact fun hgone => hbusy (hsound.exited t hgone).1
    | some v =>
      -- It is the turn of the thread that has the lock.
      have hv := h.held v hl
      cases v with
      | inl c =>
        refine absurd ?_ (hsound.client c)
        rcases hv with hv | hv <;> simp [Users.InDeque, hv]
      | inr t =>
        refine ⟨some (.inr t), ?_, hblocked _, Or.inr hl⟩
        rw [← Bool.not_eq_true]
        intro hgone
        have hidle := (hsound.exited t hgone).1
        rcases hv with hv | hv <;> simp [hidle] at hv

end Closing

/-- Once `ClosePool` is called it stays so. -/
theorem Closing.stays_called (h : s.Closing B) (hcalled : s.q.destroyer ≠ .notCalled)
    (he : s.Effect body perform change a s') : s'.q.destroyer ≠ .notCalled := by
  obtain ⟨vs, hsound⟩ := h.sound
  obtain ⟨vs', hsound'⟩ := hsound.step he
  refine hsound'.q.flag.mp ?_
  rcases he.queue with heq | ⟨qa, hqa, -⟩
  · rw [heq]
    exact h.dead hcalled
  · exact hqa.destroyed (h.dead hcalled)

/-- What is left to do in a pool that is being closed becomes less, or who helps `ClosePool` goes on to. -/
theorem Closing.step_rank (h : s.Closing B) (hcalled : s.q.destroyer ≠ .notCalled)
    (he : s.Effect body perform change a s') : ∑ i, toDo B s' i < ∑ i, toDo B s i ∨
      ∑ i, toDo B s' i = ∑ i, toDo B s i ∧
        ∀ i, HelpsClose i s → HelpsClose i s' ∧ ¬ movesOrCloses body perform change i s a s' := by
  obtain ⟨hle, hlt⟩ := h.step_toDo hcalled he
  by_cases hex : ∃ i, toDo B s' i < toDo B s i
  · obtain ⟨i, hi⟩ := hex
    exact Or.inl (Finset.sum_lt_sum (fun i _ => hle i) ⟨i, Finset.mem_univ i, hi⟩)
  · refine Or.inr ⟨Finset.sum_congr rfl fun i _ => (hle i).antisymm ?_, hlt.resolve_left hex⟩
    exact not_lt.mp fun hi => hex ⟨i, hi⟩

/-! ### The count -/

/-- A step keeps the excess of `usedNum`, but for one that loses count, which makes it larger. -/
theorem excess_of_effect (he : s.Effect body perform change a s') :
    s'.q.excess = s.q.excess ∨ LosesCount s a ∧ s'.q.excess = s.q.excess + 1 := by
  rcases he.queue with heq | ⟨qa, hqa, htakes⟩
  · exact Or.inl (by rw [heq])
  · exact (Users.excess_step hqa).imp_right fun h => ⟨⟨qa, htakes, h.1⟩, h.2⟩

omit [Fintype κ] in
/-- Only a client loses a count. -/
theorem LosesCount.client {vs : List Task} (h : s.Sound vs) (hl : LosesCount s a) : ∃ c w, a = .client c w := by
  obtain ⟨qa, htakes, u, w, data, rfl, hc, -⟩ := hl
  cases htakes with
  | client c w => exact ⟨c, w, rfl⟩
  | worker t w => rcases h.worker t with hi | hi <;> simp [Users.InDeque, hc] at hi

/-- A step that loses count leaves an excess, before `SafeDestroy` has left its wait. -/
theorem Closing.loses (h : s.Closing B) (hl : LosesCount s a) (hstep : s.step body perform change a = .ok s') :
    1 ≤ s'.q.excess ∧ ¬ s'.q.Gone := by
  obtain ⟨vs, hsound⟩ := h.sound
  obtain ⟨c, w, rfl⟩ := hl.client hsound
  obtain ⟨qa, htakes, u, w', data, rfl, hc, hlock, hdead, hdone⟩ := hl
  have hgone : ¬ s.q.Gone := fun hg => by simpa [hc] using h.deserted.gone hg u
  cases htakes with
  | client =>
    have hq : s.q.step (.run (.inl c) w) = .ok (s.q.goto (.inl c) .idle) := by
      simp only [Users.step, hdone, and_false, if_false, Users.proceed, hc, hlock, hdead]
      rfl
    have hs : s' = { s with q := s.q.goto (.inl c) .idle } := by
      rw [ThreadPool.step, onQueue, hq] at hstep
      exact (Except.ok.inj hstep).symm
    refine ⟨?_, hs ▸ hgone⟩
    have hexcess := h.deserted.excess
    have hcounted : Users.Call.count (Call.enqueCounted data) = 1 := rfl
    have hidle : Users.Call.count (Call.idle : Call Task) = 0 := rfl
    rw [hs, Users.excess_goto rfl, hc, hcounted, hidle]
    omega

/-- With an excess `SafeDestroy` does not leave its wait. -/
theorem excess_holds (h : 1 ≤ s.q.excess ∧ ¬ s.q.Gone) (he : s.Effect body perform change a s') :
    1 ≤ s'.q.excess ∧ ¬ s'.q.Gone := by
  refine ⟨?_, ?_⟩
  · rcases excess_of_effect he with heq | ⟨-, heq⟩ <;> omega
  rcases he.queue with heq | ⟨qa, hqa, -⟩
  · rw [heq]
    exact h.2
  · exact hqa.not_gone h.1 h.2

/-! ## Runs without end -/

variable {r : Trace (step body perform change : ThreadPool ι κ σ Task Op Res →
  ThreadPoolAction ι κ Task Env X → Run (ThreadPool ι κ σ Task Op Res))} {n m : ℕ}

/-- A pool that is closed in order is so at all times. -/
theorem closing_at {ids : List ι} {x : σ} (h0 : r.state 0 = create ids x)
    (hbody : ∀ task, (body task).Calls (fun _ => True) B) (horder : ∀ n, Orderly (r.state n) (r.action n))
    (n : ℕ) : (r.state n).Closing B :=
  holds_onwards (I := fun s => s.Closing B) (h0 ▸ create_closing ids x)
    (fun n _ h he => h.step hbody (horder n) he) (Nat.zero_le n)

/-- When a count is lost, `SafeDestroy` never gets to its end. -/
theorem LosesCount.not_returned (hl : LosesCount (r.state m) (r.action m))
    (hclosing : ∀ n, (r.state n).Closing B) (n : ℕ) : (r.state n).closer ≠ .returned := by
  intro hn
  -- The excess stays.
  have hexcess : 1 ≤ (r.state (max n (m + 1))).q.excess ∧ ¬ (r.state (max n (m + 1))).q.Gone :=
    holds_onwards (I := fun s => 1 ≤ s.q.excess ∧ ¬ s.q.Gone) ((hclosing m).loses hl (r.steps m))
      (fun _ _ h he => excess_holds h he) (le_max_right n (m + 1))
  have hdone : (r.state (max n (m + 1))).q.destroyer = .done := by
    refine holds_onwards (I := fun s => s.q.destroyer = .done) ((hclosing n).closes.done (by simp [hn]))
      (fun _ _ h he => ?_) (le_max_left n (m + 1))
    rcases he.queue with heq | ⟨qa, hqa, -⟩
    · rwa [heq]
    · exact hqa.done_iff.mpr (Or.inl h)
  exact hexcess.2 (Or.inr hdone)

/-- As long as no count is lost, there is no excess. -/
theorem excess_eq_zero {ids : List ι} {x : σ} (h0 : r.state 0 = create ids x)
    (hcount : ∀ n, ¬ LosesCount (r.state n) (r.action n)) (n : ℕ) : (r.state n).q.excess = 0 := by
  refine holds_onwards (I := fun s => s.q.excess = 0) ?_ (fun m _ h he => ?_) (Nat.zero_le n)
  · simp [h0, create, Users.init, Users.excess, Users.inProgress, Call.isCounted]
  · rcases excess_of_effect he with heq | ⟨hl, -⟩
    · rw [heq, h]
    · exact absurd hl (hcount m)

/-- A pool that is being closed without an excess is closed. -/
theorem returned_of_closing (hfair : r.Fair (CanMoveOrClose body perform change) (movesOrCloses body perform change))
    (hclosing : ∀ n, (r.state n).Closing B) (hexact : ∀ n, (r.state n).q.excess = 0)
    (hn : (r.state n).q.destroyer ≠ .notCalled) : ∃ m, (r.state m).closer = .returned := by
  have hcalled : ∀ m, n ≤ m → (r.state m).q.destroyer ≠ .notCalled := fun m hm =>
    holds_onwards (I := fun s => s.q.destroyer ≠ .notCalled) hn
      (fun m _ h he => (hclosing m).stays_called h he) hm
  refine (hfair.eventually_of_effect step_cases movesOrCloses.effect
    (I := fun s => s.Closing B ∧ s.q.excess = 0 ∧ s.q.destroyer ≠ .notCalled)
    (Q := fun s => s.closer = .returned) (fun s => ∑ i, toDo B s i) HelpsClose
    (fun s hs hnot => hs.1.exists_helps hs.2.1 hnot) (fun i s hs hnot hi => ?_)
    (fun s a s' hs _ _ he => Or.inr (hs.1.step_rank hs.2.2 he)) n
    (fun m hm => ⟨hclosing m, hexact m, hcalled m hm⟩)).imp fun m hm => hm.2
  rcases i with - | (c | t)
  · exact hs.1.close_canMove hs.2.2 hi
  · exact hs.1.client_canMove hs.2.2 hi
  · exact hs.1.worker_canMove hs.2.2 hi

/-- **`ClosePool` returns.** In every run without end of a pool that is closed at some time, in which no thread
that can go on is held up for ever, whose tasks call a bounded number of operations, and in which no worker is
between its test and its wait at the broadcast and no thread has tested `destroyed` and not yet counted itself when
`SafeDestroy` leaves its wait: `ClosePool` returns exactly when no `SafeEnque` ever finds `destroyed` set under
the lock. -/
theorem close_returns_iff {ids : List ι} {x : σ} (h0 : r.state 0 = create ids x)
    (hclose : ∃ n, (r.state n).q.destroyer ≠ .notCalled)
    (hfair : r.Fair (CanMoveOrClose body perform change) (movesOrCloses body perform change))
    (hbody : ∀ task, (body task).Calls (fun _ => True) B)
    (horder : ∀ n, Orderly (r.state n) (r.action n)) :
    (∃ n, (r.state n).closer = .returned) ↔ ∀ n, ¬ LosesCount (r.state n) (r.action n) := by
  have hclosing := closing_at h0 hbody horder
  constructor
  · rintro ⟨n, hn⟩ m hl
    exact hl.not_returned hclosing n hn
  · intro hcount
    obtain ⟨n, hn⟩ := hclose
    exact returned_of_closing hfair hclosing (excess_eq_zero h0 hcount) hn

/-! ## A pool that is closed -/

/-- A pool without workers is at rest when it is closed, or `SafeDestroy` waits, and no client is in
`AddTask`. -/
theorem closing_at_rest (hclosed : s.closer = .returned ∨ s.closer = .destroys ∧ s.q.destroyer = .waits)
    (hclient : ∀ c, s.q.calls (.inl c) = .idle) (hgone : ∀ t, s.exited t = true)
    (hfree : ∀ t, s.workers.pool.threads t = none) (i : Option (κ ⊕ ι)) :
    ¬ CanMoveOrClose body perform change i s := by
  match i with
  | none =>
    rintro ⟨-, s', -, he⟩
    rcases hclosed with hclosed | ⟨hclosed, hwaits⟩
    · cases he <;> simp_all
    · cases he with
      | destroys _ _ destroys => cases destroys <;> simp_all
      | frees _ left => simp_all
      | joins closer => simp_all
      | returns closer => simp_all
  | some (.inl c) =>
    rintro ⟨w, s', -, he⟩
    cases he with
    | client proceeds => exact proceeds.in_call.1 (hclient c)
  | some (.inr t) =>
    rintro (hbusy | ⟨w, s', -, he⟩)
    · exact hbusy (hfree t)
    · cases he <;> simp_all

/-- What is computed of the conditions on a step of `ClosePool`. -/
def Tidy (s : Trivial) (a : ThreadPoolAction Unit Unit ℕ Unit Unit) : Prop :=
  match a with
  | .close => (s.q.destroyer = .flagged → (s.q.calls (.inl ())).isIdle ∧
      ((s.q.calls (.inr ())).isBlocked ∨ (s.q.calls (.inr ())).isIdle)) ∧
    (s.q.destroyer = .broadcast → s.q.usedNum ≤ 0 →
      (s.q.calls (.inl ())).isIdle ∧ (s.q.calls (.inr ())).isIdle)
  | _ => True

instance : DecidableRel Tidy := fun _ a =>
  match a with
  | .close => inferInstanceAs (Decidable (_ ∧ _))
  | .addTask .. | .client .. | .worker .. | .wake .. | .run .. | .outside .. | .wakeCloser =>
    inferInstanceAs (Decidable True)

/-- The run is as it should be when what is computed says so. -/
theorem orderly_of_tidy {s : Trivial} {a : ThreadPoolAction Unit Unit ℕ Unit Unit} (h : Tidy s a) :
    Orderly s a := by
  rintro qa htakes
  constructor
  · rintro rfl hd u
    cases htakes
    simp only [Tidy, Users.isIdle_iff, Users.isBlocked_iff] at h
    obtain ⟨hclient, hworker⟩ := h.1 hd
    match u with
    | .inl () => simp [hclient]
    | .inr () => rcases hworker with hworker | hworker <;> simp [hworker]
  · rintro rfl hd hused u
    cases htakes
    simp only [Tidy, Users.isIdle_iff, Users.isBlocked_iff] at h
    obtain ⟨hclient, hworker⟩ := h.2 hd hused
    match u with
    | .inl () => simp [hclient]
    | .inr () => simp [hworker]

/-- What is computed of a state in which nothing happens any more. -/
def isAtRest (s : Trivial) : Bool :=
  (decide (s.closer = .returned) && decide (s.q.destroyer = .done) ||
    decide (s.closer = .destroys) && decide (s.q.destroyer = .waits)) &&
  (s.q.calls (.inl ())).isIdle && s.exited () && (s.workers.pool.threads ()).isNone

/-- A run that comes to rest goes on for ever there, and is fair. -/
theorem exists_closing {as : List (ThreadPoolAction Unit Unit ℕ Unit Unit)}
    {P : Trivial → ThreadPoolAction Unit Unit ℕ Unit Unit → Prop}
    (hrun : (exec trivialStep (create [()] ()) as).toOption.any isAtRest = true)
    (htidy : Meets trivialStep Tidy (create [()] ()) as) (hP : Meets trivialStep P (create [()] ()) as)
    (hclose : ∀ s, P s .close) :
    ∃ r : Trace trivialStep, r.state 0 = create [()] () ∧
      exec trivialStep (create [()] ()) as = .ok (r.state as.length) ∧
      (∃ n, (r.state n).q.destroyer ≠ .notCalled) ∧
      r.Fair
        (CanMoveOrClose (fun _ => .pure ()) (fun (o : Empty) (_ : Unit) _ => nomatch o) fun (_ : Unit) s => s)
        (movesOrCloses (fun _ => .pure ()) (fun o _ _ => nomatch o) fun _ s => s) ∧
      ∀ n, Orderly (r.state n) (r.action n) ∧ P (r.state n) (r.action n) := by
  obtain ⟨s, hs, hrest⟩ := exec_reaches hrun
  simp only [isAtRest, Bool.and_eq_true, Bool.or_eq_true, decide_eq_true_eq, Users.isIdle_iff,
    Option.isNone_iff_eq_none] at hrest
  obtain ⟨⟨⟨hclosed, hclient⟩, hgone⟩, hfree⟩ := hrest
  have hstep : trivialStep s .close = .ok s := by
    rcases hclosed with ⟨hcloser, -⟩ | ⟨hcloser, hwaits⟩
    · simp only [trivialStep, step, closeStep, hcloser]
      rfl
    · simp only [trivialStep, step, closeStep, hcloser, Users.step, Users.destroyStep, hwaits]
      rw [if_neg (by simp), ← hcloser]
      rfl
  have htidy' : Tidy s (.close : ThreadPoolAction Unit Unit ℕ Unit Unit) := by
    rcases hclosed with ⟨-, hd⟩ | ⟨-, hd⟩ <;> exact ⟨by simp [hd], by simp [hd]⟩
  have hok : Meets trivialStep (fun s a => Orderly s a ∧ P s a) (create [()] ()) as :=
    fun pre a hp s hs => ⟨orderly_of_tidy (htidy pre a hp s hs), hP pre a hp s hs⟩
  obtain ⟨r, h0, hend, hfair, hall⟩ := Trace.exists_fair hs hok hstep
    ⟨orderly_of_tidy htidy', hclose s⟩
    (closing_at_rest (hclosed.imp And.left id) (fun _ => hclient) (fun _ => hgone) fun _ => hfree)
  refine ⟨r, h0, hend ▸ hs, ⟨as.length, ?_⟩, hfair, hall⟩
  rw [hend]
  rcases hclosed with ⟨-, hd⟩ | ⟨-, hd⟩ <;> simp [hd]

/-- The worker of a new pool blocks, and the pool is closed. -/
def closedIdle : List (ThreadPoolAction Unit Unit ℕ Unit Unit) :=
  List.replicate 4 (.worker () none) ++ List.replicate 3 .close ++ List.replicate 3 (.worker () none) ++
    List.replicate 4 .close

/-- The client is in `AddTask` when the pool is closed, and finds `destroyed` set under the lock. -/
def closedAdding : List (ThreadPoolAction Unit Unit ℕ Unit Unit) :=
  [.addTask () 7, .client () none, .close, .client () none, .worker () none, .close, .close]

/-- `close_returns_iff` for a pool whose worker is blocked when it is closed, so that `ClosePool` returns,
and for one whose client is in `AddTask` then and loses its count, so that it never does. -/
theorem close_returns_iff_idle :
    (∃ r : Trace trivialStep, r.state 0 = create [()] () ∧
      exec trivialStep (create [()] ()) closedIdle = .ok (r.state closedIdle.length) ∧
      ∃ n, (r.state n).closer = .returned) ∧
    ∃ r : Trace trivialStep, r.state 0 = create [()] () ∧
      exec trivialStep (create [()] ()) closedAdding = .ok (r.state closedAdding.length) ∧
      (∃ n, LosesCount (r.state n) (r.action n)) ∧ ¬ ∃ n, (r.state n).closer = .returned := by
  constructor
  · have hkeeps : Meets trivialStep (fun s a => ¬ LosesCount s a) (create [()] ()) closedIdle := by
      intro pre a hp s hs hl
      obtain ⟨vs, hsound⟩ := sound_of_exec hs
      obtain ⟨c, w, rfl⟩ := hl.client hsound
      have := hp.subset (List.mem_append_right pre (List.mem_singleton_self _))
      simp [closedIdle] at this
    obtain ⟨r, h0, hend, hclose, hfair, hall⟩ := exists_closing (by decide +kernel) (by decide +kernel) hkeeps
      (by rintro s ⟨qa, htakes, u, w, data, rfl, -⟩; cases htakes)
    exact ⟨r, h0, hend, (close_returns_iff (B := 0) h0 hclose hfair (fun _ => Prog.Calls.pure)
      fun n => (hall n).1).mpr fun n => (hall n).2⟩
  · obtain ⟨r, h0, hend, hclose, hfair, hall⟩ := @exists_closing closedAdding (fun _ _ => True)
      (by decide +kernel) (by decide +kernel) (fun _ _ _ _ _ => trivial) (fun _ => trivial)
    have hiff := close_returns_iff (B := 0) h0 hclose hfair (fun _ => Prog.Calls.pure)
      fun n => (hall n).1
    -- A count is lost: more users are counted in the end than there are.
    obtain ⟨s, hs, hexcess⟩ : ∃ s, exec trivialStep (create [()] ()) closedAdding = .ok s ∧
        decide (s.q.excess = 1) = true := exec_reaches (by decide +kernel)
    obtain rfl := Except.ok.inj (hend.symm.trans hs)
    have hloses : ∃ n, LosesCount (r.state n) (r.action n) := by
      by_contra hnone
      push Not at hnone
      rw [excess_eq_zero h0 hnone] at hexcess
      exact absurd hexcess (by decide)
    refine ⟨r, h0, hend, hloses, fun hreturned => ?_⟩
    obtain ⟨n, hn⟩ := hloses
    exact hiff.mp hreturned n hn

end ThreadPool

end DnsRelayer
