import DnsRelayer.Pool.QueueSpec

/-!
# The task queue is first in, first out, and strands no task

As long as the nodes are not freed, the nodes in memory hold the data that was enqueued and not yet
taken, in order, whatever the order of the steps (`Users.Sound`). A thread that has the lock between
two steps is the only one that has it, so that the queue is still as it found it in its test.

Before `SafeDestroy` is called no step faults, and what the calls of `SafeDeque` took and what is in
the queue are the data of the calls of `SafeEnque`, in the order of their sections (`queue_fifo`). When
there is data in the queue, a signal is still to be sent or a worker is not blocked
(`no_stranded_task`): a worker blocks only when it found the queue empty.
-/

namespace DnsRelayer

open Lib

/-- The data that a call has taken and is to return. -/
def Call.inFlight {α : Type} : Call α → List α
  | .dequeLeaves data => data.toList
  | _ => []

/-- The data that a call is still to enqueue. -/
def Call.pending {α : Type} : Call α → List α
  | .enqueTested data | .enqueCounted data => [data]
  | _ => []

namespace Users

variable {ι α : Type} [DecidableEq ι] {s s' : Users ι α} {t : ι} {vs : List α}
  {a : QueueAction ι α}

/-! ## What a step does of a call -/

/-- A thread calls `SafeEnque`, with this data. -/
def calledWith (s : Users ι α) (a : QueueAction ι α) (_ : Users ι α) : List (ι × α) :=
  match a with
  | .enque t data => if (s.calls t).isIdle then [(t, data)] else []
  | _ => []

/-- A thread is past the section of its call of `SafeEnque`, which was with this data. -/
def linkedData (s : Users ι α) (a : QueueAction ι α) (s' : Users ι α) : List (ι × α) :=
  match a with
  | .run t _ =>
    match s.calls t, s'.calls t with
    | .enqueCounted data, .enqueLinked => [(t, data)]
    | _, _ => []
  | _ => []

/-- A thread is past the section of its call of `SafeDeque`, and is to return this data. -/
def takenData (s : Users ι α) (a : QueueAction ι α) (s' : Users ι α) : List (ι × α) :=
  match a with
  | .run t _ =>
    match s.calls t, s'.calls t with
    | .dequePassed, .dequeLeaves (some data) => [(t, data)]
    | _, _ => []
  | _ => []

/-- What there is of a thread. -/
def dataOf (t : ι) (l : List (ι × α)) : List α := (l.filter (·.1 = t)).map Prod.snd

/-! ## The invariant -/

/-- The thread has the lock between two steps. -/
def HasLock (s : Users ι α) (t : ι) : Prop := s.calls t = .dequeWaits ∨ s.calls t = .dequePassed

/-- The data that a thread has taken, in order. -/
def takenBy (s : Users ι α) (t : ι) : List α := (s.taken.filter (·.1 = t)).map Prod.snd

/-- The queue holds `vs`; threads that have the lock know what they found; and what was enqueued was
taken, or is in the queue. -/
structure Sound (s : Users ι α) (vs : List α) : Prop where
  holds : s.destroyer ≠ .done → s.Holds vs
  lock : ∀ t, s.HasLock t → s.q_lock = some t
  waits : ∀ t, s.calls t = .dequeWaits → vs = []
  passed : ∀ t, s.calls t = .dequePassed → s.destroyed = true ∨ vs ≠ []
  flag : s.destroyed = true ↔ s.destroyer ≠ .notCalled
  order : s.taken.map Prod.snd ++ vs = s.enqueued
  returned : ∀ t, s.takenBy t = s.returned t ++ (s.calls t).inFlight

theorem init_sound : (init : Users ι α).Sound [] where
  holds _ := init_holds
  lock _ h := by simp [HasLock, init] at h
  waits _ _ := rfl
  passed _ h := by simp [init] at h
  flag := by simp [init]
  order := rfl
  returned _ := rfl

namespace Sound

/-- Before it is flagged the queue is not freed. -/
theorem alive (h : s.Sound vs) (hd : s.destroyed = false) : s.Holds vs := by
  refine h.holds fun hdone => ?_
  have := h.flag.mpr (by rw [hdone]; simp)
  simp [hd] at this

/-- Two threads do not have the lock at once. -/
theorem eq_of_hasLock (h : s.Sound vs) {u : ι} (ht : s.HasLock t) (hu : s.HasLock u) : t = u :=
  Option.some.inj ((h.lock t ht).symm.trans (h.lock u hu))

/-- The lock is taken by a thread that finds it free, and given back after the next step. -/
theorem step_lock (h : s.Sound vs) (he : s.Effect a s') :
    ∀ u, s'.HasLock u → s'.q_lock = some u := by
  have hlock := h.lock
  intro u hu
  cases he <;>
    simp only [HasLock, goto, discount, answer, Function.update_apply] at hlock hu ⊢ <;>
    grind

/-- `destroyed` is set by the first step of `SafeDestroy`. -/
theorem step_flag (h : s.Sound vs) (he : s.Effect a s') :
    s'.destroyed = true ↔ s'.destroyer ≠ .notCalled := by
  have hflag := h.flag
  cases he <;> simp only [goto, discount, answer] <;> grind

/-- A call returns what it has taken. -/
theorem step_returned (h : s.Sound vs) (he : s.Effect a s') :
    ∀ u, s'.takenBy u = s'.returned u ++ (s'.calls u).inFlight := by
  intro u
  have hret := h.returned u
  cases he <;>
    simp only [takenBy, goto, discount, answer, Function.update_apply] at hret ⊢ <;>
    grind [Call.inFlight, isBlocked_iff]

/-- A step keeps the queue sound. -/
theorem step (h : s.Sound vs) (he : s.Effect a s') : ∃ vs', s'.Sound vs' := by
  have hlock := h.step_lock he
  have hflag := h.step_flag he
  have hret := h.step_returned he
  have hwaits := h.waits
  have hpassed := h.passed
  cases he with
  | @enqueLinks t w data nodes tail brk call unlocked alive links =>
    obtain ⟨s₁, hok, hholds⟩ := (h.alive alive).link data
    obtain rfl := Except.ok.inj (links.symm.trans hok)
    refine ⟨vs ++ [data], fun _ => hholds.congr rfl rfl rfl rfl, hlock, ?_, ?_, hflag, ?_, hret⟩
    · intro u hu
      -- Nobody has the lock.
      rw [goto_calls] at hu
      split_ifs at hu
      have := h.lock u (Or.inl hu)
      rw [unlocked] at this
      cases this
    · intro u _
      exact Or.inr (by simp)
    · rw [← List.append_assoc]
      exact congrArg (· ++ [data]) h.order
  | @takes t w data nodes tail call alive unlinks =>
    obtain ⟨v, vs, rfl⟩ : ∃ v vs', vs = v :: vs' := by
      refine List.exists_cons_of_ne_nil ((h.passed t call).resolve_left ?_)
      simp [alive]
    obtain ⟨s₁, hok, hholds⟩ := (h.alive alive).unlink t
    obtain ⟨rfl, rfl⟩ := Prod.mk.inj (Except.ok.inj (unlinks.symm.trans hok))
    -- No other thread has the lock.
    have hother : ∀ u, u ≠ t → ¬ s.HasLock u := fun u hne hu =>
      hne (h.eq_of_hasLock hu (Or.inr call))
    refine ⟨vs, fun _ => hholds.congr rfl rfl rfl rfl, hlock, ?_, ?_, hflag, ?_, hret⟩
    · intro u hu
      rw [goto_calls] at hu
      split_ifs at hu with hut
      exact absurd (Or.inl hu) (hother u hut)
    · intro u hu
      rw [goto_calls] at hu
      split_ifs at hu with hut
      exact absurd (Or.inr hu) (hother u hut)
    · have := h.order
      simp only [goto, List.map_append, List.map_cons, List.map_nil, List.append_assoc,
        List.cons_append, List.nil_append]
      exact this
  | @waits t w call unlocked alive empty =>
    have hnil := (h.alive alive).head_eq_tail_iff.mp empty
    refine ⟨vs, fun hd => (h.holds hd).congr rfl rfl rfl rfl, hlock, fun _ _ => hnil, ?_, hflag,
      h.order, hret⟩
    intro u hu
    rw [goto_calls] at hu
    split_ifs at hu
    exact h.passed u hu
  | @passes t w call unlocked past =>
    have hpast : s.destroyed = true ∨ vs ≠ [] := by
      rcases Bool.eq_false_or_eq_true s.destroyed with hd | hd
      · exact Or.inl hd
      · exact Or.inr fun hnil =>
          past.resolve_left (by simp [hd]) ((h.alive hd).head_eq_tail_iff.mpr hnil)
    refine ⟨vs, fun hd => (h.holds hd).congr rfl rfl rfl rfl, hlock, ?_, fun _ _ => hpast, hflag,
      h.order, hret⟩
    intro u hu
    rw [goto_calls] at hu
    split_ifs at hu
    exact h.waits u hu
  | frees destroyer =>
    exact ⟨vs, fun hd => absurd rfl hd, hlock, h.waits, h.passed, hflag, h.order, hret⟩
  | _ =>
    -- The memory is as it was, and no thread is past a test that was not.
    refine ⟨vs, fun hd => (h.holds ?_).congr rfl rfl rfl rfl, hlock, ?_, ?_, hflag, h.order, hret⟩
    · simp only [goto, discount, answer] at hd
      grind
    · simp only [goto, discount, answer, Function.update_apply]
      grind
    · simp only [goto, discount, answer, Function.update_apply]
      grind

variable [Fintype ι]

/-- No step faults as long as the nodes are not freed. -/
theorem total (h : s.Sound vs) (hd : s.destroyer ≠ .done) (a : QueueAction ι α) :
    ∃ s', s.step a = .ok s' := by
  cases a with
  | run t w =>
    simp only [Users.step, hd, and_false, if_false]
    unfold proceed
    cases hc : s.calls t with
    | enqueCounted data =>
      dsimp only
      split_ifs
      · exact ⟨_, rfl⟩
      · exact ⟨_, rfl⟩
      · obtain ⟨s₁, hok, -⟩ := (h.holds hd).link data
        exact ⟨_, by rw [hok]; rfl⟩
    | dequePassed =>
      dsimp only
      split_ifs with hdead
      · exact ⟨_, rfl⟩
      -- A thread that passed the test has something to take.
      · obtain ⟨v, vs, rfl⟩ :=
          List.exists_cons_of_ne_nil ((h.passed t hc).resolve_left hdead)
        obtain ⟨s₁, hok, -⟩ := (h.holds hd).unlink t
        exact ⟨_, by rw [hok]; rfl⟩
    | enqueLinked => cases w <;> (dsimp only; split_ifs <;> exact ⟨_, rfl⟩)
    | dequeCounted => dsimp only; split_ifs <;> exact ⟨_, rfl⟩
    | _ => exact ⟨_, rfl⟩
  | destroy =>
    simp only [Users.step, destroyStep]
    cases hds : s.destroyer with
    | left =>
      -- The destroyer frees a list that is there.
      obtain ⟨nodes, hok⟩ := (h.holds hd).freeNodes
      exact ⟨_, by simp only [hok]; rfl⟩
    | _ => exact ⟨_, rfl⟩
  | _ => simp only [Users.step]; split_ifs <;> exact ⟨_, rfl⟩

/-- A step of another thread, before `SafeDestroy` is called. -/
theorem step_notCalled (h : s.Sound vs) (hd : s.destroyer = .notCalled) (ha : a ≠ .destroy) :
    ∃ s' vs', s.step a = .ok s' ∧ s'.Sound vs' ∧ s'.destroyer = .notCalled := by
  obtain ⟨s', hok⟩ := h.total (by rw [hd]; simp) a
  rcases step_cases hok with rfl | he
  · exact ⟨_, vs, hok, h, hd⟩
  · obtain ⟨vs', h'⟩ := h.step he
    refine ⟨s', vs', hok, h', ?_⟩
    cases he <;> simp only [goto, discount, answer] <;> grind

end Sound

variable [Fintype ι]

/-! ## Every data that is enqueued is taken once, in order -/

/-- The actions of a run before `SafeDestroy` is called. -/
theorem meets_of_not_mem {as : List (QueueAction ι α)} (has : .destroy ∉ as) :
    Meets step (fun _ a => a ≠ .destroy) (init : Users ι α) as := by
  rintro pre a hp _ _ rfl
  exact has (hp.subset (by simp))

/-- The record of what was enqueued and taken is what the sections of the calls did, and what is still
to be enqueued of the data that `SafeEnque` was called with is with the calls under way. -/
structure Recorded (s : Users ι α) (called linked taken : List (ι × α)) : Prop where
  enqueued : s.enqueued = linked.map Prod.snd
  taken : s.taken = taken
  called : ∀ t, dataOf t called = dataOf t linked ++ (s.calls t).pending

omit [DecidableEq ι] [Fintype ι] in
/-- A thread that stays where it is is past no section. -/
theorem sections_self (s : Users ι α) (a : QueueAction ι α) :
    linkedData s a s = [] ∧ takenData s a s = [] := by
  cases a with
  | run t w => cases hc : s.calls t <;> simp [linkedData, takenData, hc]
  | _ => exact ⟨rfl, rfl⟩

/-- A step keeps the record. -/
theorem Recorded.step {called linked taken : List (ι × α)} (h : s.Recorded called linked taken)
    (hd : s.destroyed = false) (hok : s.step a = .ok s') :
    s'.Recorded (called ++ calledWith s a s') (linked ++ linkedData s a s')
      (taken ++ takenData s a s') := by
  have hcalled := h.called
  rcases step_cases hok with rfl | he
  · -- Nothing happens: it is no call of a thread that is in none.
    have hno : calledWith s' a s' = [] := by
      cases a with
      | enque t data =>
        simp only [Users.step, hd] at hok
        by_cases hidle : (s'.calls t).isIdle
        · rw [if_pos ⟨hidle, by simp⟩] at hok
          have hcall := congrArg (fun s : Users ι α => s.calls t) (Except.ok.inj hok)
          simp [isIdle_iff.mp hidle] at hcall
        · simp [calledWith, hidle]
      | _ => rfl
    simpa [hno, sections_self] using h
  · constructor
    · rw [List.map_append, ← h.enqueued]
      cases he <;> simp [linkedData, goto, discount, answer, *]
    · rw [← h.taken]
      cases he <;> simp [takenData, goto, discount, answer, *]
    · intro u
      have hcall := hcalled u
      cases he <;>
        simp only [calledWith, linkedData, goto, discount, answer, Function.update_apply, dataOf,
          List.filter_append, List.map_append] at hcall ⊢ <;>
        grind [Call.pending, isIdle_iff, isBlocked_iff]

/-- Before `SafeDestroy` is called no step of any number of threads faults. The nodes of the queue are
linked from the head to the tail, which is the head exactly when the queue is empty. What the calls
of `SafeDeque` took, in the order of their sections, followed by what is in the queue, is the data of
the calls of `SafeEnque`, in the order of their sections. Each thread returned what its calls took, but
for what its call under way has taken and is to return; and the data that it called `SafeEnque` with
went through their sections in order, but for that of its call under way. -/
theorem queue_fifo (as : List (QueueAction ι α)) (has : .destroy ∉ as) :
    ∃ s vs, exec step (init : Users ι α) as = .ok s ∧ s.Holds vs ∧
      (s.head = s.tail ↔ vs = []) ∧
      (gathered step takenData init as).map Prod.snd ++ vs =
        (gathered step linkedData init as).map Prod.snd ∧
      (∀ t, dataOf t (gathered step takenData init as) = s.returned t ++ (s.calls t).inFlight) ∧
      ∀ t, dataOf t (gathered step calledWith init as) =
        dataOf t (gathered step linkedData init as) ++ (s.calls t).pending := by
  obtain ⟨s, -, hs, ⟨vs, hsound⟩, hd, hrec⟩ := exec_history
    (I := fun us (s : Users ι α) => exec step init us = .ok s ∧ (∃ vs, s.Sound vs) ∧
      s.destroyer = .notCalled ∧ s.Recorded (gathered step calledWith init us)
        (gathered step linkedData init us) (gathered step takenData init us))
    ⟨rfl, ⟨[], init_sound⟩, rfl, rfl, rfl, fun _ => rfl⟩ (fun us s a _ hI ha => by
      obtain ⟨hs, ⟨vs, hsound⟩, hd, hrec⟩ := hI
      obtain ⟨s', vs', hok, h', hd'⟩ := hsound.step_notCalled hd ha
      have halive : s.destroyed = false := by
        rw [← Bool.not_eq_true, hsound.flag, hd]
        simp
      refine ⟨s', hok, exec_concat.mpr ⟨s, hs, hok⟩, ⟨vs', h'⟩, hd', ?_⟩
      rw [gathered_concat hs hok, gathered_concat hs hok, gathered_concat hs hok]
      exact hrec.step halive hok)
    (meets_of_not_mem has) as (List.prefix_refl as)
  have hholds := hsound.holds (by rw [hd]; simp)
  refine ⟨s, vs, hs, hholds, hholds.head_eq_tail_iff, ?_, ?_, hrec.called⟩
  · rw [← hrec.taken, ← hrec.enqueued]
    exact hsound.order
  · rw [← hrec.taken]
    exact hsound.returned

/-- A run in which a thread enqueues two tasks, and another takes one. -/
def handsOver : List (QueueAction Bool ℕ) :=
  .enque false 7 :: List.replicate 4 (.run false none) ++
    .enque false 8 :: List.replicate 4 (.run false none) ++
    .deque true :: List.replicate 4 (.run true none)

/-- `queue_fifo` for a thread that enqueues 7 and 8, and another that takes 7: it returned 7, and 8 is
in the queue. -/
theorem queue_fifo_two : ∃ s, exec step init handsOver = .ok s ∧ s.Holds [8] ∧ s.head ≠ s.tail ∧
    gathered step calledWith init handsOver = [(false, 7), (false, 8)] ∧
    gathered step linkedData init handsOver = [(false, 7), (false, 8)] ∧
    gathered step takenData init handsOver = [(true, 7)] ∧ s.returned true = [7] := by
  obtain ⟨s, vs, hs, hholds, hiff, horder, hret, -⟩ := queue_fifo handsOver (by simp [handsOver])
  have hcalled : gathered step calledWith init handsOver = [(false, 7), (false, 8)] := by decide +kernel
  have hlinked : gathered step linkedData init handsOver = [(false, 7), (false, 8)] := by decide +kernel
  have htaken : gathered step takenData init handsOver = [(true, 7)] := by decide +kernel
  rw [hlinked, htaken] at horder
  obtain rfl : vs = [8] := by simpa using horder
  refine ⟨s, hs, hholds, by simp [hiff], hcalled, hlinked, htaken, ?_⟩
  -- The thread's call has returned, so what it took is what it returned.
  obtain ⟨s', hs', hidle⟩ : ∃ s', exec step init handsOver = .ok s' ∧ (s'.calls true).isIdle = true :=
    exec_reaches (by decide +kernel)
  obtain rfl := Except.ok.inj (hs.symm.trans hs')
  have hret' := hret true
  rw [htaken, isIdle_iff.mp hidle] at hret'
  simpa [dataOf, Call.inFlight] using hret'.symm

/-! ## What is taken was enqueued -/

/-- All data of calls of `SafeEnque`, and all that was enqueued, is of a kind. -/
structure Only (P : α → Prop) (s : Users ι α) : Prop where
  calls : ∀ t data, s.calls t = .enqueTested data ∨ s.calls t = .enqueCounted data → P data
  enqueued : ∀ data ∈ s.enqueued, P data

variable {P : α → Prop}

omit [DecidableEq ι] [Fintype ι] in
/-- Nothing is enqueued at the start. -/
theorem init_only : (init : Users ι α).Only P where
  calls _ _ h := by simp [init] at h
  enqueued _ h := absurd h List.not_mem_nil

omit [Fintype ι] in
/-- A step keeps the data of a kind when `SafeEnque` is called with such data only. -/
theorem Only.step (h : s.Only P) (ha : ∀ t data, a = .enque t data → P data) (he : s.Effect a s') :
    s'.Only P := by
  have hcalls := h.calls
  have henqueued := h.enqueued
  constructor
  · intro u data hu
    have hu' := hcalls u data
    cases he <;>
      simp only [goto, discount, answer, Function.update_apply] at hu hu' <;>
      grind
  · intro data hdata
    cases he <;> simp only [goto, discount, answer] at hdata <;> grind

omit [Fintype ι] in
/-- What a call is to return was enqueued. -/
theorem Sound.mem_enqueued (h : s.Sound vs) {data : α} (hdata : data ∈ (s.calls t).inFlight) :
    data ∈ s.enqueued := by
  have htaken : data ∈ s.takenBy t := by
    rw [h.returned t]
    exact List.mem_append_right _ hdata
  obtain ⟨p, hp, rfl⟩ := List.mem_map.mp htaken
  rw [← h.order]
  exact List.mem_append_left _ (List.mem_map_of_mem (List.mem_of_mem_filter hp))

/-! ## No task is stranded -/

/-- The thread is in a call of `SafeDeque`. -/
def InDeque (s : Users ι α) (t : ι) : Prop :=
  s.calls t = .dequeTested ∨ s.calls t = .dequeCounted ∨ s.calls t = .dequeWaits ∨
    s.calls t = .dequeBlocked ∨ s.calls t = .dequePassed ∨ ∃ data, s.calls t = .dequeLeaves data

/-- Only workers call `SafeDeque`, and when the queue is not empty, a signal is still to be sent or a
worker is not blocked. -/
structure Awake (worker : ι → Prop) (s : Users ι α) : Prop where
  only : ∀ t, s.InDeque t → worker t
  awake : s.head ≠ s.tail →
    (∃ t, s.calls t = .enqueLinked) ∨ ∃ t, worker t ∧ s.calls t ≠ .dequeBlocked

variable {worker : ι → Prop}

omit [Fintype ι] in
/-- Before `SafeDestroy` is called a step keeps a worker awake, as long as only workers call
`SafeDeque`, and there is one. -/
theorem Awake.step (h : s.Awake worker) (hsound : s.Sound vs) (hd : s.destroyer = .notCalled)
    (hworker : ∃ t, worker t) (honly : ∀ t, a = .deque t → worker t) (he : s.Effect a s') :
    s'.Awake worker := by
  have honly' : ∀ u, s'.InDeque u → worker u := by
    intro u hu
    have hu' := h.only u
    cases he <;>
      simp only [InDeque, goto, discount, answer, Function.update_apply] at hu hu' <;>
      grind [isBlocked_iff]
  have halive : s.destroyed = false := by
    rw [← Bool.not_eq_true, hsound.flag, hd]
    simp
  refine ⟨honly', fun hne => ?_⟩
  cases he with
  | @enqueLinks t w data nodes tail brk call =>
    exact Or.inl ⟨t, goto_self _ _ _⟩
  | @signals t u call blocked =>
    -- The thread that wakes up is a worker.
    have hu : worker u := h.only u (by simp [InDeque, blocked])
    refine Or.inr ⟨u, hu, ?_⟩
    have hut : u ≠ t := by
      rintro rfl
      rw [call] at blocked
      cases blocked
    rw [goto_of_ne _ _ hut, goto_self]
    simp
  | @signalsNone t call none_blocked =>
    obtain ⟨u, hu⟩ := hworker
    refine Or.inr ⟨u, hu, ?_⟩
    rw [goto_calls]
    split_ifs
    · simp
    · exact none_blocked u
  | @takes t w data nodes tail call =>
    refine Or.inr ⟨t, h.only t (by simp [InDeque, call]), ?_⟩
    rw [goto_self]
    simp
  | @blocks t w call =>
    -- The thread found the queue empty, and has the lock since.
    obtain rfl := hsound.waits t call
    exact absurd ((hsound.alive halive).head_eq_tail_iff.mpr rfl) hne
  | flags destroyer | broadcasts destroyer | destroyerWaits destroyer | leaves destroyer
  | frees destroyer | destroyerWakes destroyer =>
    first
    | exact h.awake hne
    | (rw [hd] at destroyer; cases destroyer)
  | _ =>
    -- A thread that moves on is not blocked then, and was not about to signal.
    have hawake := h.awake hne
    simp only [goto, discount, answer, Function.update_apply]
    grind

/-- With at least one worker, where only workers call `SafeDeque`, no state is reached before
`SafeDestroy` is called in which the queue is not empty, every worker is blocked, and no thread has a
signal to send. -/
theorem no_stranded_task (hworker : ∃ t, worker t) (as : List (QueueAction ι α))
    (has : .destroy ∉ as) (honly : ∀ t, .deque t ∈ as → worker t) :
    ∃ s, exec step (init : Users ι α) as = .ok s ∧
      ¬ (s.head ≠ s.tail ∧ (∀ t, worker t → s.calls t = .dequeBlocked) ∧
        ∀ t, s.calls t ≠ .enqueLinked) := by
  have hmeets : Meets step (fun _ a => a ≠ .destroy ∧ ∀ t, a = .deque t → worker t)
      (init : Users ι α) as := by
    intro pre a hp s hs
    refine ⟨meets_of_not_mem has pre a hp s hs, ?_⟩
    rintro t rfl
    exact honly t (hp.subset (by simp))
  have hinit : (init : Users ι α).Awake worker := by
    constructor
    · simp [InDeque, init]
    · simp [init]
  obtain ⟨s, hs, -, -, hawake⟩ := exec_total
    (I := fun s : Users ι α => (∃ vs, s.Sound vs) ∧ s.destroyer = .notCalled ∧ s.Awake worker)
    ⟨⟨[], init_sound⟩, rfl, hinit⟩ (fun s a hI ha => by
      obtain ⟨⟨vs, hsound⟩, hd, hawake⟩ := hI
      obtain ⟨s', vs', hok, h', hd'⟩ := hsound.step_notCalled hd ha.1
      refine ⟨s', hok, ⟨vs', h'⟩, hd', ?_⟩
      rcases step_cases hok with rfl | he
      · exact hawake
      · exact hawake.step hsound hd hworker ha.2 he)
    hmeets as (List.prefix_refl as)
  refine ⟨s, hs, ?_⟩
  -- Were all workers blocked, one would have a signal on its way.
  rintro ⟨hne, hblocked, hsignal⟩
  rcases hawake.awake hne with ⟨t, ht⟩ | ⟨t, hwt, ht⟩
  · exact hsignal t ht
  · exact ht (hblocked t hwt)

/-- `no_stranded_task` for a worker that blocks, and a task that is enqueued then. -/
theorem no_stranded_task_one : ∃ s,
    exec step (init : Users (Fin 2) ℕ) [.deque 1, .run 1 none, .run 1 none, .run 1 none,
      .enque 0 7, .run 0 none, .run 0 none] = .ok s ∧
      ¬ (s.head ≠ s.tail ∧ (∀ t, t = 1 → s.calls t = .dequeBlocked) ∧
        ∀ t, s.calls t ≠ .enqueLinked) :=
  @no_stranded_task _ _ _ _ (fun t => t = 1) ⟨1, rfl⟩ _ (by simp) (by simp)

end Users

end DnsRelayer
