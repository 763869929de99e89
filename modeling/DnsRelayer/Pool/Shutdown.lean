import DnsRelayer.Pool.Fifo
import Mathlib.Algebra.BigOperators.Group.Finset.Piecewise
import Mathlib.Tactic.Ring

/-!
# Destroying the task queue

`SafeDestroy` sets `destroyed` and broadcasts without the lock under which `SafeDeque` tests it, and
waits until `usedNum` is zero, which a call increments after it tested `destroyed` without a lock.

- A thread that found the queue empty and not destroyed may block after the broadcast, and stays
  blocked (`destroy_strands`). When no thread is between its test and its wait at the broadcast, no
  thread is blocked after it (`destroy_wakes_all`).
- `usedNum` is the number of calls in progress as long as no `SafeEnque` finds `destroyed` set under
  the lock, and not any longer then: it returns without counting itself out (`usedNum_iff`).
- A thread that has tested `destroyed` and not yet counted itself uses the locks after they are
  destroyed (`destroyed_is_used`). When there is none as `SafeDestroy` leaves its wait, no thread
  uses the queue after it (`destroyed_unused_iff`).
-/

namespace DnsRelayer

open Lib

/-- The call has counted itself, and has not yet counted itself out. -/
def Call.isCounted {α : Type} : Call α → Bool
  | .idle | .enqueTested _ | .dequeTested => false
  | _ => true

namespace Users

variable {ι α : Type} [DecidableEq ι] [Fintype ι] {s s' : Users ι α} {t : ι} {a : QueueAction ι α}

/-! ## The broadcast -/

/-- `SafeDestroy` has broadcast. -/
def Broadcast (s : Users ι α) : Prop := s.destroyer ≠ .notCalled ∧ s.destroyer ≠ .flagged

/-- The thread is blocked after the broadcast, and no signal is left to wake it. -/
def Stranded (s : Users ι α) (t : ι) : Prop :=
  s.Broadcast ∧ s.calls t = .dequeBlocked ∧ ∀ u, s.calls u ≠ .enqueLinked

/-- If the step is the broadcast, no thread is between its test and its wait. -/
def NoneToWait (s : Users ι α) (a : QueueAction ι α) : Prop :=
  a = .destroy → s.destroyer = .flagged → ∀ t, s.calls t ≠ .dequeWaits

/-- From the broadcast on no thread is blocked or is to wait. -/
structure Roused (s : Users ι α) : Prop where
  flag : s.destroyer ≠ .notCalled → s.destroyed = true
  roused : s.Broadcast → ∀ t, s.calls t ≠ .dequeBlocked ∧ s.calls t ≠ .dequeWaits

omit [Fintype ι] in
theorem Roused.step (h : s.Roused) (ha : s.NoneToWait a) (he : s.Effect a s') : s'.Roused := by
  have hflag := h.flag
  have hroused := h.roused
  cases he with
  | broadcasts destroyer =>
    refine ⟨fun _ => h.flag (by rw [destroyer]; simp), fun _ u => ?_⟩
    dsimp only
    split_ifs with hb
    · simp
    · exact ⟨fun hu => hb (isBlocked_iff.mpr hu), ha rfl destroyer u⟩
  | _ =>
    constructor
    · simp only [goto, discount, answer]
      grind
    · simp only [Broadcast, goto, discount, answer, Function.update_apply] at hroused ⊢
      grind

/-- In a run in which no thread is between its test and its wait when `SafeDestroy` broadcasts, no
thread is ever blocked after the broadcast without a signal left to wake it. -/
theorem destroy_wakes_all (as : List (QueueAction ι α))
    (has : Meets step NoneToWait (init : Users ι α) as) :
    ∀ pre, pre <+: as → ∀ s, exec step (init : Users ι α) pre = .ok s → ∀ t, ¬ s.Stranded t := by
  have hinit : (init : Users ι α).Roused := by
    constructor <;> simp [init, Broadcast]
  intro pre hpre s hs t hstranded
  have hroused := exec_invariant (I := Roused) hinit (fun s a s' h ha hok => by
    rcases step_cases hok with rfl | he
    · exact h
    · exact h.step ha he) has pre hpre s hs
  exact (hroused.roused hstranded.1 t).1 hstranded.2.1

/-- `destroy_wakes_all` for a thread that blocks before the broadcast. -/
theorem destroy_wakes_all_one : ∃ s, exec step (init : Users (Fin 1) ℕ) [.deque 0, .run 0 none,
    .run 0 none, .run 0 none, .destroy, .destroy] = .ok s ∧ ¬ s.Stranded 0 := by
  refine ⟨_, rfl, destroy_wakes_all [.deque 0, .run 0 none, .run 0 none, .run 0 none, .destroy,
    .destroy] ?_ _ (List.prefix_refl _) _ rfl 0⟩
  -- The thread is blocked at the second step of `SafeDestroy`.
  refine meets_cons (by simp [NoneToWait]) fun s₁ h₁ => ?_
  obtain rfl := Except.ok.inj h₁
  refine meets_cons (by simp [NoneToWait]) fun s₂ h₂ => ?_
  obtain rfl := Except.ok.inj h₂
  refine meets_cons (by simp [NoneToWait]) fun s₃ h₃ => ?_
  obtain rfl := Except.ok.inj h₃
  refine meets_cons (by simp [NoneToWait]) fun s₄ h₄ => ?_
  obtain rfl := Except.ok.inj h₄
  refine meets_cons (by rintro - ⟨⟩) fun s₅ h₅ => ?_
  obtain rfl := Except.ok.inj h₅
  refine meets_cons ?_ fun s₆ h₆ => meets_nil
  intro _ _ t
  obtain rfl : t = 0 := Subsingleton.elim _ _
  show Call.dequeBlocked ≠ Call.dequeWaits
  simp

/-- A thread that tested the queue before `SafeDestroy` set `destroyed` blocks after the broadcast.
It is counted, so that `SafeDestroy` waits for it. -/
theorem destroy_strands : ∃ s,
    exec step (init : Users (Fin 1) ℕ) [.deque 0, .run 0 none, .run 0 none, .destroy, .destroy,
      .run 0 none, .destroy] = .ok s ∧ s.Stranded 0 ∧ s.destroyer = .waits := by
  obtain ⟨s, hs, hcall, hdestroyer⟩ : ∃ s, exec step (init : Users (Fin 1) ℕ) [.deque 0,
      .run 0 none, .run 0 none, .destroy, .destroy, .run 0 none, .destroy] = .ok s ∧
      s.calls 0 = .dequeBlocked ∧ s.destroyer = .waits := ⟨_, rfl, rfl, rfl⟩
  refine ⟨s, hs, ⟨⟨?_, ?_⟩, hcall, fun u => ?_⟩, hdestroyer⟩
  · simp [hdestroyer]
  · simp [hdestroyer]
  · obtain rfl : u = 0 := Subsingleton.elim _ _
    simp [hcall]

/-! ## The number of users -/

/-- The calls that have counted themselves, and have not yet returned or counted themselves out. -/
def inProgress (s : Users ι α) : Finset ι := Finset.univ.filter fun t => (s.calls t).isCounted

/-- The step is of a `SafeEnque` that finds `destroyed` set under the lock. -/
def LosesCount (s : Users ι α) (a : QueueAction ι α) : Prop :=
  ∃ t w data, a = .run t w ∧ s.calls t = .enqueCounted data ∧ s.q_lock = none ∧
    s.destroyed = true ∧ s.destroyer ≠ .done

/-- What is counted of a call. -/
def Call.count (c : Call α) : ℕ := if c.isCounted then 1 else 0

/-- One thread moves on. -/
theorem card_inProgress_goto (s : Users ι α) (t : ι) (c : Call α) :
    (s.goto t c).inProgress.card + Call.count (s.calls t) =
      s.inProgress.card + Call.count c := by
  have hcard : ∀ r : Users ι α, r.inProgress.card = ∑ u, Call.count (r.calls u) :=
    fun r => Finset.card_filter _ _
  rw [hcard, hcard, ← Finset.add_sum_erase _ _ (Finset.mem_univ t),
    ← Finset.add_sum_erase _ (fun u => Call.count (s.calls u)) (Finset.mem_univ t)]
  have hrest : ∑ u ∈ Finset.univ.erase t, Call.count ((s.goto t c).calls u) =
      ∑ u ∈ Finset.univ.erase t, Call.count (s.calls u) := by
    refine Finset.sum_congr rfl fun u hu => ?_
    rw [goto_of_ne _ _ (Finset.ne_of_mem_erase hu)]
  rw [hrest, goto_self]
  omega

omit [DecidableEq ι] in
/-- Only where the threads are matters. -/
theorem inProgress_congr (h : s'.calls = s.calls) : s'.inProgress = s.inProgress := by
  rw [inProgress, inProgress, h]

/-- What is in use that no call in progress accounts for. -/
def excess (s : Users ι α) : ℤ := s.usedNum - s.inProgress.card

/-- One thread moves on, and `usedNum` changes. -/
theorem excess_goto {r : Users ι α} (hcalls : r.calls = s.calls) (t : ι) (c : Call α) :
    (r.goto t c).excess =
      s.excess + (r.usedNum - s.usedNum) + (Call.count (s.calls t) - Call.count c) := by
  have hcard := card_inProgress_goto r t c
  rw [inProgress_congr hcalls, hcalls] at hcard
  simp only [excess]
  rw [show (r.goto t c).usedNum = r.usedNum from rfl]
  omega

/-- A thread counts itself, or counts itself out, or does neither. -/
theorem excess_goto_eq {r : Users ι α} {c : Call α} (hcalls : r.calls = s.calls)
    (hused : r.usedNum + Call.count (s.calls t) = s.usedNum + Call.count c) :
    (r.goto t c).excess = s.excess := by
  rw [excess_goto hcalls]
  omega

/-- A step keeps the excess, but for one that loses count, which makes it larger. -/
theorem excess_step (he : s.Effect a s') :
    s'.excess = s.excess ∨ s.LosesCount a ∧ s'.excess = s.excess + 1 := by
  cases he with
  | @enqueReturns t w data call unlocked dead not_done =>
    refine Or.inr ⟨⟨t, w, data, rfl, call, unlocked, dead, not_done⟩, ?_⟩
    rw [excess_goto rfl, call]
    simp [Call.count, Call.isCounted]
  | broadcasts destroyer =>
    -- A call that wakes up is still counted.
    left
    have hcounted : ∀ u, (if (s.calls u).isBlocked then Call.dequeCounted else s.calls u).isCounted =
        (s.calls u).isCounted := by
      intro u
      split_ifs with hb
      · rw [isBlocked_iff.mp hb]
        rfl
      · rfl
    simp only [excess, inProgress, hcounted]
  | @signals t u call blocked =>
    left
    have htu : t ≠ u := by
      rintro rfl
      rw [call] at blocked
      cases blocked
    rw [excess_goto_eq rfl (by rw [goto_of_ne _ _ htu, call]; rfl),
      excess_goto_eq rfl (by rw [blocked]; rfl)]
  | flags | destroyerWaits | leaves | frees | destroyerWakes => exact Or.inl rfl
  | enque call | deque call | enqueCounts call | enqueLinks call | signalsNone call | enqueEnds call
  | dequeCounts call | waits call | passes call | blocks call | finds call | takes call
  | dequeEnds call | wakes call =>
    refine Or.inl (excess_goto_eq rfl ?_)
    simp [discount, answer, call, Call.count, Call.isCounted]

/-- In a run of any number of threads with one that destroys the queue, `usedNum` is the number of
calls in progress in every state reached exactly when no step is of a `SafeEnque` that finds
`destroyed` set under the lock. -/
theorem usedNum_iff (as : List (QueueAction ι α)) :
    (∀ pre, pre <+: as → ∀ s, exec step (init : Users ι α) pre = .ok s →
      s.usedNum = s.inProgress.card) ↔
    Meets step (fun s a => ¬ s.LosesCount a) (init : Users ι α) as := by
  have hexcess : ∀ s : Users ι α, s.usedNum = s.inProgress.card ↔ s.excess = 0 :=
    fun s => sub_eq_zero.symm
  simp only [hexcess]
  constructor
  · rintro h pre a hp s hs ⟨t, w, data, rfl, call, unlocked, dead, not_done⟩
    -- The step that loses count does not fault, and leaves an excess.
    have hstep : s.step (.run t w) = .ok (s.goto t .idle) := by
      simp only [step, not_done, and_false, if_false, proceed, call, unlocked, dead]
      rfl
    have h₁ := h pre ((List.prefix_append pre _).trans hp) s hs
    have h₂ := h _ hp _ (exec_concat.mpr ⟨s, hs, hstep⟩)
    rw [excess_goto rfl, call, h₁] at h₂
    simp [Call.count, Call.isCounted] at h₂
  · intro h pre hpre s hs
    refine exec_invariant (I := fun s : Users ι α => s.excess = 0) ?_ (fun s a s' hI ha hok => ?_) h
      pre hpre s hs
    · simp [excess, inProgress, init, Call.isCounted]
    · rcases step_cases hok with rfl | he
      · exact hI
      · rcases excess_step he with heq | ⟨hloses, -⟩
        · rw [heq, hI]
        · exact absurd hloses ha

/-- A `SafeEnque` that counted itself finds `destroyed` set under the lock: it returns, and no call is
in progress, but `SafeDestroy` waits for one. -/
theorem usedNum_lost : ∃ s,
    exec step (init : Users (Fin 1) ℕ) [.enque 0 7, .run 0 none, .destroy, .run 0 none, .destroy,
      .destroy] = .ok s ∧ s.usedNum ≠ s.inProgress.card ∧ s.destroyer = .waits := by
  obtain ⟨s, hs, hcall, hused, hdestroyer⟩ : ∃ s, exec step (init : Users (Fin 1) ℕ) [.enque 0 7,
      .run 0 none, .destroy, .run 0 none, .destroy, .destroy] = .ok s ∧ s.calls 0 = .idle ∧
      s.usedNum = 1 ∧ s.destroyer = .waits := ⟨_, rfl, rfl, rfl, rfl⟩
  refine ⟨s, hs, ?_, hdestroyer⟩
  have hempty : s.inProgress = ∅ := by
    refine Finset.filter_eq_empty_iff.mpr fun u _ => ?_
    obtain rfl : u = 0 := Subsingleton.elim _ _
    simp [hcall, Call.isCounted]
  simp [hempty, hused]

/-! ## After the queue is destroyed -/

/-- `SafeDestroy` has left its wait. -/
def Gone (s : Users ι α) : Prop := s.destroyer = .left ∨ s.destroyer = .done

/-- No thread is in a call, and a call returns as soon as it has read `destroyed`. -/
def Unused (s : Users ι α) : Prop := s.destroyed = true ∧ ∀ t, s.calls t = .idle

/-- If `SafeDestroy` leaves its wait in the step, no thread has tested `destroyed` and not yet counted
itself. -/
def NoneToCount (s : Users ι α) (a : QueueAction ι α) : Prop :=
  a = .destroy → s.destroyer = .broadcast → s.usedNum ≤ 0 →
    ∀ t, (∀ data, s.calls t ≠ .enqueTested data) ∧ s.calls t ≠ .dequeTested

/-- `usedNum` counts at least the calls in progress; and no thread uses the queue after `SafeDestroy`
left its wait. -/
structure Deserted (s : Users ι α) : Prop where
  excess : 0 ≤ s.excess
  flag : s.destroyer ≠ .notCalled → s.destroyed = true
  gone : s.Gone → ∀ t, s.calls t = .idle

theorem Deserted.step (h : s.Deserted) (ha : s.NoneToCount a) (he : s.Effect a s') :
    s'.Deserted := by
  have hexcess : 0 ≤ s'.excess := by
    have := h.excess
    rcases excess_step he with heq | ⟨-, heq⟩ <;> omega
  have hflag : s'.destroyer ≠ .notCalled → s'.destroyed = true := by
    have := h.flag
    cases he <;> simp only [goto, discount, answer] <;> grind
  refine ⟨hexcess, hflag, ?_⟩
  have hgone := h.gone
  cases he with
  | leaves destroyer unused =>
    -- No call is counted, and none is about to be.
    intro _ t
    have hcard : s.inProgress.card = 0 := by
      have := h.excess
      simp only [Users.excess] at this
      omega
    have ht : ¬ (s.calls t).isCounted := by
      have := Finset.filter_eq_empty_iff.mp (Finset.card_eq_zero.mp hcard) (Finset.mem_univ t)
      exact this
    have htested := ha rfl destroyer unused t
    show s.calls t = .idle
    cases hc : s.calls t <;> grind [Call.isCounted]
  | _ =>
    have := h.flag
    simp only [Gone, goto, discount, answer, Function.update_apply] at hgone ⊢
    grind

/-- In a run of any number of threads with one that destroys the queue, no thread uses the queue in any
state reached after `SafeDestroy` left its wait exactly when no thread has tested `destroyed` and not
yet counted itself as `SafeDestroy` leaves its wait. -/
theorem destroyed_unused_iff (as : List (QueueAction ι α)) :
    (∀ pre, pre <+: as → ∀ s, exec step (init : Users ι α) pre = .ok s → s.Gone → s.Unused) ↔
    Meets step NoneToCount (init : Users ι α) as := by
  constructor
  · rintro h pre a hp s hs rfl hd hused t
    -- After the step the thread is where it was.
    have hstep : s.step .destroy = .ok { s with destroyer := .left } := by
      simp only [step, destroyStep, hd, not_lt.mpr hused, if_false]
      rfl
    have hidle := (h _ hp _ (exec_concat.mpr ⟨s, hs, hstep⟩) (Or.inl rfl)).2 t
    have hidle' : s.calls t = .idle := hidle
    simp [hidle']
  · intro h pre hpre s hs hgone
    have hinit : (init : Users ι α).Deserted := by
      refine ⟨?_, by simp [init], by simp [init]⟩
      simp [Users.excess, inProgress, init, Call.isCounted]
    have hdeserted := exec_invariant (I := Deserted) hinit (fun s a s' hI ha hok => by
      rcases step_cases hok with rfl | he
      · exact hI
      · exact hI.step ha he) h pre hpre s hs
    refine ⟨hdeserted.flag ?_, hdeserted.gone hgone⟩
    rcases hgone with hg | hg <;> simp [hg]

/-- A thread that tested `destroyed` before it was set locks `numMut` after it is destroyed. -/
theorem destroyed_is_used : (∃ s, exec step (init : Users (Fin 1) ℕ) [.enque 0 7, .destroy, .destroy,
      .destroy, .destroy] = .ok s ∧ s.Gone ∧ ¬ s.Unused) ∧
    exec step (init : Users (Fin 1) ℕ) [.enque 0 7, .destroy, .destroy, .destroy, .destroy,
      .run 0 none] = .error .badPointer := by
  obtain ⟨s, hs, hcall, hdestroyer⟩ : ∃ s, exec step (init : Users (Fin 1) ℕ) [.enque 0 7, .destroy,
      .destroy, .destroy, .destroy] = .ok s ∧ s.calls 0 = .enqueTested 7 ∧ s.destroyer = .done :=
    ⟨_, rfl, rfl, rfl⟩
  refine ⟨⟨s, hs, Or.inr hdestroyer, fun h => ?_⟩, rfl⟩
  have := hcall.symm.trans (h.2 0)
  cases this

end Users

end DnsRelayer
