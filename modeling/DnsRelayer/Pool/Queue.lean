import DnsRelayer.Basic
import DnsRelayer.Lib.Runs
import Mathlib.Data.Fintype.Basic

/-!
# The task queue of `src/pool/queue.c`

Threads call `SafeEnque` and `SafeDeque` on one queue, and one more thread calls `SafeDestroy`. A
step is what a thread does between two points where others may come in between: a read of
`destroyed` without a lock, a section under `numMut`, a section under `q_lock`, a signal. In
`SafeDeque` the test of the loop, the wait, which releases the lock and blocks at once, and what
comes after the loop are steps of their own: `SafeDestroy` sets `destroyed` without the lock, so that
it may be set between them. The lock is held from the test to the end of the next step.

`pthread_cond_signal` wakes one of the threads that are blocked, if there is one, and a thread that
is blocked may wake at any time without one. What was enqueued, taken and returned is kept for the
record.
-/

namespace DnsRelayer

open Lib

/-- The struct `QueNode`. The node at the head is not used: its data is never set. -/
structure QueNode (α : Type) where
  data : Option α
  next : ℕ

/-- Where a thread is in a call. -/
inductive Call (α : Type) where
  | idle
  /-- `SafeEnque` found the queue not destroyed, and counts itself next. -/
  | enqueTested (data : α)
  | enqueCounted (data : α)
  /-- The node is in the queue, and the signal comes next. -/
  | enqueLinked
  | enqueSignalled
  /-- `SafeDeque` found the queue not destroyed, and counts itself next. -/
  | dequeTested
  /-- It takes the lock next, for its first test or after it woke up. -/
  | dequeCounted
  /-- It has the lock and is to wait. -/
  | dequeWaits
  | dequeBlocked
  /-- It has the lock and is past its loop. -/
  | dequePassed
  /-- It released the lock, and is to return this. -/
  | dequeLeaves (data : Option α)

/-- The thread is in no call. -/
def Call.isIdle {α : Type} : Call α → Bool
  | .idle => true
  | _ => false

/-- The thread is in `pthread_cond_wait`. -/
def Call.isBlocked {α : Type} : Call α → Bool
  | .dequeBlocked => true
  | _ => false

/-- Where `SafeDestroy` is. -/
inductive Destroyer where
  | notCalled
  | flagged
  | broadcast
  /-- It is blocked until no thread uses the queue. -/
  | waits
  /-- It is past its wait, and frees the nodes and destroys the locks next. -/
  | left
  | done
  deriving DecidableEq

/-- A step: a thread calls a function of the queue or takes its next step, where a signal wakes the
given thread, or wakes up without a signal; or the same of the thread that calls `SafeDestroy`. -/
inductive QueueAction (ι α : Type) where
  | enque (t : ι) (data : α)
  | deque (t : ι)
  | run (t : ι) (woken : Option ι)
  | wake (t : ι)
  | destroy
  | wakeDestroyer

/-- The struct `SafeQueue` with the memory of its nodes, who has the lock, and where the threads
are. -/
structure Users (ι α : Type) where
  head : ℕ
  tail : ℕ
  nodes : ℕ → Option (QueNode α)
  brk : ℕ
  destroyed : Bool
  usedNum : ℤ
  q_lock : Option ι
  calls : ι → Call α
  destroyer : Destroyer
  enqueued : List α
  taken : List (ι × α)
  returned : ι → List α

namespace Users

variable {ι α : Type} [DecidableEq ι]

/-- `NewSafeQueue`: the head is the only node, and no thread has called. -/
def init : Users ι α where
  head := 1
  tail := 1
  nodes := Function.update (fun _ => none) 1 (some ⟨none, NULL⟩)
  brk := 2
  destroyed := false
  usedNum := 0
  q_lock := none
  calls _ := .idle
  destroyer := .notCalled
  enqueued := []
  taken := []
  returned _ := []

/-- The thread is at another point. -/
def goto (s : Users ι α) (t : ι) (c : Call α) : Users ι α :=
  { s with calls := Function.update s.calls t c }

/-- The node at an address. -/
def node (s : Users ι α) (a : ℕ) : Run (QueNode α) :=
  match s.nodes a with
  | some n => .ok n
  | none => .error .badPointer

/-- Link a new node behind the last one. -/
def link (s : Users ι α) (data : α) : Run (Users ι α) := do
  let last ← s.node s.tail
  return { s with
    nodes := Function.update (Function.update s.nodes s.tail (some { last with next := s.brk }))
      s.brk (some ⟨some data, NULL⟩)
    tail := s.brk
    brk := s.brk + 1
    enqueued := s.enqueued ++ [data] }

/-- Unlink the first node behind the head and free it: its data. -/
def unlink (s : Users ι α) (t : ι) : Run (α × Users ι α) := do
  let first ← s.node s.head
  let n ← s.node first.next
  match n.data with
  | none => throw .uninit
  | some data =>
    return (data, { s with
      nodes := Function.update (Function.update s.nodes s.head (some { first with next := n.next }))
        first.next none
      tail := if first.next = s.tail then s.head else s.tail
      taken := s.taken ++ [(t, data)] })

/-- The end of a call: the thread does not use the queue any more, and signals that. -/
def discount (s : Users ι α) : Users ι α :=
  { s with
    usedNum := s.usedNum - 1
    destroyer := if s.destroyer = .waits then .broadcast else s.destroyer }

/-- A call returns. -/
def answer (s : Users ι α) (t : ι) (data : Option α) : Users ι α :=
  { s with returned := Function.update s.returned t (s.returned t ++ data.toList) }

variable [Fintype ι]

/-- The next step of a thread in a call. A thread that finds the lock taken takes no step. The signal
of `SafeEnque` wakes the thread that is given, which has to be blocked, or none if none is. -/
def proceed (s : Users ι α) (t : ι) (woken : Option ι) : Run (Users ι α) :=
  match s.calls t with
  | .idle | .dequeBlocked => return s
  | .enqueTested data => return { s with usedNum := s.usedNum + 1 }.goto t (.enqueCounted data)
  | .enqueCounted data =>
    if s.q_lock.isSome then return s
    -- The call returns, and is still counted.
    else if s.destroyed then return s.goto t .idle
    else do
      let s ← s.link data
      return s.goto t .enqueLinked
  | .enqueLinked =>
    match woken with
    | some u =>
      if (s.calls u).isBlocked then return (s.goto u .dequeCounted).goto t .enqueSignalled
      else return s
    | none =>
      if ∀ u, ¬ (s.calls u).isBlocked then return s.goto t .enqueSignalled else return s
  | .enqueSignalled => return s.discount.goto t .idle
  | .dequeTested => return { s with usedNum := s.usedNum + 1 }.goto t .dequeCounted
  | .dequeCounted =>
    if s.q_lock.isSome then return s
    else if ¬ s.destroyed ∧ s.head = s.tail then
      return { s with q_lock := some t }.goto t .dequeWaits
    else return { s with q_lock := some t }.goto t .dequePassed
  | .dequeWaits => return { s with q_lock := none }.goto t .dequeBlocked
  | .dequePassed =>
    if s.destroyed then return { s with q_lock := none }.goto t (.dequeLeaves none)
    else do
      let (data, s) ← s.unlink t
      return { s with q_lock := none }.goto t (.dequeLeaves (some data))
  | .dequeLeaves data => return (s.discount.answer t data).goto t .idle

/-- The loop of `SafeDestroy` that frees the nodes, from the address `t` on. There are fewer nodes
than addresses that were handed out. -/
def freeNodes : ℕ → ℕ → (ℕ → Option (QueNode α)) → Run (ℕ → Option (QueNode α))
  | 0, _, _ => .error .diverges
  | fuel + 1, t, nodes =>
    if t = NULL then .ok nodes
    else
      match nodes t with
      | none => .error .badPointer
      | some n => freeNodes fuel n.next (Function.update nodes t none)

/-- The next step of `SafeDestroy`. -/
def destroyStep (s : Users ι α) : Run (Users ι α) :=
  match s.destroyer with
  | .notCalled => return { s with destroyed := true, destroyer := .flagged }
  | .flagged => return { s with
      calls := fun t => if (s.calls t).isBlocked then .dequeCounted else s.calls t
      destroyer := .broadcast }
  | .broadcast => return { s with destroyer := if s.usedNum > 0 then .waits else .left }
  | .left => do
    let nodes ← freeNodes (s.brk + 1) s.head s.nodes
    return { s with nodes := nodes, destroyer := .done }
  | .waits | .done => return s

/-- A step. A call of a thread that is in a call already is no step. In a call that is past its first
test, a thread uses the locks of the queue, which must not be destroyed. -/
def step (s : Users ι α) : QueueAction ι α → Run (Users ι α)
  | .enque t data =>
    if (s.calls t).isIdle ∧ ¬ s.destroyed then return s.goto t (.enqueTested data) else return s
  | .deque t =>
    if (s.calls t).isIdle ∧ ¬ s.destroyed then return s.goto t .dequeTested else return s
  | .run t woken =>
    if ¬ (s.calls t).isIdle ∧ s.destroyer = .done then throw .badPointer else s.proceed t woken
  | .wake t =>
    if (s.calls t).isBlocked then return s.goto t .dequeCounted else return s
  | .destroy => s.destroyStep
  | .wakeDestroyer =>
    if s.destroyer = .waits then return { s with destroyer := .broadcast } else return s

end Users

end DnsRelayer
