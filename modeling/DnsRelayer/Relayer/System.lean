import DnsRelayer.Server.Item
import DnsRelayer.Pool.Queue
import DnsRelayer.Lib.Record
import Mathlib.Data.Fintype.Option

/-!
# The relayer of `src/relayer.c`

`main` receives datagrams into one buffer and one `sockaddr_in`, which keep what they have between the
turns of its loop, and adds a task for each to the queue of the thread pool. A worker takes a task off
the queue and runs `handler` on it, which sends the message to the server and what the server answers
to the client.

The state is the two variables of `main`, the queue as the threads of the pool use it, and what the
workers have to run. A step is a turn of the loop of `main`, a step of a thread in a call on the queue, or
an operation of a handler. A task has the datagram that it was made for, for the record.

Memory of a thread's own (`malloc` and `free` of messages, arguments and tasks) is not modelled, nor
is what is printed.
-/

namespace DnsRelayer.Relayer

open Lib

/-- The struct `sockaddr_in` as it lies in memory: two bytes of the family, two of the port, four of
the address, and eight that are not used. -/
structure SockAddr where
  bytes : List UInt8
  length_eq : bytes.length = 16
  deriving DecidableEq

/-- The port, in network order. -/
def SockAddr.sin_port (a : SockAddr) : List UInt8 := (a.bytes.drop 2).take 2

/-- The address, in network order. -/
def SockAddr.sin_addr (a : SockAddr) : List UInt8 := (a.bytes.drop 4).take 4

/-- What `recvfrom` makes of an address: it stores at most `cliLen` bytes of that of the sender. -/
def SockAddr.store (a : SockAddr) (cliLen : ℕ) (sender : SockAddr) : SockAddr where
  bytes := sender.bytes.take cliLen ++ a.bytes.drop cliLen
  length_eq := by
    rw [List.length_append, List.length_take, List.length_drop, a.length_eq, sender.length_eq]
    omega

/-- A datagram that arrives, and where it comes from. -/
structure Datagram where
  sender : SockAddr
  bytes : List UInt8
  deriving DecidableEq

/-- The struct `arg`. -/
structure Arg where
  msg : Message
  cliAddr : SockAddr

/-- A task, with its argument and the datagram that it was made for. -/
structure Task where
  arg : Arg
  request : Datagram

/-! ## The handler -/

/-- The operations of the handler. Its socket is its own. -/
inductive Op where
  | Socket
  | sendtoServer (addr bytes : List UInt8)
  | recvfrom
  | sendto (cliAddr : SockAddr) (bytes : List UInt8)
  | Close

/-- The results of the operations. -/
@[reducible]
def Res : Op → Type
  | .sendtoServer _ _ => Bool
  | .recvfrom => Option (List UInt8)
  | _ => Unit

/-- Call an operation. -/
def call (o : Op) : Prog Op Res Fault (Res o) := Prog.op o

/-- `DNS_IP`. -/
def DNS_IP : List UInt8 := [49, 57, 50, 46, 49, 54, 56, 46, 52, 51, 46, 49]

/-- `handler`. -/
def handler (pa : Arg) : Prog Op Res Fault Unit := do
  let buff ← Prog.ofExcept (encode pa.msg)
  if buff.length > BUFF_SIZE then Prog.fail .overrun
  else
    call .Socket
    match inet_pton DNS_IP with
    | none => return
    | some sin_addr =>
      if ← call (.sendtoServer sin_addr buff) then
        match ← call .recvfrom with
        -- The argument is not freed, and the socket not closed.
        | none => return
        | some response =>
          call (.sendto pa.cliAddr response)
          call .Close
      else Prog.fail .exits

/-- What comes from outside in an operation: whether there is a descriptor for a socket, whether a
packet to the server could be sent, and what the server answered, if anything. -/
structure Env where
  opened : Bool
  sent : Bool
  response : Option (List UInt8)
  deriving DecidableEq

/-- What an operation does to the number of open sockets, and what it returns. -/
def perform : (o : Op) → Env → ℕ → Run (Res o × ℕ)
  | .Socket, e, sockets => if e.opened then .ok ((), sockets + 1) else .error .exits
  | .sendtoServer _ _, e, sockets => .ok (e.sent, sockets)
  | .recvfrom, e, sockets => .ok (e.response.map (·.take BUFF_SIZE), sockets)
  | .sendto _ _, _, sockets => .ok ((), sockets)
  | .Close, _, sockets => .ok ((), sockets - 1)

/-! ## The threads -/

/-- The variables `cliAddr` and `buff` of `main`, the queue of tasks, which `main` (`none`) and the
workers use, and the workers. -/
structure State (ι : Type) where
  cliAddr : SockAddr
  buff : List UInt8
  tasks : Users (Option ι) Task
  workers : Recorded ι ℕ Task Op Res Fault

/-- A step: `recvfrom` of `main` returns, with a datagram or with a failure; `main` takes a step in
`AddTask`; a worker calls `SafeDeque`, takes a step in it or wakes up in it; or it takes a step of the
handler of its task. -/
inductive Action (ι : Type) where
  | receive (d : Option Datagram)
  | addTask (woken : Option (Option ι))
  | deque (t : ι)
  | dequeue (t : ι) (woken : Option (Option ι))
  | wake (t : ι)
  | run (t : ι) (e : Env)
  deriving DecidableEq

/-- Size of a `socklen_t`. -/
def SIZEOF_SOCKLEN_T : ℕ := 4

namespace State

variable {ι : Type}

/-- The threads at their start, with what is in the variables of `main`, which it does not set. -/
def init (cliAddr : SockAddr) (buff : List UInt8) : State ι :=
  ⟨cliAddr, buff, Users.init, Recorded.init 0⟩

variable [DecidableEq ι] [Fintype ι]

/-- A turn of the loop of `main`, up to the call of `AddTask`. -/
def receive (s : State ι) (d : Datagram) : Run (State ι) := do
  let cliLen := SIZEOF_SOCKLEN_T
  let cliAddr := s.cliAddr.store cliLen d.sender
  let bytes := d.bytes.take BUFF_SIZE
  let buff := bytes ++ s.buff.drop bytes.length
  let (msg, _) ← decode buff
  let tasks ← s.tasks.step (.enque none ⟨⟨msg, cliAddr⟩, d⟩)
  return { s with cliAddr := cliAddr, buff := buff, tasks := tasks }

/-- A step of the workers. -/
def work (s : State ι) (a : PoolAction ι Task Env Unit) : Run (State ι) := do
  let workers ← s.workers.step (fun task => handler task.arg) perform (fun _ sockets => sockets) a
  return { s with workers := workers }

/-- A step of a worker in `SafeDeque`. When it returns, the worker has a task to run. -/
def dequeue (s : State ι) (t : ι) (woken : Option (Option ι)) : Run (State ι) := do
  let tasks ← s.tasks.step (.run (some t) woken)
  match s.tasks.calls (some t) with
  | .dequeLeaves (some task) => ({ s with tasks := tasks } : State ι).work (.start t task)
  | _ => return { s with tasks := tasks }

/-- A step. `main` receives when it is in no call, and a worker calls `SafeDeque` when it has no
task. -/
def step (s : State ι) : Action ι → Run (State ι)
  | .receive none => throw .exits
  | .receive (some d) => if (s.tasks.calls none).isIdle then s.receive d else return s
  | .addTask woken => do
    let tasks ← s.tasks.step (.run none woken)
    return { s with tasks := tasks }
  | .deque t =>
    match s.workers.pool.threads t with
    | none => do
      let tasks ← s.tasks.step (.deque (some t))
      return { s with tasks := tasks }
    | some _ => return s
  | .dequeue t woken => s.dequeue t woken
  | .wake t => do
    let tasks ← s.tasks.step (.wake (some t))
    return { s with tasks := tasks }
  | .run t e => s.work (.run t e)

/-- The handler of a task is at work, or has ended. -/
def Invoked (s : State ι) (i : Invocation Task Op Res) : Prop :=
  i ∈ s.workers.ended ∨ ∃ t, s.workers.going t = some i

end State

/-- What a call sends to a client. -/
def sentTo : Called Op Res → Option (SockAddr × List UInt8)
  | ⟨.sendto cliAddr bytes, _⟩ => some (cliAddr, bytes)
  | _ => none

/-- What a handler sent to clients. -/
def replies (i : Invocation Task Op Res) : List (SockAddr × List UInt8) := i.calls.filterMap sentTo

/-- A datagram is what the server answered to the request of a handler. -/
def Exchanged (i : Invocation Task Op Res) (bytes : List UInt8) : Prop :=
  ∃ addr query, inet_pton DNS_IP = some addr ∧ encode i.job.arg.msg = .ok query ∧
    ∃ before after, i.calls = before ++ ⟨.sendtoServer addr query, true⟩ ::
      ⟨.recvfrom, some bytes⟩ :: after

end DnsRelayer.Relayer
