import DnsRelayer.Server.Handler

/-!
# The server: workers on shared state

The workers share the cache, the `FILE` of the local file, of which only the position changes, the
table of open sockets, and the clock. The state of the server has, besides, what has happened so far:
the responses that were received, and the replies that were sent. A run of the server is a run of the
pool of its workers: at any time a worker that is free takes a request, or a worker that has one
takes its next step, or the clock changes.
-/

namespace DnsRelayer

open Lib

/-- A response that was received. -/
structure Response where
  time : ℤ
  datagram : Received

/-- A reply that was sent. -/
structure Sent where
  time : ℤ
  parg : Arg
  reply : Reply

/-- The state that the workers share, and what has happened. -/
structure Server where
  now : ℤ
  cache : Cache Item
  pos : ℕ
  sockets : ℕ
  received : List Response
  replies : List Sent

/-- What comes from outside in a step: whether there is a descriptor for a socket, whether a packet to
the server could be sent, what the server answered, if anything, and whether what comes after the
table of `showRequest` can be read. -/
structure Env where
  opened : Bool
  sent : Bool
  response : Option Received
  readable : Bool

/-- Size of the table of names in `showRequest`. -/
def TYPENAME_SIZE : ℕ := 50

/-- What an operation does, and what it returns. -/
def perform (fr : FileReader) : (o : Op) → Env → Server → Run (Res o × Server)
  | .showRequest q_type, e, s =>
    if q_type.toNat < TYPENAME_SIZE ∨ e.readable then .ok ((), s)
    else .error (.outOfBounds q_type.toNat)
  | .time, _, s => .ok (s.now, s)
  | .cacheGetLocked key, _, s => do
    let (r, c) ← cacheGetLocked s.cache key s.now
    return (r, { s with cache := c })
  | .cacheGetCopy lkn, _, s => do
    let it ← cacheGetCopy s.cache lkn
    return (it, s)
  | .cachePut key it TTL, _, s => do
    let c ← cachePut s.cache key it TTL s.now
    return ((), { s with cache := c })
  | .fseek cur, _, s => .ok ((), { s with pos := cur })
  | .fscanf _ _, _, s => do
    let (ip, pos) ← file_reader_scan fr HANDLER_IP_SIZE s.pos
    return (ip, { s with pos := pos })
  | .Socket, e, s =>
    if e.opened then .ok ((), { s with sockets := s.sockets + 1 }) else .error .exits
  | .close, _, s => .ok ((), { s with sockets := s.sockets - 1 })
  | .sendtoServer _, e, s => .ok (e.sent, s)
  | .recvfrom, e, s =>
    match e.response with
    | none => .ok (none, s)
    | some d => .ok (some d, { s with received := ⟨s.now, d⟩ :: s.received })
  | .sendto parg reply, _, s => .ok ((), { s with replies := ⟨s.now, parg, reply⟩ :: s.replies })

/-- An operation that has to do neither with the cache nor with what is received or replied. -/
def Op.Aside : Op → Prop
  | .showRequest _ | .time | .fseek _ | .fscanf _ _ | .Socket | .close | .sendtoServer _ => True
  | .cacheGetLocked _ | .cacheGetCopy _ | .cachePut _ _ _ | .recvfrom | .sendto _ _ => False

/-- Such an operation leaves the cache, what happened, and the clock as they are. -/
theorem Op.Aside.same {fr : FileReader} {o : Op} {e : Env} {s s' : Server} {r : Res o}
    (ho : o.Aside) (h : perform fr o e s = .ok (r, s')) :
    s'.cache = s.cache ∧ s'.replies = s.replies ∧ s'.received = s.received ∧ s'.now = s.now := by
  cases o with
  | showRequest =>
    simp only [perform] at h
    split_ifs at h
    cases h
    exact ⟨rfl, rfl, rfl, rfl⟩
  | Socket =>
    simp only [perform] at h
    split_ifs at h
    cases h
    exact ⟨rfl, rfl, rfl, rfl⟩
  | fscanf =>
    obtain ⟨_, -, h⟩ := Run.bind_eq_ok.mp h
    cases h
    exact ⟨rfl, rfl, rfl, rfl⟩
  | time | fseek | close | sendtoServer =>
    cases h
    exact ⟨rfl, rfl, rfl, rfl⟩
  | _ => exact ho.elim

/-- What `recvfrom` returns is what came, and counts as received. -/
theorem perform_recvfrom {fr : FileReader} {e : Env} {s s' : Server} {r : Option Received}
    (h : perform fr .recvfrom e s = .ok (r, s')) : e.response = r ∧
      s' = { s with received := (r.map (Response.mk s.now)).toList ++ s.received } := by
  simp only [perform] at h
  split at h
  · rename_i hnone
    cases h
    exact ⟨hnone, rfl⟩
  · rename_i d hd
    cases h
    exact ⟨hd, rfl⟩

/-- The clock changes. -/
def Server.setClock (now : ℤ) (s : Server) : Server := { s with now := now }

/-- The workers, with what they still have to do, and the state that they share. -/
abbrev Workers (ι : Type) := Pool ι Server Op Res Fault

/-- A step of the server: a worker takes a request, or takes a step of its handler, or the clock
changes. -/
abbrev ServerAction (ι : Type) := PoolAction ι Arg Env ℤ

/-- The step of the server. -/
def serverStep {ι : Type} [DecidableEq ι] (fr : FileReader) :
    Workers ι → ServerAction ι → Run (Workers ι) :=
  Pool.step (handler fr) (perform fr) Server.setClock

/-- The server at its start: no worker is at work, the cache is empty, the position is where indexing
left it, at the end, and nothing happened. -/
def serverInit {ι : Type} (fr : FileReader) (cachesize now : ℤ) : Workers ι :=
  ⟨⟨now, createCache cachesize, fr.fd.length, 0, [], []⟩, fun _ => none⟩

/-! ## Conditions on runs -/

/-- The handler takes this from a request, with a reply that is begun. -/
def Asks (parg : Arg) (msg : Message) (q : Question) : Prop :=
  request (parg.buff.bytes ++ parg.buff.rest) = .ok (msg, q)

/-- A request is read in one way. -/
theorem Asks.unique {parg : Arg} {msg msg' : Message} {q q' : Question} (h : Asks parg msg q)
    (h' : Asks parg msg' q') : msg' = msg ∧ q' = q :=
  Prod.mk.inj (Except.ok.inj (h'.symm.trans h))

/-- What comes from outside, and when. -/
structure Conditions where
  request : Arg → Prop
  response : Received → Prop
  /-- How a `fscanf` for a domain may find the position, when the `fseek` of its lookup went to that of
  the line. -/
  scan : (domain : List UInt8) → (pos cur : ℕ) → Prop
  /-- The clock does not change while a handler is at work. -/
  steady : Prop

/-- An operation is as the conditions say. -/
def Conditions.Op (C : Conditions) (s : Server) (o : Op) (e : Env) : Prop :=
  match o with
  | .fscanf domain cur => C.scan domain s.pos cur
  | .recvfrom => ∀ d, e.response = some d → C.response d
  | _ => True

/-- A step is as the conditions say. -/
def Conditions.Step {ι : Type} (C : Conditions) (s : Workers ι) : ServerAction ι → Prop
  | .start _ parg => C.request parg
  | .run t e => ∀ o k, s.threads t = some (.call o k) → C.Op s.shared o e
  | .outside _ => C.steady → s.Idle

end DnsRelayer
