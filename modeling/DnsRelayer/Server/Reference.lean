import DnsRelayer.Server.Matching
import DnsRelayer.Server.Calls
import DnsRelayer.Lib.Record

/-!
# The server on the reference cache

The same handlers on a cache that is the reference map: `CacheGet` and `CachePut` are single
operations on its entries, and a handler has a copy of what `CacheGet` found. Anything else is as in
the server. `RefStep` is for runs over standard queries and responses, and `HandlerCall` is what a
handler called.
-/

namespace DnsRelayer

open Lib

/-- The state of the server, whose cache is not used, the entries of the reference map, and the items
that were found in it. -/
structure RefServer where
  server : Server
  entries : List (Lib.Entry (List UInt8) Item)
  found : List Item

/-- What an operation does, and what it returns. -/
def performRef (fr : FileReader) (maxSize : ℕ) : (o : Op) → Env → RefServer → Run (Res o × RefServer)
  | .cacheGetLocked key, _, s =>
    match Lru.get key s.server.now s.entries with
    | (none, entries) => .ok (none, { s with entries := entries })
    | (some it, entries) =>
      .ok (some s.found.length, { s with entries := entries, found := s.found ++ [it] })
  | .cacheGetCopy lkn, _, s =>
    match s.found[lkn]? with
    | some it => .ok (it, s)
    | none => .error .badPointer
  | .cachePut key it TTL, _, s =>
    .ok ((), { s with entries := Lru.put maxSize key it TTL s.server.now s.entries })
  | o, e, s => do
    let (r, server) ← perform fr o e s.server
    return (r, { s with server := server })

/-- The clock changes. -/
def RefServer.setClock (now : ℤ) (s : RefServer) : RefServer :=
  { s with server := s.server.setClock now }

/-- The workers on the reference cache, with what their handlers called. -/
abbrev RefWorkers (ι : Type) := Recorded ι RefServer Arg Op Res Fault

/-- The step of the server on the reference cache. -/
def refStep {ι : Type} [DecidableEq ι] (fr : FileReader) (maxSize : ℕ) :
    RefWorkers ι → ServerAction ι → Run (RefWorkers ι) :=
  Recorded.step (handler fr) (performRef fr maxSize) RefServer.setClock

/-- What is recorded does not matter: a run of the reference is one of the workers that run their
handlers on the reference cache. -/
theorem exec_refStep {ι : Type} [DecidableEq ι] (fr : FileReader) (maxSize : ℕ) (s : RefWorkers ι)
    (as : List (ServerAction ι)) : (exec (refStep fr maxSize) s as).map Recorded.pool =
      exec (Pool.step (handler fr) (performRef fr maxSize) RefServer.setClock) s.pool as :=
  s.exec_pool as

/-- The server at its start. -/
def refInit {ι : Type} (fr : FileReader) (now : ℤ) : RefWorkers ι :=
  Recorded.init ⟨⟨now, createCache 0, fr.fd.length, 0, [], []⟩, [], []⟩

/-! ## Standard traffic -/

/-- A request that is a standard query. -/
def StandardQuery (parg : Arg) : Prop :=
  ∃ m n q, decode (parg.buff.bytes ++ parg.buff.rest) = .ok (m, n) ∧ Standard m q

/-- A response with names of 1 to 43 bytes in its answer section, addresses of four bytes, and at most
ten records of each type that is cached. -/
structure StandardResponse (d : Received) : Prop where
  decodes : ∃ m n, decode (d.bytes ++ d.rest) = .ok (m, n)
  name : ∀ rr ∈ d.answers, Named rr.name
  data : ∀ rr ∈ d.answers, rr.type = A → rr.data.length = 4
  target : ∀ rr ∈ d.answers, rr.type = NS ∨ rr.type = CNAME → Named rr.string_data
  few : ∀ type, Cached type → (d.answers.filter (·.type = type)).length ≤ MAX_NUM

/-- Standard queries and responses. -/
def standard (scan : List UInt8 → ℕ → ℕ → Prop) : Conditions :=
  ⟨StandardQuery, StandardResponse, scan, False⟩

/-- An operation is as the conditions say, and there is a descriptor for a socket. -/
def RefOp (C : Conditions) (s : RefServer) (o : Op) (e : Env) : Prop :=
  C.Op s.server o e ∧ (o = .Socket → e.opened = true)

/-- A step is as the conditions say, and there is a descriptor for a socket. -/
def RefStep {ι : Type} (C : Conditions) (s : RefWorkers ι) : ServerAction ι → Prop
  | .start _ parg => C.request parg
  | .run t e => ∀ o k, s.pool.threads t = some (.call o k) → RefOp C s.pool.shared o e
  | .outside _ => C.steady → s.pool.Idle

/-! ## What a handler called -/

/-- A call of the handler, with its result. -/
abbrev HandlerCall := Called Op Res

namespace HandlerCall

/-- The datagram that a call sent to a client. -/
def sent : HandlerCall → List (Arg × Reply)
  | ⟨.sendto parg reply, _⟩ => [(parg, reply)]
  | _ => []

/-- The response that a call received. -/
def received : HandlerCall → List Received
  | ⟨.recvfrom, r⟩ => r.toList
  | _ => []

/-- The item that a call found in the cache. -/
def got : HandlerCall → List Item
  | ⟨.cacheGetCopy _, it⟩ => [it]
  | _ => []

/-- The time that a call read. -/
def clock : HandlerCall → List ℤ
  | ⟨.time, now⟩ => [now]
  | _ => []

end HandlerCall

/-- A reply to a request with a question is the only response that was received, unchanged, or else it
is read as an answer to the request, with the records of the items that are served. -/
def Matching (lines : List Line) (m : Message) (q : Question) (cs : List HandlerCall) : Reply → Prop
  | .forwarded bytes => ∃ d, cs.flatMap HandlerCall.received = [d] ∧ bytes = d.bytes ∧
      Served lines q (cs.flatMap HandlerCall.got) []
  | .built _ bytes => cs.flatMap HandlerCall.received = [] ∧ ∃ served : List (Item × ℤ),
      Served lines q (cs.flatMap HandlerCall.got) (served.map (·.1)) ∧
      (∀ p ∈ served, p.2 ∈ cs.flatMap HandlerCall.clock) ∧
      ∀ tail, ∃ m', decode (bytes ++ tail) = .ok (m', bytes.length) ∧ Answers m q m' ∧
        m'.rcode = servedRCODE (served.map (·.1)) ∧
        m'.resourse_record.ANSWER.map RR.content = (servedRecords served).map RR.content

/-- The calls of a handler sent one datagram, to its own client, which matches its request. -/
def Replied (lines : List Line) (parg : Arg) (cs : List HandlerCall) : Prop :=
  ∃ m n q reply, decode (parg.buff.bytes ++ parg.buff.rest) = .ok (m, n) ∧ m.ques = [q] ∧
    cs.flatMap HandlerCall.sent = [(parg, reply)] ∧ Matching lines m q cs reply

end DnsRelayer
