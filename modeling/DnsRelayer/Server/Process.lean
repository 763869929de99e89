import DnsRelayer.Server.Refinement
import DnsRelayer.Pool.Progress
import DnsRelayer.Cache.Memory
import DnsRelayer.Server.Sockets
import DnsRelayer.Lib.Ledger
import Mathlib.Data.Multiset.Bind

/-!
# The server from its receive loop to its replies

`main` of `src/server.c` receives datagrams, one after the other, and adds each, with the address that it came
from, to the thread pool, whose workers run `handler`. It does not leave its loop, so that the pool is not
closed. `Process` is the pool with `main` as its only client.

In a run that is as it should be no step faults, and each request is in the queue, at a worker, or has been
replied to, once (`process_serves`). In one without end, in which no thread that can go on is held up for
ever, every request that gets into the queue is replied to (`every_query_answered`).
-/

namespace DnsRelayer

open Lib

/-- The server: `main` adds requests to the pool, and its workers run handlers. -/
abbrev Process (ι : Type) := ThreadPool ι Unit Server Arg Op Res

/-- A step of the server. -/
abbrev ProcessAction (ι : Type) := ThreadPoolAction ι Unit Arg Env ℤ

variable {ι : Type} [DecidableEq ι] [Fintype ι]

/-- The step of the server. -/
def processStep (fr : FileReader) : Process ι → ProcessAction ι → Run (Process ι) :=
  ThreadPool.step (handler fr) (perform fr) Server.setClock

/-- The server as `main` gets to its loop. -/
def processInit (ids : List ι) (fr : FileReader) (cachesize now : ℤ) : Process ι :=
  ThreadPool.create ids ⟨now, createCache cachesize, fr.fd.length, 0, [], []⟩

/-- A request is as the conditions say, and so is a step of a worker in its handler, which leaves the entries
that are pending as they are and the table of the cache a chain, and is given a descriptor for its socket; the
pool is not closed. -/
def Orderly {ι : Type} (C : Conditions) (s : Process ι) : ProcessAction ι → Prop
  | .addTask _ parg => C.request parg
  | .run t e => OrderlyStep C s.workers (.run t e)
  | .outside now => OrderlyStep C s.workers (.outside now)
  | .close => False
  | _ => True

/-! ## What is sent -/

/-- The datagram that was sent to a client. -/
def Sent.datagram (s : Sent) : Arg × Reply := (s.parg, s.reply)

/-- The replies are what `sendto` was called with. -/
theorem perform_sent {fr : FileReader} {o : Op} {e : Env} {s s' : Server} {r : Res o}
    (h : perform fr o e s = .ok (r, s')) :
    s'.replies.map Sent.datagram = HandlerCall.sent ⟨o, r⟩ ++ s.replies.map Sent.datagram := by
  cases o with
  | sendto parg reply =>
    cases h
    rfl
  | recvfrom =>
    obtain ⟨-, rfl⟩ := perform_recvfrom h
    rfl
  | cacheGetLocked | cacheGetCopy | cachePut =>
    obtain ⟨_, -, h⟩ := Run.bind_eq_ok.mp h
    cases h
    rfl
  | _ =>
    obtain ⟨-, hreplies, -⟩ := Op.Aside.same (by exact trivial) h
    rw [hreplies]
    rfl

/-- The datagrams that calls sent. -/
def sentBy (cs : Multiset HandlerCall) : Multiset (Arg × Reply) :=
  cs.bind fun c => (c.sent : Multiset (Arg × Reply))

/-- The replies so far are those that the handlers sent. -/
def Accounted (w : LoggedWorkers ι) : Prop :=
  (w.pool.shared.replies.map Sent.datagram : Multiset (Arg × Reply)) = sentBy w.calls

theorem Accounted.step {fr : FileReader} {w w' : LoggedWorkers ι} (h : Accounted w)
    (hgoing : ∀ t, w.going t = none ↔ w.pool.threads t = none) {a : ServerAction ι}
    (hs : loggedStep fr w a = .ok w') : Accounted w' := by
  rcases Recorded.step_calls hgoing hs with ⟨o, e, r, hperf, hcalls⟩ | ⟨hcalls, hsame | ⟨x, hchange⟩⟩
  · rw [Accounted, perform_sent hperf, hcalls, sentBy, Multiset.cons_bind, ← Multiset.coe_add]
    exact congrArg _ h
  · rw [Accounted, hcalls, hsame]
    exact h
  · rw [Accounted, hcalls, hchange]
    exact h

omit [DecidableEq ι] in
/-- Handlers that have ended, each of which has replied, have replied once to each of their requests. -/
theorem Accounted.replies {lines : List Line} {w : LoggedWorkers ι} (h : Accounted w)
    (hended : ∀ i ∈ w.ended, Replied lines i.job i.calls) :
    (w.pool.shared.replies.map Sent.parg : Multiset Arg) =
      w.ended.map (·.job) + (sentBy (∑ t, (w.called t : Multiset HandlerCall))).map Prod.fst := by
  have hjobs : ∀ {is : List (Invocation Arg Op Res)}, (∀ i ∈ is, Replied lines i.job i.calls) →
      ((is.flatMap (·.calls)).flatMap HandlerCall.sent).map Prod.fst = is.map (·.job) := by
    intro is his
    induction is with
    | nil => rfl
    | cons i is ih =>
      obtain ⟨m, n, q, reply, -, -, hone, -⟩ := his i List.mem_cons_self
      rw [List.flatMap_cons, List.flatMap_append, List.map_append, hone,
        ih fun j hj => his j (List.mem_cons_of_mem i hj)]
      rfl
  have hmap : w.pool.shared.replies.map Sent.parg =
      (w.pool.shared.replies.map Sent.datagram).map Prod.fst := by
    rw [List.map_map]
    rfl
  rw [hmap, ← Multiset.map_coe, h, Recorded.calls, sentBy, Multiset.add_bind, Multiset.map_add,
    Multiset.coe_bind, Multiset.map_coe, hjobs hended]
  rfl

/-! ## Runs -/

/-- The conditions of a run: standard queries and responses, lookups that find the position of the `FILE` where
they left it, and what `Orderly` asks of the pending entries, the table and the sockets. -/
abbrev Calm : Process ι → ProcessAction ι → Prop := Orderly (standard fun _ pos cur => pos = cur)

/-- The pool is sound and open, only standard queries were added to it, handlers reply as they should, and the
replies are those that they sent. -/
structure Serving (fr : FileReader) (lines : List Line) (maxSize : ℕ) (s : Process ι) : Prop where
  sound : ∃ vs, s.Sound vs
  notCalled : s.q.destroyer = .notCalled
  closer : s.closer = .destroys
  only : s.q.Only StandardQuery
  workers : Replies fr lines maxSize s.workers
  accounted : Accounted s.workers

namespace Serving

variable {fr : FileReader} {lines : List Line} {maxSize : ℕ} {s s' : Process ι}

theorem init (ids : List ι) (fr : FileReader) (lines : List Line) (hmax : 1 ≤ maxSize)
    (hint : maxSize < 2 ^ 31) (now : ℤ) : Serving fr lines maxSize (processInit ids fr maxSize now) where
  sound := ⟨[], ThreadPool.create_sound ids _⟩
  notCalled := rfl
  closer := rfl
  only := Users.init_only
  workers := Replies.init fr lines hmax hint now
  accounted := by simp [Accounted, sentBy, processInit, ThreadPool.create, Recorded.init, Recorded.calls,
    Recorded.called]

/-- What the workers do in a step is as it should be. -/
theorem orderly (h : Serving fr lines maxSize s) {a : ProcessAction ι} (ha : Calm s a) {b : ServerAction ι}
    (hb : b ∈ s.does a) : OrderlyStep (standard fun _ pos cur => pos = cur) s.workers b := by
  cases b with
  | start t parg =>
    exact ⟨trivial, ThreadPool.mem_does h.sound h.only hb, fun u e k hu => by cases hu⟩
  | run t e =>
    cases a with
    | run u e' =>
      cases List.mem_singleton.mp hb
      exact ha
    | worker u w =>
      simp only [ThreadPool.does] at hb
      split at hb <;> simp at hb
    | outside x => cases List.mem_singleton.mp hb
    | _ => cases hb
  | outside now =>
    cases a with
    | outside x =>
      cases List.mem_singleton.mp hb
      exact ha
    | worker u w =>
      simp only [ThreadPool.does] at hb
      split at hb <;> simp at hb
    | run u e' => cases List.mem_singleton.mp hb
    | _ => cases hb

/-- A step that is as it should be does not fault, and the server goes on serving. -/
theorem step {fd : List UInt8} (hfile : FileText fd lines)
    (hdotted : ∀ l ∈ lines, ∃ addr, inet_pton (cstr l.ip) = some addr)
    (hfr : file_reader_alloc fd = .ok fr) (h : Serving fr lines maxSize s) {a : ProcessAction ι}
    (ha : Calm s a) : ∃ s', processStep fr s a = .ok s' ∧ Serving fr lines maxSize s' := by
  obtain ⟨vs, hsound⟩ := h.sound
  have hwork : ∀ b ∈ s.does a, ∃ w, loggedStep fr s.workers b = .ok w ∧ Replies fr lines maxSize w :=
    fun b hb => h.workers.step hfile hdotted hfr (h.orderly ha hb)
  obtain ⟨s', hs'⟩ := hsound.total (by simp [h.notCalled]) (by simp [h.closer]) a
    fun b hb => (hwork b hb).imp fun _ hw => hw.1
  refine ⟨s', hs', ?_⟩
  have hworkers : Replies fr lines maxSize s'.workers ∧ Accounted s'.workers := by
    rcases ThreadPool.step_does hs' with ⟨-, hsame⟩ | ⟨b, hb, hstep⟩
    · rw [hsame]
      exact ⟨h.workers, h.accounted⟩
    · obtain ⟨w, hw, hreplies⟩ := hwork b (hb ▸ List.mem_singleton_self b)
      obtain rfl := Except.ok.inj (hw.symm.trans hstep)
      exact ⟨hreplies, h.accounted.step hsound.going hstep⟩
  rcases ThreadPool.step_cases hs' with rfl | he
  · exact h
  have hclose : a ≠ .close := by
    rintro rfl
    exact ha
  refine ⟨hsound.step he, ?_, ?_, he.only h.only fun c parg hc => ?_, hworkers.1, hworkers.2⟩
  · rcases he.queue with heq | ⟨qa, hqa, htakes⟩
    · rw [heq]
      exact h.notCalled
    · refine hqa.notCalled h.notCalled ?_
      rintro rfl
      cases htakes
      exact hclose rfl
  · cases he with
    | frees | joins | returns => exact absurd rfl hclose
    | _ => exact h.closer
  · subst hc
    exact ha

/-- A run without end that is as it should be serves for ever. -/
theorem always {fd : List UInt8} (hfile : FileText fd lines)
    (hdotted : ∀ l ∈ lines, ∃ addr, inet_pton (cstr l.ip) = some addr)
    (hfr : file_reader_alloc fd = .ok fr)
    {r : Trace (processStep fr : Process ι → ProcessAction ι → Run (Process ι))}
    (h0 : Serving fr lines maxSize (r.state 0)) (hcalm : ∀ n, Calm (r.state n) (r.action n)) (m : ℕ) :
    Serving fr lines maxSize (r.state m) := by
  refine r.always h0 (fun m h => ?_) m
  obtain ⟨s', hs', h'⟩ := h.step hfile hdotted hfr (hcalm m)
  obtain rfl := Except.ok.inj ((r.steps m).symm.trans hs')
  exact h'

/-- What has been put into the queue has been replied to some time later, when no thread that can go on is
held up for ever. -/
theorem answers [Nonempty ι] {ids : List ι} {cachesize now : ℤ}
    {r : Trace (processStep fr : Process ι → ProcessAction ι → Run (Process ι))}
    (h0 : r.state 0 = processInit ids fr cachesize now) (hcalm : ∀ n, Calm (r.state n) (r.action n))
    (hserving : ∀ m, Serving fr lines maxSize (r.state m))
    (hfair : r.Fair (ThreadPool.CanMove (handler fr) (perform fr) Server.setClock)
      (ThreadPool.moves (handler fr) (perform fr) Server.setClock)) (n : ℕ) :
    ∃ m, n ≤ m ∧ (∀ i ∈ (r.state m).workers.ended, Replied lines i.job i.calls) ∧
      ((r.state n).q.enqueued : Multiset Arg) ≤ (r.state m).workers.ended.map (·.job) ∧
      ((r.state n).q.enqueued : Multiset Arg) ≤ (r.state m).workers.pool.shared.replies.map Sent.parg := by
  have hclose : ∀ m, r.action m ≠ .close := fun m hm => by
    have := hcalm m
    rw [hm] at this
    exact this
  obtain ⟨m, hm, hle⟩ := ThreadPool.ended_of_enqueued (ThreadPool.running_at h0 (within_handler fr) hclose)
    hfair n
  have hended := (hserving m).workers.ended
  refine ⟨m, hm, hended, hle, hle.trans ?_⟩
  rw [(hserving m).accounted.replies hended]
  exact Multiset.le_add_right _ _

end Serving

/-- **The server serves.** On a local file of well-formed lines with dotted addresses, in every run of the
server from its receive loop on, with any number of workers, that is calm (standard queries and responses,
lookups that find the position where they left it, pending entries left as they are, a table that keeps a chain
and its keys, a descriptor for every socket): no step faults; each request that was put into the queue is, as
often as it was, in the queue, at a worker that has not started it, at work, or ended; each handler that has
ended replied to its request, as it should; and the datagrams that were sent are one to each request that has
ended, and those that handlers under way have sent. -/
theorem process_serves {fd : List UInt8} {lines : List Line} {fr : FileReader} (hfile : FileText fd lines)
    (hdotted : ∀ l ∈ lines, ∃ addr, inet_pton (cstr l.ip) = some addr)
    (hfr : file_reader_alloc fd = .ok fr) {maxSize : ℕ} (hmax : 1 ≤ maxSize) (hint : maxSize < 2 ^ 31)
    (now : ℤ) (ids : List ι) {as : List (ProcessAction ι)}
    (has : Meets (processStep fr) Calm (processInit ids fr maxSize now) as) :
    ∃ s vs, exec (processStep fr) (processInit ids fr maxSize now) as = .ok s ∧ s.q.Holds vs ∧
      (s.q.enqueued : Multiset Arg) = s.workers.ended.map (·.job) + ∑ t, (s.current t : Multiset Arg) +
        ∑ t, ((s.q.calls (.inr t)).inFlight : Multiset Arg) + vs ∧
      (∀ i ∈ s.workers.ended, Replied lines i.job i.calls) ∧
      (s.workers.pool.shared.replies.map Sent.parg : Multiset Arg) = s.workers.ended.map (·.job) +
        (sentBy (∑ t, (s.workers.called t : Multiset HandlerCall))).map Prod.fst := by
  obtain ⟨s, hs, h⟩ := exec_total (Serving.init ids fr lines hmax hint now)
    (fun s a h ha => h.step hfile hdotted hfr ha) has as (List.prefix_refl as)
  obtain ⟨vs, hsound⟩ := h.sound
  exact ⟨s, vs, hs, hsound.q.holds (by simp [h.notCalled]), hsound.count, h.workers.ended,
    h.accounted.replies h.workers.ended⟩

/-- **Every query is answered.** On a local file of well-formed lines with dotted addresses, in a run of the
server without end that is calm, as for `process_serves`, and in which no thread that can go on is held up for
ever, every request that is put into the queue is replied to some time later, once for each time that it was put
there: a datagram is sent to its client, and what was sent matches the request. -/
theorem every_query_answered [Nonempty ι] {fd : List UInt8} {lines : List Line} {fr : FileReader}
    (hfile : FileText fd lines) (hdotted : ∀ l ∈ lines, ∃ addr, inet_pton (cstr l.ip) = some addr)
    (hfr : file_reader_alloc fd = .ok fr) {maxSize : ℕ} (hmax : 1 ≤ maxSize) (hint : maxSize < 2 ^ 31)
    (now : ℤ) (ids : List ι) {r : Trace (processStep fr : Process ι → ProcessAction ι → Run (Process ι))}
    (h0 : r.state 0 = processInit ids fr maxSize now) (hcalm : ∀ n, Calm (r.state n) (r.action n))
    (hfair : r.Fair (ThreadPool.CanMove (handler fr) (perform fr) Server.setClock)
      (ThreadPool.moves (handler fr) (perform fr) Server.setClock)) (n : ℕ) :
    ∃ m, n ≤ m ∧ (∀ i ∈ (r.state m).workers.ended, Replied lines i.job i.calls) ∧
      ((r.state n).q.enqueued : Multiset Arg) ≤ (r.state m).workers.ended.map (·.job) ∧
      ((r.state n).q.enqueued : Multiset Arg) ≤ (r.state m).workers.pool.shared.replies.map Sent.parg := by
  have hinit := h0 ▸ Serving.init ids fr lines hmax hint now
  exact Serving.answers h0 hcalm (Serving.always hfile hdotted hfr hinit hcalm) hfair n

/-! ## Memory -/

/-- The cache counts its list nodes, and has at most as many entries as it may. -/
def Bounded (maxSize : ℤ) (c : Cache Item) : Prop :=
  c.Counts ∧ c.maxSize = maxSize ∧ c.len ≤ max maxSize 0

/-- No operation of a handler lets the cache grow beyond its bound. -/
theorem bounded_perform {fr : FileReader} {maxSize : ℤ} {o : Op} {e : Env} {s s' : Server} {r : Res o}
    (h : Bounded maxSize s.cache) (hs : perform fr o e s = .ok (r, s')) : Bounded maxSize s'.cache := by
  obtain ⟨hc, rfl, hlen⟩ := h
  cases o with
  | cacheGetLocked key =>
    obtain ⟨⟨found, c⟩, hget, hs⟩ := Run.bind_eq_ok.mp hs
    cases hs
    obtain ⟨hc', hlen', hmax⟩ := hc.getLocked hget
    exact ⟨hc', hmax, hlen'.trans hlen⟩
  | cachePut key it TTL =>
    obtain ⟨c, hput, hs⟩ := Run.bind_eq_ok.mp hs
    cases hs
    obtain ⟨hc', hlen', hmax⟩ := hc.put hput
    exact ⟨hc', hmax, hlen'.trans (max_le hlen (le_max_left _ _))⟩
  | cacheGetCopy lkn =>
    obtain ⟨it, -, hs⟩ := Run.bind_eq_ok.mp hs
    cases hs
    exact ⟨hc, rfl, hlen⟩
  | recvfrom =>
    obtain ⟨-, rfl⟩ := perform_recvfrom hs
    exact ⟨hc, rfl, hlen⟩
  | sendto parg reply =>
    cases hs
    exact ⟨hc, rfl, hlen⟩
  | _ =>
    obtain ⟨hsame, -⟩ := Op.Aside.same (by exact trivial) hs
    rw [hsame]
    exact ⟨hc, rfl, hlen⟩

/-- A step of the server keeps the bound. -/
theorem bounded_step {fr : FileReader} {maxSize : ℤ} {s s' : Process ι} {a : ProcessAction ι}
    (h : Bounded maxSize s.workers.pool.shared.cache) (hs : processStep fr s a = .ok s') :
    Bounded maxSize s'.workers.pool.shared.cache := by
  rcases ThreadPool.step_does hs with ⟨-, hsame⟩ | ⟨b, -, hstep⟩
  · rw [hsame]
    exact h
  · have hpool : Pool.step (handler fr) (perform fr) Server.setClock s.workers.pool b = .ok s'.workers.pool := by
      rw [← Recorded.step_pool, hstep]
      rfl
    generalize s'.workers.pool = p at hpool ⊢
    cases Pool.step_cases hpool with
    | call has performs => exact bounded_perform h performs
    | _ => exact h

/-- **The memory of the cache is bounded.** In every run of the server that does not fault, whatever its workers
do and in whatever order, and whatever is asked and answered, the live list nodes of the cache are the sentinel
and as many as the cache counts, which are never more than its size. -/
theorem server_memory (ids : List ι) (fr : FileReader) (cachesize now : ℤ) {as : List (ProcessAction ι)}
    {s : Process ι} (hs : exec (processStep fr) (processInit ids fr cachesize now) as = .ok s) :
    (s.workers.pool.shared.cache.heap.live.card : ℤ) = s.workers.pool.shared.cache.len + 1 ∧
      s.workers.pool.shared.cache.len ≤ max cachesize 0 := by
  have hinit : Bounded cachesize (createCache cachesize) :=
    ⟨Cache.createCache_counts cachesize, rfl, le_max_right _ _⟩
  have hmeets : Meets (processStep fr) (fun _ _ => True) (processInit ids fr cachesize now) as :=
    meets_of_forall fun _ _ _ => trivial
  have h := exec_invariant (I := fun s : Process ι => Bounded cachesize s.workers.pool.shared.cache) hinit
    (fun s a s' h _ hs => bounded_step h hs) hmeets as (List.prefix_refl as) s hs
  exact ⟨h.1.live, h.2.2⟩

/-! ## Sockets -/

/-- A call for the server that failed: a packet that could not be sent, or a wait without a response. -/
def Failed : HandlerCall → Prop
  | ⟨.sendtoServer _, sent⟩ => sent = false
  | ⟨.recvfrom, d⟩ => d.isNone = true
  | _ => False

instance : DecidablePred Failed
  | ⟨.sendtoServer _, sent⟩ => inferInstanceAs (Decidable (sent = false))
  | ⟨.recvfrom, d⟩ => inferInstanceAs (Decidable (d.isNone = true))
  | ⟨.showRequest _, _⟩ | ⟨.time, _⟩ | ⟨.cacheGetLocked _, _⟩ | ⟨.cacheGetCopy _, _⟩ | ⟨.cachePut _ _ _, _⟩
  | ⟨.fseek _, _⟩ | ⟨.fscanf _ _, _⟩ | ⟨.Socket, _⟩ | ⟨.close, _⟩ | ⟨.sendto _ _, _⟩ =>
    inferInstanceAs (Decidable False)

/-- After these calls a handler has a socket open that it goes on to close. -/
def HasSocket (cs : List HandlerCall) : Prop := along socketAfter false cs = some true

instance (cs : List HandlerCall) : Decidable (HasSocket cs) := inferInstanceAs (Decidable (_ = _))

/-- A call fails when what comes from outside is so. -/
theorem failed_iff {fr : FileReader} {o : Op} {e : Env} {s s' : Server} {r : Res o}
    (h : perform fr o e s = .ok (r, s')) : Failed ⟨o, r⟩ ↔ ¬ Succeeds o e := by
  cases o with
  | sendtoServer bytes =>
    cases h
    simp [Failed, Succeeds]
  | recvfrom =>
    obtain ⟨hr, -⟩ := perform_recvfrom h
    simp [Failed, Succeeds, hr]
  | _ => simp [Failed, Succeeds]

/-- Operations change the number of open sockets as they change whether their handler has one to close, and a call
that fails leaves it open. -/
theorem counts_sockets (fr : FileReader) : Recorded.Counts (perform fr) socketAfter Failed Server.sockets := by
  intro o e s r s' b b' hnext hle hperf
  have hfailed := failed_iff hperf
  rcases sockets_of_perform hperf hnext hle with ⟨hok, heq⟩ | ⟨hfail, rfl, rfl, heq⟩
  · rw [if_neg fun h => hfailed.mp h hok, heq, add_zero]
  · rw [if_pos (hfailed.mpr hfail), heq]
    rfl

/-- **Sockets.** In every run of the server that does not fault, whatever its workers do and in whatever order, the
sockets that are open are one for each call for the server that has failed, which are never closed, and one for each
handler at work that has opened its socket and goes on to close it. -/
theorem server_sockets (ids : List ι) (fr : FileReader) (cachesize now : ℤ) {as : List (ProcessAction ι)}
    {s : Process ι} (hs : exec (processStep fr) (processInit ids fr cachesize now) as = .ok s) :
    s.workers.pool.shared.sockets = s.workers.calls.countP Failed +
      (Finset.univ.filter fun t => HasSocket (s.workers.called t)).card := by
  have hmeets : Meets (processStep fr) (fun _ _ => True) (processInit ids fr cachesize now) as :=
    meets_of_forall fun _ _ _ => trivial
  have hinit : (processInit ids fr cachesize now).workers.Kept (fun _ => True) (handler fr) socketAfter Failed
      Server.sockets := by
    refine Recorded.init_kept ?_
    rfl
  have hclock : ∀ now (s : Server), (s.setClock now).sockets = s.sockets := fun _ _ => rfl
  have h := exec_invariant
    (I := fun s : Process ι => s.workers.Kept (fun _ => True) (handler fr) socketAfter Failed Server.sockets)
    hinit (fun s a s' h _ hs => by
      rcases ThreadPool.step_does hs with ⟨-, hsame⟩ | ⟨b, -, hstep⟩
      · rw [hsame]
        exact h
      · exact h.step (counts_sockets fr) (handler_tracks fr) hclock (fun _ _ _ => trivial) hstep)
    hmeets as (List.prefix_refl as) s hs
  exact h.ledger.eq h.finished (handler_tracks fr)

/-! ## A query -/

/-- The address of `a` is asked for, read from the file by the one worker, and replied. -/
def oneQuery : List (ProcessAction Unit) :=
  .addTask () queryA :: List.replicate 4 (.client () none) ++ List.replicate 5 (.worker () none) ++
    List.replicate 11 (.run () silent) ++ List.replicate 4 (.worker () none)

/-- What is computed of the conditions on a step. -/
def Placed (s : Process Unit) : ProcessAction Unit → Prop
  | .run t e => Undisturbed s.workers (.run t e) ∧ InPlace Server.pos s.workers.pool (.run t e)
  | _ => True

instance : DecidableRel Placed
  | s, .run t e => inferInstanceAs (Decidable (Undisturbed s.workers (.run t e) ∧ _))
  | _, .addTask _ _ | _, .client _ _ | _, .worker _ _ | _, .wake _ | _, .outside _ | _, .close
  | _, .wakeCloser => inferInstanceAs (Decidable True)

theorem mem_oneQuery {a : ProcessAction Unit} (ha : a ∈ oneQuery) :
    a = .addTask () queryA ∨ a = .client () none ∨ a = .worker () none ∨ a = .run () silent := by
  simp only [oneQuery, List.mem_append, List.mem_cons, List.mem_replicate] at ha
  tauto

/-- The run is as it should be when what is computed says so. -/
theorem calm_of_placed {fr : FileReader}
    (h : Meets (processStep fr) Placed (processInit [()] fr (10 : ℕ) 0) oneQuery) :
    Meets (processStep fr) Calm (processInit [()] fr (10 : ℕ) 0) oneQuery := by
  intro pre a hp s hs
  have hplaced := h pre a hp s hs
  have ha : a ∈ oneQuery := hp.subset (by simp)
  rcases mem_oneQuery ha with rfl | rfl | rfl | rfl
  · exact queryA_standard
  · trivial
  · trivial
  · exact ⟨hplaced.1, fun o k hk => standard_op_silent (hplaced.2 o k hk), fun u e k h _ => by cases h; rfl⟩

/-- The run, on a file with an address of `a`. -/
theorem oneQuery_runs : ∃ fr s, file_reader_alloc twoLinesText = .ok fr ∧
    Meets (processStep fr) Calm (processInit [()] fr (10 : ℕ) 0) oneQuery ∧
    exec (processStep fr) (processInit [()] fr (10 : ℕ) 0) oneQuery = .ok s ∧
    (s.q.calls (.inl ())).isIdle = true ∧ (s.q.calls (.inr ())).isBlocked = true ∧
    (s.workers.pool.threads ()).isNone = true ∧ s.workers.pool.shared.replies.length = 1 ∧
    s.q.enqueued.length = 1 := by
  have hrun : (file_reader_alloc twoLinesText).map (fun fr =>
      (decide (Meets (processStep fr) Placed (processInit [()] fr (10 : ℕ) 0) oneQuery),
        (exec (processStep fr) (processInit [()] fr (10 : ℕ) 0) oneQuery).toOption.any fun s =>
          (s.q.calls (.inl ())).isIdle && (s.q.calls (.inr ())).isBlocked &&
            (s.workers.pool.threads ()).isNone && decide (s.workers.pool.shared.replies.length = 1) &&
            decide (s.q.enqueued.length = 1))) = .ok (true, true) := by
    decide +kernel
  obtain ⟨fr, hfr, hrun⟩ := Run.map_eq_ok.mp hrun
  obtain ⟨hplaced, hrun⟩ := Prod.mk.inj hrun
  obtain ⟨s, hs, hfacts⟩ := exec_reaches hrun
  simp only [Bool.and_eq_true, decide_eq_true_eq] at hfacts
  obtain ⟨⟨⟨⟨hclient, hworker⟩, hfree⟩, hreplies⟩, henqueued⟩ := hfacts
  exact ⟨fr, s, hfr, calm_of_placed (of_decide_eq_true hplaced), hs, hclient, hworker, hfree, hreplies,
    henqueued⟩

/-- `process_serves` for a query. -/
theorem process_serves_query : ∃ fr, file_reader_alloc twoLinesText = .ok fr ∧ ∃ s vs,
    exec (processStep fr) (processInit [()] fr (10 : ℕ) 0) oneQuery = .ok s ∧
    s.q.enqueued.length = 1 ∧ s.q.Holds vs ∧
    (s.q.enqueued : Multiset Arg) = s.workers.ended.map (·.job) + ∑ t, (s.current t : Multiset Arg) +
      ∑ t, ((s.q.calls (.inr t)).inFlight : Multiset Arg) + vs ∧
    (∀ i ∈ s.workers.ended, Replied twoLines i.job i.calls) ∧
    (s.workers.pool.shared.replies.map Sent.parg : Multiset Arg) = s.workers.ended.map (·.job) +
      (sentBy (∑ t, (s.workers.called t : Multiset HandlerCall))).map Prod.fst := by
  obtain ⟨fr, s, hfr, hcalm, hs, -, -, -, -, henqueued⟩ := oneQuery_runs
  obtain ⟨s', vs, hs', hserves⟩ := process_serves twoLines_fileText twoLines_dotted hfr (by decide)
    (by decide) 0 [()] hcalm
  obtain rfl := Except.ok.inj (hs.symm.trans hs')
  exact ⟨fr, hfr, s, vs, hs, henqueued, hserves⟩

/-- The run as one without end: afterwards the server is at rest. -/
theorem oneQuery_trace : ∃ fr, file_reader_alloc twoLinesText = .ok fr ∧
    ∃ r : Trace (processStep fr : Process Unit → ProcessAction Unit → Run (Process Unit)),
      r.state 0 = processInit [()] fr (10 : ℕ) 0 ∧ (∀ n, Calm (r.state n) (r.action n)) ∧
      r.Fair (ThreadPool.CanMove (handler fr) (perform fr) Server.setClock)
        (ThreadPool.moves (handler fr) (perform fr) Server.setClock) ∧
      (r.state oneQuery.length).q.enqueued.length = 1 := by
  obtain ⟨fr, s, hfr, hcalm, hs, hclient, hworker, hfree, -, henqueued⟩ := oneQuery_runs
  rw [Users.isIdle_iff] at hclient
  rw [Users.isBlocked_iff] at hworker
  rw [Option.isNone_iff_eq_none] at hfree
  have hrest : processStep fr s (.client () none) = .ok s := by
    simp [processStep, ThreadPool.step, ThreadPool.onQueue, Users.step, Users.proceed, hclient,
      Call.isIdle]
    rfl
  obtain ⟨r, h0, hend, hfair, hall⟩ := Trace.exists_fair hs hcalm hrest trivial
    (ThreadPool.at_rest (fun _ => hclient) (fun _ => hworker) fun _ => hfree)
  exact ⟨fr, hfr, r, h0, hall, hfair, hend ▸ henqueued⟩

/-- `every_query_answered` for a query. -/
theorem every_query_answered_one : ∃ fr, file_reader_alloc twoLinesText = .ok fr ∧
    ∃ (r : Trace (processStep fr : Process Unit → ProcessAction Unit → Run (Process Unit))) (n m : ℕ),
      (r.state n).q.enqueued.length = 1 ∧ n ≤ m ∧
      (∀ i ∈ (r.state m).workers.ended, Replied twoLines i.job i.calls) ∧
      ((r.state n).q.enqueued : Multiset Arg) ≤ (r.state m).workers.ended.map (·.job) ∧
      ((r.state n).q.enqueued : Multiset Arg) ≤ (r.state m).workers.pool.shared.replies.map Sent.parg := by
  obtain ⟨fr, hfr, r, h0, hcalm, hfair, henqueued⟩ := oneQuery_trace
  obtain ⟨m, hanswered⟩ := every_query_answered twoLines_fileText twoLines_dotted hfr (by decide)
    (by decide) 0 [()] h0 hcalm hfair oneQuery.length
  exact ⟨fr, hfr, r, oneQuery.length, m, henqueued, hanswered⟩

/-- `server_memory` for a query whose answer is cached. -/
theorem server_memory_query : ∃ fr s, file_reader_alloc twoLinesText = .ok fr ∧
    exec (processStep fr) (processInit [()] fr (10 : ℕ) 0) oneQuery = .ok s ∧
    (s.workers.pool.shared.cache.heap.live.card : ℤ) = s.workers.pool.shared.cache.len + 1 ∧
    s.workers.pool.shared.cache.len ≤ max (10 : ℕ) 0 := by
  obtain ⟨fr, s, hfr, -, hs, -⟩ := oneQuery_runs
  exact ⟨fr, s, hfr, hs, server_memory [()] fr (10 : ℕ) 0 hs⟩

/-- The other address of `a` is asked for, and the server does not answer. -/
def lostQuery : List (ProcessAction Unit) :=
  .addTask () queryAAAA :: List.replicate 4 (.client () none) ++ List.replicate 5 (.worker () none) ++
    List.replicate 6 (.run () silent)

/-- `server_sockets` for a query that the server does not answer. -/
theorem server_sockets_lost : ∃ s : Process Unit,
    exec (processStep emptyReader) (processInit [()] emptyReader (10 : ℕ) 0) lostQuery = .ok s ∧
    s.workers.pool.shared.sockets = 1 ∧ s.workers.ended.length = 1 ∧
    s.workers.pool.shared.sockets = s.workers.calls.countP Failed +
      (Finset.univ.filter fun t => HasSocket (s.workers.called t)).card := by
  obtain ⟨s, hs, hlast⟩ : ∃ s : Process Unit,
      exec (processStep emptyReader) (processInit [()] emptyReader (10 : ℕ) 0) lostQuery = .ok s ∧
      (decide (s.workers.pool.shared.sockets = 1) && decide (s.workers.ended.length = 1)) = true :=
    exec_reaches (by decide +kernel)
  simp only [Bool.and_eq_true, decide_eq_true_eq] at hlast
  exact ⟨s, hs, hlast.1, hlast.2, server_sockets [()] emptyReader (10 : ℕ) 0 hs⟩

end DnsRelayer
