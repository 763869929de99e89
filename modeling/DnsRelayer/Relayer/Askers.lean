import DnsRelayer.Relayer.System
import DnsRelayer.Pool.Fifo

/-!
# Where the relayer sends its replies

`main` gives `recvfrom` the size of the length of an address, which is 4, as the size of the address:
the family and the port of the sender are stored, and the address in `cliAddr` stays what it was when
`main` began. Every task has a copy of `cliAddr`, which no other thread changes: whatever the threads
do in between, a reply goes to the port of the client whose request it answers, and to the address that
was in `cliAddr` at the start (`replies_to_asker_iff`).
-/

namespace DnsRelayer.Relayer

open Lib

variable {ι : Type} [DecidableEq ι] [Fintype ι] {s s' : State ι} {a : Action ι} {as : List (Action ι)}
  {cliAddr₀ : SockAddr}

/-! ## Addresses -/

/-- What is behind the bytes that are stored stays. -/
theorem SockAddr.drop_store (a sender : SockAddr) {cliLen : ℕ} (h : cliLen ≤ 16) :
    (a.store cliLen sender).bytes.drop cliLen = a.bytes.drop cliLen := by
  unfold SockAddr.store
  apply List.drop_left'
  rw [List.length_take, sender.length_eq]
  exact min_eq_left h

/-- The address that is stored has what the address before it had behind the bytes that are
stored. -/
theorem SockAddr.store_congr {a b : SockAddr} {cliLen : ℕ} (sender : SockAddr)
    (h : a.bytes.drop cliLen = b.bytes.drop cliLen) : a.store cliLen sender = b.store cliLen sender := by
  unfold SockAddr.store
  simp only [h]

/-- The port of the sender is stored. -/
theorem SockAddr.sin_port_store (a sender : SockAddr) :
    (a.store SIZEOF_SOCKLEN_T sender).sin_port = sender.sin_port := by
  obtain ⟨l, hl⟩ := sender
  obtain ⟨k, hk⟩ := a
  unfold SockAddr.sin_port SockAddr.store SIZEOF_SOCKLEN_T
  dsimp only
  rw [List.drop_append_of_le_length (by rw [List.length_take, hl]; decide), List.take_append_of_le_length
    (by rw [List.length_drop, List.length_take, hl]; decide), List.drop_take, List.take_take]
  rfl

/-- The address is what it was. -/
theorem SockAddr.sin_addr_store (a sender : SockAddr) :
    (a.store SIZEOF_SOCKLEN_T sender).sin_addr = a.sin_addr := by
  unfold SockAddr.sin_addr
  rw [show 4 = SIZEOF_SOCKLEN_T from rfl, a.drop_store sender (by decide)]

/-! ## The handler -/

/-- What a handler sends to a client goes to the address of its task, and is what the server answered
to its message. -/
theorem handler_calls {pa : Arg} {cs : List (Called Op Res)} {p : Prog Op Res Fault Unit}
    (h : (handler pa).Reaches cs p) {dest : SockAddr} {bytes : List UInt8}
    (hsent : (dest, bytes) ∈ cs.filterMap sentTo) :
    dest = pa.cliAddr ∧ ∃ addr query, inet_pton DNS_IP = some addr ∧ encode pa.msg = .ok query ∧
      ∃ before after, cs = before ++ ⟨.sendtoServer addr query, true⟩ ::
        ⟨.recvfrom, some bytes⟩ :: after := by
  have haddr : inet_pton DNS_IP = some [192, 168, 43, 1] := by decide
  -- The handler may stop before each of its calls, and in it.
  unfold handler at h
  cases hencode : encode pa.msg with
  | error e =>
    rw [hencode] at h
    cases h
    cases hsent
  | ok query =>
    rw [hencode, haddr] at h
    by_cases hlong : query.length > BUFF_SIZE
    · simp only [bind, Prog.bind, Prog.ofExcept, if_pos hlong] at h
      cases h
      cases hsent
    · simp only [bind, Prog.bind, Prog.ofExcept, if_neg hlong, call, Prog.op] at h
      cases h with
      | refl => cases hsent
      | call h =>
        cases h with
        | refl => cases hsent
        | @call _ _ sent _ _ h =>
          cases sent with
          | false =>
            cases h
            cases hsent
          | true =>
            cases h with
            | refl => cases hsent
            | @call _ _ response _ _ h =>
              cases response with
              | none =>
                cases h
                cases hsent
              | some response =>
                cases h with
                | refl => cases hsent
                | @call _ _ u rest _ h =>
                  -- After its reply, it closes its socket and no more.
                  have hrest : rest.filterMap sentTo = [] := by
                    cases h with
                    | refl => rfl
                    | call h =>
                      cases h
                      rfl
                  -- The handler got as far as its reply.
                  change (dest, bytes) ∈ (pa.cliAddr, response) :: rest.filterMap sentTo at hsent
                  rw [hrest] at hsent
                  obtain ⟨rfl, rfl⟩ := Prod.mk.inj (List.mem_singleton.mp hsent)
                  exact ⟨rfl, _, query, haddr, rfl, [_], _, rfl⟩

/-! ## The steps -/

/-- What a step does. -/
inductive Effect (s : State ι) : Action ι → State ι → Prop
  | none {a : Action ι} : Effect s a s
  | receive {d : Datagram} {msg : Message} {rest : List UInt8} {e : ℕ} {tasks : Users (Option ι) Task}
      (decodes : decode (d.bytes.take BUFF_SIZE ++ rest) = .ok (msg, e))
      (adds : s.tasks.step (.enque Option.none ⟨⟨msg, s.cliAddr.store SIZEOF_SOCKLEN_T d.sender⟩, d⟩) =
        .ok tasks) :
      Effect s (.receive (some d)) ⟨s.cliAddr.store SIZEOF_SOCKLEN_T d.sender,
        d.bytes.take BUFF_SIZE ++ rest, tasks, s.workers⟩
  | queue {a : Action ι} {b : QueueAction (Option ι) Task} {tasks : Users (Option ι) Task}
      (other : ∀ t task, b ≠ .enque t task) (steps : s.tasks.step b = .ok tasks) :
      Effect s a { s with tasks := tasks }
  | start {t : ι} {woken : Option (Option ι)} {task : Task} {tasks : Users (Option ι) Task}
      {workers : Recorded ι ℕ Task Op Res Fault}
      (leaves : s.tasks.calls (some t) = .dequeLeaves (some task))
      (steps : s.tasks.step (.run (some t) woken) = .ok tasks)
      (starts : s.workers.step (fun task => handler task.arg) perform
        (fun (_ : Unit) sockets => sockets) (.start t task) = .ok workers) :
      Effect s (.dequeue t woken) { s with tasks := tasks, workers := workers }
  | run {t : ι} {e : Env} {workers : Recorded ι ℕ Task Op Res Fault}
      (runs : s.workers.step (fun task => handler task.arg) perform
        (fun (_ : Unit) sockets => sockets) (.run t e) = .ok workers) :
      Effect s (.run t e) { s with workers := workers }

/-- Every step that does not fail is one of these. -/
theorem step_cases (h : s.step a = .ok s') : Effect s a s' := by
  cases a with
  | receive d =>
    cases d with
    | none => cases h
    | some d =>
      simp only [State.step] at h
      split_ifs at h
      · obtain ⟨⟨msg, e⟩, hdecode, h⟩ := Run.bind_eq_ok.mp h
        obtain ⟨tasks, htasks, h⟩ := Run.bind_eq_ok.mp h
        obtain rfl := Except.ok.inj h
        exact .receive hdecode htasks
      · obtain rfl := Except.ok.inj h
        exact .none
  | addTask woken =>
    obtain ⟨tasks, htasks, h⟩ := Run.bind_eq_ok.mp h
    obtain rfl := Except.ok.inj h
    exact .queue (fun _ _ h => by cases h) htasks
  | deque t =>
    simp only [State.step] at h
    -- A worker that has a task does not ask for another.
    split at h
    · obtain ⟨tasks, htasks, h⟩ := Run.bind_eq_ok.mp h
      obtain rfl := Except.ok.inj h
      exact .queue (fun _ _ h => by cases h) htasks
    · obtain rfl := Except.ok.inj h
      exact .none
  | dequeue t woken =>
    obtain ⟨tasks, htasks, h⟩ := Run.bind_eq_ok.mp h
    split at h
    -- The worker leaves the queue with a task, or stays in its call.
    · rename_i task hleaves
      obtain ⟨workers, hworkers, h⟩ := Run.bind_eq_ok.mp h
      obtain rfl := Except.ok.inj h
      exact .start hleaves htasks hworkers
    · obtain rfl := Except.ok.inj h
      exact .queue (fun _ _ h => by cases h) htasks
  | wake t =>
    obtain ⟨tasks, htasks, h⟩ := Run.bind_eq_ok.mp h
    obtain rfl := Except.ok.inj h
    exact .queue (fun _ _ h => by cases h) htasks
  | run t e =>
    obtain ⟨workers, hworkers, h⟩ := Run.bind_eq_ok.mp h
    obtain rfl := Except.ok.inj h
    exact .run hworkers

/-- A task was made for a datagram that arrived in the run: it has the message, and the address that
`recvfrom` made of what was in `cliAddr` at the start. -/
structure Made (cliAddr₀ : SockAddr) (as : List (Action ι)) (task : Task) : Prop where
  arrived : .receive (some task.request) ∈ as
  cliAddr : task.arg.cliAddr = cliAddr₀.store SIZEOF_SOCKLEN_T task.request.sender
  msg : ∃ rest e, decode (task.request.bytes.take BUFF_SIZE ++ rest) = .ok (task.arg.msg, e)

/-- What is in `cliAddr` behind the bytes that are stored is what was there at the start, and every
task was made for a datagram: in the calls of the queue, in the queue, and at work. -/
structure Inv (cliAddr₀ : SockAddr) (as : List (Action ι)) (s : State ι) : Prop where
  cliAddr : s.cliAddr.bytes.drop SIZEOF_SOCKLEN_T = cliAddr₀.bytes.drop SIZEOF_SOCKLEN_T
  sound : ∃ vs, s.tasks.Sound vs
  only : s.tasks.Only (Made cliAddr₀ as)
  traced : s.workers.Traced (Made cliAddr₀ as) fun task => handler task.arg

omit [Fintype ι] in
theorem init_inv (buff : List UInt8) : Inv cliAddr₀ as (State.init cliAddr₀ buff : State ι) where
  cliAddr := rfl
  sound := ⟨[], Users.init_sound⟩
  only := Users.init_only
  traced := Recorded.init_traced 0

/-- A step of the queue keeps it sound, and its tasks made for datagrams. -/
theorem queue_step {tasks tasks' : Users (Option ι) Task} {b : QueueAction (Option ι) Task}
    (hsound : ∃ vs, tasks.Sound vs) (honly : tasks.Only (Made cliAddr₀ as))
    (hb : ∀ t task, b = .enque t task → Made cliAddr₀ as task) (hs : tasks.step b = .ok tasks') :
    (∃ vs, tasks'.Sound vs) ∧ tasks'.Only (Made cliAddr₀ as) := by
  obtain ⟨vs, hvs⟩ := hsound
  rcases Users.step_cases hs with rfl | he
  · exact ⟨⟨vs, hvs⟩, honly⟩
  · exact ⟨hvs.step he, honly.step hb he⟩

/-- A step of the run keeps what is known of `cliAddr` and the tasks. -/
theorem Inv.step (h : Inv cliAddr₀ as s) (ha : a ∈ as) (hs : s.step a = .ok s') :
    Inv cliAddr₀ as s' := by
  obtain ⟨hcliAddr, hsound, honly, htraced⟩ := h
  cases step_cases hs with
  | none => exact ⟨hcliAddr, hsound, honly, htraced⟩
  | @receive d msg rest e tasks decodes adds =>
    -- Of the sender, four bytes are stored; what is behind them stays.
    have hmade : Made cliAddr₀ as ⟨⟨msg, s.cliAddr.store SIZEOF_SOCKLEN_T d.sender⟩, d⟩ :=
      ⟨ha, SockAddr.store_congr d.sender hcliAddr, rest, e, decodes⟩
    obtain ⟨hsound', honly'⟩ := queue_step hsound honly
      (fun t task h => by cases h; exact hmade) adds
    exact ⟨(s.cliAddr.drop_store d.sender (by decide)).trans hcliAddr, hsound', honly', htraced⟩
  | queue other steps =>
    obtain ⟨hsound', honly'⟩ := queue_step hsound honly (fun t task h => absurd h (other t task)) steps
    exact ⟨hcliAddr, hsound', honly', htraced⟩
  | @start t woken task tasks workers leaves steps starts =>
    obtain ⟨hsound', honly'⟩ := queue_step hsound honly (fun t task h => by cases h) steps
    obtain ⟨vs, hvs⟩ := hsound
    -- What leaves the queue is one of the tasks in it.
    have hmade : Made cliAddr₀ as task :=
      honly.enqueued task (hvs.mem_enqueued (t := some t) (by rw [leaves]; exact List.mem_singleton_self _))
    exact ⟨hcliAddr, hsound', honly', htraced.step (fun t j h => by cases h; exact hmade) starts⟩
  | run runs => exact ⟨hcliAddr, hsound, honly, htraced.step (fun t j h => by cases h) runs⟩

/-- In every run of the relayer, whatever is in `cliAddr` and `buff` at its start: what a handler sends to a
client is what the server answered to the message of a request that arrived; and it goes to the address and
the port of the sender of that request exactly when the address of the sender is what was in
`cliAddr` at the start. -/
theorem replies_to_asker_iff {ι : Type} [DecidableEq ι] [Fintype ι] (cliAddr₀ : SockAddr)
    (buff₀ : List UInt8) (as : List (Action ι)) {s : State ι}
    (hs : exec State.step (State.init cliAddr₀ buff₀) as = .ok s) {i : Invocation Task Op Res}
    (hi : s.Invoked i) {dest : SockAddr} {bytes : List UInt8} (hreply : (dest, bytes) ∈ replies i) :
    Action.receive (some i.job.request) ∈ as ∧ Exchanged i bytes ∧
      (dest.sin_addr = i.job.request.sender.sin_addr ∧
          dest.sin_port = i.job.request.sender.sin_port ↔
        i.job.request.sender.sin_addr = cliAddr₀.sin_addr) := by
  have hinv : Inv cliAddr₀ as s := exec_invariant (init_inv buff₀)
    (fun _ _ _ h ha hs => h.step ha hs) (fun pre a hp _ _ => hp.subset (by simp)) as
    (List.prefix_refl as) s hs
  have htraced : Made cliAddr₀ as i.job ∧ ∃ p, (handler i.job.arg).Reaches i.calls p := by
    rcases hi with hi | ⟨t, hi⟩
    · exact hinv.traced.ended i hi
    · obtain ⟨hmade, p, -, hp⟩ := hinv.traced.going t i hi
      exact ⟨hmade, p, hp⟩
  obtain ⟨hmade, p, hp⟩ := htraced
  -- It goes to the address of the task: family and port of the sender, and the old address.
  obtain ⟨hdest, hexchanged⟩ := handler_calls hp hreply
  have haddr : dest.sin_addr = cliAddr₀.sin_addr := by
    rw [hdest, hmade.cliAddr, SockAddr.sin_addr_store]
  have hport : dest.sin_port = i.job.request.sender.sin_port := by
    rw [hdest, hmade.cliAddr, SockAddr.sin_port_store]
  refine ⟨hmade.arrived, hexchanged, ?_⟩
  rw [haddr]
  constructor
  · rintro ⟨h, -⟩
    exact h.symm
  · intro h
    exact ⟨h.symm, hport⟩

/-- The address 10.0.0.7, port 4660. -/
def asker : SockAddr := ⟨[2, 0, 18, 52, 10, 0, 0, 7, 0, 0, 0, 0, 0, 0, 0, 0], rfl⟩

/-- A `sockaddr_in` of zeros. -/
def zeroAddr : SockAddr := ⟨List.replicate 16 0, rfl⟩

/-- A query for the address of `a`. -/
def askedA : Datagram := ⟨asker, [0, 2, 1, 0, 0, 1, 0, 0, 0, 0, 0, 0, 1, 97, 0, 0, 1, 0, 1]⟩

/-- An answer to `askedA`: there is no such name. -/
def noSuchName : List UInt8 := [0, 2, 129, 131, 0, 1, 0, 0, 0, 0, 0, 0, 1, 97, 0, 0, 1, 0, 1]

/-- `askedA` arrives, and a worker takes its task and relays the answer of the server. -/
def relayA : List (Action Unit) :=
  .receive (some askedA) :: List.replicate 4 (.addTask none) ++
    .deque () :: List.replicate 4 (.dequeue () none) ++
    List.replicate 4 (.run () ⟨true, true, some noSuchName⟩)

theorem exists_relayA : ∃ s i dest bytes,
    exec State.step (State.init zeroAddr (List.replicate BUFF_SIZE 0)) relayA = .ok s ∧ s.Invoked i ∧
      (dest, bytes) ∈ replies i ∧ i.job.request = askedA ∧ dest.sin_addr = [0, 0, 0, 0] := by
  have hrun : (exec State.step (State.init zeroAddr (List.replicate BUFF_SIZE 0)) relayA).map
      (fun s => (s.workers.going ()).map fun i => (i.job.request, replies i)) =
        .ok (some (askedA, [(zeroAddr.store SIZEOF_SOCKLEN_T asker, noSuchName)])) := by
    decide +kernel
  obtain ⟨s, hs, hgoing⟩ := Run.map_eq_ok.mp hrun
  obtain ⟨i, hi, hreplies⟩ := Option.map_eq_some_iff.mp hgoing
  obtain ⟨hrequest, hreply⟩ := Prod.mk.inj hreplies
  refine ⟨s, i, zeroAddr.store SIZEOF_SOCKLEN_T asker, noSuchName, hs, Or.inr ⟨(), hi⟩, ?_, hrequest, ?_⟩
  · rw [hreply]
    exact List.mem_singleton_self _
  · decide

/-- `replies_to_asker_iff` for a query that is answered. -/
theorem replies_to_asker_relayA : ∃ s i dest bytes,
    exec State.step (State.init zeroAddr (List.replicate BUFF_SIZE 0)) relayA = .ok s ∧ s.Invoked i ∧
      (dest, bytes) ∈ replies i ∧ Action.receive (some i.job.request) ∈ relayA ∧ Exchanged i bytes ∧
      (dest.sin_addr = i.job.request.sender.sin_addr ∧
          dest.sin_port = i.job.request.sender.sin_port ↔
        i.job.request.sender.sin_addr = zeroAddr.sin_addr) := by
  obtain ⟨s, i, dest, bytes, hs, hi, hreply, -⟩ := exists_relayA
  exact ⟨s, i, dest, bytes, hs, hi, hreply, replies_to_asker_iff zeroAddr _ relayA hs hi hreply⟩

/-- A reply goes to another address than that of the client which asked. -/
theorem reply_astray : ∃ s i dest bytes,
    exec State.step (State.init zeroAddr (List.replicate BUFF_SIZE 0)) relayA = .ok s ∧ s.Invoked i ∧
      (dest, bytes) ∈ replies i ∧ dest.sin_addr ≠ i.job.request.sender.sin_addr := by
  obtain ⟨s, i, dest, bytes, hs, hi, hreply, hrequest, hzero⟩ := exists_relayA
  refine ⟨s, i, dest, bytes, hs, hi, hreply, ?_⟩
  rw [hrequest, hzero]
  decide

end DnsRelayer.Relayer
