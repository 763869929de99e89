import DnsRelayer.Server.Alone
import DnsRelayer.Server.Calls
import Mathlib.Data.Finset.Card

/-!
# Open sockets

A handler that asks the server opens a socket, and closes it when there is a response. When the
packet could not be sent, or there was no response, it returns without: the socket stays open for
good. So no socket is open when no handler runs exactly when neither has happened, and as long as neither
has happened, every open socket is that of a handler at work (`sockets_closed_iff`).
-/

namespace DnsRelayer

open Lib

/-- Whether a handler has a socket open that it goes on to close, after an operation. -/
def socketAfter : (o : Op) → Res o → Bool → Option Bool
  | .Socket, _, false => some true
  | .Socket, _, true => none
  | .close, _, true => some false
  | .close, _, false => none
  | .sendtoServer _, sent, true => some sent
  | .sendtoServer _, _, false => none
  | .recvfrom, d, true => some d.isSome
  | .recvfrom, _, false => none
  | _, _, b => some b

variable {α β : Type}

/-- A program that opens and closes no socket. -/
abbrev Plain (p : M α) : Prop := ∀ b, Tracks socketAfter p (fun _ b' => b' = b) b

theorem Plain.compute (x : Run α) : Plain (compute x) := fun _ => Tracks.ofExcept fun _ _ => rfl

theorem Plain.pure (a : α) : Plain (pure a : M α) := fun _ => rfl

theorem Plain.bind {p : M α} {f : α → M β} (hp : Plain p) (hf : ∀ a, Plain (f a)) :
    Plain (p >>= f) := by
  intro b
  refine (hp b).bind ?_
  rintro a b' rfl
  exact hf a b'

theorem Plain.call {o : Op} (h : ∀ r b, socketAfter o r b = some b) : Plain (call o) :=
  fun b => Tracks.op o fun r => ⟨b, h r b, rfl⟩

/-- A program that sends and receives nothing opens and closes no socket. -/
theorem Quiet.plain {n : ℕ} {p : M α} (h : Quiet n p) : Plain p := by
  refine h.tracks fun o ho r b => ?_
  cases o <;> first | rfl | exact ho.elim

/-! ## The parts of the handler -/

theorem plain_reply (parg : Arg) (msg : Message) : Plain (reply parg msg) := by
  refine (Plain.compute _).bind fun bytes => ?_
  split_ifs
  · exact fun _ => Tracks.fail
  · exact Plain.call fun _ _ => rfl

theorem plain_replyFromCache (parg : Arg) (msg : Message) (name : List UInt8) (qtype : UInt16) :
    Plain (replyFromCache parg msg name qtype) := by
  unfold replyFromCache
  split
  · refine (Plain.compute _).bind fun name => (quiet_getItem _ _).plain.bind fun r => ?_
    rcases r with - | it
    · dsimp only
      split
      · refine (quiet_getItem _ _).plain.bind fun r => ?_
        rcases r with - | it
        · exact Plain.pure _
        refine (quiet_getItem _ _).plain.bind fun r => ?_
        rcases r with - | tit
        · exact Plain.pure _
        refine (quiet_answerItem _ _).plain.bind fun msg => ?_
        refine (quiet_answerItem _ _).plain.bind fun msg => ?_
        exact (plain_reply _ _).bind fun _ => Plain.pure _
      · exact Plain.pure _
    · refine (quiet_answerItem _ _).plain.bind fun msg => ?_
      exact (plain_reply _ _).bind fun _ => Plain.pure _
  · exact Plain.pure _

theorem plain_replyFromFile (fr : FileReader) (parg : Arg) (msg : Message) (name : List UInt8)
    (qtype : UInt16) : Plain (replyFromFile fr parg msg name qtype) := by
  unfold replyFromFile
  split_ifs
  · refine (Plain.compute _).bind fun name => (quiet_getRecord _ _).plain.bind fun r => ?_
    cases r with
    | none => exact Plain.pure _
    | some ip =>
      dsimp only
      cases inet_pton ip with
      | none => exact fun _ => Tracks.fail
      | some addr =>
        refine (quiet_storeRR _ _).plain.bind fun tmp => (quiet_putItem _ _).plain.bind fun _ => ?_
        refine (quiet_answerItem _ _).plain.bind fun msg => (plain_reply _ _).bind fun _ => ?_
        exact Plain.pure _
  · exact Plain.pure _

/-- The handler ends without a socket that it is to close. -/
theorem handler_tracks (fr : FileReader) (parg : Arg) :
    Tracks socketAfter (handler fr parg) (fun _ b => b = false) false := by
  refine ((Plain.compute _) false).bind ?_
  rintro ⟨msg, q⟩ - rfl
  refine ((@Plain.call (.showRequest q.q_type) fun _ _ => rfl) false).bind ?_
  rintro - - rfl
  refine (plain_replyFromCache _ _ _ _ false).bind ?_
  rintro cached - rfl
  cases cached with
  | true => rfl
  | false =>
    refine (plain_replyFromFile _ _ _ _ _ false).bind ?_
    rintro listed - rfl
    cases listed with
    | true => rfl
    | false =>
      -- The socket is opened, and given up when the call for the server fails.
      have hopen : Tracks socketAfter (call Op.Socket) (fun _ b => b = true) false :=
        Tracks.op Op.Socket fun _ => ⟨true, rfl, rfl⟩
      have hsend : Tracks socketAfter (call (.sendtoServer parg.buff.bytes))
          (fun sent b => b = sent) true :=
        Tracks.op (Op.sendtoServer _) fun sent => ⟨sent, rfl, rfl⟩
      have hwait : Tracks socketAfter (call Op.recvfrom) (fun d b => b = d.isSome) true :=
        Tracks.op Op.recvfrom fun d => ⟨d.isSome, rfl, rfl⟩
      have hclose : Tracks socketAfter (call Op.close) (fun _ b => b = false) true :=
        Tracks.op Op.close fun _ => ⟨false, rfl, rfl⟩
      refine hopen.bind ?_
      rintro - - rfl
      refine hsend.bind ?_
      rintro (- | -) - rfl
      · exact (((Plain.call fun _ _ => rfl).bind fun _ => plain_reply _ _ : Plain _) false)
      · refine hwait.bind ?_
        rintro (- | d) - rfl
        · exact plain_reply _ _ false
        · refine hclose.bind ?_
          rintro - - rfl
          refine (((Plain.call fun _ _ => rfl).bind fun _ => (Plain.compute _).bind fun r => ?_ :
            Plain _) false)
          refine (quiet_collect _ _).plain.bind fun items => ?_
          exact (quiet_putItem _ _).plain.bind fun _ => (quiet_putItem _ _).plain.bind fun _ =>
            (quiet_putItem _ _).plain

/-! ## Runs -/

/-- A packet for the server could be sent, and a wait ended with a response. -/
def Succeeds : Op → Env → Prop
  | .sendtoServer _, e => e.sent = true
  | .recvfrom, e => e.response.isSome = true
  | _, _ => True

variable {ι : Type} [DecidableEq ι] {fr : FileReader}

/-- The step is not one in which a packet for the server could not be sent, or a wait ended without a
response. -/
def Answered (s : Workers ι) : ServerAction ι → Prop
  | .run t e => ∀ o k, s.threads t = some (.call o k) → Succeeds o e
  | _ => True

/-- An operation changes the number of open sockets as it changes whether its handler has one that it
goes on to close, unless it fails: then the handler gives its socket up. -/
theorem sockets_of_perform {o : Op} {e : Env} {s s' : Server} {r : Res o} {b b' : Bool}
    (hperf : perform fr o e s = .ok (r, s')) (hnext : socketAfter o r b = some b')
    (hb : b.toNat ≤ s.sockets) :
    Succeeds o e ∧ s'.sockets + b.toNat = s.sockets + b'.toNat ∨
      ¬ Succeeds o e ∧ b = true ∧ b' = false ∧ s'.sockets = s.sockets := by
  cases o with
  -- Only four operations have to do with sockets.
  | showRequest q_type =>
    cases hnext
    simp only [perform] at hperf
    split_ifs at hperf
    cases hperf
    exact Or.inl ⟨trivial, rfl⟩
  | time | fseek | sendto =>
    cases hnext
    cases hperf
    exact Or.inl ⟨trivial, rfl⟩
  | cacheGetLocked | cacheGetCopy | cachePut | fscanf =>
    cases hnext
    obtain ⟨_, -, hperf⟩ := Run.bind_eq_ok.mp hperf
    cases hperf
    exact Or.inl ⟨trivial, rfl⟩
  | Socket =>
    cases b <;> cases hnext
    simp only [perform] at hperf
    split_ifs at hperf
    cases hperf
    exact Or.inl ⟨trivial, rfl⟩
  | close =>
    cases b <;> cases hnext
    cases hperf
    refine Or.inl ⟨trivial, ?_⟩
    simp only [Bool.toNat_true, Bool.toNat_false] at hb ⊢
    omega
  -- When the packet is not sent, or no response comes, the socket is not closed.
  | sendtoServer bytes =>
    cases b <;> cases hnext
    cases hperf
    cases hsent : e.sent with
    | true => exact Or.inl ⟨hsent, rfl⟩
    | false => exact Or.inr ⟨by simp [Succeeds, hsent], rfl, rfl, rfl⟩
  | recvfrom =>
    obtain ⟨hd, rfl⟩ := perform_recvfrom hperf
    cases b <;> cases hnext
    cases r with
    | none => exact Or.inr ⟨by simp [Succeeds, hd], rfl, rfl, rfl⟩
    | some d => exact Or.inl ⟨by simp [Succeeds, hd], rfl⟩

/-- The handlers at work that have a socket open that they go on to close, and whether these are all
the sockets that are open. -/
structure SocketsHeld (s : Workers ι) (held : Finset ι) (all : Prop) : Prop where
  tracked : s.Tracked socketAfter false fun t => decide (t ∈ held)
  card_le : held.card ≤ s.shared.sockets
  card_eq_iff : held.card = s.shared.sockets ↔ all

/-- A set with an element in it or not. -/
theorem card_setMem (held : Finset ι) (t : ι) (b : Bool) :
    (if b then Insert.insert t held else held.erase t).card + (decide (t ∈ held)).toNat =
      held.card + b.toNat := by
  by_cases ht : t ∈ held <;> cases b
  · have := Finset.card_erase_add_one ht
    simpa [ht] using this
  · simp [ht]
  · simp [ht]
  · simp [ht]

/-- A step that fails leaves a socket open, and no step closes it. -/
theorem SocketsHeld.step {s s' : Workers ι} {held : Finset ι} {all : Prop}
    (h : SocketsHeld s held all) {a : ServerAction ι} (hstep : serverStep fr s a = .ok s') :
    ∃ held', SocketsHeld s' held' (all ∧ Answered s a) := by
  have heff := Pool.step_cases hstep
  obtain ⟨ls', htracked, hcases⟩ := h.tracked.step (handler_tracks fr) heff
  rcases hcases with ⟨t, e, o, k, r, rfl, has, hperf, hnext, hother⟩ |
    ⟨t, parg, rfl, -, hfree, hshared, rfl⟩ | ⟨rfl, hshared, hnone, -⟩
  · -- The thread of the step has a socket after it or not, and the others as before.
    refine ⟨if ls' t then Insert.insert t held else held.erase t, ?_, ?_, ?_⟩
    · convert htracked using 1
      funext u
      by_cases hut : u = t
      · subst hut
        cases ls' u <;> simp
      · rw [hother u hut]
        cases ls' t <;> simp [hut]
    all_goals
      have hcard := card_setMem held t (ls' t)
      have hle := h.card_le
      -- The socket of the thread is one of those that are open.
      have hb : (decide (t ∈ held)).toNat ≤ s.shared.sockets := by
        by_cases ht : t ∈ held
        · have := Finset.card_pos.mpr ⟨t, ht⟩
          simp only [ht, decide_true, Bool.toNat_true]
          omega
        · simp [ht]
      have hanswered : Answered s (.run t e) ↔ Succeeds o e := by
        constructor
        · exact fun ha => ha o k has
        · intro ho o' k' has'
          rw [has] at has'
          cases has'
          exact ho
      rcases sockets_of_perform hperf hnext hb with ⟨hok, heq⟩ | ⟨hfail, hheld, hgone, heq⟩
    · omega
    · have h1 : (decide (t ∈ held)).toNat = 1 := by rw [hheld]; rfl
      have h0 : (ls' t).toNat = 0 := by rw [hgone]; rfl
      omega
    · rw [hanswered, ← h.card_eq_iff]
      simp only [hok, and_true]
      omega
    -- A socket is left open, and one thread less has one.
    · have h1 : (decide (t ∈ held)).toNat = 1 := by rw [hheld]; rfl
      have h0 : (ls' t).toNat = 0 := by rw [hgone]; rfl
      rw [hanswered]
      simp only [hfail, and_false, iff_false]
      omega
  · -- A handler starts without a socket.
    have hls : Function.update (fun t => decide (t ∈ held)) t false =
        fun t => decide (t ∈ held) :=
      Function.update_eq_iff.mpr ⟨hfree.symm, fun _ _ => rfl⟩
    rw [hls] at htracked
    refine ⟨held, htracked, by rw [hshared]; exact h.card_le, ?_⟩
    rw [hshared, h.card_eq_iff]
    exact (and_iff_left trivial).symm
  -- Any other step leaves the sockets as they are.
  · refine ⟨held, htracked, ?_, ?_⟩
    all_goals
      have hsockets : s'.shared.sockets = s.shared.sockets := by
        rcases hshared with hs | ⟨x, hs⟩ <;> rw [hs]
        rfl
      rw [hsockets]
    · exact h.card_le
    · have hanswered : Answered s a := by
        cases a with
        | run t e => exact fun o k has => absurd has (hnone t e rfl o k)
        | start t j => trivial
        | outside x => trivial
      rw [h.card_eq_iff]
      simp [hanswered]

/-- Along every run the sockets that are open are those of handlers at work, and those that were left
open when a call for the server failed. -/
theorem sockets_held (cachesize now : ℤ) (as : List (ServerAction ι)) {s : Workers ι}
    (hs : exec (serverStep fr) (serverInit fr cachesize now) as = .ok s) :
    ∃ held, SocketsHeld s held
      (Meets (serverStep fr) Answered (serverInit fr cachesize now) as) := by
  induction as using List.reverseRecOn generalizing s with
  | nil =>
    cases hs
    exact ⟨∅, fun t => by simp [serverInit], le_rfl, by simp [serverInit, meets_nil]⟩
  | append_singleton as a ih =>
    obtain ⟨t, ht, hta⟩ := exec_concat.mp hs
    obtain ⟨held, hheld⟩ := ih ht
    obtain ⟨held', hheld'⟩ := hheld.step hta
    refine ⟨held', hheld'.tracked, hheld'.card_le, hheld'.card_eq_iff.trans ?_⟩
    rw [meets_concat]
    exact and_congr_right fun _ =>
      ⟨fun h u hu => by rwa [Except.ok.inj (hu.symm.trans ht)], fun h => h t ht⟩

/-- In every run, no socket is open when no handler runs, if and only if until then every packet for
the server could be sent and every wait for it ended with a response. In every state in between, the
handlers at work that opened a socket and go on to close it have one each, and these are all the sockets that
are open exactly when that is so. -/
theorem sockets_closed_iff (fr : FileReader) (cachesize now : ℤ) (as : List (ServerAction ι)) :
    ((∀ pre, pre <+: as → ∀ s, exec (serverStep fr) (serverInit fr cachesize now) pre = .ok s →
        s.Idle → s.shared.sockets = 0) ↔
      ∀ pre, pre <+: as → ∀ s, exec (serverStep fr) (serverInit fr cachesize now) pre = .ok s →
        s.Idle → Meets (serverStep fr) Answered (serverInit fr cachesize now) pre) ∧
    ∀ pre, pre <+: as → ∀ s, exec (serverStep fr) (serverInit fr cachesize now) pre = .ok s →
      ∃ held, SocketsHeld s held (Meets (serverStep fr) Answered (serverInit fr cachesize now) pre) := by
  refine ⟨forall_congr' fun pre => forall_congr' fun _ => forall_congr' fun s =>
    forall_congr' fun hs => forall_congr' fun hidle => ?_, fun pre _ s hs => sockets_held cachesize now pre hs⟩
  obtain ⟨held, hheld⟩ := sockets_held cachesize now pre hs
  -- A handler that has a socket open is at work.
  have hempty : held = ∅ := by
    refine Finset.eq_empty_of_forall_notMem fun t ht => ?_
    have := hheld.tracked t
    rw [hidle t] at this
    simp [ht] at this
  rw [← hheld.card_eq_iff, hempty, Finset.card_empty]
  exact eq_comm

/-- The server does not answer a query: when its handler is done, the socket is still open. -/
theorem socket_left_open : ∃ s, exec (serverStep emptyReader) (serverInit emptyReader 10 0)
    (.start () queryAAAA :: List.replicate 6 (.run () silent)) = .ok s ∧ s.Idle ∧
      s.shared.sockets = 1 := by
  have hrun : (request (queryAAAA.buff.bytes ++ queryAAAA.buff.rest)).map (fun r => (r.2.q_type,
      (encode (setRCODE (setResp r.1) SERVER_FAILURE)).map (decide <| ·.length ≤ BUFF_SIZE))) =
      .ok (28, .ok true) := by
    decide +kernel
  obtain ⟨⟨msg, q⟩, hreq, hr⟩ := Run.map_eq_ok.mp hrun
  obtain ⟨hq, henc⟩ := Prod.mk.inj hr
  obtain ⟨bytes, hbytes, hle⟩ := Run.map_eq_ok.mp henc
  have hhandler := @handler_of_not_cached emptyReader _ _ _ hreq (by rw [hq]; decide)
  rw [relay, replyFailure, reply_of_encode hbytes (of_decide_eq_true hle), hq] at hhandler
  have hstart : serverStep emptyReader (serverInit emptyReader 10 0 : Workers Unit) (.start () queryAAAA) =
      .ok ⟨⟨0, createCache 10, emptyReader.fd.length, 0, [], []⟩, fun _ => some (handler emptyReader queryAAAA)⟩ := by
    simp only [serverStep, Pool.step, serverInit]
    congr 2
  refine ⟨⟨⟨0, createCache 10, emptyReader.fd.length, 1, [], [⟨0, queryAAAA,
    .built (setRCODE (setResp msg) SERVER_FAILURE) bytes⟩]⟩, fun _ => none⟩, ?_,
    fun _ => rfl, rfl⟩
  rw [exec, List.foldlM_cons, hstart, hhandler]
  rfl

end DnsRelayer
