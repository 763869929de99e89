import DnsRelayer.Server.Handler
import DnsRelayer.Message.WellFormed

/-!
# The calls of the handler

How many operations the parts of the handler call at most, and that those which only look up, store
and compute send and receive nothing. A handler ends after at most `HANDLER_CALLS` calls, whatever they
return.
-/

namespace DnsRelayer

open Lib

/-- An operation on the cache, the local file, the clock or the log. -/
def Op.Local : Op → Prop
  | .Socket => False
  | .close => False
  | .sendtoServer _ => False
  | .recvfrom => False
  | .sendto _ _ => False
  | _ => True

/-- Most calls of a handler. -/
def HANDLER_CALLS : ℕ := 60

variable {α β : Type} {m n : ℕ}

/-- A program that sends and receives nothing, and calls at most `n` operations. -/
abbrev Quiet (n : ℕ) (p : M α) : Prop := p.Calls Op.Local n

/-- A program that calls at most `n` operations. -/
abbrev Within (n : ℕ) (p : M α) : Prop := p.Calls (fun _ => True) n

theorem Quiet.within {p : M α} (h : Quiet m p) (hle : m ≤ n) : Within n p :=
  h.mono (fun _ _ => trivial) hle

/-! ## Parts that send nothing -/

theorem quiet_getItem (name : List UInt8) (type : UInt16) : Quiet 2 (getItem name type) := by
  refine Prog.Calls.ofExcept_bind fun key => ?_
  refine Prog.Calls.op_bind trivial fun r => ?_
  cases r with
  | none => exact Prog.Calls.pure
  | some lkn => exact Prog.Calls.op_bind trivial fun _ => Prog.Calls.pure

theorem quiet_putItem (type : UInt16) (it : Item) : Quiet 2 (putItem type it) := by
  unfold putItem
  split_ifs
  · exact Prog.Calls.pure
  · refine Prog.Calls.ofExcept_bind fun name => Prog.Calls.ofExcept_bind fun key => ?_
    refine Prog.Calls.op_bind trivial fun now => ?_
    exact Prog.Calls.op trivial

theorem quiet_answerItem (msg : Message) (it : Item) : Quiet 1 (answerItem msg it) := by
  refine Prog.Calls.ofExcept_bind fun name => ?_
  exact Prog.Calls.op_bind trivial fun now => Prog.Calls.pure

theorem quiet_storeRR (it : Item) (rr : RR) : Quiet 1 (storeRR it rr) :=
  Prog.Calls.op_bind trivial fun _ => Prog.Calls.ofExcept

theorem quiet_getRecord (fr : FileReader) (domain : List UInt8) :
    Quiet 2 (getRecord fr domain) := by
  refine Prog.Calls.ofExcept_bind fun r => ?_
  cases r with
  | none => exact Prog.Calls.pure
  | some cur =>
    refine Prog.Calls.op_bind trivial fun _ => ?_
    refine Prog.Calls.op_bind trivial fun r => ?_
    cases r with
    | none => exact Prog.Calls.fail
    | some ip => exact Prog.Calls.pure

theorem quiet_collect (rrs : List RR) (items : Items) : Quiet rrs.length (collect rrs items) := by
  induction rrs generalizing items with
  | nil => exact Prog.Calls.pure
  | cons rr rrs ih =>
    rw [List.length_cons, Nat.add_comm]
    unfold collect
    split_ifs
    · exact (quiet_storeRR _ _).bind fun _ => ih _
    · exact (quiet_storeRR _ _).bind fun _ => ih _
    · exact (quiet_storeRR _ _).bind fun _ => ih _
    · exact (ih _).mono (fun _ h => h) (Nat.le_add_left _ 1)

/-! ## The whole handler -/

theorem within_reply (parg : Arg) (msg : Message) : Within 1 (reply parg msg) := by
  refine Prog.Calls.ofExcept_bind fun bytes => ?_
  split_ifs
  · exact Prog.Calls.fail
  · exact Prog.Calls.op trivial

theorem within_replyFromCache (parg : Arg) (msg : Message) (name : List UInt8) (qtype : UInt16) :
    Within 9 (replyFromCache parg msg name qtype) := by
  have hget : ∀ name type, Within 2 (getItem name type) := fun name type =>
    (quiet_getItem name type).within le_rfl
  have hanswer : ∀ msg it, Within 1 (answerItem msg it) := fun msg it =>
    (quiet_answerItem msg it).within le_rfl
  have hreply : ∀ msg, Within 1 (do reply parg msg; return true) := fun msg =>
    (within_reply parg msg).bind (n := 0) fun _ => Prog.Calls.pure
  -- The alias takes the most: three items, two answers and the reply.
  unfold replyFromCache
  split
  · refine Prog.Calls.ofExcept_bind fun name => ?_
    refine (hget _ _).bind (n := 7) fun r => ?_
    rcases r with - | it
    · dsimp only
      split
      · refine (hget _ _).bind (n := 5) fun r => ?_
        rcases r with - | it
        · exact Prog.Calls.pure
        refine (hget _ _).bind (n := 3) fun r => ?_
        rcases r with - | tit
        · exact Prog.Calls.pure
        exact (hanswer _ _).bind (n := 2) fun msg => (hanswer _ _).bind (n := 1) fun msg => hreply msg
      · exact Prog.Calls.pure
    · exact ((hanswer _ _).bind fun msg => hreply msg).mono (fun _ h => h) (by decide)
  · exact Prog.Calls.pure

theorem within_replyFromFile (fr : FileReader) (parg : Arg) (msg : Message) (name : List UInt8)
    (qtype : UInt16) : Within 7 (replyFromFile fr parg msg name qtype) := by
  unfold replyFromFile
  split_ifs
  · refine Prog.Calls.ofExcept_bind fun name => ?_
    refine ((quiet_getRecord _ _).within le_rfl).bind (n := 5) fun r => ?_
    rcases r with - | ip
    · exact Prog.Calls.pure
    · dsimp only
      cases inet_pton ip with
      | none => exact Prog.Calls.fail
      | some addr =>
        refine ((quiet_storeRR _ _).within le_rfl).bind (n := 4) fun tmp => ?_
        refine ((quiet_putItem _ _).within le_rfl).bind (n := 2) fun _ => ?_
        refine ((quiet_answerItem _ _).within le_rfl).bind (n := 1) fun msg => ?_
        exact (within_reply _ _).bind (n := 0) fun _ => Prog.Calls.pure
  · exact Prog.Calls.pure

theorem within_cacheRecords (d : Received) : Within 38 (cacheRecords d) := by
  unfold cacheRecords
  cases hdecode : decode (d.bytes ++ d.rest) with
  | error e => exact Prog.Calls.fail
  | ok r =>
    obtain ⟨m, n⟩ := r
    -- A section of a message has at most 32 records.
    have hcollect := (quiet_collect m.resourse_record.ANSWER ⟨zeroItem, zeroItem, zeroItem⟩).within
      (decode_counted hdecode).ANSWER_fit
    have hput : ∀ type it, Within 2 (putItem type it) := fun type it =>
      (quiet_putItem type it).within le_rfl
    exact hcollect.bind (n := 6) fun items => (hput _ _).bind (n := 4) fun _ =>
      (hput _ _).bind (n := 2) fun _ => hput _ _

theorem within_relay (parg : Arg) (msg : Message) (qtype : UInt16) :
    Within 43 (relay parg msg qtype) := by
  refine Prog.Calls.op_bind (n := 42) trivial fun _ => Prog.Calls.op_bind (n := 41) trivial fun sent => ?_
  cases sent with
  | false =>
    exact (Prog.Calls.op_bind trivial fun _ => within_reply _ _).mono (fun _ h => h) (by decide)
  | true =>
    refine Prog.Calls.op_bind (n := 40) trivial fun r => ?_
    rcases r with - | d
    · exact (within_reply _ _).mono (fun _ h => h) (by decide)
    exact Prog.Calls.op_bind (n := 39) trivial fun _ => Prog.Calls.op_bind (n := 38) trivial fun _ =>
      within_cacheRecords d

/-- A handler calls at most 60 operations. -/
theorem within_handler (fr : FileReader) (parg : Arg) : Within HANDLER_CALLS (handler fr parg) := by
  refine Prog.Calls.ofExcept_bind fun r => Prog.Calls.op_bind (n := 59) trivial fun _ => ?_
  refine (within_replyFromCache _ _ _ _).bind (n := 50) fun replied => ?_
  cases replied with
  | true => exact Prog.Calls.pure
  | false =>
    refine (within_replyFromFile _ _ _ _ _).bind (n := 43) fun replied => ?_
    cases replied with
    | true => exact Prog.Calls.pure
    | false => exact within_relay _ _ _

end DnsRelayer
