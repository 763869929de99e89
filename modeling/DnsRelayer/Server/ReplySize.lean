import DnsRelayer.Message.Footprint
import DnsRelayer.Server.Expiry
import DnsRelayer.Server.InBounds
import DnsRelayer.Server.Matching

/-!
# How much of the buffer a reply takes

A reply has the questions of its request, all of them, the records of its answer and authority
sections, and the records of the items that are served (`replyEntries`). The names of a request that
is read by way of pointers are written again with pointers of another kind, so that a reply may be
longer than its request. `encode` has no length of the buffer: it stays within it exactly when the
count of the elements does (`reply_fits_iff`).
-/

namespace DnsRelayer

open Lib
open Prog hiding pure

/-- The records in the answer section of a reply: those that are there, and then those of the items,
as many as there is room for. -/
def answerRecords (rrs : List RR) : List (Item × ℤ) → List RR
  | [] => rrs
  | p :: served => answerRecords (rrs ++ (p.1.records p.2).take (MAX_SIZE - rrs.length)) served

/-- The elements of a reply. -/
def replyEntries (msg : Message) (served : List (Item × ℤ)) : List Entry :=
  msg.ques.map .ques ++ (answerRecords msg.resourse_record.ANSWER served ++
    msg.resourse_record.AUTHORITY).map .rr

variable {msg : Message} {q : Question} {parg : Arg} {it : Item} {served : List (Item × ℤ)} {now : ℤ}

/-- `Item2Msg` adds the records of an item, as many as there is room for. -/
theorem Item2Msg_records (hc : msg.Counted) :
    (Item2Msg msg it it.name now).resourse_record.ANSWER = msg.resourse_record.ANSWER ++
      (it.records now).take (MAX_SIZE - msg.resourse_record.ANSWER.length) := by
  unfold Item.records
  rcases Item2Msg_answers msg it it.name now with ⟨hblocks, heq⟩ | ⟨hnot, heq⟩
  · rw [heq, if_pos hblocks, List.take_nil, List.append_nil]
    rfl
  · rw [heq, if_neg hnot, hc.ANSWER]

/-- What is built with items is counted, and has their records. -/
theorem foldl_Item2Msg_records (hc : msg.Counted) {m' : Message}
    (hm' : served.foldl (fun msg p => Item2Msg msg p.1 p.1.name p.2) msg = m') :
    m'.bare = msg.bare ∧ m'.Counted ∧
      m'.resourse_record.ANSWER = answerRecords msg.resourse_record.ANSWER served := by
  induction served generalizing msg with
  | nil =>
    subst hm'
    exact ⟨rfl, hc, rfl⟩
  | cons p served ih =>
    obtain ⟨hbare, -, hcounted⟩ := Item2Msg_spec msg p.1 p.1.name p.2
    obtain ⟨hbare', hc', hanswer⟩ := ih (hcounted hc) hm'
    rw [Item2Msg_records hc] at hanswer
    exact ⟨hbare'.trans hbare, hc', hanswer⟩

/-- A reply is counted, and has its elements. -/
theorem servedReply_entries (hc : msg.Counted) (hadd : msg.resourse_record.ADDITIONAL = []) :
    (servedReply msg served).Counted ∧ (servedReply msg served).entries = replyEntries msg served := by
  unfold servedReply
  by_cases hfailed : served = []
  -- Nothing was found: the reply has the records of the request.
  · subst hfailed
    rw [if_pos rfl]
    refine ⟨⟨hc.q_count, hc.ANSWER, hc.AUTHORITY, hc.ADDITIONAL, hc.q_fit, hc.ANSWER_fit,
      hc.AUTHORITY_fit, hc.ADDITIONAL_fit⟩, ?_⟩
    show msg.entries = replyEntries msg []
    simp only [Message.entries, replyEntries, answerRecords, hadd, List.map_append, List.map_nil,
      List.append_nil]
  · rw [if_neg hfailed]
    generalize hm' : served.foldl (fun msg p => Item2Msg msg p.1 p.1.name p.2) msg = m'
    obtain ⟨hbare, hc', hanswer⟩ := foldl_Item2Msg_records hc hm'
    -- The items are put among the answers; the rest of the message stays.
    have hques : m'.ques = msg.ques :=
      show m'.bare.ques = msg.bare.ques from congrArg Message.ques hbare
    have hrecords : m'.bare.resourse_record = msg.bare.resourse_record :=
      congrArg Message.resourse_record hbare
    have hauth : m'.bare.resourse_record.AUTHORITY = msg.bare.resourse_record.AUTHORITY :=
      congrArg Sections.AUTHORITY hrecords
    have hadd' : m'.bare.resourse_record.ADDITIONAL = msg.bare.resourse_record.ADDITIONAL :=
      congrArg Sections.ADDITIONAL hrecords
    change m'.resourse_record.AUTHORITY = msg.resourse_record.AUTHORITY at hauth
    change m'.resourse_record.ADDITIONAL = msg.resourse_record.ADDITIONAL at hadd'
    rw [hadd] at hadd'
    refine ⟨hc', ?_⟩
    simp only [Message.entries, replyEntries, hques, hanswer, hauth, hadd', List.map_append,
      List.map_nil, List.append_nil]

/-! ## The names of a reply -/

/-- The records of an item are within their arrays. -/
theorem Item.records_within (hname : it.name.length < STR_LEN) (hit : it.Terminated) :
    ∀ r ∈ it.records now, (Entry.rr r).Within := by
  intro r hr
  unfold Item.records at hr
  split_ifs at hr
  · exact absurd hr List.not_mem_nil
  -- A record of the item: its data is an address, or a string that was terminated.
  · obtain ⟨v, hv, rfl⟩ := List.mem_map.mp hr
    have hshort : (strncpy it.name MAX_LEN).length < MAX_LEN := by
      rw [strncpy, List.length_take]
      unfold STR_LEN at hname
      unfold MAX_LEN
      omega
    by_cases hA : it.type.toUInt16 = A
    · simp only [Item.record, if_pos hA]
      refine ⟨hshort, Nat.zero_lt_succ 255, fun _ => ?_⟩
      exact (UInt16.toNat_ofNat' : (UInt16.ofNat v.length).toNat = _).trans_le (Nat.mod_le _ _)
    · simp only [Item.values, if_neg hA] at hv
      have hval : v.length < STR_LEN + 1 := hit v (List.mem_of_mem_take hv)
      simp only [Item.record, if_neg hA]
      refine ⟨hshort, ?_, fun h => by cases h⟩
      show (strncpy v MAX_LEN).length < MAX_LEN
      rw [strncpy, List.length_take]
      unfold STR_LEN at hval
      unfold MAX_LEN
      omega

theorem answerRecords_within {rrs : List RR} (hrrs : ∀ r ∈ rrs, (Entry.rr r).Within)
    (hserved : ∀ p ∈ served, p.1.name.length < STR_LEN ∧ p.1.Terminated) :
    ∀ r ∈ answerRecords rrs served, (Entry.rr r).Within := by
  induction served generalizing rrs with
  | nil => exact hrrs
  | cons p served ih =>
    obtain ⟨hname, hit⟩ := hserved p List.mem_cons_self
    apply ih
    · intro r hr
      rcases List.mem_append.mp hr with hr | hr
      · exact hrrs r hr
      · exact Item.records_within hname hit r (List.mem_of_mem_take hr)
    · exact fun p hp => hserved p (List.mem_cons_of_mem _ hp)

/-- The message that a reply is begun with has names within their arrays, and no additional records. -/
theorem Asks.within (h : Asks parg msg q) :
    (∀ x ∈ msg.entries, x.Within) ∧ msg.resourse_record.ADDITIONAL = [] := by
  obtain ⟨⟨m, n⟩, hdecode, h⟩ := Run.bind_eq_ok.mp h
  have hwithin := within_of_decode hdecode
  dsimp only at h
  split at h
  · cases h
  · obtain ⟨rfl, -⟩ := Prod.mk.inj (Except.ok.inj h)
    refine ⟨fun x hx => hwithin x ?_, rfl⟩
    have hsame : (setFlag (setResp (releaseAdditionalRR m)) RA).entries = m.ques.map .ques ++
        (m.resourse_record.ANSWER.map .rr ++ (m.resourse_record.AUTHORITY.map .rr ++ [])) := rfl
    rw [hsame, List.append_nil] at hx
    simp only [Message.entries, List.mem_append] at hx ⊢
    tauto

/-! ## Replies -/

/-- Items are put into a message one after the other, each at the time that is read for it. -/
theorem foldlM_answerItem_wp {its : List Item} (hits : ∀ it ∈ its, it.name.length < STR_LEN)
    {Q : Run Message → Prop} :
    (its.foldlM answerItem msg).wp anyResults Q ↔
      ∀ served : List (Item × ℤ), served.map (·.1) = its →
        Q (.ok (served.foldl (fun msg p => Item2Msg msg p.1 p.1.name p.2) msg)) := by
  induction its generalizing msg with
  | nil =>
    -- The time that is read may be any.
    constructor
    · intro h served hserved
      obtain rfl := List.map_eq_nil_iff.mp hserved
      exact h
    · intro h
      exact h [] rfl
  | cons it its ih =>
    have hname : terminated it.name = .ok it.name := if_neg (Nat.not_le.mpr (hits it List.mem_cons_self))
    have hrest : ∀ it ∈ its, it.name.length < STR_LEN := fun it' h => hits it' (List.mem_cons_of_mem _ h)
    rw [List.foldlM_cons, answerItem, hname, wp_bind]
    constructor
    · intro h served hserved
      obtain ⟨p, served, rfl, rfl, htail⟩ := List.map_eq_cons_iff.mp hserved
      exact (ih hrest).mp (h.2 p.2 trivial) served htail
    · intro h
      refine ⟨trivial, fun now _ => (ih hrest).mpr fun served hserved => ?_⟩
      exact h ((it, now) :: served) (by rw [List.map_cons, hserved])

/-- `reply` sends a message exactly when its bytes fit the buffer. -/
theorem reply_wp : (reply parg msg).wp anyResults (fun r => r = .ok ()) ↔
    ∃ bytes, encode msg = .ok bytes ∧ bytes.length ≤ BUFF_SIZE := by
  -- A run that ends in a fault sent nothing.
  have hfault : ∀ e : Fault, ¬ (.error e : Run Unit) = .ok () := by
    intro e h
    cases h
  unfold reply
  rw [wp_bind]
  cases encode msg with
  | error e =>
    constructor
    · intro h
      exact absurd h (hfault e)
    · rintro ⟨_, h, -⟩
      cases h
  | ok bytes =>
    have hsent : (if bytes.length > BUFF_SIZE then Prog.fail .overrun
        else call (.sendto parg (.built msg bytes)) : M Unit).wp anyResults (fun r => r = .ok ()) ↔
          bytes.length ≤ BUFF_SIZE := by
      split_ifs with hlong
      · exact iff_of_false (hfault .overrun) (Nat.not_le.mpr hlong)
      · exact iff_of_true ⟨trivial, fun _ _ => rfl⟩ (Nat.not_lt.mp hlong)
    constructor
    · intro h
      exact ⟨bytes, rfl, hsent.mp h⟩
    · rintro ⟨_, h, hle⟩
      obtain rfl := Except.ok.inj h
      exact hsent.mpr hle

/-- A reply of items that are found is sent, whatever the clock says, exactly when the reply of the items
at any times fits the buffer. -/
theorem replyItems_wp {its : List Item} (hits : ∀ it ∈ its, it.name.length < STR_LEN) (hne : its ≠ []) :
    (replyItems parg msg its).wp anyResults (fun r => r = .ok true) ↔
      ∀ served : List (Item × ℤ), served.map (·.1) = its →
        ∃ bytes, encode (servedReply msg served) = .ok bytes ∧ bytes.length ≤ BUFF_SIZE := by
  have hsome : ∀ served : List (Item × ℤ), served.map (·.1) = its → servedReply msg served =
      served.foldl (fun msg p => Item2Msg msg p.1 p.1.name p.2) msg := by
    intro served hserved
    refine if_neg fun h => hne ?_
    rw [← hserved, h, List.map_nil]
  -- All items are put in, and then the reply is sent.
  have hbuild : replyItems parg msg its =
      its.foldlM answerItem msg >>= fun msg => reply parg msg >>= fun _ => Pure.pure true := by
    cases its with
    | nil => exact absurd rfl hne
    | cons it its => rfl
  rw [hbuild, wp_bind, foldlM_answerItem_wp hits]
  refine forall_congr' fun served => forall_congr' fun hserved => ?_
  rw [hsome served hserved, ← @reply_wp _ parg, after_ok, wp_bind]
  constructor
  · intro h
    refine h.mono fun x hx => ?_
    cases x with
    | ok a => rfl
    | error e => cases hx
  · intro h
    refine h.mono fun x hx => ?_
    subst hx
    rfl

/-- For every request that is read, and every items that are served for it, which the cache may have,
the reply is encoded within the buffer exactly when as many bytes as are counted for its elements fit
there, after the header. -/
theorem reply_fits_iff (hasks : Asks parg msg q)
    (hserved : ∀ p ∈ served, p.1.name.length < STR_LEN ∧ p.1.Terminated) :
    (∃ bytes, encode (servedReply msg served) = .ok bytes ∧ bytes.length ≤ BUFF_SIZE) ↔
      12 + entriesFootprint (replyEntries msg served) [] ≤ BUFF_SIZE := by
  obtain ⟨hwithin, hadd⟩ := hasks.within
  obtain ⟨hc, hentries⟩ := @servedReply_entries msg served hasks.counted hadd
  have hques : ∀ q ∈ msg.ques, (Entry.ques q).Within := fun q hq =>
    hwithin _ (List.mem_append_left _ (List.mem_map_of_mem hq))
  have hanswer : ∀ r ∈ msg.resourse_record.ANSWER, (Entry.rr r).Within := fun r hr =>
    hwithin _ (List.mem_append_right _ (List.mem_append_left _ (List.mem_map_of_mem hr)))
  have hauth : ∀ r ∈ msg.resourse_record.AUTHORITY, (Entry.rr r).Within := fun r hr =>
    hwithin _ (List.mem_append_right _ (List.mem_append_right _
      (List.mem_append_left _ (List.mem_map_of_mem hr))))
  -- What was decoded is within its arrays, and so are the records of the items.
  have hreply : ∀ x ∈ (servedReply msg served).entries, x.Within := by
    rw [hentries]
    intro x hx
    rcases List.mem_append.mp hx with hx | hx
    · obtain ⟨q, hq, rfl⟩ := List.mem_map.mp hx
      exact hques q hq
    · obtain ⟨r, hr, rfl⟩ := List.mem_map.mp hx
      rcases List.mem_append.mp hr with hr | hr
      · exact answerRecords_within hanswer hserved r hr
      · exact hauth r hr
  rw [encode_fits_iff hc hreply, Message.footprint, hentries]

/-- `reply_fits_iff` for a query for an address that the cache has. -/
theorem reply_fits_iff_queryA : ∃ msg q, Asks queryA msg q ∧
    ((∃ bytes, encode (servedReply msg [({ zeroItem with name := [97], type := 1, num := 1 }, 7)]) =
        .ok bytes ∧ bytes.length ≤ BUFF_SIZE) ↔
      12 + entriesFootprint (replyEntries msg
        [({ zeroItem with name := [97], type := 1, num := 1 }, 7)]) [] ≤ BUFF_SIZE) := by
  obtain ⟨⟨msg, q⟩, hasks, -⟩ := Run.map_eq_ok.mp (show (request (queryA.buff.bytes ++
    queryA.buff.rest)).map (·.2.q_type) = .ok 1 by decide +kernel)
  refine ⟨msg, q, hasks, reply_fits_iff hasks ?_⟩
  intro p hp
  obtain rfl := List.mem_singleton.mp hp
  exact ⟨by decide, fun s hs => by rw [List.eq_of_mem_replicate hs]; decide⟩

/-- A label of `n` bytes. -/
def longLabel (n : ℕ) : List UInt8 := UInt8.ofNat n :: List.replicate n 97

/-- A request for records of type `AAAA` with four questions for one name of 253 bytes, three of them by
way of a pointer to the first. -/
def fourQuestions : Arg :=
  ⟨padded ([0, 3, 1, 0, 0, 4, 0, 0, 0, 0, 0, 0] ++ longLabel 63 ++ longLabel 63 ++ longLabel 63 ++
    longLabel 61 ++ [0, 0, 28, 0, 1, 192, 12, 0, 28, 0, 1, 192, 12, 0, 28, 0, 1, 192, 12, 0, 28, 0, 1])
    (by decide +kernel), 0⟩

/-- The server failure for `fourQuestions`, which has 289 bytes, is written past the buffer: the
pieces of a name of which the tails are long are written again each time. -/
theorem reply_overrun : fourQuestions.buff.bytes.length = 289 ∧ ∃ msg q, Asks fourQuestions msg q ∧
    ∃ bytes, encode (servedReply msg []) = .ok bytes ∧ BUFF_SIZE < bytes.length := by
  have hrun : fourQuestions.buff.bytes.length = 289 ∧
      (request (fourQuestions.buff.bytes ++ fourQuestions.buff.rest)).map
        (fun r => (encode (servedReply r.1 [])).map List.length) = .ok (.ok 1048) := by
    decide +kernel
  obtain ⟨⟨msg, q⟩, hasks, hreply⟩ := Run.map_eq_ok.mp hrun.2
  obtain ⟨bytes, hencode, hlen⟩ := Run.map_eq_ok.mp hreply
  exact ⟨hrun.1, msg, q, hasks, bytes, hencode, by rw [hlen]; decide⟩

end DnsRelayer
