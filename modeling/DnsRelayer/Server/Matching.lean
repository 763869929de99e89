import DnsRelayer.Server.Override
import DnsRelayer.Message.Size

/-!
# What a reply says

A reply is made of the items that are served: one that is cached for the question, one for an alias and
one for the addresses of its target, one of an address in the local file, or none when the server
was asked in vain (`Served`). `exists_reply` says of every reply that is built so that it can be
encoded, fits the buffer, and is read as the records of the items, with the header and the question of
the request.

So what a client reads of a reply for a name of the local file is the listed address, as long as no
response has claimed the name (`file_overrides`).
-/

namespace DnsRelayer

open Lib

/-- A name of 1 to 43 bytes, in labels of 1 to 63 bytes. -/
structure Named (name : List UInt8) : Prop where
  encodable : Encodable name
  length_le : name.length ≤ 43

/-- A query with one question, of a type in the table of names, and no records but additional ones. -/
structure Standard (m : Message) (q : Question) : Prop where
  ques : m.ques = [q]
  q_type : q.q_type.toNat < TYPENAME_SIZE
  rcode : m.rcode = 0
  ANSWER : m.resourse_record.ANSWER = []
  AUTHORITY : m.resourse_record.AUTHORITY = []
  name : Named q.q_name

/-- The records of an item can be sent. -/
structure Item.Sound (it : Item) : Prop where
  cached : Cached it.type.toUInt16
  name : Named it.name
  values_ne : it.values ≠ []
  values_le : it.values.length ≤ MAX_NUM
  value : ∀ v ∈ it.values, if it.type.toUInt16 = A then v.length = 4 else Named v

/-- The cache had nothing for the question, or an alias only, whose target it did not have. -/
def Missed (q : Question) (got : List Item) : Prop :=
  got = [] ∨ q.q_type = A ∧ ∃ it, got = [it] ∧ it.name = q.q_name ∧ it.type.toUInt16 = CNAME

/-- The items that are served for a question, of those that the cache had for it. -/
inductive Served (lines : List Line) (q : Question) (got : List Item) : List Item → Prop
  | hit {it : Item} (got_eq : got = [it]) (name : it.name = q.q_name)
    (type : it.type.toUInt16 = q.q_type) : Served lines q got [it]
  | aliasHit {it tit : Item} (got_eq : got = [it, tit]) (q_type : q.q_type = A)
    (name : it.name = q.q_name) (type : it.type.toUInt16 = CNAME)
    (target : it.values.head? = some tit.name) (type' : tit.type.toUInt16 = A) :
    Served lines q got [it, tit]
  | file {it : Item} {ip addr : List UInt8} (missed : Missed q got) (q_type : q.q_type = A)
    (hlisted : listed lines q.q_name = some ip) (haddr : inet_pton (cstr ip) = some addr)
    (gives : it.Gives q.q_name addr) : Served lines q got [it]
  | failure (missed : Missed q got) (unlisted : q.q_type = A → listed lines q.q_name = none) :
    Served lines q got []

/-- The records of an item, at a time. One that blocks its name has none. -/
def Item.records (it : Item) (now : ℤ) : List RR :=
  if it.Blocks then [] else it.values.map (it.record it.name now)

/-- The records that are served, those of each item at the time that was read for it. -/
def servedRecords (served : List (Item × ℤ)) : List RR := served.flatMap fun p => p.1.records p.2

/-- The response code with the items: the server failed when there is none, and a name does not exist
when its item blocks it. -/
def servedRCODE (its : List Item) : UInt8 :=
  if its = [] then SERVER_FAILURE.toUInt8 else if ∃ it ∈ its, it.Blocks then NAME_ERR.toUInt8 else 0

/-- The reply of the items. -/
def servedReply (msg : Message) (served : List (Item × ℤ)) : Message :=
  if served = [] then setRCODE (setResp msg) SERVER_FAILURE
  else served.foldl (fun msg p => Item2Msg msg p.1 p.1.name p.2) msg

/-- A message answers a request with a question. -/
structure Answers (m : Message) (q : Question) (m' : Message) : Prop where
  ID : m'.ID = m.ID
  qr : m'.qr = 1
  opcode : m'.opcode = m.opcode
  rd : m'.rd = m.rd
  ra : m'.ra = 1
  ques : m'.ques = [q]
  AUTHORITY : m'.resourse_record.AUTHORITY = []
  ADDITIONAL : m'.resourse_record.ADDITIONAL = []

variable {lines : List Line} {m msg : Message} {q : Question} {got its : List Item} {it : Item}
  {served : List (Item × ℤ)} {now : ℤ} {name : List UInt8}

/-! ## Building a reply -/

/-- A message without what a reply adds to it. -/
def Message.bare (m : Message) : Message :=
  { m with
    flag := 0
    RR_count := { m.RR_count with ANSWER := 0 }
    resourse_record := { m.resourse_record with ANSWER := [] } }

/-- Adding records changes the answer section only, which stays counted. -/
theorem foldl_addRR_spec {α : Type} (f : α → RR) (vs : List α) (msg : Message) :
    (vs.foldl (fun msg v => (addRR msg (f v) .ANSWER).2) msg).bare = msg.bare ∧
    (vs.foldl (fun msg v => (addRR msg (f v) .ANSWER).2) msg).flag = msg.flag ∧
    (msg.Counted → (vs.foldl (fun msg v => (addRR msg (f v) .ANSWER).2) msg).Counted) := by
  induction vs generalizing msg with
  | nil => exact ⟨rfl, rfl, fun h => h⟩
  | cons v vs ih =>
    rw [List.foldl_cons]
    obtain ⟨hbare, hflag, hcounted⟩ := ih (addRR msg (f v) .ANSWER).2
    -- A message that is full stays as it is.
    by_cases hfull : msg.RR_count.ANSWER.toNat ≥ MAX_SIZE
    · rw [addRR_of_full hfull] at hbare hflag hcounted ⊢
      exact ⟨hbare, hflag, hcounted⟩
    · rw [addRR_of_room hfull] at hbare hflag hcounted ⊢
      refine ⟨hbare, hflag, fun hc => hcounted ?_⟩
      have hlt : msg.RR_count.ANSWER.toNat < 32 := not_le.mp hfull
      have hcount : (msg.RR_count.ANSWER + 1).toNat = msg.RR_count.ANSWER.toNat + 1 := by
        rw [UInt16.toNat_add]
        exact Nat.mod_eq_of_lt (by simp; omega)
      refine ⟨hc.q_count, ?_, hc.AUTHORITY, hc.ADDITIONAL, hc.q_fit, ?_, hc.AUTHORITY_fit,
        hc.ADDITIONAL_fit⟩
      · rw [hcount, hc.ANSWER, List.length_append, List.length_singleton]
      · rw [List.length_append, List.length_singleton, ← hc.ANSWER]
        exact hlt

/-- `Item2Msg` changes the response code and the answer section only. -/
theorem Item2Msg_spec (msg : Message) (it : Item) (name : List UInt8) (now : ℤ) :
    (Item2Msg msg it name now).bare = msg.bare ∧
    (Item2Msg msg it name now).flag = (if it.Blocks then (setRCODE msg NAME_ERR).flag else msg.flag) ∧
    (msg.Counted → (Item2Msg msg it name now).Counted) := by
  by_cases hA : it.type.toUInt16 = A
  · by_cases hzero : it.ipv4.head? = some [0, 0, 0, 0]
    · have hblocks : it.Blocks := ⟨hA, hzero⟩
      simp only [Item2Msg, if_pos hA, if_pos hzero, if_pos hblocks]
      exact ⟨rfl, trivial, fun h => ⟨h.q_count, h.ANSWER, h.AUTHORITY, h.ADDITIONAL, h.q_fit,
        h.ANSWER_fit, h.AUTHORITY_fit, h.ADDITIONAL_fit⟩⟩
    · have hnot : ¬ it.Blocks := fun h => hzero h.2
      simp only [Item2Msg, if_pos hA, if_neg hzero, if_neg hnot]
      exact foldl_addRR_spec _ _ msg
  · have hnot : ¬ it.Blocks := fun h => hA h.1
    simp only [Item2Msg, if_neg hA, if_neg hnot]
    exact foldl_addRR_spec _ _ msg

/-- A reply has the records of the items, as long as there is room for them, and a name error when one of
them blocks its name. -/
theorem foldl_Item2Msg_spec (hc : msg.Counted) (hroom : msg.resourse_record.ANSWER.length +
      (served.map (·.1.values.length)).sum ≤ MAX_SIZE) {m' : Message}
    (hm' : served.foldl (fun msg p => Item2Msg msg p.1 p.1.name p.2) msg = m') :
    m'.bare = msg.bare ∧ m'.Counted ∧ m'.flags₀ = msg.flags₀ ∧ m'.ra = msg.ra ∧
      m'.rcode = (if ∃ it ∈ served.map (·.1), it.Blocks then msg.rcode ||| 3 else msg.rcode) ∧
      m'.resourse_record.ANSWER = msg.resourse_record.ANSWER ++ servedRecords served := by
  induction served generalizing msg with
  | nil =>
    subst hm'
    exact ⟨rfl, hc, rfl, rfl, by simp, by simp [servedRecords]⟩
  | cons p served ih =>
    rw [List.map_cons, List.sum_cons] at hroom
    obtain ⟨hbare, hflag, hcounted⟩ := Item2Msg_spec msg p.1 p.1.name p.2
    have hanswers := Item2Msg_answers msg p.1 p.1.name p.2
    rw [List.foldl_cons] at hm'
    generalize Item2Msg msg p.1 p.1.name p.2 = msg₁ at *
    -- The records of the item, which all fit.
    have hanswer : msg₁.resourse_record.ANSWER =
        msg.resourse_record.ANSWER ++ p.1.records p.2 := by
      rw [Item.records]
      rcases hanswers with ⟨hblocks, rfl⟩ | ⟨hnot, heq⟩
      · rw [if_pos hblocks, List.append_nil]
        rfl
      · rw [heq, if_neg hnot, List.take_of_length_le]
        rw [List.length_map, hc.ANSWER]
        omega
    have hlen : msg₁.resourse_record.ANSWER.length ≤
        msg.resourse_record.ANSWER.length + p.1.values.length := by
      rw [hanswer, List.length_append, Item.records]
      split_ifs
      · exact Nat.add_le_add_left (Nat.zero_le _) _
      · rw [List.length_map]
    obtain ⟨hbare', hc', hflags, hra, hrcode, hrest⟩ := ih (hcounted hc) (by omega) hm'
    have hcode : msg₁.flags₀ = msg.flags₀ ∧ msg₁.ra = msg.ra ∧
        msg₁.rcode = if p.1.Blocks then msg.rcode ||| 3 else msg.rcode := by
      have hsame : ∀ {m₂ : Message}, msg₁.flag = m₂.flag → msg₁.flags₀ = m₂.flags₀ ∧
          msg₁.ra = m₂.ra ∧ msg₁.rcode = m₂.rcode := by
        intro m₂ h
        simp only [Message.flags₀, Message.ra, Message.rcode, Message.flags₁, h, and_self]
      split_ifs at hflag ⊢
      · obtain ⟨h₀, hra₁, hrcode₁⟩ := hsame hflag
        exact ⟨h₀.trans (Message.flags₀_setRCODE NAME_ERR),
          hra₁.trans (Message.ra_setRCODE (by decide)),
          hrcode₁.trans (Message.rcode_setRCODE NAME_ERR)⟩
      · exact hsame hflag
    refine ⟨hbare'.trans hbare, hc', hflags.trans hcode.1, hra.trans hcode.2.1, ?_, ?_⟩
    · have hthree : msg.rcode ||| 3 ||| 3 = msg.rcode ||| 3 := by rw [UInt8.or_assoc, UInt8.or_self]
      rw [hrcode, hcode.2.2]
      simp only [List.map_cons, List.exists_mem_cons_iff]
      by_cases hblocks : p.1.Blocks <;> by_cases hrest : ∃ it ∈ served.map (·.1), it.Blocks
      · simp only [hblocks, hrest, if_true, true_or, hthree]
      · simp only [hblocks, hrest, if_true, if_false, true_or]
      · simp only [hblocks, hrest, if_true, if_false, or_true]
      · simp only [hblocks, hrest, if_false, or_self]
    · rw [hrest, hanswer, List.append_assoc]
      rfl

/-- The reply that is begun with a request. -/
def begunReply (m : Message) : Message := setFlag (setResp (releaseAdditionalRR m)) RA

theorem asks_of_standard {parg : Arg} {n : ℕ}
    (hdecode : decode (parg.buff.bytes ++ parg.buff.rest) = .ok (m, n)) (hm : Standard m q) :
    Asks parg (begunReply m) q := by
  have hques : (setFlag (setResp (releaseAdditionalRR m)) RA).ques = [q] := hm.ques
  simp only [Asks, request, hdecode, Run.ok_bind, hques]
  rfl

/-! ## The records of a reply -/

/-- The record of a value of an item. -/
theorem Item.Sound.record (h : it.Sound) {v : List UInt8} (hv : v ∈ it.values) (now : ℤ) :
    (it.record it.name now v).name = it.name ∧ (Entry.rr (it.record it.name now v)).Typed ∧
      (Entry.rr (it.record it.name now v)).names =
        it.name :: (if it.type.toUInt16 = A then [] else [v]) ∧
      (it.record it.name now v).room ≤ (if it.type.toUInt16 = A then 4 else 45) := by
  have hname : strncpy it.name MAX_LEN = it.name :=
    strncpy_of_length_le (h.name.length_le.trans (by decide))
  have hvalue := h.value v hv
  -- An address is four bytes, else the data is a name.
  by_cases hA : it.type.toUInt16 = A
  · rw [if_pos hA] at hvalue
    have hrecord : it.record it.name now v = ⟨it.name, A, IN, toUInt32 (it.ddl - now),
        UInt16.ofNat v.length, v, .BINARY_TYPE, []⟩ := by
      simp [Item.record, setRRData, setRRName, zeroRR, hname, hA]
    have hlen : (UInt16.ofNat v.length).toNat = 4 := by
      rw [hvalue]
      rfl
    rw [hrecord, if_pos hA, if_pos hA]
    exact ⟨rfl, ⟨by simp [NamesData, A, CNAME, NS], fun _ => (hlen.trans hvalue.symm).le⟩, rfl,
      hlen.le⟩
  · rw [if_neg hA] at hvalue
    have hcopy : strncpy v MAX_LEN = v := strncpy_of_length_le (hvalue.length_le.trans (by decide))
    have hnames : NamesData it.type.toUInt16 := (h.cached.resolve_left hA).symm
    have hrecord : it.record it.name now v = ⟨it.name, it.type.toUInt16, IN,
        toUInt32 (it.ddl - now), 0, [], .STRING_TYPE, v⟩ := by
      simp [Item.record, setRRNameData, setRRName, zeroRR, hname, hA, hcopy]
    rw [hrecord, if_neg hA, if_neg hA]
    exact ⟨rfl, ⟨⟨fun _ => hnames, fun _ => rfl⟩, fun h => by cases h⟩, rfl,
      Nat.add_le_add_right hvalue.length_le 2⟩

/-- The records of an item are typed, their names can be sent, and they take a bounded room. -/
theorem Item.Sound.records (h : it.Sound) (now : ℤ) :
    (∀ r ∈ it.records now, r.name = it.name ∧ (Entry.rr r).Typed ∧
      ∀ k ∈ (Entry.rr r).names, Named k) ∧
    roomFor (it.records now) ≤ MAX_NUM * (12 + if it.type.toUInt16 = A then 4 else 45) := by
  -- An item that blocks its name gives no records.
  by_cases hblocks : it.Blocks
  · rw [Item.records, if_pos hblocks]
    exact ⟨fun r hr => absurd hr List.not_mem_nil, Nat.zero_le _⟩
  rw [Item.records, if_neg hblocks]
  constructor
  · intro r hr
    obtain ⟨v, hv, rfl⟩ := List.mem_map.mp hr
    obtain ⟨hname, htyped, hnames, -⟩ := h.record hv now
    refine ⟨hname, htyped, fun k hk => ?_⟩
    rw [hnames] at hk
    have hvalue := h.value v hv
    rcases List.mem_cons.mp hk with rfl | hk
    · exact h.name
    · split_ifs at hk hvalue
      · exact absurd hk List.not_mem_nil
      · exact List.mem_singleton.mp hk ▸ hvalue
  · refine (roomFor_le fun r hr => ?_).trans (Nat.mul_le_mul_right _ ?_)
    · obtain ⟨v, hv, rfl⟩ := List.mem_map.mp hr
      exact (h.record hv now).2.2.2
    · rw [List.length_map]
      exact h.values_le

/-- The item of an address in the local file. -/
theorem Item.Gives.sound {addr : List UInt8} (h : it.Gives name addr) (hname : Named name)
    (haddr : addr.length = 4) : it.Sound where
  cached := Or.inl h.type
  name := h.name ▸ hname
  values_ne := by simp [h.values]
  values_le := by simp [h.values, MAX_NUM]
  value v hv := by
    rw [h.values, List.mem_singleton] at hv
    rw [if_pos h.type, hv, haddr]

/-- The items that are served are sound, when those that the cache had are. -/
theorem Served.sound (h : Served lines q got its) (hq : Named q.q_name)
    (hgot : ∀ it ∈ got, it.Sound) : ∀ it ∈ its, it.Sound := by
  cases h with
  | hit got_eq => exact got_eq ▸ hgot
  | aliasHit got_eq => exact got_eq ▸ hgot
  | file _ _ _ haddr gives =>
    intro it hit
    obtain rfl := List.mem_singleton.mp hit
    exact gives.sound hq (length_of_inet_pton haddr)
  | failure => exact fun it hit => absurd hit List.not_mem_nil

/-- The owners of the records that are served are in the reply before them, and there is room for
all. -/
theorem Served.chained (h : Served lines q got (served.map (·.1)))
    (hsound : ∀ it ∈ served.map (·.1), it.Sound) :
    Chained [q.q_name] (servedRecords served) ∧ roomFor (servedRecords served) ≤ 730 ∧
      (served.map (·.1.values.length)).sum ≤ 2 * MAX_NUM := by
  -- The records of one item, for the name of the question.
  have hone : ∀ {it : Item} {now : ℤ}, it.Sound → it.name = q.q_name →
      Chained [q.q_name] (it.records now) := fun {it now} hit hname =>
    chained_of_forall fun r hr => by
      rw [((hit.records now).1 r hr).1, hname]
      exact List.mem_singleton_self _
  have hroom : ∀ {it : Item} {now : ℤ}, it.Sound → roomFor (it.records now) ≤ 570 := by
    intro it now hit
    refine (hit.records now).2.trans ?_
    unfold MAX_NUM
    split_ifs <;> omega
  have hsingle : ∀ {it : Item}, served.map (·.1) = [it] → it.name = q.q_name →
      Chained [q.q_name] (servedRecords served) ∧ roomFor (servedRecords served) ≤ 730 ∧
        (served.map (·.1.values.length)).sum ≤ 2 * MAX_NUM := by
    intro it hits hname
    obtain ⟨p, rfl, rfl⟩ := List.map_eq_singleton_iff.mp hits
    have hit := hsound p.1 (by simp)
    simp only [servedRecords, List.flatMap_cons, List.flatMap_nil, List.append_nil, List.map_cons,
      List.map_nil, List.sum_cons, List.sum_nil]
    refine ⟨hone hit hname, (hroom hit).trans (by omega), ?_⟩
    have := hit.values_le
    omega
  generalize hits : served.map (·.1) = its at h hsound
  cases h with
  | hit _ name => exact hsingle hits name
  | file _ _ _ _ gives => exact hsingle hits gives.name
  | failure =>
    obtain rfl := List.map_eq_nil_iff.mp hits
    exact ⟨trivial, Nat.zero_le _, Nat.zero_le _⟩
  | @aliasHit it tit _ _ name type target type' =>
    obtain ⟨p, rest, rfl, rfl, hrest⟩ := List.map_eq_cons_iff.mp hits
    obtain ⟨p', rfl, rfl⟩ := List.map_eq_singleton_iff.mp hrest
    have hit := hsound p.1 (by simp)
    have htit := hsound p'.1 (by simp)
    simp only [servedRecords, List.flatMap_cons, List.flatMap_nil, List.append_nil, List.map_cons,
      List.map_nil, List.sum_cons, List.sum_nil]
    refine ⟨chained_append (hone hit name) fun r hr => ?_, ?_, ?_⟩
    · -- The target of the alias is in the first record.
      rw [((htit.records p'.2).1 r hr).1]
      have hne : p.1.type.toUInt16 ≠ A := by rw [type]; decide
      have hv : p'.1.name ∈ p.1.values := List.mem_of_mem_head? target
      refine List.mem_append_right _ (List.mem_flatMap.mpr
        ⟨p.1.record p.1.name p.2 p'.1.name, ?_, ?_⟩)
      · rw [Item.records, if_neg fun hb => hne hb.1]
        exact List.mem_map_of_mem hv
      · rw [(hit.record hv p.2).2.2.1, if_neg hne]
        simp
    · have hlast := (htit.records p'.2).2
      rw [if_pos type'] at hlast
      have hfirst := @hroom p.1 p.2 hit
      rw [roomFor_append]
      unfold MAX_NUM at hlast
      omega
    · have := hit.values_le
      have := htit.values_le
      omega

/-! ## Reading a reply -/

/-- What a message says in its header and its question does not depend on how long its names are on the
wire. -/
theorem Answers.of_content {m' m'' : Message} (h : Answers m q m'') (heq : m'.content = m''.content) :
    Answers m q m' := by
  have hID : m'.content.ID = m''.content.ID := congrArg Message.ID heq
  have hques : m'.content.ques = m''.content.ques := congrArg Message.ques heq
  have hflag : m'.content.flag = m''.content.flag := congrArg Message.flag heq
  have hauthority : m'.resourse_record.AUTHORITY.map RR.content =
      m''.resourse_record.AUTHORITY.map RR.content :=
    congrArg (·.resourse_record.AUTHORITY) heq
  have hadditional : m'.resourse_record.ADDITIONAL.map RR.content =
      m''.resourse_record.ADDITIONAL.map RR.content :=
    congrArg (·.resourse_record.ADDITIONAL) heq
  rw [h.AUTHORITY] at hauthority
  rw [h.ADDITIONAL] at hadditional
  -- The flags are read off one number, which is the same.
  have hflags : m'.flags₀ = m''.flags₀ ∧ m'.flags₁ = m''.flags₁ := by
    have hflag' : m'.flag = m''.flag := hflag
    simp only [Message.flags₀, Message.flags₁, hflag', and_self]
  refine ⟨hID.trans h.ID, ?_, ?_, ?_, ?_, hques.trans h.ques,
    List.map_eq_nil_iff.mp hauthority, List.map_eq_nil_iff.mp hadditional⟩
  · rw [Message.qr, hflags.1]
    exact h.qr
  · rw [Message.opcode, hflags.1]
    exact h.opcode
  · rw [Message.rd, hflags.1]
    exact h.rd
  · rw [Message.ra, hflags.2]
    exact h.ra

/-- The message that is built answers the request, with the records of the items. -/
theorem servedReply_spec (hc : m.Counted) (hm : Standard m q)
    (hroom : (served.map (·.1.values.length)).sum ≤ MAX_SIZE) {m' : Message}
    (hm' : servedReply (begunReply m) served = m') :
    Answers m q m' ∧ m'.Counted ∧ m'.rcode = servedRCODE (served.map (·.1)) ∧
      m'.resourse_record.ANSWER = servedRecords served := by
  have hbegun : (begunReply m).Counted := ⟨hc.q_count, hc.ANSWER, hc.AUTHORITY, rfl, hc.q_fit,
    hc.ANSWER_fit, hc.AUTHORITY_fit, Nat.zero_le _⟩
  have hnone : (begunReply m).resourse_record.ANSWER = [] := hm.ANSWER
  have hrcode : (begunReply m).rcode = 0 := by
    rw [begunReply, Message.rcode_setFlag_RA, Message.rcode_setResp]
    exact hm.rcode
  have hra : (begunReply m).ra = 1 := Message.ra_setFlag_RA
  have hflags : (begunReply m).flags₀ = (setResp m).flags₀ := Message.flags₀_setFlag_RA
  -- What changes only the response code and the answer section of the reply keeps the rest.
  have hanswers : m'.bare = (begunReply m).bare → m'.flags₀ = (begunReply m).flags₀ →
      m'.ra = (begunReply m).ra → Answers m q m' := by
    intro hbare h₀ hra'
    have hID : m'.bare.ID = (begunReply m).bare.ID := congrArg Message.ID hbare
    have hques : m'.bare.ques = (begunReply m).bare.ques := congrArg Message.ques hbare
    have hrecords : m'.bare.resourse_record = (begunReply m).bare.resourse_record :=
      congrArg Message.resourse_record hbare
    rw [hflags] at h₀
    refine ⟨hID, ?_, ?_, ?_, hra'.trans hra, hques.trans hm.ques,
      (congrArg Sections.AUTHORITY hrecords).trans hm.AUTHORITY,
      congrArg Sections.ADDITIONAL hrecords⟩
    · rw [Message.qr, h₀]
      exact Message.qr_setResp
    · rw [Message.opcode, h₀]
      exact Message.opcode_setResp
    · rw [Message.rd, h₀]
      exact Message.rd_setResp
  rw [servedReply] at hm'
  by_cases hfailed : served = []
  · rw [if_pos hfailed] at hm'
    subst hm' hfailed
    refine ⟨hanswers rfl ?_ ?_, ⟨hbegun.q_count, hbegun.ANSWER, hbegun.AUTHORITY, hbegun.ADDITIONAL,
      hbegun.q_fit, hbegun.ANSWER_fit, hbegun.AUTHORITY_fit, hbegun.ADDITIONAL_fit⟩, ?_, hnone⟩
    · rw [Message.flags₀_setRCODE, Message.flags₀_setResp, hflags, Message.flags₀_setResp,
        UInt8.or_assoc, UInt8.or_self]
    · rw [Message.ra_setRCODE (by decide), Message.ra_setResp]
    · rw [Message.rcode_setRCODE, Message.rcode_setResp, hrcode]
      rfl
  · rw [if_neg hfailed] at hm'
    obtain ⟨hbare, hc', h₀, hra', hcode, hrecords⟩ :=
      foldl_Item2Msg_spec hbegun (by rw [hnone, List.length_nil, Nat.zero_add]; exact hroom) hm'
    refine ⟨hanswers hbare h₀ hra', hc', ?_, by rw [hrecords, hnone, List.nil_append]⟩
    have hne : served.map (·.1) ≠ [] := by simpa using hfailed
    rw [hcode, hrcode, servedRCODE]
    simp only [hne, if_false]
    rfl

/-- **Replies.** The reply of the items that are served for a question can be encoded and fits the
buffer, and it is read as an answer to the request with the records of the items. -/
theorem exists_reply (hc : m.Counted) (hm : Standard m q) (hgot : ∀ it ∈ got, it.Sound)
    (hserved : Served lines q got (served.map (·.1))) :
    ∃ bytes, encode (servedReply (begunReply m) served) = .ok bytes ∧ bytes.length ≤ BUFF_SIZE ∧
      ∀ tail, ∃ m', decode (bytes ++ tail) = .ok (m', bytes.length) ∧ Answers m q m' ∧
        m'.rcode = servedRCODE (served.map (·.1)) ∧
        m'.resourse_record.ANSWER.map RR.content = (servedRecords served).map RR.content := by
  have hsound := hserved.sound hm.name hgot
  obtain ⟨hchained, hroom, hfew⟩ := hserved.chained hsound
  generalize hbuilt : servedReply (begunReply m) served = built
  obtain ⟨hanswers, hcounted, hrcode, hrecords⟩ :=
    servedReply_spec hc hm (hfew.trans (by decide)) hbuilt
  have hentries : built.entries = .ques q :: (servedRecords served).map .rr := by
    simp [Message.entries, hanswers.ques, hanswers.AUTHORITY, hanswers.ADDITIONAL, hrecords]
  -- Each record is one of an item that can be served.
  have hrecord : ∀ r ∈ servedRecords served, (Entry.rr r).Typed ∧
      ∀ k ∈ (Entry.rr r).names, Named k := by
    intro r hr
    obtain ⟨p, hp, hr⟩ := List.mem_flatMap.mp hr
    exact (((hsound p.1 (List.mem_map_of_mem hp)).records p.2).1 r hr).2
  have htyped : ∀ x ∈ built.entries, x.Typed := by
    rw [hentries]
    intro x hx
    rcases List.mem_cons.mp hx with rfl | hx
    · trivial
    · obtain ⟨r, hr, rfl⟩ := List.mem_map.mp hx
      exact (hrecord r hr).1
  have hnames : ∀ k ∈ built.names, Named k := by
    intro k hk
    obtain ⟨x, hx, hk⟩ := List.mem_flatMap.mp hk
    rw [hentries] at hx
    rcases List.mem_cons.mp hx with rfl | hx
    · obtain rfl := List.mem_singleton.mp hk
      exact hm.name
    · obtain ⟨r, hr, rfl⟩ := List.mem_map.mp hx
      exact (hrecord r hr).2 k hk
  obtain ⟨bytes, hencode, hwf⟩ :=
    encode_spec hcounted htyped fun k hk => (hnames k hk).encodable
  have hsize := encode_size hcounted htyped (fun k hk => (hnames k hk).encodable.short)
    hanswers.ques hanswers.AUTHORITY hanswers.ADDITIONAL (hrecords ▸ hchained) hencode
  -- The names are short and the records few, so it fits.
  have hfits : bytes.length ≤ BUFF_SIZE := by
    have := hm.name.length_le
    rw [hrecords] at hsize
    unfold BUFF_SIZE
    omega
  refine ⟨bytes, hencode, hfits, fun tail => ?_⟩
  obtain ⟨m', hcontent, hm'⟩ := hwf (hfits.trans BUFF_SIZE_le_POINTER_MAX)
  refine ⟨m', decode_of_wfMessage (hm'.append tail), hanswers.of_content hcontent, ?_, ?_⟩
  · have hflag : m'.content.flag = built.content.flag := congrArg Message.flag hcontent
    have hflag' : m'.flag = built.flag := hflag
    rw [← hrcode]
    simp only [Message.rcode, Message.flags₁, hflag']
  · rw [← hrecords]
    exact congrArg (·.resourse_record.ANSWER) hcontent

theorem named_letter {c : UInt8} (h : c ≠ 0) (h' : c ≠ DOT) : Named [c] :=
  ⟨⟨⟨[letter c h h'], by simp, rfl⟩, (by decide : 1 < HASH_KEY_MAX_LEN)⟩, (by decide : 1 ≤ 43)⟩

theorem standardQuery_of_decode {parg : Arg} {q : Question}
    (h : (decode (parg.buff.bytes ++ parg.buff.rest)).map (fun r => (r.1.ques, r.1.rcode,
      r.1.resourse_record.ANSWER, r.1.resourse_record.AUTHORITY)) = .ok ([q], 0, [], []))
    (htype : q.q_type.toNat < TYPENAME_SIZE) (hname : Named q.q_name) :
    ∃ m n, decode (parg.buff.bytes ++ parg.buff.rest) = .ok (m, n) ∧ Standard m q := by
  obtain ⟨⟨m, n⟩, hdecode, hm⟩ := Run.map_eq_ok.mp h
  simp only [Prod.mk.injEq] at hm
  exact ⟨m, n, hdecode, hm.1, htype, hm.2.1, hm.2.2.1, hm.2.2.2, hname⟩

/-! ## Names of the local file -/

/-- What the records of an item of one address say, and the response code with them. -/
theorem Item.Gives.says {addr : List UInt8} (h : it.Gives name addr) (hname : name.length ≤ MAX_LEN)
    (haddr : addr.length = 4) (now : ℤ) :
    (addr = [0, 0, 0, 0] → servedRCODE [it] = NAME_ERR.toUInt8 ∧ servedRecords [(it, now)] = []) ∧
    (addr ≠ [0, 0, 0, 0] → servedRCODE [it] = 0 ∧ ∃ TTL,
      (servedRecords [(it, now)]).map RR.content = [⟨name, A, IN, TTL, 4, addr, .BINARY_TYPE, []⟩]) := by
  have hrecords : servedRecords [(it, now)] = it.records now := by simp [servedRecords]
  rw [hrecords, Item.records]
  constructor
  · intro hzero
    have hblocks := h.blocks_iff.mpr hzero
    simp [servedRCODE, hblocks]
  · intro hne
    have hnot : ¬ it.Blocks := fun hb => hne (h.blocks_iff.mp hb)
    have hcopy : strncpy name MAX_LEN = name := strncpy_of_length_le hname
    refine ⟨by simp [servedRCODE, hnot], toUInt32 (it.ddl - now), ?_⟩
    rw [if_neg hnot, h.values, h.name]
    simp [Item.record, h.type, setRRData, setRRName, zeroRR, hcopy, RR.content, haddr]

/-- **The local file.** In every run in which a lookup finds the position of the `FILE` where it left it, as
long as no response has claimed a name of at most 43 bytes that the local file lists: of every reply that is
sent to a query for its address, with one question, a client reads the listed address and no other, or that
the name does not exist when the address is zero. -/
theorem file_overrides {ι : Type} [DecidableEq ι] {fd : List UInt8} {fr : FileReader}
    {ip addr : List UInt8} (hfile : FileLines fd lines) (hfr : file_reader_alloc fd = .ok fr)
    (hlen : name.length ≤ 43) (hlisted : listed lines name = some ip)
    (haddr : inet_pton (cstr ip) = some addr) (cachesize now : ℤ) (as : List (ServerAction ι))
    (has : Meets (serverStep fr) undisturbed.Step (serverInit fr cachesize now) as) :
    ∀ pre, pre <+: as → ∀ s, exec (serverStep fr) (serverInit fr cachesize now) pre = .ok s →
      ¬ Claimed name s.shared.received → ∀ sent ∈ s.shared.replies, ∀ m n q,
        decode (sent.parg.buff.bytes ++ sent.parg.buff.rest) = .ok (m, n) → Standard m q →
        q.q_name = name → q.q_type = A →
          ∃ msg bytes, sent.reply = .built msg bytes ∧ encode msg = .ok bytes ∧
            bytes.length ≤ BUFF_SIZE ∧ ∀ tail, ∃ m', decode (bytes ++ tail) = .ok (m', bytes.length) ∧
              Answers m q m' ∧
              (addr = [0, 0, 0, 0] →
                m'.rcode = NAME_ERR.toUInt8 ∧ m'.resourse_record.ANSWER = []) ∧
              (addr ≠ [0, 0, 0, 0] → m'.rcode = 0 ∧ ∃ TTL,
                m'.resourse_record.ANSWER.map RR.content =
                  [⟨name, A, IN, TTL, 4, addr, .BINARY_TYPE, []⟩]) := by
  intro pre hpre s hs hnot sent hsent m n q hdecode hm hname htype
  have hreplies := (overridePolicy_lawful hfile hfr hlen hlisted haddr).replies has pre hpre s hs
    sent hsent
  -- No response has claimed the name, so the item is that of the local file.
  obtain ⟨it, now', bytes, hgives, hreply⟩ :=
    hreplies.resolve_left hnot (begunReply m) q (asks_of_standard hdecode hm) hname htype
  have hencode := Policy.encode_of_built hs hsent hreply
  subst hname
  have hserved : Served lines q [] ([(it, now')].map (·.1)) :=
    .file (Or.inl rfl) htype hlisted haddr hgives
  obtain ⟨bytes', hencode', hfits, hread⟩ :=
    exists_reply (decode_counted hdecode) hm (fun it hit => absurd hit List.not_mem_nil) hserved
  have hbuilt : servedReply (begunReply m) [(it, now')] = Item2Msg (begunReply m) it q.q_name now' := by
    rw [← hgives.name]
    rfl
  rw [hbuilt, hencode] at hencode'
  obtain rfl := Except.ok.inj hencode'
  obtain ⟨hzero, hother⟩ :=
    hgives.says (hlen.trans (by decide)) (length_of_inet_pton haddr) now'
  refine ⟨_, bytes, hreply, hencode, hfits, fun tail => ?_⟩
  obtain ⟨m', hdecode', hanswers, hrcode, hrecords⟩ := hread tail
  refine ⟨m', hdecode', hanswers, fun h => ⟨hrcode.trans (hzero h).1, ?_⟩, fun h =>
    ⟨hrcode.trans (hother h).1, ?_⟩⟩
  · rw [(hzero h).2] at hrecords
    exact List.map_eq_nil_iff.mp hrecords
  · rw [hrecords]
    exact (hother h).2

/-- `file_overrides` for the address of `a` in the file of two lines, which is 1.1.1.1. -/
theorem file_overrides_two : ∃ fr, file_reader_alloc twoLinesText = .ok fr ∧
    ∃ (as : List (ServerAction (Fin 1))) (s : Workers (Fin 1)) (msg : Message) (bytes : List UInt8),
      exec (serverStep fr) (serverInit fr (10 : ℕ) 0) as = .ok s ∧
      ⟨0, queryA, .built msg bytes⟩ ∈ s.shared.replies ∧ ∀ tail, ∃ m', ∃ TTL,
        decode (bytes ++ tail) = .ok (m', bytes.length) ∧ m'.ID = 2 ∧ m'.rcode = 0 ∧
          m'.resourse_record.ANSWER.map RR.content =
            [⟨[97], A, IN, TTL, 4, [1, 1, 1, 1], .BINARY_TYPE, []⟩] := by
  obtain ⟨fr, hfr, -⟩ := file_reader_alloc_spec twoLines_fileText
  obtain ⟨as, s, msg, bytes, has, hexec, hreceived, hsent⟩ :=
    @exists_run_of_file undisturbed trivial (fun _ _ => rfl) fr hfr
  have hnot : ¬ Claimed [97] s.shared.received := by
    rw [hreceived]
    rintro ⟨r, hr, -⟩
    cases hr
  obtain ⟨m, n, hdecode, hm⟩ := @standardQuery_of_decode queryA ⟨[97], A, IN⟩ (by decide +kernel)
    (by decide) (named_letter (by decide) (by decide))
  have hID : (decode (queryA.buff.bytes ++ queryA.buff.rest)).map (fun r => r.1.ID) = .ok 2 := by
    decide +kernel
  rw [hdecode] at hID
  obtain ⟨msg', bytes', hreply, -, -, hread⟩ := @file_overrides twoLines [97] (Fin 1) _ _ fr _
    [1, 1, 1, 1] twoLines_fileText.split hfr (by decide)
    (show listed twoLines [97] = some [49, 46, 49, 46, 49, 46, 49] by decide) (by decide) _ 0 as has
    as (List.prefix_refl as) s hexec hnot _ hsent m n _ hdecode hm rfl rfl
  obtain ⟨rfl, rfl⟩ := Reply.built.inj hreply
  refine ⟨fr, hfr, as, s, msg, bytes, hexec, hsent, fun tail => ?_⟩
  obtain ⟨m', hdecode', hanswers, -, hother⟩ := hread tail
  obtain ⟨hrcode, TTL, hrecords⟩ := hother (by decide)
  exact ⟨m', TTL, hdecode', hanswers.ID.trans (Except.ok.inj hID), hrcode, hrecords⟩

end DnsRelayer
