import DnsRelayer.Message.RoundTrip
import DnsRelayer.Message.Setters

/-!
# Building a message

A message is built from the empty one of `newMsg`: its header fields are set, questions and records are added to
it, and the additional records may be released. A message has room for `MAX_SIZE` questions, and for as many
records in each section; `addQuestion` and `addRR` refuse what there is no room for, and say so.

Whatever the calls, the counts of the message are right and its lists are what was added, up to that room
(`build_spec`), so that it can be sent and read back (`built_round_trip`).
-/

namespace DnsRelayer

/-- `setQNAME`. -/
def setQNAME (q : Question) (name : List UInt8) : Question := { q with q_name := strncpy name MAX_LEN }

/-- `addQuestion`: a question goes to the end of the questions, unless there are as many as fit. -/
def addQuestion (msg : Message) (q : Question) : ℤ × Message :=
  if msg.q_count.toNat ≥ MAX_SIZE then (0, msg)
  else (1, { msg with q_count := msg.q_count + 1, ques := msg.ques ++ [q] })

/-! ## The calls -/

/-- A call that changes a message, or the assignment of its `ID`. -/
inductive BuildCall where
  | header (c : HeaderCall)
  | setID (x : UInt16)
  | addQuestion (q : Question)
  | addRR (q : RR) (type : RRSection)
  | releaseAdditionalRR
  deriving DecidableEq, Repr

namespace BuildCall

/-- The call, with its message. -/
def perform (msg : Message) : BuildCall → Message
  | .header c => c.perform msg
  | .setID x => { msg with ID := x }
  | .addQuestion q => (DnsRelayer.addQuestion msg q).2
  | .addRR q type => (DnsRelayer.addRR msg q type).2
  | .releaseAdditionalRR => DnsRelayer.releaseAdditionalRR msg

/-- The call, if it is of a function that sets header fields. -/
def header? : BuildCall → Option HeaderCall
  | .header c => some c
  | _ => none

/-- The `ID` that is assigned. -/
def ID? : BuildCall → Option UInt16
  | .setID x => some x
  | _ => none

/-- The questions after the call, if there is room for all. -/
def ques (qs : List Question) : BuildCall → List Question
  | .addQuestion q => qs ++ [q]
  | _ => qs

/-- The records of a section after the call, if there is room for all. -/
def records (type : RRSection) (rs : List RR) : BuildCall → List RR
  | .addRR q t => if type = t then rs ++ [q] else rs
  | .releaseAdditionalRR => if type = .ADDITIONAL then [] else rs
  | _ => rs

end BuildCall

/-- The message that calls build. -/
def build (calls : List BuildCall) : Message := calls.foldl BuildCall.perform newMsg

/-- The questions that calls add. -/
def askedBy (calls : List BuildCall) : List Question := calls.foldl BuildCall.ques []

/-- The records that calls add to a section, after its last release. -/
def addedTo (type : RRSection) (calls : List BuildCall) : List RR := calls.foldl (BuildCall.records type) []

/-! ## What is built -/

/-- Adding to the end of what fits: nothing more when it is full. -/
theorem take_concat {α : Type} {n : ℕ} (l : List α) (a : α) :
    (l ++ [a]).take n = if (l.take n).length ≥ n then l.take n else l.take n ++ [a] := by
  rw [List.length_take, List.take_append]
  by_cases hfull : n ≤ l.length
  · rw [if_pos (by omega), show n - l.length = 0 by omega, List.take_zero, List.append_nil]
  · rw [if_neg (by omega), List.take_of_length_le (l := [a]) (by simp; omega)]

/-- A message holds these questions and records, and counts them. -/
structure Message.Holds (m : Message) (qs : List Question) (rs : RRSection → List RR) : Prop where
  q_count : m.q_count.toNat = m.ques.length
  ques : m.ques = qs.take MAX_SIZE
  count : ∀ t, (m.RR_count.get t).toNat = (m.resourse_record.get t).length
  records : ∀ t, m.resourse_record.get t = (rs t).take MAX_SIZE

namespace Message.Holds

variable {m m' : Message} {qs : List Question} {rs : RRSection → List RR}

theorem counted (h : m.Holds qs rs) : m.Counted where
  q_count := h.q_count
  ANSWER := h.count .ANSWER
  AUTHORITY := h.count .AUTHORITY
  ADDITIONAL := h.count .ADDITIONAL
  q_fit := by rw [h.ques]; exact List.length_take_le ..
  ANSWER_fit := (congrArg List.length (h.records .ANSWER)).trans_le (List.length_take_le ..)
  AUTHORITY_fit := (congrArg List.length (h.records .AUTHORITY)).trans_le (List.length_take_le ..)
  ADDITIONAL_fit := (congrArg List.length (h.records .ADDITIONAL)).trans_le (List.length_take_le ..)

/-- The `ID` and the flags make no difference. -/
theorem congr (h : m.Holds qs rs) (hq : m'.q_count = m.q_count) (hques : m'.ques = m.ques)
    (hcount : m'.RR_count = m.RR_count) (hrecords : m'.resourse_record = m.resourse_record) :
    m'.Holds qs rs := by
  refine ⟨?_, ?_, ?_, ?_⟩
  · rw [hq, hques, h.q_count]
  · rw [hques, h.ques]
  · rw [hcount, hrecords]
    exact h.count
  · rw [hrecords]
    exact h.records

/-- Setting header fields leaves the lists. -/
theorem header (h : m.Holds qs rs) (c : HeaderCall) : (c.perform m).Holds qs rs := by
  cases c <;> exact h.congr rfl rfl rfl rfl

/-- A counter of an array that is not full. -/
theorem toNat_succ {x : UInt16} (hx : x.toNat < MAX_SIZE) : (x + 1).toNat = x.toNat + 1 := by
  have hsize : MAX_SIZE = 32 := rfl
  rw [UInt16.toNat_add]
  exact Nat.mod_eq_of_lt (by simp; omega)

theorem addQuestion (h : m.Holds qs rs) (q : Question) :
    (DnsRelayer.addQuestion m q).2.Holds (qs ++ [q]) rs := by
  unfold DnsRelayer.addQuestion
  have htake := take_concat (n := MAX_SIZE) qs q
  rw [← h.ques, ← h.q_count] at htake
  split_ifs at htake ⊢ with hfull
  · exact ⟨h.q_count, by rw [htake], h.count, h.records⟩
  · refine ⟨?_, htake.symm, h.count, h.records⟩
    dsimp only
    rw [toNat_succ (not_le.mp hfull), h.q_count, List.length_append, List.length_singleton]

theorem addRR (h : m.Holds qs rs) (q : RR) (t : RRSection) :
    (DnsRelayer.addRR m q t).2.Holds qs (Function.update rs t (rs t ++ [q])) := by
  unfold DnsRelayer.addRR
  have htake := take_concat (n := MAX_SIZE) (rs t) q
  rw [← h.records, ← h.count] at htake
  split_ifs at htake ⊢ with hfull
  · refine ⟨h.q_count, h.ques, h.count, fun u => ?_⟩
    by_cases hu : u = t
    · subst hu
      rw [Function.update_self, htake]
    · rw [Function.update_of_ne hu, h.records]
  · refine ⟨h.q_count, h.ques, fun u => ?_, fun u => ?_⟩
    · by_cases hu : u = t
      · subst hu
        simp only [Sections.get_set, if_true, toNat_succ (not_le.mp hfull), h.count, List.length_append,
          List.length_singleton]
      · simp only [Sections.get_set, if_neg hu, h.count]
    · by_cases hu : u = t
      · subst hu
        simp only [Sections.get_set, if_true, Function.update_self, htake]
      · simp only [Sections.get_set, if_neg hu, Function.update_of_ne hu, h.records]

theorem releaseAdditionalRR (h : m.Holds qs rs) :
    (DnsRelayer.releaseAdditionalRR m).Holds qs (Function.update rs .ADDITIONAL []) := by
  refine ⟨h.q_count, h.ques, fun t => ?_, fun t => ?_⟩
  · cases t
    · exact h.count .ANSWER
    · exact h.count .AUTHORITY
    · rfl
  · cases t
    · exact h.records .ANSWER
    · exact h.records .AUTHORITY
    · rfl

/-- A call makes of the lists what it is to make of them, as far as there is room. -/
theorem perform (h : m.Holds qs rs) (c : BuildCall) :
    (c.perform m).Holds (c.ques qs) fun t => c.records t (rs t) := by
  cases c with
  | header c => exact h.header c
  | setID x => exact h.congr rfl rfl rfl rfl
  | addQuestion q => exact h.addQuestion q
  | addRR q t =>
    have hadded : (fun u => (BuildCall.addRR q t).records u (rs u)) =
        Function.update rs t (rs t ++ [q]) := by
      funext u
      by_cases hu : u = t
      · subst hu
        simp [BuildCall.records]
      · simp [BuildCall.records, hu]
    rw [hadded]
    exact h.addRR q t
  | releaseAdditionalRR =>
    have hreleased : (fun u => BuildCall.releaseAdditionalRR.records u (rs u)) =
        Function.update rs .ADDITIONAL [] := by
      funext u
      by_cases hu : u = .ADDITIONAL
      · subst hu
        simp [BuildCall.records]
      · simp [BuildCall.records, hu]
    rw [hreleased]
    exact h.releaseAdditionalRR

end Message.Holds

/-- A message that is built holds what was added, as far as there is room. -/
theorem build_spec (calls : List BuildCall) :
    (build calls).Holds (askedBy calls) fun t => addedTo t calls := by
  induction calls using List.reverseRecOn with
  | nil => exact ⟨rfl, rfl, fun t => by cases t <;> rfl, fun t => by cases t <;> rfl⟩
  | append_singleton calls c ih =>
    simp only [build, askedBy, addedTo, List.foldl_append] at ih ⊢
    exact ih.perform c

/-- What a setter makes of the flags depends on these only. -/
theorem HeaderCall.perform_flag {m m' : Message} (h : m.flag = m'.flag) (c : HeaderCall) :
    (c.perform m).flag = (c.perform m').flag := by
  cases c <;>
    simp [perform, DnsRelayer.setQuery, DnsRelayer.setResp, DnsRelayer.setOpcode, DnsRelayer.setFlag,
      DnsRelayer.setRCODE, h]

/-- The `ID` and the flags are changed by the assignment and by the setters. -/
theorem BuildCall.perform_header (m : Message) (c : BuildCall) :
    (c.perform m).ID = c.ID?.getD m.ID ∧
      (c.perform m).flag = (HeaderCall.run m c.header?.toList).flag := by
  cases c with
  | header c => cases c <;> exact ⟨rfl, rfl⟩
  | addQuestion q =>
    simp only [perform, DnsRelayer.addQuestion]
    split_ifs <;> exact ⟨rfl, rfl⟩
  | addRR q t =>
    simp only [perform, DnsRelayer.addRR]
    split_ifs <;> exact ⟨rfl, rfl⟩
  | _ => exact ⟨rfl, rfl⟩

/-- The flags are those that the calls of the setters leave. -/
theorem build_flag (calls : List BuildCall) :
    (build calls).flag = (HeaderCall.run newMsg (calls.filterMap BuildCall.header?)).flag := by
  induction calls using List.reverseRecOn with
  | nil => rfl
  | append_singleton calls c ih =>
    simp only [build, List.foldl_append, List.foldl_cons, List.foldl_nil, List.filterMap_append] at ih ⊢
    rw [(c.perform_header _).2]
    cases hc : c.header? with
    | none => simpa [hc, HeaderCall.run] using ih
    | some h => simpa [hc, HeaderCall.run] using HeaderCall.perform_flag ih h

/-- The `ID` is the one that was assigned last. -/
theorem build_ID (calls : List BuildCall) :
    (build calls).ID = (calls.filterMap BuildCall.ID?).getLastD 0 := by
  induction calls using List.reverseRecOn with
  | nil => rfl
  | append_singleton calls c ih =>
    simp only [build, List.foldl_append, List.foldl_cons, List.foldl_nil, List.filterMap_append] at ih ⊢
    rw [(c.perform_header _).1]
    cases hc : c.ID? with
    | none => simpa [hc] using ih
    | some x => simp [hc]

/-- The elements of a message that is built are among those that were added. -/
theorem mem_entries_build {calls : List BuildCall} {x : Entry} (hx : x ∈ (build calls).entries) :
    (∃ q ∈ askedBy calls, x = .ques q) ∨ ∃ t, ∃ rr ∈ addedTo t calls, x = .rr rr := by
  have hbuild := build_spec calls
  have hrecord : ∀ t, x ∈ ((build calls).resourse_record.get t).map .rr →
      ∃ t, ∃ rr ∈ addedTo t calls, x = .rr rr := by
    intro t hx
    obtain ⟨rr, hrr, rfl⟩ := List.mem_map.mp hx
    rw [hbuild.records t] at hrr
    exact ⟨t, rr, List.mem_of_mem_take hrr, rfl⟩
  simp only [Message.entries, List.mem_append] at hx
  rcases hx with hx | hx | hx | hx
  · obtain ⟨q, hq, rfl⟩ := List.mem_map.mp hx
    rw [hbuild.ques] at hq
    exact Or.inl ⟨q, List.mem_of_mem_take hq, rfl⟩
  · exact Or.inr (hrecord .ANSWER hx)
  · exact Or.inr (hrecord .AUTHORITY hx)
  · exact Or.inr (hrecord .ADDITIONAL hx)

/-- **What is built can be sent.** A message that is built by any calls, of questions and records whose names can
be carried over and whose data is what their types say, is encoded; and when that fits the callers' buffer,
whatever bytes come after it, it is decoded to a message with the `ID` and the flags that the calls set, and with
the questions and the records of each section that the calls added, up to the first `MAX_SIZE` of them. -/
theorem built_round_trip (calls : List BuildCall)
    (hques : ∀ q ∈ askedBy calls, Encodable q.q_name)
    (hrecords : ∀ t, ∀ rr ∈ addedTo t calls,
      (Entry.rr rr).Typed ∧ ∀ k ∈ (Entry.rr rr).names, Encodable k) :
    ∃ bs, encode (build calls) = .ok bs ∧ (bs.length ≤ BUFF_SIZE → ∀ tail,
      ∃ m, decode (bs ++ tail) = .ok (m, bs.length) ∧
        m.ID = (calls.filterMap BuildCall.ID?).getLastD 0 ∧
        m.flag = (HeaderCall.run newMsg (calls.filterMap BuildCall.header?)).flag ∧
        m.ques = (askedBy calls).take MAX_SIZE ∧
        ∀ t, (m.resourse_record.get t).map RR.content = ((addedTo t calls).take MAX_SIZE).map RR.content) := by
  have hbuild := build_spec calls
  have hentries : ∀ x ∈ (build calls).entries, x.Typed ∧ ∀ k ∈ x.names, Encodable k := by
    intro x hx
    rcases mem_entries_build hx with ⟨q, hq, rfl⟩ | ⟨t, rr, hrr, rfl⟩
    · exact ⟨trivial, fun k hk => List.mem_singleton.mp hk ▸ hques q hq⟩
    · exact hrecords t rr hrr
  obtain ⟨bs, hok, hwf⟩ := encode_spec hbuild.counted (fun x hx => (hentries x hx).1) (fun k hk => by
    obtain ⟨x, hx, hk⟩ := List.mem_flatMap.mp hk
    exact (hentries x hx).2 k hk)
  refine ⟨bs, hok, fun hfit tail => ?_⟩
  obtain ⟨m, hcontent, hm⟩ := hwf (hfit.trans BUFF_SIZE_le_POINTER_MAX)
  refine ⟨m, decode_of_wfMessage (hm.append tail), ?_, ?_, ?_, fun t => ?_⟩
  · exact (congrArg Message.ID hcontent).trans (build_ID calls)
  · exact (congrArg Message.flag hcontent).trans (build_flag calls)
  · exact (congrArg Message.ques hcontent).trans hbuild.ques
  · have hsection := congrArg (·.resourse_record.get t) hcontent
    rw [← hbuild.records t]
    cases t <;> exact hsection

/-- The calls that build `aliasMessage`, and add a record that is released again. -/
def aliasCalls : List BuildCall :=
  [.header .setResp, .setID 7, .addQuestion ⟨[97, DOT, 99], A, IN⟩,
    .addRR ⟨[97, DOT, 99], CNAME, IN, 60, 0, [], .STRING_TYPE, [98, DOT, 99]⟩ .ANSWER,
    .addRR ⟨[97], A, IN, 60, 4, [1, 2, 3, 4], .BINARY_TYPE, []⟩ .ADDITIONAL, .releaseAdditionalRR]

/-- `built_round_trip` for a message with an alias. -/
theorem built_round_trip_alias : ∃ bs, encode (build aliasCalls) = .ok bs ∧ bs.length = 37 ∧
    ∃ m, decode (bs ++ [0]) = .ok (m, bs.length) ∧ m.ID = 7 ∧ m.ques = [⟨[97, DOT, 99], A, IN⟩] ∧
      m.resourse_record.ADDITIONAL.map RR.content = [] := by
  have ha : Encodable [97, DOT, 99] :=
    ⟨⟨[letter 97 (by decide) (by decide), letter 99 (by decide) (by decide)], by simp, rfl⟩, by decide⟩
  have hb : Encodable [98, DOT, 99] :=
    ⟨⟨[letter 98 (by decide) (by decide), letter 99 (by decide) (by decide)], by simp, rfl⟩, by decide⟩
  have hasked : ∀ q ∈ askedBy aliasCalls, Encodable q.q_name := by
    intro q hq
    obtain rfl := List.mem_singleton.mp hq
    exact ha
  have hadded : ∀ t, ∀ rr ∈ addedTo t aliasCalls,
      (Entry.rr rr).Typed ∧ ∀ k ∈ (Entry.rr rr).names, Encodable k := by
    intro t rr hrr
    cases t with
    | ANSWER =>
      obtain rfl := List.mem_singleton.mp hrr
      refine ⟨by simp [Entry.Typed, NamesData], fun k hk => ?_⟩
      rcases List.mem_cons.mp hk with rfl | hk
      · exact ha
      · exact List.mem_singleton.mp hk ▸ hb
    | AUTHORITY | ADDITIONAL => cases hrr
  have hlen : (encode (build aliasCalls)).map List.length = .ok 37 := by decide +kernel
  obtain ⟨bs, hok, hreads⟩ := built_round_trip aliasCalls hasked hadded
  rw [hok] at hlen
  have h37 : bs.length = 37 := Except.ok.inj hlen
  obtain ⟨m, hm, hID, -, hques, hrecords⟩ := hreads (h37.trans_le (by decide)) [0]
  exact ⟨bs, hok, h37, m, hm, hID, hques, hrecords .ADDITIONAL⟩

end DnsRelayer
