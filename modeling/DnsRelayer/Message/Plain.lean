import DnsRelayer.Message.Size

/-!
# Encoding without compression

`src/message/message.c` compresses names where `COMPRESS` is set, and leaves that out where it is
not. What it writes then depends neither on a table nor on the place: a name is its labels and a zero
byte (`encodeNamePlain_dotted`).

The two encodings of a message are read as the same message, and the compressed one is no longer
(`compress_agrees`).
-/

namespace DnsRelayer

variable {tab tab' : HashTab UInt16} {n : ℕ}

/-! ## The functions with `COMPRESS` at zero -/

/-- The loop of `encodeName`. -/
def encodeLoopPlain (out label : List UInt8) (cnt : UInt8) : List UInt8 → List UInt8
  | [] => out ++ (cnt :: label ++ [0])
  | c :: name =>
    if c = DOT then encodeLoopPlain (out ++ cnt :: label) [] 0 name
    else encodeLoopPlain out (label ++ [c]) (cnt + 1) name

/-- `encodeName`. -/
def encodeNamePlain (name : List UInt8) : List UInt8 := encodeLoopPlain [] [] 0 name

/-- `encodeQues`. -/
def encodeQuesPlain (ques : Question) : Run (List UInt8) :=
  return encodeNamePlain ques.q_name ++ (htons ques.q_type ++ htons ques.q_class)

/-- `encodeRR`. -/
def encodeRRPlain (rr : RR) : Run (List UInt8) := do
  let t := encodeNamePlain rr.name ++ (htons rr.type ++ (htons rr.class_ ++ htonl rr.TTL))
  match rr.data_type with
  | .BINARY_TYPE =>
    if rr.data.length < rr.data_length.toNat then throw .overrun
    return t ++ (htons rr.data_length ++ rr.data.take rr.data_length.toNat)
  | .STRING_TYPE =>
    let s := encodeNamePlain rr.string_data
    return t ++ (htons (UInt16.ofNat s.length) ++ s)

/-- A loop of `encode` over the first `count` elements of an array. -/
def encodeArrayPlain {α : Type} (item : α → Run (List UInt8)) : ℕ → List α → Run (List UInt8)
  | 0, _ => .ok []
  | _ + 1, [] => .error .badPointer
  | count + 1, x :: xs => do
    let bs ← item x
    let rest ← encodeArrayPlain item count xs
    return bs ++ rest

/-- `encode`. -/
def encodePlain (msg : Message) : Run (List UInt8) := do
  let ques ← encodeArrayPlain encodeQuesPlain msg.q_count.toNat msg.ques
  let rr₀ ← encodeArrayPlain encodeRRPlain msg.RR_count.ANSWER.toNat msg.resourse_record.ANSWER
  let rr₁ ← encodeArrayPlain encodeRRPlain msg.RR_count.AUTHORITY.toNat msg.resourse_record.AUTHORITY
  let rr₂ ←
    encodeArrayPlain encodeRRPlain msg.RR_count.ADDITIONAL.toNat msg.resourse_record.ADDITIONAL
  return encodeHeader msg ++ (ques ++ (rr₀ ++ (rr₁ ++ rr₂)))

/-! ## Names -/

theorem length_encodeLoopPlain (out label : List UInt8) (cnt : UInt8) (name : List UInt8) :
    (encodeLoopPlain out label cnt name).length = out.length + label.length + name.length + 2 := by
  induction name generalizing out label cnt with
  | nil =>
    simp only [encodeLoopPlain, List.length_append, List.length_cons, List.length_nil]
    omega
  | cons c name ih =>
    unfold encodeLoopPlain
    split_ifs
    · rw [ih]
      simp only [List.length_append, List.length_cons, List.length_nil]
      omega
    · rw [ih]
      simp only [List.length_append, List.length_cons, List.length_nil]
      omega

/-- A name takes two bytes more than it has. -/
theorem length_encodeNamePlain (name : List UInt8) :
    (encodeNamePlain name).length = name.length + 2 := by
  simp [encodeNamePlain, length_encodeLoopPlain]

theorem encodeLoopPlain_label {out label rest bytes : List UInt8} {cnt : UInt8} (h : DOT ∉ bytes) :
    encodeLoopPlain out label cnt (bytes ++ rest) =
      encodeLoopPlain out (label ++ bytes) (cnt + UInt8.ofNat bytes.length) rest := by
  refine @copies_label _ (encodeLoopPlain out) ?_ label rest bytes cnt h
  intro label cnt c rest hc
  rw [encodeLoopPlain, if_neg hc]

theorem encodeLoopPlain_dotted {ls : List Label} (hne : ls ≠ []) (out : List UInt8) :
    encodeLoopPlain out [] 0 (dotted ls) = out ++ (wires ls ++ [0]) := by
  induction ls generalizing out with
  | nil => exact absurd rfl hne
  | cons l ls ih =>
    have hlen : (0 : UInt8) + UInt8.ofNat l.bytes.length = l.len := UInt8.zero_add _
    by_cases hls : ls = []
    · subst hls
      have hcopy := @encodeLoopPlain_label out [] [] _ 0 l.no_dot
      rw [List.append_nil, hlen, encodeLoopPlain] at hcopy
      rw [dotted, hcopy, wires_cons]
      simp [wires, Label.wire]
    · rw [dotted_cons_of_ne_nil l hls, encodeLoopPlain_label l.no_dot, hlen, encodeLoopPlain,
        if_pos rfl, ih hls, wires_cons]
      simp [Label.wire]

/-- A name is written as its labels and a zero byte. -/
theorem encodeNamePlain_dotted {ls : List Label} (hne : ls ≠ []) :
    encodeNamePlain (dotted ls) = wires ls ++ [0] := by
  rw [encodeNamePlain, encodeLoopPlain_dotted hne, List.nil_append]

/-- A name that is written can be read. -/
theorem wfName_plain {name : List UInt8} (h : Encodable name) (P t : List UInt8) :
    WfName (P ++ (encodeNamePlain name ++ t)) P.length name (P ++ encodeNamePlain name).length := by
  obtain ⟨⟨ls, hne, rfl⟩, -⟩ := h
  have hend : (P ++ (wires ls ++ [0])).length = P.length + (wires ls).length + 1 := by
    simp [Nat.add_assoc]
  rw [encodeNamePlain_dotted hne, hend, List.append_assoc, List.singleton_append]
  exact wfName_wires ls P t

/-! ## Elements -/

/-- Writing an element. -/
def encodeEntryPlain : Entry → Run (List UInt8)
  | .ques q => encodeQuesPlain q
  | .rr r => encodeRRPlain r

/-- Writing elements one after the other. -/
def encodeEntriesPlain : List Entry → Run (List UInt8)
  | [] => .ok []
  | x :: xs => encodeEntryPlain x >>= fun bs => encodeEntriesPlain xs >>= fun rest => .ok (bs ++ rest)

/-- Writing a record of bytes. -/
theorem encodeRRPlain_bytes {r : RR} (hd : r.data_type = .BINARY_TYPE)
    (hle : r.data_length.toNat ≤ r.data.length) :
    encodeRRPlain r = .ok (encodeNamePlain r.name ++ (fieldBytes r r.data_length ++
      r.data.take r.data_length.toNat)) := by
  have hnot : ¬ r.data.length < r.data_length.toNat := by omega
  simp only [encodeRRPlain, hd, hnot, if_false, fieldBytes, List.append_assoc]
  rfl

/-- Writing a record whose data is a name. -/
theorem encodeRRPlain_name {r : RR} (hd : r.data_type = .STRING_TYPE) :
    encodeRRPlain r = .ok (encodeNamePlain r.name ++
      (fieldBytes r (UInt16.ofNat (encodeNamePlain r.string_data).length) ++
        encodeNamePlain r.string_data)) := by
  simp only [encodeRRPlain, hd, fieldBytes, List.append_assoc]
  rfl

/-- An element that is written can be read, and says what it said. -/
theorem encodeEntryPlain_spec {x : Entry} (ht : x.Typed) (h : ∀ k ∈ x.names, Encodable k)
    (P : List UInt8) : ∃ bs y, encodeEntryPlain x = .ok bs ∧ y.content = x.content ∧
      WfEntry (P ++ bs) P.length y (P ++ bs).length := by
  cases x with
  | ques q =>
    have hname := h _ List.mem_cons_self
    refine ⟨_, .ques q, rfl, rfl, ?_⟩
    have hlen : (P ++ (encodeNamePlain q.q_name ++ (htons q.q_type ++ htons q.q_class))).length =
        (P ++ encodeNamePlain q.q_name).length + 4 := by simp [Nat.add_assoc]
    rw [hlen]
    exact .ques (wfName_plain hname P _) hname.short
      (@ntohsAt_of_eq _ (P ++ encodeNamePlain q.q_name) (htons q.q_class) _ _ (by simp) rfl)
      (@ntohsAt_of_eq _ (P ++ encodeNamePlain q.q_name ++ htons q.q_type) [] _ _ (by simp)
        (by simp [Nat.add_assoc]))
  | rr r =>
    have howner := h _ List.mem_cons_self
    obtain ⟨htype, hdata⟩ := ht
    cases hd : r.data_type with
    | BINARY_TYPE =>
      have hle := hdata hd
      have hlen : (r.data.take r.data_length.toNat).length = r.data_length.toNat :=
        List.length_take_of_le hle
      refine ⟨_, .rr { r with data := r.data.take r.data_length.toNat, string_data := [] },
        encodeRRPlain_bytes hd hle, by simp [Entry.content, RR.content, hd], ?_⟩
      have hwf := wfName_plain howner P
        (fieldBytes r r.data_length ++ r.data.take r.data_length.toNat)
      rw [← List.append_assoc] at hwf ⊢
      generalize hB : P ++ encodeNamePlain r.name ++
        (fieldBytes r r.data_length ++ r.data.take r.data_length.toNat) = B at hwf ⊢
      obtain ⟨h₁, h₂, h₃, h₄⟩ := fields_of_eq hB.symm
      have hB' : B.length = (P ++ encodeNamePlain r.name).length + 10 + r.data_length.toNat := by
        rw [← hB]
        simp only [List.length_append, length_fieldBytes, hlen]
        omega
      rw [hB']
      refine .bytes hwf howner.short h₁ h₂ h₃ h₄ (mt htype.mpr (by simp [hd])) ?_ hd rfl
      exact @bytesAt_of_eq _ (P ++ encodeNamePlain r.name ++ fieldBytes r r.data_length) _ [] _ _
        (by simp [← hB]) (by simp [Nat.add_assoc]) hlen.symm
    | STRING_TYPE =>
      have htarget := h r.string_data (by simp [Entry.names, hd])
      -- The length of a short name fits its field.
      have hlen : (UInt16.ofNat (encodeNamePlain r.string_data).length).toNat =
          (encodeNamePlain r.string_data).length := by
        have hs : r.string_data.length < 50 := htarget.short
        rw [UInt16.toNat_ofNat', length_encodeNamePlain]
        omega
      refine ⟨_, .rr { r with
          data := [], data_length := UInt16.ofNat (encodeNamePlain r.string_data).length },
        encodeRRPlain_name hd, by simp [Entry.content, RR.content, hd], ?_⟩
      generalize UInt16.ofNat (encodeNamePlain r.string_data).length = len at hlen ⊢
      have hwf := wfName_plain howner P (fieldBytes r len ++ encodeNamePlain r.string_data)
      have hwf' := wfName_plain htarget (P ++ encodeNamePlain r.name ++ fieldBytes r len) []
      rw [List.append_nil, List.append_assoc (P ++ encodeNamePlain r.name)] at hwf'
      rw [← List.append_assoc] at hwf ⊢
      generalize hB : P ++ encodeNamePlain r.name ++
        (fieldBytes r len ++ encodeNamePlain r.string_data) = B at hwf hwf' ⊢
      obtain ⟨h₁, h₂, h₃, h₄⟩ := fields_of_eq hB.symm
      have hend : B.length = (P ++ encodeNamePlain r.name).length + 10 + len.toNat := by
        rw [← hB, hlen]
        simp only [List.length_append, length_fieldBytes]
        omega
      have hstart : (P ++ encodeNamePlain r.name ++ fieldBytes r len).length =
          (P ++ encodeNamePlain r.name).length + 10 := by
        rw [List.length_append, length_fieldBytes]
      rw [hstart, hend] at hwf'
      rw [hend]
      exact .target hwf howner.short h₁ h₂ h₃ h₄ (htype.mp hd) hwf' htarget.short hd rfl

/-- Elements that are written can be read, and say what they said. -/
theorem encodeEntriesPlain_spec {xs : List Entry}
    (hx : ∀ x ∈ xs, x.Typed ∧ ∀ k ∈ x.names, Encodable k) (P : List UInt8) :
    ∃ bs ys, encodeEntriesPlain xs = .ok bs ∧ ys.map Entry.content = xs.map Entry.content ∧
      WfEntries (P ++ bs) P.length ys (P ++ bs).length := by
  induction xs generalizing P with
  | nil =>
    refine ⟨[], [], rfl, rfl, ?_⟩
    rw [List.append_nil]
    exact .nil _
  | cons x xs ih =>
    obtain ⟨ht, h⟩ := hx x List.mem_cons_self
    obtain ⟨bs, y, hok, hy, hwf⟩ := encodeEntryPlain_spec ht h P
    obtain ⟨bs', ys, hok', hys, hwf'⟩ := ih (fun z hz => hx z (List.mem_cons_of_mem x hz)) (P ++ bs)
    refine ⟨bs ++ bs', y :: ys, by rw [encodeEntriesPlain, hok, Run.ok_bind, hok', Run.ok_bind],
      by rw [List.map_cons, List.map_cons, hy, hys], ?_⟩
    rw [← List.append_assoc]
    exact .cons (hwf.append bs') hwf'

/-! ## The compressed encoding is no longer -/

/-- An element. -/
theorem encodeEntry_le_plain (hT : Table tab n) {x : Entry} (hs : ∀ k ∈ x.names, Short k)
    (hn : n + 2 * HASH_KEY_MAX_LEN ≤ TABLE_MAX) {p : ℕ} {bs bs' : List UInt8}
    (hok : encodeEntry x p tab = .ok (bs, tab')) (hplain : encodeEntryPlain x = .ok bs') :
    bs.length ≤ bs'.length := by
  cases x with
  | ques q =>
    obtain ⟨hlen, -⟩ := encodeQues_size hT (hs _ List.mem_cons_self) (by omega) hok
    obtain rfl := Except.ok.inj hplain
    simp only [List.length_append, length_htons, length_encodeNamePlain]
    omega
  | rr r =>
    have hsname : Short r.name := hs _ List.mem_cons_self
    obtain ⟨name, tab₁, hname, hdata⟩ := encodeRR_eq_ok hok
    obtain ⟨hlen, -, -, -⟩ := encodeName_size hT hsname (by omega) hname
    rcases hdata with ⟨hd, rfl, rfl⟩ | ⟨hd, target, htarget, rfl⟩
    · have hle : r.data_length.toNat ≤ r.data.length := by
        by_contra hlt
        simp only [encodeEntryPlain, encodeRRPlain, hd, not_le.mp hlt, if_true] at hplain
        cases hplain
      obtain rfl := Except.ok.inj ((encodeRRPlain_bytes hd hle).symm.trans hplain)
      simp only [List.length_append, length_encodeNamePlain]
      omega
    · obtain ⟨_, tab₂, hname', hT₁⟩ := encodeName_total hT hsname (by omega) p
      obtain ⟨rfl, rfl⟩ := Prod.mk.inj (Except.ok.inj (hname'.symm.trans hname))
      obtain ⟨hlen', -, -, -⟩ := encodeName_size hT₁ (hs r.string_data (by simp [Entry.names, hd]))
        (by omega) htarget
      obtain rfl := Except.ok.inj ((encodeRRPlain_name hd).symm.trans hplain)
      simp only [List.length_append, length_encodeNamePlain, length_fieldBytes]
      omega

/-- Elements. -/
theorem encodeEntries_le_plain (hT : Table tab n) {xs : List Entry} (ht : ∀ x ∈ xs, x.Typed)
    (hs : ∀ x ∈ xs, ∀ k ∈ x.names, Short k)
    (hn : n + 2 * HASH_KEY_MAX_LEN * xs.length ≤ TABLE_MAX) {p : ℕ} {bs bs' : List UInt8}
    (hok : encodeEntries xs p tab = .ok (bs, tab')) (hplain : encodeEntriesPlain xs = .ok bs') :
    bs.length ≤ bs'.length := by
  induction xs generalizing tab n p bs bs' with
  | nil =>
    obtain ⟨rfl, -⟩ := Prod.mk.inj (Except.ok.inj hok)
    exact Nat.zero_le _
  | cons x xs ih =>
    rw [List.length_cons, Nat.mul_succ] at hn
    obtain ⟨⟨b, tab₁⟩, hx, hok⟩ := Run.bind_eq_ok.mp hok
    obtain ⟨⟨c, tab₂⟩, hxs, hok⟩ := Run.bind_eq_ok.mp hok
    obtain ⟨rfl, rfl⟩ := Prod.mk.inj (Except.ok.inj hok)
    obtain ⟨b', hx', hplain⟩ := Run.bind_eq_ok.mp hplain
    obtain ⟨c', hxs', hplain⟩ := Run.bind_eq_ok.mp hplain
    obtain rfl := Except.ok.inj hplain
    have hsx := hs x List.mem_cons_self
    obtain ⟨_, _, htotal, hT₁⟩ := encodeEntry_total (ht x List.mem_cons_self) hsx hT (by omega) p
    obtain ⟨rfl, rfl⟩ := Prod.mk.inj (Except.ok.inj (htotal.symm.trans hx))
    have hhead := encodeEntry_le_plain hT hsx (by omega) hx hx'
    have htail := ih hT₁ (fun y hy => ht y (List.mem_cons_of_mem x hy))
      (fun y hy => hs y (List.mem_cons_of_mem x hy)) (by omega) hxs hxs'
    simp only [List.length_append]
    omega

/-! ## Messages -/

/-- Writing the elements of an array. -/
theorem encodeArrayPlain_eq {α : Type} {item : α → Run (List UInt8)} {entry : α → Entry}
    (hitem : ∀ x, item x = encodeEntryPlain (entry x)) (xs : List α) :
    encodeArrayPlain item xs.length xs = encodeEntriesPlain (xs.map entry) := by
  induction xs with
  | nil => rfl
  | cons x xs ih =>
    rw [List.length_cons, encodeArrayPlain, List.map_cons, encodeEntriesPlain, hitem, ih]
    rfl

/-- Writing elements in two parts. -/
theorem encodeEntriesPlain_append (xs ys : List Entry) :
    encodeEntriesPlain (xs ++ ys) = encodeEntriesPlain xs >>= fun bs =>
      encodeEntriesPlain ys >>= fun rest => .ok (bs ++ rest) := by
  induction xs with
  | nil =>
    rw [List.nil_append, encodeEntriesPlain, Run.ok_bind]
    cases encodeEntriesPlain ys <;> rfl
  | cons x xs ih =>
    rw [List.cons_append, encodeEntriesPlain, encodeEntriesPlain, ih]
    simp only [bind_assoc, Run.ok_bind, List.append_assoc]

/-- `encode` writes the header and then the elements. -/
theorem encodePlain_eq {m : Message} (h : m.Counted) :
    encodePlain m = encodeEntriesPlain m.entries >>= fun bs => .ok (encodeHeader m ++ bs) := by
  rw [encodePlain, h.q_count, h.ANSWER, h.AUTHORITY, h.ADDITIONAL]
  simp only [encodeArrayPlain_eq (fun q => show encodeQuesPlain q = encodeEntryPlain (.ques q) from rfl),
    encodeArrayPlain_eq (fun r => show encodeRRPlain r = encodeEntryPlain (.rr r) from rfl)]
  simp only [Message.entries, encodeEntriesPlain_append, bind_assoc, Run.ok_bind]
  rfl

/-- The encoding without compression is well-formed, however long it is. -/
theorem encodePlain_spec {m : Message} (hc : m.Counted) (ht : ∀ x ∈ m.entries, x.Typed)
    (hn : ∀ k ∈ m.names, Encodable k) :
    ∃ bs m', encodePlain m = .ok bs ∧ m'.content = m.content ∧ WfMessage bs m' bs.length := by
  obtain ⟨bs, ys, hok, hys, hwf⟩ := encodeEntriesPlain_spec (fun x hx =>
    ⟨ht x hx, fun k hk => hn k (List.mem_flatMap.mpr ⟨x, hx, hk⟩)⟩) (encodeHeader m)
  obtain ⟨m', rfl, hcontent, hc'⟩ := exists_message hc hys
  refine ⟨encodeHeader m ++ bs, m', by rw [encodePlain_eq hc, hok, Run.ok_bind], hcontent, ?_, hc', ?_⟩
  · rw [← encodeHeader_content hcontent]
    exact headerAt_encodeHeader m' bs
  · rwa [length_encodeHeader] at hwf

/-- **Compression.** Of every message that can be carried over, the encoding with compression is no
longer than the one without; the one without is read as what the message says, and so is the one with
compression when it fits the callers' buffer, whatever bytes come after either. -/
theorem compress_agrees (m : Message) (hc : m.Counted) (ht : ∀ x ∈ m.entries, x.Typed)
    (hn : ∀ k ∈ m.names, Encodable k) :
    ∃ bs plain, encode m = .ok bs ∧ encodePlain m = .ok plain ∧ bs.length ≤ plain.length ∧
      (∀ tail, ∃ m', decode (plain ++ tail) = .ok (m', plain.length) ∧ m'.content = m.content) ∧
      (bs.length ≤ BUFF_SIZE → ∀ tail,
        ∃ m', decode (bs ++ tail) = .ok (m', bs.length) ∧ m'.content = m.content) := by
  obtain ⟨bs, hok, hwf⟩ := encode_spec hc ht hn
  obtain ⟨plain, m', hplain, hcontent, hm'⟩ := encodePlain_spec hc ht hn
  refine ⟨bs, plain, hok, hplain, ?_, fun tail => ⟨m', decode_of_wfMessage (hm'.append tail), hcontent⟩,
    fun hfit tail => ?_⟩
  · rw [encode_eq hc] at hok
    rw [encodePlain_eq hc] at hplain
    obtain ⟨⟨es, tab'⟩, hes, hok⟩ := Run.bind_eq_ok.mp hok
    obtain ⟨es', hes', hplain⟩ := Run.bind_eq_ok.mp hplain
    obtain rfl := Except.ok.inj hok
    obtain rfl := Except.ok.inj hplain
    have hle := encodeEntries_le_plain table_newHashTab ht
      (fun x hx k hk => (hn k (List.mem_flatMap.mpr ⟨x, hx, hk⟩)).short) hc.few hes hes'
    simp only [List.length_append]
    omega
  · obtain ⟨m₁, hcontent₁, hm₁⟩ := hwf (hfit.trans BUFF_SIZE_le_POINTER_MAX)
    exact ⟨m₁, decode_of_wfMessage (hm₁.append tail), hcontent₁⟩

/-- An alias, in 37 bytes where 41 are written without compression. -/
theorem compress_agrees_alias :
    (encode aliasMessage).map List.length = .ok 37 ∧
    (encodePlain aliasMessage).map List.length = .ok 41 ∧
    ∃ bs plain, encode aliasMessage = .ok bs ∧ encodePlain aliasMessage = .ok plain ∧
      bs.length ≤ plain.length ∧
      (∀ tail, ∃ m', decode (plain ++ tail) = .ok (m', plain.length) ∧
        m'.content = aliasMessage.content) ∧
      (bs.length ≤ BUFF_SIZE → ∀ tail,
        ∃ m', decode (bs ++ tail) = .ok (m', bs.length) ∧ m'.content = aliasMessage.content) := by
  have ha : Encodable [97, DOT, 99] :=
    ⟨⟨[letter 97 (by decide) (by decide), letter 99 (by decide) (by decide)], by simp, rfl⟩,
      by decide⟩
  have hb : Encodable [98, DOT, 99] :=
    ⟨⟨[letter 98 (by decide) (by decide), letter 99 (by decide) (by decide)], by simp, rfl⟩,
      by decide⟩
  refine ⟨by decide +kernel, by decide +kernel, compress_agrees aliasMessage
    ⟨rfl, rfl, rfl, rfl, by decide, by decide, by decide, by decide⟩ ?_ ?_⟩
  · intro x hx
    simp only [Message.entries, aliasMessage, List.map_cons, List.map_nil, List.append_nil,
      List.singleton_append, List.mem_cons, List.not_mem_nil, or_false] at hx
    rcases hx with rfl | rfl
    · trivial
    · simp [Entry.Typed, NamesData]
  · intro k hk
    have hk' : k ∈ [[97, DOT, 99], [97, DOT, 99], [98, DOT, 99]] := hk
    simp only [List.mem_cons, List.not_mem_nil, or_false] at hk'
    rcases hk' with rfl | rfl | rfl
    · exact ha
    · exact ha
    · exact hb

end DnsRelayer
