import DnsRelayer.Message.Received
import DnsRelayer.Cache.HashSpec

/-!
# Well-formed datagrams

What a sound DNS message looks like on the wire, and which message it stands for. A name is a
sequence of labels, ended by the root or by a pointer to a name that starts earlier (`WfName`); it
is short enough for the hash tables of `src/`. An entry of a message is a question or a resource
record (`WfEntry`). The length of a record's data is that of its bytes, or where the data is a name,
that of the name on the wire. The entries follow each other from the header to the end
(`WfMessage`).

`decode` of a well-formed datagram is the message it stands for, and stops at its end, whatever
bytes come after it (`decode_of_wfMessage`).
-/

namespace DnsRelayer

variable {buf : List UInt8} {pos e : ℕ} {name : List UInt8}

/-- A local part that returns does the same when bytes are added. -/
theorem Local.append_ok {α : Type} {f : List UInt8 → Run α} (hf : Local f) {d : List UInt8} {a : α}
    (h : f d = .ok a) (t : List UInt8) : f (d ++ t) = .ok a := by
  rw [hf d t (by rw [h]; simp), h]

/-! ## Labels -/

/-- A label of a name. -/
structure Label where
  bytes : List UInt8
  ne_nil : bytes ≠ []
  length_le : bytes.length ≤ 63
  no_nul : 0 ∉ bytes
  no_dot : DOT ∉ bytes
  deriving DecidableEq

/-- The number of bytes of a label. -/
def Label.length (l : Label) : ℕ := l.bytes.length

theorem Label.length_pos (l : Label) : 0 < l.length := List.length_pos_of_ne_nil l.ne_nil

theorem Label.length_le' (l : Label) : l.length ≤ 63 := l.length_le

/-- The length byte of a label. -/
def Label.len (l : Label) : UInt8 := UInt8.ofNat l.length

theorem Label.toNat_len (l : Label) : l.len.toNat = l.length := by
  have := l.length_le'
  rw [len, UInt8.toNat_ofNat']
  omega

theorem Label.len_ne_zero (l : Label) : l.len ≠ 0 := by
  intro h
  have hlen := l.toNat_len
  have hpos := l.length_pos
  rw [h, UInt8.toNat_zero] at hlen
  omega

/-- The length byte of a label starts no pointer. -/
theorem Label.not_pointer (l : Label) : ¬ l.len ≥ POINTER := by
  have hle := l.length_le'
  rw [ge_iff_le, UInt8.le_iff_toNat_le, l.toNat_len]
  have hp : POINTER.toNat = 192 := rfl
  omega

/-- Labels with dots between them. -/
def dotted : List Label → List UInt8
  | [] => []
  | [l] => l.bytes
  | l :: l' :: ls => l.bytes ++ DOT :: dotted (l' :: ls)

theorem dotted_cons_of_ne_nil (l : Label) {ls : List Label} (h : ls ≠ []) :
    dotted (l :: ls) = l.bytes ++ DOT :: dotted ls := by
  obtain ⟨l', ls, rfl⟩ := List.exists_cons_of_ne_nil h
  rfl

/-- Some labels with dots between them are no empty string. -/
theorem dotted_ne_nil {ls : List Label} (h : ls ≠ []) : dotted ls ≠ [] := by
  obtain ⟨l, ls, rfl⟩ := List.exists_cons_of_ne_nil h
  cases ls with
  | nil => exact l.ne_nil
  | cons l' ls => simp [dotted]

/-- A name that the codec carries over: labels with dots between them, short enough for the hash
table of `encode`. -/
structure Encodable (name : List UInt8) : Prop where
  labels : ∃ ls : List Label, ls ≠ [] ∧ dotted ls = name
  short : Short name

/-! ## Names -/

/-- A label on the wire. -/
structure LabelAt (buf : List UInt8) (pos : ℕ) (l : Label) : Prop where
  len : buf[pos]? = some l.len
  bytes : bytesAt buf (pos + 1) l.length = .ok l.bytes

/-- A well-formed name on the wire, as its labels with dots between them, and the position after
it. A label that a pointer to a root follows keeps its dot. -/
inductive WfName (buf : List UInt8) : ℕ → List UInt8 → ℕ → Prop
  | root {pos : ℕ} (h : buf[pos]? = some 0) : WfName buf pos [] (pos + 1)
  | pointer {pos e : ℕ} {len lo : UInt8} {name : List UInt8} (h : buf[pos]? = some len)
      (hp : len ≥ POINTER) (hlo : buf[pos + 1]? = some lo) (back : pointerTarget len lo < pos)
      (target : WfName buf (pointerTarget len lo) name e) : WfName buf pos name (pos + 2)
  | last {pos : ℕ} {l : Label} (label : LabelAt buf pos l)
      (hroot : buf[pos + 1 + l.length]? = some 0) : WfName buf pos l.bytes (pos + 1 + l.length + 1)
  | more {pos e : ℕ} {l : Label} {name : List UInt8} (label : LabelAt buf pos l)
      (hroot : buf[pos + 1 + l.length]? ≠ some 0) (rest : WfName buf (pos + 1 + l.length) name e) :
      WfName buf pos (l.bytes ++ DOT :: name) e

theorem LabelAt.le_length {l : Label} (h : LabelAt buf pos l) : pos + 1 + l.length ≤ buf.length :=
  exists_bytesAt.mp ⟨_, h.bytes⟩

theorem LabelAt.take_eq {l : Label} (h : LabelAt buf pos l) :
    (buf.drop (pos + 1)).take l.len.toNat = l.bytes := by
  have hb := h.bytes
  rw [bytesAt_of_le h.le_length] at hb
  rw [l.toNat_len]
  exact Except.ok.inj hb

theorem LabelAt.append {l : Label} (h : LabelAt buf pos l) (t : List UInt8) :
    LabelAt (buf ++ t) pos l where
  len := byteAt_eq_ok.mp ((local_byteAt pos).append_ok (byteAt_of_getElem? h.len) t)
  bytes := (local_bytesAt _ _).append_ok h.bytes t

/-- A length byte of a label starts no pointer. -/
theorem LabelAt.not_pointer {l : Label} (h : LabelAt buf pos l) {len : UInt8}
    (hlen : buf[pos]? = some len) : ¬ len ≥ POINTER := by
  obtain rfl := Option.some.inj (h.len.symm.trans hlen)
  exact l.not_pointer

/-- A well-formed name is what `decodeName` reads. -/
theorem WfName.nameAt (h : WfName buf pos name e) : NameAt buf 0 pos name e := by
  induction h with
  | root h => exact .root h
  | pointer h hp hlo _ _ ih => exact .pointer h hp hlo (by rwa [Nat.zero_add])
  | @last pos l label hroot =>
    have hlen := l.toNat_len
    rw [← label.take_eq, ← hlen]
    exact .last label.len l.len_ne_zero l.not_pointer (by rw [hlen]; exact label.le_length)
      (by rw [hlen]; exact hroot)
  | @more pos e l name label hroot _ ih =>
    have hlen := l.toNat_len
    rw [← label.take_eq]
    exact .more label.len l.len_ne_zero l.not_pointer (by rw [hlen]; exact label.le_length)
      (by rw [hlen]; exact hroot) (by rw [hlen]; exact ih)

/-- A place has one well-formed name. -/
theorem WfName.unique {name' : List UInt8} {e' : ℕ} (h : WfName buf pos name e)
    (h' : WfName buf pos name' e') : name = name' ∧ e = e' :=
  h.nameAt.unique h'.nameAt

/-- A name starts with a byte. -/
theorem WfName.lt_length (h : WfName buf pos name e) : pos < buf.length := by
  cases h with
  | root h => exact exists_byteAt.mp ⟨_, byteAt_of_getElem? h⟩
  | pointer h => exact exists_byteAt.mp ⟨_, byteAt_of_getElem? h⟩
  | last label => exact exists_byteAt.mp ⟨_, byteAt_of_getElem? label.len⟩
  | more label => exact exists_byteAt.mp ⟨_, byteAt_of_getElem? label.len⟩

/-- A well-formed name stays one when bytes are added. -/
theorem WfName.append (h : WfName buf pos name e) (t : List UInt8) :
    WfName (buf ++ t) pos name e := by
  have hget : ∀ {i : ℕ} {b : UInt8}, buf[i]? = some b → (buf ++ t)[i]? = some b :=
    fun {i} _ hb => byteAt_eq_ok.mp ((local_byteAt i).append_ok (byteAt_of_getElem? hb) t)
  induction h with
  | root h => exact .root (hget h)
  | pointer h hp hlo back _ ih => exact .pointer (hget h) hp (hget hlo) back ih
  | last label hroot => exact .last (label.append t) (hget hroot)
  | more label hroot rest ih =>
    refine .more (label.append t) ?_ ih
    rwa [List.getElem?_append_left rest.lt_length]

/-- A well-formed name has no `NUL`. -/
theorem WfName.no_nul (h : WfName buf pos name e) : 0 ∉ name := by
  induction h with
  | root => simp
  | pointer _ _ _ _ _ ih => exact ih
  | @last _ l => exact l.no_nul
  | @more _ _ l name _ _ _ ih =>
    have hdot : (0 : UInt8) ≠ DOT := by decide
    simp [l.no_nul, hdot, ih]

/-- `decode` reads a well-formed name that is short. -/
theorem decodeField_of_wfName (h : WfName buf pos name e) (hs : Short name) :
    decodeField buf pos = .ok (name, e) := by
  have hlt : ¬ name.length ≥ MAX_LEN := by
    have : name.length < 50 := hs
    unfold MAX_LEN
    omega
  rw [decodeField, decodeName_eq_ok_iff.mpr h.nameAt, Run.ok_bind]
  simp only [hlt, if_false, cstr_of_no_nul h.no_nul]
  rfl

/-! ## Entries -/

/-- An element of a message. -/
inductive Entry where
  | ques (q : Question)
  | rr (r : RR)
  deriving DecidableEq

/-- What a record says: its fields without those that its `data_type` leaves unused. The length of
a name on the wire is such a field, since names are compressed. -/
def RR.content (rr : RR) : RR :=
  match rr.data_type with
  | .BINARY_TYPE => { rr with data := rr.data.take rr.data_length.toNat, string_data := [] }
  | .STRING_TYPE => { rr with data := [], data_length := 0 }

/-- What an element of a message says. -/
def Entry.content : Entry → Entry
  | .ques q => .ques q
  | .rr r => .rr r.content

/-- The names in an element of a message. -/
def Entry.names : Entry → List (List UInt8)
  | .ques q => [q.q_name]
  | .rr r => r.name :: match r.data_type with
    | .STRING_TYPE => [r.string_data]
    | .BINARY_TYPE => []

/-- The data of a record is what its type says, and all of it is there. -/
def Entry.Typed : Entry → Prop
  | .ques _ => True
  | .rr r => (r.data_type = .STRING_TYPE ↔ NamesData r.type) ∧
      (r.data_type = .BINARY_TYPE → r.data_length.toNat ≤ r.data.length)

/-- A well-formed element of a message on the wire, and the position after it. -/
inductive WfEntry (buf : List UInt8) (pos : ℕ) : Entry → ℕ → Prop
  | ques {q : Question} {e : ℕ} (name : WfName buf pos q.q_name e) (short : Short q.q_name)
      (type_eq : ntohsAt buf e = .ok q.q_type) (class_eq : ntohsAt buf (e + 2) = .ok q.q_class) :
      WfEntry buf pos (.ques q) (e + 4)
  | bytes {r : RR} {e : ℕ} (name : WfName buf pos r.name e) (short : Short r.name)
      (type_eq : ntohsAt buf e = .ok r.type) (class_eq : ntohsAt buf (e + 2) = .ok r.class_)
      (ttl_eq : ntohlAt buf (e + 4) = .ok r.TTL) (len_eq : ntohsAt buf (e + 8) = .ok r.data_length)
      (isBytes : ¬ NamesData r.type) (data : bytesAt buf (e + 10) r.data_length.toNat = .ok r.data)
      (type : r.data_type = .BINARY_TYPE) (unused : r.string_data = []) :
      WfEntry buf pos (.rr r) (e + 10 + r.data_length.toNat)
  | target {r : RR} {e : ℕ} (name : WfName buf pos r.name e) (short : Short r.name)
      (type_eq : ntohsAt buf e = .ok r.type) (class_eq : ntohsAt buf (e + 2) = .ok r.class_)
      (ttl_eq : ntohlAt buf (e + 4) = .ok r.TTL) (len_eq : ntohsAt buf (e + 8) = .ok r.data_length)
      (isName : NamesData r.type)
      (data : WfName buf (e + 10) r.string_data (e + 10 + r.data_length.toNat))
      (short' : Short r.string_data) (type : r.data_type = .STRING_TYPE) (unused : r.data = []) :
      WfEntry buf pos (.rr r) (e + 10 + r.data_length.toNat)

/-- The parts of a well-formed record: its name, its fields, and data of their length. -/
theorem WfEntry.rr_parts {r : RR} {next : ℕ} (h : WfEntry buf pos (.rr r) next) :
    ∃ e, WfName buf pos r.name e ∧ Short r.name ∧ ntohsAt buf e = .ok r.type ∧
      ntohsAt buf (e + 2) = .ok r.class_ ∧ ntohlAt buf (e + 4) = .ok r.TTL ∧
      ntohsAt buf (e + 8) = .ok r.data_length ∧ next = e + 10 + r.data_length.toNat ∧
      (r.data_type = .BINARY_TYPE ∧ ¬ NamesData r.type ∧
          bytesAt buf (e + 10) r.data_length.toNat = .ok r.data ∨
        r.data_type = .STRING_TYPE ∧ NamesData r.type ∧ Short r.string_data ∧
          WfName buf (e + 10) r.string_data next) := by
  cases h with
  | bytes name short h₁ h₂ h₃ h₄ isBytes data type =>
    exact ⟨_, name, short, h₁, h₂, h₃, h₄, rfl, Or.inl ⟨type, isBytes, data⟩⟩
  | target name short h₁ h₂ h₃ h₄ isName data short' type =>
    exact ⟨_, name, short, h₁, h₂, h₃, h₄, rfl, Or.inr ⟨type, isName, short', data⟩⟩

/-- Well-formed elements one after the other. -/
inductive WfEntries (buf : List UInt8) : ℕ → List Entry → ℕ → Prop
  | nil (pos : ℕ) : WfEntries buf pos [] pos
  | cons {pos next e : ℕ} {x : Entry} {xs : List Entry} (head : WfEntry buf pos x next)
      (tail : WfEntries buf next xs e) : WfEntries buf pos (x :: xs) e

/-- A well-formed element stays one when bytes are added. -/
theorem WfEntry.append {x : Entry} (h : WfEntry buf pos x e) (t : List UInt8) :
    WfEntry (buf ++ t) pos x e := by
  cases h with
  | ques name short type_eq class_eq =>
    exact .ques (name.append t) short ((local_ntohsAt _).append_ok type_eq t)
      ((local_ntohsAt _).append_ok class_eq t)
  | bytes name short type_eq class_eq ttl_eq len_eq isBytes data type unused =>
    exact .bytes (name.append t) short ((local_ntohsAt _).append_ok type_eq t)
      ((local_ntohsAt _).append_ok class_eq t) ((local_ntohlAt _).append_ok ttl_eq t)
      ((local_ntohsAt _).append_ok len_eq t) isBytes ((local_bytesAt _ _).append_ok data t) type
      unused
  | target name short type_eq class_eq ttl_eq len_eq isName data short' type unused =>
    exact .target (name.append t) short ((local_ntohsAt _).append_ok type_eq t)
      ((local_ntohsAt _).append_ok class_eq t) ((local_ntohlAt _).append_ok ttl_eq t)
      ((local_ntohsAt _).append_ok len_eq t) isName (data.append t) short' type unused

theorem WfEntries.append {xs : List Entry} (h : WfEntries buf pos xs e) (t : List UInt8) :
    WfEntries (buf ++ t) pos xs e := by
  induction h with
  | nil pos => exact .nil pos
  | cons head _ ih => exact .cons (head.append t) ih

/-- Elements one after the other, in two parts. -/
theorem wfEntries_append_iff {xs ys : List Entry} :
    WfEntries buf pos (xs ++ ys) e ↔
      ∃ next, WfEntries buf pos xs next ∧ WfEntries buf next ys e := by
  constructor
  · intro h
    induction xs generalizing pos with
    | nil => exact ⟨pos, .nil pos, h⟩
    | cons x xs ih =>
      cases h with
      | cons head tail =>
        obtain ⟨next, h₁, h₂⟩ := ih tail
        exact ⟨next, .cons head h₁, h₂⟩
  · rintro ⟨next, h₁, h₂⟩
    induction h₁ with
    | nil => exact h₂
    | cons head _ ih => exact .cons head (ih h₂)

/-- `decode` reads a well-formed question. -/
theorem decodeQues_of_wfEntry {q : Question} (h : WfEntry buf pos (.ques q) e) :
    decodeQues buf pos = .ok (q, e) := by
  cases h with
  | ques name short type_eq class_eq =>
    simp only [decodeQues, decodeField_of_wfName name short, Run.ok_bind, type_eq, class_eq]
    rfl

/-- `decode` reads a well-formed record. -/
theorem decodeRR_of_wfEntry {r : RR} (h : WfEntry buf pos (.rr r) e) :
    decodeRR buf pos = .ok (r, e) := by
  obtain ⟨name, type, class_, TTL, data_length, data, data_type, string_data⟩ := r
  cases h with
  | bytes hname short type_eq class_eq ttl_eq len_eq isBytes hdata htype unused =>
    dsimp only at *
    subst htype unused
    have hnot : ¬ (type = CNAME ∨ type = NS) := isBytes
    simp only [decodeRR, decodeField_of_wfName hname short, Run.ok_bind, type_eq, class_eq, ttl_eq,
      len_eq, hnot, if_false, hdata]
    rfl
  | target hname short type_eq class_eq ttl_eq len_eq isName hdata short' htype unused =>
    dsimp only at *
    subst htype unused
    have his : type = CNAME ∨ type = NS := isName
    simp only [decodeRR, decodeField_of_wfName hname short, Run.ok_bind, type_eq, class_eq, ttl_eq,
      len_eq, his, if_true, decodeField_of_wfName hdata short']
    rfl

/-- `decode` reads an array of well-formed elements that has room for them. -/
theorem decodeArray_of_wfEntries {α : Type} {item : ℕ → Run (α × ℕ)} {entry : α → Entry}
    (hitem : ∀ {x : α} {pos e : ℕ}, WfEntry buf pos (entry x) e → item pos = .ok (x, e))
    {xs : List α} {i : ℕ} (hi : i + xs.length ≤ MAX_SIZE)
    (h : WfEntries buf pos (xs.map entry) e) :
    decodeArray item xs.length i pos = .ok (xs, e) := by
  induction xs generalizing i pos with
  | nil =>
    cases h
    rfl
  | cons x xs ih =>
    rw [List.length_cons] at hi
    cases h with
    | cons head tail =>
      have hroom : ¬ i ≥ MAX_SIZE := by omega
      have hrest := ih (i := i + 1) (by omega) tail
      simp only [List.length_cons, decodeArray, hroom, if_false, hitem head, Run.ok_bind, hrest]
      rfl

/-! ## Messages -/

/-- The elements of a message, in the order in which they are sent. -/
def Message.entries (m : Message) : List Entry :=
  m.ques.map .ques ++ (m.resourse_record.ANSWER.map .rr ++
    (m.resourse_record.AUTHORITY.map .rr ++ m.resourse_record.ADDITIONAL.map .rr))

/-- The names in a message. -/
def Message.names (m : Message) : List (List UInt8) := m.entries.flatMap Entry.names

/-- The counts of a message are those of its lists, which fit the arrays. -/
structure Message.Counted (m : Message) : Prop where
  q_count : m.q_count.toNat = m.ques.length
  ANSWER : m.RR_count.ANSWER.toNat = m.resourse_record.ANSWER.length
  AUTHORITY : m.RR_count.AUTHORITY.toNat = m.resourse_record.AUTHORITY.length
  ADDITIONAL : m.RR_count.ADDITIONAL.toNat = m.resourse_record.ADDITIONAL.length
  q_fit : m.ques.length ≤ MAX_SIZE
  ANSWER_fit : m.resourse_record.ANSWER.length ≤ MAX_SIZE
  AUTHORITY_fit : m.resourse_record.AUTHORITY.length ≤ MAX_SIZE
  ADDITIONAL_fit : m.resourse_record.ADDITIONAL.length ≤ MAX_SIZE

/-- A loop of `decode` reads as many elements as it has turns. -/
theorem decodeArray_counted {α : Type} {item : ℕ → Run (α × ℕ)} {count i pos e : ℕ} {xs : List α}
    (h : decodeArray item count i pos = .ok (xs, e)) :
    count = xs.length ∧ (count ≠ 0 → i + count ≤ MAX_SIZE) := by
  induction count generalizing i pos xs e with
  | zero =>
    obtain ⟨rfl, -⟩ := Prod.mk.inj (Except.ok.inj h)
    exact ⟨rfl, fun h => absurd rfl h⟩
  | succ count ih =>
    rw [decodeArray] at h
    split_ifs at h with hi
    obtain ⟨⟨x, pos₁⟩, -, h⟩ := Run.bind_eq_ok.mp h
    obtain ⟨⟨xs', pos₂⟩, hxs, h⟩ := Run.bind_eq_ok.mp h
    obtain ⟨rfl, -⟩ := Prod.mk.inj (Except.ok.inj h)
    obtain ⟨hlen, hfit⟩ := ih hxs
    exact ⟨by rw [hlen, List.length_cons], fun _ => by omega⟩

/-- What `decode` returns is what its loops read, each from where the one before it ended. -/
theorem decode_arrays {m : Message} {e : ℕ} (h : decode buf = .ok (m, e)) :
    ∃ pos pos₀ pos₁ pos₂,
      decodeArray (decodeQues buf) m.q_count.toNat 0 12 = .ok (m.ques, pos) ∧
      decodeArray (decodeRR buf) m.RR_count.ANSWER.toNat 0 pos =
        .ok (m.resourse_record.ANSWER, pos₀) ∧
      decodeArray (decodeRR buf) m.RR_count.AUTHORITY.toNat 0 pos₀ =
        .ok (m.resourse_record.AUTHORITY, pos₁) ∧
      decodeArray (decodeRR buf) m.RR_count.ADDITIONAL.toNat 0 pos₁ =
        .ok (m.resourse_record.ADDITIONAL, pos₂) := by
  obtain ⟨ID, -, h⟩ := Run.bind_eq_ok.mp h
  obtain ⟨b₀, -, h⟩ := Run.bind_eq_ok.mp h
  obtain ⟨b₁, -, h⟩ := Run.bind_eq_ok.mp h
  obtain ⟨q_count, -, h⟩ := Run.bind_eq_ok.mp h
  obtain ⟨n₀, -, h⟩ := Run.bind_eq_ok.mp h
  obtain ⟨n₁, -, h⟩ := Run.bind_eq_ok.mp h
  obtain ⟨n₂, -, h⟩ := Run.bind_eq_ok.mp h
  obtain ⟨⟨ques, pos⟩, hques, h⟩ := Run.bind_eq_ok.mp h
  obtain ⟨⟨rr₀, pos₀⟩, h₀, h⟩ := Run.bind_eq_ok.mp h
  obtain ⟨⟨rr₁, pos₁⟩, h₁, h⟩ := Run.bind_eq_ok.mp h
  obtain ⟨⟨rr₂, pos₂⟩, h₂, h⟩ := Run.bind_eq_ok.mp h
  obtain ⟨rfl, -⟩ := Prod.mk.inj (Except.ok.inj h)
  exact ⟨pos, pos₀, pos₁, pos₂, hques, h₀, h₁, h₂⟩

/-- The counts of a message that `decode` returns are right. -/
theorem decode_counted {m : Message} {e : ℕ} (h : decode buf = .ok (m, e)) : m.Counted := by
  have hfits : ∀ {count n : ℕ}, count = n ∧ (count ≠ 0 → 0 + count ≤ MAX_SIZE) → n ≤ MAX_SIZE := by
    rintro count n ⟨rfl, hfit⟩
    by_cases hzero : count = 0
    · rw [hzero]
      exact Nat.zero_le _
    · exact (Nat.zero_add count).symm.trans_le (hfit hzero)
  obtain ⟨pos, pos₀, pos₁, pos₂, hques, h₀, h₁, h₂⟩ := decode_arrays h
  have hq := decodeArray_counted hques
  have hr₀ := decodeArray_counted h₀
  have hr₁ := decodeArray_counted h₁
  have hr₂ := decodeArray_counted h₂
  exact ⟨hq.1, hr₀.1, hr₁.1, hr₂.1, hfits hq, hfits hr₀, hfits hr₁, hfits hr₂⟩

/-- The header of a message on the wire. -/
structure HeaderAt (buf : List UInt8) (m : Message) : Prop where
  ID : ntohsAt buf 0 = .ok m.ID
  flag : ∃ b₀ b₁, byteAt buf 2 = .ok b₀ ∧ byteAt buf 3 = .ok b₁ ∧ m.flag = flagOfBytes b₀ b₁
  q_count : ntohsAt buf 4 = .ok m.q_count
  ANSWER : ntohsAt buf 6 = .ok m.RR_count.ANSWER
  AUTHORITY : ntohsAt buf 8 = .ok m.RR_count.AUTHORITY
  ADDITIONAL : ntohsAt buf 10 = .ok m.RR_count.ADDITIONAL

/-- A well-formed message on the wire, and the position after it. -/
structure WfMessage (buf : List UInt8) (m : Message) (e : ℕ) : Prop where
  header : HeaderAt buf m
  counted : m.Counted
  entries : WfEntries buf 12 m.entries e

theorem HeaderAt.append {m : Message} (h : HeaderAt buf m) (t : List UInt8) :
    HeaderAt (buf ++ t) m where
  ID := (local_ntohsAt _).append_ok h.ID t
  flag := by
    obtain ⟨b₀, b₁, h₀, h₁, hflag⟩ := h.flag
    exact ⟨b₀, b₁, (local_byteAt _).append_ok h₀ t, (local_byteAt _).append_ok h₁ t, hflag⟩
  q_count := (local_ntohsAt _).append_ok h.q_count t
  ANSWER := (local_ntohsAt _).append_ok h.ANSWER t
  AUTHORITY := (local_ntohsAt _).append_ok h.AUTHORITY t
  ADDITIONAL := (local_ntohsAt _).append_ok h.ADDITIONAL t

/-- A well-formed message stays one when bytes are added after it. -/
theorem WfMessage.append {m : Message} (h : WfMessage buf m e) (t : List UInt8) :
    WfMessage (buf ++ t) m e :=
  ⟨h.header.append t, h.counted, h.entries.append t⟩

/-- `decode` of a well-formed message is the message, and it stops after it. -/
theorem decode_of_wfMessage {m : Message} (h : WfMessage buf m e) : decode buf = .ok (m, e) := by
  obtain ⟨hh, hc, hent⟩ := h
  obtain ⟨b₀, b₁, h₀, h₁, hflag⟩ := hh.flag
  obtain ⟨p₀, hq, hent⟩ := wfEntries_append_iff.mp hent
  obtain ⟨p₁, han, hent⟩ := wfEntries_append_iff.mp hent
  obtain ⟨p₂, hau, had⟩ := wfEntries_append_iff.mp hent
  have fits : ∀ {n}, n ≤ MAX_SIZE → 0 + n ≤ MAX_SIZE := fun h => by rwa [Nat.zero_add]
  simp only [decode, hh.ID, h₀, h₁, hh.q_count, hh.ANSWER, hh.AUTHORITY, hh.ADDITIONAL,
    Run.ok_bind, hc.q_count, hc.ANSWER, hc.AUTHORITY, hc.ADDITIONAL,
    decodeArray_of_wfEntries decodeQues_of_wfEntry (fits hc.q_fit) hq,
    decodeArray_of_wfEntries decodeRR_of_wfEntry (fits hc.ANSWER_fit) han,
    decodeArray_of_wfEntries decodeRR_of_wfEntry (fits hc.AUTHORITY_fit) hau,
    decodeArray_of_wfEntries decodeRR_of_wfEntry (fits hc.ADDITIONAL_fit) had, ← hflag]
  rfl

end DnsRelayer
