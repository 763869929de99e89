import DnsRelayer.Server.Handler

/-!
# What is in an item, and what of it is served

`Filled` says what an item has of the records that `addRR2Item` put into it, one after the other: the
value of each, cut to what an item keeps of it, and the name and the time of the last. `Item2Msg`
puts the values into records with that name and the time that is left, as many as there is room for
in the answer section (`Item2Msg_answers`).
-/

namespace DnsRelayer

/-- What an item keeps of the value of a record: four bytes of an address, or a string that fits its
array. -/
def kept (type : UInt16) (rr : RR) : List UInt8 :=
  if type = A then rr.data.take 4 else strncpy rr.string_data STR_LEN

/-- The values of an item. -/
def Item.values (it : Item) : List (List UInt8) :=
  if it.type.toUInt16 = A then it.ipv4.take it.num else it.strVal.take it.num

/-- The item blocks its name. -/
def Item.Blocks (it : Item) : Prop := it.type.toUInt16 = A ∧ it.ipv4.head? = some [0, 0, 0, 0]

instance (it : Item) : Decidable it.Blocks := inferInstanceAs (Decidable (_ ∧ _))

/-- An item has the values of the records, which are all of the type, and the name and the time of the
last, which was put in at the time `now`. -/
structure Filled (type : UInt16) (now : ℤ) (rrs : List RR) (it : Item) : Prop where
  num : it.num = rrs.length
  ipv4_length : it.ipv4.length = MAX_NUM
  strVal_length : it.strVal.length = MAX_NUM
  values : (if type = A then it.ipv4.take it.num else it.strVal.take it.num) = rrs.map (kept type)
  /-- An address has four bytes to copy. -/
  data : type = A → ∀ rr ∈ rrs, 4 ≤ rr.data.length
  empty : rrs = [] → it.type = 0
  last : ∀ rr, rrs.getLast? = some rr →
    it.type.toUInt16 = type ∧ it.name = strncpy rr.name STR_LEN ∧ it.ddl = rr.TTL.toNat + now

variable {type : UInt16} {now now' : ℤ} {rrs : List RR} {it it' : Item} {rr : RR}

/-- An item after `bzero` has no records. -/
theorem filled_zeroItem : Filled type now [] zeroItem where
  num := rfl
  ipv4_length := List.length_replicate
  strVal_length := List.length_replicate
  values := by split_ifs <;> rfl
  data := by simp
  empty _ := rfl
  last := by simp

/-- The type of a record survives in the `uint8_t` of an item. -/
theorem toUInt8_toUInt16_of_cached (h : type = A ∨ type = NS ∨ type = CNAME) :
    type.toUInt8.toUInt16 = type := by
  rcases h with rfl | rfl | rfl <;> decide

/-- The values of a list of which one more is set. -/
theorem take_succ_set {α : Type} {l : List α} {n : ℕ} (h : n < l.length) (a : α) :
    (l.set n a).take (n + 1) = l.take n ++ [a] := by
  rw [List.take_add_one, List.getElem?_set_self h, List.take_set_of_le le_rfl]
  rfl

/-- `addRR2Item` puts one more record into an item. -/
theorem Filled.add (h : Filled type now rrs it) (htype : type = A ∨ type = NS ∨ type = CNAME)
    (hrr : rr.type = type) (hok : addRR2Item it rr now' = .ok it') :
    Filled type now' (rrs ++ [rr]) it' := by
  have hcast : rr.type.toUInt8.toUInt16 = type := by rw [hrr, toUInt8_toUInt16_of_cached htype]
  have hvalues := h.values
  have hlast : ∀ r, (rrs ++ [rr]).getLast? = some r → r = rr := by
    intro r hr
    rw [List.getLast?_concat] at hr
    exact (Option.some.inj hr).symm
  simp only [addRR2Item, hcast] at hok
  split_ifs at hok with hfull hA hshort
  · -- An address.
    rw [if_pos hA] at hvalues
    obtain rfl := Except.ok.inj hok
    refine ⟨?_, ?_, h.strVal_length, ?_, ?_, by simp, ?_⟩
    · simp only [List.length_append, List.length_singleton, h.num]
    · simp only [List.length_set, h.ipv4_length]
    · rw [if_pos hA, take_succ_set (by rw [h.ipv4_length]; omega), hvalues, List.map_append]
      simp only [List.map_cons, List.map_nil, kept, if_pos hA]
    · intro _ r hr
      rcases List.mem_append.mp hr with hr | hr
      · exact h.data hA r hr
      · obtain rfl := List.mem_singleton.mp hr
        exact Nat.not_lt.mp hshort
    · intro r hr
      obtain rfl := hlast r hr
      exact ⟨hcast, rfl, rfl⟩
  -- A name.
  · rw [if_neg hA] at hvalues
    obtain rfl := Except.ok.inj hok
    refine ⟨?_, h.ipv4_length, ?_, ?_, fun hA' => absurd hA' hA, by simp, ?_⟩
    · simp only [List.length_append, List.length_singleton, h.num]
    · simp only [List.length_set, h.strVal_length]
    · rw [if_neg hA, take_succ_set (by rw [h.strVal_length]; omega), hvalues, List.map_append]
      simp only [List.map_cons, List.map_nil, kept, if_neg hA]
    · intro r hr
      obtain rfl := hlast r hr
      exact ⟨hcast, rfl, rfl⟩

/-- A record of another type changes nothing about an item. -/
theorem filled_concat_of_ne {type : UInt16} {now : ℤ} {rrs : List RR} {rr : RR} {it : Item}
    (hne : rr.type ≠ type) (h : Filled type now (rrs.filter (·.type = type)) it) :
    Filled type now ((rrs ++ [rr]).filter (·.type = type)) it := by
  simpa [List.filter_append, hne] using h

/-- A record of the type is put into the item. -/
theorem filled_concat_of_eq {type : UInt16} {now now' : ℤ} {rrs : List RR} {rr : RR} {it it' : Item}
    (hcached : Cached type) (heq : rr.type = type)
    (h : Filled type now (rrs.filter (·.type = type)) it) (hok : addRR2Item it rr now' = .ok it') :
    Filled type now' ((rrs ++ [rr]).filter (·.type = type)) it' := by
  have := h.add hcached heq hok
  simpa [List.filter_append, heq] using this

/-- An item of some records has their values, and the name and the time of the last. -/
theorem Filled.values_eq (h : Filled type now rrs it) (hne : it.type ≠ 0) :
    it.values = rrs.map (kept type) ∧ it.type.toUInt16 = type ∧ ∃ rr, rrs.getLast? = some rr ∧
      it.name = strncpy rr.name STR_LEN ∧ it.ddl = rr.TTL.toNat + now := by
  have hrrs : rrs ≠ [] := fun e => hne (h.empty e)
  have hsome := List.getLast?_eq_some_getLast hrrs
  obtain ⟨htype, hname, hddl⟩ := h.last _ hsome
  refine ⟨?_, htype, _, hsome, hname, hddl⟩
  rw [Item.values, htype, h.values]

/-! ## The address of a line of the local file -/

/-- The numbers of a dotted address are four. -/
theorem length_of_inet_pton {s addr : List UInt8} (h : inet_pton s = some addr) :
    addr.length = 4 := by
  have hmapM : ∀ (parts : List (List UInt8)) (bytes : List UInt8), parts.mapM octet = some bytes →
      bytes.length = parts.length := by
    intro parts
    induction parts with
    | nil =>
      intro bytes h
      rw [List.mapM_nil] at h
      obtain rfl := Option.some.inj h
      rfl
    | cons part parts ih =>
      intro bytes h
      rw [List.mapM_cons] at h
      obtain ⟨b, -, h⟩ := Option.bind_eq_some_iff.mp h
      obtain ⟨bs, hbs, h⟩ := Option.bind_eq_some_iff.mp h
      rw [← Option.some.inj h, List.length_cons, List.length_cons, ih bs hbs]
  simp only [inet_pton] at h
  split_ifs at h with hfour
  rw [← hfour]
  exact hmapM _ _ h

/-- The record of an address in the local file has its name whole. -/
theorem fileRR_name {name addr : List UInt8} (hlen : name.length < STR_LEN) :
    (fileRR name addr).name = name :=
  strncpy_of_length_le (hlen.le.trans (by decide))

/-- The item of an address in the local file has that address. -/
theorem values_of_fileRR {name addr : List UInt8} (hlen : name.length < STR_LEN)
    (haddr : addr.length = 4) (htmp : addRR2Item zeroItem (fileRR name addr) now = .ok it) :
    it.values = [addr] ∧ it.name = name ∧ it.type.toUInt16 = A := by
  have hfilled : Filled A now ([] ++ [fileRR name addr]) it :=
    (@filled_zeroItem A now).add (Or.inl rfl) rfl htmp
  obtain ⟨htype, hname, -⟩ := hfilled.last (fileRR name addr) rfl
  have hne : it.type ≠ 0 := by
    intro h0
    rw [h0] at htype
    exact absurd htype (by decide)
  obtain ⟨hvalues, -⟩ := hfilled.values_eq hne
  refine ⟨?_, ?_, htype⟩
  · have hkept : kept A (fileRR name addr) = addr := by
      rw [kept, if_pos rfl]
      exact List.take_of_length_le haddr.le
    rw [hvalues, List.nil_append, List.map_singleton, hkept]
  · rw [hname, fileRR_name hlen, strncpy_of_length_le hlen.le]

/-! ## The records of a response -/

/-- The records in the answer section of a response. -/
def Received.answers (d : Received) : List RR :=
  match decode (d.bytes ++ d.rest) with
  | .ok (msg, _) => msg.resourse_record.ANSWER
  | .error _ => []

/-- The last record of a type in the answer section of a response. -/
def Received.last (d : Received) (type : UInt16) : Option RR :=
  (d.answers.filter (·.type = type)).getLast?

/-- The data of a record of a type that is cached: an address, or a name. -/
def RR.value (rr : RR) : List UInt8 := if rr.type = A then rr.data else rr.string_data

theorem answers_of_decode {d : Received} {msg : Message} {n : ℕ}
    (h : decode (d.bytes ++ d.rest) = .ok (msg, n)) : d.answers = msg.resourse_record.ANSWER := by
  rw [Received.answers, h]

/-! ## Serving an item -/

/-- The record that `Item2Msg` makes of a value. -/
def Item.record (it : Item) (name : List UInt8) (now : ℤ) (value : List UInt8) : RR :=
  let rr := setRRName zeroRR name
  let rr := { rr with type := it.type.toUInt16, class_ := IN, TTL := toUInt32 (it.ddl - now) }
  if it.type.toUInt16 = A then setRRData rr value else setRRNameData rr value

/-- Adding records one after the other adds as many as there is room for. -/
theorem foldl_addRR {α : Type} (f : α → RR) (vs : List α) (msg : Message) :
    (vs.foldl (fun msg v => (addRR msg (f v) .ANSWER).2) msg).resourse_record.ANSWER =
      msg.resourse_record.ANSWER ++ (vs.map f).take (MAX_SIZE - msg.RR_count.ANSWER.toNat) := by
  induction vs generalizing msg with
  | nil => simp
  | cons v vs ih =>
    rw [List.foldl_cons, ih]
    by_cases hfull : msg.RR_count.ANSWER.toNat ≥ MAX_SIZE
    · rw [addRR_of_full hfull, Nat.sub_eq_zero_of_le hfull]
      simp
    · rw [addRR_of_room hfull]
      have hcount : (msg.RR_count.ANSWER + 1).toNat = msg.RR_count.ANSWER.toNat + 1 := by
        rw [UInt16.toNat_add]
        simp only [MAX_SIZE] at hfull
        exact Nat.mod_eq_of_lt (by simp; omega)
      have hroom : MAX_SIZE - msg.RR_count.ANSWER.toNat =
          (MAX_SIZE - (msg.RR_count.ANSWER.toNat + 1)) + 1 := by omega
      simp only [hcount, hroom, List.map_cons, List.take_succ_cons, List.append_assoc,
        List.singleton_append]

/-- What `Item2Msg` adds to the answer section: nothing when the item blocks its name, and else the
records of its values, as many as there is room for. -/
theorem Item2Msg_answers (msg : Message) (it : Item) (name : List UInt8) (now : ℤ) :
    it.Blocks ∧ Item2Msg msg it name now = setRCODE msg NAME_ERR ∨
    ¬ it.Blocks ∧ (Item2Msg msg it name now).resourse_record.ANSWER =
      msg.resourse_record.ANSWER ++
        (it.values.map (it.record name now)).take (MAX_SIZE - msg.RR_count.ANSWER.toNat) := by
  by_cases hA : it.type.toUInt16 = A
  · by_cases hzero : it.ipv4.head? = some [0, 0, 0, 0]
    · exact Or.inl ⟨⟨hA, hzero⟩, by simp only [Item2Msg, if_pos hA, if_pos hzero]⟩
    · refine Or.inr ⟨fun h => hzero h.2, ?_⟩
      simp only [Item2Msg, if_pos hA, if_neg hzero, foldl_addRR, Item.values]
      congr 3
      funext v
      simp only [Item.record, if_pos hA]
  · refine Or.inr ⟨fun h => hA h.1, ?_⟩
    simp only [Item2Msg, if_neg hA, foldl_addRR, Item.values]
    congr 3
    funext v
    simp only [Item.record, if_neg hA]

/-- Every record that `Item2Msg` adds to the answer section is made of a value of the item. -/
theorem mem_Item2Msg_answers {msg : Message} {name : List UInt8}
    (h : rr ∈ (Item2Msg msg it name now).resourse_record.ANSWER) :
    rr ∈ msg.resourse_record.ANSWER ∨ ∃ v ∈ it.values, rr = it.record name now v := by
  rcases Item2Msg_answers msg it name now with ⟨-, heq⟩ | ⟨-, heq⟩
  · rw [heq] at h
    exact Or.inl h
  · rw [heq] at h
    refine (List.mem_append.mp h).imp_right fun h => ?_
    obtain ⟨v, hv, rfl⟩ := List.mem_map.mp (List.mem_of_mem_take h)
    exact ⟨v, hv, rfl⟩

/-- A string that was copied to an array and is terminated there is the string. -/
theorem terminated_strncpy {name s : List UInt8}
    (h : terminated (strncpy name STR_LEN) = .ok s) : s = name ∧ name.length < STR_LEN := by
  rw [terminated] at h
  split_ifs at h with hlong
  have hlen : name.length < STR_LEN := by
    rw [strncpy, List.length_take] at hlong
    omega
  exact ⟨(Except.ok.inj h).symm.trans (strncpy_of_length_le hlen.le), hlen⟩

theorem length_of_terminated {array s : List UInt8} (h : terminated array = .ok s) :
    s = array ∧ array.length < STR_LEN := by
  rw [terminated] at h
  split_ifs at h with hlong
  exact ⟨(Except.ok.inj h).symm, Nat.not_le.mp hlong⟩

end DnsRelayer
