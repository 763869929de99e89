import DnsRelayer.Message.Reencode

/-!
# How long an encoded message is

A name that was written before is written as a pointer, in two bytes (`encodeName_size`). So where the
owner of each record is a name that is in the message before it (`Chained`), a record takes 12 bytes
and the room of its data, and `encode_size` bounds the whole message.
-/

namespace DnsRelayer

variable {n : ℕ} {tab tab' : HashTab UInt16}

/-- The table has an offset for the name. -/
def HashTab.Has (tab : HashTab UInt16) (k : List UInt8) : Prop := ∃ off, tab.lookup k = some off

/-- The table has at least the short names that another has. -/
def HashTab.Extends (tab' tab : HashTab UInt16) : Prop := ∀ k, Short k → tab.Has k → tab'.Has k

theorem HashTab.Extends.refl (tab : HashTab UInt16) : tab.Extends tab := fun _ _ h => h

theorem HashTab.Extends.trans {tab'' : HashTab UInt16} (h : tab''.Extends tab')
    (h' : tab'.Extends tab) : tab''.Extends tab := fun k hk hhas => h k hk (h' k hk hhas)

/-- A table to which a name was added has it, and the names that it had. -/
theorem extends_of_insert {k : List UInt8} {off : UInt16}
    (hl : ∀ k', Short k' → tab'.lookup k' = if k' = k then some off else tab.lookup k') :
    tab'.Extends tab ∧ (Short k → tab'.Has k) := by
  constructor
  · intro k' hk' hhas
    rw [HashTab.Has, hl k' hk']
    split_ifs
    · exact ⟨off, rfl⟩
    · exact hhas
  · intro hk
    exact ⟨off, by rw [hl k hk, if_pos rfl]⟩

/-! ## Names -/

/-- The loop of `encodeName` writes a byte for each of the name, and two more at most. -/
theorem encodeLoop_size (hT : Table tab n) {name : List UInt8} (hn : n + name.length < TABLE_MAX)
    {num : ℕ} {last_name out label bs : List UInt8} {cnt : UInt8}
    (hok : encodeLoop tab num last_name out label cnt name = .ok (bs, tab')) :
    bs.length ≤ out.length + label.length + name.length + 2 ∧ tab'.Extends tab ∧
      (Short last_name → tab'.Has last_name) := by
  induction name generalizing tab n num last_name out label cnt with
  | nil =>
    obtain ⟨tab₁, hins, -, hl⟩ := hT.insert hn last_name (UInt16.ofNat num)
    rw [encodeLoop, hins] at hok
    obtain ⟨rfl, rfl⟩ := Prod.mk.inj (Except.ok.inj hok)
    refine ⟨?_, extends_of_insert hl⟩
    simp only [List.length_append, List.length_cons, List.length_nil]
    omega
  | cons c name ih =>
    rw [List.length_cons] at hn ⊢
    -- A dot becomes the length of a label or a pointer, which is one more byte.
    by_cases hc : c = DOT
    · obtain ⟨tab₁, hins, hT₁, hl⟩ := hT.insert (by omega) last_name (UInt16.ofNat num)
      obtain ⟨hext, hhas⟩ := extends_of_insert hl
      obtain ⟨pos, hpos⟩ := hT₁.exists_getPos name
      rw [encodeLoop, if_pos hc, hins, Run.ok_bind, hpos, Run.ok_bind] at hok
      split_ifs at hok with hne
      · -- The rest of the name is a pointer.
        obtain ⟨rfl, rfl⟩ := Prod.mk.inj (Except.ok.inj hok)
        refine ⟨?_, hext, hhas⟩
        simp only [List.length_append, List.length_cons, length_htons]
        omega
      · obtain ⟨hlen, hext', -⟩ := ih hT₁ (by omega) hok
        refine ⟨?_, hext'.trans hext, fun hs => hext' _ hs (hhas hs)⟩
        simp only [List.length_append, List.length_cons, List.length_nil] at hlen
        omega
    · rw [encodeLoop, if_neg hc] at hok
      obtain ⟨hlen, hrest⟩ := ih hT (by omega) hok
      refine ⟨?_, hrest⟩
      simp only [List.length_append, List.length_cons, List.length_nil] at hlen
      omega

/-- A name takes two bytes more than it has, or two bytes when it was written before. Then it is
known. -/
theorem encodeName_size (hT : Table tab n) {name : List UInt8} (hs : Short name)
    (hn : n + HASH_KEY_MAX_LEN ≤ TABLE_MAX) {p : ℕ} {bs : List UInt8}
    (hok : encodeName name p tab = .ok (bs, tab')) :
    bs.length ≤ name.length + 2 ∧ (tab.Has name → bs.length = 2) ∧ tab'.Extends tab ∧
      tab'.Has name := by
  have hlt : name.length < HASH_KEY_MAX_LEN := hs
  cases hl : tab.lookup name with
  | some off =>
    rw [encodeName, hT.getPos_some hs hl, Run.ok_bind, if_pos (pointer_ne_zero off)] at hok
    obtain ⟨rfl, rfl⟩ := Prod.mk.inj (Except.ok.inj hok)
    exact ⟨Nat.le_add_left 2 _, fun _ => rfl, .refl _, off, hl⟩
  | none =>
    rw [encodeName, hT.getPos_none hs hl, Run.ok_bind, if_neg (by simp)] at hok
    obtain ⟨hlen, hext, hhas⟩ := encodeLoop_size hT (by omega) hok
    refine ⟨?_, ?_, hext, hhas hs⟩
    · simpa using hlen
    · rintro ⟨off, hoff⟩
      rw [hl] at hoff
      cases hoff

/-! ## Elements -/

/-- Room for the data of a record. -/
def RR.room (r : RR) : ℕ :=
  match r.data_type with
  | .BINARY_TYPE => r.data_length.toNat
  | .STRING_TYPE => r.string_data.length + 2

/-- A question takes six bytes more than its name. -/
theorem encodeQues_size (hT : Table tab n) {q : Question} (hs : Short q.q_name)
    (hn : n + HASH_KEY_MAX_LEN ≤ TABLE_MAX) {p : ℕ} {bs : List UInt8}
    (hok : encodeQues q p tab = .ok (bs, tab')) :
    bs.length ≤ q.q_name.length + 6 ∧ tab'.Has q.q_name := by
  obtain ⟨name, hname, rfl⟩ := encodeQues_eq_ok hok
  obtain ⟨hlen, -, -, hhas⟩ := encodeName_size hT hs hn hname
  refine ⟨?_, hhas⟩
  simp only [List.length_append, length_htons]
  omega

/-- A record whose owner was written before takes 12 bytes and the room of its data. -/
theorem encodeRR_size (hT : Table tab n) {r : RR}
    (hs : ∀ k ∈ (Entry.rr r).names, Short k) (hn : n + 2 * HASH_KEY_MAX_LEN ≤ TABLE_MAX)
    (howner : tab.Has r.name) {p : ℕ} {bs : List UInt8} (hok : encodeRR r p tab = .ok (bs, tab')) :
    bs.length ≤ 12 + r.room ∧ tab'.Extends tab ∧ ∀ k ∈ (Entry.rr r).names, tab'.Has k := by
  have hsname : Short r.name := hs _ List.mem_cons_self
  obtain ⟨name, tab₁, hname, hdata⟩ := encodeRR_eq_ok hok
  obtain ⟨-, htwo, hext, hhas⟩ := encodeName_size hT hsname (by omega) hname
  -- The owner is a pointer.
  have hlen := htwo howner
  rcases hdata with ⟨hd, rfl, rfl⟩ | ⟨hd, target, htarget, rfl⟩
  · refine ⟨?_, hext, fun k hk => ?_⟩
    · simp only [RR.room, hd, List.length_append, length_fieldBytes, List.length_take, hlen]
      omega
    · simp only [Entry.names, hd, List.mem_singleton] at hk
      exact hk ▸ hhas
  · have hstarget : Short r.string_data := hs _ (by simp [Entry.names, hd])
    obtain ⟨_, tab₂, hname', hT₁⟩ := encodeName_total hT hsname (by omega) p
    obtain ⟨rfl, rfl⟩ := Prod.mk.inj (Except.ok.inj (hname'.symm.trans hname))
    obtain ⟨hlen', -, hext', hhas'⟩ := encodeName_size hT₁ hstarget (by omega) htarget
    refine ⟨?_, hext'.trans hext, fun k hk => ?_⟩
    · simp only [RR.room, hd, List.length_append, length_fieldBytes, hlen]
      omega
    · simp only [Entry.names, hd, List.mem_cons, List.not_mem_nil, or_false] at hk
      rcases hk with rfl | rfl
      · exact hext' _ hsname hhas
      · exact hhas'

/-! ## Messages -/

/-- The owner of each record is one of the names, or is in a record before it. -/
def Chained : List (List UInt8) → List RR → Prop
  | _, [] => True
  | ks, r :: rs => r.name ∈ ks ∧ Chained (ks ++ (Entry.rr r).names) rs

/-- Room for records. -/
def roomFor (rs : List RR) : ℕ := (rs.map fun r => 12 + r.room).sum

theorem roomFor_append (rs rs' : List RR) : roomFor (rs ++ rs') = roomFor rs + roomFor rs' := by
  rw [roomFor, List.map_append, List.sum_append]
  rfl

theorem roomFor_le {rs : List RR} {c : ℕ} (h : ∀ r ∈ rs, r.room ≤ c) :
    roomFor rs ≤ rs.length * (12 + c) := by
  induction rs with
  | nil => exact Nat.zero_le _
  | cons r rs ih =>
    have hr := h r List.mem_cons_self
    have hrs := ih fun r' hr' => h r' (List.mem_cons_of_mem r hr')
    rw [roomFor, List.map_cons, List.sum_cons, List.length_cons, Nat.succ_mul]
    unfold roomFor at hrs
    omega

theorem chained_of_forall {ks : List (List UInt8)} {rs : List RR} (h : ∀ r ∈ rs, r.name ∈ ks) :
    Chained ks rs := by
  induction rs generalizing ks with
  | nil => trivial
  | cons r rs ih =>
    refine ⟨h r List.mem_cons_self, ih fun r' hr' => ?_⟩
    exact List.mem_append_left _ (h r' (List.mem_cons_of_mem r hr'))

/-- Records may follow whose owners are in the records before them. -/
theorem chained_append {ks : List (List UInt8)} {rs rs' : List RR} (h : Chained ks rs)
    (h' : ∀ r ∈ rs', r.name ∈ ks ++ rs.flatMap fun r => (Entry.rr r).names) :
    Chained ks (rs ++ rs') := by
  induction rs generalizing ks with
  | nil => exact chained_of_forall (by simpa using h')
  | cons r rs ih =>
    refine ⟨h.1, ih h.2 fun r' hr' => ?_⟩
    have := h' r' hr'
    rwa [List.flatMap_cons, ← List.append_assoc] at this

/-- Records whose owners are known take their room. -/
theorem encodeEntries_size {ks : List (List UInt8)} {rs : List RR} (hT : Table tab n)
    (ht : ∀ r ∈ rs, (Entry.rr r).Typed) (hs : ∀ r ∈ rs, ∀ k ∈ (Entry.rr r).names, Short k)
    (hn : n + 2 * HASH_KEY_MAX_LEN * rs.length ≤ TABLE_MAX) (hks : ∀ k ∈ ks, Short k ∧ tab.Has k)
    (hchained : Chained ks rs) {p : ℕ} {bs : List UInt8}
    (hok : encodeEntries (rs.map .rr) p tab = .ok (bs, tab')) : bs.length ≤ roomFor rs := by
  induction rs generalizing tab tab' n ks p bs with
  | nil =>
    obtain ⟨rfl, -⟩ := Prod.mk.inj (Except.ok.inj hok)
    exact Nat.zero_le _
  | cons r rs ih =>
    rw [List.length_cons, Nat.mul_succ] at hn
    obtain ⟨howner, hchained⟩ := hchained
    have htr := ht r List.mem_cons_self
    have hsr := hs r List.mem_cons_self
    obtain ⟨⟨bs₁, tab₁⟩, hfirst, hok⟩ := Run.bind_eq_ok.mp hok
    obtain ⟨⟨bs₂, tab₂⟩, hrest, hok⟩ := Run.bind_eq_ok.mp hok
    obtain ⟨rfl, -⟩ := Prod.mk.inj (Except.ok.inj hok)
    obtain ⟨hlen, hext, hhas⟩ := encodeRR_size hT hsr (by omega) (hks _ howner).2 hfirst
    obtain ⟨_, tab₃, hfirst', hT₁⟩ := @encodeEntry_total _ _ (.rr r) htr hsr hT (by omega) p
    obtain ⟨rfl, rfl⟩ := Prod.mk.inj (Except.ok.inj (hfirst'.symm.trans hfirst))
    -- After a record, its own names are known as well.
    have hks₁ : ∀ k ∈ ks ++ (Entry.rr r).names, Short k ∧ tab₃.Has k := by
      intro k hk
      rcases List.mem_append.mp hk with hk | hk
      · exact ⟨(hks k hk).1, hext k (hks k hk).1 (hks k hk).2⟩
      · exact ⟨hsr k hk, hhas k hk⟩
    have hlen' := ih hT₁ (fun r' hr' => ht r' (List.mem_cons_of_mem r hr'))
      (fun r' hr' => hs r' (List.mem_cons_of_mem r hr')) (by omega) hks₁ hchained hrest
    rw [roomFor, List.map_cons, List.sum_cons, List.length_append]
    exact Nat.add_le_add hlen hlen'

/-- **Size.** A message of one question, and answers whose owners are in the message before them, takes
the header, the question and the room of the answers. -/
theorem encode_size {m : Message} (hc : m.Counted) (ht : ∀ x ∈ m.entries, x.Typed)
    (hs : ∀ k ∈ m.names, Short k) {q : Question} (hq : m.ques = [q])
    (hauthority : m.resourse_record.AUTHORITY = []) (hadditional : m.resourse_record.ADDITIONAL = [])
    (hchained : Chained [q.q_name] m.resourse_record.ANSWER) {bs : List UInt8}
    (hok : encode m = .ok bs) :
    bs.length ≤ 12 + (q.q_name.length + 6) + roomFor m.resourse_record.ANSWER := by
  have hentries : m.entries = .ques q :: m.resourse_record.ANSWER.map .rr := by
    simp [Message.entries, hq, hauthority, hadditional]
  have hsq : Short q.q_name := hs _ (by simp [Message.names, hentries, Entry.names])
  have htr : ∀ r ∈ m.resourse_record.ANSWER, (Entry.rr r).Typed := fun r hr =>
    ht _ (by rw [hentries]; exact List.mem_cons_of_mem _ (List.mem_map_of_mem hr))
  have hsr : ∀ r ∈ m.resourse_record.ANSWER, ∀ k ∈ (Entry.rr r).names, Short k := by
    intro r hr k hk
    refine hs k (List.mem_flatMap.mpr ⟨.rr r, ?_, hk⟩)
    rw [hentries]
    exact List.mem_cons_of_mem _ (List.mem_map_of_mem hr)
  have hfew := hc.few
  rw [hentries, List.length_cons, List.length_map, Nat.mul_succ] at hfew
  rw [encode_eq hc, hentries] at hok
  obtain ⟨⟨rest, tab'⟩, hrun, hok⟩ := Run.bind_eq_ok.mp hok
  obtain rfl := Except.ok.inj hok
  obtain ⟨⟨bs₁, tab₁⟩, hfirst, hrun⟩ := Run.bind_eq_ok.mp hrun
  obtain ⟨⟨bs₂, tab₂⟩, hrest, hrun⟩ := Run.bind_eq_ok.mp hrun
  obtain ⟨rfl, -⟩ := Prod.mk.inj (Except.ok.inj hrun)
  -- The question's name is in the table before the answers are written.
  obtain ⟨hlen, hhas⟩ := encodeQues_size table_newHashTab hsq (by omega) hfirst
  obtain ⟨_, tab₃, hfirst', hT₁⟩ := @encodeEntry_total _ _ (.ques q) trivial
    (by simpa [Entry.names] using hsq) table_newHashTab (by omega) 12
  obtain ⟨rfl, rfl⟩ := Prod.mk.inj (Except.ok.inj (hfirst'.symm.trans hfirst))
  have hlen' := encodeEntries_size hT₁ htr hsr (by omega)
    (by simpa using ⟨hsq, hhas⟩) hchained hrest
  simp only [List.length_append, length_encodeHeader]
  omega

end DnsRelayer
