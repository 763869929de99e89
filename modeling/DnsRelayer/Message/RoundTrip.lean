import DnsRelayer.Message.WellFormed
import DnsRelayer.Message.Encode

/-!
# The round trip of the codec

What `encode` writes is a well-formed message. The hash table that it threads through the names is
`Known`: every name in it starts at its offset in what is written so far. While a name is being
written this holds of its later tails only, since the earlier ones start at labels whose rest is not
there yet; so it is stated up to a length, and the end of the name gives the longer tails back.

Decoding what `encode` wrote then gives back what the message says (`decode_encode`).
-/

namespace DnsRelayer

variable {buf : List UInt8} {ht : HashTab UInt16} {n : ℕ}

/-! ## The table -/

/-- The table of `encode` after at most `n` insertions. -/
structure Table (ht : HashTab UInt16) (n : ℕ) : Prop where
  indexed : ht.Indexed Short
  len_pos : 0 < ht.len
  len_le : ht.len ≤ INIT_SIZE + n
  num_le : ht.num ≤ n

/-- Most insertions that a table is used for here: it can always be doubled. -/
def TABLE_MAX : ℕ := 2 ^ 30

theorem table_newHashTab : Table newHashTab 0 where
  indexed := HashTab.newHashTab_indexed
  len_pos := by
    rw [HashTab.newHashTab_len]
    decide
  len_le := HashTab.newHashTab_len.le
  num_le := le_rfl

theorem Table.mono (h : Table ht n) {n' : ℕ} (hle : n ≤ n') : Table ht n' :=
  ⟨h.indexed, h.len_pos, h.len_le.trans (by omega), h.num_le.trans hle⟩

/-- A table takes another name. -/
theorem Table.insert (h : Table ht n) (hn : n < TABLE_MAX) (k : List UInt8) (off : UInt16) :
    ∃ ht', insert ht k off = .ok ht' ∧ Table ht' (n + 1) ∧
      ∀ k', Short k' → ht'.lookup k' = if k' = k then some off else ht.lookup k' := by
  -- The table may double, and does not get past the range of `int`.
  have hmax : ht.len < 2 ^ 31 := by
    have hle := h.len_le
    unfold INIT_SIZE at hle
    unfold TABLE_MAX at hn
    omega
  obtain ⟨ht', hok, hpos, hplaced, hins⟩ := HashTab.insert_spec ht h.len_pos hmax k off
  have hi' := hins.indexed (keeps_short k) h.indexed h.len_pos
    (hplaced _ (keeps_short k) h.indexed.placed)
  have hlookup : ∀ k', Short k' → ht'.lookup k' = if k' = k then some off else ht.lookup k' :=
    fun k' hk' => hins.lookup (keeps_short k) h.indexed hi' hk' hk'.fits
  refine ⟨ht', hok, ⟨hi', hpos, ?_, ?_⟩, hlookup⟩
  · have hle := h.len_le
    have hnum := h.num_le
    cases hins with
    | overwritten _ _ _ _ _ _ len_eq => omega
    | added _ _ num_eq len_le =>
      have hmod : ht'.num ≤ ht.num + 1 := num_eq ▸ Nat.mod_le _ _
      rcases len_le with ⟨h, -⟩ | ⟨h, h'⟩ <;> omega
  · have hnum := h.num_le
    cases hins with
    | overwritten _ _ _ _ _ num_eq => omega
    | added _ _ num_eq =>
      have hmod : ht'.num ≤ ht.num + 1 := num_eq ▸ Nat.mod_le _ _
      omega

/-- `getPos` of a name that the table does not have. -/
theorem Table.getPos_none (h : Table ht n) {k : List UInt8} (hk : Short k)
    (hl : ht.lookup k = none) : getPos k ht = .ok 0 := by
  rw [getPos, HashTab.search_of_placed h.len_pos h.indexed.placed hk, hl]
  rfl

/-- `getPos` of a name that the table has. -/
theorem Table.getPos_some (h : Table ht n) {k : List UInt8} (hk : Short k) {off : UInt16}
    (hl : ht.lookup k = some off) : getPos k ht = .ok (0xc000 ||| off) := by
  rw [getPos, HashTab.search_of_placed h.len_pos h.indexed.placed hk, hl]
  rfl

/-! ## Pointers -/

/-- Below this, an offset fits a pointer. -/
def POINTER_MAX : ℕ := 2 ^ 14

/-- Every offset in the callers' buffer fits a pointer. -/
theorem BUFF_SIZE_le_POINTER_MAX : BUFF_SIZE ≤ POINTER_MAX := by decide

theorem pointer_ne_zero (off : UInt16) : 0xc000 ||| off ≠ 0 := by
  intro h
  have := congrArg UInt16.toNat h
  rw [UInt16.toNat_or] at this
  have hle : (0xc000 : UInt16).toNat ≤ (0xc000 : UInt16).toNat ||| off.toNat := Nat.left_le_or
  rw [this] at hle
  revert hle
  decide

theorem toNat_pointer {off : UInt16} (h : off.toNat < POINTER_MAX) :
    (0xc000 ||| off).toNat = 0xc000 + off.toNat := by
  rw [UInt16.toNat_or]
  exact (Nat.two_pow_add_eq_or_of_lt h 3).symm

/-- The bytes of a pointer to an offset that fits. -/
theorem exists_htons_pointer {off : UInt16} (h : off.toNat < POINTER_MAX) :
    ∃ hi lo, htons (0xc000 ||| off) = [hi, lo] ∧ hi ≥ POINTER ∧ pointerTarget hi lo = off.toNat := by
  refine ⟨_, _, rfl, ?_, ?_⟩
  · rw [ge_iff_le, UInt8.le_iff_toNat_le, toNat_pointer h, UInt8.toNat_ofNat']
    have hp : POINTER.toNat = 192 := rfl
    unfold POINTER_MAX at h
    omega
  · have hand : ∀ x : UInt8, (x &&& 0x3f).toNat = x.toNat % 64 := fun x => by
      rw [UInt8.toNat_and]
      exact Nat.and_two_pow_sub_one_eq_mod x.toNat 6
    rw [pointerTarget, hand, toNat_pointer h, UInt8.toNat_ofNat', UInt8.toNat_ofNat']
    unfold POINTER_MAX at h
    omega

/-! ## Names -/

/-- Every name in the table, up to a length, starts at its offset. -/
def Known (buf : List UInt8) (ht : HashTab UInt16) (len : ℕ) : Prop :=
  ∀ k off, Short k → k.length ≤ len → ht.lookup k = some off →
    Encodable k ∧ ∃ e, WfName buf off.toNat k e

theorem Known.append {len : ℕ} (h : Known buf ht len) (t : List UInt8) :
    Known (buf ++ t) ht len := by
  intro k off hk hle hl
  obtain ⟨henc, e, hwf⟩ := h k off hk hle hl
  exact ⟨henc, e, hwf.append t⟩

theorem Known.mono {len len' : ℕ} (h : Known buf ht len) (hle : len' ≤ len) :
    Known buf ht len' :=
  fun k off hk hk' hl => h k off hk (hk'.trans hle) hl

/-- A new table has no names. -/
theorem known_newHashTab (buf : List UInt8) (len : ℕ) : Known buf newHashTab len := by
  intro k off _ _ hl
  rw [HashTab.lookup, HashTab.newHashTab_entries] at hl
  cases hl

/-- A label as it is written. -/
def Label.wire (l : Label) : List UInt8 := l.len :: l.bytes

theorem Label.length_wire (l : Label) : l.wire.length = 1 + l.length := by
  rw [wire, List.length_cons, length, Nat.add_comm]

/-- The place after a label. -/
theorem Label.length_append_wire (l : Label) (P : List UInt8) :
    P.length + 1 + l.length = (P ++ l.wire).length := by
  rw [List.length_append, l.length_wire]
  omega

/-- A label that is written is one on the wire. -/
theorem labelAt_wire (l : Label) (P t : List UInt8) :
    LabelAt (P ++ (l.wire ++ t)) P.length l where
  len := by simp [Label.wire]
  bytes := by
    have hle : P.length + 1 + l.length ≤ (P ++ (l.wire ++ t)).length := by
      rw [List.length_append, List.length_append, l.length_wire]
      omega
    have hdrop : (P ++ (l.wire ++ t)).drop (P.length + 1) = l.bytes ++ t := by
      rw [List.drop_append]
      simp [Label.wire]
    rw [bytesAt_of_le hle, hdrop]
    exact congrArg _ List.take_left

/-- A name other than the root does not start with its byte. -/
theorem WfName.ne_root {pos e : ℕ} {name : List UInt8} (h : WfName buf pos name e)
    (hne : name ≠ []) : buf[pos]? ≠ some 0 :=
  fun h0 => hne (h.unique (.root h0)).1

/-- A loop that copies and counts every byte but a dot copies and counts the bytes of a label. -/
theorem copies_label {β : Type} {loop : List UInt8 → UInt8 → List UInt8 → β}
    (hloop : ∀ label cnt c rest, c ≠ DOT →
      loop label cnt (c :: rest) = loop (label ++ [c]) (cnt + 1) rest)
    {label rest bytes : List UInt8} {cnt : UInt8} (h : DOT ∉ bytes) :
    loop label cnt (bytes ++ rest) =
      loop (label ++ bytes) (cnt + UInt8.ofNat bytes.length) rest := by
  induction bytes generalizing label cnt with
  | nil => simp
  | cons c bytes ih =>
    obtain ⟨hc, hbytes⟩ := not_or.mp (mt List.mem_cons.mpr h)
    rw [List.cons_append, hloop _ _ _ _ (Ne.symm hc), ih hbytes]
    congr 1
    · simp
    · rw [List.length_cons, ← UInt8.toNat_inj]
      simp only [UInt8.toNat_add, UInt8.toNat_ofNat', UInt8.toNat_one]
      omega

/-- The loop of `encodeName` copies the bytes of a label. -/
theorem encodeLoop_label {num : ℕ} {last_name out label rest : List UInt8} {cnt : UInt8}
    {bytes : List UInt8} (h : DOT ∉ bytes) :
    encodeLoop ht num last_name out label cnt (bytes ++ rest) =
      encodeLoop ht num last_name out (label ++ bytes) (cnt + UInt8.ofNat bytes.length) rest := by
  refine @copies_label _ (encodeLoop ht num last_name out) ?_ label rest bytes cnt h
  intro label cnt c rest hc
  rw [encodeLoop, if_neg hc]

/-- What writing a name does, from the buffer and the table before it to those after it: when the
offsets fit pointers, the name is there, and the names up to its length are known as before. -/
def Writes (P : List UInt8) (ht : HashTab UInt16) (name bs : List UInt8) (ht' : HashTab UInt16) :
    Prop :=
  (P ++ bs).length ≤ POINTER_MAX → Known P ht name.length →
    WfName (P ++ bs) P.length name (P ++ bs).length ∧ Known (P ++ bs) ht' name.length

/-- A pointer to a name is the name. -/
theorem wfName_pointer {P name : List UInt8} {off : UInt16} {e : ℕ}
    (hwf : WfName P off.toNat name e)
    (hfit : (P ++ htons (0xc000 ||| off)).length ≤ POINTER_MAX) :
    WfName (P ++ htons (0xc000 ||| off)) P.length name (P ++ htons (0xc000 ||| off)).length := by
  have hoff : off.toNat < P.length := hwf.lt_length
  have hmax : off.toNat < POINTER_MAX := by
    rw [List.length_append, length_htons] at hfit
    omega
  obtain ⟨hi, lo, hbytes, hp, htarget⟩ := exists_htons_pointer hmax
  rw [hbytes]
  have hlen : (P ++ [hi, lo]).length = P.length + 2 := by simp
  have hwf' : WfName (P ++ [hi, lo]) (pointerTarget hi lo) name e := by
    rw [htarget]
    exact hwf.append _
  rw [hlen]
  exact .pointer (by simp) hp (by simp) (by rwa [htarget]) hwf'

/-- A pointer to a known name writes the name. -/
theorem writes_pointer {P name : List UInt8} {off : UInt16} (hs : Short name)
    (hl : ht.lookup name = some off) : Writes P ht name (htons (0xc000 ||| off)) ht := by
  intro hfit hknown
  obtain ⟨-, e, hwf⟩ := hknown name off hs le_rfl hl
  exact ⟨wfName_pointer hwf hfit, hknown.append _⟩

/-- Where a table has an entry for the name that is written, it is for this place. -/
theorem toNat_offset {P bs : List UInt8} (h : (P ++ bs).length ≤ POINTER_MAX) :
    (UInt16.ofNat P.length).toNat = P.length := by
  unfold POINTER_MAX at h
  rw [List.length_append] at h
  rw [UInt16.toNat_ofNat']
  omega

/-- The last label and the root write the label, and the table gets it. -/
theorem writes_last {P : List UInt8} {l : Label} {ht' : HashTab UInt16}
    (hs : Short (dotted [l]))
    (hl : ∀ k, Short k → ht'.lookup k =
      if k = dotted [l] then some (UInt16.ofNat P.length) else ht.lookup k) :
    Writes P ht (dotted [l]) (l.wire ++ [0]) ht' := by
  intro hfit hknown
  have hlen : (P ++ (l.wire ++ [0])).length = P.length + 1 + l.length + 1 := by
    rw [List.length_append, List.length_append, l.length_wire, List.length_singleton]
    omega
  have hroot : (P ++ (l.wire ++ [0]))[P.length + 1 + l.length]? = some 0 := by
    rw [List.getElem?_append_right (by omega), List.getElem?_append_right (by
      rw [l.length_wire]
      omega), l.length_wire, show P.length + 1 + l.length - P.length - (1 + l.length) = 0 by omega]
    rfl
  have hwf : WfName (P ++ (l.wire ++ [0])) P.length (dotted [l]) (P ++ (l.wire ++ [0])).length := by
    rw [hlen]
    exact .last (labelAt_wire l P [0]) hroot
  refine ⟨hwf, fun k off hk hle hlk => ?_⟩
  rw [hl k hk] at hlk
  -- The name itself is here; the others are where they were.
  split_ifs at hlk with heq
  · obtain rfl := Option.some.inj hlk
    rw [toNat_offset hfit, heq]
    exact ⟨⟨⟨[l], by simp, rfl⟩, hs⟩, _, hwf⟩
  · exact hknown.append _ k off hk hle hlk

/-- A label that other labels follow, and what writes those, write the name, and the table gets it:
the longer tails that it had before are known still, and the shorter ones are known from the rest. -/
theorem writes_more {P bs : List UInt8} {l : Label} {ls : List Label} {ht₁ ht' : HashTab UInt16}
    (hne : ls ≠ []) (hs : Short (dotted (l :: ls)))
    (hl : ∀ k, Short k → ht₁.lookup k =
      if k = dotted (l :: ls) then some (UInt16.ofNat P.length) else ht.lookup k)
    (hrest : Writes (P ++ l.wire) ht₁ (dotted ls) bs ht')
    (hlong : ∀ k, Short k → (dotted ls).length < k.length → ht'.lookup k = ht₁.lookup k) :
    Writes P ht (dotted (l :: ls)) (l.wire ++ bs) ht' := by
  intro hfit hknown
  have hlt : (dotted ls).length < (dotted (l :: ls)).length := by
    rw [dotted_cons_of_ne_nil l hne, List.length_append, List.length_cons]
    omega
  -- The tails after the label were known before it, and are not the name.
  have hknown₁ : Known (P ++ l.wire) ht₁ (dotted ls).length := by
    intro k off hk hle hlk
    rw [hl k hk, if_neg (fun h => by rw [h] at hle; omega)] at hlk
    exact hknown.append _ k off hk (by omega) hlk
  rw [← List.append_assoc] at hfit ⊢
  obtain ⟨hwf, hknown'⟩ := hrest hfit hknown₁
  have hpos : (P ++ l.wire).length = P.length + 1 + l.length := by
    rw [List.length_append, l.length_wire]
    omega
  have hname : WfName (P ++ l.wire ++ bs) P.length (dotted (l :: ls))
      (P ++ l.wire ++ bs).length := by
    have hroot := hwf.ne_root (dotted_ne_nil hne)
    rw [hpos] at hwf hroot
    rw [dotted_cons_of_ne_nil l hne]
    refine .more ?_ hroot hwf
    rw [List.append_assoc]
    exact labelAt_wire l P bs
  refine ⟨hname, fun k off hk hle hlk => ?_⟩
  by_cases hlong' : (dotted ls).length < k.length
  · rw [hlong k hk hlong', hl k hk] at hlk
    split_ifs at hlk with heq
    · obtain rfl := Option.some.inj hlk
      rw [List.append_assoc] at hfit
      rw [toNat_offset hfit, heq]
      exact ⟨⟨⟨l :: ls, by simp, rfl⟩, hs⟩, _, hname⟩
    · rw [List.append_assoc]
      exact hknown.append _ k off hk hle hlk
  · exact hknown' k off hk (by omega) hlk

/-- The loop of `encodeName` writes the rest of a name. It changes the table for the tails of this
rest only. -/
theorem encodeLoop_spec {ls : List Label} (hne : ls ≠ []) (hs : Short (dotted ls))
    (hT : Table ht n) (hn : n + ls.length ≤ TABLE_MAX) (P out : List UInt8) :
    ∃ bs ht', encodeLoop ht P.length (dotted ls) out [] 0 (dotted ls) = .ok (out ++ bs, ht') ∧
      Table ht' (n + ls.length) ∧ Writes P ht (dotted ls) bs ht' ∧
      ∀ k, Short k → (dotted ls).length < k.length → ht'.lookup k = ht.lookup k := by
  induction ls generalizing ht n P out with
  | nil => exact absurd rfl hne
  | cons l ls ih =>
    rw [List.length_cons] at hn ⊢
    obtain ⟨ht₁, hok, hT₁, hl⟩ := hT.insert (by omega) (dotted (l :: ls)) (UInt16.ofNat P.length)
    have hlen : (0 : UInt8) + UInt8.ofNat l.bytes.length = l.len := UInt8.zero_add _
    have hlong₁ : ∀ k, Short k → (dotted (l :: ls)).length < k.length →
        ht₁.lookup k = ht.lookup k := by
      intro k hk hlt
      rw [hl k hk, if_neg (fun h => by rw [h] at hlt; omega)]
    by_cases hls : ls = []
    · subst hls
      refine ⟨l.wire ++ [0], ht₁, ?_, hT₁.mono (by simp), writes_last hs hl, hlong₁⟩
      have hlast : dotted [l] = l.bytes ++ [] := (List.append_nil _).symm
      have hrun := @encodeLoop_label ht P.length (dotted [l]) out [] [] 0 l.bytes l.no_dot
      rw [← hlast] at hrun
      rw [hrun, hlen, encodeLoop, hok]
      rfl
    · have hmore := dotted_cons_of_ne_nil l hls
      have hshort : Short (dotted ls) := by
        unfold Short at hs ⊢
        rw [hmore, List.length_append, List.length_cons] at hs
        omega
      have hlt : (dotted ls).length < (dotted (l :: ls)).length := by
        rw [hmore, List.length_append, List.length_cons]
        omega
      -- The loop up to the test whether the tail is known.
      have hrun : encodeLoop ht P.length (dotted (l :: ls)) out [] 0 (dotted (l :: ls)) =
          getPos (dotted ls) ht₁ >>= fun pos =>
            if pos ≠ 0 then .ok (out ++ (l.wire ++ htons pos), ht₁)
            else encodeLoop ht₁ (P ++ l.wire).length (dotted ls) (out ++ l.wire) [] 0
              (dotted ls) := by
        have h := @encodeLoop_label ht P.length (dotted (l :: ls)) out [] (DOT :: dotted ls) 0
          l.bytes l.no_dot
        rw [← hmore] at h
        rw [h, hlen, encodeLoop, if_pos rfl, hok, Run.ok_bind]
        have hnext : P.length + 1 + l.bytes.length = (P ++ l.wire).length :=
          l.length_append_wire P
        rw [List.nil_append, hnext]
        rfl
      cases hlk : ht₁.lookup (dotted ls) with
      | some off =>
        rw [hrun, hT₁.getPos_some hshort hlk, Run.ok_bind, if_pos (pointer_ne_zero off)]
        exact ⟨_, ht₁, rfl, hT₁.mono (by omega),
          writes_more hls hs hl (writes_pointer hshort hlk) fun _ _ _ => rfl, hlong₁⟩
      | none =>
        obtain ⟨bs, ht', hok', hT', hw, hlong⟩ :=
          ih hls hshort hT₁ (by omega) (P ++ l.wire) (out ++ l.wire)
        rw [hrun, hT₁.getPos_none hshort hlk, Run.ok_bind, if_neg (by simp), hok']
        refine ⟨l.wire ++ bs, ht', by rw [List.append_assoc], hT'.mono (by omega),
          writes_more hls hs hl hw hlong, fun k hk hlt' => ?_⟩
        rw [hlong k hk (hlt.trans hlt'), hlong₁ k hk hlt']

/-- A name has no more labels than bytes. -/
theorem length_le_dotted (ls : List Label) : ls.length ≤ (dotted ls).length := by
  induction ls with
  | nil => simp
  | cons l ls ih =>
    by_cases hls : ls = []
    · subst hls
      exact l.length_pos
    · rw [dotted_cons_of_ne_nil l hls, List.length_append, List.length_cons, List.length_cons]
      omega

/-- `encodeName` writes the name, when it can be carried over. -/
theorem encodeName_spec {name : List UInt8} (h : Encodable name) (hT : Table ht n)
    (hn : n + HASH_KEY_MAX_LEN ≤ TABLE_MAX) (P : List UInt8) :
    ∃ bs ht', encodeName name P.length ht = .ok (bs, ht') ∧ Table ht' (n + HASH_KEY_MAX_LEN) ∧
      ((P ++ bs).length ≤ POINTER_MAX → Known P ht HASH_KEY_MAX_LEN →
        WfName (P ++ bs) P.length name (P ++ bs).length ∧ Known (P ++ bs) ht' HASH_KEY_MAX_LEN) := by
  obtain ⟨⟨ls, hne, rfl⟩, hs⟩ := h
  have hle : (dotted ls).length ≤ HASH_KEY_MAX_LEN := hs.le
  cases hlk : ht.lookup (dotted ls) with
  | some off =>
    refine ⟨htons (0xc000 ||| off), ht, ?_, hT.mono (by omega), fun hfit hknown => ?_⟩
    · rw [encodeName, hT.getPos_some hs hlk, Run.ok_bind, if_pos (pointer_ne_zero off)]
      rfl
    · exact ⟨(writes_pointer hs hlk hfit (hknown.mono hle)).1, hknown.append _⟩
  | none =>
    have hlen := length_le_dotted ls
    obtain ⟨bs, ht', hok, hT', hw, hlong⟩ := encodeLoop_spec hne hs hT (by omega) P []
    refine ⟨bs, ht', ?_, hT'.mono (by omega), fun hfit hknown => ?_⟩
    · rw [encodeName, hT.getPos_none hs hlk, Run.ok_bind, if_neg (by simp), hok]
      rfl
    · obtain ⟨hwf, hknown'⟩ := hw hfit (hknown.mono hle)
      refine ⟨hwf, fun k off hk hk' hl => ?_⟩
      -- A longer name was there before; a shorter one is known from the loop.
      by_cases hlong' : (dotted ls).length < k.length
      · rw [hlong k hk hlong'] at hl
        exact hknown.append _ k off hk hk' hl
      · exact hknown' k off hk (by omega) hl

/-! ## Elements -/

/-- Writing an element. -/
def encodeEntry : Entry → ℕ → HashTab UInt16 → Run (List UInt8 × HashTab UInt16)
  | .ques q => encodeQues q
  | .rr r => encodeRR r

/-- Writing elements one after the other. -/
def encodeEntries : List Entry → ℕ → HashTab UInt16 → Run (List UInt8 × HashTab UInt16)
  | [], _, ht => .ok ([], ht)
  | x :: xs, p, ht =>
    encodeEntry x p ht >>= fun r =>
      encodeEntries xs (p + r.1.length) r.2 >>= fun r' => .ok (r.1 ++ r'.1, r'.2)

/-- Reading a number where it was written. -/
theorem ntohsAt_of_eq {P t : List UInt8} {x : UInt16} {i : ℕ} (h : buf = P ++ (htons x ++ t))
    (hi : i = P.length) : ntohsAt buf i = .ok x := by
  have h₁ : buf[i]? = some (UInt8.ofNat (x.toNat / 256)) := by simp [h, hi, htons]
  have h₀ : buf[i + 1]? = some (UInt8.ofNat (x.toNat % 256)) := by simp [h, hi, htons]
  rw [ntohsAt, byteAt_of_getElem? h₁, Run.ok_bind, byteAt_of_getElem? h₀, Run.ok_bind, ntohs_htons]
  rfl

theorem ntohlAt_of_eq {P t : List UInt8} {x : UInt32} {i : ℕ} (h : buf = P ++ (htonl x ++ t))
    (hi : i = P.length) : ntohlAt buf i = .ok x := by
  have h₃ : buf[i]? = some (UInt8.ofNat (x.toNat / 256 ^ 3)) := by simp [h, hi, htonl]
  have h₂ : buf[i + 1]? = some (UInt8.ofNat (x.toNat / 256 ^ 2 % 256)) := by simp [h, hi, htonl]
  have h₁ : buf[i + 2]? = some (UInt8.ofNat (x.toNat / 256 % 256)) := by simp [h, hi, htonl]
  have h₀ : buf[i + 3]? = some (UInt8.ofNat (x.toNat % 256)) := by simp [h, hi, htonl]
  rw [ntohlAt, byteAt_of_getElem? h₃, Run.ok_bind, byteAt_of_getElem? h₂, Run.ok_bind,
    byteAt_of_getElem? h₁, Run.ok_bind, byteAt_of_getElem? h₀, Run.ok_bind, ntohl_htonl]
  rfl

/-- Reading bytes where they were written. -/
theorem bytesAt_of_eq {P d t : List UInt8} {i k : ℕ} (h : buf = P ++ (d ++ t)) (hi : i = P.length)
    (hk : k = d.length) : bytesAt buf i k = .ok d := by
  have hle : i + k ≤ buf.length := by
    rw [h, List.length_append, List.length_append]
    omega
  rw [bytesAt_of_le hle, h, hi, List.drop_left, hk, List.take_left]

/-- What writing an element does, from the buffer and the table before it to those after it: when
the offsets fit pointers, and the names before it are known, an element is there that says the
same. -/
def WritesEntries (P : List UInt8) (ht : HashTab UInt16) (xs : List Entry) (bs : List UInt8)
    (ht' : HashTab UInt16) : Prop :=
  (P ++ bs).length ≤ POINTER_MAX → Known P ht HASH_KEY_MAX_LEN →
    ∃ ys, ys.map Entry.content = xs.map Entry.content ∧
      WfEntries (P ++ bs) P.length ys (P ++ bs).length ∧ Known (P ++ bs) ht' HASH_KEY_MAX_LEN

/-- `encodeQues` writes the question. -/
theorem encodeQues_spec {q : Question} (h : Encodable q.q_name) (hT : Table ht n)
    (hn : n + HASH_KEY_MAX_LEN ≤ TABLE_MAX) (P : List UInt8) :
    ∃ bs ht', encodeQues q P.length ht = .ok (bs, ht') ∧ Table ht' (n + HASH_KEY_MAX_LEN) ∧
      WritesEntries P ht [.ques q] bs ht' := by
  obtain ⟨name, ht', hok, hT', hname⟩ := encodeName_spec h hT hn P
  refine ⟨name ++ (htons q.q_type ++ htons q.q_class), ht', ?_, hT', fun hfit hknown => ?_⟩
  · rw [encodeQues, hok]
    rfl
  · rw [← List.append_assoc] at hfit ⊢
    obtain ⟨hwf, hknown'⟩ := hname (by
      rw [List.length_append] at hfit
      omega) hknown
    refine ⟨[.ques q], rfl, ?_, hknown'.append _⟩
    have hentry : WfEntry (P ++ name ++ (htons q.q_type ++ htons q.q_class)) P.length (.ques q)
        ((P ++ name).length + 4) :=
      .ques (hwf.append _) h.short (ntohsAt_of_eq rfl rfl)
        (@ntohsAt_of_eq _ (P ++ name ++ htons q.q_type) [] _ _ (by simp) (by simp [Nat.add_assoc]))
    have hlen : (P ++ name ++ (htons q.q_type ++ htons q.q_class)).length =
        (P ++ name).length + 4 := by simp [Nat.add_assoc]
    rw [hlen]
    exact .cons hentry (.nil _)

/-- The fields of a record between its name and its data. -/
def fieldBytes (rr : RR) (data_length : UInt16) : List UInt8 :=
  htons rr.type ++ (htons rr.class_ ++ (htonl rr.TTL ++ htons data_length))

@[simp]
theorem length_fieldBytes (rr : RR) (data_length : UInt16) :
    (fieldBytes rr data_length).length = 10 := by simp [fieldBytes]

/-- Reading the fields of a record where they were written. -/
theorem fields_of_eq {P t : List UInt8} {rr : RR} {data_length : UInt16}
    (h : buf = P ++ (fieldBytes rr data_length ++ t)) :
    ntohsAt buf P.length = .ok rr.type ∧ ntohsAt buf (P.length + 2) = .ok rr.class_ ∧
      ntohlAt buf (P.length + 4) = .ok rr.TTL ∧ ntohsAt buf (P.length + 8) = .ok data_length := by
  unfold fieldBytes at h
  refine ⟨?_, ?_, ?_, ?_⟩
  · exact @ntohsAt_of_eq _ P (htons rr.class_ ++ (htonl rr.TTL ++ (htons data_length ++ t))) _ _
      (by simp [h]) rfl
  · exact @ntohsAt_of_eq _ (P ++ htons rr.type) (htonl rr.TTL ++ (htons data_length ++ t)) _ _
      (by simp [h]) (by simp)
  · exact @ntohlAt_of_eq _ (P ++ (htons rr.type ++ htons rr.class_)) (htons data_length ++ t) _ _
      (by simp [h]) (by simp)
  · exact @ntohsAt_of_eq _ (P ++ (htons rr.type ++ (htons rr.class_ ++ htonl rr.TTL))) t _ _
      (by simp [h]) (by simp)

/-- Writing a record of bytes. -/
theorem encodeRR_bytes {r : RR} (hd : r.data_type = .BINARY_TYPE)
    (hle : r.data_length.toNat ≤ r.data.length) {p : ℕ} {tab tab₁ : HashTab UInt16}
    {name : List UInt8} (hok : encodeName r.name p tab = .ok (name, tab₁)) :
    encodeRR r p tab = .ok (name ++ (fieldBytes r r.data_length ++
      r.data.take r.data_length.toNat), tab₁) := by
  have hnot : ¬ r.data.length < r.data_length.toNat := by omega
  simp only [encodeRR, hok, Run.ok_bind, hd, hnot, if_false, fieldBytes, List.append_assoc]
  rfl

/-- Writing a record whose data is a name. -/
theorem encodeRR_name {r : RR} (hd : r.data_type = .STRING_TYPE) {p : ℕ}
    {tab tab₁ : HashTab UInt16} {name : List UInt8}
    (hok : encodeName r.name p tab = .ok (name, tab₁)) :
    encodeRR r p tab = encodeName r.string_data (p + name.length + 10) tab₁ >>= fun t =>
      .ok (name ++ (fieldBytes r (UInt16.ofNat t.1.length) ++ t.1), t.2) := by
  have hpos : p + (name ++ (htons r.type ++ (htons r.class_ ++ htonl r.TTL))).length + 2 =
      p + name.length + 10 := by
    simp
    omega
  simp only [encodeRR, hok, Run.ok_bind, hd, hpos, fieldBytes, List.append_assoc]
  rfl

/-- `encodeRR` writes a record with bytes. -/
theorem encodeRR_binary {r : RR} (hd : r.data_type = .BINARY_TYPE) (ht : (Entry.rr r).Typed)
    (howner : Encodable r.name) {tab : HashTab UInt16} (hT : Table tab n)
    (hn : n + 2 * HASH_KEY_MAX_LEN ≤ TABLE_MAX) (P : List UInt8) :
    ∃ bs tab', encodeRR r P.length tab = .ok (bs, tab') ∧ Table tab' (n + 2 * HASH_KEY_MAX_LEN) ∧
      WritesEntries P tab [.rr r] bs tab' := by
  obtain ⟨htype, hdata⟩ := ht
  obtain ⟨name, tab₁, hok, hT₁, hname⟩ := encodeName_spec howner hT (by omega) P
  have hle := hdata hd
  refine ⟨_, tab₁, encodeRR_bytes hd hle hok, hT₁.mono (by omega), fun hfit hknown => ?_⟩
  rw [← List.append_assoc] at hfit ⊢
  have hfit₁ : (P ++ name).length ≤ POINTER_MAX := by
    rw [List.length_append] at hfit
    omega
  obtain ⟨hwf, hknown'⟩ := hname hfit₁ hknown
  generalize hB : P ++ name ++ (fieldBytes r r.data_length ++ r.data.take r.data_length.toNat) = B
    at hfit ⊢
  obtain ⟨h₁, h₂, h₃, h₄⟩ := fields_of_eq hB.symm
  have hlen : (r.data.take r.data_length.toNat).length = r.data_length.toNat :=
    List.length_take_of_le hle
  have hB' : B.length = (P ++ name).length + 10 + r.data_length.toNat := by
    rw [← hB]
    simp only [List.length_append, length_fieldBytes, hlen]
    omega
  refine ⟨[.rr { r with data := r.data.take r.data_length.toNat, string_data := [] }], ?_, ?_,
    hB ▸ hknown'.append _⟩
  · simp [Entry.content, RR.content, hd]
  · rw [hB']
    refine .cons (.bytes (hB ▸ hwf.append _) howner.short h₁ h₂ h₃ h₄
      (mt htype.mpr (by simp [hd])) ?_ hd rfl) (.nil _)
    exact @bytesAt_of_eq _ (P ++ name ++ fieldBytes r r.data_length) _ [] _ _ (by simp [← hB])
      (by simp [Nat.add_assoc]) hlen.symm

/-- `encodeRR` writes a record with a name for its data. -/
theorem encodeRR_string {r : RR} (hd : r.data_type = .STRING_TYPE) (ht : (Entry.rr r).Typed)
    (howner : Encodable r.name) (htarget : Encodable r.string_data) {tab : HashTab UInt16}
    (hT : Table tab n) (hn : n + 2 * HASH_KEY_MAX_LEN ≤ TABLE_MAX) (P : List UInt8) :
    ∃ bs tab', encodeRR r P.length tab = .ok (bs, tab') ∧ Table tab' (n + 2 * HASH_KEY_MAX_LEN) ∧
      WritesEntries P tab [.rr r] bs tab' := by
  obtain ⟨name, tab₁, hok, hT₁, hname⟩ := encodeName_spec howner hT (by omega) P
  have hpos : ∀ x, (P ++ name ++ fieldBytes r x).length = P.length + name.length + 10 := by
    simp [Nat.add_assoc]
  -- The length of the data stands before it, and is known after it is written.
  obtain ⟨target, tab', hok', -, -⟩ :=
    encodeName_spec htarget hT₁ (by omega) (P ++ name ++ fieldBytes r 0)
  obtain ⟨target', tab'', hok'', hT', htgt⟩ := encodeName_spec htarget hT₁ (by omega)
    (P ++ name ++ fieldBytes r (UInt16.ofNat target.length))
  rw [hpos] at hok' hok''
  obtain ⟨rfl, rfl⟩ := Prod.mk.inj (Except.ok.inj (hok'.symm.trans hok''))
  refine ⟨_, tab', by rw [encodeRR_name hd hok, hok', Run.ok_bind], hT'.mono (by omega),
    fun hfit hknown => ?_⟩
  rw [← List.append_assoc] at hfit ⊢
  generalize hlen : UInt16.ofNat target.length = len at hfit htgt ⊢
  generalize hB : P ++ name ++ (fieldBytes r len ++ target) = B at hfit ⊢
  have hB₂ : P ++ name ++ fieldBytes r len ++ target = B := by rw [← hB, List.append_assoc]
  have hB' : B.length = (P ++ name).length + 10 + target.length := by
    rw [← hB₂]
    simp [Nat.add_assoc]
  have hlen' : len.toNat = target.length := by
    unfold POINTER_MAX at hfit
    rw [← hlen, UInt16.toNat_ofNat']
    omega
  obtain ⟨hwf, hknown₁⟩ := hname (by omega) hknown
  have hknown₂ : Known (P ++ name ++ fieldBytes r len) tab₁ HASH_KEY_MAX_LEN := hknown₁.append _
  rw [hB₂] at htgt
  obtain ⟨hwf', hknown'⟩ := htgt hfit hknown₂
  obtain ⟨h₁, h₂, h₃, h₄⟩ := fields_of_eq hB.symm
  refine ⟨[.rr { r with data := [], data_length := len }], ?_, ?_, hknown'⟩
  · simp [Entry.content, RR.content, hd]
  · have hend : (P ++ name).length + 10 + len.toNat = B.length := by rw [hB', hlen']
    have hstart : (P ++ name ++ fieldBytes r len).length = (P ++ name).length + 10 := by
      rw [List.length_append, length_fieldBytes]
    rw [← hend] at hwf' ⊢
    rw [hstart] at hwf'
    exact .cons (.target (hB ▸ hwf.append _) howner.short h₁ h₂ h₃ h₄ (ht.1.mp hd) hwf'
      htarget.short hd rfl) (.nil _)

/-- `encodeRR` writes the record. -/
theorem encodeRR_spec {r : RR} (ht : (Entry.rr r).Typed) (h : ∀ k ∈ (Entry.rr r).names, Encodable k)
    {tab : HashTab UInt16} (hT : Table tab n) (hn : n + 2 * HASH_KEY_MAX_LEN ≤ TABLE_MAX)
    (P : List UInt8) :
    ∃ bs tab', encodeRR r P.length tab = .ok (bs, tab') ∧ Table tab' (n + 2 * HASH_KEY_MAX_LEN) ∧
      WritesEntries P tab [.rr r] bs tab' := by
  have howner : Encodable r.name := h _ List.mem_cons_self
  cases hd : r.data_type with
  | BINARY_TYPE => exact encodeRR_binary hd ht howner hT hn P
  | STRING_TYPE => exact encodeRR_string hd ht howner (h _ (by simp [Entry.names, hd])) hT hn P

/-- `encodeEntry` writes the element. -/
theorem encodeEntry_spec {x : Entry} (ht : x.Typed) (h : ∀ k ∈ x.names, Encodable k) {tab : HashTab UInt16}
    (hT : Table tab n) (hn : n + 2 * HASH_KEY_MAX_LEN ≤ TABLE_MAX) (P : List UInt8) :
    ∃ bs tab', encodeEntry x P.length tab = .ok (bs, tab') ∧
      Table tab' (n + 2 * HASH_KEY_MAX_LEN) ∧ WritesEntries P tab [x] bs tab' := by
  cases x with
  | ques q =>
    obtain ⟨bs, tab', hok, hT', hw⟩ := encodeQues_spec (h _ List.mem_cons_self) hT (by omega) P
    exact ⟨bs, tab', hok, hT'.mono (by omega), hw⟩
  | rr r => exact encodeRR_spec ht h hT hn P

/-- What writes an element and what writes those after it write them together. -/
theorem WritesEntries.append {P bs bs' : List UInt8} {xs xs' : List Entry}
    {tab tab₁ tab' : HashTab UInt16} (h : WritesEntries P tab xs bs tab₁)
    (h' : WritesEntries (P ++ bs) tab₁ xs' bs' tab') :
    WritesEntries P tab (xs ++ xs') (bs ++ bs') tab' := by
  intro hfit hknown
  rw [← List.append_assoc] at hfit ⊢
  obtain ⟨ys, hys, hwf, hknown₁⟩ := h (by
    rw [List.length_append] at hfit
    omega) hknown
  obtain ⟨ys', hys', hwf', hknown'⟩ := h' hfit hknown₁
  refine ⟨ys ++ ys', ?_, wfEntries_append_iff.mpr ⟨_, hwf.append bs', hwf'⟩, hknown'⟩
  rw [List.map_append, List.map_append, hys, hys']

/-- Writing elements that can be carried over. -/
theorem encodeEntries_spec {xs : List Entry} (hx : ∀ x ∈ xs, x.Typed ∧ ∀ k ∈ x.names, Encodable k)
    {tab : HashTab UInt16} (hT : Table tab n)
    (hn : n + 2 * HASH_KEY_MAX_LEN * xs.length ≤ TABLE_MAX) (P : List UInt8) :
    ∃ bs tab', encodeEntries xs P.length tab = .ok (bs, tab') ∧
      Table tab' (n + 2 * HASH_KEY_MAX_LEN * xs.length) ∧ WritesEntries P tab xs bs tab' := by
  induction xs generalizing tab n P with
  | nil =>
    refine ⟨[], tab, rfl, hT, fun _ hknown => ⟨[], rfl, ?_, ?_⟩⟩
    · rw [List.append_nil]
      exact .nil _
    · rwa [List.append_nil]
  | cons x xs ih =>
    rw [List.length_cons, Nat.mul_succ] at hn ⊢
    obtain ⟨ht, h⟩ := hx x List.mem_cons_self
    obtain ⟨bs, tab₁, hok, hT₁, hw⟩ := encodeEntry_spec ht h hT (by omega) P
    obtain ⟨bs', tab', hok', hT', hw'⟩ :=
      ih (fun y hy => hx y (List.mem_cons_of_mem x hy)) hT₁ (by omega) (P ++ bs)
    rw [List.length_append] at hok'
    refine ⟨bs ++ bs', tab', ?_, hT'.mono (by omega), hw.append hw'⟩
    rw [encodeEntries, hok, Run.ok_bind, hok', Run.ok_bind]

/-! ## Messages -/

/-- Writing the elements of an array. -/
theorem encodeArray_eq {α : Type} {item : α → ℕ → HashTab UInt16 → Run (List UInt8 × HashTab UInt16)}
    {entry : α → Entry} (hitem : ∀ x, item x = encodeEntry (entry x)) (xs : List α) (p : ℕ)
    (tab : HashTab UInt16) :
    encodeArray item xs.length xs p tab = encodeEntries (xs.map entry) p tab := by
  induction xs generalizing p tab with
  | nil => rfl
  | cons x xs ih =>
    rw [List.length_cons, encodeArray, List.map_cons, encodeEntries, hitem]
    cases encodeEntry (entry x) p tab with
    | error e => rfl
    | ok r =>
      simp only [Run.ok_bind, ih]
      rfl

/-- Writing elements in two parts. -/
theorem encodeEntries_append (xs ys : List Entry) (p : ℕ) (tab : HashTab UInt16) :
    encodeEntries (xs ++ ys) p tab =
      encodeEntries xs p tab >>= fun r =>
        encodeEntries ys (p + r.1.length) r.2 >>= fun r' => .ok (r.1 ++ r'.1, r'.2) := by
  induction xs generalizing p tab with
  | nil =>
    rw [List.nil_append, encodeEntries, Run.ok_bind]
    cases encodeEntries ys (p + 0) tab <;> rfl
  | cons x xs ih =>
    rw [List.cons_append, encodeEntries, encodeEntries]
    cases encodeEntry x p tab with
    | error e => rfl
    | ok r =>
      rw [Run.ok_bind, Run.ok_bind, ih]
      cases encodeEntries xs (p + r.1.length) r.2 with
      | error e => rfl
      | ok r₁ =>
        simp only [Run.ok_bind, List.length_append, Nat.add_assoc]
        cases encodeEntries ys (p + (r.1.length + r₁.1.length)) r₁.2 with
        | error e => rfl
        | ok r₂ => simp only [Run.ok_bind, List.append_assoc]

@[simp]
theorem length_encodeHeader (m : Message) : (encodeHeader m).length = 12 := by simp [encodeHeader]

/-- `encode` writes the header and then the elements. -/
theorem encode_eq {m : Message} (h : m.Counted) :
    encode m = encodeEntries m.entries 12 newHashTab >>= fun r => .ok (encodeHeader m ++ r.1) := by
  rw [encode, h.q_count, h.ANSWER, h.AUTHORITY, h.ADDITIONAL]
  simp only [encodeArray_eq (fun q => show encodeQues q = encodeEntry (.ques q) from rfl),
    encodeArray_eq (fun r => show encodeRR r = encodeEntry (.rr r) from rfl), length_encodeHeader]
  simp only [Message.entries, encodeEntries_append, bind_assoc, Run.ok_bind]
  rfl

/-- What a message says: each of its elements, without the fields that are unused. -/
def Message.content (m : Message) : Message :=
  { m with
    resourse_record :=
      { ANSWER := m.resourse_record.ANSWER.map RR.content
        AUTHORITY := m.resourse_record.AUTHORITY.map RR.content
        ADDITIONAL := m.resourse_record.ADDITIONAL.map RR.content } }

theorem content_ques_injective {qs : List Question} {ys : List Entry}
    (h : ys.map Entry.content = (qs.map Entry.ques).map Entry.content) : ys = qs.map .ques := by
  induction qs generalizing ys with
  | nil => exact List.map_eq_nil_iff.mp h
  | cons q qs ih =>
    obtain ⟨y, ys, rfl, hy, hys⟩ := List.map_eq_cons_iff.mp h
    cases y with
    | ques q' => rw [List.map_cons, ih hys, Entry.ques.inj hy]
    | rr r => cases hy

/-- Elements that say what some records say are records. -/
theorem exists_records {rs : List RR} {ys : List Entry}
    (h : ys.map Entry.content = (rs.map Entry.rr).map Entry.content) :
    ∃ rs' : List RR, ys = rs'.map .rr ∧ rs'.map RR.content = rs.map RR.content := by
  induction rs generalizing ys with
  | nil => exact ⟨[], List.map_eq_nil_iff.mp h, rfl⟩
  | cons r rs ih =>
    obtain ⟨y, ys, rfl, hy, hys⟩ := List.map_eq_cons_iff.mp h
    obtain ⟨rs', rfl, hrs'⟩ := ih hys
    cases y with
    | ques q => cases hy
    | rr r' =>
      refine ⟨r' :: rs', rfl, ?_⟩
      rw [List.map_cons, List.map_cons, hrs', Entry.rr.inj hy]

/-- Elements that say what the elements of a message say are those of a message that says what it
says. -/
theorem exists_message {m : Message} (hc : m.Counted) {ys : List Entry}
    (h : ys.map Entry.content = m.entries.map Entry.content) :
    ∃ m' : Message, m'.entries = ys ∧ m'.content = m.content ∧ m'.Counted := by
  rw [Message.entries, List.map_append, List.map_append, List.map_append] at h
  -- The elements come apart as the sections do.
  obtain ⟨yq, ys, rfl, hq, h⟩ := List.map_eq_append_iff.mp h
  obtain ⟨y₀, ys, rfl, h₀, h⟩ := List.map_eq_append_iff.mp h
  obtain ⟨y₁, y₂, rfl, h₁, h₂⟩ := List.map_eq_append_iff.mp h
  obtain rfl := content_ques_injective hq
  obtain ⟨r₀, rfl, hr₀⟩ := exists_records h₀
  obtain ⟨r₁, rfl, hr₁⟩ := exists_records h₁
  obtain ⟨r₂, rfl, hr₂⟩ := exists_records h₂
  have hlen : ∀ {l l' : List RR}, l.map RR.content = l'.map RR.content → l.length = l'.length :=
    fun h => by simpa using congrArg List.length h
  refine ⟨{ m with resourse_record := ⟨r₀, r₁, r₂⟩ }, rfl, ?_, ⟨hc.q_count, ?_, ?_, ?_, hc.q_fit,
    ?_, ?_, ?_⟩⟩
  · simp only [Message.content, hr₀, hr₁, hr₂]
  · exact hc.ANSWER.trans (hlen hr₀).symm
  · exact hc.AUTHORITY.trans (hlen hr₁).symm
  · exact hc.ADDITIONAL.trans (hlen hr₂).symm
  · exact (hlen hr₀).trans_le hc.ANSWER_fit
  · exact (hlen hr₁).trans_le hc.AUTHORITY_fit
  · exact (hlen hr₂).trans_le hc.ADDITIONAL_fit

/-- Messages that say the same have the same header. -/
theorem encodeHeader_content {m m' : Message} (h : m'.content = m.content) :
    encodeHeader m' = encodeHeader m := by
  have hheader : ∀ m : Message, encodeHeader m.content = encodeHeader m := fun m => rfl
  rw [← hheader m', ← hheader m, h]

/-- The header that is written. -/
theorem headerAt_encodeHeader (m : Message) (t : List UInt8) :
    HeaderAt (encodeHeader m ++ t) m where
  ID := congrArg Except.ok (ntohs_htons m.ID)
  flag := ⟨_, _, rfl, rfl, (flagOfBytes_flagBytes m.flag).symm⟩
  q_count := congrArg Except.ok (ntohs_htons m.q_count)
  ANSWER := congrArg Except.ok (ntohs_htons m.RR_count.ANSWER)
  AUTHORITY := congrArg Except.ok (ntohs_htons m.RR_count.AUTHORITY)
  ADDITIONAL := congrArg Except.ok (ntohs_htons m.RR_count.ADDITIONAL)

/-- A message has few enough elements for the table. -/
theorem Message.Counted.few {m : Message} (hc : m.Counted) :
    0 + 2 * HASH_KEY_MAX_LEN * m.entries.length ≤ TABLE_MAX := by
  have h := hc.q_fit
  have h₀ := hc.ANSWER_fit
  have h₁ := hc.AUTHORITY_fit
  have h₂ := hc.ADDITIONAL_fit
  have hlen : m.entries.length ≤ 4 * MAX_SIZE := by
    simp only [Message.entries, List.length_append, List.length_map]
    omega
  unfold HASH_KEY_MAX_LEN TABLE_MAX
  unfold MAX_SIZE at hlen
  omega

/-- `encode` writes a well-formed message that says what the message says, when its elements can be
carried over and the offsets fit pointers. -/
theorem encode_spec {m : Message} (hc : m.Counted)
    (ht : ∀ x ∈ m.entries, x.Typed) (hn : ∀ k ∈ m.names, Encodable k) :
    ∃ bs, encode m = .ok bs ∧ (bs.length ≤ POINTER_MAX →
      ∃ m', m'.content = m.content ∧ WfMessage bs m' bs.length) := by
  obtain ⟨bs, ht', hok, -, hw⟩ := encodeEntries_spec (fun x hx =>
    ⟨ht x hx, fun k hk => hn k (List.mem_flatMap.mpr ⟨x, hx, hk⟩)⟩) table_newHashTab hc.few
    (encodeHeader m)
  rw [length_encodeHeader] at hok
  refine ⟨encodeHeader m ++ bs, ?_, fun hfit => ?_⟩
  · rw [encode_eq hc, hok, Run.ok_bind]
  · obtain ⟨ys, hys, hwf, -⟩ := hw hfit (known_newHashTab _ _)
    obtain ⟨m', rfl, hcontent, hc'⟩ := exists_message hc hys
    rw [length_encodeHeader] at hwf
    refine ⟨m', hcontent, ⟨?_, hc', hwf⟩⟩
    rw [← encodeHeader_content hcontent]
    exact headerAt_encodeHeader m' bs

/-- **The round trip of the codec.** A message whose counts are right, whose records have the data
that their types say, and whose names can be carried over is encoded; and when that fits the
callers' buffer, decoding it, whatever bytes come after it, gives back what the message says and
stops where the encoding ends. -/
theorem decode_encode (m : Message) (hc : m.Counted) (ht : ∀ x ∈ m.entries, x.Typed)
    (hn : ∀ k ∈ m.names, Encodable k) :
    ∃ bs, encode m = .ok bs ∧ (bs.length ≤ BUFF_SIZE → ∀ tail,
      ∃ m', decode (bs ++ tail) = .ok (m', bs.length) ∧ m'.content = m.content) := by
  obtain ⟨bs, hok, hwf⟩ := encode_spec hc ht hn
  refine ⟨bs, hok, fun hfit tail => ?_⟩
  obtain ⟨m', hcontent, hm'⟩ := hwf (hfit.trans BUFF_SIZE_le_POINTER_MAX)
  exact ⟨m', decode_of_wfMessage (hm'.append tail), hcontent⟩

/-- The answer that `a.c` is an alias of `b.c`: the owner is the name of the question, and the
target shares a label with it. -/
def aliasMessage : Message where
  ID := 7
  flag := 1
  q_count := 1
  RR_count := ⟨1, 0, 0⟩
  ques := [⟨[97, DOT, 99], A, IN⟩]
  resourse_record :=
    ⟨[⟨[97, DOT, 99], CNAME, IN, 60, 0, [], .STRING_TYPE, [98, DOT, 99]⟩], [], []⟩

/-- A label of one letter. -/
def letter (c : UInt8) (h : c ≠ 0) (h' : c ≠ DOT) : Label where
  bytes := [c]
  ne_nil := by simp
  length_le := by simp
  no_nul := by simpa using h.symm
  no_dot := by simpa using h'.symm

/-- The round trip of a message that is compressed. -/
theorem decode_encode_alias :
    (encode aliasMessage).map List.length = .ok 37 ∧
    ∃ bs, encode aliasMessage = .ok bs ∧ (bs.length ≤ BUFF_SIZE → ∀ tail,
      ∃ m', decode (bs ++ tail) = .ok (m', bs.length) ∧ m'.content = aliasMessage.content) := by
  have ha : Encodable [97, DOT, 99] :=
    ⟨⟨[letter 97 (by decide) (by decide), letter 99 (by decide) (by decide)], by simp, rfl⟩,
      by decide⟩
  have hb : Encodable [98, DOT, 99] :=
    ⟨⟨[letter 98 (by decide) (by decide), letter 99 (by decide) (by decide)], by simp, rfl⟩,
      by decide⟩
  refine ⟨by decide +kernel, decode_encode aliasMessage ⟨rfl, rfl, rfl, rfl, by decide, by decide, by decide,
    by decide⟩ ?_ ?_⟩
  · intro x hx
    simp only [Message.entries, aliasMessage, List.map_cons, List.map_nil, List.append_nil,
      List.singleton_append, List.mem_cons, List.not_mem_nil, or_false] at hx
    rcases hx with rfl | rfl
    · trivial
    · simp [Entry.Typed, NamesData]
  · intro k hk
    have hk' : k ∈ [[97, DOT, 99], [97, DOT, 99], [98, DOT, 99]] := hk
    simp only [List.mem_cons, List.not_mem_nil, or_false] at hk'
    rcases hk' with rfl | rfl | rfl
    · exact ha
    · exact ha
    · exact hb

end DnsRelayer
