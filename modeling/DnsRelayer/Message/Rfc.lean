import DnsRelayer.Message.WellFormed

/-!
# Names of RFC 1035

`RfcName` is a name on the wire, as the labels that it stands for: some labels of its own, then a
root or a pointer to a name that starts earlier. `decodeName` returns its labels with dots between
them, and the position after its own part, unless the part with the last label goes on with a pointer
that leads to a root without labels (`TrailingDot`): the dot that was written after the label stays
then (`decodeName_rfc`).
-/

namespace DnsRelayer

variable {buf buf' : List UInt8} {pos pos' e e' : ℕ} {ls : List Label}

/-- A name on the wire as its labels, those behind its pointers included, and the position after its
own part. -/
inductive RfcName (buf : List UInt8) : ℕ → List Label → ℕ → Prop
  | root {pos : ℕ} (h : buf[pos]? = some 0) : RfcName buf pos [] (pos + 1)
  | pointer {pos e : ℕ} {len lo : UInt8} {ls : List Label} (h : buf[pos]? = some len)
      (hp : len ≥ POINTER) (hlo : buf[pos + 1]? = some lo) (back : pointerTarget len lo < pos)
      (target : RfcName buf (pointerTarget len lo) ls e) : RfcName buf pos ls (pos + 2)
  | label {pos e : ℕ} {l : Label} {ls : List Label} (label : LabelAt buf pos l)
      (rest : RfcName buf (pos + 1 + l.length) ls e) : RfcName buf pos (l :: ls) e

/-- A name whose last label is followed by a pointer to a root. -/
inductive TrailingDot (buf : List UInt8) : ℕ → Prop
  | here {pos e : ℕ} {l : Label} (label : LabelAt buf pos l)
      (rest : RfcName buf (pos + 1 + l.length) [] e) (hroot : buf[pos + 1 + l.length]? ≠ some 0) :
      TrailingDot buf pos
  | pointer {pos : ℕ} {len lo : UInt8} (h : buf[pos]? = some len) (hp : len ≥ POINTER)
      (hlo : buf[pos + 1]? = some lo) (target : TrailingDot buf (pointerTarget len lo)) :
      TrailingDot buf pos
  | label {pos : ℕ} {l : Label} (label : LabelAt buf pos l)
      (rest : TrailingDot buf (pos + 1 + l.length)) : TrailingDot buf pos

/-! ## What is at a position -/

/-- A label is what its bytes say. -/
theorem LabelAt.unique {l l' : Label} (h : LabelAt buf pos l) (h' : LabelAt buf pos l') : l = l' := by
  have hlen : l.len = l'.len := Option.some.inj (h.len.symm.trans h'.len)
  have hbytes : l.bytes = l'.bytes := by rw [← h.take_eq, ← h'.take_eq, hlen]
  cases l
  cases l'
  simpa using hbytes

/-- A name that starts with a label goes on after it. -/
theorem RfcName.of_label {l : Label} (hl : LabelAt buf pos l) (h : RfcName buf pos ls e) :
    ∃ ls', ls = l :: ls' ∧ RfcName buf (pos + 1 + l.length) ls' e := by
  cases h with
  | root h =>
    exact absurd (Option.some.inj (hl.len.symm.trans h)) l.len_ne_zero
  | pointer h hp => exact absurd hp (hl.not_pointer h)
  | label hl' rest =>
    obtain rfl := hl.unique hl'
    exact ⟨_, rfl, rest⟩

/-- A name that starts with a pointer is the name that it points to. -/
theorem RfcName.of_pointer {len lo : UInt8} (hlen : buf[pos]? = some len) (hp : len ≥ POINTER)
    (hlo : buf[pos + 1]? = some lo) (h : RfcName buf pos ls e) :
    ∃ e', RfcName buf (pointerTarget len lo) ls e' := by
  cases h with
  | root h =>
    exact absurd (Option.some.inj (hlen.symm.trans h)) (ne_zero_of_pointer hp)
  | pointer h _ hlo' _ target =>
    obtain rfl := Option.some.inj (hlen.symm.trans h)
    obtain rfl := Option.some.inj (hlo.symm.trans hlo')
    exact ⟨_, target⟩
  | label hl => exact absurd hp (hl.not_pointer hlen)

/-- A root is a name without labels. -/
theorem RfcName.of_root (hroot : buf[pos]? = some 0) (h : RfcName buf pos ls e) :
    ls = [] ∧ e = pos + 1 := by
  cases h with
  | root => exact ⟨rfl, rfl⟩
  | pointer h hp => exact absurd (Option.some.inj (h.symm.trans hroot)) (ne_zero_of_pointer hp)
  | @label _ _ l _ hl => exact absurd (Option.some.inj (hl.len.symm.trans hroot)) l.len_ne_zero

/-- A position has one name. -/
theorem RfcName.labels_unique {ls' : List Label} (h : RfcName buf pos ls e)
    (h' : RfcName buf pos ls' e') : ls = ls' := by
  induction h generalizing ls' e' with
  | root h => exact (h'.of_root h).1.symm
  | pointer h hp hlo _ _ ih =>
    obtain ⟨e'', ht⟩ := h'.of_pointer h hp hlo
    exact ih ht
  | label hl _ ih =>
    obtain ⟨ls'', rfl, hrest⟩ := h'.of_label hl
    rw [ih hrest]

/-- The dot of a name with a trailing dot follows a label. -/
theorem TrailingDot.ne_nil (ht : TrailingDot buf pos) : ∀ {ls e}, RfcName buf pos ls e → ls ≠ [] := by
  induction ht with
  | here label =>
    intro ls e h
    obtain ⟨ls', rfl, -⟩ := h.of_label label
    simp
  | pointer h hp hlo _ ih =>
    intro ls e hn
    obtain ⟨e', ht⟩ := hn.of_pointer h hp hlo
    exact ih ht
  | label label =>
    intro ls e h
    obtain ⟨ls', rfl, -⟩ := h.of_label label
    simp

/-- A root has no label. -/
theorem TrailingDot.not_root (ht : TrailingDot buf pos) : buf[pos]? ≠ some 0 := by
  intro hroot
  exact ht.ne_nil (.root hroot) rfl

/-- Behind a pointer is what it points to. -/
theorem trailingDot_pointer_iff {len lo : UInt8} (h : buf[pos]? = some len) (hp : len ≥ POINTER)
    (hlo : buf[pos + 1]? = some lo) :
    TrailingDot buf pos ↔ TrailingDot buf (pointerTarget len lo) := by
  refine ⟨fun ht => ?_, .pointer h hp hlo⟩
  cases ht with
  | here label => exact absurd hp (label.not_pointer h)
  | pointer h' _ hlo' target =>
    obtain rfl := Option.some.inj (h.symm.trans h')
    obtain rfl := Option.some.inj (hlo.symm.trans hlo')
    exact target
  | label label => exact absurd hp (label.not_pointer h)

/-- A label that others follow is not the one with the dot. -/
theorem trailingDot_label_iff {l : Label} (hl : LabelAt buf pos l)
    (hrest : RfcName buf (pos + 1 + l.length) ls e) :
    TrailingDot buf pos ↔
      ls = [] ∧ buf[pos + 1 + l.length]? ≠ some 0 ∨ TrailingDot buf (pos + 1 + l.length) := by
  constructor
  · intro ht
    cases ht with
    | here hl' hrest' hroot =>
      obtain rfl := hl.unique hl'
      exact Or.inl ⟨hrest.labels_unique hrest', hroot⟩
    | pointer h hp => exact absurd hp (hl.not_pointer h)
    | label hl' ht =>
      obtain rfl := hl.unique hl'
      exact Or.inr ht
  · rintro (⟨rfl, hroot⟩ | ht)
    · exact .here hl hrest hroot
    · exact .label hl ht

/-! ## What `decodeName` makes of it -/

/-- A name on the wire is read as its labels with dots between them, and one more dot where a
pointer to a root follows the last. -/
theorem RfcName.nameAt (h : RfcName buf pos ls e) :
    (TrailingDot buf pos → NameAt buf 0 pos (dotted ls ++ [DOT]) e) ∧
      (¬ TrailingDot buf pos → NameAt buf 0 pos (dotted ls) e) := by
  induction h with
  | root h => exact ⟨fun ht => absurd h ht.not_root, fun _ => .root h⟩
  | @pointer pos e len lo ls h hp hlo back target ih =>
    rw [trailingDot_pointer_iff h hp hlo]
    have hzero : 0 + pointerTarget len lo = pointerTarget len lo := Nat.zero_add _
    exact ⟨fun ht => .pointer h hp hlo (hzero ▸ ih.1 ht),
      fun ht => .pointer h hp hlo (hzero ▸ ih.2 ht)⟩
  | @label pos e l ls hl hrest ih =>
    have hlen := l.toNat_len
    have hle := hl.le_length
    rw [trailingDot_label_iff hl hrest]
    by_cases hroot : buf[pos + 1 + l.length]? = some 0
    · -- The last label: its dot gives way to the terminator.
      obtain ⟨rfl, rfl⟩ := hrest.of_root hroot
      have hlast : NameAt buf 0 pos l.bytes (pos + 1 + l.length + 1) := by
        rw [← hl.take_eq, ← hlen]
        exact .last hl.len l.len_ne_zero l.not_pointer (by rw [hlen]; exact hle)
          (by rw [hlen]; exact hroot)
      refine ⟨?_, fun _ => hlast⟩
      rintro (⟨-, hne⟩ | ht)
      · exact absurd hroot hne
      · exact absurd hroot ht.not_root
    · -- The dot stays, whatever comes after it.
      have hmore : ∀ name, NameAt buf 0 (pos + 1 + l.length) name e →
          NameAt buf 0 pos (l.bytes ++ DOT :: name) e := by
        intro name hname
        rw [← hl.take_eq]
        exact .more hl.len l.len_ne_zero l.not_pointer (by rw [hlen]; exact hle)
          (by rw [hlen]; exact hroot) (by rw [hlen]; exact hname)
      by_cases hnil : ls = []
      · subst hnil
        have hno : ¬ TrailingDot buf (pos + 1 + l.length) := fun ht => ht.ne_nil hrest rfl
        refine ⟨fun _ => hmore [] (ih.2 hno), fun h => absurd (Or.inl ⟨rfl, hroot⟩) h⟩
      · rw [dotted_cons_of_ne_nil l hnil]
        have hiff : (ls = [] ∧ buf[pos + 1 + l.length]? ≠ some 0 ∨
            TrailingDot buf (pos + 1 + l.length)) ↔ TrailingDot buf (pos + 1 + l.length) :=
          or_iff_right fun h => hnil h.1
        rw [hiff]
        refine ⟨fun ht => ?_, fun ht => hmore _ (ih.2 ht)⟩
        have hname := hmore _ (ih.1 ht)
        simpa using hname

/-- `decodeName` returns that text, and the position after the name's own part. -/
theorem RfcName.decode (h : RfcName buf pos ls e) :
    ∃ name, decodeName buf 0 (nameFuel buf) pos = .ok (name, e) ∧
      (TrailingDot buf pos ∧ name = dotted ls ++ [DOT] ∨
        ¬ TrailingDot buf pos ∧ name = dotted ls) := by
  by_cases ht : TrailingDot buf pos
  · exact ⟨_, decodeName_eq_ok_iff.mpr (h.nameAt.1 ht), Or.inl ⟨ht, rfl⟩⟩
  · exact ⟨_, decodeName_eq_ok_iff.mpr (h.nameAt.2 ht), Or.inr ⟨ht, rfl⟩⟩

/-- `decodeName` of a name on the wire returns its labels joined by dots, and the position after its
own part, exactly when no pointer to a root follows its last label. Two encodings of one name decode
to the same string exactly when such a pointer is in both or in neither. -/
theorem decodeName_rfc (h : RfcName buf pos ls e) :
    (decodeName buf 0 (nameFuel buf) pos = .ok (dotted ls, e) ↔ ¬ TrailingDot buf pos) ∧
      ∀ buf' pos' e', RfcName buf' pos' ls e' →
        ((decodeName buf 0 (nameFuel buf) pos).map Prod.fst =
            (decodeName buf' 0 (nameFuel buf') pos').map Prod.fst ↔
          (TrailingDot buf pos ↔ TrailingDot buf' pos')) := by
  obtain ⟨name, hok, hname⟩ := h.decode
  rw [hok]
  constructor
  · rcases hname with ⟨ht, rfl⟩ | ⟨ht, rfl⟩ <;> simp [ht]
  · intro buf' pos' e' h'
    obtain ⟨name', hok', hname'⟩ := h'.decode
    rw [hok']
    -- The texts differ when one of them has the dot and the other has not.
    rcases hname with ⟨ht, rfl⟩ | ⟨ht, rfl⟩ <;> rcases hname' with ⟨ht', rfl⟩ | ⟨ht', rfl⟩ <;>
      simp [Except.map, ht, ht']

/-- The label `a`. -/
def labelA : Label := ⟨[97], by decide, by decide, by decide, by decide⟩

/-- A name `a`, and after it a label `a` with a pointer to the name. -/
def compressed : List UInt8 := [1, 97, 0, 1, 97, 0xc0, 0]

/-- A name whose pointer leads to a label decodes to its labels with a dot between them. -/
theorem decodeName_rfc_compressed :
    RfcName compressed 3 [labelA, labelA] 7 ∧
      decodeName compressed 0 (nameFuel compressed) 3 = .ok ([97, DOT, 97], 7) := by
  have hl : LabelAt compressed 0 labelA := ⟨rfl, rfl⟩
  have hl' : LabelAt compressed 3 labelA := ⟨rfl, rfl⟩
  have hptr : compressed[5]? = some 0xc0 := rfl
  have hlo : compressed[5 + 1]? = some 0 := rfl
  have hp : (0xc0 : UInt8) ≥ POINTER := by decide
  have htail : RfcName compressed 5 [labelA] 7 :=
    .pointer hptr hp hlo (by decide) (.label hl (.root rfl))
  have hname : RfcName compressed 3 [labelA, labelA] 7 := .label hl' htail
  refine ⟨hname, (decodeName_rfc hname).1.mpr ?_⟩
  rw [trailingDot_label_iff hl' htail]
  rintro (⟨hnil, -⟩ | ht)
  · cases hnil
  · rcases (trailingDot_label_iff hl (.root rfl)).mp ((trailingDot_pointer_iff hptr hp hlo).mp ht) with
      ⟨-, hne⟩ | ht
    · exact hne rfl
    · exact ht.not_root rfl

/-- `a`, with a pointer to a root after it, decodes to `a.`. -/
theorem decodeName_trailing_dot :
    RfcName [0, 1, 97, 0xc0, 0] 1 [labelA] 5 ∧
      decodeName [0, 1, 97, 0xc0, 0] 0 (nameFuel [0, 1, 97, 0xc0, 0]) 1 = .ok ([97, DOT], 5) ∧
      dotted [labelA] = [97] := by
  refine ⟨?_, by decide, rfl⟩
  have hl : LabelAt [0, 1, 97, 0xc0, 0] 1 labelA := ⟨rfl, rfl⟩
  exact .label hl (.pointer rfl (by decide) rfl (by decide) (.root rfl))

end DnsRelayer
