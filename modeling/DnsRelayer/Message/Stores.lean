import DnsRelayer.Message.Layout
import DnsRelayer.Lib.Journal

/-!
# What `decode` stores

`decode` stores a pointer for each element that it reads, into an array of `MAX_SIZE` pointers, and
`decodeName` the bytes of a name, into an array of `MAX_LEN` bytes. Neither checks where it stores.
`decodeName` writes as it goes, so that the bytes count that it has written at any time, whether it
returns or not (`nameWrites`), and `decodeStores` is `decode` with what it stores for a log, in arrays
without an end. As long as `decode` stays in its arrays, it does the same in these
(`agrees_decodeStores`).

A name stays in its array exactly when its labels do, along the pointers from its start
(`NameFits`), and `decode` stays in all of them exactly when every element that it gets to has room in
its array, and the names of these elements stay in theirs (`decode_stores_iff`).
-/

namespace DnsRelayer

open Lib

/-! ## The source -/

mutual

/-- How many bytes `decodeName` has written, with `w` bytes there before, when it has used up its fuel
or ended. -/
def nameWrites (buf : List UInt8) (origin : ℕ) : ℕ → ℕ → ℕ → ℕ
  | 0, _, w => w
  | fuel + 1, buff, w =>
    match byteAt buf buff with
    | .error _ => w
    -- The terminator.
    | .ok num => if num = 0 then w + 1 else loopWrites buf origin fuel buff w

/-- The same of its loop. -/
def loopWrites (buf : List UInt8) (origin : ℕ) : ℕ → ℕ → ℕ → ℕ
  | 0, _, w => w
  | fuel + 1, num, w =>
    match byteAt buf num with
    | .error _ => w
    | .ok len =>
      -- The terminator goes where the last dot is.
      if len = 0 then w
      else if len ≥ POINTER then
        match byteAt buf (num + 1) with
        | .error _ => w
        | .ok lo => nameWrites buf origin fuel (origin + pointerTarget len lo) w
      -- The bytes of a label are copied as far as there are any, and then a dot.
      else if num + 1 + len.toNat ≤ buf.length then
        loopWrites buf origin fuel (num + 1 + len.toNat) (w + len.toNat + 1)
      else w + (buf.length - (num + 1))

end

/-- What `decode` stores: a pointer into the element of an array, or the bytes of the name at a
position. -/
inductive Store where
  | element (i : ℕ)
  | name (pos : ℕ)
  deriving DecidableEq

/-- What is stored stays in its array. -/
def Store.InBounds (buf : List UInt8) : Store → Prop
  | .element i => i < MAX_SIZE
  | .name pos => ∀ fuel, nameWrites buf 0 fuel pos 0 ≤ MAX_LEN

/-- A part of `decode`, with what it stores. -/
abbrev Storing (α : Type) := Journal Store Fault α

/-- A call of `decodeName` in `decode`. -/
def fieldStores (buf : List UInt8) (pos : ℕ) : Storing (List UInt8 × ℕ) := do
  Journal.entry (.name pos)
  let (name, pos) ← Journal.lift (decodeName buf 0 (nameFuel buf) pos)
  return (cstr name, pos)

/-- The part of `decode` that reads a question. -/
def quesStores (buf : List UInt8) (pos : ℕ) : Storing (Question × ℕ) := do
  let (q_name, pos) ← fieldStores buf pos
  let q_type ← Journal.lift (ntohsAt buf pos)
  let q_class ← Journal.lift (ntohsAt buf (pos + 2))
  return (⟨q_name, q_type, q_class⟩, pos + 4)

/-- The part of `decode` that reads a resource record. -/
def rrStores (buf : List UInt8) (pos : ℕ) : Storing (RR × ℕ) := do
  let (name, pos) ← fieldStores buf pos
  let type ← Journal.lift (ntohsAt buf pos)
  let class_ ← Journal.lift (ntohsAt buf (pos + 2))
  let TTL ← Journal.lift (ntohlAt buf (pos + 4))
  let data_length ← Journal.lift (ntohsAt buf (pos + 8))
  let offset := data_length.toNat
  if type = CNAME ∨ type = NS then do
    let (string_data, _) ← fieldStores buf (pos + 10)
    return (⟨name, type, class_, TTL, data_length, [], .STRING_TYPE, string_data⟩,
      pos + 10 + offset)
  else do
    let data ← Journal.lift (bytesAt buf (pos + 10) data_length.toNat)
    return (⟨name, type, class_, TTL, data_length, data, .BINARY_TYPE, []⟩, pos + 10 + offset)

/-- A loop of `decode` over an array, with `count` turns from the `i`-th on. -/
def arrayStores {α : Type} (item : ℕ → Storing (α × ℕ)) : ℕ → ℕ → ℕ → Storing (List α × ℕ)
  | 0, _, pos => return ([], pos)
  | count + 1, i, pos => do
    Journal.entry (.element i)
    let (x, pos) ← item pos
    let (xs, pos) ← arrayStores item count (i + 1) pos
    return (x :: xs, pos)

/-- `decode`, with what it stores. -/
def decodeStores (buf : List UInt8) : Storing (Message × ℕ) := do
  let ID ← Journal.lift (ntohsAt buf 0)
  let b₀ ← Journal.lift (byteAt buf 2)
  let b₁ ← Journal.lift (byteAt buf 3)
  let q_count ← Journal.lift (ntohsAt buf 4)
  let n₀ ← Journal.lift (ntohsAt buf 6)
  let n₁ ← Journal.lift (ntohsAt buf 8)
  let n₂ ← Journal.lift (ntohsAt buf 10)
  let (ques, pos) ← arrayStores (quesStores buf) q_count.toNat 0 12
  let (rr₀, pos) ← arrayStores (rrStores buf) n₀.toNat 0 pos
  let (rr₁, pos) ← arrayStores (rrStores buf) n₁.toNat 0 pos
  let (rr₂, pos) ← arrayStores (rrStores buf) n₂.toNat 0 pos
  return (⟨ID, flagOfBytes b₀ b₁, q_count, ⟨n₀, n₁, n₂⟩, ques, ⟨rr₀, rr₁, rr₂⟩⟩, pos)

/-! ## The layout -/

/-- Where the name at `pos` leads to, along its labels and pointers: with the bytes of the labels, each
with a dot, and whether it got there from a label. -/
inductive Along (buf : List UInt8) (origin pos : ℕ) : Bool → ℕ → ℕ → Prop
  | start : Along buf origin pos false 0 pos
  | label {dotted : Bool} {w num : ℕ} {len : UInt8} (along : Along buf origin pos dotted w num)
      (h : buf[num]? = some len) (hne : len ≠ 0) (hp : ¬ len ≥ POINTER)
      (hlen : num + 1 + len.toNat ≤ buf.length) :
      Along buf origin pos true (w + len.toNat + 1) (num + 1 + len.toNat)
  | pointer {dotted : Bool} {w num : ℕ} {len lo : UInt8} (along : Along buf origin pos dotted w num)
      (h : buf[num]? = some len) (hp : len ≥ POINTER) (hlo : buf[num + 1]? = some lo) :
      Along buf origin pos false w (origin + pointerTarget len lo)

/-- The room that a name needs at a length byte: for the terminator, when there is no dot to put it
over, for a label with its dot, or for what there is of the label. -/
def roomAt (buf : List UInt8) (dotted : Bool) (num : ℕ) : ℕ :=
  match buf[num]? with
  | none => 0
  | some len =>
    if len = 0 then if dotted then 0 else 1
    else if len ≥ POINTER then 0
    else if num + 1 + len.toNat ≤ buf.length then len.toNat + 1
    else buf.length - (num + 1)

/-- The labels along a name have room in its array. -/
def NameFits (buf : List UInt8) (pos : ℕ) : Prop :=
  ∀ dotted w num, Along buf 0 pos dotted w num → w + roomAt buf dotted num ≤ MAX_LEN

/-- The names of an item: that at its start, and that in the data of a record, where its type says that
the data is a name. -/
inductive Kind.HasName (buf : List UInt8) (pos : ℕ) : Kind → ℕ → Prop
  | owner (k : Kind) : Kind.HasName buf pos k pos
  | target {raw : List UInt8} {e : ℕ} {type : UInt16} (name : NameAt buf 0 pos raw e)
      (fields : e + 10 ≤ buf.length) (type_eq : ntohsAt buf e = .ok type) (isName : NamesData type) :
      Kind.HasName buf pos .record (e + 10)

/-- An item is passed: its name ends, and its fields and its data are there. Data that is a name is
passed by the length of the data, where that name ends. -/
inductive Kind.Passes (buf : List UInt8) (pos : ℕ) : Kind → ℕ → Prop
  | question {raw : List UInt8} {e : ℕ} (name : NameAt buf 0 pos raw e)
      (fields : e + 4 ≤ buf.length) : Kind.Passes buf pos .question (e + 4)
  | bytes {raw : List UInt8} {e : ℕ} {type n : UInt16} (name : NameAt buf 0 pos raw e)
      (fields : e + 10 ≤ buf.length) (type_eq : ntohsAt buf e = .ok type)
      (len_eq : ntohsAt buf (e + 8) = .ok n) (isBytes : ¬ NamesData type)
      (data : e + 10 + n.toNat ≤ buf.length) :
      Kind.Passes buf pos .record (e + 10 + n.toNat)
  | target {raw target : List UInt8} {e next : ℕ} {type n : UInt16} (name : NameAt buf 0 pos raw e)
      (fields : e + 10 ≤ buf.length) (type_eq : ntohsAt buf e = .ok type)
      (len_eq : ntohsAt buf (e + 8) = .ok n) (isName : NamesData type)
      (data : NameAt buf 0 (e + 10) target next) :
      Kind.Passes buf pos .record (e + 10 + n.toNat)

/-- `decode` gets to an item, when it stays in the arrays with those before it: the index of the item
in its array, and its position. -/
inductive GetsTo (buf : List UInt8) (k : Kind) (i pos : ℕ) : Prop
  | items {q n₀ n₁ n₂ : UInt16} {before after : List (Kind × ℕ)} (header : 12 ≤ buf.length)
      (q_eq : ntohsAt buf 4 = .ok q) (n₀_eq : ntohsAt buf 6 = .ok n₀)
      (n₁_eq : ntohsAt buf 8 = .ok n₁) (n₂_eq : ntohsAt buf 10 = .ok n₂)
      (items_eq : DnsRelayer.items q n₀ n₁ n₂ = before ++ (k, i) :: after)
      (passes : Goes buf before 12 (.passes pos)) : GetsTo buf k i pos

variable {buf : List UInt8} {origin fuel pos num w : ℕ} {dotted : Bool}

/-! ## Names -/

/-- The bytes that are written when `decodeName` is at a length byte, in its loop behind a dot. -/
def writesFrom (buf : List UInt8) (origin fuel : ℕ) (dotted : Bool) (w num : ℕ) : ℕ :=
  if dotted then loopWrites buf origin fuel num w else nameWrites buf origin (fuel + 1) num w

theorem nameWrites_of_ne_zero {len : UInt8} (h : buf[pos]? = some len) (hne : len ≠ 0) :
    nameWrites buf origin (fuel + 1) pos w = loopWrites buf origin fuel pos w := by
  rw [nameWrites, byteAt_of_getElem? h]
  exact if_neg hne

theorem loopWrites_of_label {len : UInt8} (h : buf[num]? = some len) (hne : len ≠ 0)
    (hp : ¬ len ≥ POINTER) (hlen : num + 1 + len.toNat ≤ buf.length) :
    loopWrites buf origin (fuel + 1) num w =
      loopWrites buf origin fuel (num + 1 + len.toNat) (w + len.toNat + 1) := by
  rw [loopWrites, byteAt_of_getElem? h]
  simp only [if_neg hne, if_neg hp, if_pos hlen]

theorem loopWrites_of_pointer {len lo : UInt8} (h : buf[num]? = some len) (hp : len ≥ POINTER)
    (hlo : buf[num + 1]? = some lo) :
    loopWrites buf origin (fuel + 1) num w =
      nameWrites buf origin fuel (origin + pointerTarget len lo) w := by
  rw [loopWrites, byteAt_of_getElem? h, byteAt_of_getElem? hlo]
  simp only [if_neg (ne_zero_of_pointer hp), if_pos hp]

/-- `decodeName` gets to where its name leads to, with so many bytes written. -/
theorem Along.writes (h : Along buf origin pos dotted w num) :
    ∃ k, ∀ fuel, nameWrites buf origin (fuel + k) pos 0 = writesFrom buf origin fuel dotted w num := by
  -- At a byte that is not zero, `decodeName` starts its loop.
  have hloop : ∀ {dotted : Bool} {w num fuel : ℕ} {len : UInt8}, buf[num]? = some len → len ≠ 0 →
      writesFrom buf origin fuel dotted w num = loopWrites buf origin fuel num w := by
    intro dotted w num fuel len h hne
    unfold writesFrom
    split_ifs
    · rfl
    · exact nameWrites_of_ne_zero h hne
  induction h with
  | start => exact ⟨1, fun _ => rfl⟩
  | label _ h hne hp hlen ih =>
    obtain ⟨k, hk⟩ := ih
    refine ⟨1 + k, fun fuel => ?_⟩
    rw [← Nat.add_assoc, hk, hloop h hne, loopWrites_of_label h hne hp hlen]
    rfl
  | pointer _ h hp hlo ih =>
    obtain ⟨k, hk⟩ := ih
    refine ⟨2 + k, fun fuel => ?_⟩
    rw [← Nat.add_assoc, hk, hloop h (ne_zero_of_pointer hp)]
    exact loopWrites_of_pointer h hp hlo

/-- The turn at a length byte writes as many bytes as it needs room for. -/
theorem writesFrom_one : writesFrom buf origin 1 dotted w num = w + roomAt buf dotted num := by
  unfold writesFrom roomAt
  cases h : buf[num]? with
  | none =>
    have hnone : byteAt buf num = .error (.outOfBounds num) := byteAt_of_none h
    simp [loopWrites, nameWrites, hnone]
  | some len =>
    have hbyte : byteAt buf num = .ok len := byteAt_of_getElem? h
    by_cases hne : len = 0
    · cases dotted <;> simp [loopWrites, nameWrites, hbyte, hne]
    · have hturn : loopWrites buf origin 1 num w = w + (if len ≥ POINTER then 0
          else if num + 1 + len.toNat ≤ buf.length then len.toNat + 1
          else buf.length - (num + 1)) := by
        rw [loopWrites, hbyte]
        simp only [if_neg hne]
        split_ifs
        · cases byteAt buf (num + 1) <;> rfl
        · rfl
        · rfl
      simp only [if_neg hne, nameWrites_of_ne_zero h hne, hturn, ite_self]

/-- What a name needs room for bounds what is written. -/
theorem writes_le {M : ℕ} (h : ∀ dotted w num, Along buf origin pos dotted w num →
    w + roomAt buf dotted num ≤ M) (fuel : ℕ) :
    (∀ num w, Along buf origin pos false w num → nameWrites buf origin fuel num w ≤ M) ∧
      ∀ dotted num w, Along buf origin pos dotted w num → loopWrites buf origin fuel num w ≤ M := by
  -- Where nothing is written, what is there already fits.
  have hle : ∀ {dotted w num}, Along buf origin pos dotted w num → w ≤ M := fun halong =>
    (Nat.le_add_right _ _).trans (h _ _ _ halong)
  -- On the fuel: the function and its loop call each other with less of it.
  induction fuel with
  | zero => exact ⟨fun num w halong => hle halong, fun dotted num w halong => hle halong⟩
  | succ fuel ih =>
    obtain ⟨ihName, ihLoop⟩ := ih
    constructor
    · intro num w halong
      cases hbyte : buf[num]? with
      | none =>
        rw [nameWrites, byteAt_of_none hbyte]
        exact hle halong
      | some len =>
        by_cases hne : len = 0
        · have hroom := h _ _ _ halong
          rw [nameWrites, byteAt_of_getElem? hbyte]
          -- The name is the root: its terminator.
          simpa [roomAt, hbyte, hne] using hroom
        · rw [nameWrites_of_ne_zero hbyte hne]
          exact ihLoop false num w halong
    · intro dotted num w halong
      cases hbyte : buf[num]? with
      | none =>
        rw [loopWrites, byteAt_of_none hbyte]
        exact hle halong
      | some len =>
        by_cases hne : len = 0
        · rw [loopWrites, byteAt_of_getElem? hbyte]
          simp only [if_pos hne]
          exact hle halong
        -- The loop: a pointer writes nothing, a label its bytes and a dot.
        by_cases hp : len ≥ POINTER
        · cases hlo : buf[num + 1]? with
          | none =>
            rw [loopWrites, byteAt_of_getElem? hbyte, byteAt_of_none hlo]
            simp only [if_neg hne, if_pos hp]
            exact hle halong
          | some lo =>
            rw [loopWrites_of_pointer hbyte hp hlo]
            exact ihName _ _ (halong.pointer hbyte hp hlo)
        by_cases hlen : num + 1 + len.toNat ≤ buf.length
        · rw [loopWrites_of_label hbyte hne hp hlen]
          exact ihLoop true _ _ (halong.label hbyte hne hp hlen)
        · have hroom := h _ _ _ halong
          rw [loopWrites, byteAt_of_getElem? hbyte]
          simp only [if_neg hne, if_neg hp, if_neg hlen]
          -- The buffer ends within the label: what is there of it.
          simpa [roomAt, hbyte, hne, hp, hlen] using hroom

/-- A name stays in its array exactly when its labels have room there. -/
theorem name_inBounds_iff : (Store.name pos).InBounds buf ↔ NameFits buf pos := by
  constructor
  · intro h dotted w num halong
    -- With one turn more, the room that is needed there is written.
    obtain ⟨k, hk⟩ := halong.writes
    rw [← @writesFrom_one buf 0 num w dotted, ← hk]
    exact h _
  · intro h fuel
    exact (writes_le h fuel).1 pos 0 .start

/-- A call that returns has written its name and the terminator. -/
theorem writes_of_ok (fuel : ℕ) :
    (∀ pos raw e, decodeName buf origin fuel pos = .ok (raw, e) →
      ∀ w, nameWrites buf origin fuel pos w = w + raw.length + 1) ∧
    ∀ num name raw e, (name = [] → buf[num]? ≠ some 0) →
      nameLoop buf origin fuel num name = .ok (raw, e) →
      ∀ w, loopWrites buf origin fuel num w + name.length = w + raw.length + 1 := by
  -- In the loop, the last dot that was written gives way to the terminator.
  induction fuel with
  | zero =>
    constructor
    · intro _ _ _ h
      cases h
    · intro _ _ _ _ _ h
      cases h
  | succ fuel ih =>
    obtain ⟨ihName, ihLoop⟩ := ih
    constructor
    · intro pos raw e hok w
      cases h : buf[pos]? with
      | none =>
        rw [decodeName_of_none h] at hok
        cases hok
      | some len =>
        by_cases hne : len = 0
        · subst hne
          rw [decodeName_of_root h] at hok
          obtain ⟨rfl, -⟩ := Prod.mk.inj (Except.ok.inj hok)
          rw [nameWrites, byteAt_of_getElem? h]
          rfl
        · rw [decodeName_of_ne_zero h hne] at hok
          rw [nameWrites_of_ne_zero h hne]
          exact ihLoop pos [] raw e (fun _ => by simpa [h] using hne) hok w
    · intro num name raw e hname hok w
      cases h : buf[num]? with
      | none =>
        rw [nameLoop_of_none h] at hok
        cases hok
      | some len =>
        by_cases hne : len = 0
        · subst hne
          rw [nameLoop_of_root h] at hok
          obtain ⟨rfl, -⟩ := Prod.mk.inj (Except.ok.inj hok)
          -- A root ends the loop only behind a label.
          have hpos : 0 < name.length := List.length_pos_iff.mpr fun hnil => hname hnil h
          rw [loopWrites, byteAt_of_getElem? h, List.length_dropLast]
          simp only [if_true]
          omega
        by_cases hp : len ≥ POINTER
        · cases hlo : buf[num + 1]? with
          | none =>
            rw [nameLoop_of_half h hne hp hlo] at hok
            cases hok
          | some lo =>
            rw [nameLoop_of_pointer h hne hp hlo] at hok
            obtain ⟨⟨rest, e'⟩, hrest, hok⟩ := Run.bind_eq_ok.mp hok
            obtain ⟨rfl, -⟩ := Prod.mk.inj (Except.ok.inj hok)
            rw [loopWrites_of_pointer h hp hlo, ihName _ rest e' hrest, List.length_append]
            omega
        by_cases hlen : num + 1 + len.toNat ≤ buf.length
        · rw [nameLoop_of_label h hne hp hlen] at hok
          have hrest := ihLoop _ _ raw e (by simp) hok (w + len.toNat + 1)
          rw [loopWrites_of_label h hne hp hlen]
          simp only [List.length_append, List.length_take, List.length_drop, List.length_singleton]
            at hrest
          omega
        · rw [nameLoop_of_cut h hne hp hlen] at hok
          cases hok

/-- What a turn of `decodeName` writes: some bytes and no more, or some before what comes next. -/
theorem writes_cases (buf : List UInt8) (origin num : ℕ) :
    ((∃ c, ∀ fuel w, nameWrites buf origin (fuel + 1) num w = w + c) ∨
      ∀ fuel w, nameWrites buf origin (fuel + 1) num w = loopWrites buf origin fuel num w) ∧
    ((∃ c, ∀ fuel w, loopWrites buf origin (fuel + 1) num w = w + c) ∨
      (∃ q, ∀ fuel w, loopWrites buf origin (fuel + 1) num w = nameWrites buf origin fuel q w) ∨
      ∃ q c, ∀ fuel w, loopWrites buf origin (fuel + 1) num w =
        loopWrites buf origin fuel q (w + c)) := by
  cases h : buf[num]? with
  | none =>
    exact ⟨Or.inl ⟨0, fun _ _ => by rw [nameWrites, byteAt_of_none h]; rfl⟩,
      Or.inl ⟨0, fun _ _ => by rw [loopWrites, byteAt_of_none h]; rfl⟩⟩
  | some len =>
    by_cases hne : len = 0
    · subst hne
      exact ⟨Or.inl ⟨1, fun _ _ => by rw [nameWrites, byteAt_of_getElem? h]; rfl⟩,
        Or.inl ⟨0, fun _ _ => by rw [loopWrites, byteAt_of_getElem? h]; rfl⟩⟩
    refine ⟨Or.inr fun _ _ => nameWrites_of_ne_zero h hne, ?_⟩
    by_cases hp : len ≥ POINTER
    · cases hlo : buf[num + 1]? with
      | none =>
        -- The datagram ends in the pointer.
        refine Or.inl ⟨0, fun fuel w => ?_⟩
        rw [loopWrites, byteAt_of_getElem? h, byteAt_of_none hlo]
        simp only [if_neg hne, if_pos hp, Nat.add_zero]
      | some lo => exact Or.inr (Or.inl ⟨_, fun _ _ => loopWrites_of_pointer h hp hlo⟩)
    by_cases hlen : num + 1 + len.toNat ≤ buf.length
    · exact Or.inr (Or.inr ⟨_, len.toNat + 1, fun _ _ => loopWrites_of_label h hne hp hlen⟩)
    · -- The datagram ends in the label: what there is of it is copied.
      refine Or.inl ⟨buf.length - (num + 1), fun fuel w => ?_⟩
      rw [loopWrites, byteAt_of_getElem? h]
      simp only [if_neg hne, if_neg hp, if_neg hlen]

/-- What is there stays there. -/
theorem le_writes (buf : List UInt8) (origin fuel : ℕ) :
    (∀ num w, w ≤ nameWrites buf origin fuel num w) ∧
      ∀ num w, w ≤ loopWrites buf origin fuel num w := by
  induction fuel with
  | zero => exact ⟨fun _ _ => le_rfl, fun _ _ => le_rfl⟩
  | succ fuel ih =>
    obtain ⟨ihName, ihLoop⟩ := ih
    constructor
    · intro num w
      rcases (writes_cases buf origin num).1 with ⟨c, heq⟩ | heq
      · rw [heq]
        exact Nat.le_add_right w c
      · rw [heq]
        exact ihLoop num w
    · intro num w
      rcases (writes_cases buf origin num).2 with ⟨c, heq⟩ | ⟨q, heq⟩ | ⟨q, c, heq⟩
      · rw [heq]
        exact Nat.le_add_right w c
      · rw [heq]
        exact ihName q w
      · rw [heq]
        exact (Nat.le_add_right w c).trans (ihLoop q (w + c))

/-- With more fuel no less is written. -/
theorem writes_succ (buf : List UInt8) (origin fuel : ℕ) :
    (∀ num w, nameWrites buf origin fuel num w ≤ nameWrites buf origin (fuel + 1) num w) ∧
      ∀ num w, loopWrites buf origin fuel num w ≤ loopWrites buf origin (fuel + 1) num w := by
  induction fuel with
  | zero => exact le_writes buf origin 1
  | succ fuel ih =>
    obtain ⟨ihName, ihLoop⟩ := ih
    constructor
    · intro num w
      rcases (writes_cases buf origin num).1 with ⟨c, heq⟩ | heq
      · rw [heq, heq]
      · rw [heq, heq]
        exact ihLoop num w
    · intro num w
      rcases (writes_cases buf origin num).2 with ⟨c, heq⟩ | ⟨q, heq⟩ | ⟨q, c, heq⟩
      · rw [heq, heq]
      · rw [heq, heq]
        exact ihName q w
      · rw [heq, heq]
        exact ihLoop q (w + c)

/-- A name that ends stays in its array exactly when it fits there with its terminator. -/
theorem nameFits_iff {raw : List UInt8} {e : ℕ} (h : NameAt buf 0 pos raw e) :
    NameFits buf pos ↔ raw.length < MAX_LEN := by
  obtain ⟨k, hok, -⟩ := h.exists_fuel
  -- From some fuel on, all of it is written and no more.
  have hwrites : ∀ fuel, k ≤ fuel → nameWrites buf 0 fuel pos 0 = raw.length + 1 := by
    intro fuel hle
    have hmono := decodeName_mono hle (by rw [hok]; simp)
    rw [(writes_of_ok fuel).1 pos raw e (hmono.trans hok), Nat.zero_add]
  -- With less fuel, no more is written.
  have hmono : Monotone fun fuel => nameWrites buf 0 fuel pos 0 :=
    monotone_nat_of_le_succ fun fuel => (writes_succ buf 0 fuel).1 pos 0
  rw [← name_inBounds_iff]
  constructor
  · intro hbound
    have hlast := hbound k
    rw [hwrites k le_rfl] at hlast
    exact hlast
  · intro hlt fuel
    calc nameWrites buf 0 fuel pos 0 ≤ nameWrites buf 0 (fuel + k) pos 0 := hmono (Nat.le_add_right _ _)
      _ = raw.length + 1 := hwrites _ (Nat.le_add_left _ _)
      _ ≤ MAX_LEN := hlt

/-! ## Items -/

/-- The part of `decode` that reads an item: where the item ends. -/
def Kind.stores (buf : List UInt8) : Kind → ℕ → Storing ℕ
  | .question, pos => Prod.snd <$> quesStores buf pos
  | .record, pos => Prod.snd <$> rrStores buf pos

variable {k : Kind} {st : Store} {i : ℕ}

theorem mem_fieldStores : st ∈ (fieldStores buf pos).log ↔ st = .name pos := by
  simp [fieldStores, Journal.mem_log_bind]

theorem fieldStores_eq_ok {name : List UInt8} {e : ℕ} :
    (fieldStores buf pos).result = .ok (name, e) ↔ ∃ raw, cstr raw = name ∧ NameAt buf 0 pos raw e := by
  simp only [fieldStores, Journal.result_bind_eq_ok, Journal.result_entry, Journal.result_lift,
    Journal.result_pure, decodeName_eq_ok_iff, Prod.exists]
  constructor
  · rintro ⟨-, -, raw, e', hname, he⟩
    obtain ⟨rfl, rfl⟩ := Prod.mk.inj (Except.ok.inj he)
    exact ⟨raw, rfl, hname⟩
  · rintro ⟨raw, rfl, hname⟩
    exact ⟨(), trivial, raw, e, hname, rfl⟩

/-- What is stored for an item, apart from the pointer to it, is its names. -/
theorem mem_itemStores : st ∈ (k.stores buf pos).log ↔ ∃ p, st = .name p ∧ k.HasName buf pos p := by
  cases k with
  | question =>
    simp only [Kind.stores, Journal.log_map, quesStores, Journal.mem_log_bind, mem_fieldStores,
      Journal.log_lift, Journal.log_pure, List.not_mem_nil, and_false, exists_false, or_false]
    constructor
    · rintro rfl
      exact ⟨pos, rfl, .owner _⟩
    · rintro ⟨p, rfl, hp⟩
      cases hp
      rfl
  | record =>
    simp only [Kind.stores, Journal.log_map, rrStores, Journal.mem_log_bind, mem_fieldStores,
      Prod.exists, fieldStores_eq_ok, Journal.log_lift, Journal.result_lift, List.not_mem_nil, false_or]
    constructor
    · rintro (rfl | ⟨name, e, ⟨raw, -, hname⟩, type, htype, class_, -, TTL, -, n, hn, hst⟩)
      · exact ⟨pos, rfl, .owner _⟩
      -- The data is a name for the types CNAME and NS only.
      · split_ifs at hst with hnames
        · rw [Journal.mem_log_bind, mem_fieldStores] at hst
          rcases hst with rfl | ⟨_, -, hst⟩
          · have hlen := exists_ntohsAt.mp ⟨n, hn⟩
            exact ⟨e + 10, rfl, .target hname (by omega) htype hnames⟩
          · cases hst
        · rw [Journal.mem_log_bind] at hst
          rcases hst with hst | ⟨_, -, hst⟩ <;> cases hst
    · rintro ⟨p, rfl, hp⟩
      cases hp with
      | owner => exact Or.inl rfl
      | @target raw e type hname hfields htype hnames =>
        -- The fields before the data are there, so it is read.
        obtain ⟨class_, hclass⟩ := exists_ntohsAt.mpr (show e + 2 + 2 ≤ buf.length by omega)
        obtain ⟨TTL, hTTL⟩ := exists_ntohlAt.mpr (show e + 4 + 4 ≤ buf.length by omega)
        obtain ⟨n, hn⟩ := exists_ntohsAt.mpr (show e + 8 + 2 ≤ buf.length by omega)
        refine Or.inr ⟨_, e, ⟨raw, rfl, hname⟩, type, htype, class_, hclass, TTL, hTTL, n, hn, ?_⟩
        rw [if_pos (show type = CNAME ∨ type = NS from hnames), Journal.mem_log_bind, mem_fieldStores]
        exact Or.inl rfl

/-- The part that reads an item returns where the item is passed. -/
theorem itemStores_eq_ok {next : ℕ} :
    (k.stores buf pos).result = .ok next ↔ k.Passes buf pos next := by
  cases k with
  | question =>
    simp only [Kind.stores, Journal.result_map_eq_ok, quesStores, Journal.result_bind_eq_ok,
      Prod.exists, fieldStores_eq_ok, Journal.result_lift, Journal.result_pure]
    constructor
    · rintro ⟨q, next', ⟨name, e, ⟨raw, -, hname⟩, t, -, c, hc, hok⟩, rfl⟩
      obtain ⟨-, rfl⟩ := Prod.mk.inj (Except.ok.inj hok)
      have hlen := exists_ntohsAt.mp ⟨c, hc⟩
      exact .question hname (by omega)
    · intro h
      cases h with
      | @question raw e hname hlen =>
        obtain ⟨t, ht⟩ := exists_ntohsAt.mpr (show e + 2 ≤ buf.length by omega)
        obtain ⟨c, hc⟩ := exists_ntohsAt.mpr (show e + 2 + 2 ≤ buf.length by omega)
        exact ⟨_, _, ⟨_, e, ⟨raw, rfl, hname⟩, t, ht, c, hc, rfl⟩, rfl⟩
  | record =>
    simp only [Kind.stores, Journal.result_map_eq_ok, rrStores, Journal.result_bind_eq_ok,
      Prod.exists, fieldStores_eq_ok, Journal.result_lift]
    constructor
    · rintro ⟨rr, next', ⟨name, e, ⟨raw, -, hname⟩, type, htype, class_, -, TTL, -, n, hn, hok⟩, rfl⟩
      have hlen := exists_ntohsAt.mp ⟨n, hn⟩
      split_ifs at hok with hnames
      · obtain ⟨⟨target, e'⟩, he', hok⟩ := Journal.result_bind_eq_ok.mp hok
        obtain ⟨-, rfl⟩ := Prod.mk.inj (Except.ok.inj hok)
        obtain ⟨raw', -, hdata⟩ := fieldStores_eq_ok.mp he'
        exact .target hname (by omega) htype hn hnames hdata
      · obtain ⟨data, hdata, hok⟩ := Journal.result_bind_eq_ok.mp hok
        obtain ⟨-, rfl⟩ := Prod.mk.inj (Except.ok.inj hok)
        exact .bytes hname (by omega) htype hn hnames (exists_bytesAt.mp ⟨data, hdata⟩)
    · -- The fields of a record whose name is passed, the type and the length given.
      have hfields : ∀ {e : ℕ}, e + 10 ≤ buf.length → ∃ class_ TTL,
          ntohsAt buf (e + 2) = .ok class_ ∧ ntohlAt buf (e + 4) = .ok TTL := by
        intro e hlen
        obtain ⟨class_, hclass⟩ := exists_ntohsAt.mpr (show e + 2 + 2 ≤ buf.length by omega)
        obtain ⟨TTL, hTTL⟩ := exists_ntohlAt.mpr (show e + 4 + 4 ≤ buf.length by omega)
        exact ⟨class_, TTL, hclass, hTTL⟩
      intro h
      cases h with
      | @bytes raw e type n hname hlen htype hn hnames hdata =>
        obtain ⟨class_, TTL, hclass, hTTL⟩ := hfields hlen
        obtain ⟨data, hd⟩ := exists_bytesAt.mpr hdata
        refine ⟨⟨cstr raw, type, class_, TTL, n, data, .BINARY_TYPE, []⟩, e + 10 + n.toNat,
          ⟨_, e, ⟨raw, rfl, hname⟩, type, htype, class_, hclass, TTL, hTTL, n, hn, ?_⟩, rfl⟩
        rw [if_neg (show ¬ (type = CNAME ∨ type = NS) from hnames), Journal.result_bind_eq_ok]
        exact ⟨data, hd, rfl⟩
      | @target raw target e next type n hname hlen htype hn hnames hdata =>
        obtain ⟨class_, TTL, hclass, hTTL⟩ := hfields hlen
        refine ⟨⟨cstr raw, type, class_, TTL, n, [], .STRING_TYPE, cstr target⟩, e + 10 + n.toNat,
          ⟨_, e, ⟨raw, rfl, hname⟩, type, htype, class_, hclass, TTL, hTTL, n, hn, ?_⟩, rfl⟩
        rw [if_pos (show type = CNAME ∨ type = NS from hnames), Journal.result_bind_eq_ok]
        exact ⟨_, fieldStores_eq_ok.mpr ⟨target, rfl, hdata⟩, rfl⟩

theorem fieldGoes_passes_iff {e : ℕ} (hfits : NameFits buf pos) :
    FieldGoes buf pos (.passes e) ↔ ∃ raw, NameAt buf 0 pos raw e := by
  constructor
  · intro h
    cases h with
    | passes name fits => exact ⟨_, name⟩
  · rintro ⟨raw, hname⟩
    exact .passes hname ((nameFits_iff hname).mp hfits)

/-- An item of which the names stay in their arrays is passed where it is in the arrays of the code. -/
theorem goes_iff_passes (hfits : ∀ p, k.HasName buf pos p → NameFits buf p) {next : ℕ} :
    k.Goes buf pos (.passes next) ↔ k.Passes buf pos next := by
  -- The one difference, that a name must fit its array, is what is assumed.
  have howner : ∀ {e}, FieldGoes buf pos (.passes e) ↔ ∃ raw, NameAt buf 0 pos raw e :=
    fieldGoes_passes_iff (hfits pos (.owner k))
  constructor
  · intro h
    cases h with
    | owner _ stops => exact stops.elim
    | targetStops _ _ _ _ _ stops => exact stops.elim
    | question hname hlen =>
      obtain ⟨raw, hname⟩ := howner.mp hname
      exact .question hname hlen
    | bytes hname hlen htype hn hnames hdata =>
      obtain ⟨raw, hname⟩ := howner.mp hname
      exact .bytes hname hlen htype hn hnames hdata
    | target hname hlen htype hn hnames hdata =>
      obtain ⟨raw, hname⟩ := howner.mp hname
      have htarget := hfits _ (.target hname hlen htype hnames)
      obtain ⟨target, hdata⟩ := (fieldGoes_passes_iff htarget).mp hdata
      exact .target hname hlen htype hn hnames hdata
  · intro h
    cases h with
    | question hname hlen => exact .question (howner.mpr ⟨_, hname⟩) hlen
    | bytes hname hlen htype hn hnames hdata =>
      exact .bytes (howner.mpr ⟨_, hname⟩) hlen htype hn hnames hdata
    | target hname hlen htype hn hnames hdata =>
      have htarget := hfits _ (.target hname hlen htype hnames)
      exact .target (howner.mpr ⟨_, hname⟩) hlen htype hn hnames
        ((fieldGoes_passes_iff htarget).mpr ⟨_, hdata⟩)

/-- The part of `decode` that reads items, each with its index in its array. -/
def itemsStores (buf : List UInt8) : List (Kind × ℕ) → ℕ → Storing ℕ
  | [], pos => return pos
  | (k, i) :: todo, pos => do
    Journal.entry (.element i)
    let pos ← k.stores buf pos
    itemsStores buf todo pos

/-- A loop over an array reads its items. -/
theorem snd_arrayStores {α : Type} {item : ℕ → Storing (α × ℕ)} {k : Kind}
    (hitem : ∀ pos, Prod.snd <$> item pos = k.stores buf pos) (count i pos : ℕ) :
    Prod.snd <$> arrayStores item count i pos = itemsStores buf (slots k count i) pos := by
  induction count generalizing i pos with
  | zero => rfl
  | succ count ih =>
    have hrest : ∀ x : α × ℕ, Prod.snd <$> (do
        let (xs, pos) ← arrayStores item count (i + 1) x.2
        return (x.1 :: xs, pos)) = itemsStores buf (slots k count (i + 1)) x.2 := by
      intro x
      rw [map_bind, ← ih, map_eq_pure_bind]
      rfl
    rw [arrayStores, slots, itemsStores, map_bind]
    simp only [map_bind, ← hitem, bind_map_left, ← hrest]

theorem itemsStores_append (l r : List (Kind × ℕ)) :
    itemsStores buf (l ++ r) = fun pos => itemsStores buf l pos >>= itemsStores buf r := by
  induction l with
  | nil =>
    funext pos
    rw [List.nil_append, itemsStores, pure_bind]
  | cons s l ih =>
    obtain ⟨k, i⟩ := s
    funext pos
    rw [List.cons_append, itemsStores, itemsStores, bind_assoc]
    simp only [ih, bind_assoc]

/-- What is stored for items: the pointer to the first, its names, and what comes after it. -/
theorem mem_itemsStores_cons {todo : List (Kind × ℕ)} :
    st ∈ (itemsStores buf ((k, i) :: todo) pos).log ↔ st = .element i ∨
      (∃ p, st = .name p ∧ k.HasName buf pos p) ∨
        ∃ next, (k.stores buf pos).result = .ok next ∧ st ∈ (itemsStores buf todo next).log := by
  rw [itemsStores, Journal.mem_log_bind, Journal.log_entry, List.mem_singleton]
  refine or_congr_right ?_
  simp only [Journal.result_entry, Journal.mem_log_bind, mem_itemStores, true_and, exists_const]

/-- What is stored for items stays in its arrays exactly when every item that `decode` gets to has room
for a pointer, and names that fit. -/
theorem itemsStores_iff (todo : List (Kind × ℕ)) (pos : ℕ) :
    (∀ st ∈ (itemsStores buf todo pos).log, st.InBounds buf) ↔
      ∀ before k i after pos', todo = before ++ (k, i) :: after → Goes buf before pos (.passes pos') →
        i < MAX_SIZE ∧ ∀ p, k.HasName buf pos' p → NameFits buf p := by
  -- An item is read from where the one before it ended, which is passed when its names fit.
  induction todo generalizing pos with
  | nil =>
    refine iff_of_true (fun st h => by cases h) ?_
    intro before k i after pos' h
    simp at h
  | cons s todo ih =>
    obtain ⟨k, i⟩ := s
    constructor
    · intro h before k' i' after pos' heq hgoes
      have hnames : ∀ p, k.HasName buf pos p → NameFits buf p := fun p hp =>
        name_inBounds_iff.mp (h _ (mem_itemsStores_cons.mpr (Or.inr (Or.inl ⟨p, rfl, hp⟩))))
      cases before with
      | nil =>
        obtain ⟨heq, -⟩ := List.cons.inj heq
        obtain ⟨rfl, rfl⟩ := Prod.mk.inj heq
        cases hgoes
        exact ⟨h _ (mem_itemsStores_cons.mpr (Or.inl rfl)), hnames⟩
      | cons s' before =>
        obtain ⟨rfl, rfl⟩ := List.cons.inj heq
        cases hgoes with
        | stop _ _ stops => exact stops.elim
        | @item _ _ _ _ next _ _ hitem hrest =>
          have hnext := itemStores_eq_ok.mpr ((goes_iff_passes hnames).mp hitem)
          refine (ih next).mp (fun st hst => h st ?_) before k' i' after pos' rfl hrest
          exact mem_itemsStores_cons.mpr (Or.inr (Or.inr ⟨next, hnext, hst⟩))
    · intro h st hst
      obtain ⟨hi, hnames⟩ := h [] k i todo pos rfl (.done pos)
      rcases mem_itemsStores_cons.mp hst with rfl | ⟨p, rfl, hp⟩ | ⟨next, hnext, hst⟩
      · exact hi
      · exact name_inBounds_iff.mpr (hnames p hp)
      · refine (ih next).mpr (fun before k' i' after pos' heq hgoes => ?_) st hst
        exact h ((k, i) :: before) k' i' after pos' (by rw [heq, List.cons_append])
          (.item hi ((goes_iff_passes hnames).mpr (itemStores_eq_ok.mp hnext)) hgoes)

/-! ## Datagrams -/

/-- Once it has read the header, `decode` reads the items that the counts announce. -/
theorem snd_decodeStores {q n₀ n₁ n₂ : UInt16} (header : 12 ≤ buf.length)
    (hq : ntohsAt buf 4 = .ok q) (h₀ : ntohsAt buf 6 = .ok n₀) (h₁ : ntohsAt buf 8 = .ok n₁)
    (h₂ : ntohsAt buf 10 = .ok n₂) :
    Prod.snd <$> decodeStores buf = itemsStores buf (items q n₀ n₁ n₂) 12 := by
  obtain ⟨ID, hID⟩ := exists_ntohsAt.mpr (show 0 + 2 ≤ buf.length by omega)
  obtain ⟨b₀, hb₀⟩ := exists_byteAt.mpr (show 2 < buf.length by omega)
  obtain ⟨b₁, hb₁⟩ := exists_byteAt.mpr (show 3 < buf.length by omega)
  have hques := @snd_arrayStores buf _ (quesStores buf) .question fun _ => rfl
  have hrr := @snd_arrayStores buf _ (rrStores buf) .record fun _ => rfl
  -- The arrays one after the other: only the position goes from one to the next.
  rw [decodeStores, hID, hb₀, hb₁, hq, h₀, h₁, h₂]
  simp only [Journal.lift_bind, items, itemsStores_append, map_bind, map_pure, ← hques, ← hrr,
    bind_map_left]
  simp only [map_eq_pure_bind]

/-- Without twelve bytes for the header `decode` reads past the end before it stores anything. -/
theorem decodeStores_of_short (h : ¬ 12 ≤ buf.length) :
    ∃ i, decodeStores buf = ⟨[], .error (.outOfBounds i)⟩ := by
  have hread : ∀ {α : Type} {x : Run α} {f : α → Storing (Message × ℕ)}, Reading x →
      (∀ a, x = .ok a → ∃ i, f a = ⟨[], .error (.outOfBounds i)⟩) →
      ∃ i, Journal.lift x >>= f = ⟨[], .error (.outOfBounds i)⟩ := by
    intro α x f hx hf
    cases x with
    | error e =>
      obtain ⟨i, rfl⟩ := hx e rfl
      exact ⟨i, Journal.bind_of_error rfl⟩
    | ok a =>
      rw [Journal.lift_bind]
      exact hf a rfl
  refine hread (reading_ntohsAt _ _) fun ID _ => hread (reading_byteAt _ _) fun b₀ _ =>
    hread (reading_byteAt _ _) fun b₁ _ => hread (reading_ntohsAt _ _) fun q _ =>
      hread (reading_ntohsAt _ _) fun n₀ _ => hread (reading_ntohsAt _ _) fun n₁ _ =>
        hread (reading_ntohsAt _ _) fun n₂ h₂ => ?_
  exact absurd (exists_ntohsAt.mp ⟨n₂, h₂⟩) h

/-- The counts of a header that is there. -/
theorem exists_counts (header : 12 ≤ buf.length) : ∃ q n₀ n₁ n₂, ntohsAt buf 4 = .ok q ∧
    ntohsAt buf 6 = .ok n₀ ∧ ntohsAt buf 8 = .ok n₁ ∧ ntohsAt buf 10 = .ok n₂ := by
  obtain ⟨q, hq⟩ := exists_ntohsAt.mpr (show 4 + 2 ≤ buf.length by omega)
  obtain ⟨n₀, h₀⟩ := exists_ntohsAt.mpr (show 6 + 2 ≤ buf.length by omega)
  obtain ⟨n₁, h₁⟩ := exists_ntohsAt.mpr (show 8 + 2 ≤ buf.length by omega)
  obtain ⟨n₂, h₂⟩ := exists_ntohsAt.mpr (show 10 + 2 ≤ buf.length by omega)
  exact ⟨q, n₀, n₁, n₂, hq, h₀, h₁, h₂⟩

/-- What `decode` stores, once it has read the header. -/
theorem mem_decodeStores : st ∈ (decodeStores buf).log ↔ ∃ q n₀ n₁ n₂, 12 ≤ buf.length ∧
    ntohsAt buf 4 = .ok q ∧ ntohsAt buf 6 = .ok n₀ ∧ ntohsAt buf 8 = .ok n₁ ∧
      ntohsAt buf 10 = .ok n₂ ∧ st ∈ (itemsStores buf (items q n₀ n₁ n₂) 12).log := by
  constructor
  · intro hst
    by_cases hlen : 12 ≤ buf.length
    · obtain ⟨q, n₀, n₁, n₂, hq, h₀, h₁, h₂⟩ := exists_counts hlen
      rw [← Journal.log_map Prod.snd, snd_decodeStores hlen hq h₀ h₁ h₂] at hst
      exact ⟨q, n₀, n₁, n₂, hlen, hq, h₀, h₁, h₂, hst⟩
    · obtain ⟨i, hshort⟩ := decodeStores_of_short hlen
      rw [hshort] at hst
      cases hst
  · rintro ⟨q, n₀, n₁, n₂, hlen, hq, h₀, h₁, h₂, hst⟩
    rwa [← snd_decodeStores hlen hq h₀ h₁ h₂, Journal.log_map] at hst

/-- For every datagram, whatever is in the memory after it: `decode` stores no pointer past an array of
pointers, and no byte past the array of a name, exactly when every item that it gets to has room for a
pointer, and the labels along its names have room in their arrays. -/
theorem decode_stores_iff (buf : List UInt8) :
    (∀ st ∈ (decodeStores buf).log, st.InBounds buf) ↔
      ∀ k i pos, GetsTo buf k i pos →
        i < MAX_SIZE ∧ ∀ p, k.HasName buf pos p → NameFits buf p := by
  constructor
  · intro h k i pos hgets
    obtain ⟨header, hq, h₀, h₁, h₂, hitems, hgoes⟩ := hgets
    refine (itemsStores_iff (items _ _ _ _) 12).mp (fun st hst => h st ?_) _ _ _ _ _ hitems hgoes
    exact mem_decodeStores.mpr ⟨_, _, _, _, header, hq, h₀, h₁, h₂, hst⟩
  · intro h st hst
    obtain ⟨q, n₀, n₁, n₂, header, hq, h₀, h₁, h₂, hst⟩ := mem_decodeStores.mp hst
    exact (itemsStores_iff (items q n₀ n₁ n₂) 12).mpr
      (fun before k i after pos hitems hgoes =>
        h k i pos (.items header hq h₀ h₁ h₂ hitems hgoes)) st hst

/-- A datagram of 12 bytes that announces 33 questions. -/
def questions33 : List UInt8 := [0, 0, 0, 0, 0, 33, 0, 0, 0, 0, 0, 0]

/-- A datagram of 337 bytes with a question for a name of five labels of 63 bytes. -/
def labels5 : List UInt8 :=
  [0, 0, 0, 0, 0, 1, 0, 0, 0, 0, 0, 0] ++ (List.replicate 5 (63 :: List.replicate 63 97)).flatten ++
    [0, 0, 1, 0, 1]

/-- Followed by zeros, `questions33` makes `decode` store a pointer past the questions, and `labels5`
makes it store 320 bytes in the array of a name. -/
theorem decode_stores_past :
    (∃ st ∈ (decodeStores (questions33 ++ List.replicate 1012 0)).log,
      ¬ st.InBounds (questions33 ++ List.replicate 1012 0)) ∧
    ∃ st ∈ (decodeStores (labels5 ++ List.replicate 687 0)).log,
      ¬ st.InBounds (labels5 ++ List.replicate 687 0) := by
  have hpointer : Store.element 32 ∈ (decodeStores (questions33 ++ List.replicate 1012 0)).log := by
    decide +kernel
  have hname : Store.name 12 ∈ (decodeStores (labels5 ++ List.replicate 687 0)).log ∧
      nameWrites (labels5 ++ List.replicate 687 0) 0 7 12 0 = 320 := by
    decide +kernel
  refine ⟨⟨_, hpointer, lt_irrefl 32⟩, _, hname.1, fun h => ?_⟩
  -- The five labels are written after seven turns.
  have hlong := h 7
  rw [hname.2] at hlong
  exact absurd hlong (by decide)

/-! ## The arrays of the code -/

/-- A part of `decode` does in arrays without an end what it does in those of the code, as long as it
stays in them. -/
def Agrees {α : Type} (x : Run α) (y : Storing α) : Prop := x ≠ .error .overrun → y.result = x

namespace Agrees

variable {α β : Type} {x : Run α} {y : Storing α}

theorem bind {f : α → Run β} {g : α → Storing β} (hx : Agrees x y) (hf : ∀ a, Agrees (f a) (g a)) :
    Agrees (x >>= f) (y >>= g) := by
  intro hne
  rw [Journal.result_bind]
  cases x with
  | error e =>
    rw [Run.error_bind] at hne
    have hy : y.result = .error e := hx fun he => hne (congrArg _ (Except.error.inj he))
    rw [hy]
    rfl
  | ok a =>
    rw [hx (by simp), Run.ok_bind]
    exact hf a hne

theorem lift (x : Run α) : Agrees x (Journal.lift x) := fun _ => rfl

theorem pure (a : α) : Agrees (.ok a) (Pure.pure a) := fun _ => rfl

/-- What is stored makes no difference. -/
theorem entry (st : Store) (h : Agrees x y) : Agrees x (Journal.entry st >>= fun _ => y) := by
  intro hne
  rw [Journal.result_bind]
  exact h hne

end Agrees

theorem agrees_fieldStores (pos : ℕ) : Agrees (decodeField buf pos) (fieldStores buf pos) := by
  refine .entry _ (.bind (.lift _) fun ⟨name, e⟩ hne => ?_)
  by_cases hlen : name.length ≥ MAX_LEN
  · simp only [if_pos hlen] at hne
    exact absurd rfl hne
  · simp only [if_neg hlen]
    rfl

theorem agrees_quesStores (pos : ℕ) : Agrees (decodeQues buf pos) (quesStores buf pos) :=
  (agrees_fieldStores pos).bind fun _ => (Agrees.lift _).bind fun _ => (Agrees.lift _).bind fun _ =>
    .pure _

theorem agrees_rrStores (pos : ℕ) : Agrees (decodeRR buf pos) (rrStores buf pos) := by
  refine (agrees_fieldStores pos).bind fun x => (Agrees.lift _).bind fun type =>
    (Agrees.lift _).bind fun _ => (Agrees.lift _).bind fun _ => (Agrees.lift _).bind fun n => ?_
  split_ifs
  · exact (agrees_fieldStores _).bind fun _ => .pure _
  · exact (Agrees.lift _).bind fun _ => .pure _

theorem agrees_arrayStores {α : Type} {item : ℕ → Run (α × ℕ)} {item' : ℕ → Storing (α × ℕ)}
    (hitem : ∀ pos, Agrees (item pos) (item' pos)) (count i pos : ℕ) :
    Agrees (decodeArray item count i pos) (arrayStores item' count i pos) := by
  induction count generalizing i pos with
  | zero => exact .pure _
  | succ count ih =>
    rw [decodeArray, arrayStores]
    refine .entry _ ?_
    split_ifs with hi
    · exact fun hne => absurd rfl hne
    · exact (hitem pos).bind fun x => (ih _ _).bind fun _ => .pure _

/-- In arrays without an end `decode` does what it does in those of the code, as long as it stays in
them. -/
theorem agrees_decodeStores : Agrees (decode buf) (decodeStores buf) :=
  (Agrees.lift _).bind fun _ => (Agrees.lift _).bind fun _ => (Agrees.lift _).bind fun _ =>
    (Agrees.lift _).bind fun q => (Agrees.lift _).bind fun n₀ => (Agrees.lift _).bind fun n₁ =>
      (Agrees.lift _).bind fun n₂ => (agrees_arrayStores agrees_quesStores q.toNat 0 12).bind fun x =>
        (agrees_arrayStores agrees_rrStores n₀.toNat 0 x.2).bind fun y =>
          (agrees_arrayStores agrees_rrStores n₁.toNat 0 y.2).bind fun z =>
            (agrees_arrayStores agrees_rrStores n₂.toNat 0 z.2).bind fun _ => .pure _

/-- The names of an item that is passed fit their arrays. -/
theorem Kind.Goes.nameFits {next : ℕ} (h : k.Goes buf pos (.passes next)) :
    ∀ p, k.HasName buf pos p → NameFits buf p := by
  have hfield : ∀ {p e}, FieldGoes buf p (.passes e) →
      NameFits buf p ∧ ∃ raw, NameAt buf 0 p raw e := by
    intro p e hp
    cases hp with
    | passes name fits => exact ⟨(nameFits_iff name).mpr fits, _, name⟩
  intro p hp
  cases h with
  | owner _ stops => exact stops.elim
  | targetStops _ _ _ _ _ stops => exact stops.elim
  | question hname =>
    cases hp with
    | owner => exact (hfield hname).1
  | @bytes e type n hname _ htype _ hbytes =>
    obtain ⟨hfits, raw, hraw⟩ := hfield hname
    cases hp with
    | owner => exact hfits
    | target hname' _ htype' hnames =>
      -- A record whose data are bytes has no name there.
      obtain ⟨-, rfl⟩ := hraw.unique hname'
      obtain rfl := Except.ok.inj (htype.symm.trans htype')
      exact absurd hnames hbytes
  | @target e next type n hname _ htype _ _ hdata =>
    obtain ⟨hfits, raw, hraw⟩ := hfield hname
    cases hp with
    | owner => exact hfits
    | target hname' =>
      obtain ⟨-, rfl⟩ := hraw.unique hname'
      exact (hfield hdata).1

/-- Items that are passed are stored in their arrays. -/
theorem itemsStores_of_goes {todo : List (Kind × ℕ)} {e : ℕ} (h : Goes buf todo pos (.passes e)) :
    ∀ st ∈ (itemsStores buf todo pos).log, st.InBounds buf := by
  induction todo generalizing pos with
  | nil =>
    intro st hst
    cases hst
  | cons s todo ih =>
    obtain ⟨k, i⟩ := s
    cases h with
    | stop _ _ stops => exact stops.elim
    | @item _ _ _ _ next _ hi hitem hrest =>
      intro st hst
      rcases mem_itemsStores_cons.mp hst with rfl | ⟨p, rfl, hp⟩ | ⟨next', hnext, hst⟩
      · exact hi
      · exact name_inBounds_iff.mpr (hitem.nameFits p hp)
      · have hok := itemStores_eq_ok.mpr ((goes_iff_passes hitem.nameFits).mp hitem)
        obtain rfl := Except.ok.inj (hok.symm.trans hnext)
        exact ih hrest st hst

/-- When `decode` returns, what it stored is in its arrays. -/
theorem stores_of_decode {m : Message} {e : ℕ} (h : decode buf = .ok (m, e)) :
    ∀ st ∈ (decodeStores buf).log, st.InBounds buf := by
  intro st hst
  obtain ⟨q, n₀, n₁, n₂, -, hq, h₀, h₁, h₂, hst⟩ := mem_decodeStores.mp hst
  obtain ⟨-, hq', h₀', h₁', h₂', hgoes⟩ := outcome_decode.mp (outcome_eq_passes.mpr ⟨m, h⟩)
  obtain rfl := Except.ok.inj (hq.symm.trans hq')
  obtain rfl := Except.ok.inj (h₀.symm.trans h₀')
  obtain rfl := Except.ok.inj (h₁.symm.trans h₁')
  obtain rfl := Except.ok.inj (h₂.symm.trans h₂')
  exact itemsStores_of_goes hgoes st hst

end DnsRelayer
