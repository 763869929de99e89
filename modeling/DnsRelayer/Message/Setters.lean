import Mathlib.Data.List.Induction
import DnsRelayer.Message.Encode
import DnsRelayer.Message.Header

/-!
# Calls that set header fields

The two flag bytes are ten fields, one after the other from the highest bit of the first byte on.
`HeaderFlags` has them as binary numbers, and `meant` says what a sequence of calls is to leave in
them. `got` is what the calls do leave there: `setOpcode` does not turn the bits of an OPCODE round
for the flag word, as `setRCODE` does with those of an RCODE, and `setRCODE` does not clear the bits
that are there before, as `setOpcode` does.
-/

namespace DnsRelayer

/-! ## The fields of the flag bytes -/

/-- Appending loses nothing of the two parts. -/
theorem append_inj {v w : ℕ} {a b : BitVec v} {c d : BitVec w} (h : a ++ c = b ++ d) :
    a = b ∧ c = d := by
  constructor
  · rw [← @BitVec.extractLsb'_append_eq_left v w a c, h, BitVec.extractLsb'_append_eq_left]
  · rw [← @BitVec.extractLsb'_append_eq_right v w a c, h, BitVec.extractLsb'_append_eq_right]

/-- The fields of the two flag bytes, in the order of the wire. -/
@[ext]
structure HeaderFlags where
  QR : BitVec 1
  OPCODE : BitVec 4
  AA : BitVec 1
  TC : BitVec 1
  RD : BitVec 1
  RA : BitVec 1
  Z : BitVec 1
  AD : BitVec 1
  CD : BitVec 1
  RCODE : BitVec 4
  deriving DecidableEq, Repr

namespace HeaderFlags

/-- The flag bytes of these fields. -/
def bytes (f : HeaderFlags) : List UInt8 :=
  [UInt8.ofBitVec (f.QR ++ f.OPCODE ++ f.AA ++ f.TC ++ f.RD),
    UInt8.ofBitVec (f.RA ++ f.Z ++ f.AD ++ f.CD ++ f.RCODE)]

/-- The fields of two flag bytes. -/
def ofBytes (b₀ b₁ : UInt8) : HeaderFlags where
  QR := b₀.toBitVec.extractLsb' 7 1
  OPCODE := b₀.toBitVec.extractLsb' 3 4
  AA := b₀.toBitVec.extractLsb' 2 1
  TC := b₀.toBitVec.extractLsb' 1 1
  RD := b₀.toBitVec.extractLsb' 0 1
  RA := b₁.toBitVec.extractLsb' 7 1
  Z := b₁.toBitVec.extractLsb' 6 1
  AD := b₁.toBitVec.extractLsb' 5 1
  CD := b₁.toBitVec.extractLsb' 4 1
  RCODE := b₁.toBitVec.extractLsb' 0 4

/-- The fields of two bytes are laid out as these bytes. -/
theorem bytes_ofBytes (b₀ b₁ : UInt8) : (ofBytes b₀ b₁).bytes = [b₀, b₁] := by
  have h₀ := @forall_byte (fun b => (ofBytes b 0).bytes = [b, 0]) (by decide +kernel) b₀
  have h₁ := @forall_byte (fun b => (ofBytes 0 b).bytes = [0, b]) (by decide +kernel) b₁
  simp only [bytes, ofBytes, List.cons.injEq, and_true] at h₀ h₁ ⊢
  exact ⟨h₀.1, h₁.2⟩

/-- Fields are not lost in the layout. -/
theorem bytes_injective {f g : HeaderFlags} (h : f.bytes = g.bytes) : f = g := by
  simp only [bytes, List.cons.injEq, and_true, UInt8.ofBitVec.injEq] at h
  obtain ⟨h₀, h₁⟩ := h
  -- one append after the other is taken apart, from the last field to the first
  obtain ⟨h₀, hRD⟩ := append_inj h₀
  obtain ⟨h₀, hTC⟩ := append_inj h₀
  obtain ⟨h₀, hAA⟩ := append_inj h₀
  obtain ⟨hQR, hOPCODE⟩ := append_inj h₀
  obtain ⟨h₁, hRCODE⟩ := append_inj h₁
  obtain ⟨h₁, hCD⟩ := append_inj h₁
  obtain ⟨h₁, hAD⟩ := append_inj h₁
  obtain ⟨hRA, hZ⟩ := append_inj h₁
  exact HeaderFlags.ext hQR hOPCODE hAA hTC hRD hRA hZ hAD hCD hRCODE

/-- The fields of both with the bits of either set. -/
def or (f g : HeaderFlags) : HeaderFlags where
  QR := f.QR ||| g.QR
  OPCODE := f.OPCODE ||| g.OPCODE
  AA := f.AA ||| g.AA
  TC := f.TC ||| g.TC
  RD := f.RD ||| g.RD
  RA := f.RA ||| g.RA
  Z := f.Z ||| g.Z
  AD := f.AD ||| g.AD
  CD := f.CD ||| g.CD
  RCODE := f.RCODE ||| g.RCODE

/-- The fields with the bits that both have set. -/
def and (f g : HeaderFlags) : HeaderFlags where
  QR := f.QR &&& g.QR
  OPCODE := f.OPCODE &&& g.OPCODE
  AA := f.AA &&& g.AA
  TC := f.TC &&& g.TC
  RD := f.RD &&& g.RD
  RA := f.RA &&& g.RA
  Z := f.Z &&& g.Z
  AD := f.AD &&& g.AD
  CD := f.CD &&& g.CD
  RCODE := f.RCODE &&& g.RCODE

/-- The fields that the header of a message with this flag word has. -/
def ofWord (flag : UInt16) : HeaderFlags :=
  ofBytes (reverse8 (UInt8.ofNat (flag.toNat % 256))) (reverse8 (UInt8.ofNat (flag.toNat / 256)))

theorem ofWord_or (x y : UInt16) : ofWord (x ||| y) = (ofWord x).or (ofWord y) := by
  have hmod : (x ||| y).toNat % 256 = x.toNat % 256 ||| y.toNat % 256 := by
    rw [UInt16.toNat_or]
    exact @Nat.or_mod_two_pow _ _ 8
  have hdiv : (x ||| y).toNat / 256 = x.toNat / 256 ||| y.toNat / 256 := by
    rw [UInt16.toNat_or]
    exact @Nat.or_div_two_pow _ _ 8
  unfold ofWord
  rw [hmod, hdiv, UInt8.ofNat_or, UInt8.ofNat_or, reverse8_or, reverse8_or]
  simp only [ofBytes, or, UInt8.toBitVec_or, BitVec.extractLsb'_or]

theorem ofWord_and (x y : UInt16) : ofWord (x &&& y) = (ofWord x).and (ofWord y) := by
  have hmod : (x &&& y).toNat % 256 = x.toNat % 256 &&& y.toNat % 256 := by
    rw [UInt16.toNat_and]
    exact @Nat.and_mod_two_pow _ _ 8
  have hdiv : (x &&& y).toNat / 256 = x.toNat / 256 &&& y.toNat / 256 := by
    rw [UInt16.toNat_and]
    exact @Nat.and_div_two_pow _ _ 8
  unfold ofWord
  rw [hmod, hdiv, UInt8.ofNat_and, UInt8.ofNat_and, reverse8_and, reverse8_and]
  simp only [ofBytes, and, UInt8.toBitVec_and, BitVec.extractLsb'_and]

/-- Fields with no bit set. -/
def zeros : HeaderFlags := ⟨0#1, 0#4, 0#1, 0#1, 0#1, 0#1, 0#1, 0#1, 0#1, 0#4⟩

/-- Fields with every bit set. -/
def ones : HeaderFlags :=
  ⟨.allOnes 1, .allOnes 4, .allOnes 1, .allOnes 1, .allOnes 1, .allOnes 1, .allOnes 1, .allOnes 1,
    .allOnes 1, .allOnes 4⟩

end HeaderFlags

/-! ## The calls -/

/-- A call of a function that sets header fields. -/
inductive HeaderCall where
  | setQuery
  | setResp
  | setOpcode (op : UInt16)
  | setFlag (b : UInt16)
  | setRCODE (rcode : UInt16)
  deriving DecidableEq, Repr

namespace HeaderCall

/-- The arguments are numbers of four bits, and flags. -/
def Valid : HeaderCall → Prop
  | .setQuery | .setResp => True
  | .setOpcode op => op ≤ 15
  | .setFlag b => b ∈ [AA, TC, RD, RA, AD, CD]
  | .setRCODE rcode => rcode ≤ 15

instance : DecidablePred Valid
  | .setQuery | .setResp => inferInstanceAs (Decidable True)
  | .setOpcode op => inferInstanceAs (Decidable (op ≤ 15))
  | .setFlag b => inferInstanceAs (Decidable (b ∈ [AA, TC, RD, RA, AD, CD]))
  | .setRCODE rcode => inferInstanceAs (Decidable (rcode ≤ 15))

/-- The call, with its message. -/
def perform (msg : Message) : HeaderCall → Message
  | .setQuery => DnsRelayer.setQuery msg
  | .setResp => DnsRelayer.setResp msg
  | .setOpcode op => DnsRelayer.setOpcode msg op
  | .setFlag b => DnsRelayer.setFlag msg b
  | .setRCODE rcode => DnsRelayer.setRCODE msg rcode

/-- The value of `QR` that the call sets. -/
def qr : HeaderCall → Option (BitVec 1)
  | .setQuery => some 0
  | .setResp => some 1
  | .setOpcode _ | .setFlag _ | .setRCODE _ => none

/-- The OPCODE that the call sets. -/
def opcode : HeaderCall → Option (BitVec 4)
  | .setOpcode op => some (BitVec.ofNat 4 op.toNat)
  | .setQuery | .setResp | .setFlag _ | .setRCODE _ => none

/-- The RCODE that the call sets. -/
def rcode : HeaderCall → Option (BitVec 4)
  | .setRCODE rcode => some (BitVec.ofNat 4 rcode.toNat)
  | .setQuery | .setResp | .setOpcode _ | .setFlag _ => none

/-- The value of the flag `b` that the call sets. -/
def flag (b : UInt16) (c : HeaderCall) : Option (BitVec 1) :=
  if c = .setFlag b then some 1 else none

/-- The value that the calls set last, or else `a`. -/
def lastSet {α : Type} (sel : HeaderCall → Option α) (a : α) (calls : List HeaderCall) : α :=
  (calls.filterMap sel).getLastD a

theorem lastSet_cons {α : Type} (sel : HeaderCall → Option α) (a : α) (c : HeaderCall)
    (calls : List HeaderCall) :
    lastSet sel a (c :: calls) = lastSet sel ((sel c).getD a) calls := by
  unfold lastSet
  cases hc : sel c with
  | none => rw [List.filterMap_cons_none hc, Option.getD_none]
  | some v => rw [List.filterMap_cons_some hc, List.getLastD_cons, Option.getD_some]

/-- The message after the calls. -/
def run (msg : Message) (calls : List HeaderCall) : Message := calls.foldl perform msg

end HeaderCall

namespace HeaderFlags

/-- What the calls are to leave in these fields: the number that was set last, and 1 for a flag that
was set. -/
def meant (f : HeaderFlags) (calls : List HeaderCall) : HeaderFlags where
  QR := HeaderCall.lastSet HeaderCall.qr f.QR calls
  OPCODE := HeaderCall.lastSet HeaderCall.opcode f.OPCODE calls
  AA := HeaderCall.lastSet (HeaderCall.flag DnsRelayer.AA) f.AA calls
  TC := HeaderCall.lastSet (HeaderCall.flag DnsRelayer.TC) f.TC calls
  RD := HeaderCall.lastSet (HeaderCall.flag DnsRelayer.RD) f.RD calls
  RA := HeaderCall.lastSet (HeaderCall.flag DnsRelayer.RA) f.RA calls
  Z := f.Z
  AD := HeaderCall.lastSet (HeaderCall.flag DnsRelayer.AD) f.AD calls
  CD := HeaderCall.lastSet (HeaderCall.flag DnsRelayer.CD) f.CD calls
  RCODE := HeaderCall.lastSet HeaderCall.rcode f.RCODE calls

/-- What the calls leave in these fields. -/
def got (f : HeaderFlags) (calls : List HeaderCall) : HeaderFlags :=
  { f.meant calls with
    OPCODE := HeaderCall.lastSet (fun c => c.opcode.map BitVec.reverse) f.OPCODE calls
    RCODE := (calls.filterMap HeaderCall.rcode).foldl (· ||| ·) f.RCODE }

theorem got_cons (f : HeaderFlags) (c : HeaderCall) (calls : List HeaderCall) :
    f.got (c :: calls) = (f.got [c]).got calls := by
  have hrcode : (c :: calls).filterMap HeaderCall.rcode =
      [c].filterMap HeaderCall.rcode ++ calls.filterMap HeaderCall.rcode :=
    List.filterMap_append (l := [c])
  simp only [got, meant, HeaderCall.lastSet_cons, hrcode, List.foldl_append]
  rfl

/-- A number of four bits is the bits of an OPCODE, in reverse order. -/
theorem ofWord_opcode {op : UInt16} (hop : op ≤ 15) :
    ofWord (op <<< 1) = { zeros with OPCODE := (BitVec.ofNat 4 op.toNat).reverse } := by
  have hall : ∀ n < 16, ofWord (UInt16.ofNat n <<< 1) =
      { zeros with OPCODE := (BitVec.ofNat 4 n).reverse } := by decide +kernel
  have h := hall op.toNat (Nat.lt_succ_of_le hop)
  rwa [UInt16.ofNat_toNat] at h

/-- A number of four bits is the bits of an RCODE. -/
theorem ofWord_rcode {rcode : UInt16} (hrcode : rcode ≤ 15) :
    ofWord ((reverse8 rcode.toUInt8).toUInt16 <<< 8) =
      { zeros with RCODE := BitVec.ofNat 4 rcode.toNat } := by
  have hall : ∀ n < 16, ofWord ((reverse8 (UInt16.ofNat n).toUInt8).toUInt16 <<< 8) =
      { zeros with RCODE := BitVec.ofNat 4 n } := by decide +kernel
  have h := hall rcode.toNat (Nat.lt_succ_of_le hrcode)
  rwa [UInt16.ofNat_toNat] at h

/-- A flag is a field of its own. -/
theorem ofWord_flag {b : UInt16} (hb : b ∈ [DnsRelayer.AA, DnsRelayer.TC, DnsRelayer.RD,
    DnsRelayer.RA, DnsRelayer.AD, DnsRelayer.CD]) :
    ofWord (UInt16.ofNat (1 <<< b.toNat)) = { zeros with
      AA := if b = DnsRelayer.AA then 1 else 0
      TC := if b = DnsRelayer.TC then 1 else 0
      RD := if b = DnsRelayer.RD then 1 else 0
      RA := if b = DnsRelayer.RA then 1 else 0
      AD := if b = DnsRelayer.AD then 1 else 0
      CD := if b = DnsRelayer.CD then 1 else 0 } := by
  simp only [List.mem_cons, List.not_mem_nil, or_false] at hb
  rcases hb with rfl | rfl | rfl | rfl | rfl | rfl <;> decide

/-- Setting a bit gives it the value 1, and only if it is the flag of the call. -/
theorem or_flag (x : BitVec 1) (b b' : UInt16) : (x ||| if b = b' then 1 else 0) =
    HeaderCall.lastSet (HeaderCall.flag b') x [.setFlag b] := by
  rw [HeaderCall.lastSet_cons, HeaderCall.flag]
  by_cases h : b = b'
  · rw [if_pos h, if_pos (by rw [h])]
    exact BitVec.or_allOnes
  · rw [if_neg h, if_neg fun heq => h (HeaderCall.setFlag.inj heq)]
    exact BitVec.or_zero

/-- One call leaves in the fields what `got` says. -/
theorem ofWord_perform {c : HeaderCall} (h : c.Valid) (m : Message) :
    ofWord (c.perform m).flag = (ofWord m.flag).got [c] := by
  unfold HeaderCall.perform
  cases c with
  | setQuery =>
    have hx : ofWord (~~~1) = { ones with QR := 0#1 } := by decide
    unfold setQuery
    rw [ofWord_and, hx]
    simp only [-BitVec.reduceAllOnes, and, ones, BitVec.and_allOnes, BitVec.and_zero]
    rfl
  | setResp =>
    have hx : ofWord 1 = { zeros with QR := .allOnes 1 } := by decide
    unfold setResp
    rw [ofWord_or, hx]
    simp only [-BitVec.reduceAllOnes, or, zeros, BitVec.or_allOnes, BitVec.or_zero]
    rfl
  | setOpcode op =>
    have hx : ofWord (~~~((0xf : UInt16) <<< 1)) = { ones with OPCODE := 0#4 } := by decide
    unfold setOpcode
    rw [ofWord_or, ofWord_and, hx, ofWord_opcode h]
    simp only [-BitVec.reduceAllOnes, or, and, zeros, ones, BitVec.and_allOnes, BitVec.and_zero,
      BitVec.or_zero, BitVec.zero_or]
    rfl
  | setFlag b =>
    unfold setFlag
    rw [ofWord_or, ofWord_flag h]
    simp only [or, zeros, or_flag, BitVec.or_zero]
    rfl
  | setRCODE rcode =>
    unfold setRCODE
    rw [ofWord_or, ofWord_rcode h]
    simp only [or, zeros, BitVec.or_zero]
    rfl

/-- A sequence of calls leaves in the fields what `got` says. -/
theorem ofWord_run {calls : List HeaderCall} (h : ∀ c ∈ calls, c.Valid) (m : Message) :
    ofWord (HeaderCall.run m calls).flag = (ofWord m.flag).got calls := by
  induction calls generalizing m with
  | nil => rfl
  | cons c calls ih =>
    calc ofWord (HeaderCall.run m (c :: calls)).flag
        = ofWord (HeaderCall.run (c.perform m) calls).flag := rfl
      _ = (ofWord (c.perform m).flag).got calls :=
        ih (fun c hc => h c (List.mem_cons_of_mem _ hc)) _
      _ = ((ofWord m.flag).got [c]).got calls := by rw [ofWord_perform (h c List.mem_cons_self)]
      _ = (ofWord m.flag).got (c :: calls) := (got_cons _ c calls).symm

/-! ## When the fields hold the numbers that were set -/

/-- The OPCODE that the calls set last is the same read from either end. -/
def OpcodeMirrored (calls : List HeaderCall) : Prop :=
  ∀ op ∈ (calls.filterMap HeaderCall.opcode).getLast?, op ∈ [0#4, 6#4, 9#4, 15#4]

/-- The RCODE that the calls set last has the bits of those set before, and of the one that was
there at first. -/
def RcodeCovers (f : HeaderFlags) (calls : List HeaderCall) : Prop :=
  ∀ r ∈ (calls.filterMap HeaderCall.rcode).getLast?,
    ∀ x ∈ f.RCODE :: calls.filterMap HeaderCall.rcode, x ||| r = r

theorem reverse_eq_iff (op : BitVec 4) : op.reverse = op ↔ op ∈ [0#4, 6#4, 9#4, 15#4] := by
  revert op
  decide

theorem opcode_got_iff (f : HeaderFlags) (calls : List HeaderCall) :
    (f.got calls).OPCODE = (f.meant calls).OPCODE ↔ OpcodeMirrored calls := by
  have hmap : calls.filterMap (fun c => c.opcode.map BitVec.reverse) =
      (calls.filterMap HeaderCall.opcode).map BitVec.reverse := List.map_filterMap.symm
  simp only [got, meant, HeaderCall.lastSet, OpcodeMirrored, hmap, List.getLastD_eq_getLast?,
    List.getLast?_map]
  cases (calls.filterMap HeaderCall.opcode).getLast? with
  | none => simp
  | some op => simpa using reverse_eq_iff op

/-- A number has all bits of two together, if it has those of each. -/
theorem or_eq_right_iff (a b r : BitVec 4) : a ||| b ||| r = r ↔ a ||| r = r ∧ b ||| r = r := by
  constructor
  · intro h
    constructor
    · calc a ||| r = a ||| (a ||| b ||| r) := by rw [h]
        _ = a ||| b ||| r := by rw [← BitVec.or_assoc, ← BitVec.or_assoc, BitVec.or_self]
        _ = r := h
    · calc b ||| r = b ||| (b ||| a ||| r) := by rw [BitVec.or_comm b a, h]
        _ = b ||| a ||| r := by rw [← BitVec.or_assoc, ← BitVec.or_assoc, BitVec.or_self]
        _ = r := by rw [BitVec.or_comm b a, h]
  · rintro ⟨ha, hb⟩
    rw [BitVec.or_assoc, hb, ha]

theorem foldl_or_eq_right_iff (r a : BitVec 4) (l : List (BitVec 4)) :
    l.foldl (· ||| ·) a ||| r = r ↔ ∀ x ∈ a :: l, x ||| r = r := by
  induction l generalizing a with
  | nil => simp
  | cons b l ih =>
    rw [List.foldl_cons, ih]
    simp only [List.forall_mem_cons, or_eq_right_iff, and_assoc]

theorem rcode_got_iff (f : HeaderFlags) (calls : List HeaderCall) :
    (f.got calls).RCODE = (f.meant calls).RCODE ↔ RcodeCovers f calls := by
  unfold RcodeCovers
  dsimp only [got, meant, HeaderCall.lastSet]
  induction calls.filterMap HeaderCall.rcode using List.reverseRecOn with
  | nil => simp
  | append_singleton codes r _ =>
    -- the last number covers itself, so only those before it count
    have hself : r ||| r = r := BitVec.or_self
    rw [List.foldl_append, List.getLastD_concat, List.getLast?_concat, List.foldl_cons,
      List.foldl_nil, foldl_or_eq_right_iff]
    simp only [Option.mem_some_iff, forall_eq', List.forall_mem_cons, List.forall_mem_append, hself,
      List.not_mem_nil, false_implies, implies_true, and_true]

/-- The calls leave in the fields what they are to leave there, when these two numbers are right. -/
theorem got_eq_meant_iff (f : HeaderFlags) (calls : List HeaderCall) :
    f.got calls = f.meant calls ↔ OpcodeMirrored calls ∧ RcodeCovers f calls := by
  rw [← opcode_got_iff, ← rcode_got_iff]
  constructor
  · intro h
    exact ⟨congrArg OPCODE h, congrArg RCODE h⟩
  · rintro ⟨hopcode, hrcode⟩
    exact HeaderFlags.ext rfl hopcode rfl rfl rfl rfl rfl rfl rfl hrcode

/-- The two flag bytes that `encodeHeader` writes. -/
def flagsWritten (msg : Message) : List UInt8 := ((encodeHeader msg).drop 2).take 2

theorem flagsWritten_eq (msg : Message) : flagsWritten msg = (ofWord msg.flag).bytes := by
  unfold ofWord
  rw [bytes_ofBytes]
  rfl

/-- After calls in any order the flag bytes have the layout of the numbers and flags that were set,
exactly when the last OPCODE is its own mirror image, and the last RCODE has all bits of those
before. -/
theorem setters_layout_iff {calls : List HeaderCall} (h : ∀ c ∈ calls, c.Valid) (msg : Message) :
    flagsWritten (HeaderCall.run msg calls) = ((ofWord msg.flag).meant calls).bytes ↔
      OpcodeMirrored calls ∧ RcodeCovers (ofWord msg.flag) calls := by
  rw [flagsWritten_eq, ofWord_run h, ← got_eq_meant_iff]
  exact ⟨bytes_injective, congrArg bytes⟩

/-- A reply that reports a failure is made with these calls. -/
theorem setters_layout_iff_failure :
    flagsWritten
        (HeaderCall.run newMsg [.setResp, .setFlag DnsRelayer.RA, .setRCODE SERVER_FAILURE]) =
      ((ofWord newMsg.flag).meant
        [.setResp, .setFlag DnsRelayer.RA, .setRCODE SERVER_FAILURE]).bytes :=
  (setters_layout_iff (by decide) newMsg).mpr
    ⟨by unfold OpcodeMirrored; decide,
      by unfold RcodeCovers; decide⟩

/-- The OPCODE 2 is on the wire as 4, and an RCODE that was 3 stays so when it is set to 0. -/
theorem setters_layout_broken :
    (∀ c ∈ [HeaderCall.setOpcode STATUS, .setRCODE NAME_ERR, .setRCODE 0], c.Valid) ∧
      flagsWritten (HeaderCall.run newMsg [.setOpcode STATUS]) = [0x20, 0] ∧
      ((ofWord newMsg.flag).meant [.setOpcode STATUS]).bytes = [0x10, 0] ∧
      flagsWritten (HeaderCall.run newMsg [.setRCODE NAME_ERR, .setRCODE 0]) = [0, 3] ∧
      ((ofWord newMsg.flag).meant [.setRCODE NAME_ERR, .setRCODE 0]).bytes = [0, 0] := by
  decide

end HeaderFlags

end DnsRelayer
