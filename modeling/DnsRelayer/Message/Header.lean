import DnsRelayer.Message.Types

/-!
# The header fields of a message

The flag word of a message has the bits of the two flag bytes in reverse order. Here are the fields as
the bytes have them, and what the functions that change a message do to them.
-/

namespace DnsRelayer

namespace Message

variable (m : Message)

/-- The first flag byte. -/
def flags₀ : UInt8 := reverse8 (UInt8.ofNat (m.flag.toNat % 256))

/-- The second flag byte. -/
def flags₁ : UInt8 := reverse8 (UInt8.ofNat (m.flag.toNat / 256))

/-- The bit `QR`. -/
def qr : UInt8 := m.flags₀ >>> 7

/-- The four bits of the kind of query. -/
def opcode : UInt8 := (m.flags₀ >>> 3) &&& 15

/-- The bit `RD`: recursion is desired. -/
def rd : UInt8 := m.flags₀ &&& 1

/-- The bit `RA`: recursion is available. -/
def ra : UInt8 := m.flags₁ >>> 7

/-- The four bits of the response code. -/
def rcode : UInt8 := m.flags₁ &&& 15

end Message

/-- Reversing the bits of a byte moves each to the other end. -/
theorem testBit_reverse8 (b : UInt8) {i : ℕ} (hi : i < 8) :
    (reverse8 b).toNat.testBit i = b.toNat.testBit (7 - i) := by
  have hall : ∀ n < 256, ∀ i < 8,
      (reverse8 (UInt8.ofNat n)).toNat.testBit i = (UInt8.ofNat n).toNat.testBit (7 - i) := by
    decide +kernel
  exact @forall_byte (fun b : UInt8 => ∀ i < 8, (reverse8 b).toNat.testBit i = b.toNat.testBit (7 - i))
    hall b i hi

/-- A byte with these bits is the byte with its bits reversed. -/
theorem reverse8_eq {a b : UInt8} (h : ∀ i < 8, a.toNat.testBit (7 - i) = b.toNat.testBit i) :
    reverse8 a = b := by
  rw [← UInt8.toNat_inj]
  refine Nat.eq_of_testBit_eq fun i => ?_
  by_cases hi : i < 8
  · rw [testBit_reverse8 _ hi, h i hi]
  · have hlt : ∀ x : UInt8, x.toNat.testBit i = false := fun x =>
      Nat.testBit_lt_two_pow (x.toNat_lt.trans_le (Nat.pow_le_pow_right (by decide) (not_lt.mp hi)))
    rw [hlt, hlt]

theorem reverse8_or (a b : UInt8) : reverse8 (a ||| b) = reverse8 a ||| reverse8 b := by
  refine reverse8_eq fun i hi => ?_
  rw [UInt8.toNat_or, UInt8.toNat_or, Nat.testBit_or, Nat.testBit_or, testBit_reverse8 _ hi,
    testBit_reverse8 _ hi]

theorem reverse8_and (a b : UInt8) : reverse8 (a &&& b) = reverse8 a &&& reverse8 b := by
  refine reverse8_eq fun i hi => ?_
  rw [UInt8.toNat_and, UInt8.toNat_and, Nat.testBit_and, Nat.testBit_and, testBit_reverse8 _ hi,
    testBit_reverse8 _ hi]

/-- The bit `0x80` of a byte is its highest, and no other. -/
theorem or_highest (b : UInt8) : (b ||| 128) >>> 7 = 1 ∧
    ((b ||| 128) >>> 3) &&& (15 : UInt8) = (b >>> 3) &&& 15 ∧ (b ||| 128) &&& 1 = b &&& 1 ∧
    (b ||| 128) &&& 15 = b &&& 15 :=
  @forall_byte (fun b : UInt8 => (b ||| 128) >>> 7 = 1 ∧
    ((b ||| 128) >>> 3) &&& (15 : UInt8) = (b >>> 3) &&& 15 ∧ (b ||| 128) &&& 1 = b &&& 1 ∧
    (b ||| 128) &&& 15 = b &&& 15) (by decide +kernel) b

namespace Message

variable {m : Message}

/-- Bits that are set in the low byte of the flag word are set in the first flag byte. -/
theorem flags₀_or (x : UInt16) : { m with flag := m.flag ||| x }.flags₀ =
    m.flags₀ ||| reverse8 (UInt8.ofNat (x.toNat % 256)) := by
  have hmod : (m.flag ||| x).toNat % 256 = m.flag.toNat % 256 ||| x.toNat % 256 := by
    rw [UInt16.toNat_or]
    exact @Nat.or_mod_two_pow _ _ 8
  rw [flags₀, flags₀, ← reverse8_or, hmod, UInt8.ofNat_or]

/-- Bits that are set in the high byte of the flag word are set in the second flag byte. -/
theorem flags₁_or (x : UInt16) : { m with flag := m.flag ||| x }.flags₁ =
    m.flags₁ ||| reverse8 (UInt8.ofNat (x.toNat / 256)) := by
  have hdiv : (m.flag ||| x).toNat / 256 = m.flag.toNat / 256 ||| x.toNat / 256 := by
    rw [UInt16.toNat_or]
    exact @Nat.or_div_two_pow _ _ 8
  rw [flags₁, flags₁, ← reverse8_or, hdiv, UInt8.ofNat_or]

/-! ## Responses -/

theorem flags₀_setResp : (setResp m).flags₀ = m.flags₀ ||| 128 := flags₀_or 1

theorem flags₁_setResp : (setResp m).flags₁ = m.flags₁ := by
  rw [setResp, flags₁_or]
  exact UInt8.or_zero

/-- `setResp` makes a message a response, and changes no other field. -/
theorem qr_setResp : (setResp m).qr = 1 := by
  rw [qr, flags₀_setResp]
  exact (or_highest _).1

@[simp]
theorem opcode_setResp : (setResp m).opcode = m.opcode := by
  rw [opcode, opcode, flags₀_setResp]
  exact (or_highest _).2.1

@[simp]
theorem rd_setResp : (setResp m).rd = m.rd := by
  rw [rd, rd, flags₀_setResp]
  exact (or_highest _).2.2.1

@[simp]
theorem ra_setResp : (setResp m).ra = m.ra := by rw [ra, ra, flags₁_setResp]

@[simp]
theorem rcode_setResp : (setResp m).rcode = m.rcode := by rw [rcode, rcode, flags₁_setResp]

/-! ## Recursion -/

@[simp]
theorem flags₀_setFlag_RA : (setFlag m RA).flags₀ = m.flags₀ := by
  rw [setFlag, flags₀_or]
  exact UInt8.or_zero

theorem flags₁_setFlag_RA : (setFlag m RA).flags₁ = m.flags₁ ||| 128 := flags₁_or 256

/-- `setFlag` of `RA` says that recursion is available, and changes no other field. -/
theorem ra_setFlag_RA : (setFlag m RA).ra = 1 := by
  rw [ra, flags₁_setFlag_RA]
  exact (or_highest _).1

@[simp]
theorem rcode_setFlag_RA : (setFlag m RA).rcode = m.rcode := by
  rw [rcode, rcode, flags₁_setFlag_RA]
  exact (or_highest _).2.2.2

/-! ## Response codes -/

@[simp]
theorem flags₀_setRCODE (r : UInt16) : (setRCODE m r).flags₀ = m.flags₀ := by
  have hx : ((reverse8 r.toUInt8).toUInt16 <<< 8).toNat % 256 = 0 := by
    rw [UInt16.toNat_shiftLeft]
    simp [Nat.shiftLeft_eq]
  rw [setRCODE, flags₀_or, hx]
  exact UInt8.or_zero

theorem flags₁_setRCODE (r : UInt16) : (setRCODE m r).flags₁ = m.flags₁ ||| r.toUInt8 := by
  have hx : ((reverse8 r.toUInt8).toUInt16 <<< 8).toNat / 256 = (reverse8 r.toUInt8).toNat := by
    have hlt := (reverse8 r.toUInt8).toNat_lt
    rw [UInt16.toNat_shiftLeft]
    simp [Nat.shiftLeft_eq]
    omega
  rw [setRCODE, flags₁_or, hx, UInt8.ofNat_toNat, reverse8_reverse8]

/-- `setRCODE` adds the bits of a response code. -/
theorem rcode_setRCODE (r : UInt16) :
    (setRCODE m r).rcode = m.rcode ||| (r.toUInt8 &&& 15) := by
  rw [rcode, rcode, flags₁_setRCODE, ← UInt8.toNat_inj]
  simp only [UInt8.toNat_and, UInt8.toNat_or, Nat.and_or_distrib_right]

theorem ra_setRCODE {r : UInt16} (hr : r.toUInt8.toNat < 16) : (setRCODE m r).ra = m.ra := by
  have hzero : r.toUInt8.toNat >>> 7 = 0 := by
    rw [Nat.shiftRight_eq_div_pow]
    omega
  have hor : (m.flags₁.toNat ||| r.toUInt8.toNat) >>> 7 = m.flags₁.toNat >>> 7 := by
    rw [Nat.shiftRight_or_distrib, hzero, Nat.or_zero]
  rw [ra, ra, flags₁_setRCODE, ← UInt8.toNat_inj, UInt8.toNat_shiftRight, UInt8.toNat_shiftRight,
    UInt8.toNat_or]
  exact hor

end Message

end DnsRelayer
