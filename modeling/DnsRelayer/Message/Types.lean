import DnsRelayer.Basic

/-!
# DNS messages of `src/message/message.c`

The structs of `src/include/message.h` and the functions that change them. A name is a `char` array;
the field holds the C string in it. The array of an enumeration (`RR_count`, `resourse_record`, both
indexed by `ANSWER`, `AUTHORITY` and `ADDITIONAL`) is a record of its three elements.

A number on the wire is big-endian: `htons` and `htonl` give the bytes to write, `ntohs` and `ntohl`
the number read. A flag word holds the two flag bytes of the wire, each with its bits reversed.
-/

namespace DnsRelayer

/-! ## Constants of `message.h` -/

/-- Size of the array of a name. -/
def MAX_LEN : ℕ := 256

/-- Size of the arrays of questions and of resource records. -/
def MAX_SIZE : ℕ := 32

/-- Type of an address record. -/
def A : UInt16 := 1

/-- Type of a record that names an authoritative server. -/
def NS : UInt16 := 2

/-- Type of a record that names the canonical name of an alias. -/
def CNAME : UInt16 := 5

/-- Class of the internet. -/
def IN : UInt16 := 1

/-- OPCODE of a request for the status of a server. -/
def STATUS : UInt16 := 2

/-- RCODE of a server that failed. -/
def SERVER_FAILURE : UInt16 := 2

/-- RCODE of a name that does not exist. -/
def NAME_ERR : UInt16 := 3

/-- Flag `Authoritative Answer`. -/
def AA : UInt16 := 5

/-- Flag `TrunCation`. -/
def TC : UInt16 := 6

/-- Flag `Recursion Desired`. -/
def RD : UInt16 := 7

/-- Flag `Recursion Available`. -/
def RA : UInt16 := 8

/-- Flag for data that the server has verified. -/
def AD : UInt16 := 10

/-- Flag for data that is not to be verified. -/
def CD : UInt16 := 11

/-! ## Structs -/

/-- Whether the data of a record is a name or bytes. -/
inductive DataType where
  | STRING_TYPE
  | BINARY_TYPE
  deriving DecidableEq, Repr

/-- The struct `question`. -/
structure Question where
  q_name : List UInt8
  q_type : UInt16
  q_class : UInt16
  deriving DecidableEq, Repr

/-- The struct `RR`. Only one of `data` and `string_data` is set, as `data_type` says; the other is
the empty list here. -/
structure RR where
  name : List UInt8
  type : UInt16
  class_ : UInt16
  TTL : UInt32
  data_length : UInt16
  data : List UInt8
  data_type : DataType
  string_data : List UInt8
  deriving DecidableEq, Repr

/-- An array indexed by `ANSWER`, `AUTHORITY`, `ADDITIONAL`. -/
structure Sections (α : Type) where
  ANSWER : α
  AUTHORITY : α
  ADDITIONAL : α
  deriving DecidableEq, Repr

/-- The struct `message`. -/
structure Message where
  ID : UInt16
  flag : UInt16
  q_count : UInt16
  RR_count : Sections UInt16
  ques : List Question
  resourse_record : Sections (List RR)
  deriving DecidableEq, Repr

/-! ## Numbers on the wire -/

/-- The two bytes of a number, the high one first. -/
def htons (x : UInt16) : List UInt8 := [UInt8.ofNat (x.toNat / 256), UInt8.ofNat (x.toNat % 256)]

/-- The number of two bytes, the high one first. -/
def ntohs (b₁ b₀ : UInt8) : UInt16 := UInt16.ofNat (b₁.toNat * 256 + b₀.toNat)

/-- The four bytes of a number, the highest first. -/
def htonl (x : UInt32) : List UInt8 :=
  [UInt8.ofNat (x.toNat / 256 ^ 3), UInt8.ofNat (x.toNat / 256 ^ 2 % 256),
    UInt8.ofNat (x.toNat / 256 % 256), UInt8.ofNat (x.toNat % 256)]

/-- The number of four bytes, the highest first. -/
def ntohl (b₃ b₂ b₁ b₀ : UInt8) : UInt32 :=
  UInt32.ofNat (((b₃.toNat * 256 + b₂.toNat) * 256 + b₁.toNat) * 256 + b₀.toNat)

/-- `reverse8`: the bits of a byte in reverse order. -/
def reverse8 (b : UInt8) : UInt8 :=
  let b := (b &&& 0x55) <<< 1 ||| (b &&& 0xAA) >>> 1
  let b := (b &&& 0x33) <<< 2 ||| (b &&& 0xCC) >>> 2
  (b &&& 0x0F) <<< 4 ||| (b &&& 0xF0) >>> 4

/-- The two flag bytes of a flag word. -/
def flagBytes (flag : UInt16) : List UInt8 :=
  [reverse8 (UInt8.ofNat (flag.toNat % 256)), reverse8 (UInt8.ofNat (flag.toNat / 256))]

/-- The flag word of two flag bytes. -/
def flagOfBytes (b₀ b₁ : UInt8) : UInt16 :=
  UInt16.ofNat ((reverse8 b₁).toNat * 256 + (reverse8 b₀).toNat)

@[simp]
theorem length_htons (x : UInt16) : (htons x).length = 2 := rfl

@[simp]
theorem length_htonl (x : UInt32) : (htonl x).length = 4 := rfl

@[simp]
theorem length_flagBytes (flag : UInt16) : (flagBytes flag).length = 2 := rfl

/-- Reading the bytes of a number gives it back. -/
theorem ntohs_htons (x : UInt16) :
    ntohs (UInt8.ofNat (x.toNat / 256)) (UInt8.ofNat (x.toNat % 256)) = x := by
  have hx := x.toNat_lt
  rw [← UInt16.toNat_inj]
  simp only [ntohs, UInt16.toNat_ofNat', UInt8.toNat_ofNat']
  omega

theorem ntohl_htonl (x : UInt32) :
    ntohl (UInt8.ofNat (x.toNat / 256 ^ 3)) (UInt8.ofNat (x.toNat / 256 ^ 2 % 256))
      (UInt8.ofNat (x.toNat / 256 % 256)) (UInt8.ofNat (x.toNat % 256)) = x := by
  have hx := x.toNat_lt
  rw [← UInt32.toNat_inj]
  simp only [ntohl, UInt32.toNat_ofNat', UInt8.toNat_ofNat']
  omega

/-- Writing a number that was read gives its bytes back. -/
theorem htons_ntohs (b₁ b₀ : UInt8) : htons (ntohs b₁ b₀) = [b₁, b₀] := by
  have h₁ := b₁.toNat_lt
  have h₀ := b₀.toNat_lt
  have hval : (ntohs b₁ b₀).toNat = b₁.toNat * 256 + b₀.toNat := by
    simp only [ntohs, UInt16.toNat_ofNat']
    omega
  rw [htons, hval, show (b₁.toNat * 256 + b₀.toNat) / 256 = b₁.toNat by omega,
    show (b₁.toNat * 256 + b₀.toNat) % 256 = b₀.toNat by omega]
  simp

/-- What holds of the 256 bytes holds of every byte. -/
theorem forall_byte {p : UInt8 → Prop} (h : ∀ n < 256, p (UInt8.ofNat n)) (b : UInt8) : p b := by
  have := h b.toNat b.toNat_lt
  rwa [UInt8.ofNat_toNat] at this

/-- Reversing the bits twice gives the byte back. -/
theorem reverse8_reverse8 (b : UInt8) : reverse8 (reverse8 b) = b :=
  @forall_byte (fun b => reverse8 (reverse8 b) = b) (by decide +kernel) b

/-- Reading the flag bytes of a flag word gives it back. -/
theorem flagOfBytes_flagBytes (flag : UInt16) :
    flagOfBytes (reverse8 (UInt8.ofNat (flag.toNat % 256)))
      (reverse8 (UInt8.ofNat (flag.toNat / 256))) = flag := by
  have hf := flag.toNat_lt
  rw [← UInt16.toNat_inj]
  simp only [flagOfBytes, reverse8_reverse8, UInt16.toNat_ofNat', UInt8.toNat_ofNat']
  omega

/-! ## Changing a message -/

/-- `newMsg`: a message of zeros. -/
def newMsg : Message := ⟨0, 0, 0, ⟨0, 0, 0⟩, [], ⟨[], [], []⟩⟩

/-- `setQuery`: the message is a query. -/
def setQuery (msg : Message) : Message := { msg with flag := msg.flag &&& ~~~1 }

/-- `setResp`: the message is a response. -/
def setResp (msg : Message) : Message := { msg with flag := msg.flag ||| 1 }

/-- `setOpcode`: put in the bits of an OPCODE. -/
def setOpcode (msg : Message) (op : UInt16) : Message :=
  { msg with flag := msg.flag &&& ~~~((0xf : UInt16) <<< 1) ||| op <<< 1 }

/-- `setFlag`: set a flag. The `int` `1 << b` is cut to 16 bits. -/
def setFlag (msg : Message) (b : UInt16) : Message :=
  { msg with flag := msg.flag ||| UInt16.ofNat (1 <<< b.toNat) }

/-- `setRCODE`: set the bits of an RCODE. -/
def setRCODE (msg : Message) (rcode : UInt16) : Message :=
  { msg with flag := msg.flag ||| (reverse8 rcode.toUInt8).toUInt16 <<< 8 }

/-- A section of records, as an argument of `addRR`. -/
inductive RRSection where
  | ANSWER
  | AUTHORITY
  | ADDITIONAL
  deriving DecidableEq, Repr

namespace Sections

variable {α : Type}

/-- The value of a section. -/
def get (s : Sections α) : RRSection → α
  | .ANSWER => s.ANSWER
  | .AUTHORITY => s.AUTHORITY
  | .ADDITIONAL => s.ADDITIONAL

/-- The value of a section is another one. -/
def set (s : Sections α) (a : α) : RRSection → Sections α
  | .ANSWER => { s with ANSWER := a }
  | .AUTHORITY => { s with AUTHORITY := a }
  | .ADDITIONAL => { s with ADDITIONAL := a }

@[simp]
theorem get_set (s : Sections α) (a : α) (t u : RRSection) :
    (s.set a t).get u = if u = t then a else s.get u := by
  cases t <;> cases u <;> rfl

end Sections

/-- `addRR`: a record goes to the end of a section, unless there are as many as fit. -/
def addRR (msg : Message) (q : RR) (type : RRSection) : ℤ × Message :=
  if (msg.RR_count.get type).toNat ≥ MAX_SIZE then (0, msg)
  else (1, { msg with
    RR_count := msg.RR_count.set (msg.RR_count.get type + 1) type
    resourse_record := msg.resourse_record.set (msg.resourse_record.get type ++ [q]) type })

/-- A message whose answer section is full stays as it is. -/
theorem addRR_of_full {msg : Message} (h : msg.RR_count.ANSWER.toNat ≥ MAX_SIZE) (q : RR) :
    (addRR msg q .ANSWER).2 = msg := by
  rw [addRR, if_pos (show (msg.RR_count.get .ANSWER).toNat ≥ MAX_SIZE from h)]

/-- A record goes to the end of an answer section that has room. -/
theorem addRR_of_room {msg : Message} (h : ¬ msg.RR_count.ANSWER.toNat ≥ MAX_SIZE) (q : RR) :
    (addRR msg q .ANSWER).2 = { msg with
      RR_count := { msg.RR_count with ANSWER := msg.RR_count.ANSWER + 1 }
      resourse_record :=
        { msg.resourse_record with ANSWER := msg.resourse_record.ANSWER ++ [q] } } := by
  rw [addRR, if_neg (show ¬ (msg.RR_count.get .ANSWER).toNat ≥ MAX_SIZE from h)]
  rfl

/-- `releaseAdditionalRR`: empty the section `ADDITIONAL`. -/
def releaseAdditionalRR (msg : Message) : Message :=
  { msg with
    RR_count := { msg.RR_count with ADDITIONAL := 0 }
    resourse_record := { msg.resourse_record with ADDITIONAL := [] } }

/-- A record after `bzero`. -/
def zeroRR : RR := ⟨[], 0, 0, 0, 0, [], .STRING_TYPE, []⟩

/-- `setRRName`. -/
def setRRName (rr : RR) (s : List UInt8) : RR := { rr with name := strncpy s MAX_LEN }

/-- `setRRNameData`: the data is a name. -/
def setRRNameData (rr : RR) (name : List UInt8) : RR :=
  { rr with data := [], data_type := .STRING_TYPE, string_data := strncpy name MAX_LEN }

/-- `setRRData`: the data is bytes. -/
def setRRData (rr : RR) (data : List UInt8) : RR :=
  { rr with data_length := UInt16.ofNat data.length, data := data, data_type := .BINARY_TYPE }

end DnsRelayer
