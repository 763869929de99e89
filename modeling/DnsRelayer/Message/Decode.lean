import DnsRelayer.Message.Types

/-!
# Decoding: `decodeName` and `decode` of `src/message/message.c`

The input is the bytes of the buffer that holds the datagram; a read past them faults. The functions
take and return positions in it instead of pointers.

`decodeName` and its loop call each other. The arrow from one label to the next, and from a pointer
to where it points, may go round in a circle, so the two take fuel, one unit for each turn of the
loop and each call: running out of it is the fault of a call that does not return. The turns that
copy the bytes of one label are the read of that many bytes, which a length byte bounds. `decode`
gives `decodeName` as much fuel as it can use (`decodeName_nameFuel`).

`decode` returns the message and the position where it stops reading. The array of a name has
`MAX_LEN` bytes, and nothing stops `decodeName` from writing past it: when the name is too long,
`decode` faults as soon as the name is read. It faults as well at the element after the last of an
array of `MAX_SIZE` questions or records.
-/

namespace DnsRelayer

/-- Read a byte. -/
def byteAt (buf : List UInt8) (i : ℕ) : Run UInt8 :=
  match buf[i]? with
  | some b => .ok b
  | none => .error (.outOfBounds i)

/-- Read `n` bytes. -/
def bytesAt (buf : List UInt8) (i n : ℕ) : Run (List UInt8) :=
  if i + n ≤ buf.length then .ok ((buf.drop i).take n) else .error (.outOfBounds (max i buf.length))

/-- `ntohs` of the number at a position. -/
def ntohsAt (buf : List UInt8) (i : ℕ) : Run UInt16 := do
  let b₁ ← byteAt buf i
  let b₀ ← byteAt buf (i + 1)
  return ntohs b₁ b₀

/-- `ntohl` of the number at a position. -/
def ntohlAt (buf : List UInt8) (i : ℕ) : Run UInt32 := do
  let b₃ ← byteAt buf i
  let b₂ ← byteAt buf (i + 1)
  let b₁ ← byteAt buf (i + 2)
  let b₀ ← byteAt buf (i + 3)
  return ntohl b₃ b₂ b₁ b₀

/-- `.`, which separates the labels of a name. -/
def DOT : UInt8 := 46

/-- The length bytes from here on start a pointer. -/
def POINTER : UInt8 := 0xc0

/-- Where a pointer points, from the start of the message. -/
def pointerTarget (hi lo : UInt8) : ℕ := (hi &&& 0x3f).toNat * 256 + lo.toNat

mutual

/-- `decodeName`: the bytes of the name at `buff`, without a terminator, and the position after
it. -/
def decodeName (buf : List UInt8) (origin : ℕ) : ℕ → ℕ → Run (List UInt8 × ℕ)
  | 0, _ => .error .diverges
  | fuel + 1, buff => do
    let num ← byteAt buf buff
    if num = 0 then return ([], buff + 1)
    else nameLoop buf origin fuel buff []

/-- The loop of `decodeName`, when `p = num + 1`: `name` is what is written so far. -/
def nameLoop (buf : List UInt8) (origin : ℕ) : ℕ → ℕ → List UInt8 → Run (List UInt8 × ℕ)
  | 0, _, _ => .error .diverges
  | fuel + 1, num, name => do
    let len ← byteAt buf num
    -- The last dot is overwritten by the terminator.
    if len = 0 then return (name.dropLast, num + 1)
    else if len ≥ POINTER then do
      let lo ← byteAt buf (num + 1)
      let (rest, _) ← decodeName buf origin fuel (origin + pointerTarget len lo)
      return (name ++ rest, num + 2)
    else do
      let label ← bytesAt buf (num + 1) len.toNat
      nameLoop buf origin fuel (num + 1 + len.toNat) (name ++ label ++ [DOT])

end

/-- Fuel for `decodeName`: it can stop at each position once, and takes two units there. -/
def nameFuel (buf : List UInt8) : ℕ := 2 * buf.length + 2

/-- A call of `decodeName` in `decode`, whose third argument is an array of `MAX_LEN` bytes. -/
def decodeField (buf : List UInt8) (pos : ℕ) : Run (List UInt8 × ℕ) := do
  let (name, pos) ← decodeName buf 0 (nameFuel buf) pos
  if name.length ≥ MAX_LEN then throw .overrun
  return (cstr name, pos)

/-- The part of `decode` that reads a question. -/
def decodeQues (buf : List UInt8) (pos : ℕ) : Run (Question × ℕ) := do
  let (q_name, pos) ← decodeField buf pos
  let q_type ← ntohsAt buf pos
  let q_class ← ntohsAt buf (pos + 2)
  return (⟨q_name, q_type, q_class⟩, pos + 4)

/-- The part of `decode` that reads a resource record. -/
def decodeRR (buf : List UInt8) (pos : ℕ) : Run (RR × ℕ) := do
  let (name, pos) ← decodeField buf pos
  let type ← ntohsAt buf pos
  let class_ ← ntohsAt buf (pos + 2)
  let TTL ← ntohlAt buf (pos + 4)
  let data_length ← ntohsAt buf (pos + 8)
  let offset := data_length.toNat
  if type = CNAME ∨ type = NS then do
    let (string_data, _) ← decodeField buf (pos + 10)
    return (⟨name, type, class_, TTL, data_length, [], .STRING_TYPE, string_data⟩,
      pos + 10 + offset)
  else do
    let data ← bytesAt buf (pos + 10) data_length.toNat
    return (⟨name, type, class_, TTL, data_length, data, .BINARY_TYPE, []⟩, pos + 10 + offset)

/-- A loop of `decode` over an array of `MAX_SIZE` elements, with `count` turns from the `i`-th
on. -/
def decodeArray {α : Type} (item : ℕ → Run (α × ℕ)) : ℕ → ℕ → ℕ → Run (List α × ℕ)
  | 0, _, pos => .ok ([], pos)
  | count + 1, i, pos =>
    if i ≥ MAX_SIZE then .error .overrun
    else do
      let (x, pos) ← item pos
      let (xs, pos) ← decodeArray item count (i + 1) pos
      return (x :: xs, pos)

/-- `decode`: the message, and the position where it stops reading. -/
def decode (buf : List UInt8) : Run (Message × ℕ) := do
  let ID ← ntohsAt buf 0
  let b₀ ← byteAt buf 2
  let b₁ ← byteAt buf 3
  let q_count ← ntohsAt buf 4
  let n₀ ← ntohsAt buf 6
  let n₁ ← ntohsAt buf 8
  let n₂ ← ntohsAt buf 10
  let (ques, pos) ← decodeArray (decodeQues buf) q_count.toNat 0 12
  let (rr₀, pos) ← decodeArray (decodeRR buf) n₀.toNat 0 pos
  let (rr₁, pos) ← decodeArray (decodeRR buf) n₁.toNat 0 pos
  let (rr₂, pos) ← decodeArray (decodeRR buf) n₂.toNat 0 pos
  return (⟨ID, flagOfBytes b₀ b₁, q_count, ⟨n₀, n₁, n₂⟩, ques, ⟨rr₀, rr₁, rr₂⟩⟩, pos)

end DnsRelayer
