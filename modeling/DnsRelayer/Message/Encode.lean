import DnsRelayer.Message.Decode
import DnsRelayer.Cache.HashSpec

/-!
# Encoding: `encodeName` and `encode` of `src/message/message.c`

Each function returns the bytes that it writes, which come one after the other in the buffer, and
takes the offset from the start of the message where they begin. The length byte of a label is
written after the label; here it is put in front of it when it is known.

The hash table maps the names written so far, and their tails from each label on, to the offsets
where they start. A name is written label by label up to the first tail that the table has, and a
pointer to that takes its place.

`encode` also stores the length of the data that it wrote for a name in the record's `data_length`,
which no caller reads afterwards. Nothing bounds what it writes: the callers' buffer has to be large
enough.
-/

namespace DnsRelayer

/-- The size of the callers' buffer for a message. -/
def BUFF_SIZE : ℕ := 1024

/-- `getPos`: the two bytes of a pointer to a name that was written before, else `0`. -/
def getPos (name : List UInt8) (ht : HashTab UInt16) : Run UInt16 := do
  match ← search ht name with
  | some p => return 0xc000 ||| p
  | none => return 0

/-- The loop of `encodeName` at the rest of the name. The current label starts at the offset `num`,
`label` is what is written of it and `cnt` its length; `out` is what is written before it, and the
tail of the name from the label on is `last_name`. -/
def encodeLoop (ht : HashTab UInt16) (num : ℕ) (last_name out label : List UInt8) (cnt : UInt8) :
    List UInt8 → Run (List UInt8 × HashTab UInt16)
  | [] => do
    let ht ← insert ht last_name (UInt16.ofNat num)
    return (out ++ (cnt :: label ++ [0]), ht)
  | c :: name =>
    if c = DOT then do
      let ht ← insert ht last_name (UInt16.ofNat num)
      let pos ← getPos name ht
      if pos ≠ 0 then return (out ++ (cnt :: label ++ htons pos), ht)
      else encodeLoop ht (num + 1 + label.length) name (out ++ cnt :: label) [] 0 name
    else encodeLoop ht num last_name out (label ++ [c]) (cnt + 1) name

/-- `encodeName`, at the offset `buff`. -/
def encodeName (name : List UInt8) (buff : ℕ) (ht : HashTab UInt16) :
    Run (List UInt8 × HashTab UInt16) := do
  let pos ← getPos name ht
  if pos ≠ 0 then return (htons pos, ht)
  else encodeLoop ht buff name [] [] 0 name

/-- `encodeQues`. -/
def encodeQues (ques : Question) (buff : ℕ) (ht : HashTab UInt16) :
    Run (List UInt8 × HashTab UInt16) := do
  let (n, ht) ← encodeName ques.q_name buff ht
  return (n ++ (htons ques.q_type ++ htons ques.q_class), ht)

/-- `encodeRR`. The data of a record is an array of its own, which `memcpy` must not read past. -/
def encodeRR (rr : RR) (buff : ℕ) (ht : HashTab UInt16) :
    Run (List UInt8 × HashTab UInt16) := do
  let (n, ht) ← encodeName rr.name buff ht
  let t := n ++ (htons rr.type ++ (htons rr.class_ ++ htonl rr.TTL))
  match rr.data_type with
  | .BINARY_TYPE =>
    if rr.data.length < rr.data_length.toNat then throw .overrun
    return (t ++ (htons rr.data_length ++ rr.data.take rr.data_length.toNat), ht)
  | .STRING_TYPE => do
    let (s, ht) ← encodeName rr.string_data (buff + t.length + 2) ht
    return (t ++ (htons (UInt16.ofNat s.length) ++ s), ht)

/-- A loop of `encode` over the first `count` elements of an array. -/
def encodeArray {α : Type} (item : α → ℕ → HashTab UInt16 → Run (List UInt8 × HashTab UInt16)) :
    ℕ → List α → ℕ → HashTab UInt16 → Run (List UInt8 × HashTab UInt16)
  | 0, _, _, ht => .ok ([], ht)
  | _ + 1, [], _, _ => .error .badPointer
  | count + 1, x :: xs, p, ht => do
    let (bs, ht) ← item x p ht
    let (rest, ht) ← encodeArray item count xs (p + bs.length) ht
    return (bs ++ rest, ht)

/-- `encodeHeader`. -/
def encodeHeader (msg : Message) : List UInt8 :=
  htons msg.ID ++ (flagBytes msg.flag ++ (htons msg.q_count ++ (htons msg.RR_count.ANSWER ++
    (htons msg.RR_count.AUTHORITY ++ htons msg.RR_count.ADDITIONAL))))

/-- `encode`. -/
def encode (msg : Message) : Run (List UInt8) := do
  let header := encodeHeader msg
  let p := header.length
  let (ques, ht) ← encodeArray encodeQues msg.q_count.toNat msg.ques p newHashTab
  let p := p + ques.length
  let (rr₀, ht) ←
    encodeArray encodeRR msg.RR_count.ANSWER.toNat msg.resourse_record.ANSWER p ht
  let p := p + rr₀.length
  let (rr₁, ht) ←
    encodeArray encodeRR msg.RR_count.AUTHORITY.toNat msg.resourse_record.AUTHORITY p ht
  let p := p + rr₁.length
  let (rr₂, _) ←
    encodeArray encodeRR msg.RR_count.ADDITIONAL.toNat msg.resourse_record.ADDITIONAL p ht
  return header ++ (ques ++ (rr₀ ++ (rr₁ ++ rr₂)))

end DnsRelayer
