import DnsRelayer.Message.Encode

/-!
# Cached records: the struct `item` of `src/server.c`

An item is what the cache keeps under a key: up to `MAX_NUM` records of one type, with one name for
all of them. `addRR2Item` puts a record into an item, and `Item2Msg` puts the records of an item into
the answer section of a message. The clock is a parameter of both.

The array of a name is not terminated when a string fills it; reading a string off it faults then
(`terminated`). The strings of an item have room for a terminator.
-/

namespace DnsRelayer

/-- Size of the array of an item's name. -/
def STR_LEN : ℕ := 128

/-- Most records of an item. -/
def MAX_NUM : ℕ := 10

/-- Type of a record of an address of version 6. -/
def AAAA : UInt16 := 28

/-- The struct `item`: `name` is the array, which has no terminator when it is full. -/
structure Item where
  name : List UInt8
  type : UInt8
  num : ℕ
  ipv4 : List (List UInt8)
  strVal : List (List UInt8)
  ddl : ℤ
  deriving DecidableEq, Repr

/-- An item after `bzero`. -/
def zeroItem : Item :=
  ⟨[], 0, 0, List.replicate MAX_NUM [0, 0, 0, 0], List.replicate MAX_NUM [], 0⟩

/-- The string in an array of `STR_LEN` bytes. -/
def terminated (array : List UInt8) : Run (List UInt8) :=
  if array.length ≥ STR_LEN then .error .overrun else .ok array

/-- A number as an `uint32_t`. -/
def toUInt32 (x : ℤ) : UInt32 := UInt32.ofNat (x % 2 ^ 32).toNat

/-- `typename`, for the types that have one. -/
def typename (type : UInt16) : Option (List UInt8) :=
  if type = A then some [65]
  else if type = AAAA then some [65, 65, 65, 65]
  else if type = CNAME then some [67, 78, 65, 77, 69]
  else if type = NS then some [78, 83]
  else none

/-- `calcKey`: the key of a name and a type, the two with a colon between them. For an unknown type
`res` stays as it is. -/
def calcKey (name : List UInt8) (type : UInt16) : Option (List UInt8) :=
  (typename type).map fun t => name ++ 58 :: t

/-- The key that `getItem` and `putItem` use. They do not check that there is one. -/
def keyOf (name : List UInt8) (type : UInt16) : Run (List UInt8) :=
  match calcKey name type with
  | some key => .ok key
  | none => .error .uninit

/-- `Item2Msg`, at the time `now`: the records of an item go into the answer section. An item of the
address zero, which blocks its name, makes it a name error instead. -/
def Item2Msg (msg : Message) (it : Item) (name : List UInt8) (now : ℤ) : Message :=
  let rr := setRRName zeroRR name
  let rr := { rr with type := it.type.toUInt16, class_ := IN, TTL := toUInt32 (it.ddl - now) }
  if it.type.toUInt16 = A then
    if it.ipv4.head? = some [0, 0, 0, 0] then setRCODE msg NAME_ERR
    else (it.ipv4.take it.num).foldl (fun msg addr => (addRR msg (setRRData rr addr) .ANSWER).2) msg
  else (it.strVal.take it.num).foldl (fun msg s => (addRR msg (setRRNameData rr s) .ANSWER).2) msg

/-- `addRR2Item`, at the time `now`. It copies four bytes of an address, however many there are. -/
def addRR2Item (it : Item) (rr : RR) (now : ℤ) : Run Item :=
  let it :=
    { it with
      type := rr.type.toUInt8
      name := strncpy rr.name STR_LEN
      ddl := rr.TTL.toNat + now }
  if it.num ≥ MAX_NUM then .error .overrun
  else if it.type.toUInt16 = A then
    if rr.data.length < 4 then .error .overrun
    else .ok { it with ipv4 := it.ipv4.set it.num (rr.data.take 4), num := it.num + 1 }
  else .ok { it with
    strVal := it.strVal.set it.num (strncpy rr.string_data STR_LEN), num := it.num + 1 }

/-- A number of `inet_pton`: one to three digits, the first of several not zero, for at most 255. -/
def octet (s : List UInt8) : Option UInt8 :=
  let v := s.foldl (fun v c => v * 10 + (c.toNat - 48)) 0
  if 0 < s.length ∧ s.length ≤ 3 ∧ s.all (fun c => 48 ≤ c && c ≤ 57) ∧ (1 < s.length → s.head? ≠ some 48) ∧
      v ≤ 255 then some (UInt8.ofNat v)
  else none

/-- `inet_pton` for addresses of version 4: the four bytes of a dotted address, in network order. -/
def inet_pton (s : List UInt8) : Option (List UInt8) :=
  let parts := s.splitOn DOT
  if parts.length = 4 then parts.mapM octet else none

example : inet_pton [49, 48, 46, 48, 46, 50, 53, 53, 46, 55] = some [10, 0, 255, 7] := by decide

end DnsRelayer
