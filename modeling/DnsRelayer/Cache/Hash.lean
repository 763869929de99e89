import DnsRelayer.Basic

/-!
# The hash table of `src/cache/hash.c`

A table is an array of chains of nodes, with a count of the elements. The functions follow the
source: `insert` overwrites the first node of the name's chain that has the name, or puts a new node
in front of the chain; `delete` removes the first node that has the name. After either, a load test
may move every node to a table of twice or half the size (`rescale`).

Two bounds of the C types are part of the model. A node keeps at most `HASH_KEY_MAX_LEN` bytes of
its name, and the byte after a name of that length reads as `NUL`. The count `num` and the size are
`unsigned int`, so that `num--` on `0`, `len * 2` and `len << 1` wrap at `2^32`. The size of the
table is the length of its array.
-/

namespace DnsRelayer

/-- Most bytes that a node keeps of its key. -/
def HASH_KEY_MAX_LEN : ℕ := 50

/-- Number of chains of a new table. -/
def INIT_SIZE : ℕ := 1024

/-- The number of values of an `unsigned int`. -/
def UINT_MOD : ℕ := 2 ^ 32

/-- A node of a chain: its key, as stored, and its value. -/
structure Node (α : Type) where
  name : List UInt8
  data : α
  deriving DecidableEq, Repr

/-- A hash table: the array of chains and the number of elements. -/
structure HashTab (α : Type) where
  h : List (List (Node α))
  num : ℕ
  deriving DecidableEq, Repr

variable {α : Type}

/-- Number of chains. -/
def HashTab.len (ht : HashTab α) : ℕ := ht.h.length

/-- `NewHashTab`. -/
def newHashTab : HashTab α := ⟨List.replicate INIT_SIZE [], 0⟩

/-- `newNode`: the node for a new key. -/
def newNode (name : List UInt8) (data : α) : Node α := ⟨strncpy name HASH_KEY_MAX_LEN, data⟩

/-- A `char` of the source's platform, which is signed, converted to `unsigned int`. -/
def ucharToUint (c : UInt8) : ℕ := if c.toNat < 128 then c.toNat else c.toNat + (UINT_MOD - 256)

/-- `hash`: the sum of the characters of the name, each times 39. -/
def hash (name : List UInt8) : ℕ :=
  name.foldl (fun res c => (res + ucharToUint c * 39) % UINT_MOD) 0

/-- The step of `rescale`: put a node in front of its chain in the new array. -/
def relink (size : ℕ) (h : List (List (Node α))) (t : Node α) : Run (List (List (Node α))) :=
  if size = 0 then .error .divByZero
  else .ok (h.modify (hash t.name % size) (t :: ·))

/-- `rescale`: move every node, chain by chain, to an array of `size` chains. -/
def rescale (ht : HashTab α) (size : ℕ) : Run (HashTab α) := do
  let h ← ht.h.flatten.foldlM (relink size) (List.replicate size [])
  return { ht with h := h }

/-- The loop of `insert` over the chain: overwrite the first node with this name, if there is
one. -/
def overwrite (name : List UInt8) (data : α) : List (Node α) → Option (List (Node α))
  | [] => none
  | tmp :: rest =>
    if tmp.name = name then some ({ tmp with data := data } :: rest)
    else (overwrite name data rest).map (tmp :: ·)

/-- `insert`: set the value of a name. -/
def insert (ht : HashTab α) (name : List UInt8) (data : α) : Run (HashTab α) :=
  if ht.len = 0 then .error .divByZero
  else
    let ha := hash name % ht.len
    match overwrite name data (ht.h.getD ha []) with
    | some chain => .ok { ht with h := ht.h.set ha chain }
    | none =>
      let ht : HashTab α :=
        { h := ht.h.modify ha (newNode name data :: ·), num := (ht.num + 1) % UINT_MOD }
      if ht.num ≥ ht.len * 2 % UINT_MOD then rescale ht (ht.len * 2 % UINT_MOD) else .ok ht

/-- `search`: the value of a name, if it has one. -/
def search (ht : HashTab α) (name : List UInt8) : Run (Option α) :=
  if ht.len = 0 then .error .divByZero
  else
    let hs := hash name % ht.len
    .ok (((ht.h.getD hs []).find? (·.name = name)).map (·.data))

/-- `deleteNode`: the chain without its first node of this name. -/
def deleteNode (head : List (Node α)) (name : List UInt8) : List (Node α) :=
  head.eraseP (·.name = name)

/-- `delete`: remove a name. The count goes down whether or not a node was found. -/
def delete (ht : HashTab α) (name : List UInt8) : Run (HashTab α) :=
  if ht.len = 0 then .error .divByZero
  else
    let hs := hash name % ht.len
    let ht : HashTab α :=
      { h := ht.h.modify hs (deleteNode · name), num := (ht.num + (UINT_MOD - 1)) % UINT_MOD }
    if ht.num * 2 % UINT_MOD < ht.len then rescale ht (ht.len / 2) else .ok ht

end DnsRelayer
