import DnsRelayer.Cache.Hash
import DnsRelayer.Cache.LinkList
import DnsRelayer.Lib.Lru

/-!
# The cache of `src/cache/cache.c`

A hash table of pointers into a doubly linked list, with the number of list nodes. `CachePut` and
`CacheGet` read the clock once, which is their parameter `now`, and hold the lock around the whole
body, but for `CacheGet`: it finds the node under the write lock (`cacheGetLocked`), releases it,
and copies the node's data under the read lock (`cacheGetCopy`). `cacheGet` is the two in sequence.

The data is a value of any type: copying it in and out, with `memcpy` or with the `copy` function of
the cache, gives the value back, and freeing it gives nothing to see. What `malloc` returns is never
`NULL`.
-/

namespace DnsRelayer

open Lib

/-- Most bytes of a key that a list node keeps, before its terminator. -/
def SAVE_UNIT_KEY_MAX_LEN : ℕ := 50

/-- What a node of the linked list holds. -/
structure SaveUnit (α : Type) where
  key : List UInt8
  saveTime : ℤ
  TTL : ℤ
  data : α
  deriving DecidableEq, Repr

/-- The cache: the hash table of list nodes, the list and the memory of its nodes, the number of
entries, and how many it may have. -/
structure Cache (α : Type) where
  hTab : HashTab ℕ
  lList : LinkList
  heap : LinkHeap (SaveUnit α)
  len : ℤ
  maxSize : ℤ

variable {α : Type}

/-- `CreateCache`. -/
def createCache (maxSize : ℤ) : Cache α :=
  let (lList, heap) := newLinkList emptyHeap
  ⟨newHashTab, lList, heap, 0, maxSize⟩

/-- Remove a node from the list and put it in front, as `CachePut` does after an update and
`CacheGet` after a hit. -/
def moveToHead (c : Cache α) (lkn : ℕ) : Run (Cache α) := do
  let heap ← removeFromLinkList c.heap lkn
  let heap ← putInHead heap c.lList lkn
  return { c with heap := heap }

/-- Remove a node from the table and from the list, and free it, as `CachePut` does with the last
node to make room and `CacheGet` with an expired one. -/
def discard (c : Cache α) (lkn : ℕ) : Run (Cache α) := do
  let ui ← c.heap.getData lkn
  let hTab ← delete c.hTab ui.key
  let heap ← removeFromLinkList c.heap lkn
  let heap ← freeLinkNode heap lkn
  return { c with hTab := hTab, heap := heap, len := c.len - 1 }

/-- Remove the last node of the list, as `CachePut` does to make room. -/
def evictLast (c : Cache α) : Run (Cache α) := do
  let lkn ← getLastLinkNode c.heap c.lList
  discard c lkn

/-- The end of `CachePut`: a new node goes in front of the list, and its address into the table. -/
def addNode (c : Cache α) (key : List UInt8) (data : α) (TTL now : ℤ) : Run (Cache α) := do
  let ui : SaveUnit α :=
    { key := strncpy key (SAVE_UNIT_KEY_MAX_LEN + 1), saveTime := now, TTL := TTL, data := data }
  let (nod, heap) := newLinkNode c.heap ui
  let heap ← putInHead heap c.lList nod
  let hTab ← insert c.hTab key nod
  return { c with hTab := hTab, heap := heap, len := c.len + 1 }

/-- `CachePut`. -/
def cachePut (c : Cache α) (key : List UInt8) (data : α) (TTL now : ℤ) : Run (Cache α) := do
  match ← search c.hTab key with
  | some lkn =>
    -- The key is there: update it.
    let pui ← c.heap.getData lkn
    let heap ← c.heap.setData lkn { pui with data := data, saveTime := now, TTL := TTL }
    moveToHead { c with heap := heap } lkn
  | none =>
    let c ← if c.len ≥ c.maxSize then evictLast c else pure c
    addNode c key data TTL now

/-- The section of `CacheGet` under the write lock: the node to copy from, if there is one. -/
def cacheGetLocked (c : Cache α) (key : List UInt8) (now : ℤ) : Run (Option ℕ × Cache α) := do
  match ← search c.hTab key with
  | none => return (none, c)
  | some lkn =>
    let ui ← c.heap.getData lkn
    if now - ui.saveTime > ui.TTL then return (none, ← discard c lkn)
    else return (some lkn, ← moveToHead c lkn)

/-- The section of `CacheGet` under the read lock. -/
def cacheGetCopy (c : Cache α) (lkn : ℕ) : Run α := do
  let ui ← c.heap.getData lkn
  return ui.data

/-- `CacheGet`, when nothing happens between its two sections. -/
def cacheGet (c : Cache α) (key : List UInt8) (now : ℤ) : Run (Option α × Cache α) := do
  match ← cacheGetLocked c key now with
  | (none, c) => return (none, c)
  | (some lkn, c) => return (some (← cacheGetCopy c lkn), c)

/-- A sequence of calls: what the calls of `CacheGet` return, in order, and the cache at the
end. -/
def cacheRun : List (Use (List UInt8) α) → Cache α → Run (List (Option α) × Cache α)
  | [], c => return ([], c)
  | .put key data TTL now :: uses, c => do
    let c ← cachePut c key data TTL now
    cacheRun uses c
  | .get key now :: uses, c => do
    let (r, c) ← cacheGet c key now
    let (rs, c) ← cacheRun uses c
    return (r :: rs, c)

end DnsRelayer
