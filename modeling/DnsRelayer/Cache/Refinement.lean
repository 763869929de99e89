import DnsRelayer.Cache.HashSpec
import DnsRelayer.Cache.Cache
import Mathlib.Data.Int.Order.Basic

/-!
# The cache refines the reference map

`Cache.Rep c ps` says that the cache `c` holds the entries of `ps`, each at its list node, the most
recently used first: the linked list visits the nodes in this order, the hash table has exactly one
node for each, and the counts agree. Each part of `CachePut` and `CacheGet` takes such a cache to
another: moving a node to the front (`moveToHead_spec`), discarding one (`discard_spec`), and adding
one (`addNode_spec`). So each call does to the entries what the reference map of `Lib/Lru.lean` does
(`cachePut_spec`, `cacheGet_spec`), and `cacheRun_refines` follows by induction on the calls.

The one way a call can fail is by a hash table without chains, which `delete` can leave behind:
the calls below fault with a division by zero or do as the reference does.
-/

namespace DnsRelayer

open Lib

variable {α : Type}

/-- What the list node of an entry holds. -/
def SaveUnit.of (e : Entry (List UInt8) α) : SaveUnit α := ⟨e.key, e.saveTime, e.TTL, e.value⟩

/-- The node of the hash table for an entry at a list node. -/
def tableNode (p : ℕ × Entry (List UInt8) α) : Node ℕ := ⟨p.2.key, p.1⟩

/-- The cache holds the entries of `ps`, each at its list node, in the order of the list. -/
structure Cache.Rep (c : Cache α) (ps : List (ℕ × Entry (List UInt8) α)) : Prop where
  /-- The linked list visits the nodes in order. -/
  list : HoldsList c.heap c.lList (ps.map (·.1))
  /-- Each node holds its entry. -/
  data : ∀ p ∈ ps, c.heap.data p.1 = some (some (SaveUnit.of p.2))
  /-- No key has two entries. -/
  keys : (ps.map (·.2.key)).Nodup
  /-- Every key is kept whole. -/
  short : ∀ p ∈ ps, Fits p.2.key
  /-- The hash table has one node for each entry, with its key and the address of its list node. -/
  table : c.hTab.entries.Perm (ps.map tableNode)
  /-- Each node of the hash table is in the chain of its key. -/
  placed : c.hTab.Placed Fits
  /-- The hash table counts its nodes. -/
  num : c.hTab.num = ps.length
  /-- The cache counts its entries. -/
  len : c.len = ps.length
  /-- There are at most `maxSize` entries. -/
  bound : (ps.length : ℤ) ≤ c.maxSize
  /-- `maxSize` is an `int`. -/
  maxSize_lt : c.maxSize < 2 ^ 31
  /-- The hash table was not grown beyond need. -/
  size : c.hTab.len ≤ max INIT_SIZE c.maxSize.toNat
  /-- Memory in use was allocated. -/
  allocated : c.heap.Allocated

namespace Cache.Rep

variable {c : Cache α} {ps : List (ℕ × Entry (List UInt8) α)}

/-- The keys are indexed. -/
theorem indexed (h : c.Rep ps) : c.hTab.Indexed Fits := by
  refine ⟨h.placed, fun k _ => ?_⟩
  have hperm := (h.table.filter (·.name = k)).length_eq
  rw [hperm, ← List.countP_eq_length_filter, List.countP_map]
  have hcount : (ps.map (·.2.key)).count k ≤ 1 := List.nodup_iff_count_le_one.mp h.keys k
  rw [List.count, List.countP_map] at hcount
  refine le_trans (le_of_eq (List.countP_congr ?_)) hcount
  intro p _
  simp only [Function.comp, tableNode, beq_iff_eq]
  exact decide_eq_true_iff

/-- `search` finds the list node of an entry under its key. -/
theorem search_of_mem (h : c.Rep ps) (hlen : 0 < c.hTab.len) {p : ℕ × Entry (List UInt8) α}
    (hp : p ∈ ps) : search c.hTab p.2.key = .ok (some p.1) := by
  have hk := h.short p hp
  rw [HashTab.search_of_placed hlen h.placed hk, HashTab.lookup,
    find?_perm h.table (h.indexed.unique _ hk)]
  have hmem : tableNode p ∈ ps.map tableNode := List.mem_map_of_mem hp
  have hsome : ((ps.map tableNode).find? (·.name = p.2.key)).isSome := by
    rw [List.find?_isSome]
    exact ⟨tableNode p, hmem, decide_eq_true rfl⟩
  obtain ⟨n, hn⟩ := Option.isSome_iff_exists.mp hsome
  have hname : n.name = p.2.key := by simpa using List.find?_some hn
  obtain ⟨q, hq, rfl⟩ := List.mem_map.mp (List.mem_of_find?_eq_some hn)
  -- Entries with one key are one entry.
  have hqp : q = p := List.inj_on_of_nodup_map h.keys hq hp hname
  rw [hn, hqp]
  rfl

/-- `search` finds nothing under a key, of any length, that no entry has. -/
theorem search_of_notMem (h : c.Rep ps) (hlen : 0 < c.hTab.len) {k : List UInt8}
    (hk : k ∉ ps.map (·.2.key)) : search c.hTab k = .ok none := by
  rw [HashTab.search_eq hlen]
  cases hf : (((c.hTab.chain k).find? (·.name = k)).map (·.data)) with
  | none => rfl
  | some a =>
    have hs : search c.hTab k = .ok (some a) := by rw [HashTab.search_eq hlen, hf]
    obtain ⟨n, hn, hnk, -⟩ := HashTab.exists_of_search hs
    obtain ⟨p, hp, rfl⟩ := List.mem_map.mp (h.table.mem_iff.mp hn)
    exact absurd (List.mem_map.mpr ⟨p, hp, hnk⟩) hk

/-- The table's size can still be doubled. -/
theorem size_lt (h : c.Rep ps) : c.hTab.len < 2 ^ 31 := by
  have h1 := h.size
  have h2 := h.maxSize_lt
  simp only [INIT_SIZE] at h1
  omega

/-- The content of the node of an entry. -/
theorem getData (h : c.Rep ps) {p : ℕ × Entry (List UInt8) α} (hp : p ∈ ps) :
    c.heap.getData p.1 = .ok (SaveUnit.of p.2) := LinkHeap.getData_eq_ok.mpr (h.data p hp)

end Cache.Rep

/-! ## The parts of the calls -/

variable {c : Cache α} {l r : List (ℕ × Entry (List UInt8) α)} {p : ℕ × Entry (List UInt8) α}

/-- The node of an entry is not that of another entry, or the head of the list. -/
theorem Cache.Rep.notMem_rest (h : c.Rep (l ++ p :: r)) :
    p.1 ∉ c.lList.head :: (l.map (·.1) ++ r.map (·.1)) := by
  have hlist := h.list
  rw [List.map_append, List.map_cons] at hlist
  exact (nodup_around.mp hlist.ring.nodup).1

/-- Moving a node to the front moves its entry to the front. -/
theorem moveToHead_spec (h : c.Rep (l ++ p :: r)) :
    ∃ c', moveToHead c p.1 = .ok c' ∧ c'.Rep (p :: (l ++ r)) ∧ c'.hTab = c.hTab ∧
      c'.maxSize = c.maxSize := by
  have hmid : (l ++ p :: r).Perm (p :: (l ++ r)) := List.perm_middle
  have hlist := h.list
  rw [List.map_append, List.map_cons] at hlist
  obtain ⟨hp₁, hok₁, hl₁, hdata₁, hbrk₁⟩ := removeFromLinkList_spec hlist
  have hnot := h.notMem_rest
  have hd : hp₁.data p.1 = some (some (SaveUnit.of p.2)) := by
    rw [hdata₁]
    exact h.data p (by simp)
  obtain ⟨hp₂, hok₂, hl₂, hdata₂, hbrk₂⟩ := putInHead_spec hl₁ hnot hd
  refine ⟨{ c with heap := hp₂ }, ?_, ?_, rfl, rfl⟩
  · simp only [moveToHead, hok₁, hok₂, Run.ok_bind]
    rfl
  · exact {
      list := by simpa using hl₂
      data := fun q hq => by
        rw [hdata₂, hdata₁]
        exact h.data q (hmid.mem_iff.mpr hq)
      keys := (hmid.map _).nodup_iff.mp h.keys
      short := fun q hq => h.short q (hmid.mem_iff.mpr hq)
      table := h.table.trans (hmid.map _)
      placed := h.placed
      num := h.num.trans hmid.length_eq
      len := h.len.trans (by rw [hmid.length_eq])
      bound := by rw [← hmid.length_eq]; exact h.bound
      maxSize_lt := h.maxSize_lt
      size := h.size
      allocated := h.allocated.mono (fun a ha => by rwa [hdata₂, hdata₁] at ha)
        (by rw [hbrk₂, hbrk₁]) }

/-- Deleting the key of an entry removes its node from the table. With one chain and no other entry
the table is left without chains. -/
theorem delete_rep (h : c.Rep (l ++ p :: r)) (hlen : 0 < c.hTab.len) :
    ∃ ht, delete c.hTab p.2.key = .ok ht ∧ ht.entries.Perm ((l ++ r).map tableNode) ∧
      ht.Placed Fits ∧ ht.num = (l ++ r).length ∧ ht.len ≤ c.hTab.len ∧
      (ht.len = 0 ↔ c.hTab.len = 1 ∧ l ++ r = []) := by
  have hmid : (l ++ p :: r).Perm (p :: (l ++ r)) := List.perm_middle
  have hps : ((l ++ p :: r).length : ℤ) = (l ++ r).length + 1 := by simp; omega
  have hbound := h.bound
  have hmax := h.maxSize_lt
  obtain ⟨ht₁, hlen₁, hnum₁, hdel, hplaced₁, hrun⟩ := c.hTab.delete_spec hlen p.2.key
  -- The node removed is the entry's.
  have hent : ht₁.entries.Perm ((l ++ r).map tableNode) := by
    cases hdel with
    | removed n hn before =>
      have hmem : n ∈ (l ++ p :: r).map tableNode :=
        h.table.mem_iff.mp (before.mem_iff.mpr (by simp))
      obtain ⟨q, hq, rfl⟩ := List.mem_map.mp hmem
      have hqp : q = p := List.inj_on_of_nodup_map h.keys hq (by simp) hn
      subst hqp
      exact (List.perm_cons _).mp (before.symm.trans (h.table.trans (hmid.map _)))
    | absent habs _ =>
      have hs := h.search_of_mem hlen (p := p) (by simp)
      rw [HashTab.search_eq hlen] at hs
      simp only [Except.ok.injEq, Option.map_eq_some_iff] at hs
      obtain ⟨n, hn, -⟩ := hs
      exact absurd (by simpa using List.find?_some hn) (habs n (List.mem_of_find?_eq_some hn))
  have hnum : c.hTab.numAfterDelete = (l ++ r).length := by
    rw [HashTab.numAfterDelete, h.num]
    simp only [UINT_MOD]
    omega
  have hshrinks : c.hTab.Shrinks ↔ (l ++ r).length * 2 < c.hTab.len := by
    rw [HashTab.Shrinks, hnum, Nat.mod_eq_of_lt (by simp only [UINT_MOD]; omega)]
  rw [hrun]
  by_cases hs : c.hTab.Shrinks
  · rw [if_pos hs]
    have hlt := hshrinks.mp hs
    rcases Nat.eq_zero_or_pos (c.hTab.len / 2) with h0 | hpos
    · -- One chain: no entry is left, and no chain.
      have hnil : l ++ r = [] := List.eq_nil_of_length_eq_zero (by omega)
      have hnil₁ : ht₁.entries = [] := by
        rw [hnil] at hent
        exact List.perm_nil.mp hent
      rw [h0, rescale_zero_of_nil hnil₁]
      refine ⟨_, rfl, ?_, ?_, by rw [hnum₁, hnum], by simp [HashTab.len], ?_⟩
      · rw [hnil]
        exact List.Perm.refl _
      · intro i d hi
        simp at hi
      · simp only [HashTab.len, List.length_nil, true_iff]
        exact ⟨by simp only [HashTab.len] at *; omega, hnil⟩
    · obtain ⟨ht, hok, hl, hn, he, hp⟩ := rescale_spec ht₁ hpos
      refine ⟨ht, hok, he.trans hent, hp _, by rw [hn, hnum₁, hnum], by omega, ?_⟩
      omega
  · rw [if_neg hs]
    refine ⟨ht₁, rfl, hent, hplaced₁ _ h.placed, by rw [hnum₁, hnum], by omega, ?_⟩
    have := mt hshrinks.mpr hs
    constructor
    · omega
    · rintro ⟨h1, h2⟩
      rw [h2] at this
      simp at this
      omega

/-- Discarding a node drops its entry. -/
theorem discard_spec (h : c.Rep (l ++ p :: r)) (hlen : 0 < c.hTab.len) :
    ∃ c', discard c p.1 = .ok c' ∧ c'.Rep (l ++ r) ∧ c'.maxSize = c.maxSize ∧
      c'.heap.data p.1 = none ∧ (c'.hTab.len = 0 ↔ c.hTab.len = 1 ∧ l ++ r = []) := by
  have hsub : ∀ q ∈ l ++ r, q ∈ l ++ p :: r := fun q hq => by
    rcases List.mem_append.mp hq with hq | hq <;> simp [hq]
  have hlist := h.list
  rw [List.map_append, List.map_cons] at hlist
  obtain ⟨ht, hdelete, htable, hplaced, hnum, hsize, hzero⟩ := delete_rep h hlen
  obtain ⟨hp₁, hok₁, hl₁, hdata₁, hbrk₁⟩ := removeFromLinkList_spec hlist
  rw [← List.map_append] at hl₁
  have hnot : p.1 ∉ c.lList.head :: (l ++ r).map (·.1) := by
    rw [List.map_append]
    exact h.notMem_rest
  have hlive : (hp₁.data p.1).isSome := by
    rw [hdata₁, h.data p (by simp)]
    rfl
  obtain ⟨hfree, hl₂, hallocated⟩ := freeLinkNode_isList hl₁.isList
    (h.allocated.mono (fun a ha => by rwa [hdata₁] at ha) hbrk₁.ge) hlive hnot
  -- Freeing the node leaves the data of the others.
  have hdata : ∀ q ∈ l ++ r,
      Function.update hp₁.data p.1 none q.1 = some (some (SaveUnit.of q.2)) := by
    intro q hq
    have hne : q.1 ≠ p.1 := fun e =>
      hnot (e ▸ List.mem_cons_of_mem _ (List.mem_map_of_mem hq))
    rw [Function.update_of_ne hne, hdata₁]
    exact h.data q (hsub q hq)
  refine ⟨{ c with
    hTab := ht
    heap := { hp₁ with data := Function.update hp₁.data p.1 none }
    len := c.len - 1 }, ?_, ?_, rfl, by simp, hzero⟩
  · simp only [discard, h.getData (p := p) (by simp), SaveUnit.of, hdelete, hok₁, hfree, Run.ok_bind]
    rfl
  · have hps : (l ++ p :: r).length = (l ++ r).length + 1 := by simp; omega
    have hlen' := h.len
    have hbound := h.bound
    rw [hps] at hlen' hbound
    push_cast at hlen' hbound
    exact {
      list := by
        refine hl₂.holdsList fun a ha => ?_
        obtain ⟨q, hq, rfl⟩ := List.mem_map.mp ha
        exact ⟨_, hdata q hq⟩
      data := hdata
      keys := h.keys.sublist ((List.sublist_append_right [p] r |>.append_left l).map _)
      short := fun q hq => h.short q (hsub q hq)
      table := htable
      placed := hplaced
      num := hnum
      len := by simp only; omega
      bound := by simp only; omega
      maxSize_lt := h.maxSize_lt
      size := hsize.trans h.size
      allocated := hallocated }

/-- A new node in front holds a new entry. -/
theorem addNode_spec {ps : List (ℕ × Entry (List UInt8) α)} (h : c.Rep ps)
    (hlen : 0 < c.hTab.len) {key : List UInt8} (hshort : Fits key)
    (hkey : key ∉ ps.map (·.2.key)) (hroom : (ps.length : ℤ) < c.maxSize) (data : α)
    (TTL now : ℤ) :
    ∃ c' nod, addNode c key data TTL now = .ok c' ∧
      c'.Rep ((nod, ⟨key, data, now, TTL⟩) :: ps) ∧ c'.maxSize = c.maxSize ∧
      0 < c'.hTab.len := by
  generalize he : (⟨key, data, now, TTL⟩ : Entry (List UInt8) α) = e
  have hek : e.key = key := by rw [← he]
  generalize hnod : c.heap.brk = nod
  have hui : (⟨strncpy key (SAVE_UNIT_KEY_MAX_LEN + 1), now, TTL, data⟩ : SaveUnit α) =
      SaveUnit.of e := by
    rw [strncpy_of_length_le (by simp only [Fits, HASH_KEY_MAX_LEN] at hshort
                                 simp only [SAVE_UNIT_KEY_MAX_LEN]
                                 omega), ← he]
    rfl
  obtain ⟨hp', hput, hlist, hdata, hbrk, halloc, hfresh⟩ :=
    putInHead_newLinkNode h.list h.allocated hnod (SaveUnit.of e)
  obtain ⟨ht, hins, hpos, hplaced, hinserted⟩ := c.hTab.insert_spec hlen h.size_lt key nod
  have hmax := h.maxSize_lt
  -- The table gets one more node, as no node had the key.
  obtain ⟨htable, hnum, hsize⟩ : ht.entries.Perm (tableNode (nod, e) :: ps.map tableNode) ∧
      ht.num = ps.length + 1 ∧ ht.len ≤ max INIT_SIZE c.maxSize.toNat := by
    cases hinserted with
    | overwritten n rest hn before =>
      have hmem : n ∈ ps.map tableNode := h.table.mem_iff.mp (before.mem_iff.mpr (by simp))
      obtain ⟨q, hq, rfl⟩ := List.mem_map.mp hmem
      exact absurd (List.mem_map.mpr ⟨q, hq, hn⟩) hkey
    | added _ after num_eq len_le =>
      have hnum : ht.num = ps.length + 1 := by
        rw [num_eq, h.num, Nat.mod_eq_of_lt (by simp only [UINT_MOD]; omega)]
      refine ⟨?_, hnum, ?_⟩
      · have hnode : newNode key nod = tableNode (nod, e) := by
          rw [newNode, strncpy_of_length_le hshort, tableNode, hek]
        rw [hnode] at after
        exact after.trans (h.table.cons _)
      · have := h.size
        rcases len_le with ⟨hle, -⟩ | ⟨hle, hbig⟩
        · omega
        · rw [hnum] at hbig
          omega
  refine ⟨{ c with hTab := ht, heap := hp', len := c.len + 1 }, nod, ?_, ?_, rfl, hpos⟩
  · have hnew : (newLinkNode c.heap (SaveUnit.of e)).1 = nod := hnod
    simp only [addNode, hui, hnew, hput, hins, Run.ok_bind]
    rfl
  · have hlen' := h.len
    exact {
      list := by simpa using hlist
      data := by
        intro q hq
        rcases List.mem_cons.mp hq with rfl | hq
        · simp [hdata]
        · have hq' := h.data q hq
          rw [hdata, Function.update_of_ne (hfresh q.1 (by simp [hq']))]
          exact hq'
      keys := by
        rw [List.map_cons, List.nodup_cons]
        exact ⟨by simpa [hek] using hkey, h.keys⟩
      short := by
        intro q hq
        rcases List.mem_cons.mp hq with rfl | hq
        · simpa [hek] using hshort
        · exact h.short q hq
      table := by simpa using htable
      placed := hplaced _ (keeps_of_fits hshort) h.placed
      num := by simpa using hnum
      len := by simp only [List.length_cons]; push_cast; omega
      bound := by simp only [List.length_cons]; push_cast; omega
      maxSize_lt := hmax
      size := hsize
      allocated := halloc }

/-- A new node finds no chain in a table that has none. -/
theorem addNode_of_len_zero {ps : List (ℕ × Entry (List UInt8) α)} (h : c.Rep ps)
    (hlen : c.hTab.len = 0) (key : List UInt8) (data : α) (TTL now : ℤ) :
    addNode c key data TTL now = .error .divByZero := by
  obtain ⟨hp', hput, -⟩ := putInHead_newLinkNode h.list h.allocated rfl
    ⟨strncpy key (SAVE_UNIT_KEY_MAX_LEN + 1), now, TTL, data⟩
  have hins : insert c.hTab key c.heap.brk = .error .divByZero := by rw [insert, if_pos hlen]
  have hnew : ∀ u, (newLinkNode c.heap u).1 = c.heap.brk := fun _ => rfl
  simp only [addNode, hnew, hput, hins, Run.ok_bind, Run.error_bind]

/-- An assignment to the data of an entry's node, which keeps its key. -/
theorem setData_spec (h : c.Rep (l ++ p :: r)) {e : Entry (List UInt8) α}
    (he : e.key = p.2.key) :
    ∃ heap, c.heap.setData p.1 (SaveUnit.of e) = .ok heap ∧
      Cache.Rep { c with heap := heap } (l ++ (p.1, e) :: r) := by
  have hdp : c.heap.data p.1 = some (some (SaveUnit.of p.2)) := h.data p (by simp)
  have hmap : ∀ {β : Type} (f : ℕ × Entry (List UInt8) α → β), f (p.1, e) = f p →
      (l ++ (p.1, e) :: r).map f = (l ++ p :: r).map f := by
    intro β f hf
    simp [hf]
  refine ⟨{ c.heap with data := Function.update c.heap.data p.1 (some (some (SaveUnit.of e))) },
    ?_, ?_⟩
  · simp only [LinkHeap.setData, h.getData (p := p) (by simp), Run.ok_bind]
    rfl
  · have hlive : ∀ a, ((Function.update c.heap.data p.1 (some (some (SaveUnit.of e)))) a).isSome →
        (c.heap.data a).isSome := by
      intro a ha
      by_cases hap : a = p.1
      · simp [hap, hdp]
      · simpa [Function.update_of_ne hap] using ha
    -- The node of another entry is another node.
    have hother : ∀ q ∈ l ++ r, q.1 ≠ p.1 := by
      intro q hq hqp
      have hnd := h.list.ring.nodup
      rw [List.nodup_cons, List.map_append, List.map_cons] at hnd
      have := (List.perm_middle.nodup_iff.mp hnd.2)
      rw [List.nodup_cons, ← List.map_append] at this
      exact this.1 (hqp ▸ List.mem_map_of_mem hq)
    have hdata : ∀ q ∈ l ++ (p.1, e) :: r,
        Function.update c.heap.data p.1 (some (some (SaveUnit.of e))) q.1 =
          some (some (SaveUnit.of q.2)) := by
      intro q hq
      rcases List.mem_cons.mp (List.perm_middle.mem_iff.mp hq) with rfl | hq
      · simp
      · rw [Function.update_of_ne (hother q hq)]
        exact h.data q (List.perm_middle.mem_iff.mpr (List.mem_cons_of_mem _ hq))
    exact {
      list := by
        rw [hmap _ rfl]
        refine h.list.congr (fun _ _ => rfl) (fun _ _ => rfl) ?_ ?_
        · by_cases hap : c.lList.head = p.1
          · simp [hap]
          · simpa [Function.update_of_ne hap] using h.list.head_live
        · intro a ha
          rw [← hmap (·.1) rfl] at ha
          obtain ⟨q, hq, rfl⟩ := List.mem_map.mp ha
          exact ⟨_, hdata q hq⟩
      data := hdata
      keys := by rw [hmap _ he]; exact h.keys
      short := by
        intro q hq
        rcases List.mem_cons.mp (List.perm_middle.mem_iff.mp hq) with rfl | hq
        · simp only [he]
          exact h.short p (by simp)
        · exact h.short q (List.perm_middle.mem_iff.mpr (List.mem_cons_of_mem _ hq))
      table := by rw [hmap tableNode (by simp [tableNode, he])]; exact h.table
      placed := h.placed
      num := h.num.trans (by simp)
      len := h.len.trans (by simp)
      bound := by simpa using h.bound
      maxSize_lt := h.maxSize_lt
      size := h.size
      allocated := h.allocated.mono hlive le_rfl }

/-! ## The calls -/

variable {ps : List (ℕ × Entry (List UInt8) α)} {key : List UInt8}

/-- The keys of the reference map. -/
theorem Cache.Rep.keys_eq (ps : List (ℕ × Entry (List UInt8) α)) :
    Lru.keys (ps.map (·.2)) = ps.map (·.2.key) := by
  simp [Lru.keys]

/-- A key that an entry has, with the entries before and after it. -/
theorem exists_split_of_key (hk : key ∈ ps.map (·.2.key)) :
    ∃ l p r, ps = l ++ p :: r ∧ p.2.key = key := by
  obtain ⟨p, hp, rfl⟩ := List.mem_map.mp hk
  obtain ⟨l, r, rfl⟩ := List.append_of_mem hp
  exact ⟨l, p, r, rfl, rfl⟩

/-- A call of `CachePut` that would evict the only entry out of a table with one chain. -/
def PutCollapses (c : Cache α) (ps : List (ℕ × Entry (List UInt8) α)) (key : List UInt8) : Prop :=
  c.hTab.len = 1 ∧ ps.length = 1 ∧ c.maxSize = 1 ∧ key ∉ ps.map (·.2.key)

instance (c : Cache α) (ps : List (ℕ × Entry (List UInt8) α)) (key : List UInt8) :
    Decidable (PutCollapses c ps key) := inferInstanceAs (Decidable (_ ∧ _))

/-- A call of `CacheGet` that would drop the only entry, expired, out of a table with one chain. -/
def GetCollapses (c : Cache α) (ps : List (ℕ × Entry (List UInt8) α)) (key : List UInt8)
    (now : ℤ) : Prop :=
  c.hTab.len = 1 ∧ ps.length = 1 ∧ ∃ p ∈ ps, p.2.key = key ∧ p.2.Expired now

/-- `CachePut` under a key that an entry has. -/
theorem cachePut_of_mem (h : c.Rep (l ++ p :: r)) (hlen : 0 < c.hTab.len) (hk : p.2.key = key)
    (data : α) (TTL now : ℤ) :
    ∃ c', cachePut c key data TTL now = .ok c' ∧
      c'.Rep ((p.1, ⟨key, data, now, TTL⟩) :: (l ++ r)) ∧ c'.hTab = c.hTab ∧
      c'.maxSize = c.maxSize := by
  have hsearch : search c.hTab key = .ok (some p.1) := by
    rw [← hk]
    exact h.search_of_mem hlen (by simp)
  have hget : c.heap.getData p.1 = .ok (SaveUnit.of p.2) := h.getData (by simp)
  obtain ⟨heap, hset, hrep⟩ := setData_spec h (e := ⟨key, data, now, TTL⟩) hk.symm
  obtain ⟨c', hmove, hrep', htab, hmax⟩ := moveToHead_spec hrep
  refine ⟨c', ?_, hrep', htab, hmax⟩
  have hunit : ({ SaveUnit.of p.2 with data := data, saveTime := now, TTL := TTL } : SaveUnit α) =
      SaveUnit.of ⟨key, data, now, TTL⟩ := by
    simp [SaveUnit.of, hk]
  simp only [cachePut, hsearch, Run.ok_bind, hget, hunit, hset]
  exact hmove

/-- `CachePut` under a new key, with room. -/
theorem cachePut_of_lt (h : c.Rep ps) (hlen : 0 < c.hTab.len) (hshort : Fits key)
    (hk : key ∉ ps.map (·.2.key)) (hroom : (ps.length : ℤ) < c.maxSize) (data : α)
    (TTL now : ℤ) :
    ∃ c' nod, cachePut c key data TTL now = .ok c' ∧
      c'.Rep ((nod, ⟨key, data, now, TTL⟩) :: ps) ∧ c'.maxSize = c.maxSize ∧
      0 < c'.hTab.len := by
  obtain ⟨c', nod, hadd, hrep, hmax, hpos⟩ := addNode_spec h hlen hshort hk hroom data TTL now
  refine ⟨c', nod, ?_, hrep, hmax, hpos⟩
  have hfull : ¬ c.len ≥ c.maxSize := by
    rw [h.len]
    omega
  simp only [cachePut, h.search_of_notMem hlen hk, Run.ok_bind, if_neg hfull]
  exact hadd

/-- `GetLastLinkNode` finds the last entry. -/
theorem getLastLinkNode_of_concat (h : c.Rep (l ++ [p])) :
    getLastLinkNode c.heap c.lList = .ok p.1 := by
  have hlist := h.list
  rw [List.map_append] at hlist
  exact getLastLinkNode_concat hlist

/-- `CachePut` under a new key, without room: the last entry goes, and with it, from a table of one
chain, the only chain. -/
theorem cachePut_of_full (h : c.Rep (l ++ [p])) (hlen : 0 < c.hTab.len) (hshort : Fits key)
    (hk : key ∉ (l ++ [p]).map (·.2.key)) (hfull : ((l ++ [p]).length : ℤ) = c.maxSize) (data : α)
    (TTL now : ℤ) :
    if c.hTab.len = 1 ∧ l = [] then cachePut c key data TTL now = .error .divByZero
    else ∃ c' nod, cachePut c key data TTL now = .ok c' ∧
      c'.Rep ((nod, ⟨key, data, now, TTL⟩) :: l) ∧ c'.maxSize = c.maxSize ∧
      0 < c'.hTab.len := by
  obtain ⟨c₁, hdiscard, hrep₁, hmax₁, -, hzero⟩ := discard_spec h hlen
  rw [List.append_nil] at hrep₁ hzero
  have hge : c.len ≥ c.maxSize := (h.len.trans hfull).ge
  -- The key is new and the cache is full: the last entry goes first.
  have hrun : cachePut c key data TTL now = addNode c₁ key data TTL now := by
    simp only [cachePut, h.search_of_notMem hlen hk, Run.ok_bind, if_pos hge, evictLast,
      getLastLinkNode_of_concat h, hdiscard]
  have hk₁ : key ∉ l.map (·.2.key) := fun hm => hk (by
    rw [List.map_append]
    exact List.mem_append_left _ hm)
  rw [hrun]
  split_ifs with hone
  · -- The table has no chain when the new key is to be inserted.
    have h0 : c₁.hTab.len = 0 := hzero.mpr hone
    exact addNode_of_len_zero hrep₁ h0 key data TTL now
  · have hroom : (l.length : ℤ) < c₁.maxSize := by
      rw [hmax₁, ← hfull, List.length_append, List.length_singleton]
      omega
    obtain ⟨c', nod, hadd, hrep', hmax', hpos'⟩ :=
      addNode_spec hrep₁ (Nat.pos_of_ne_zero (mt hzero.mp hone)) hshort hk₁ hroom data TTL now
    exact ⟨c', nod, hadd, hrep', by rw [hmax', hmax₁], hpos'⟩

/-- `CachePut` on a cache with a chain: it does what the reference map does, or, where it would evict
the only entry out of a table with one chain, it divides by zero. -/
theorem cachePut_spec (h : c.Rep ps) (hlen : 0 < c.hTab.len) (hmax : 1 ≤ c.maxSize)
    (hshort : Fits key) (data : α) (TTL now : ℤ) :
    if PutCollapses c ps key then cachePut c key data TTL now = .error .divByZero
    else ∃ c' ps', cachePut c key data TTL now = .ok c' ∧ c'.Rep ps' ∧
      ps'.map (·.2) = Lru.put c.maxSize.toNat key data TTL now (ps.map (·.2)) ∧
      c'.maxSize = c.maxSize ∧ 0 < c'.hTab.len := by
  have hnd : (Lru.keys (ps.map (·.2))).Nodup := by
    rw [Cache.Rep.keys_eq]
    exact h.keys
  by_cases hk : key ∈ ps.map (·.2.key)
  · rw [if_neg fun hc => hc.2.2.2 hk]
    obtain ⟨l, p, r, rfl, hp⟩ := exists_split_of_key hk
    obtain ⟨c', hok, hrep, htab, hm⟩ := cachePut_of_mem h hlen hp data TTL now
    refine ⟨c', _, hok, hrep, ?_, hm, by rw [htab]; exact hlen⟩
    rw [List.map_append, List.map_cons] at hnd
    rw [List.map_append, List.map_cons (l := r), Lru.put_of_split _ _ _ _ hnd hp]
    simp
  · have hk' : key ∉ Lru.keys (ps.map (·.2)) := by
      rw [Cache.Rep.keys_eq]
      exact hk
    have hbound := h.bound
    rcases hbound.lt_or_eq with hlt | heq
    -- There is room, so nothing is evicted.
    · have hno : ¬ PutCollapses c ps key := fun hc => by
        have := hc.2.1
        have := hc.2.2.1
        omega
      rw [if_neg hno]
      obtain ⟨c', nod, hok, hrep, hm, hpos⟩ := cachePut_of_lt h hlen hshort hk hlt data TTL now
      refine ⟨c', _, hok, hrep, ?_, hm, hpos⟩
      rw [Lru.put_of_notMem_of_lt _ _ _ hk' (by rw [List.length_map]; omega)]
      simp
    · -- There is a last entry, as `maxSize` is not zero.
      rcases List.eq_nil_or_concat' ps with rfl | ⟨l, p, rfl⟩
      · simp at heq
        omega
      · have hput := cachePut_of_full h hlen hshort hk heq data TTL now
        have hiff : (c.hTab.len = 1 ∧ l = []) ↔ PutCollapses c (l ++ [p]) key := by
          rw [List.length_append, List.length_singleton] at heq
          push_cast at heq
          constructor
          · rintro ⟨h1, rfl⟩
            exact ⟨h1, rfl, by simp at heq; omega, hk⟩
          · rintro ⟨h1, h2, -, -⟩
            exact ⟨h1, List.eq_nil_of_length_eq_zero (by simpa using h2)⟩
        split_ifs at hput with hone
        · rw [if_pos (hiff.mp hone)]
          exact hput
        · rw [if_neg (mt hiff.mpr hone)]
          obtain ⟨c', nod, hok, hrep, hm, hpos⟩ := hput
          refine ⟨c', _, hok, hrep, ?_, hm, hpos⟩
          rw [List.map_append, List.map_singleton] at hk' ⊢
          rw [Lru.put_of_notMem_of_eq _ _ _ hk' (by
            rw [List.length_append, List.length_singleton] at heq ⊢
            rw [List.length_map]
            push_cast at heq
            omega)]
          simp

/-- What the first section of `CacheGet` does to the entries. -/
inductive Located (c : Cache α) (ps : List (ℕ × Entry (List UInt8) α)) (key : List UInt8) (now : ℤ) :
    Run (Option ℕ × Cache α) → Prop
  /-- No entry has the key. -/
  | absent (notMem : key ∉ ps.map (·.2.key)) : Located c ps key now (.ok (none, c))
  /-- The entry of the key has expired and is dropped; with it goes the only chain of a table of
  one chain, when there is no other entry. -/
  | expired {c' : Cache α} (l : List (ℕ × Entry (List UInt8) α)) (p : ℕ × Entry (List UInt8) α)
      (r : List (ℕ × Entry (List UInt8) α)) (split : ps = l ++ p :: r) (key_eq : p.2.key = key)
      (exp : p.2.Expired now) (rep : c'.Rep (l ++ r)) (maxSize_eq : c'.maxSize = c.maxSize)
      (freed : c'.heap.data p.1 = none)
      (collapse : c'.hTab.len = 0 ↔ c.hTab.len = 1 ∧ l ++ r = []) :
      Located c ps key now (.ok (none, c'))
  /-- The entry of the key goes in front. -/
  | hit {c' : Cache α} (l : List (ℕ × Entry (List UInt8) α)) (p : ℕ × Entry (List UInt8) α)
      (r : List (ℕ × Entry (List UInt8) α)) (split : ps = l ++ p :: r) (key_eq : p.2.key = key)
      (notExp : ¬ p.2.Expired now) (rep : c'.Rep (p :: (l ++ r)))
      (maxSize_eq : c'.maxSize = c.maxSize) (hTab_eq : c'.hTab = c.hTab) :
      Located c ps key now (.ok (some p.1, c'))

/-- The first section of `CacheGet` on a cache with a chain, for a key of any length. -/
theorem cacheGetLocked_spec (h : c.Rep ps) (hlen : 0 < c.hTab.len) (key : List UInt8) (now : ℤ) :
    Located c ps key now (cacheGetLocked c key now) := by
  by_cases hk : key ∈ ps.map (·.2.key)
  · obtain ⟨l, p, r, rfl, rfl⟩ := exists_split_of_key hk
    have hsearch := h.search_of_mem hlen (p := p) (by simp)
    have hget : c.heap.getData p.1 = .ok (SaveUnit.of p.2) := h.getData (by simp)
    -- An entry that has expired is dropped, any other is moved to the front.
    by_cases hexp : p.2.Expired now
    · obtain ⟨c', hok, hrep, hm, hfree, hzero⟩ := discard_spec h hlen
      have hrun : cacheGetLocked c p.2.key now = .ok (none, c') := by
        have hc : now - (SaveUnit.of p.2).saveTime > (SaveUnit.of p.2).TTL := hexp
        simp only [cacheGetLocked, hsearch, Run.ok_bind, hget, if_pos hc, hok]
        rfl
      rw [hrun]
      exact .expired l p r rfl rfl hexp hrep hm hfree hzero
    · obtain ⟨c', hok, hrep, htab, hm⟩ := moveToHead_spec h
      have hrun : cacheGetLocked c p.2.key now = .ok (some p.1, c') := by
        have hc : ¬ now - (SaveUnit.of p.2).saveTime > (SaveUnit.of p.2).TTL := hexp
        simp only [cacheGetLocked, hsearch, Run.ok_bind, hget, if_neg hc, hok]
        rfl
      rw [hrun]
      exact .hit l p r rfl rfl hexp hrep hm htab
  · have hrun : cacheGetLocked c key now = .ok (none, c) := by
      simp only [cacheGetLocked, h.search_of_notMem hlen hk, Run.ok_bind]
      rfl
    rw [hrun]
    exact .absent hk

/-- `CacheGet` on a cache with a chain does what the reference map does. It leaves a chain, unless
it drops the only entry out of a table with one chain. -/
theorem cacheGet_spec (h : c.Rep ps) (hlen : 0 < c.hTab.len) (key : List UInt8) (now : ℤ) :
    ∃ c' ps', cacheGet c key now = .ok ((Lru.get key now (ps.map (·.2))).1, c') ∧ c'.Rep ps' ∧
      ps'.map (·.2) = (Lru.get key now (ps.map (·.2))).2 ∧ c'.maxSize = c.maxSize ∧
      (c'.hTab.len = 0 ↔ GetCollapses c ps key now) := by
  have hnd : (Lru.keys (ps.map (·.2))).Nodup := by
    rw [Cache.Rep.keys_eq]
    exact h.keys
  -- The entry of the key is the one that its first section finds.
  have hone : ∀ {l p r}, ps = l ++ p :: r → p.2.key = key →
      (GetCollapses c ps key now ↔ c.hTab.len = 1 ∧ l ++ r = [] ∧ p.2.Expired now) := by
    rintro l p r rfl hp
    constructor
    · rintro ⟨h1, h2, q, hq, hqk, hexp⟩
      obtain rfl : q = p := List.inj_on_of_nodup_map h.keys hq (by simp) (hqk.trans hp.symm)
      refine ⟨h1, List.eq_nil_of_length_eq_zero ?_, hexp⟩
      simp only [List.length_append, List.length_cons] at h2 ⊢
      omega
    · rintro ⟨h1, h2, hexp⟩
      refine ⟨h1, ?_, p, by simp, hp, hexp⟩
      simp_all
  cases hrun : cacheGetLocked c key now with
  | error e =>
    have := cacheGetLocked_spec h hlen key now
    rw [hrun] at this
    cases this
  | ok res =>
    have hspec := cacheGetLocked_spec h hlen key now
    rw [hrun] at hspec
    cases hspec with
    | absent hk =>
      refine ⟨c, ps, ?_, h, ?_, rfl, ?_⟩
      · rw [Lru.get_of_notMem now (by rw [Cache.Rep.keys_eq]; exact hk)]
        simp only [cacheGet, hrun, Run.ok_bind]
        rfl
      · rw [Lru.get_of_notMem now (by rw [Cache.Rep.keys_eq]; exact hk)]
      · refine ⟨fun h0 => by omega, fun hc => ?_⟩
        obtain ⟨-, -, p, hp, hpk, -⟩ := hc
        exact absurd (List.mem_map.mpr ⟨p, hp, hpk⟩) hk
    | expired l p r hsplit hp hexp hrep hm hfree hzero =>
      have hgetm : Lru.get key now (ps.map (·.2)) = (none, (l ++ r).map (·.2)) := by
        rw [hsplit, List.map_append, List.map_cons] at hnd ⊢
        rw [Lru.get_of_split now hnd hp, if_pos hexp, List.map_append]
      refine ⟨_, l ++ r, ?_, hrep, by rw [hgetm], hm, ?_⟩
      · rw [hgetm]
        simp only [cacheGet, hrun, Run.ok_bind]
        rfl
      · rw [hzero, hone hsplit hp]
        simp [hexp]
    | hit l p r hsplit hp hexp hrep hm htab =>
      have hgetm : Lru.get key now (ps.map (·.2)) =
          (some p.2.value, (p :: (l ++ r)).map (·.2)) := by
        rw [hsplit, List.map_append, List.map_cons] at hnd ⊢
        rw [Lru.get_of_split now hnd hp, if_neg hexp, List.map_cons, List.map_append]
      refine ⟨_, p :: (l ++ r), ?_, hrep, by rw [hgetm], hm, ?_⟩
      · rw [hgetm]
        have hcopy := hrep.getData (p := p) (by simp)
        simp only [cacheGet, hrun, Run.ok_bind, cacheGetCopy, hcopy]
        rfl
      · rw [htab, hone hsplit hp]
        refine ⟨fun h0 => by omega, fun hc => absurd hc.2.2 hexp⟩

end DnsRelayer
