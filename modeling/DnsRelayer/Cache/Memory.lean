import DnsRelayer.Cache.Holds
import DnsRelayer.Cache.Runs
import Mathlib.Data.Finset.Card

/-!
# The memory of the list nodes

Every list node that is allocated is in the list of the cache, apart from the sentinel, until it is freed: the
cache counts the live nodes (`Cache.Counts`), whatever calls were made in whatever order, as long as they
return. So it never has more than `maxSize` of them besides the sentinel.

`DestroyLinkList` goes through the list and frees each node, and then the sentinel. No node is freed twice,
since to free a node that is not live is a fault, and none is left (`cache_destroyed`).
-/

namespace DnsRelayer

open Lib

variable {α : Type}

/-! ## The end of a cache -/

/-- The loop of `DestroyLinkList`, from the node `t`. The data of a node is freed with it. -/
def destroyLoop (tail : ℕ) : ℕ → LinkHeap α → ℕ → Run (LinkHeap α)
  | 0, _, _ => .error .diverges
  | fuel + 1, hp, t =>
    if t = tail then .ok hp
    else do
      let next ← hp.getNext t
      let hp ← freeLinkNode hp t
      destroyLoop tail fuel hp next

/-- `DestroyLinkList`. A list has fewer nodes than were ever allocated, which bounds the turns of the loop. -/
def destroyLinkList (hp : LinkHeap α) (l : LinkList) : Run (LinkHeap α) := do
  let t ← hp.getNext l.head
  let hp ← destroyLoop l.tail (hp.brk + 1) hp t
  freeLinkNode hp l.head

/-- `DestroyCache`: what is left of the memory of the list. -/
def destroyCache (c : Cache α) : Run (LinkHeap (SaveUnit α)) := destroyLinkList c.heap c.lList

/-! ## Live nodes -/

namespace LinkHeap

/-- The nodes that are live. -/
def live (hp : LinkHeap α) : Finset ℕ := (Finset.range hp.brk).filter fun a => (hp.data a).isSome

variable {hp hp' : LinkHeap α}

theorem Allocated.mem_live (ha : hp.Allocated) {a : ℕ} : a ∈ hp.live ↔ (hp.data a).isSome := by
  rw [live, Finset.mem_filter, Finset.mem_range, and_iff_right_iff_imp]
  exact fun hs => (ha a hs).2

/-- The links make no difference. -/
theorem live_of_sameData (h : SameData hp hp') : hp'.live = hp.live := by
  rw [live, live, h.1, h.2]

/-- Freeing a node takes it from the live ones. -/
theorem Allocated.card_free (ha : hp.Allocated) {nod : ℕ} (hnod : (hp.data nod).isSome) :
    Allocated { hp with data := Function.update hp.data nod none } ∧
      (live { hp with data := Function.update hp.data nod none }).card + 1 = hp.live.card := by
  have hdata : ∀ a, (Function.update hp.data nod none a).isSome ↔ a ≠ nod ∧ (hp.data a).isSome := by
    intro a
    by_cases han : a = nod
    · simp [han]
    · simp [han]
  have hlive : live { hp with data := Function.update hp.data nod none } = hp.live.erase nod := by
    ext a
    simp only [live, Finset.mem_filter, Finset.mem_range, Finset.mem_erase, hdata]
    tauto
  refine ⟨ha.mono (fun a hs => ((hdata a).mp hs).2) le_rfl, ?_⟩
  rw [hlive]
  exact Finset.card_erase_add_one (ha.mem_live.mpr hnod)

/-- A new node is one more. -/
theorem Allocated.card_new (ha : hp.Allocated) (hbrk : NULL < hp.brk) {d : Option α}
    (hdata : hp'.data = Function.update hp.data hp.brk (some d)) (hbrk' : hp'.brk = hp.brk + 1) :
    hp'.Allocated ∧ hp'.live.card = hp.live.card + 1 := by
  have hlive : hp'.live = Insert.insert hp.brk hp.live := by
    ext a
    simp only [live, Finset.mem_filter, Finset.mem_range, Finset.mem_insert, hdata, hbrk']
    by_cases hab : a = hp.brk
    · simp [hab]
    · simp only [Function.update_of_ne hab, hab, false_or]
      constructor
      · exact fun h => ⟨by omega, h.2⟩
      · exact fun h => ⟨by omega, h.2⟩
  refine ⟨ha.malloc hbrk hdata hbrk', ?_⟩
  rw [hlive, Finset.card_insert_of_notMem]
  simp [live]

end LinkHeap

/-! ## Counting them -/

/-- The live nodes are as many as the cache counts, and the sentinel. -/
structure Cache.Counts (c : Cache α) : Prop where
  allocated : c.heap.Allocated
  brk_pos : NULL < c.heap.brk
  live : (c.heap.live.card : ℤ) = c.len + 1

namespace Cache

variable {c c' : Cache α} {lkn : ℕ}

theorem createCache_counts (maxSize : ℤ) : (createCache maxSize : Cache α).Counts := by
  have hnone : (emptyHeap : LinkHeap (SaveUnit α)).live = ∅ := by
    simp [LinkHeap.live, emptyHeap]
  have hnew : (createCache maxSize : Cache α).heap.Allocated ∧
      (createCache maxSize : Cache α).heap.live.card = (emptyHeap : LinkHeap (SaveUnit α)).live.card + 1 :=
    emptyHeap_allocated.card_new (Nat.lt_succ_self _) (d := none) rfl rfl
  rw [hnone, Finset.card_empty] at hnew
  exact ⟨hnew.1, Nat.succ_pos _, congrArg Nat.cast hnew.2⟩

/-- Changing links leaves the count. -/
theorem Counts.sameData (h : c.Counts) {hp : LinkHeap (SaveUnit α)} (hd : SameData c.heap hp) :
    Counts { c with heap := hp } where
  allocated := h.allocated.mono (fun a hs => hd.1 ▸ hs) hd.2.ge
  brk_pos := hd.2.symm ▸ h.brk_pos
  live := by
    rw [LinkHeap.live_of_sameData hd]
    exact h.live

theorem Counts.moveToHead (h : c.Counts) (hok : moveToHead c lkn = .ok c') :
    c'.Counts ∧ c'.len = c.len ∧ c'.maxSize = c.maxSize := by
  obtain ⟨hp, h₁, hok⟩ := Run.bind_eq_ok.mp hok
  obtain ⟨hp', h₂, hok⟩ := Run.bind_eq_ok.mp hok
  obtain rfl := Except.ok.inj hok
  exact ⟨h.sameData ((sameData_removeFromLinkList h₁).trans (sameData_putInHead h₂)), rfl, rfl⟩

/-- Dropping a node frees one, and counts down. -/
theorem Counts.discard (h : c.Counts) (hok : discard c lkn = .ok c') :
    c'.Counts ∧ c'.len = c.len - 1 ∧ c'.maxSize = c.maxSize := by
  obtain ⟨ui, -, hok⟩ := Run.bind_eq_ok.mp hok
  obtain ⟨hTab, -, hok⟩ := Run.bind_eq_ok.mp hok
  obtain ⟨hp, hrem, hok⟩ := Run.bind_eq_ok.mp hok
  obtain ⟨hp', hfree, hok⟩ := Run.bind_eq_ok.mp hok
  obtain rfl := Except.ok.inj hok
  have hsame := h.sameData (sameData_removeFromLinkList hrem)
  obtain ⟨_, hderef, hfree⟩ := Run.bind_eq_ok.mp hfree
  obtain rfl := Except.ok.inj hfree
  have hlive : (hp.data lkn).isSome := by
    by_contra hdead
    simp [LinkHeap.deref, hdead] at hderef
  have halloc : hp.Allocated := hsame.allocated
  obtain ⟨hallocated, hcard⟩ := halloc.card_free hlive
  refine ⟨⟨hallocated, hsame.brk_pos, ?_⟩, rfl, rfl⟩
  have hcount : (hp.live.card : ℤ) = c.len + 1 := hsame.live
  dsimp only
  omega

/-- A new node is allocated, and counted. -/
theorem Counts.addNode (h : c.Counts) {key : List UInt8} {data : α} {TTL now : ℤ}
    (hok : addNode c key data TTL now = .ok c') :
    c'.Counts ∧ c'.len = c.len + 1 ∧ c'.maxSize = c.maxSize := by
  obtain ⟨hp, hput, hok⟩ := Run.bind_eq_ok.mp hok
  obtain ⟨hTab, -, hok⟩ := Run.bind_eq_ok.mp hok
  obtain rfl := Except.ok.inj hok
  have hd := sameData_putInHead hput
  obtain ⟨hallocated, hcard⟩ := h.allocated.card_new h.brk_pos hd.1 hd.2
  refine ⟨⟨hallocated, hd.2.symm ▸ Nat.succ_pos _, ?_⟩, rfl, rfl⟩
  have hcount := h.live
  dsimp only
  omega

/-- New data in a node leaves it live. -/
theorem Counts.setData (h : c.Counts) {ui : SaveUnit α} {hp : LinkHeap (SaveUnit α)}
    (hok : c.heap.setData lkn ui = .ok hp) : Counts { c with heap := hp } := by
  obtain ⟨old, hold, hok⟩ := Run.bind_eq_ok.mp hok
  obtain rfl := Except.ok.inj hok
  have hsome : ∀ a, (Function.update c.heap.data lkn (some (some ui)) a).isSome ↔
      (c.heap.data a).isSome := by
    intro a
    by_cases hal : a = lkn
    · simp [hal, LinkHeap.getData_eq_ok.mp hold]
    · rw [Function.update_of_ne hal]
  refine ⟨h.allocated.mono (fun a hs => (hsome a).mp hs) le_rfl, h.brk_pos, ?_⟩
  have hlive : LinkHeap.live { c.heap with data := Function.update c.heap.data lkn (some (some ui)) } =
      c.heap.live := by
    ext a
    simp only [LinkHeap.live, Finset.mem_filter, hsome]
  dsimp only
  rw [hlive]
  exact h.live

/-- A put adds at most one entry, while there are less than may be. -/
theorem Counts.put (h : c.Counts) {key : List UInt8} {data : α} {TTL now : ℤ}
    (hok : cachePut c key data TTL now = .ok c') :
    c'.Counts ∧ c'.len ≤ max c.len c.maxSize ∧ c'.maxSize = c.maxSize := by
  obtain ⟨found, -, hok⟩ := Run.bind_eq_ok.mp hok
  cases found with
  | some lkn =>
    obtain ⟨pui, -, hok⟩ := Run.bind_eq_ok.mp hok
    obtain ⟨hp, hset, hok⟩ := Run.bind_eq_ok.mp hok
    obtain ⟨h₁, hlen, hmax⟩ := (h.setData hset).moveToHead hok
    exact ⟨h₁, hlen.trans_le (le_max_left _ _), hmax⟩
  | none =>
    dsimp only at hok
    split_ifs at hok with hfull
    -- The last entry makes room.
    · obtain ⟨c₁, hevict, hok⟩ := Run.bind_eq_ok.mp hok
      obtain ⟨lkn, -, hdiscard⟩ := Run.bind_eq_ok.mp hevict
      obtain ⟨h₁, hlen₁, hmax₁⟩ := h.discard hdiscard
      obtain ⟨h₂, hlen₂, hmax₂⟩ := h₁.addNode hok
      exact ⟨h₂, by omega, hmax₂.trans hmax₁⟩
    · obtain ⟨h₁, hlen, hmax⟩ := h.addNode hok
      exact ⟨h₁, by omega, hmax⟩

/-- A get drops at most one entry. -/
theorem Counts.getLocked (h : c.Counts) {key : List UInt8} {now : ℤ} {r : Option ℕ}
    (hok : cacheGetLocked c key now = .ok (r, c')) :
    c'.Counts ∧ c'.len ≤ c.len ∧ c'.maxSize = c.maxSize := by
  obtain ⟨found, -, hok⟩ := Run.bind_eq_ok.mp hok
  cases found with
  | none =>
    obtain ⟨-, rfl⟩ := Prod.mk.inj (Except.ok.inj hok)
    exact ⟨h, le_rfl, rfl⟩
  | some lkn =>
    obtain ⟨ui, -, hok⟩ := Run.bind_eq_ok.mp hok
    split_ifs at hok
    · obtain ⟨c₁, hdiscard, hok⟩ := Run.bind_eq_ok.mp hok
      obtain ⟨-, rfl⟩ := Prod.mk.inj (Except.ok.inj hok)
      obtain ⟨h₁, hlen, hmax⟩ := h.discard hdiscard
      exact ⟨h₁, by omega, hmax⟩
    · obtain ⟨c₁, hmove, hok⟩ := Run.bind_eq_ok.mp hok
      obtain ⟨-, rfl⟩ := Prod.mk.inj (Except.ok.inj hok)
      obtain ⟨h₁, hlen, hmax⟩ := h.moveToHead hmove
      exact ⟨h₁, hlen.le, hmax⟩

/-- Calls that return keep the count. -/
theorem Counts.run {uses : List (Use (List UInt8) α)} (h : c.Counts) {rs : List (Option α)}
    (hrun : cacheRun uses c = .ok (rs, c')) : c'.Counts := by
  induction uses generalizing c rs with
  | nil =>
    obtain ⟨-, rfl⟩ := Prod.mk.inj (Except.ok.inj hrun)
    exact h
  | cons u uses ih =>
    cases u with
    | put key data TTL now =>
      obtain ⟨c₁, hput, hrun⟩ := Run.bind_eq_ok.mp hrun
      exact ih (h.put hput).1 hrun
    | get key now =>
      obtain ⟨⟨r, c₁⟩, hget, hrun⟩ := Run.bind_eq_ok.mp hrun
      obtain ⟨⟨rs', c₂⟩, hrest, hrun⟩ := Run.bind_eq_ok.mp hrun
      obtain ⟨-, rfl⟩ := Prod.mk.inj (Except.ok.inj hrun)
      obtain ⟨⟨found, c₃⟩, hlocked, hget⟩ := Run.bind_eq_ok.mp hget
      have h₃ := (h.getLocked hlocked).1
      -- Copying the data changes nothing.
      cases found with
      | none =>
        obtain ⟨-, rfl⟩ := Prod.mk.inj (Except.ok.inj hget)
        exact ih h₃ hrest
      | some lkn =>
        obtain ⟨d, -, hget⟩ := Run.bind_eq_ok.mp hget
        obtain ⟨-, rfl⟩ := Prod.mk.inj (Except.ok.inj hget)
        exact ih h₃ hrest

end Cache

/-! ## Destroying the list -/

/-- The loop frees the nodes on the way to the sentinel, and no others. -/
theorem destroyLoop_spec {tail t fuel : ℕ} {xs : List ℕ} {hp : LinkHeap α}
    (hstart : t :: xs.map hp.next = xs ++ [tail]) (hnodup : (tail :: xs).Nodup)
    (hlive : ∀ a ∈ xs, (hp.data a).isSome) (hfuel : xs.length < fuel) :
    ∃ hp', destroyLoop tail fuel hp t = .ok hp' ∧ (∀ a ∈ xs, hp'.data a = none) ∧
      ∀ a, a ∉ xs → hp'.data a = hp.data a := by
  obtain ⟨fuel, rfl⟩ : ∃ n, fuel = n + 1 := ⟨fuel - 1, by omega⟩
  induction xs generalizing t fuel hp with
  | nil =>
    obtain rfl : t = tail := (List.cons.inj hstart).1
    exact ⟨hp, by rw [destroyLoop, if_pos rfl], by simp, fun _ _ => rfl⟩
  | cons x xs ih =>
    obtain ⟨rfl, hnext⟩ := List.cons.inj hstart
    obtain ⟨hne, hnodup'⟩ : t ≠ tail ∧ (tail :: xs).Nodup := by
      simp only [List.nodup_cons, List.mem_cons] at hnodup ⊢
      exact ⟨fun h => hnodup.1 (Or.inl h.symm), fun h => hnodup.1 (Or.inr h), hnodup.2.2⟩
    have hnot : t ∉ xs := (List.nodup_cons.mp (List.nodup_cons.mp hnodup).2).1
    have hx : (hp.data t).isSome := hlive t List.mem_cons_self
    obtain ⟨n, rfl⟩ : ∃ n, fuel = n + 1 := ⟨fuel - 1, by simp only [List.length_cons] at hfuel; omega⟩
    -- The other nodes are as they were when this one is freed.
    have hrest : ∀ a ∈ xs, (Function.update hp.data t none a).isSome := by
      intro a ha
      have hat : a ≠ t := fun h => hnot (h ▸ ha)
      rw [Function.update_of_ne hat]
      exact hlive a (List.mem_cons_of_mem _ ha)
    obtain ⟨hp', hok, hfreed, hother⟩ := @ih (hp.next t) { hp with data := Function.update hp.data t none }
      (by simpa using hnext) hnodup' hrest n (by simpa using hfuel)
    have hother' : ∀ a ∉ xs, hp'.data a = Function.update hp.data t none a := hother
    refine ⟨hp', ?_, ?_, ?_⟩
    · rw [destroyLoop, if_neg hne, LinkHeap.getNext_of_live hx, Run.ok_bind, freeLinkNode, LinkHeap.deref,
        if_pos hx]
      exact hok
    · intro a ha
      rcases List.mem_cons.mp ha with rfl | ha
      · rw [hother' a hnot, Function.update_self]
      · exact hfreed a ha
    · intro a ha
      simp only [List.mem_cons, not_or] at ha
      rw [hother' a ha.2, Function.update_of_ne ha.1]

namespace Cache

variable {c : Cache α} {ps : List (ℕ × Entry (List UInt8) α)}

/-- The live nodes are those of the list. -/
theorem Counts.live_eq (hc : c.Counts) (h : c.Rep ps) (a : ℕ) :
    (c.heap.data a).isSome ↔ a ∈ c.lList.head :: ps.map (·.1) := by
  have hsub : (c.lList.head :: ps.map (·.1)).toFinset ⊆ c.heap.live := by
    intro b hb
    exact hc.allocated.mem_live.mpr (h.list.isSome_of_mem (List.mem_toFinset.mp hb))
  have hcard : c.heap.live.card ≤ (c.lList.head :: ps.map (·.1)).toFinset.card := by
    rw [List.toFinset_card_of_nodup h.list.ring.nodup, List.length_cons, List.length_map]
    have hlive := hc.live
    rw [h.len] at hlive
    omega
  rw [← hc.allocated.mem_live, ← Finset.eq_of_subset_of_card_le hsub hcard, List.mem_toFinset]

/-- `DestroyCache` of a cache that holds entries frees each live node, once. -/
theorem Counts.destroy (hc : c.Counts) (h : c.Rep ps) :
    ∃ hp, destroyCache c = .ok hp ∧ ∀ a, hp.data a = none := by
  have hlist := h.list
  have hlive := hc.live_eq h
  obtain ⟨hhead, hrest⟩ := List.forall_mem_cons.mp fun a ha => (hlive a).mpr ha
  have hfew : (ps.map (·.1)).length < c.heap.brk + 1 := by
    have hcard := hc.live
    have hle : c.heap.live.card ≤ c.heap.brk := by
      have := Finset.card_filter_le (Finset.range c.heap.brk) fun a => (c.heap.data a).isSome
      rwa [Finset.card_range] at this
    rw [h.len] at hcard
    rw [List.length_map]
    omega
  obtain ⟨hp, hok, hfreed, hother⟩ := destroyLoop_spec hlist.ring.next_links hlist.ring.nodup hrest hfew
  have hnot : c.lList.head ∉ ps.map (·.1) := (List.nodup_cons.mp hlist.ring.nodup).1
  have hsentinel : (hp.data c.lList.head).isSome := by
    rw [hother _ hnot]
    exact hhead
  refine ⟨{ hp with data := Function.update hp.data c.lList.head none }, ?_, fun a => ?_⟩
  · rw [destroyCache, destroyLinkList, LinkHeap.getNext_of_live hhead, Run.ok_bind, hlist.tail_eq, hok,
      Run.ok_bind, freeLinkNode, LinkHeap.deref, if_pos hsentinel]
    rfl
  · by_cases ha : a = c.lList.head
    · simp [ha]
    · dsimp only
      rw [Function.update_of_ne ha]
      by_cases hmem : a ∈ ps.map (·.1)
      · exact hfreed a hmem
      · rw [hother a hmem, ← Option.not_isSome_iff_eq_none, hlive, List.mem_cons, not_or]
        exact ⟨ha, hmem⟩

end Cache

/-- **No leak, no double free.** After any calls on a new cache, under keys that the table keeps whole, that
return, the list nodes that are live are the sentinel and one for each entry that the cache counts, at most
`maxSize` of these; and `DestroyCache` frees each of them, without a fault, and leaves none. -/
theorem cache_destroyed {maxSize : ℕ} (hmax : 1 ≤ maxSize) (hint : maxSize < 2 ^ 31)
    {uses : List (Use (List UInt8) α)} (hkeeps : ∀ u ∈ uses, KeepsKey u) {rs : List (Option α)} {c : Cache α}
    (hrun : cacheRun uses (createCache maxSize) = .ok (rs, c)) :
    (c.heap.live.card : ℤ) = c.len + 1 ∧ c.len ≤ maxSize ∧
      ∃ hp, destroyCache c = .ok hp ∧ ∀ a, hp.data a = none := by
  obtain ⟨c', ps, hok, h, -, hm⟩ := (createCache_rep hint).cacheRun (by simp only [createCache]; omega) uses
    hkeeps (by rw [hrun]; exact fun h => by cases h)
  obtain ⟨-, rfl⟩ := Prod.mk.inj (Except.ok.inj (hrun.symm.trans hok))
  have hc := (Cache.createCache_counts maxSize).run hrun
  have hbound := h.bound
  rw [hm, ← h.len] at hbound
  exact ⟨hc.live, hbound, hc.destroy h⟩

/-- `cache_destroyed` after an eviction. -/
theorem cache_destroyed_evicted : ∃ rs c,
    cacheRun [.put [97] 5 10 0, .put [98] 6 10 0, .put [99] 7 10 0, .get [98] 1] (createCache (2 : ℕ)) =
      .ok (rs, c) ∧ c.len = 2 ∧ (c.heap.live.card : ℤ) = c.len + 1 ∧
      ∃ hp, destroyCache c = .ok hp ∧ ∀ a, hp.data a = none := by
  have hlen : (cacheRun [.put [97] 5 10 0, .put [98] 6 10 0, .put [99] 7 10 0, .get [98] 1]
      (createCache (2 : ℕ))).map (fun r => r.2.len) = .ok 2 := by decide +kernel
  obtain ⟨⟨rs, c⟩, hrun, hlen⟩ := Run.map_eq_ok.mp hlen
  have hkeeps : ∀ u ∈ [.put [97] 5 10 0, .put [98] 6 10 0, .put [99] 7 10 0, .get [98] 1], KeepsKey u :=
    fun u hu => keepsKey_of_short (by revert u; decide)
  obtain ⟨hlive, -, hdestroy⟩ := cache_destroyed (by decide) (by decide) hkeeps hrun
  exact ⟨rs, c, hrun, hlen, hlive, hdestroy⟩

end DnsRelayer
