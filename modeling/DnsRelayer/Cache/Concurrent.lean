import DnsRelayer.Cache.Runs
import Mathlib.Data.Fintype.Basic
import DnsRelayer.Lib.Runs

/-!
# Concurrent calls of the cache

Threads call `CachePut` and `CacheGet` on one cache. A section between a lock and its unlock is one
step: `CachePut` is one section, `CacheGet` is two. Between its two sections a call of `CacheGet`
keeps the address of the list node that it found, while other threads take steps. `Callers.step` is
a step of one thread; the clock reads any value at each.

A node that a call keeps the address of is an entry of the cache for the key of the call in every
state of a run in which no section removes such a node, and all puts have keys of at most 49 bytes
(`held_is_entry`). Nothing in `CacheGet` makes other threads wait, and `held_is_evicted` is a run in
which a put evicts the node.
-/

namespace DnsRelayer

open Lib

variable {ι α : Type} [DecidableEq ι]

/-- A section of a call. -/
inductive Section (α : Type) where
  /-- The whole of `CachePut`. -/
  | put (key : List UInt8) (data : α) (TTL now : ℤ)
  /-- The section of `CacheGet` under the write lock. -/
  | find (key : List UInt8) (now : ℤ)
  /-- The section of `CacheGet` under the read lock. -/
  | copy

/-- The cache and its callers: the key and the node of each thread that is between the two sections
of `CacheGet`. What was stored, under which key, is kept for the record. -/
structure Callers (ι α : Type) where
  cache : Cache α
  held : ι → Option (List UInt8 × ℕ)
  stored : List (List UInt8 × α)

namespace Callers

/-- No thread has called yet. -/
def init (maxSize : ℤ) : Callers ι α := ⟨createCache maxSize, fun _ => none, []⟩

/-- A step of the thread `t`. A thread between the two sections of `CacheGet` takes the second, and
no other thread does: anything else is no step, and changes nothing. -/
def step (s : Callers ι α) : ι × Section α → Run (Callers ι α)
  | (t, .put key data TTL now) =>
    if (s.held t).isSome then return s
    else do
      let cache ← cachePut s.cache key data TTL now
      return { s with cache := cache, stored := (key, data) :: s.stored }
  | (t, .find key now) =>
    if (s.held t).isSome then return s
    else do
      let (r, cache) ← cacheGetLocked s.cache key now
      return { s with cache := cache, held := Function.update s.held t (r.map (key, ·)) }
  | (t, .copy) =>
    match s.held t with
    | none => return s
    | some (_, lkn) => do
      let _ ← cacheGetCopy s.cache lkn
      return { s with held := Function.update s.held t none }

end Callers

/-- The list node is an entry of the cache for the key: the table has it under the key, it is live,
and it was stored under the key. -/
def Cache.IsEntry (c : Cache α) (key : List UInt8) (lkn : ℕ) (ui : SaveUnit α) : Prop :=
  (∃ n ∈ c.hTab.entries, n.name = key ∧ n.data = lkn) ∧ c.heap.data lkn = some (some ui) ∧
    ui.key = key

/-- The section takes the list node out of the cache: it evicts it to make room for a new key, or
finds it expired. -/
def Cache.Removes (c : Cache α) (lkn : ℕ) : Section α → Prop
  | .put key _ _ _ => c.len ≥ c.maxSize ∧ (∀ n ∈ c.hTab.entries, n.name ≠ key) ∧
      getLastLinkNode c.heap c.lList = .ok lkn
  | .find key now => (∃ n ∈ c.hTab.entries, n.name = key ∧ n.data = lkn) ∧
      ∃ ui, c.heap.data lkn = some (some ui) ∧ now - ui.saveTime > ui.TTL
  | .copy => False

/-- The step stores under a key of at most 49 bytes, if it stores, and takes no list node out of the
cache that a thread has found and not yet copied from. -/
def Callers.Spares (s : Callers ι α) (x : ι × Section α) : Prop :=
  (∀ key data TTL now, x.2 = .put key data TTL now → key.length ≤ 49) ∧
  ∀ t key lkn, s.held t = some (key, lkn) → ¬ s.cache.Removes lkn x.2

instance decidableFound {β : Type} (x : Option (Option β)) (P : β → Prop) [DecidablePred P] :
    Decidable (∃ b, x = some (some b) ∧ P b) :=
  decidable_of_iff (∃ b ∈ x.join, P b) (by simp [Option.join_eq_some_iff])

instance (c : Cache α) (lkn : ℕ) : DecidablePred (c.Removes lkn)
  | .put _ _ _ _ => inferInstanceAs (Decidable (_ ∧ _ ∧ _))
  | .find _ _ => inferInstanceAs (Decidable (_ ∧ _))
  | .copy => inferInstanceAs (Decidable False)

instance [Fintype ι] : DecidableRel (@Callers.Spares ι α) := fun s x =>
  have : Decidable (∀ key data TTL now, x.2 = .put key data TTL now → key.length ≤ 49) :=
    match x.2 with
    | .put key data TTL now => decidable_of_iff (key.length ≤ 49)
      ⟨by rintro h _ _ _ _ ⟨⟩; exact h, fun h => h key data TTL now rfl⟩
    | .find _ _ | .copy => isTrue (by rintro _ _ _ _ ⟨⟩)
  have : DecidablePred fun t => ∀ key lkn, s.held t = some (key, lkn) → ¬ s.cache.Removes lkn x.2 :=
    fun t => match ht : s.held t with
    | some (key, lkn) => decidable_of_iff (¬ s.cache.Removes lkn x.2)
      ⟨fun h k l hl => by cases ht.symm.trans hl; exact h, fun h => h key lkn ht⟩
    | none => isTrue fun k l hl => by cases ht.symm.trans hl
  inferInstanceAs (Decidable (_ ∧ ∀ t, ∀ key lkn, s.held t = some (key, lkn) → _))

/-- The cache holds entries that were stored, and among them, for each thread between the two
sections of `CacheGet`, one for its key at its node. -/
structure Callers.Sound (s : Callers ι α) (ps : List (ℕ × Entry (List UInt8) α)) : Prop where
  rep : s.cache.Rep ps
  maxSize_pos : 1 ≤ s.cache.maxSize
  stored : ∀ p ∈ ps, (p.2.key, p.2.value) ∈ s.stored
  held : ∀ t key lkn, s.held t = some (key, lkn) → ∃ p ∈ ps, p.1 = lkn ∧ p.2.key = key

namespace Callers.Sound

variable {s : Callers ι α} {ps : List (ℕ × Entry (List UInt8) α)}

omit [DecidableEq ι] in
/-- With an entry of a put in front of entries that were there before, the cache is sound, when every
node that is held is one of theirs. -/
theorem front (h : s.Sound ps) {cache : Cache α} {nod : ℕ} {e : Entry (List UInt8) α}
    {rest : List (ℕ × Entry (List UInt8) α)} (hrep : cache.Rep ((nod, e) :: rest))
    (hm : cache.maxSize = s.cache.maxSize) (hrest : ∀ q ∈ rest, q ∈ ps)
    (hheld : ∀ q ∈ ps, (∃ t k, s.held t = some (k, q.1)) → q ∈ rest ∨ nod = q.1 ∧ e.key = q.2.key) :
    Sound { s with cache := cache, stored := (e.key, e.value) :: s.stored } ((nod, e) :: rest) := by
  refine ⟨hrep, hm ▸ h.maxSize_pos, ?_, ?_⟩
  · intro q hq
    rcases List.mem_cons.mp hq with rfl | hq
    · exact List.mem_cons_self
    · exact List.mem_cons_of_mem _ (h.stored q (hrest q hq))
  · intro t k lkn ht
    obtain ⟨q, hq, rfl, rfl⟩ := h.held t k lkn ht
    rcases hheld q hq ⟨t, _, ht⟩ with hq | ⟨hnod, hkey⟩
    · exact ⟨q, List.mem_cons_of_mem _ hq, rfl, rfl⟩
    · exact ⟨_, List.mem_cons_self, hnod, hkey⟩

omit [DecidableEq ι] in
/-- `CachePut` keeps the nodes that are held, when it does not evict one. -/
theorem put (h : s.Sound ps) {cache : Cache α} {key : List UInt8} {data : α} {TTL now : ℤ}
    (hkey : key.length ≤ 49)
    (hspare : ∀ t k lkn, s.held t = some (k, lkn) →
      ¬ s.cache.Removes lkn (.put key data TTL now))
    (hput : cachePut s.cache key data TTL now = .ok cache) :
    ∃ ps', Sound { s with cache := cache, stored := (key, data) :: s.stored } ps' := by
  have hshort : Short key := Nat.lt_of_le_of_lt hkey (by decide)
  rcases Nat.eq_zero_or_pos s.cache.hTab.len with h0 | hlen
  · rw [cachePut_of_len_zero h0] at hput
    cases hput
  by_cases hk : key ∈ ps.map (·.2.key)
  · -- An update keeps the node of the entry.
    obtain ⟨l, p, r, rfl, hp⟩ := exists_split_of_key hk
    obtain ⟨c', hok, hrep, -, hm⟩ := cachePut_of_mem h.rep hlen hp data TTL now
    obtain rfl := Except.ok.inj (hok.symm.trans hput)
    refine ⟨_, h.front hrep hm ?_ ?_⟩
    · exact fun q hq => List.perm_middle.mem_iff.mpr (List.mem_cons_of_mem _ hq)
    · intro q hq _
      rcases List.mem_cons.mp (List.perm_middle.mem_iff.mp hq) with rfl | hq
      · exact Or.inr ⟨rfl, hp.symm⟩
      · exact Or.inl hq
  · rcases h.rep.bound.lt_or_eq with hlt | heq
    · obtain ⟨c', nod, hok, hrep, hm, -⟩ := cachePut_of_lt h.rep hlen hshort.fits hk hlt data TTL now
      obtain rfl := Except.ok.inj (hok.symm.trans hput)
      exact ⟨_, h.front hrep hm (fun _ hq => hq) fun _ hq _ => Or.inl hq⟩
    · rcases List.eq_nil_or_concat' ps with rfl | ⟨l, p, rfl⟩
      · have := h.maxSize_pos
        simp at heq
        omega
      -- The last entry goes; no thread holds its node.
      have hlast : s.cache.Removes p.1 (.put key data TTL now) := by
        refine ⟨(h.rep.len.trans heq).ge, ?_, getLastLinkNode_of_concat h.rep⟩
        intro n hn hname
        exact hk (h.rep.mem_keys_iff.mpr ⟨n, hn, hname⟩)
      have hfull := cachePut_of_full h.rep hlen hshort.fits hk heq data TTL now
      split_ifs at hfull
      · rw [hfull] at hput
        cases hput
      obtain ⟨c', nod, hok, hrep, hm, -⟩ := hfull
      obtain rfl := Except.ok.inj (hok.symm.trans hput)
      refine ⟨_, h.front hrep hm (fun _ hq => List.mem_append_left _ hq) ?_⟩
      rintro q hq ⟨t, k, ht⟩
      rcases List.mem_append.mp hq with hq | hq
      · exact Or.inl hq
      · obtain rfl := List.mem_singleton.mp hq
        exact absurd hlast (hspare t k _ ht)

/-- The first section of `CacheGet` keeps the nodes that are held, when it does not drop one, and
the node that it finds is one of an entry for its key. -/
theorem find (h : s.Sound ps) {cache : Cache α} {key : List UInt8} {now : ℤ} {r : Option ℕ} (t : ι)
    (hspare : ∀ t k lkn, s.held t = some (k, lkn) → ¬ s.cache.Removes lkn (.find key now))
    (hfind : cacheGetLocked s.cache key now = .ok (r, cache)) :
    ∃ ps', Sound { s with cache := cache, held := Function.update s.held t (r.map (key, ·)) }
      ps' := by
  rcases Nat.eq_zero_or_pos s.cache.hTab.len with h0 | hlen
  · rw [cacheGetLocked_of_len_zero h0] at hfind
    cases hfind
  have hspec := cacheGetLocked_spec h.rep hlen key now
  rw [hfind] at hspec
  -- A held node other than the one just found was held before.
  have hold : ∀ u k lkn, Function.update s.held t (r.map (key, ·)) u = some (k, lkn) →
      s.held u = some (k, lkn) ∨ (k = key ∧ r = some lkn) := by
    intro u k lkn hu
    by_cases hut : u = t
    · subst hut
      rw [Function.update_self] at hu
      obtain ⟨a, ha, heq⟩ := Option.map_eq_some_iff.mp hu
      cases heq
      exact Or.inr ⟨rfl, ha⟩
    · rw [Function.update_of_ne hut] at hu
      exact Or.inl hu
  cases hspec with
  | absent hk =>
    refine ⟨ps, h.rep, h.maxSize_pos, h.stored, fun u k lkn hu => ?_⟩
    rcases hold u k lkn hu with hu | ⟨-, hr⟩
    · exact h.held u k lkn hu
    · cases hr
  | expired l p r' hsplit hp hexp hrep hm hfree hzero =>
    subst hsplit
    refine ⟨_, hrep, by rw [hm]; exact h.maxSize_pos, ?_, fun u k lkn hu => ?_⟩
    · intro q hq
      exact h.stored q (List.perm_middle.mem_iff.mpr (List.mem_cons_of_mem _ hq))
    · rcases hold u k lkn hu with hu | ⟨-, hr⟩
      · obtain ⟨q, hq, hql, hqk⟩ := h.held u k lkn hu
        rcases List.mem_cons.mp (List.perm_middle.mem_iff.mp hq) with rfl | hq
        · -- The node that expired is not held.
          refine absurd ?_ (hspare u k lkn hu)
          rw [← hql]
          refine ⟨⟨tableNode q, h.rep.table.mem_iff.mpr (List.mem_map_of_mem (by simp)), hp, rfl⟩,
            _, h.rep.data q (by simp), hexp⟩
        · exact ⟨q, hq, hql, hqk⟩
      · cases hr
  | hit l p r' hsplit hp hexp hrep hm htab =>
    subst hsplit
    refine ⟨_, hrep, by rw [hm]; exact h.maxSize_pos, ?_, fun u k lkn hu => ?_⟩
    · intro q hq
      exact h.stored q (List.perm_middle.mem_iff.mpr hq)
    · rcases hold u k lkn hu with hu | ⟨rfl, hr⟩
      · obtain ⟨q, hq, hql, hqk⟩ := h.held u k lkn hu
        exact ⟨q, List.perm_middle.mem_iff.mp hq, hql, hqk⟩
      · cases hr
        exact ⟨p, List.mem_cons_self, rfl, hp⟩

end Callers.Sound

/-- A step that takes no held node out keeps the cache sound. -/
theorem Callers.step_sound {s s' : Callers ι α} (h : ∃ ps, s.Sound ps) (x : ι × Section α)
    (hspare : s.Spares x) (hstep : s.step x = .ok s') : ∃ ps, s'.Sound ps := by
  obtain ⟨ps, h⟩ := h
  obtain ⟨t, sec⟩ := x
  obtain ⟨hkeys, hheld⟩ := hspare
  cases sec with
  -- A thread is in one section at a time; only `CacheGet` has two.
  | put key data TTL now =>
    simp only [Callers.step] at hstep
    split_ifs at hstep with ht
    · cases hstep
      exact ⟨ps, h⟩
    · obtain ⟨cache, hput, hs⟩ := Run.bind_eq_ok.mp hstep
      cases hs
      exact h.put (hkeys key data TTL now rfl) hheld hput
  | find key now =>
    simp only [Callers.step] at hstep
    split_ifs at hstep with ht
    · cases hstep
      exact ⟨ps, h⟩
    · obtain ⟨⟨r, cache⟩, hfind, hs⟩ := Run.bind_eq_ok.mp hstep
      cases hs
      exact h.find t hheld hfind
  | copy =>
    simp only [Callers.step] at hstep
    cases ht : s.held t with
    | none =>
      rw [ht] at hstep
      cases hstep
      exact ⟨ps, h⟩
    | some kl =>
      rw [ht] at hstep
      obtain ⟨d, hcopy, hs⟩ := Run.bind_eq_ok.mp hstep
      cases hs
      refine ⟨ps, h.rep, h.maxSize_pos, h.stored, fun u k lkn hu => ?_⟩
      -- The copy is done, so the thread holds no node any more.
      by_cases hut : u = t
      · simp [hut] at hu
      · exact h.held u k lkn ((Function.update_of_ne hut _ _).symm.trans hu)

/-- In every state of a run whose steps store under keys of at most 49 bytes and take no node out of
the cache that a thread is about to copy from, the node that a thread is about to copy from is an
entry of the cache for the key that the thread asked for, and what it copies was stored under that
key. -/
theorem held_is_entry (maxSize : ℕ) (hmax : 1 ≤ maxSize) (hint : maxSize < 2 ^ 31)
    (xs : List (ι × Section α)) (hspares : Meets Callers.step Callers.Spares (Callers.init maxSize) xs) :
    ∀ pre, pre <+: xs → ∀ s, exec Callers.step (Callers.init maxSize) pre = .ok s →
      ∀ t key lkn, s.held t = some (key, lkn) →
        ∃ ui, s.cache.IsEntry key lkn ui ∧ cacheGetCopy s.cache lkn = .ok ui.data ∧
          (key, ui.data) ∈ s.stored := by
  have hinit : ∃ ps, (Callers.init maxSize : Callers ι α).Sound ps :=
    ⟨[], createCache_rep hint, by simp only [Callers.init, createCache]; omega, by simp,
      fun t key lkn ht => by cases ht⟩
  intro pre hpre s hs t key lkn ht
  obtain ⟨ps, h⟩ := exec_invariant (I := fun s => ∃ ps, s.Sound ps) hinit
    (fun s x s' h hx hstep => Callers.step_sound h x hx hstep) hspares pre hpre s hs
  obtain ⟨p, hp, rfl, rfl⟩ := h.held t key lkn ht
  have hdata := h.rep.getData hp
  refine ⟨SaveUnit.of p.2, ⟨⟨tableNode p, h.rep.table.mem_iff.mpr (List.mem_map_of_mem hp), rfl,
    rfl⟩, h.rep.data p hp, rfl⟩, ?_, h.stored p hp⟩
  simp only [cacheGetCopy, hdata, Run.ok_bind]
  rfl

/-- While one thread holds the node of `a`, another updates the key, stores another one, and gets it. -/
def updatedMeanwhile : List (Bool × Section ℕ) :=
  [(false, .put [97] 5 10 0), (true, .find [97] 1), (false, .put [97] 6 10 1), (false, .put [98] 7 10 1),
    (false, .find [98] 2), (false, .copy)]

/-- `held_is_entry` for a node whose key another thread updates: the thread copies the new value. -/
theorem held_is_entry_two : ∃ s ui, exec Callers.step (Callers.init (2 : ℕ)) updatedMeanwhile = .ok s ∧
    s.held true = some ([97], 2) ∧ s.cache.IsEntry [97] 2 ui ∧ cacheGetCopy s.cache 2 = .ok 6 ∧ ui.data = 6 ∧
    ([97], 6) ∈ s.stored := by
  obtain ⟨s, hs, hseen⟩ : ∃ s, exec Callers.step (Callers.init (2 : ℕ)) updatedMeanwhile = .ok s ∧
      decide (s.held true = some ([97], 2) ∧ cacheGetCopy s.cache 2 = .ok 6) = true :=
    exec_reaches (by decide +kernel)
  obtain ⟨hheld, hcopy⟩ := of_decide_eq_true hseen
  obtain ⟨ui, hentry, hcopies, hstored⟩ := held_is_entry 2 (by decide) (by decide) updatedMeanwhile
    (by decide +kernel) _ (List.prefix_refl _) s hs true _ _ hheld
  have hdata : ui.data = 6 := Except.ok.inj (hcopies.symm.trans hcopy)
  exact ⟨s, ui, hs, hheld, hentry, hcopy, hdata, hdata ▸ hstored⟩

/-- In a cache for one entry, a thread finds the node of one key, and then another thread stores
under another key: the node that the first is about to copy from is no entry of the cache, and
copying from it dereferences freed memory. -/
theorem held_is_evicted :
    (∃ s, exec Callers.step (Callers.init (1 : ℕ))
        [((0 : ℕ), (.put [97] 5 10 0 : Section ℕ)), (1, .find [97] 0), (0, .put [98] 6 10 0)] =
          .ok s ∧
      ∃ lkn, s.held 1 = some ([97], lkn) ∧ ¬ ∃ ui, s.cache.IsEntry [97] lkn ui) ∧
    (exec Callers.step (Callers.init (1 : ℕ))
        [((0 : ℕ), (.put [97] 5 10 0 : Section ℕ)), (1, .find [97] 0), (0, .put [98] 6 10 0),
          (1, .copy)]).map (fun _ => ()) = .error .badPointer := by
  refine ⟨?_, by decide +kernel⟩
  have hrun : (exec Callers.step (Callers.init (1 : ℕ))
      [((0 : ℕ), (.put [97] 5 10 0 : Section ℕ)), (1, .find [97] 0), (0, .put [98] 6 10 0)]).map
        (fun s => (s.held 1, s.cache.heap.data 2)) = .ok (some ([97], 2), none) := by
    decide +kernel
  cases hs : exec Callers.step (Callers.init (1 : ℕ))
      [((0 : ℕ), (.put [97] 5 10 0 : Section ℕ)), (1, .find [97] 0), (0, .put [98] 6 10 0)] with
  | error e =>
    rw [hs] at hrun
    cases hrun
  | ok s =>
    rw [hs] at hrun
    simp only [Except.map, Except.ok.injEq, Prod.mk.injEq] at hrun
    obtain ⟨hheld, hdead⟩ := hrun
    refine ⟨s, rfl, 2, hheld, ?_⟩
    -- The node is freed, so it is no entry.
    rintro ⟨ui, -, hlive, -⟩
    rw [hdead] at hlive
    cases hlive

end DnsRelayer
