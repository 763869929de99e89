import DnsRelayer.Cache.Refinement
import Mathlib.Data.List.Induction

/-!
# Sequences of calls of the cache

What holds along every sequence of calls of `CachePut` and `CacheGet`, from the cache that
`CreateCache` returns. As long as the hash table keeps a chain to look into, the calls return what
the reference map returns (`cacheRun_refines`). It keeps one exactly when no call finds the table
with a single chain and removes its only entry (`buckets_remain_iff`).
-/

namespace DnsRelayer

open Lib

variable {α : Type} {c : Cache α} {ps : List (ℕ × Entry (List UInt8) α)}

/-- A new cache holds no entries. -/
theorem createCache_rep {maxSize : ℕ} (hint : maxSize < 2 ^ 31) :
    (createCache maxSize : Cache α).Rep [] := by
  have hnew : (createCache maxSize : Cache α).hTab = newHashTab := rfl
  obtain ⟨hlist, hallocated⟩ :=
    @newLinkList_isList (SaveUnit α) emptyHeap emptyHeap_allocated (Nat.lt_succ_self _)
  exact {
    list := hlist.holdsList (by simp)
    data := by simp
    keys := by simp
    short := by simp
    table := by
      rw [hnew, HashTab.newHashTab_entries]
      exact List.Perm.refl _
    placed := HashTab.newHashTab_indexed.placed
    num := rfl
    len := rfl
    bound := by simp [createCache]
    maxSize_lt := by simp only [createCache]; omega
    size := by
      rw [hnew, HashTab.newHashTab_len]
      exact le_max_left _ _
    allocated := hallocated }

/-- The table of a new cache has a chain. -/
theorem createCache_chain (maxSize : ℤ) : 0 < (createCache maxSize : Cache α).hTab.len := by
  rw [show (createCache maxSize : Cache α).hTab = newHashTab from rfl, HashTab.newHashTab_len]
  decide

/-- A sequence of calls is its parts one after the other. -/
theorem cacheRun_append (us vs : List (Use (List UInt8) α)) (c : Cache α) :
    cacheRun (us ++ vs) c = (do
      let (rs, c) ← cacheRun us c
      let (ss, c) ← cacheRun vs c
      return (rs ++ ss, c)) := by
  induction us generalizing c with
  | nil =>
    simp only [List.nil_append, cacheRun, pure, Except.pure, Run.ok_bind]
    cases cacheRun vs c <;> rfl
  | cons u us ih =>
    cases u with
    | put key data TTL now =>
      simp only [List.cons_append, cacheRun, ih]
      cases cachePut c key data TTL now <;> rfl
    | get key now =>
      simp only [List.cons_append, cacheRun, ih]
      cases cacheGet c key now with
      | error e => rfl
      | ok r =>
        simp only [Run.ok_bind]
        cases cacheRun us r.2 with
        | error e => rfl
        | ok s =>
          simp only [Run.ok_bind, pure, Except.pure]
          cases cacheRun vs s.2 <;> rfl

/-! ## One call -/

/-- A call that does not put a key that nodes truncate. -/
def KeepsKey : Use (List UInt8) α → Prop
  | .put key _ _ _ => Fits key
  | .get _ _ => True

instance : DecidablePred (@KeepsKey α)
  | .put key _ _ _ => inferInstanceAs (Decidable (Fits key))
  | .get _ _ => inferInstanceAs (Decidable True)

/-- A call under a key that is kept whole with its terminator. -/
theorem keepsKey_of_short {u : Use (List UInt8) α} (h : Short u.key) : KeepsKey u := by
  cases u with
  | put key data TTL now => exact Short.fits h
  | get key now => trivial

/-- A call that removes the only entry while the table has a single chain: a put that evicts it, or
a get that finds it expired. -/
def Cache.Collapses (c : Cache α) : Use (List UInt8) α → Prop
  | .put key _ _ _ => c.hTab.len = 1 ∧ c.len = 1 ∧ c.maxSize = 1 ∧ ∀ n ∈ c.hTab.entries, n.name ≠ key
  | .get key now => c.hTab.len = 1 ∧ c.len = 1 ∧ ∃ n ∈ c.hTab.entries, n.name = key ∧
      ∃ ui, c.heap.data n.data = some (some ui) ∧ now - ui.saveTime > ui.TTL

/-- The keys in the table are those of the entries. -/
theorem Cache.Rep.mem_keys_iff (h : c.Rep ps) {key : List UInt8} :
    key ∈ ps.map (·.2.key) ↔ ∃ n ∈ c.hTab.entries, n.name = key := by
  constructor
  · intro hk
    obtain ⟨p, hp, rfl⟩ := List.mem_map.mp hk
    exact ⟨tableNode p, h.table.mem_iff.mpr (List.mem_map_of_mem hp), rfl⟩
  · rintro ⟨n, hn, rfl⟩
    obtain ⟨p, hp, rfl⟩ := List.mem_map.mp (h.table.mem_iff.mp hn)
    exact List.mem_map.mpr ⟨p, hp, rfl⟩

theorem Cache.Rep.collapses_put_iff (h : c.Rep ps) {key : List UInt8} {data : α} {TTL now : ℤ} :
    c.Collapses (.put key data TTL now) ↔ PutCollapses c ps key := by
  have hlen : c.len = 1 ↔ ps.length = 1 := by
    rw [h.len]
    omega
  rw [Cache.Collapses, PutCollapses, hlen, h.mem_keys_iff]
  simp

theorem Cache.Rep.collapses_get_iff (h : c.Rep ps) {key : List UInt8} {now : ℤ} :
    c.Collapses (.get key now) ↔ GetCollapses c ps key now := by
  have hlen : c.len = 1 ↔ ps.length = 1 := by
    rw [h.len]
    omega
  rw [Cache.Collapses, GetCollapses, hlen]
  refine and_congr_right fun _ => and_congr_right fun _ => ?_
  constructor
  · rintro ⟨n, hn, rfl, ui, hui, hexp⟩
    obtain ⟨p, hp, rfl⟩ := List.mem_map.mp (h.table.mem_iff.mp hn)
    have hpui := (h.data p hp).symm.trans hui
    simp only [Option.some.injEq] at hpui
    exact ⟨p, hp, rfl, by rw [← hpui] at hexp; exact hexp⟩
  · rintro ⟨p, hp, rfl, hexp⟩
    exact ⟨tableNode p, h.table.mem_iff.mpr (List.mem_map_of_mem hp), rfl, _, h.data p hp, hexp⟩

/-- `CachePut` on a cache whose table has no chain. -/
theorem cachePut_of_len_zero (h0 : c.hTab.len = 0) (key : List UInt8) (data : α) (TTL now : ℤ) :
    cachePut c key data TTL now = .error .divByZero := by
  rw [cachePut, search, if_pos h0, Run.error_bind]

/-- `CacheGet` on a cache whose table has no chain. -/
theorem cacheGetLocked_of_len_zero (h0 : c.hTab.len = 0) (key : List UInt8) (now : ℤ) :
    cacheGetLocked c key now = .error .divByZero := by
  rw [cacheGetLocked, search, if_pos h0, Run.error_bind]

/-- A call on a cache whose table has no chain divides by zero. -/
theorem cacheRun_of_len_zero (h0 : c.hTab.len = 0) (u : Use (List UInt8) α)
    (us : List (Use (List UInt8) α)) : cacheRun (u :: us) c = .error .divByZero := by
  cases u with
  | put key data TTL now => simp only [cacheRun, cachePut_of_len_zero h0, Run.error_bind]
  | get key now => simp only [cacheRun, cacheGet, cacheGetLocked_of_len_zero h0, Run.error_bind]

/-- A call on a cache whose table has a chain does what the reference map does. It leaves a chain,
unless it removes the only entry out of a table with one chain: then a put divides by zero, and a
get leaves no chain. -/
theorem cacheCall_spec (h : c.Rep ps) (hlen : 0 < c.hTab.len) (hmax : 1 ≤ c.maxSize)
    (u : Use (List UInt8) α) (hkeeps : KeepsKey u) :
    c.Collapses u ∧ cacheRun [u] c = .error .divByZero ∨
    ∃ c' ps', cacheRun [u] c = .ok ((Lru.run c.maxSize.toNat [u] (ps.map (·.2))).1, c') ∧
      c'.Rep ps' ∧ ps'.map (·.2) = (Lru.run c.maxSize.toNat [u] (ps.map (·.2))).2 ∧
      c'.maxSize = c.maxSize ∧ (c'.hTab.len = 0 ↔ c.Collapses u) := by
  cases u with
  | put key data TTL now =>
    have hput := cachePut_spec h hlen hmax hkeeps data TTL now
    by_cases hc : PutCollapses c ps key
    · rw [if_pos hc] at hput
      exact Or.inl ⟨h.collapses_put_iff.mpr hc, by simp only [cacheRun, hput, Run.error_bind]⟩
    · rw [if_neg hc] at hput
      obtain ⟨c', ps', hok, hrep, heq, hm, hpos⟩ := hput
      refine Or.inr ⟨c', ps', ?_, hrep, heq, hm, ?_⟩
      · simp only [cacheRun, hok, Run.ok_bind]
        rfl
      · rw [h.collapses_put_iff]
        exact ⟨fun h0 => by omega, fun h0 => absurd h0 hc⟩
  | get key now =>
    obtain ⟨c', ps', hok, hrep, heq, hm, hzero⟩ := cacheGet_spec h hlen key now
    refine Or.inr ⟨c', ps', ?_, hrep, heq, hm, hzero.trans h.collapses_get_iff.symm⟩
    simp only [cacheRun, hok, Run.ok_bind]
    rfl

/-! ## Every sequence of calls -/

/-- From a cache that holds entries, a sequence of calls does what the reference map does, unless it
divides by zero. -/
theorem Cache.Rep.cacheRun (h : c.Rep ps) (hmax : 1 ≤ c.maxSize)
    (uses : List (Use (List UInt8) α)) (hkeeps : ∀ u ∈ uses, KeepsKey u)
    (hdiv : cacheRun uses c ≠ .error .divByZero) :
    ∃ c' ps', cacheRun uses c = .ok ((Lru.run c.maxSize.toNat uses (ps.map (·.2))).1, c') ∧
      c'.Rep ps' ∧ ps'.map (·.2) = (Lru.run c.maxSize.toNat uses (ps.map (·.2))).2 ∧
      c'.maxSize = c.maxSize := by
  induction uses generalizing c ps with
  | nil => exact ⟨c, ps, rfl, h, rfl, rfl⟩
  | cons u us ih =>
    rcases Nat.eq_zero_or_pos c.hTab.len with h0 | hlen
    · exact absurd (cacheRun_of_len_zero h0 u us) hdiv
    have happ := cacheRun_append [u] us c
    rw [List.singleton_append] at happ
    rw [happ] at hdiv ⊢
    -- One call, and then the rest from where it leaves the cache.
    rcases cacheCall_spec h hlen hmax u (hkeeps u (by simp)) with ⟨-, herr⟩ | hok
    · rw [herr] at hdiv
      exact absurd rfl hdiv
    · obtain ⟨c₁, ps₁, hrun, hrep, heq, hm, -⟩ := hok
      rw [hrun] at hdiv ⊢
      simp only [Run.ok_bind] at hdiv ⊢
      obtain ⟨c₂, ps₂, hrun₂, hrep₂, heq₂, hm₂⟩ :=
        ih hrep (by omega) (fun v hv => hkeeps v (by simp [hv])) (fun he => hdiv (by rw [he]; rfl))
      rw [heq, hm] at hrun₂ heq₂
      refine ⟨c₂, ps₂, ?_, hrep₂, ?_, hm₂.trans hm⟩
      · rw [hrun₂, Lru.run_cons _ u us]
        rfl
      · rw [heq₂, Lru.run_cons _ u us]

/-- From a new cache for at least one entry, along every sequence of calls whose keys have at most
49 bytes, and for which the hash table is not left without a chain to look into, `CacheGet` returns
what the reference map returns. Then the table and the list hold the entries of the reference map,
one node for each, and the cache counts them and has at most `maxSize`. -/
theorem cacheRun_refines (maxSize : ℕ) (hmax : 1 ≤ maxSize) (hint : maxSize < 2 ^ 31)
    (uses : List (Use (List UInt8) α)) (hkeys : ∀ u ∈ uses, u.key.length ≤ 49)
    (hbuckets : cacheRun uses (createCache maxSize) ≠ .error .divByZero) :
    ∃ c ps, cacheRun uses (createCache maxSize) = .ok ((Lru.run maxSize uses []).1, c) ∧
      c.Rep ps ∧ ps.map (·.2) = (Lru.run maxSize uses []).2 ∧
      c.len = ps.length ∧ c.len ≤ maxSize := by
  obtain ⟨c, ps, hok, hrep, heq, hm⟩ := (createCache_rep hint).cacheRun
    (by simp only [createCache]; omega) uses
    (fun u hu => keepsKey_of_short (Nat.lt_of_le_of_lt (hkeys u hu) (by decide))) hbuckets
  have hto : (createCache maxSize : Cache α).maxSize.toNat = maxSize := Int.toNat_natCast _
  rw [hto] at hok heq
  have hbound := hrep.bound
  rw [hm, ← hrep.len] at hbound
  exact ⟨c, ps, hok, hrep, heq, hrep.len, hbound⟩

/-- Three calls for a cache of two entries. -/
theorem cacheRun_refines_two :
    ∃ c ps, cacheRun [.put [97] 5 10 0, .get [97] 1, .get [98] 1] (createCache (2 : ℕ)) =
        .ok ([some 5, none], c) ∧
      c.Rep ps ∧ ps.map (·.2) = [⟨[97], 5, 0, 10⟩] ∧ c.len = ps.length ∧ c.len ≤ (2 : ℕ) :=
  cacheRun_refines 2 (by decide) (by decide)
    [.put [97] 5 10 0, .get [97] 1, .get [98] 1] (by decide) (by
      intro he
      have : (cacheRun [.put [97] 5 10 0, .get [97] 1, .get [98] 1]
        (createCache (2 : ℕ))).toOption.isNone = true := by rw [he]; rfl
      revert this
      decide +kernel)

/-- Calls that return, from a new cache for at least one entry, leave a cache that holds entries. -/
theorem rep_of_cacheRun {maxSize : ℕ} (hmax : 1 ≤ maxSize) (hint : maxSize < 2 ^ 31)
    {us : List (Use (List UInt8) α)} (hkeeps : ∀ u ∈ us, KeepsKey u) {rs : List (Option α)}
    (hrun : cacheRun us (createCache maxSize) = .ok (rs, c)) : ∃ ps, c.Rep ps ∧ 1 ≤ c.maxSize := by
  have hmax' : 1 ≤ (createCache maxSize : Cache α).maxSize := by simp only [createCache]; omega
  obtain ⟨c', ps, hok, hr, -, hm⟩ := (createCache_rep hint).cacheRun hmax' us hkeeps (by
    rw [hrun]
    exact fun h => by cases h)
  rw [hrun] at hok
  cases hok
  exact ⟨ps, hr, by omega⟩

/-- When calls have left a chain, one more leaves a chain exactly when it does not remove the only
entry while there is a single one. -/
theorem remains_concat_iff {c₀ : Cache α} {us : List (Use (List UInt8) α)}
    {u : Use (List UInt8) α} {rs : List (Option α)} (hrun : cacheRun us c₀ = .ok (rs, c))
    (hr : c.Rep ps) (hlen : 0 < c.hTab.len) (hmax : 1 ≤ c.maxSize) (hu : KeepsKey u) :
    (∃ rs' c', cacheRun (us ++ [u]) c₀ = .ok (rs', c') ∧ 1 ≤ c'.hTab.len) ↔ ¬ c.Collapses u := by
  rw [cacheRun_append, hrun]
  simp only [Run.ok_bind]
  rcases cacheCall_spec hr hlen hmax u hu with ⟨hcol, herr⟩ | ⟨c₁, ps₁, hok, -, -, -, hzero⟩
  · rw [herr]
    constructor
    · rintro ⟨rs', c', h, -⟩
      cases h
    · intro h
      exact absurd hcol h
  · rw [hok, ← hzero]
    constructor
    · rintro ⟨rs', c', h, hlen'⟩
      cases h
      exact Nat.one_le_iff_ne_zero.mp hlen'
    · intro h
      exact ⟨_, c₁, rfl, Nat.one_le_iff_ne_zero.mpr h⟩

/-- After every call of a sequence, from a new cache for at least one entry and with keys of at most
49 bytes, the hash table has a chain, if and only if no call removes the only entry while the table
has a single chain. -/
theorem buckets_remain_iff (maxSize : ℕ) (hmax : 1 ≤ maxSize) (hint : maxSize < 2 ^ 31)
    (uses : List (Use (List UInt8) α)) (hkeys : ∀ u ∈ uses, u.key.length ≤ 49) :
    (∀ us, us <+: uses →
      ∃ rs c, cacheRun us (createCache maxSize) = .ok (rs, c) ∧ 1 ≤ c.hTab.len) ↔
    ∀ us u, us ++ [u] <+: uses → ∀ rs c, cacheRun us (createCache maxSize) = .ok (rs, c) →
      ¬ c.Collapses u := by
  have hkeeps : ∀ u ∈ uses, KeepsKey u := fun u hu =>
    keepsKey_of_short (Nat.lt_of_le_of_lt (hkeys u hu) (by decide))
  -- One call more, from a cache with a chain.
  have hstep : ∀ us u, us ++ [u] <+: uses → ∀ rs c,
      cacheRun us (createCache maxSize) = .ok (rs, c) → 1 ≤ c.hTab.len →
      ((∃ rs' c', cacheRun (us ++ [u]) (createCache maxSize) = .ok (rs', c') ∧ 1 ≤ c'.hTab.len) ↔
        ¬ c.Collapses u) := by
    intro us u hp rs c hrun hlen
    obtain ⟨ps, hr, hm⟩ := rep_of_cacheRun hmax hint
      (fun v hv => hkeeps v (hp.subset (List.mem_append_left _ hv))) hrun
    exact remains_concat_iff hrun hr hlen hm (hkeeps u (hp.subset (by simp)))
  have hbefore : ∀ us u, us ++ [u] <+: uses → us <+: uses :=
    fun us u hp => (List.prefix_append us [u]).trans hp
  constructor
  · intro hall us u hp rs c hrun
    obtain ⟨rs', c', hrun', hlen⟩ := hall us (hbefore us u hp)
    rw [hrun] at hrun'
    cases hrun'
    exact (hstep us u hp rs c hrun hlen).mp (hall _ hp)
  · intro hall us
    induction us using List.reverseRecOn with
    | nil => exact fun _ => ⟨[], _, rfl, createCache_chain _⟩
    | append_singleton us u ih =>
      intro hp
      obtain ⟨rs, c, hrun, hlen⟩ := ih (hbefore us u hp)
      exact (hstep us u hp rs c hrun hlen).mpr (hall us u hp rs c hrun)

/-- The condition of `buckets_remain_iff`, used on two calls for a cache of two entries. -/
theorem buckets_remain_two :
    (∀ us, us <+: [.put [97] 5 10 0, .get [97] 1] →
      ∃ rs c, cacheRun us (createCache (2 : ℕ)) = .ok (rs, c) ∧ 1 ≤ c.hTab.len) ↔
    ∀ us u, us ++ [u] <+: [.put [97] 5 10 0, .get [97] 1] →
      ∀ rs (c : Cache ℕ), cacheRun us (createCache (2 : ℕ)) = .ok (rs, c) → ¬ c.Collapses u :=
  buckets_remain_iff 2 (by decide) (by decide) [.put [97] 5 10 0, .get [97] 1] (by decide)

/-- Twelve puts under twelve keys, with a long time to live. -/
def twelvePuts : List (Use (List UInt8) ℕ) :=
  (List.range 12).map fun i => .put [97 + UInt8.ofNat i] 0 1000 0

/-- In a cache for one entry every put of a new key evicts, and with each eviction the table is
halved: the twelfth put finds one chain, leaves none, and divides by zero. -/
theorem buckets_lost :
    (∀ u ∈ twelvePuts, u.key.length ≤ 49) ∧
    ¬ ∀ us, us <+: twelvePuts →
      ∃ rs c, cacheRun us (createCache (1 : ℕ)) = .ok (rs, c) ∧ 1 ≤ c.hTab.len := by
  refine ⟨by decide, fun h => ?_⟩
  obtain ⟨rs, c, hrun, -⟩ := h twelvePuts (List.prefix_refl _)
  have : (cacheRun twelvePuts (createCache (1 : ℕ))).map (·.1) = .error .divByZero := by
    decide +kernel
  rw [hrun] at this
  cases this

end DnsRelayer
