import DnsRelayer.Cache.Runs
import DnsRelayer.Lib.LruRuns

/-!
# What the cache keeps

Along every sequence of calls that returns, from a new cache, `CacheGet` returns nothing but the data
that was put last under its key, in its time to live (`cacheGet_lastPut`). It does return it as long as
fewer other keys than the cache has entries for are used between two uses of the key
(`cacheGet_retained`). A cache for more entries answers every call that one for fewer answers, with the
same data (`larger_cache_returns`).
-/

namespace DnsRelayer

open Lib

variable {α : Type} {c : Cache α} {maxSize : ℕ} {uses : List (Use (List UInt8) α)}
  {rs : List (Option α)}

/-- Calls that return, from a new cache for at least one entry, return what the reference map
returns. -/
theorem results_of_cacheRun (hmax : 1 ≤ maxSize) (hint : maxSize < 2 ^ 31)
    (hkeeps : ∀ u ∈ uses, KeepsKey u) (hrun : cacheRun uses (createCache maxSize) = .ok (rs, c)) :
    rs = (Lru.run maxSize uses []).1 := by
  obtain ⟨c', ps, hok, -⟩ := (createCache_rep hint).cacheRun
    (by simp only [createCache]; omega) uses hkeeps (by rw [hrun]; exact fun h => by cases h)
  rw [hrun] at hok
  rw [show (createCache maxSize : Cache α).maxSize.toNat = maxSize from Int.toNat_natCast _] at hok
  exact (Prod.mk.inj (Except.ok.inj hok)).1

/-- What the last of a sequence of calls returns, when it is a `CacheGet`. -/
theorem result_of_cacheGet (hmax : 1 ≤ maxSize) (hint : maxSize < 2 ^ 31)
    {us : List (Use (List UInt8) α)} {key : List UInt8} {now : ℤ} (hkeeps : ∀ u ∈ us, KeepsKey u)
    (hrun : cacheRun (us ++ [.get key now]) (createCache maxSize) = .ok (rs, c)) :
    rs = (Lru.run maxSize us []).1 ++ [(Lru.get key now (Lru.run maxSize us []).2).1] := by
  rw [results_of_cacheRun hmax hint (fun u hu => ?_) hrun, Lru.run_append]
  · rfl
  · rcases List.mem_append.mp hu with hu | hu
    · exact hkeeps u hu
    · obtain rfl := List.mem_singleton.mp hu
      trivial

/-- A run that is known by what it returns. -/
theorem exists_cacheRun {c₀ : Cache α} (h : (cacheRun uses c₀).map Prod.fst = .ok rs) :
    ∃ c, cacheRun uses c₀ = .ok (rs, c) := by
  obtain ⟨⟨rs', c⟩, hrun, rfl⟩ := Run.map_eq_ok.mp h
  exact ⟨c, hrun⟩

/-- What `CacheGet` returns, after any calls, is the data of the last `CachePut` of its key, whose time
to live is not over. -/
theorem cacheGet_lastPut (hmax : 1 ≤ maxSize) (hint : maxSize < 2 ^ 31)
    (us : List (Use (List UInt8) α)) (hkeeps : ∀ u ∈ us, KeepsKey u) (key : List UInt8) (now : ℤ)
    {data : α} (hrun : cacheRun (us ++ [.get key now]) (createCache maxSize) =
      .ok (rs ++ [some data], c)) :
    ∃ e, Lru.lastPut us key = some e ∧ e.value = data ∧ now - e.saveTime ≤ e.TTL := by
  have hres := result_of_cacheGet hmax hint hkeeps hrun
  obtain ⟨-, hget⟩ := List.append_inj' hres rfl
  obtain ⟨e, hlast, hval, hlive⟩ := Lru.get_lastPut hmax us (List.singleton_inj.mp hget).symm
  exact ⟨e, hlast, hval, not_lt.mp hlive⟩

/-- `cacheGet_lastPut` for a key that is put twice. -/
theorem cacheGet_lastPut_two : ∃ c, cacheRun ([.put [97] 5 10 0, .put [97] 6 10 3, .put [98] 7 10 3] ++
      [.get [97] 13]) (createCache (2 : ℕ)) = .ok ([] ++ [some 6], c) ∧
    ∃ e, Lru.lastPut [.put [97] 5 10 0, .put [97] 6 10 3, .put [98] 7 10 3] ([97] : List UInt8) = some e ∧
      e.value = 6 ∧ 13 - e.saveTime ≤ e.TTL := by
  obtain ⟨c, hrun⟩ := exists_cacheRun (show (cacheRun ([.put [97] 5 10 0, .put [97] 6 10 3,
    .put [98] 7 10 3] ++ [.get [97] 13]) (createCache (2 : ℕ))).map Prod.fst = .ok ([] ++ [some 6]) by
    decide +kernel)
  exact ⟨c, hrun, cacheGet_lastPut (by decide) (by decide) _ (by decide) [97] 13 hrun⟩

/-- Data that `CachePut` stored is returned by `CacheGet` as long as it is in its time to live, is not
put over, and fewer other keys than the cache has entries for are used between two uses of its key. -/
theorem cacheGet_retained (hmax : 1 ≤ maxSize) (hint : maxSize < 2 ^ 31)
    (before after : List (Use (List UInt8) α)) (key : List UInt8) (data : α) (TTL saveTime now : ℤ)
    (hkeeps : ∀ u ∈ before ++ .put key data TTL saveTime :: after, KeepsKey u)
    (hroom : Lru.Roomy maxSize key after) (htime : ∀ u ∈ after, Lru.Spares ⟨key, data, saveTime, TTL⟩ u)
    (hnow : now - saveTime ≤ TTL)
    (hrun : cacheRun (before ++ .put key data TTL saveTime :: after ++ [.get key now])
      (createCache maxSize) = .ok (rs, c)) : rs.getLast? = some (some data) := by
  rw [result_of_cacheGet hmax hint hkeeps hrun, List.getLast?_concat,
    Lru.get_retained hmax before after hroom htime hnow]

/-- `cacheGet_retained` where the key is used between two others. -/
theorem cacheGet_retained_two : ∃ rs c, cacheRun ([] ++ .put [97] 5 10 0 ::
    [.put [98] 7 10 3, .get [97] 4, .put [99] 8 10 4] ++ [.get [97] 10]) (createCache (2 : ℕ)) =
      .ok (rs, c) ∧ rs.getLast? = some (some 5) := by
  obtain ⟨c, hrun⟩ := exists_cacheRun (show (cacheRun ([] ++ .put [97] 5 10 0 ::
    [.put [98] 7 10 3, .get [97] 4, .put [99] 8 10 4] ++ [.get [97] 10]) (createCache (2 : ℕ))).map
      Prod.fst = .ok [some 5, some 5] by decide +kernel)
  exact ⟨_, c, hrun, cacheGet_retained (by decide) (by decide) [] _ [97] 5 10 0 10 (by decide)
    (by decide) (by decide) (by decide) hrun⟩

/-- A cache for more entries answers whatever one for fewer answers along the same calls, with the same
data. -/
theorem larger_cache_returns {n m : ℕ} (hn : 1 ≤ n) (hle : n ≤ m) (hint : m < 2 ^ 31)
    (uses : List (Use (List UInt8) α)) (hkeeps : ∀ u ∈ uses, KeepsKey u) {rs' : List (Option α)}
    {c' : Cache α} (hsmall : cacheRun uses (createCache n) = .ok (rs, c))
    (hlarge : cacheRun uses (createCache m) = .ok (rs', c')) :
    List.Forall₂ (fun r r' => ∀ data, r = some data → r' = some data) rs rs' := by
  rw [results_of_cacheRun hn (hle.trans_lt hint) hkeeps hsmall,
    results_of_cacheRun (hn.trans hle) hint hkeeps hlarge]
  exact Lru.run_included hle hn uses

/-- `larger_cache_returns` where the smaller cache has evicted the key. -/
theorem larger_cache_returns_two : ∃ c c',
    cacheRun [.put [97] 5 10 0, .put [98] 7 10 3, .get [97] 4, .get [98] 4] (createCache (1 : ℕ)) =
      .ok ([none, some 7], c) ∧
    cacheRun [.put [97] 5 10 0, .put [98] 7 10 3, .get [97] 4, .get [98] 4] (createCache (2 : ℕ)) =
      .ok ([some 5, some 7], c') ∧
    List.Forall₂ (fun r r' => ∀ data, r = some data → r' = some data) [none, some 7]
      [some 5, some 7] := by
  obtain ⟨c, hsmall⟩ := exists_cacheRun (show (cacheRun [.put [97] 5 10 0, .put [98] 7 10 3,
    .get [97] 4, .get [98] 4] (createCache (1 : ℕ))).map Prod.fst = .ok [none, some 7] by decide +kernel)
  obtain ⟨c', hlarge⟩ := exists_cacheRun (show (cacheRun [.put [97] 5 10 0, .put [98] 7 10 3,
    .get [97] 4, .get [98] 4] (createCache (2 : ℕ))).map Prod.fst = .ok [some 5, some 7] by
    decide +kernel)
  exact ⟨c, c', hsmall, hlarge,
    larger_cache_returns (by decide) (by decide) (by decide) _ (by decide) hsmall hlarge⟩

end DnsRelayer
