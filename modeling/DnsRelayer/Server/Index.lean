import DnsRelayer.Cache.Runs
import DnsRelayer.Server.Item

/-!
# The hash table of the cache points into its list

The hash table holds addresses of list nodes. `Cache.Tight` says that they are nodes of the list, and
that removing a list node, as `CachePut` does to make room and `CacheGet` when it finds it expired,
removes the node of the table that points to it and no other. So it is along every sequence of calls
that puts under keys of at most 50 bytes (`index_tight`). The key of a record is longer when its name
is: the list keeps 51 bytes of it then and the table 50, and the node of the table is left behind
when the list node is freed (`index_dangles`).
-/

namespace DnsRelayer

open Lib

variable {α : Type} {c : Cache α} {ps : List (ℕ × Lib.Entry (List UInt8) α)}

/-- The nodes of the hash table point to the nodes `xs` of the list, and are removed with them. -/
structure Cache.Tight (c : Cache α) (xs : List ℕ) : Prop where
  list : HoldsList c.heap c.lList xs
  /-- Every node of the table points to a node of the list. -/
  points : ∀ n ∈ c.hTab.entries, n.data ∈ xs
  /-- What `search` finds is a node of the list. -/
  found : ∀ key lkn, search c.hTab key = .ok (some lkn) → lkn ∈ xs
  /-- No two nodes of the list hold the same key. -/
  distinct : ∀ a ∈ xs, ∀ b ∈ xs, ∀ ui vi, c.heap.data a = some (some ui) →
    c.heap.data b = some (some vi) → ui.key = vi.key → a = b
  /-- Discarding a node of the list removes the node of the table that points to it, and no
  other. -/
  removes : ∀ a ∈ xs, ∃ c' n, discard c a = .ok c' ∧ n.data = a ∧
    c.hTab.entries.Perm (n :: c'.hTab.entries) ∧ ∀ m ∈ c'.hTab.entries, m.data ≠ a

/-- A cache that holds entries, with a chain, is tight. -/
theorem Cache.Rep.tight (h : c.Rep ps) (hlen : 0 < c.hTab.len) : c.Tight (ps.map (·.1)) := by
  have hpoints : ∀ n ∈ c.hTab.entries, n.data ∈ ps.map (·.1) := by
    intro n hn
    obtain ⟨p, hp, rfl⟩ := List.mem_map.mp (h.table.mem_iff.mp hn)
    exact List.mem_map_of_mem hp
  have hnodup : (ps.map (·.1)).Nodup := (List.nodup_cons.mp h.list.ring.nodup).2
  refine ⟨h.list, hpoints, ?_, ?_, ?_⟩
  · intro key lkn hs
    obtain ⟨n, hn, -, rfl⟩ := HashTab.exists_of_search hs
    exact hpoints n hn
  · intro a ha b hb ui vi hui hvi hkey
    obtain ⟨p, hp, rfl⟩ := List.mem_map.mp ha
    obtain ⟨q, hq, rfl⟩ := List.mem_map.mp hb
    have hp' := (h.data p hp).symm.trans hui
    have hq' := (h.data q hq).symm.trans hvi
    simp only [Option.some.injEq] at hp' hq'
    -- Entries with one key are one entry.
    have hpq : p.2.key = q.2.key := by
      rw [← hp', ← hq'] at hkey
      exact hkey
    rw [List.inj_on_of_nodup_map h.keys hp hq hpq]
  · intro a ha
    obtain ⟨p, hp, rfl⟩ := List.mem_map.mp ha
    obtain ⟨l, r, rfl⟩ := List.append_of_mem hp
    obtain ⟨c', hok, hrep, -⟩ := discard_spec h hlen
    have hmid : (l ++ p :: r).Perm (p :: (l ++ r)) := List.perm_middle
    refine ⟨c', tableNode p, hok, rfl, ?_, ?_⟩
    · exact (h.table.trans (hmid.map tableNode)).trans (hrep.table.symm.cons _)
    · -- The other entries are at other nodes.
      intro m hm hmp
      obtain ⟨q, hq, rfl⟩ := List.mem_map.mp (hrep.table.mem_iff.mp hm)
      have hnot := (List.nodup_cons.mp ((hmid.map (·.1)).nodup_iff.mp hnodup)).1
      exact hnot (List.mem_map.mpr ⟨q, hq, hmp⟩)

/-- From a new cache for at least one entry, a sequence of calls that puts under keys of at most 50
bytes does not fault, but for a division by zero in a table without chains. After every call the
cache is tight, when its table has a chain. -/
theorem index_tight (maxSize : ℕ) (hmax : 1 ≤ maxSize) (hint : maxSize < 2 ^ 31)
    (uses : List (Use (List UInt8) α)) (hkeeps : ∀ u ∈ uses, KeepsKey u) :
    ∀ us, us <+: uses → cacheRun us (createCache maxSize) = .error .divByZero ∨
      ∃ rs c, cacheRun us (createCache maxSize) = .ok (rs, c) ∧
        (1 ≤ c.hTab.len → ∃ xs, c.Tight xs) := by
  intro us hus
  by_cases hdiv : cacheRun us (@createCache α maxSize) = .error .divByZero
  · exact Or.inl hdiv
  · obtain ⟨c, ps, hok, hrep, -⟩ := (createCache_rep hint).cacheRun
      (by simp only [createCache]; omega) us (fun u hu => hkeeps u (hus.subset hu)) hdiv
    exact Or.inr ⟨_, c, hok, fun hlen => ⟨_, hrep.tight hlen⟩⟩

/-- `index_tight` for a put that evicts the entry of another. -/
theorem index_tight_two : ∃ rs c,
    cacheRun [.put [97, 58, 65] 5 10 0, .put [98, 58, 65] 6 10 0] (createCache (1 : ℕ)) =
      .ok (rs, c) ∧ (1 ≤ c.hTab.len → ∃ xs, c.Tight xs) := by
  have hok : (cacheRun [.put [97, 58, 65] 5 10 0, .put [98, 58, 65] 6 10 0]
      (createCache (1 : ℕ))).isOk = true := by
    decide +kernel
  rcases index_tight 1 (by decide) (by decide) [.put [97, 58, 65] 5 10 0, .put [98, 58, 65] 6 10 0]
    (by decide) _ (List.prefix_refl _) with herror | htight
  · rw [herror] at hok
    cases hok
  · exact htight

/-- A name of 50 bytes, whose keys have more. -/
def longName : List UInt8 := List.replicate 50 97

/-- The put under a key of 52 bytes, and one that evicts its list node. -/
def longPuts : List (Use (List UInt8) ℕ) :=
  [.put (longName ++ [58, 65]) 5 10 0, .put [98, 58, 65] 6 10 0]

/-- In a cache for one entry the list node of the long key is evicted, and the table still points
to it. -/
theorem index_dangles : calcKey longName A = some (longName ++ [58, 65]) ∧
    calcKey [98] A = some [98, 58, 65] ∧
    ∃ rs c, cacheRun longPuts (createCache (1 : ℕ)) = .ok (rs, c) ∧ 1 ≤ c.hTab.len ∧
      ¬ ∃ xs, c.Tight xs := by
  refine ⟨by decide, by decide, ?_⟩
  -- A node of the table points to memory that is not in use.
  have hrun : (cacheRun longPuts (createCache (1 : ℕ))).map (fun r => (decide (1 ≤ r.2.hTab.len),
      r.2.hTab.entries.any fun n => (r.2.heap.data n.data).isNone)) = .ok (true, true) := by
    decide +kernel
  cases hc : cacheRun longPuts (createCache (1 : ℕ)) with
  | error e =>
    rw [hc] at hrun
    cases hrun
  | ok r =>
    obtain ⟨rs, c⟩ := r
    rw [hc] at hrun
    simp only [Except.map, Except.ok.injEq, Prod.mk.injEq, decide_eq_true_eq] at hrun
    refine ⟨rs, c, rfl, hrun.1, ?_⟩
    rintro ⟨xs, htight⟩
    obtain ⟨n, hn, hnone⟩ := List.any_eq_true.mp hrun.2
    obtain ⟨d, hd⟩ := htight.list.live n.data (htight.points n hn)
    rw [hd] at hnone
    cases hnone

end DnsRelayer
