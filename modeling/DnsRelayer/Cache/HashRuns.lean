import DnsRelayer.Cache.HashSpec
import DnsRelayer.Lib.Runs

/-!
# Sequences of calls of the hash table

What holds along every sequence of `insert`, `search` and `delete` under short keys, from the table
that `NewHashTab` returns, as long as the table keeps a chain. The table is a finite map
(`table_is_map`): after each call, `search` returns what the last call that changed the key left,
through every growth and shrink. The element count is the number of nodes exactly when every
`delete` is of a key that is present (`count_exact_iff`), since `delete` counts down whether or not
it removes a node.

The number of chains stays a power of two, which is what makes halving exact.
-/

namespace DnsRelayer

open Lib

variable {α : Type}

/-- A call of the table's interface. -/
inductive TableCall (α : Type) where
  | insert (name : List UInt8) (data : α)
  | search (name : List UInt8)
  | delete (name : List UInt8)
  deriving DecidableEq, Repr

namespace TableCall

/-- The key that a call is about. -/
def name : TableCall α → List UInt8
  | .insert name _ => name
  | .search name => name
  | .delete name => name

/-- What a key holds after a call, from what it held before. -/
def hold (k : List UInt8) (held : Option α) : TableCall α → Option α
  | .insert name data => if k = name then some data else held
  | .search _ => held
  | .delete name => if k = name then none else held

end TableCall

/-- The table after a call. -/
def tableStep (ht : HashTab α) : TableCall α → Run (HashTab α)
  | .insert name data => insert ht name data
  | .search name => (search ht name).map fun _ => ht
  | .delete name => delete ht name

/-- The data of the last insert of a key, when no later call deletes it. -/
def lastData (calls : List (TableCall α)) (k : List UInt8) : Option α :=
  calls.foldl (TableCall.hold k) none

theorem lastData_concat (calls : List (TableCall α)) (c : TableCall α) (k : List UInt8) :
    lastData (calls ++ [c]) k = c.hold k (lastData calls k) := by
  simp [lastData]

namespace HashTab

/-- The load test of `insert`, for a key that has no node yet. -/
def Grows (ht : HashTab α) (name : List UInt8) : Prop :=
  (ht.chain name).all (·.name ≠ name) ∧ ht.len * 2 % UINT_MOD ≤ (ht.num + 1) % UINT_MOD

instance (ht : HashTab α) (name : List UInt8) : Decidable (ht.Grows name) :=
  inferInstanceAs (Decidable (_ ∧ _))

/-- The number of chains that a call leaves. -/
def lenAfter (ht : HashTab α) : TableCall α → ℕ
  | .insert name _ => if ht.Grows name then ht.len * 2 % UINT_MOD else ht.len
  | .search _ => ht.len
  | .delete _ => if ht.Shrinks then ht.len / 2 else ht.len

/-- What the calls so far have made of the table. -/
structure Tracks (ht : HashTab α) (calls : List (TableCall α)) : Prop where
  size : ∃ j ≤ 31, ht.len = 2 ^ j
  indexed : ht.Indexed fun _ => True
  short : ∀ n ∈ ht.entries, Short n.name
  lookup : ∀ k, Short k → ht.lookup k = lastData calls k

variable {ht ht' : HashTab α} {calls : List (TableCall α)} {k : List UInt8} {a : α}

theorem Tracks.len_pos (h : ht.Tracks calls) : 0 < ht.len := by
  obtain ⟨j, -, hj⟩ := h.size
  rw [hj]
  exact Nat.two_pow_pos j

theorem Tracks.len_le (h : ht.Tracks calls) : ht.len ≤ 2 ^ 31 := by
  obtain ⟨j, hj31, hj⟩ := h.size
  rw [hj]
  exact Nat.pow_le_pow_right (by omega) hj31

/-- A new table tracks no calls. -/
theorem newHashTab_tracks : (newHashTab : HashTab α).Tracks [] where
  size := ⟨10, by omega, newHashTab_len⟩
  indexed := newHashTab_indexed
  short := by simp [newHashTab_entries]
  lookup := by simp [lookup, newHashTab_entries, lastData]

/-- A key that the table holds has one node, and the other keys have none. -/
theorem Tracks.count (h : ht.Tracks calls) (hk : Short k) :
    (ht.entries.filter (·.name = k)).length = if (lastData calls k).isSome then 1 else 0 := by
  have hle := h.indexed.unique k trivial
  have hlook := h.lookup k hk
  rw [HashTab.lookup, ← List.head?_filter] at hlook
  cases hf : ht.entries.filter (·.name = k) with
  | nil =>
    rw [hf] at hlook
    simp [← hlook]
  | cons n rest =>
    rw [hf] at hlook hle
    have hrest : rest = [] := List.eq_nil_of_length_eq_zero (by simpa using hle)
    simp [← hlook, hrest]

/-! ## One call -/

/-- A key that the chain of its hash does not have grows the table when the count reaches the load
limit, and otherwise leaves its size. -/
theorem grows_iff_of_absent (habs : ∀ n ∈ ht.chain k, n.name ≠ k) :
    ht.Grows k ↔ ht.len * 2 % UINT_MOD ≤ (ht.num + 1) % UINT_MOD := by
  unfold Grows
  rw [and_iff_right]
  simpa using habs

/-- The new table of a call has the number of chains that the call leaves. -/
theorem Inserted.len_eq_lenAfter (h : Inserted ht ht' k a) (hi : ht.Indexed fun _ => True)
    (hlen : 0 < ht.len) : ht'.len = ht.lenAfter (.insert k a) := by
  cases h with
  | overwritten n rest hn before after hnum hl =>
    have hgrow : ¬ ht.Grows k := by
      rintro ⟨habs, -⟩
      have hnone := lookup_eq_none_of_chain hlen hi.placed trivial (by simpa using habs)
      exact hnone n (before.mem_iff.mpr (by simp)) hn
    rw [lenAfter, if_neg hgrow, hl]
  | added habs after hnum hl hroom =>
    -- There was room for the node, so doubling does not wrap.
    have hmod : ht.len * 2 % UINT_MOD = ht.len * 2 := by
      apply Nat.mod_eq_of_lt
      unfold UINT_MOD
      omega
    rw [lenAfter]
    rcases hl with ⟨hl, hlt⟩ | ⟨hl, hle⟩
    · rw [if_neg, hl]
      rw [grows_iff_of_absent habs, hmod, ← hnum]
      omega
    · rw [if_pos, hl, hmod]
      rw [grows_iff_of_absent habs, hmod, ← hnum]
      exact hle

/-- `insert` under a short key, in a table that keeps a chain. -/
theorem Tracks.insert (h : ht.Tracks calls) (hk : Short k)
    (hlen : 1 ≤ ht.lenAfter (.insert k a)) :
    ∃ ht', DnsRelayer.insert ht k a = .ok ht' ∧ Inserted ht ht' k a ∧
      ht'.Tracks (calls ++ [.insert k a]) := by
  have hkeeps : Keeps (fun _ => True) k := keeps_of_fits hk.fits
  rcases ht.insert_cases h.len_pos h.len_le k a with ⟨ht', hok, hpos, hplaced, hins⟩ | ⟨hl, -, habs⟩
  · refine ⟨ht', hok, hins, ?_⟩
    have hi' : ht'.Indexed fun _ => True :=
      hins.indexed hkeeps h.indexed h.len_pos (hplaced _ hkeeps h.indexed.placed)
    constructor
    -- The number of chains stays a power of two.
    · obtain ⟨j, hj31, hj⟩ := h.size
      cases hins with
      | overwritten n rest hn before after hnum hl => exact ⟨j, hj31, by rw [hl, hj]⟩
      | added habs after hnum hl hroom =>
        rcases hl with ⟨hl, -⟩ | ⟨hl, -⟩
        · exact ⟨j, hj31, by rw [hl, hj]⟩
        · have hj' : j < 31 := by
            rw [hj] at hroom
            exact (Nat.pow_lt_pow_iff_right (by omega)).mp hroom
          exact ⟨j + 1, hj', by rw [hl, hj, pow_succ]⟩
    · exact hi'
    · cases hins with
      | overwritten n rest hn before after =>
        intro m hm
        rcases List.mem_cons.mp (after.mem_iff.mp hm) with rfl | hm
        · exact hk
        · exact h.short m (before.mem_iff.mpr (List.mem_cons_of_mem _ hm))
      | added habs after =>
        intro m hm
        rcases List.mem_cons.mp (after.mem_iff.mp hm) with rfl | hm
        · rw [newNode_name_of_fits a hk.fits]
          exact hk
        · exact h.short m hm
    · intro k' hk'
      rw [hins.lookup hkeeps h.indexed hi' trivial hk'.fits, h.lookup k' hk', lastData_concat]
      rfl
  · -- The size would be doubled to zero.
    exfalso
    have hgrow : ht.Grows k := by
      rw [grows_iff_of_absent habs, hl]
      exact Nat.zero_le _
    rw [lenAfter, if_pos hgrow, hl] at hlen
    exact absurd hlen (by decide)

/-- `delete` of a key, in a table that keeps a chain: a node of the key is gone, or it had none. -/
theorem Tracks.delete (h : ht.Tracks calls) (k : List UInt8)
    (hlen : 1 ≤ ht.lenAfter (.delete k)) :
    ∃ ht', DnsRelayer.delete ht k = .ok ht' ∧ ht'.num = ht.numAfterDelete ∧
      ht'.len = ht.lenAfter (.delete k) ∧ Deleted ht ht' k ∧
      ht'.Tracks (calls ++ [.delete k]) := by
  obtain ⟨ht₁, hl₁, hnum₁, hdel₁, hplaced₁, hrun⟩ := ht.delete_spec h.len_pos k
  -- The table after the load test.
  obtain ⟨ht', hok, hnum, hl, hdel, hplaced⟩ : ∃ ht', DnsRelayer.delete ht k = .ok ht' ∧
      ht'.num = ht.numAfterDelete ∧ ht'.len = ht.lenAfter (.delete k) ∧ Deleted ht ht' k ∧
      ht'.Placed fun _ => True := by
    by_cases hs : ht.Shrinks
    · rw [lenAfter, if_pos hs] at hlen
      obtain ⟨ht', hok, hl', hn', he', hp'⟩ := rescale_spec ht₁ hlen
      refine ⟨ht', by rw [hrun, if_pos hs, hok], by rw [hn', hnum₁], by rw [lenAfter, if_pos hs, hl'],
        ?_, hp' _⟩
      cases hdel₁ with
      | removed n hn before => exact .removed n hn (before.trans (he'.symm.cons n))
      | absent habs after => exact .absent habs (he'.trans after)
    · exact ⟨ht₁, by rw [hrun, if_neg hs], hnum₁, by rw [lenAfter, if_neg hs, hl₁], hdel₁,
        hplaced₁ _ h.indexed.placed⟩
  refine ⟨ht', hok, hnum, hl, hdel, ?_⟩
  constructor
  · obtain ⟨j, hj31, hj⟩ := h.size
    by_cases hs : ht.Shrinks
    · rw [lenAfter, if_pos hs] at hl hlen
      rcases j with _ | j
      · rw [hj] at hlen
        simp at hlen
      · exact ⟨j, by omega, by rw [hl, hj, pow_succ]; omega⟩
    · exact ⟨j, hj31, by rw [hl, lenAfter, if_neg hs, hj]⟩
  · exact hdel.indexed h.indexed hplaced
  · intro m hm
    cases hdel with
    | removed n hn before => exact h.short m (before.mem_iff.mpr (List.mem_cons_of_mem _ hm))
    | absent habs after => exact h.short m (after.mem_iff.mp hm)
  · intro k' hk'
    rw [hdel.lookup h.indexed h.len_pos trivial, h.lookup k' hk', lastData_concat]
    rfl

/-- `search` finds what the calls so far have left under a short key. -/
theorem Tracks.search (h : ht.Tracks calls) (hk : Short k) :
    DnsRelayer.search ht k = .ok (lastData calls k) := by
  rw [search_of_placed h.len_pos h.indexed.placed trivial, h.lookup k hk]

/-- A call under a short key returns, in a table that keeps a chain, and the table tracks it. -/
theorem Tracks.step (h : ht.Tracks calls) (c : TableCall α) (hc : Short c.name)
    (hlen : 1 ≤ ht.lenAfter c) :
    ∃ ht', tableStep ht c = .ok ht' ∧ ht'.len = ht.lenAfter c ∧ ht'.Tracks (calls ++ [c]) := by
  cases c with
  | insert name data =>
    obtain ⟨ht', hok, hins, htr⟩ := h.insert hc hlen
    exact ⟨ht', hok, hins.len_eq_lenAfter h.indexed h.len_pos, htr⟩
  | search name =>
    have hname : Short name := hc
    refine ⟨ht, by rw [tableStep, h.search hname]; rfl, rfl, ?_⟩
    exact ⟨h.size, h.indexed, h.short, fun k hk => by rw [lastData_concat]; exact h.lookup k hk⟩
  | delete name =>
    obtain ⟨ht', hok, -, hl, -, htr⟩ := h.delete name hlen
    exact ⟨ht', hok, hl, htr⟩

end HashTab

/-! ## The element count -/

namespace HashTab

/-- The element count is the number of nodes, and below the load limit. -/
def Counted (ht : HashTab α) : Prop := ht.num = ht.entries.length ∧ ht.num < 2 * ht.len

instance (ht : HashTab α) : Decidable ht.Counted := inferInstanceAs (Decidable (_ ∧ _))

variable {ht ht' : HashTab α} {calls : List (TableCall α)} {k : List UInt8} {a : α}

/-- `insert` keeps the count exact: it counts up when it adds a node, and a table that reaches twice
its size is doubled. The bound is that of a table of `2 ^ 31` chains, which takes no new node. -/
theorem Inserted.counted (h : Inserted ht ht' k a) (htr : ht.Tracks calls) (hc : ht.Counted)
    (hle : ht.num ≤ 2 ^ 31) : ht'.Counted ∧ ht'.num ≤ 2 ^ 31 := by
  obtain ⟨hnum, hload⟩ := hc
  unfold Counted
  cases h with
  | overwritten n rest hn before after hnum' hl =>
    have h1 := before.length_eq
    have h2 := after.length_eq
    rw [List.length_cons] at h1 h2
    omega
  | added habs after hnum' hl hroom =>
    have h2 := after.length_eq
    rw [List.length_cons] at h2
    obtain ⟨j, hj31, hj⟩ := htr.size
    -- A table that still takes a new node has at most half as many chains as the bound.
    have hhalf : ht.len ≤ 2 ^ 30 := by
      rw [hj] at hroom ⊢
      have hj' : j < 31 := (Nat.pow_lt_pow_iff_right (by omega)).mp hroom
      exact Nat.pow_le_pow_right (by omega) (by omega)
    have hmod : (ht.num + 1) % UINT_MOD = ht.num + 1 := by
      apply Nat.mod_eq_of_lt
      unfold UINT_MOD
      omega
    rw [hmod] at hnum'
    rcases hl with ⟨hl, hlt⟩ | ⟨hl, hge⟩ <;> omega

/-- `delete` of a node keeps the count exact: the count is not zero, and a table that it halves has
less than half as many nodes as chains. -/
theorem counted_of_removed {n : Node α} (hc : ht.Counted)
    (hle : ht.num ≤ 2 ^ 31) (hnum' : ht'.num = ht.numAfterDelete)
    (hl : ht'.len = ht.lenAfter (.delete k)) (before : ht.entries.Perm (n :: ht'.entries))
    (hpos : 0 < ht'.len) : ht'.Counted ∧ ht'.num ≤ 2 ^ 31 := by
  obtain ⟨hnum, hload⟩ := hc
  have h1 := before.length_eq
  rw [List.length_cons] at h1
  have hdown : ht.numAfterDelete = ht.num - 1 := by
    unfold numAfterDelete UINT_MOD
    omega
  unfold Counted
  by_cases hs : ht.Shrinks
  · rw [lenAfter, if_pos hs] at hl
    have htwice : ht.numAfterDelete * 2 < ht.len := by
      unfold Shrinks at hs
      rwa [Nat.mod_eq_of_lt (by unfold UINT_MOD; omega)] at hs
    omega
  · rw [lenAfter, if_neg hs] at hl
    omega

/-- `delete` that removes no node leaves the count wrong. -/
theorem not_counted_of_absent (hc : ht.Counted) (htr : ht.Tracks calls)
    (hnum' : ht'.num = ht.numAfterDelete) (after : ht'.entries.Perm ht.entries) : ¬ ht'.Counted := by
  rintro ⟨hnum, -⟩
  have h1 := after.length_eq
  have h2 := hc.1
  have h3 := hc.2
  have h4 := htr.len_le
  unfold numAfterDelete UINT_MOD at hnum'
  omega

/-- A key that is not in the table has no node in its chain. -/
theorem Tracks.absent_of_none (h : ht.Tracks calls) (hk : Short k) (hnone : lastData calls k = none)
    (n : Node α) (hn : n ∈ ht.entries) : n.name ≠ k := by
  intro hnk
  have hcount := h.count hk
  rw [hnone, Option.isSome_none, if_neg (by simp)] at hcount
  have hnil := List.eq_nil_of_length_eq_zero hcount
  rw [List.filter_eq_nil_iff] at hnil
  exact hnil n hn (by simpa using hnk)

/-- What the calls so far have made of the table, with an exact count. -/
structure Exact (calls : List (TableCall α)) (ht : HashTab α) : Prop where
  tracks : ht.Tracks calls
  counted : ht.Counted
  num_le : ht.num ≤ 2 ^ 31

/-- The count of a new table is exact. -/
theorem newHashTab_exact : (newHashTab : HashTab α).Exact [] where
  tracks := newHashTab_tracks
  counted := by
    unfold Counted
    rw [newHashTab_entries, newHashTab_len]
    exact ⟨rfl, show 0 < 2 * 1024 by omega⟩
  num_le := by simp [newHashTab]

/-- A call under a short key keeps the count exact, unless it deletes a key that is not present. -/
theorem Exact.step (h : ht.Exact calls) {c : TableCall α} (hc : Short c.name)
    (hlen : 1 ≤ ht.lenAfter c) (hdel : ∀ k, c = .delete k → (lastData calls k).isSome) :
    ∃ ht', tableStep ht c = .ok ht' ∧ ht'.Exact (calls ++ [c]) := by
  obtain ⟨htr, hcount, hle⟩ := h
  cases c with
  | insert name data =>
    obtain ⟨ht', hok, hins, htr'⟩ := htr.insert hc hlen
    obtain ⟨hcount', hle'⟩ := hins.counted htr hcount hle
    exact ⟨ht', hok, htr', hcount', hle'⟩
  | search name =>
    have hname : Short name := hc
    obtain ⟨ht', hok, -, htr'⟩ := htr.step _ hc hlen
    have heq : ht = ht' := by
      rw [tableStep, htr.search hname] at hok
      exact Except.ok.inj hok
    subst heq
    exact ⟨ht, hok, htr', hcount, hle⟩
  | delete name =>
    have hname : Short name := hc
    obtain ⟨ht', hok, hnum, hlen', hdeleted, htr'⟩ := htr.delete name hlen
    cases hdeleted with
    | removed n hn before =>
      obtain ⟨hcount', hle'⟩ := counted_of_removed hcount hle hnum hlen' before htr'.len_pos
      exact ⟨ht', hok, htr', hcount', hle'⟩
    | absent habs after =>
      -- The key is present, so its chain has a node.
      exfalso
      have hnone := lookup_eq_none_of_chain htr.len_pos htr.indexed.placed trivial habs
      have hone := htr.count hname
      rw [if_pos (hdel name rfl), List.filter_eq_nil_iff.mpr (by simpa using hnone)] at hone
      simp at hone

end HashTab

/-! ## Every sequence of calls -/

/-- A sequence of calls under short keys in a table that keeps a chain. -/
structure KeepsChain (calls : List (TableCall α)) : Prop where
  short : ∀ c ∈ calls, Short c.name
  len : Meets tableStep (fun ht c => 1 ≤ ht.lenAfter c) newHashTab calls

instance (calls : List (TableCall α)) : Decidable (KeepsChain calls) :=
  decidable_of_iff ((∀ c ∈ calls, Short c.name) ∧
    Meets tableStep (fun ht c => 1 ≤ ht.lenAfter c) newHashTab calls)
    ⟨fun h => ⟨h.1, h.2⟩, fun h => ⟨h.short, h.len⟩⟩

/-- Every call of a sequence returns, and the table tracks the calls. -/
theorem KeepsChain.tracks {calls us : List (TableCall α)} (h : KeepsChain calls) (hus : us <+: calls) :
    ∃ ht, exec tableStep newHashTab us = .ok ht ∧ ht.Tracks us := by
  refine exec_history (I := fun us ht => ht.Tracks us) HashTab.newHashTab_tracks ?_ h.len us hus
  intro vs ht c hvs htr hlen
  have hc : c ∈ calls := hvs.subset (by simp)
  obtain ⟨ht', hok, -, htr'⟩ := htr.step c (h.short c hc) hlen
  exact ⟨ht', hok, htr'⟩

/-- The table is a finite map, along every sequence of calls under short keys that leaves it a chain
at each call. Every call returns, and after it `search` of a short key returns the data of the last
insert of the key, unless it was deleted since. Each key that is present has one node, the other
keys have none, and every node is in the chain of its key's hash. -/
theorem table_is_map (calls : List (TableCall α)) (hshort : ∀ c ∈ calls, Short c.name)
    (hlen : Meets tableStep (fun ht c => 1 ≤ ht.lenAfter c) newHashTab calls)
    (us : List (TableCall α)) (hus : us <+: calls) :
    ∃ ht, exec tableStep newHashTab us = .ok ht ∧ 1 ≤ ht.len ∧
      (∀ k, Short k → search ht k = .ok (lastData us k) ∧
        (ht.entries.filter (·.name = k)).length = if (lastData us k).isSome then 1 else 0) ∧
      ∀ i chain, ht.h[i]? = some chain → ∀ n ∈ chain, Short n.name ∧ hash n.name % ht.len = i := by
  obtain ⟨ht, hok, htr⟩ := KeepsChain.tracks ⟨hshort, hlen⟩ hus
  refine ⟨ht, hok, htr.len_pos, fun k hk => ⟨htr.search hk, htr.count hk⟩, ?_⟩
  intro i chain hi n hn
  have hmem : n ∈ ht.entries := List.mem_flatten_of_mem (List.mem_of_getElem? hi) hn
  exact ⟨htr.short n hmem, htr.indexed.placed i chain hi n hn trivial⟩

/-- Two keys of one chain, one overwritten and one deleted, through a shrink of the table. -/
theorem table_is_map_collision : ∃ ht,
    exec tableStep newHashTab [.insert [97, 98] 1, .insert [98, 97] 2, .insert [97, 98] 3,
      .delete [98, 97]] = .ok ht ∧ search ht [97, 98] = .ok (some 3) ∧
      search ht [98, 97] = .ok (none : Option ℕ) := by
  obtain ⟨ht, hok, -, hsearch, -⟩ := table_is_map
    [.insert [97, 98] 1, .insert [98, 97] 2, .insert [97, 98] 3, .delete [98, 97]]
    (by decide) (by decide +kernel) _ (List.prefix_refl _)
  exact ⟨ht, hok, (hsearch [97, 98] (by decide)).1, (hsearch [98, 97] (by decide)).1⟩

/-- The element count is exact and below the load limit after every call of a sequence under short
keys that leaves the table a chain at each call, exactly when each `delete` of the sequence is of a
key that is present. -/
theorem count_exact_iff (calls : List (TableCall α)) (hshort : ∀ c ∈ calls, Short c.name)
    (hlen : Meets tableStep (fun ht c => 1 ≤ ht.lenAfter c) newHashTab calls) :
    (∀ us, us <+: calls → ∃ ht, exec tableStep newHashTab us = .ok ht ∧
        ht.num = ht.entries.length ∧ ht.num < 2 * ht.len) ↔
      ∀ us k, us ++ [.delete k] <+: calls → (lastData us k).isSome := by
  have hkeeps : KeepsChain calls := ⟨hshort, hlen⟩
  constructor
  · intro hexact us k hus
    have hpre : us <+: calls := (List.prefix_append us _).trans hus
    obtain ⟨ht, hok, htr⟩ := hkeeps.tracks hpre
    obtain ⟨ht', hok', hdel⟩ : ∃ ht', exec tableStep newHashTab (us ++ [.delete k]) = .ok ht' ∧
        ht'.Counted := hexact _ hus
    have hc : ht.Counted := by
      obtain ⟨ht₂, hok₂, hc⟩ := hexact us hpre
      rw [hok] at hok₂
      cases hok₂
      exact hc
    -- The count after the `delete` tells whether it took a node out.
    obtain ⟨t, ht_eq, hstep⟩ := exec_concat.mp hok'
    rw [hok] at ht_eq
    cases ht_eq
    obtain ⟨ht₃, hok₃, hnum, -, hdeleted, -⟩ := htr.delete k (hlen us _ hus ht hok)
    have heq : ht₃ = ht' := Except.ok.inj (hok₃.symm.trans hstep)
    subst heq
    rw [Option.isSome_iff_ne_none]
    intro hnone
    cases hdeleted with
    | removed n hn before =>
      have hk : Short k := hshort (.delete k) (hus.subset (by simp))
      exact htr.absent_of_none hk hnone n (before.mem_iff.mpr (by simp)) hn
    | absent habs after => exact HashTab.not_counted_of_absent hc htr hnum after hdel
  · intro hpresent us hus
    -- Each call keeps the count exact, given that its key is there.
    have hstep : ∀ vs ht c, vs ++ [c] <+: calls → HashTab.Exact vs ht → 1 ≤ ht.lenAfter c →
        ∃ ht', tableStep ht c = .ok ht' ∧ ht'.Exact (vs ++ [c]) := by
      intro vs ht c hvs hex hl
      refine hex.step (hshort c (hvs.subset (by simp))) hl ?_
      rintro k rfl
      exact hpresent vs k hvs
    obtain ⟨ht, hok, hex⟩ := exec_history HashTab.newHashTab_exact hstep hlen us hus
    exact ⟨ht, hok, hex.counted⟩

/-- A `delete` of a key of an empty table: the count wraps below zero. -/
theorem count_of_absent_delete :
    KeepsChain [(.delete [97] : TableCall ℕ)] ∧
      ∃ ht, exec tableStep newHashTab [(.delete [97] : TableCall ℕ)] = .ok ht ∧
        ht.num = 2 ^ 32 - 1 ∧ ht.entries.length = 0 := by
  refine ⟨by decide +kernel, ⟨newHashTab.h, 2 ^ 32 - 1⟩, by decide +kernel, rfl, ?_⟩
  decide +kernel

/-- A key that is inserted, overwritten and deleted. -/
theorem count_exact_iff_overwrite : ∃ ht,
    exec tableStep newHashTab [.insert [97] 1, .insert [97] 2, .delete [97]] = .ok ht ∧
      ht.num = (ht : HashTab ℕ).entries.length ∧ ht.num < 2 * ht.len := by
  refine (count_exact_iff [.insert [97] 1, .insert [97] 2, .delete [97]] (by decide)
    (by decide +kernel)).mpr ?_ _ (List.prefix_refl _)
  intro us k hus
  rcases us with _ | ⟨c, _ | ⟨d, _ | ⟨e, us⟩⟩⟩
  · simp at hus
  · simp at hus
  · obtain ⟨rfl, rfl, rfl⟩ : .insert [97] 1 = c ∧ .insert [97] 2 = d ∧ k = [97] := by
      simpa [eq_comm] using hus
    rfl
  · simp at hus

end DnsRelayer
