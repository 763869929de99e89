import DnsRelayer.Cache.HashSpec

/-!
# The hash table as a log

A table that only takes keys which a search has just not found, and fewer than twice its first size of
them, is a log: each chain has, newest first, the keys that were put there, cut to what a node keeps
(`Logged`). A key is put into the chain of all its bytes, so a search finds the newest entry in the
chain of the name whose kept part is the name (`found`). That is an entry for the name itself, or
for a longer name that begins with it when it has as many bytes as a node keeps.
-/

namespace DnsRelayer

open Lib

variable {α : Type} {ht : HashTab α} {log : List (List UInt8 × α)} {k : List UInt8} {a : α}

/-- A search for a name stops at a node that was made for the key. -/
def Hits (key name : List UInt8) : Prop :=
  hash key % INIT_SIZE = hash name % INIT_SIZE ∧ strncpy key HASH_KEY_MAX_LEN = name

instance (key name : List UInt8) : Decidable (Hits key name) :=
  inferInstanceAs (Decidable (_ ∧ _))

/-- What a search for a name finds in a log of keys, newest first. -/
def found (log : List (List UInt8 × α)) (name : List UInt8) : Option α :=
  (log.find? fun e => Hits e.1 name).map (·.2)

/-- The table has been filled with the keys of the log. -/
structure Logged (ht : HashTab α) (log : List (List UInt8 × α)) : Prop where
  len : ht.len = INIT_SIZE
  num : ht.num = log.length
  chain : ∀ i < INIT_SIZE, ht.h[i]? =
    some ((log.filter fun e => hash e.1 % INIT_SIZE = i).map fun e => newNode e.1 e.2)

/-- A new table has an empty log. -/
theorem logged_newHashTab : Logged (newHashTab : HashTab α) [] where
  len := HashTab.newHashTab_len
  num := rfl
  chain := by
    intro i hi
    simp [newHashTab, hi]

theorem Logged.mod_lt (h : Logged ht log) (k : List UInt8) : hash k % ht.len < INIT_SIZE := by
  rw [h.len]
  exact Nat.mod_lt _ (by decide)

/-- `search` finds what the log says. -/
theorem Logged.search (h : Logged ht log) (k : List UInt8) : search ht k = .ok (found log k) := by
  have hlen : ht.len ≠ 0 := by
    rw [h.len]
    decide
  have hchain := h.chain _ (h.mod_lt k)
  rw [DnsRelayer.search, if_neg hlen]
  simp only [List.getD_eq_getElem?_getD, hchain, Option.getD_some]
  rw [List.find?_map, List.find?_filter, Option.map_map, h.len]
  refine congrArg (fun p => Except.ok ((log.find? p).map (·.2))) (funext fun e => ?_)
  rw [Bool.eq_iff_iff]
  simp only [decide_eq_true_eq, Function.comp_apply]
  rfl

/-- `insert` of a key that `search` has not found adds it to the log. -/
theorem Logged.insert (h : Logged ht log) (hnone : found log k = none)
    (hroom : log.length + 1 < 2 * INIT_SIZE) (a : α) :
    ∃ ht', insert ht k a = .ok ht' ∧ Logged ht' ((k, a) :: log) := by
  have hlen : ht.len ≠ 0 := by
    rw [h.len]
    decide
  have hlt := h.mod_lt k
  have hchain := h.chain _ hlt
  -- No node of the chain is overwritten.
  have habs : overwrite k a (ht.h.getD (hash k % ht.len) []) = none := by
    rcases overwrite_cases k a (ht.h.getD (hash k % ht.len) []) with ⟨l, n, r, hc, hn, -⟩ | ⟨-, hnone'⟩
    · exfalso
      have hmem : n ∈ ht.h.getD (hash k % ht.len) [] := by
        rw [hc]
        simp
      rw [List.getD_eq_getElem?_getD, hchain, Option.getD_some, List.mem_map] at hmem
      obtain ⟨e, he, rfl⟩ := hmem
      rw [List.mem_filter, h.len] at he
      unfold found at hnone
      rw [Option.map_eq_none_iff, List.find?_eq_none] at hnone
      have hindex : hash e.1 % INIT_SIZE = hash k % INIT_SIZE := by simpa using he.2
      have hname : strncpy e.1 HASH_KEY_MAX_LEN = k := hn
      exact hnone e he.1 (by simpa using ⟨hindex, hname⟩)
    · exact hnone'
  have hmod : (ht.num + 1) % UINT_MOD = ht.num + 1 := by
    rw [h.num]
    apply Nat.mod_eq_of_lt
    unfold INIT_SIZE at hroom
    unfold UINT_MOD
    omega
  have hload : ¬ (ht.num + 1) % UINT_MOD ≥ ht.len * 2 % UINT_MOD := by
    rw [hmod, h.num, h.len, show INIT_SIZE * 2 % UINT_MOD = 2 * INIT_SIZE from rfl]
    omega
  refine ⟨⟨ht.h.modify (hash k % ht.len) (newNode k a :: ·), (ht.num + 1) % UINT_MOD⟩, ?_, ?_, ?_, ?_⟩
  · have hlen' : (⟨ht.h.modify (hash k % ht.len) (newNode k a :: ·), (ht.num + 1) % UINT_MOD⟩ :
        HashTab α).len = ht.len := by simp [HashTab.len]
    rw [DnsRelayer.insert, if_neg hlen]
    simp only [habs, hlen', if_neg hload]
  · have hh := h.len
    unfold HashTab.len at hh ⊢
    rw [List.length_modify, hh]
  · rw [hmod, h.num, List.length_cons]
  · intro i hi
    rw [List.getElem?_modify, h.chain i hi, h.len]
    by_cases hik : hash k % INIT_SIZE = i
    · simp [hik]
    · simp [hik]

/-! ## What is found -/

/-- What is found was put in for a key at which the search stops. -/
theorem exists_of_found (h : found log k = some a) : ∃ key, (key, a) ∈ log ∧ Hits key k := by
  unfold found at h
  rw [Option.map_eq_some_iff] at h
  obtain ⟨⟨key, b⟩, he, rfl⟩ := h
  exact ⟨key, List.mem_of_find?_eq_some he, by simpa using List.find?_some he⟩

/-- Where nothing is found, the search stops at no key. -/
theorem found_eq_none_iff : found log k = none ↔ ∀ e ∈ log, ¬ Hits e.1 k := by
  unfold found
  rw [Option.map_eq_none_iff, List.find?_eq_none]
  simp

/-- At a key that nodes keep whole, only a search for the key stops. -/
theorem Hits.eq_of_fits {key : List UInt8} (h : Hits key k) (hfits : Fits key) : key = k := by
  obtain ⟨-, rfl⟩ := h
  exact (strncpy_of_length_le hfits).symm

/-- A name that is found is no longer than what a node keeps, and no longer than the key. -/
theorem Hits.length_le {key : List UInt8} (h : Hits key k) :
    k.length ≤ HASH_KEY_MAX_LEN ∧ k.length ≤ key.length := by
  obtain ⟨-, rfl⟩ := h
  simp only [strncpy, List.length_take]
  omega

/-- At a longer key, only a search for what a node keeps of it stops. -/
theorem Hits.length_eq {key : List UInt8} (h : Hits key k) (hlong : HASH_KEY_MAX_LEN < key.length) :
    k.length = HASH_KEY_MAX_LEN := by
  obtain ⟨-, rfl⟩ := h
  simp only [strncpy, List.length_take]
  omega

end DnsRelayer
