import DnsRelayer.Cache.Hash
import DnsRelayer.Lib.Chains

/-!
# The hash table is a finite map on short keys

`HashTab.entries` is the list of all nodes. Each operation changes it by at most one node, up to
order: `insert_spec`, `delete_spec`, and `rescale_spec`, which only moves nodes. A key of a kind that
nodes keep whole has at most one node, in the chain of its hash (`HashTab.Indexed`), and then
`search` returns what the node of the key holds (`search_of_placed`, `Inserted.lookup`,
`Deleted.lookup`).

There are two such kinds. The keys of less than 50 bytes (`Short`) are kept whole whatever else is in
the table: a node keeps the first 50 bytes of a longer key, which is not a short key, so longer keys
do not touch what is found under the short ones. In a table of keys of at most 50 bytes (`Fits`), all
of them are kept whole (`Keeps`).
-/

namespace DnsRelayer

open Lib

variable {α : Type}

/-- A key that a node keeps whole, together with its terminator. -/
def Short (k : List UInt8) : Prop := k.length < HASH_KEY_MAX_LEN

instance (k : List UInt8) : Decidable (Short k) := inferInstanceAs (Decidable (_ < _))

/-- A key that a node keeps whole, perhaps without a terminator. -/
def Fits (k : List UInt8) : Prop := k.length ≤ HASH_KEY_MAX_LEN

instance (k : List UInt8) : Decidable (Fits k) := inferInstanceAs (Decidable (_ ≤ _))

/-- A node that is made for the key has a key of a kind only when it keeps the key whole. -/
def Keeps (good : List UInt8 → Prop) (k : List UInt8) : Prop :=
  good (strncpy k HASH_KEY_MAX_LEN) → strncpy k HASH_KEY_MAX_LEN = k

variable {good : List UInt8 → Prop}

namespace HashTab

/-- All nodes of the table, chain by chain. -/
def entries (ht : HashTab α) : List (Node α) := ht.h.flatten

/-- The node of every key of a kind is in the chain of its hash. -/
def Placed (ht : HashTab α) (good : List UInt8 → Prop) : Prop :=
  Lib.Placed (·.name) (fun k => hash k % ht.len) good ht.h

/-- The nodes of keys of a kind are placed, and no such key has two. -/
structure Indexed (ht : HashTab α) (good : List UInt8 → Prop) : Prop where
  placed : ht.Placed good
  unique : ∀ k, good k → (ht.entries.filter (·.name = k)).length ≤ 1

/-- The value of the first node with the key. -/
def lookup (ht : HashTab α) (k : List UInt8) : Option α :=
  (ht.entries.find? (·.name = k)).map (·.data)

/-- The chain that a key hashes to. -/
def chain (ht : HashTab α) (k : List UInt8) : List (Node α) := ht.h.getD (hash k % ht.len) []

end HashTab

theorem Short.fits {k : List UInt8} (hk : Short k) : Fits k := Nat.le_of_lt hk

/-- A node keeps a key that fits. -/
theorem newNode_name_of_fits {k : List UInt8} (a : α) (hk : Fits k) : (newNode k a).name = k :=
  strncpy_of_length_le hk

theorem keeps_of_fits {k : List UInt8} (hk : Fits k) : Keeps good k :=
  fun _ => strncpy_of_length_le hk

/-- A node has a short key only when it was made for it. -/
theorem keeps_short (k : List UInt8) : Keeps Short k := by
  intro h
  have : min HASH_KEY_MAX_LEN k.length < HASH_KEY_MAX_LEN := by
    simpa [Short, strncpy] using h
  exact strncpy_of_length_le (by omega)

/-! ## `rescale` -/

/-- Relinking nodes into an array of `size` chains puts each in the chain of its hash. -/
theorem foldlM_relink_spec {size : ℕ} (hsize : 0 < size) (ts : List (Node α))
    (h : List (List (Node α))) (hlen : h.length = size)
    (hp : Placed (·.name) (fun k => hash k % size) (fun _ => True) h) :
    ∃ h', ts.foldlM (relink size) h = .ok h' ∧ h'.length = size ∧
      h'.flatten.Perm (ts ++ h.flatten) ∧
      Placed (·.name) (fun k => hash k % size) (fun _ => True) h' := by
  induction ts generalizing h with
  | nil => exact ⟨h, rfl, hlen, List.Perm.refl _, hp⟩
  | cons t ts ih =>
    have hi : hash t.name % size < h.length := by
      rw [hlen]
      exact Nat.mod_lt _ hsize
    obtain ⟨l, c, r, hh, -, -, hget, hset, hmod⟩ := exists_chain hi
    -- A node goes to the front of its new chain.
    have hstep : relink size h t = .ok (l ++ (t :: c) :: r) := by
      rw [relink, if_neg hsize.ne', hmod]
    have hp' : Placed (·.name) (fun k => hash k % size) (fun _ => True) (l ++ (t :: c) :: r) := by
      rw [← hset]
      refine hp.set fun n hn _ => ?_
      rcases List.mem_cons.mp hn with rfl | hn
      · rfl
      · exact hp _ _ hget n hn trivial
    obtain ⟨h', hfold, hlen', hperm, hplaced⟩ := ih _ (by rw [← hlen, hh]; simp) hp'
    refine ⟨h', ?_, hlen', hperm.trans ?_, hplaced⟩
    · rw [List.foldlM_cons, hstep]
      exact hfold
    · rw [hh]
      simp only [List.flatten_append, List.flatten_cons, List.cons_append]
      exact (List.perm_middle.append_left ts).trans
        (by rw [← List.append_assoc]; exact List.perm_middle.trans (by simp))

/-- `rescale` to at least one chain moves the nodes, and nothing else. -/
theorem rescale_spec (ht : HashTab α) {size : ℕ} (hsize : 0 < size) :
    ∃ ht', rescale ht size = .ok ht' ∧ ht'.len = size ∧ ht'.num = ht.num ∧
      ht'.entries.Perm ht.entries ∧ ∀ good, ht'.Placed good := by
  have hempty : Placed (·.name) (fun k => hash k % size) (fun _ => True)
      (List.replicate size ([] : List (Node α))) := by
    intro i c hi n hn
    rw [List.getElem?_replicate] at hi
    split_ifs at hi
    obtain rfl := Option.some.inj hi
    simp at hn
  obtain ⟨h', hfold, hlen, hperm, hp⟩ :=
    foldlM_relink_spec hsize ht.h.flatten _ List.length_replicate hempty
  refine ⟨⟨h', ht.num⟩, ?_, hlen, rfl, ?_, ?_⟩
  · simp only [rescale, hfold, Run.ok_bind]
    rfl
  · simpa [HashTab.entries] using hperm
  · have hl : (⟨h', ht.num⟩ : HashTab α).len = size := hlen
    intro good i c hi n hn _
    rw [hl]
    exact hp i c hi n hn trivial

/-- `rescale` of a table without nodes to no chains at all. -/
theorem rescale_zero_of_nil {ht : HashTab α} (h : ht.entries = []) :
    rescale ht 0 = .ok ⟨[], ht.num⟩ := by
  have : ht.h.flatten = [] := h
  simp [rescale, this, pure, Except.pure]

/-- `rescale` of a table with a node to no chains divides by zero. -/
theorem rescale_zero_of_ne_nil {ht : HashTab α} (h : ht.entries ≠ []) :
    rescale ht 0 = .error .divByZero := by
  obtain ⟨t, ts, hts⟩ := List.exists_cons_of_ne_nil (show ht.h.flatten ≠ [] from h)
  simp [rescale, hts, List.foldlM_cons, relink]

/-! ## `search` -/

namespace HashTab

variable {ht : HashTab α} {k : List UInt8}

theorem mod_len_lt (ht : HashTab α) (hlen : 0 < ht.len) (k : List UInt8) :
    hash k % ht.len < ht.h.length := Nat.mod_lt _ hlen

/-- `search` looks through the chain of the name. -/
theorem search_eq (hlen : 0 < ht.len) (k : List UInt8) :
    search ht k = .ok (((ht.chain k).find? (·.name = k)).map (·.data)) := by
  simp [search, hlen.ne', chain]

/-- `search` of a name whose nodes are placed finds the value of its node. -/
theorem search_of_placed (hlen : 0 < ht.len) (hp : ht.Placed good) (hk : good k) :
    search ht k = .ok (ht.lookup k) := by
  rw [search_eq hlen, lookup]
  have := find?_chain (fun n : Node α => n.name) hp hk (ht.mod_len_lt hlen k)
  rw [chain, this]
  rfl

/-- What `search` returns is the value of a node with that name, whatever the name's length. -/
theorem exists_of_search {a : α} (h : search ht k = .ok (some a)) :
    ∃ n ∈ ht.entries, n.name = k ∧ n.data = a := by
  have hlen : 0 < ht.len := by
    by_contra h0
    simp [search, show ht.len = 0 by omega] at h
  rw [search_eq hlen] at h
  simp only [Except.ok.injEq, Option.map_eq_some_iff] at h
  obtain ⟨n, hn, rfl⟩ := h
  refine ⟨n, ?_, by simpa using List.find?_some hn, rfl⟩
  have hmem := List.mem_of_find?_eq_some hn
  obtain ⟨l, c, r, hh, -, hc, -, -, -⟩ := exists_chain (ht.mod_len_lt hlen k)
  rw [chain, hc] at hmem
  rw [entries, hh]
  simp [hmem]

/-- A key whose nodes are placed, and that no node of its chain has, is not in the table. -/
theorem lookup_eq_none_of_chain (hlen : 0 < ht.len) (hp : ht.Placed good) (hk : good k)
    (h : ∀ n ∈ ht.chain k, n.name ≠ k) : ∀ n ∈ ht.entries, n.name ≠ k := by
  have := filter_chain (fun n : Node α => n.name) hp hk (ht.mod_len_lt hlen k)
  intro n hn hnk
  have hmem : n ∈ ht.h.flatten.filter (·.name = k) := by
    rw [List.mem_filter]
    exact ⟨hn, by simpa using hnk⟩
  rw [this, List.mem_filter] at hmem
  exact h n hmem.1 hnk

end HashTab

/-! ## `insert` and `delete` -/

/-- The loop of `insert` changes the value of a node with the name, or there is none. -/
theorem overwrite_cases (name : List UInt8) (data : α) (c : List (Node α)) :
    (∃ l n r, c = l ++ n :: r ∧ n.name = name ∧
      overwrite name data c = some (l ++ ⟨name, data⟩ :: r)) ∨
    ((∀ n ∈ c, n.name ≠ name) ∧ overwrite name data c = none) := by
  induction c with
  | nil => exact Or.inr ⟨by simp, rfl⟩
  | cons tmp rest ih =>
    by_cases h : tmp.name = name
    · exact Or.inl ⟨[], tmp, rest, rfl, h, by simp [overwrite, h]⟩
    · rcases ih with ⟨l, n, r, hc, hn, ho⟩ | ⟨hn, ho⟩
      · exact Or.inl ⟨tmp :: l, n, r, by simp [hc], hn, by simp [overwrite, h, ho]⟩
      · refine Or.inr ⟨?_, by simp [overwrite, h, ho]⟩
        intro n hmem
        rcases List.mem_cons.mp hmem with rfl | hmem
        · exact h
        · exact hn n hmem

namespace HashTab

/-- The table after `insert`: one node has a new value, or there is one new node. -/
inductive Inserted (ht ht' : HashTab α) (k : List UInt8) (a : α) : Prop
  /-- A node with the name had its value overwritten. -/
  | overwritten (n : Node α) (rest : List (Node α)) (name_eq : n.name = k)
      (before : ht.entries.Perm (n :: rest)) (after : ht'.entries.Perm (⟨k, a⟩ :: rest))
      (num_eq : ht'.num = ht.num) (len_eq : ht'.len = ht.len)
  /-- No node of the name's chain had it, and a node was added. -/
  | added (absent : ∀ n ∈ ht.chain k, n.name ≠ k)
      (after : ht'.entries.Perm (newNode k a :: ht.entries))
      (num_eq : ht'.num = (ht.num + 1) % UINT_MOD)
      (len_le : ht'.len = ht.len ∧ ht'.num < ht.len * 2 ∨
        ht'.len = ht.len * 2 ∧ ht.len * 2 ≤ ht'.num)
      (room : ht.len < 2 ^ 31)

/-- `insert` into a table of at most `2 ^ 31` chains. It divides by zero when it adds a node to a
table of `2 ^ 31` chains, twice which is no `unsigned int`. -/
theorem insert_cases (ht : HashTab α) (hlen : 0 < ht.len) (hmax : ht.len ≤ 2 ^ 31)
    (k : List UInt8) (a : α) :
    (∃ ht', insert ht k a = .ok ht' ∧ 0 < ht'.len ∧
      (∀ good, Keeps good k → ht.Placed good → ht'.Placed good) ∧ Inserted ht ht' k a) ∨
    (ht.len = 2 ^ 31 ∧ insert ht k a = .error .divByZero ∧ ∀ n ∈ ht.chain k, n.name ≠ k) := by
  obtain ⟨l, c, r, hh, hl, hc, hget, hset, hmod⟩ := exists_chain (ht.mod_len_lt hlen k)
  have hent : ht.entries = l.flatten ++ (c ++ r.flatten) := by simp [entries, hh]
  -- The table with another chain in place of `c` has as many chains.
  have hlen' : ∀ c' num, (⟨l ++ c' :: r, num⟩ : HashTab α).len = ht.len := by
    intro c' num
    simp [len, hh]
  rcases overwrite_cases k a c with ⟨l₁, n, r₁, hc₁, hn, ho⟩ | ⟨habs, ho⟩
  · have hrun : insert ht k a = .ok ⟨l ++ (l₁ ++ ⟨k, a⟩ :: r₁) :: r, ht.num⟩ := by
      rw [insert, if_neg hlen.ne']
      simp only [hc, ho, hset]
    refine Or.inl ⟨_, hrun, by rw [hlen']; exact hlen, ?_, .overwritten n
      (l.flatten ++ (l₁ ++ r₁ ++ r.flatten)) hn ?_ ?_ rfl (hlen' _ _)⟩
    · intro good _ hp
      rw [Placed, hlen', ← hset]
      refine Lib.Placed.set hp fun m hm hs => ?_
      simp only [List.mem_append, List.mem_cons] at hm
      rcases hm with hm | rfl | hm
      · exact hp _ _ hget m (by simp [hc₁, hm]) hs
      · rfl
      · exact hp _ _ hget m (by simp [hc₁, hm]) hs
    · rw [hent, hc₁]
      simpa using (@List.perm_middle _ n (l.flatten ++ l₁) (r₁ ++ r.flatten))
    · simpa [entries] using
        (@List.perm_middle _ (⟨k, a⟩ : Node α) (l.flatten ++ l₁) (r₁ ++ r.flatten))
  · -- The table with the new node, before the load test.
    generalize hht₁ : (⟨l ++ (newNode k a :: c) :: r, (ht.num + 1) % UINT_MOD⟩ : HashTab α) = ht₁
    have hlen₁ : ht₁.len = ht.len := by rw [← hht₁]; exact hlen' _ _
    have hnum₁ : ht₁.num = (ht.num + 1) % UINT_MOD := by rw [← hht₁]
    have hent₁ : ht₁.entries.Perm (newNode k a :: ht.entries) := by
      rw [← hht₁, hent]
      simp [entries]
    have habs' : ∀ n ∈ ht.chain k, n.name ≠ k := by rw [chain, hc]; exact habs
    rcases hmax.eq_or_lt with heq | hlt
    · -- The size would be doubled to zero.
      right
      refine ⟨heq, ?_, habs'⟩
      have hne : ht₁.entries ≠ [] := fun hnil => by
        rw [hnil] at hent₁
        simp at hent₁
      have hzero : ht₁.len * 2 % UINT_MOD = 0 := by
        rw [hlen₁, heq]
        rfl
      rw [insert, if_neg hlen.ne']
      simp only [hc, ho, hmod, hht₁, hzero, ge_iff_le, Nat.zero_le, if_true]
      exact rescale_zero_of_ne_nil hne
    left
    have hmod2 : ht₁.len * 2 % UINT_MOD = ht.len * 2 := by
      rw [hlen₁, Nat.mod_eq_of_lt]
      unfold UINT_MOD
      omega
    have hrun : insert ht k a = if ht₁.num ≥ ht.len * 2 then rescale ht₁ (ht.len * 2)
        else .ok ht₁ := by
      rw [insert, if_neg hlen.ne']
      simp only [hc, ho, hmod, hht₁, hmod2, hnum₁]
    by_cases hload : ht₁.num ≥ ht.len * 2
    · obtain ⟨ht', hok, hl', hn', he', hp'⟩ := rescale_spec ht₁ (show 0 < ht.len * 2 by omega)
      refine ⟨ht', by rw [hrun, if_pos hload, hok], by omega, fun good _ _ => hp' good,
        .added habs' (he'.trans hent₁) (by rw [hn', hnum₁]) (Or.inr ⟨hl', by omega⟩) hlt⟩
    · refine ⟨ht₁, by rw [hrun, if_neg hload], by omega, ?_, .added habs' hent₁ hnum₁
        (Or.inl ⟨hlen₁, not_le.mp hload⟩) hlt⟩
      intro good hk hp
      rw [Placed, hlen₁, ← hht₁, ← hset]
      refine Lib.Placed.set hp fun m hm hs => ?_
      rcases List.mem_cons.mp hm with rfl | hm
      · exact congrArg (hash · % ht.len) (hk hs)
      · exact hp _ _ hget m hm hs

/-- `insert` into a table with a chain, whose size can still be doubled. -/
theorem insert_spec (ht : HashTab α) (hlen : 0 < ht.len) (hmax : ht.len < 2 ^ 31)
    (k : List UInt8) (a : α) :
    ∃ ht', insert ht k a = .ok ht' ∧ 0 < ht'.len ∧
      (∀ good, Keeps good k → ht.Placed good → ht'.Placed good) ∧ Inserted ht ht' k a :=
  (ht.insert_cases hlen hmax.le k a).resolve_right fun h => hmax.ne h.1

/-- The table after `delete`: one node of the name is gone, or its chain had none. -/
inductive Deleted (ht ht' : HashTab α) (k : List UInt8) : Prop
  /-- A node with the name was removed. -/
  | removed (n : Node α) (name_eq : n.name = k) (before : ht.entries.Perm (n :: ht'.entries))
  /-- No node of the name's chain had it. -/
  | absent (absent : ∀ n ∈ ht.chain k, n.name ≠ k) (after : ht'.entries.Perm ht.entries)

/-- The element count after `delete`. -/
def numAfterDelete (ht : HashTab α) : ℕ := (ht.num + (UINT_MOD - 1)) % UINT_MOD

/-- The load test of `delete`: whether it halves the table. -/
def Shrinks (ht : HashTab α) : Prop := ht.numAfterDelete * 2 % UINT_MOD < ht.len

instance (ht : HashTab α) : Decidable ht.Shrinks := inferInstanceAs (Decidable (_ < _))

/-- `delete` from a table with a chain: it removes a node of the name, if there is one, and may then
halve the table. Halving a table of one chain that still has nodes divides by zero. -/
theorem delete_spec (ht : HashTab α) (hlen : 0 < ht.len) (k : List UInt8) :
    ∃ ht₁ : HashTab α, ht₁.len = ht.len ∧ ht₁.num = ht.numAfterDelete ∧ Deleted ht ht₁ k ∧
      (∀ good, ht.Placed good → ht₁.Placed good) ∧
      delete ht k = if ht.Shrinks then rescale ht₁ (ht.len / 2) else .ok ht₁ := by
  obtain ⟨l, c, r, hh, hl, hc, hget, hset, hmod⟩ := exists_chain (ht.mod_len_lt hlen k)
  generalize hht₁ : (⟨l ++ deleteNode c k :: r, ht.numAfterDelete⟩ : HashTab α) = ht₁
  have hlen₁ : ht₁.len = ht.len := by rw [← hht₁]; simp [len, hh]
  have hnum₁ : ht₁.num = ht.numAfterDelete := by rw [← hht₁]
  refine ⟨ht₁, hlen₁, hnum₁, ?_, ?_, ?_⟩
  · by_cases hex : ∃ n ∈ c, n.name = k
    · obtain ⟨n, hn, hnk⟩ := hex
      -- The first node of the name is taken out of its chain.
      obtain ⟨m, l₁, r₁, -, hm, hc₁, he⟩ :=
        List.exists_of_eraseP (p := fun t : Node α => t.name = k) hn (by simpa using hnk)
      refine .removed m (by simpa using hm) ?_
      rw [← hht₁]
      simp only [entries, hh, deleteNode, he, List.flatten_append, List.flatten_cons]
      rw [hc₁]
      simpa using (@List.perm_middle _ m (l.flatten ++ l₁) (r₁ ++ r.flatten))
    · have hno : ∀ n ∈ c, n.name ≠ k := fun n hn he => hex ⟨n, hn, he⟩
      refine .absent (by rw [chain, hc]; exact hno) ?_
      rw [← hht₁]
      simp only [entries, hh, deleteNode]
      rw [List.eraseP_of_forall_not (by simpa using hno)]
  · intro good hp
    rw [Placed, hlen₁, ← hht₁, ← hset]
    exact Lib.Placed.set hp fun m hm hs => hp _ _ hget m (List.mem_of_mem_eraseP hm) hs
  · rw [delete, if_neg hlen.ne']
    simp only [hmod]
    have hu : (⟨l ++ deleteNode c k :: r, (ht.num + (UINT_MOD - 1)) % UINT_MOD⟩ : HashTab α)
        = ht₁ := hht₁
    simp only [hu, hlen₁]
    rfl

/-! ## The finite map -/

/-- The nodes of a key, in a list of nodes with one more. -/
theorem filter_name_cons (n : Node α) (rest : List (Node α)) (k : List UInt8) :
    (n :: rest).filter (·.name = k) =
      if n.name = k then n :: rest.filter (·.name = k) else rest.filter (·.name = k) := by
  by_cases h : n.name = k <;> simp [h]

/-- Tables with the same nodes have the same values under the keys that are indexed. -/
theorem Indexed.lookup_perm {ht ht' : HashTab α} (hi : ht.Indexed good)
    (h : ht.entries.Perm ht'.entries) {k : List UInt8} (hk : good k) :
    ht'.lookup k = ht.lookup k := by
  rw [lookup, lookup, find?_perm h (hi.unique k hk)]

/-- `insert` keeps keys indexed. -/
theorem Inserted.indexed {ht ht' : HashTab α} {k : List UInt8} {a : α}
    (h : Inserted ht ht' k a) (hk : Keeps good k) (hi : ht.Indexed good) (hlen : 0 < ht.len)
    (hp : ht'.Placed good) : ht'.Indexed good := by
  refine ⟨hp, fun k' hk' => ?_⟩
  have hold := hi.unique k' hk'
  cases h with
  -- As many nodes have each key as before.
  | overwritten n rest hn before after =>
    have h1 := (before.filter (·.name = k')).length_eq
    have h2 := (after.filter (·.name = k')).length_eq
    rw [filter_name_cons] at h1 h2
    simp only [hn] at h1
    split_ifs at h1 h2 <;> simp_all
  | added absent after =>
    have h2 := (after.filter (·.name = k')).length_eq
    rw [filter_name_cons] at h2
    split_ifs at h2 with hname
    · -- The new node has the key `k'`, which the table did not have.
      have hkk : k = k' := (hk (show good (newNode k a).name from hname ▸ hk')).symm.trans hname
      have hnone := lookup_eq_none_of_chain hlen hi.placed (hkk ▸ hk') absent
      have hnil : ht.entries.filter (·.name = k') = [] := by
        rw [List.filter_eq_nil_iff]
        intro n hn
        simpa [← hkk] using hnone n hn
      simp [h2, hnil]
    · omega

/-- After `insert`, a key that is indexed has the value inserted under it, or its value from
before. -/
theorem Inserted.lookup {ht ht' : HashTab α} {k : List UInt8} {a : α}
    (h : Inserted ht ht' k a) (hk : Keeps good k) (hi : ht.Indexed good) (hi' : ht'.Indexed good)
    {k' : List UInt8} (hk' : good k') (hfits : Fits k') :
    ht'.lookup k' = if k' = k then some a else ht.lookup k' := by
  cases h with
  | overwritten n rest hn before after =>
    rw [HashTab.lookup, HashTab.lookup, find?_perm after (hi'.unique k' hk'),
      find?_perm before (hi.unique k' hk')]
    by_cases hkk : k' = k
    · simp [hkk]
    · simp [hn, hkk, Ne.symm hkk]
  | added absent after =>
    rw [HashTab.lookup, HashTab.lookup, find?_perm after (hi'.unique k' hk')]
    by_cases hkk : k' = k
    · have hname : (newNode k a).name = k' := by
        rw [newNode_name_of_fits a (hkk ▸ hfits), hkk]
      simp only [List.find?_cons, hname, decide_true, if_pos hkk]
      rfl
    · have hne : (newNode k a).name ≠ k' := fun e =>
        hkk (e.symm.trans (hk (show good (newNode k a).name from e ▸ hk')))
      simp [hkk, hne]

/-- `delete` keeps keys indexed. -/
theorem Deleted.indexed {ht ht' : HashTab α} {k : List UInt8} (h : Deleted ht ht' k)
    (hi : ht.Indexed good) (hp : ht'.Placed good) : ht'.Indexed good := by
  refine ⟨hp, fun k' hk' => ?_⟩
  have hold := hi.unique k' hk'
  cases h with
  | removed n hn before =>
    have h1 := (before.filter (·.name = k')).length_eq
    rw [filter_name_cons] at h1
    split_ifs at h1
    · rw [List.length_cons] at h1
      omega
    · omega
  | absent _ after => rw [(after.filter (·.name = k')).length_eq]; exact hold

/-- After `delete`, a key that is indexed has no value when it was deleted, and its value from before
otherwise. -/
theorem Deleted.lookup {ht ht' : HashTab α} {k : List UInt8} (h : Deleted ht ht' k)
    (hi : ht.Indexed good) (hlen : 0 < ht.len) {k' : List UInt8} (hk' : good k') :
    ht'.lookup k' = if k' = k then none else ht.lookup k' := by
  cases h with
  | removed n hn before =>
    have hu := hi.unique k' hk'
    rw [HashTab.lookup, HashTab.lookup, find?_perm before hu]
    by_cases hkk : k' = k
    · -- The node removed was the only one with the key.
      have h1 := (before.filter (·.name = k')).length_eq
      rw [filter_name_cons, if_pos (hn.trans hkk.symm)] at h1
      have hnil : ht'.entries.filter (·.name = k') = [] := by
        apply List.eq_nil_of_length_eq_zero
        simp only [List.length_cons] at h1
        omega
      rw [if_pos hkk, ← List.head?_filter, hnil]
      rfl
    · simp [hn, hkk, Ne.symm hkk]
  | absent habs after =>
    -- The key's chain has no node of that name, so the key has no value before either.
    have hperm := hi.lookup_perm after.symm hk'
    by_cases hkk : k' = k
    · have hnone := lookup_eq_none_of_chain hlen hi.placed (hkk ▸ hk') habs
      rw [hperm, if_pos hkk, HashTab.lookup, List.find?_eq_none.mpr]
      · rfl
      · intro n hn
        simpa [hkk] using hnone n hn
    · rw [hperm, if_neg hkk]

/-- A new table has no nodes. -/
theorem newHashTab_entries : (newHashTab : HashTab α).entries = [] := by
  simp [newHashTab, entries]

theorem newHashTab_len : (newHashTab : HashTab α).len = INIT_SIZE := by
  simp [newHashTab, len]

/-- A new table is indexed. -/
theorem newHashTab_indexed : (newHashTab : HashTab α).Indexed good := by
  refine ⟨?_, fun k _ => by simp [newHashTab_entries]⟩
  intro i c hi n hn
  rw [newHashTab, List.getElem?_replicate] at hi
  split_ifs at hi
  obtain rfl := Option.some.inj hi
  simp at hn

end HashTab

end DnsRelayer
