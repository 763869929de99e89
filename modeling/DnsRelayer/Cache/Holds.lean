import DnsRelayer.Cache.Cache
import DnsRelayer.Cache.HashSpec

/-!
# What every entry of the cache satisfies

A property of keys, deadlines and data that holds of all that is put into a cache holds of all that
is got from it. This is so for keys of any length, which the table truncates to `HASH_KEY_MAX_LEN`
bytes, and in every state that calls lead to before the first that faults; what it takes of the two
linked structures is only that a node of the table points to a list node that was made for its name.

A list node that is alive later, and was allocated before, was alive before with the same key: so a
call that keeps the address of a node may rely on the node's key. It may have another deadline and other
data, of a kind that puts give it (`Cache.Follows`).
-/

namespace DnsRelayer

open Lib

variable {α : Type}

/-! ## Links and contents -/

/-- The same nodes are live, with the same contents. -/
def SameData (hp hp' : LinkHeap α) : Prop := hp'.data = hp.data ∧ hp'.brk = hp.brk

theorem SameData.trans {a b c : LinkHeap α} (h : SameData a b) (h' : SameData b c) :
    SameData a c := ⟨h'.1.trans h.1, h'.2.trans h.2⟩

theorem sameData_setNext {hp hp' : LinkHeap α} {nod v : ℕ} (h : hp.setNext nod v = .ok hp') :
    SameData hp hp' := by
  obtain ⟨_, -, h⟩ := Run.bind_eq_ok.mp h
  obtain rfl := Except.ok.inj h
  exact ⟨rfl, rfl⟩

theorem sameData_setPre {hp hp' : LinkHeap α} {nod v : ℕ} (h : hp.setPre nod v = .ok hp') :
    SameData hp hp' := by
  obtain ⟨_, -, h⟩ := Run.bind_eq_ok.mp h
  obtain rfl := Except.ok.inj h
  exact ⟨rfl, rfl⟩

/-- `PutInHead` changes links only. -/
theorem sameData_putInHead {hp hp' : LinkHeap α} {l : LinkList} {nod : ℕ}
    (h : putInHead hp l nod = .ok hp') : SameData hp hp' := by
  obtain ⟨_, -, h⟩ := Run.bind_eq_ok.mp h
  obtain ⟨_, h₁, h⟩ := Run.bind_eq_ok.mp h
  obtain ⟨_, -, h⟩ := Run.bind_eq_ok.mp h
  obtain ⟨_, h₂, h⟩ := Run.bind_eq_ok.mp h
  obtain ⟨_, h₃, h₄⟩ := Run.bind_eq_ok.mp h
  exact (((sameData_setNext h₁).trans (sameData_setPre h₂)).trans (sameData_setNext h₃)).trans
    (sameData_setPre h₄)

/-- `RemoveFromLinkList` changes links only. -/
theorem sameData_removeFromLinkList {hp hp' : LinkHeap α} {nod : ℕ}
    (h : removeFromLinkList hp nod = .ok hp') : SameData hp hp' := by
  obtain ⟨_, -, h⟩ := Run.bind_eq_ok.mp h
  obtain ⟨_, -, h⟩ := Run.bind_eq_ok.mp h
  obtain ⟨_, h₁, h⟩ := Run.bind_eq_ok.mp h
  obtain ⟨_, -, h⟩ := Run.bind_eq_ok.mp h
  obtain ⟨_, -, h⟩ := Run.bind_eq_ok.mp h
  obtain ⟨_, h₂, h⟩ := Run.bind_eq_ok.mp h
  obtain ⟨_, h₃, h₄⟩ := Run.bind_eq_ok.mp h
  exact (((sameData_setNext h₁).trans (sameData_setPre h₂)).trans (sameData_setPre h₃)).trans
    (sameData_setNext h₄)

/-! ## Nodes of the table -/

namespace HashTab

/-- `rescale` leaves the nodes as they are. -/
theorem mem_of_rescale {ht ht' : HashTab α} {size : ℕ} (h : rescale ht size = .ok ht') {n : Node α}
    (hn : n ∈ ht'.entries) : n ∈ ht.entries := by
  rcases Nat.eq_zero_or_pos size with rfl | hsize
  · by_cases hnil : ht.entries = []
    · rw [rescale_zero_of_nil hnil] at h
      obtain rfl := Except.ok.inj h
      simp [entries] at hn
    · rw [rescale_zero_of_ne_nil hnil] at h
      cases h
  · obtain ⟨ht₁, hok, -, -, hperm, -⟩ := rescale_spec ht hsize
    obtain rfl := Except.ok.inj (hok.symm.trans h)
    exact hperm.mem_iff.mp hn

/-- After `insert` there is one node more, or one with another value. -/
theorem mem_of_insert {ht ht' : HashTab α} {k : List UInt8} {a : α} (h : insert ht k a = .ok ht')
    {n : Node α} (hn : n ∈ ht'.entries) :
    n ∈ ht.entries ∨ n = newNode k a ∨ ∃ m ∈ ht.entries, m.name = k ∧ n = ⟨k, a⟩ := by
  rw [insert] at h
  split_ifs at h with h0
  obtain ⟨l, c, r, hh, -, hc, hget, hset, hmod⟩ :=
    exists_chain (ht.mod_len_lt (Nat.pos_of_ne_zero h0) k)
  have hent : ht.entries = l.flatten ++ (c ++ r.flatten) := by simp [entries, hh]
  -- The value of a node is overwritten, or a node goes to the front of the chain.
  rcases overwrite_cases k a c with ⟨l₁, m, r₁, hc₁, hm, ho⟩ | ⟨-, ho⟩
  · simp only [hc, ho, hset] at h
    obtain rfl := Except.ok.inj h
    simp only [entries, List.flatten_append, List.flatten_cons, List.mem_append,
      List.mem_cons] at hn
    simp only [hent, hc₁, List.mem_append, List.mem_cons]
    rcases hn with hn | (hn | rfl | hn) | hn
    · exact Or.inl (Or.inl hn)
    · exact Or.inl (Or.inr (Or.inl (Or.inl hn)))
    · exact Or.inr (Or.inr ⟨m, by simp, hm, rfl⟩)
    · exact Or.inl (Or.inr (Or.inl (Or.inr (Or.inr hn))))
    · exact Or.inl (Or.inr (Or.inr hn))
  · simp only [hc, ho, hmod] at h
    have hnew : n ∈ (⟨l ++ (newNode k a :: c) :: r, (ht.num + 1) % UINT_MOD⟩ : HashTab α).entries := by
      split_ifs at h
      · exact mem_of_rescale h hn
      · obtain rfl := Except.ok.inj h
        exact hn
    simp only [entries, List.flatten_append, List.flatten_cons, List.mem_append,
      List.mem_cons] at hnew
    simp only [hent, List.mem_append]
    rcases hnew with hn | (rfl | hn) | hn
    · exact Or.inl (Or.inl hn)
    · exact Or.inr (Or.inl rfl)
    · exact Or.inl (Or.inr (Or.inl hn))
    · exact Or.inl (Or.inr (Or.inr hn))

/-- After `delete` there are no new nodes. -/
theorem mem_of_delete {ht ht' : HashTab α} {k : List UInt8} (h : delete ht k = .ok ht')
    {n : Node α} (hn : n ∈ ht'.entries) : n ∈ ht.entries := by
  rw [delete] at h
  split_ifs at h with h0
  obtain ⟨l, c, r, hh, -, hc, hget, hset, hmod⟩ :=
    exists_chain (ht.mod_len_lt (Nat.pos_of_ne_zero h0) k)
  simp only [hmod] at h
  have hold : n ∈ (⟨l ++ deleteNode c k :: r, (ht.num + (UINT_MOD - 1)) % UINT_MOD⟩ :
      HashTab α).entries := by
    split_ifs at h
    · exact mem_of_rescale h hn
    · obtain rfl := Except.ok.inj h
      exact hn
  simp only [entries, List.flatten_append, List.flatten_cons, List.mem_append] at hold
  have hent : ht.entries = l.flatten ++ (c ++ r.flatten) := by simp [entries, hh]
  simp only [hent, List.mem_append]
  rcases hold with hn | hn | hn
  · exact Or.inl hn
  · exact Or.inr (Or.inl (List.mem_of_mem_eraseP hn))
  · exact Or.inr (Or.inr hn)

end HashTab

/-! ## Entries -/

/-- What the table keeps of a key. -/
def tableKey (k : List UInt8) : List UInt8 := strncpy k HASH_KEY_MAX_LEN

/-- A list node keeps more of a key than the table. -/
theorem tableKey_saveUnit (k : List UInt8) :
    tableKey (strncpy k (SAVE_UNIT_KEY_MAX_LEN + 1)) = tableKey k := by
  rw [tableKey, tableKey, strncpy, strncpy, strncpy, List.take_take]
  rfl

theorem tableKey_of_length_le {k : List UInt8} (h : k.length ≤ HASH_KEY_MAX_LEN) : tableKey k = k :=
  strncpy_of_length_le h

/-- The last time at which the data may be got. -/
def SaveUnit.deadline (ui : SaveUnit α) : ℤ := ui.saveTime + ui.TTL

/-- The list node holds this. -/
def Cache.LiveAt (c : Cache α) (a : ℕ) (ui : SaveUnit α) : Prop := c.heap.data a = some (some ui)

/-- Every entry has the property, and the table finds it by what it keeps of its key. -/
structure Cache.Holds (P : List UInt8 → ℤ → α → Prop) (c : Cache α) : Prop where
  alloc : ∀ n ∈ c.hTab.entries, n.data < c.heap.brk
  short : ∀ n ∈ c.hTab.entries, n.name.length ≤ HASH_KEY_MAX_LEN
  key : ∀ n ∈ c.hTab.entries, ∀ ui, c.LiveAt n.data ui → n.name = tableKey ui.key
  data : ∀ a ui, c.LiveAt a ui → P (tableKey ui.key) ui.deadline ui.data

/-- A node that is live later, and was allocated, was live before with the same key, and with the
same deadline and data, unless these are new. -/
structure Cache.Follows (new : List UInt8 → ℤ → α → Prop) (c c' : Cache α) : Prop where
  brk : c.heap.brk ≤ c'.heap.brk
  live : ∀ a ui', a < c.heap.brk → c'.LiveAt a ui' → ∃ ui, c.LiveAt a ui ∧ ui.key = ui'.key ∧
    (ui.deadline = ui'.deadline ∧ ui.data = ui'.data ∨ new (tableKey ui'.key) ui'.deadline ui'.data)

namespace Cache

variable {P new : List UInt8 → ℤ → α → Prop} {c c' : Cache α}

theorem Follows.refl (c : Cache α) : c.Follows new c :=
  ⟨le_rfl, fun _ ui' _ h => ⟨ui', h, rfl, Or.inl ⟨rfl, rfl⟩⟩⟩

theorem Follows.trans {c'' : Cache α} (h : c.Follows new c')
    (h' : c'.Follows new c'') : c.Follows new c'' := by
  refine ⟨h.brk.trans h'.brk, fun a ui'' ha hlive => ?_⟩
  obtain ⟨ui', hlive', hkey', hsame'⟩ := h'.live a ui'' (ha.trans_le h.brk) hlive
  obtain ⟨ui, hlive'', hkey, hsame⟩ := h.live a ui' ha hlive'
  refine ⟨ui, hlive'', hkey.trans hkey', ?_⟩
  rcases hsame' with ⟨hdeadline, hdata⟩ | hnew
  · rw [← hkey', ← hdeadline, ← hdata]
    exact hsame
  · exact Or.inr hnew

/-- More may count as new. -/
theorem Follows.mono {new' : List UInt8 → ℤ → α → Prop} (h : c.Follows new c')
    (hnew : ∀ k t d, new k t d → new' k t d) : c.Follows new' c' := by
  refine ⟨h.brk, fun a ui' ha hlive => ?_⟩
  obtain ⟨ui, hui, hkey, hsame⟩ := h.live a ui' ha hlive
  exact ⟨ui, hui, hkey, hsame.imp_right (hnew _ _ _)⟩

/-- A weaker property holds as well. -/
theorem Holds.mono {P' : List UInt8 → ℤ → α → Prop} (h : c.Holds P)
    (hP : ∀ k t d, P k t d → P' k t d) : c.Holds P' :=
  ⟨h.alloc, h.short, h.key, fun a ui ha => hP _ _ _ (h.data a ui ha)⟩

/-- A new cache has no entries. -/
theorem createCache_holds (maxSize : ℤ) : (createCache maxSize : Cache α).Holds P := by
  have hent : (createCache maxSize : Cache α).hTab.entries = [] := HashTab.newHashTab_entries
  refine ⟨by simp [hent], by simp [hent], by simp [hent], fun a ui ha => ?_⟩
  simp only [LiveAt, createCache, newLinkList, emptyHeap, LinkHeap.malloc] at ha
  by_cases h1 : a = NULL + 1
  · simp [h1] at ha
  · simp [Function.update_of_ne h1] at ha

/-- Links do not matter. -/
theorem Holds.sameData (h : c.Holds P) {hp : LinkHeap (SaveUnit α)} (hd : SameData c.heap hp) :
    Holds P { c with heap := hp } ∧ c.Follows new { c with heap := hp } := by
  have hlive : ∀ a ui, ({ c with heap := hp } : Cache α).LiveAt a ui ↔ c.LiveAt a ui := by
    intro a ui
    simp only [LiveAt, hd.1]
  refine ⟨⟨?_, h.short, ?_, ?_⟩, ⟨hd.2.ge, ?_⟩⟩
  · intro n hn
    exact (h.alloc n hn).trans_le hd.2.ge
  · intro n hn ui hui
    exact h.key n hn ui ((hlive _ _).mp hui)
  · intro a ui hui
    exact h.data a ui ((hlive _ _).mp hui)
  · intro a ui' _ hui
    exact ⟨ui', (hlive _ _).mp hui, rfl, Or.inl ⟨rfl, rfl⟩⟩

/-- Moving a node to the front changes links only. -/
theorem Holds.moveToHead (h : c.Holds P) {lkn : ℕ} (hok : moveToHead c lkn = .ok c') :
    c'.Holds P ∧ c.Follows new c' ∧ c'.heap.data = c.heap.data := by
  obtain ⟨hp, h₁, hok⟩ := Run.bind_eq_ok.mp hok
  obtain ⟨hp', h₂, hok⟩ := Run.bind_eq_ok.mp hok
  obtain rfl := Except.ok.inj hok
  have hd := (sameData_removeFromLinkList h₁).trans (sameData_putInHead h₂)
  obtain ⟨hholds, hfollows⟩ := h.sameData hd
  exact ⟨hholds, hfollows, hd.1⟩

/-- Dropping a node leaves the others. -/
theorem Holds.discard (h : c.Holds P) {lkn : ℕ} (hok : discard c lkn = .ok c') :
    c'.Holds P ∧ c.Follows new c' := by
  obtain ⟨ui, -, hok⟩ := Run.bind_eq_ok.mp hok
  obtain ⟨hTab, hdel, hok⟩ := Run.bind_eq_ok.mp hok
  obtain ⟨hp, hrem, hok⟩ := Run.bind_eq_ok.mp hok
  obtain ⟨hp', hfree, hok⟩ := Run.bind_eq_ok.mp hok
  obtain rfl := Except.ok.inj hok
  obtain ⟨_, -, hfree⟩ := Run.bind_eq_ok.mp hfree
  obtain rfl := Except.ok.inj hfree
  have hd := sameData_removeFromLinkList hrem
  -- What is live after it was live before.
  have hlive : ∀ a ui, Function.update hp.data lkn none a = some (some ui) → c.LiveAt a ui := by
    intro a ui ha
    by_cases hal : a = lkn
    · simp [hal] at ha
    · rw [Function.update_of_ne hal, hd.1] at ha
      exact ha
  refine ⟨⟨?_, ?_, ?_, ?_⟩, ⟨hd.2.ge, ?_⟩⟩
  · intro n hn
    exact (h.alloc n (HashTab.mem_of_delete hdel hn)).trans_le hd.2.ge
  · intro n hn
    exact h.short n (HashTab.mem_of_delete hdel hn)
  · intro n hn ui hui
    exact h.key n (HashTab.mem_of_delete hdel hn) ui (hlive _ _ hui)
  · intro a ui hui
    exact h.data a ui (hlive _ _ hui)
  · intro a ui' _ hui
    exact ⟨ui', hlive _ _ hui, rfl, Or.inl ⟨rfl, rfl⟩⟩

/-- New data in a node keeps the property, when it has it, and counts as new. -/
theorem Holds.setData (h : c.Holds P) {lkn : ℕ} {pui ui : SaveUnit α} (hold : c.LiveAt lkn pui)
    (hkey : ui.key = pui.key) (hP : P (tableKey ui.key) ui.deadline ui.data)
    (hnew : new (tableKey ui.key) ui.deadline ui.data) {hp : LinkHeap (SaveUnit α)}
    (hok : c.heap.setData lkn ui = .ok hp) :
    Holds P { c with heap := hp } ∧ c.Follows new { c with heap := hp } := by
  obtain ⟨_, -, hok⟩ := Run.bind_eq_ok.mp hok
  obtain rfl := Except.ok.inj hok
  -- Only this node has other data.
  have hlive : ∀ a u, Function.update c.heap.data lkn (some (some ui)) a = some (some u) →
      (a = lkn ∧ u = ui) ∨ c.LiveAt a u := by
    intro a u ha
    by_cases hal : a = lkn
    · subst hal
      simp only [Function.update_self, Option.some.injEq] at ha
      exact Or.inl ⟨rfl, ha.symm⟩
    · rw [Function.update_of_ne hal] at ha
      exact Or.inr ha
  refine ⟨⟨h.alloc, h.short, ?_, ?_⟩, ⟨le_rfl, ?_⟩⟩
  · intro n hn u hu
    rcases hlive _ _ hu with ⟨hl, rfl⟩ | hu
    · rw [hkey]
      exact h.key n hn pui (hl ▸ hold)
    · exact h.key n hn u hu
  · intro a u hu
    rcases hlive _ _ hu with ⟨-, rfl⟩ | hu
    · exact hP
    · exact h.data a u hu
  · intro a u _ hu
    rcases hlive _ _ hu with ⟨rfl, rfl⟩ | hu
    · exact ⟨pui, hold, hkey.symm, Or.inr hnew⟩
    · exact ⟨u, hu, rfl, Or.inl ⟨rfl, rfl⟩⟩

/-- A new node keeps the property, when its data has it. -/
theorem Holds.addNode (h : c.Holds P) {key : List UInt8} {data : α} {TTL now : ℤ}
    (hP : P (tableKey key) (now + TTL) data) (hok : addNode c key data TTL now = .ok c') :
    c'.Holds P ∧ c.Follows new c' := by
  obtain ⟨hp, hput, hok⟩ := Run.bind_eq_ok.mp hok
  obtain ⟨hTab, hins, hok⟩ := Run.bind_eq_ok.mp hok
  obtain rfl := Except.ok.inj hok
  generalize hui : (⟨strncpy key (SAVE_UNIT_KEY_MAX_LEN + 1), now, TTL, data⟩ : SaveUnit α) = ui
    at hput hins
  have hkey : tableKey ui.key = tableKey key := by
    rw [← hui]
    exact tableKey_saveUnit key
  have hdata : ui.data = data := by rw [← hui]
  have hdeadline : ui.deadline = now + TTL := by rw [← hui, SaveUnit.deadline]
  obtain ⟨hd, hbrk⟩ := sameData_putInHead hput
  have hbrk' : hp.brk = c.heap.brk + 1 := hbrk
  -- The new node is the only one with data that was not there.
  have hlive : ∀ a u, hp.data a = some (some u) →
      (a = c.heap.brk ∧ u = ui) ∨ a ≠ c.heap.brk ∧ c.LiveAt a u := by
    intro a u ha
    rw [hd] at ha
    by_cases hal : a = c.heap.brk
    · subst hal
      have ha' : Function.update c.heap.data c.heap.brk (some (some ui)) c.heap.brk =
        some (some u) := ha
      simp only [Function.update_self, Option.some.injEq] at ha'
      exact Or.inl ⟨rfl, ha'.symm⟩
    · exact Or.inr ⟨hal, (Function.update_of_ne hal _ c.heap.data).symm.trans ha⟩
  -- A node of the table that points to it was made for its key.
  have hnode : ∀ n ∈ hTab.entries, n ∈ c.hTab.entries ∨
      n.data = c.heap.brk ∧ n.name = tableKey key := by
    intro n hn
    rcases HashTab.mem_of_insert hins hn with hn | rfl | ⟨m, hm, hmk, rfl⟩
    · exact Or.inl hn
    · exact Or.inr ⟨rfl, rfl⟩
    · exact Or.inr ⟨rfl, (tableKey_of_length_le (hmk ▸ h.short m hm)).symm⟩
  refine ⟨⟨?_, ?_, ?_, ?_⟩, ⟨?_, ?_⟩⟩
  · intro n hn
    rcases hnode n hn with hn | ⟨hl, -⟩
    · have := h.alloc n hn
      exact hbrk' ▸ this.trans (Nat.lt_succ_self _)
    · exact hbrk' ▸ hl ▸ Nat.lt_succ_self _
  · intro n hn
    rcases hnode n hn with hn | ⟨-, hname⟩
    · exact h.short n hn
    · rw [hname, tableKey, strncpy, List.length_take]
      exact Nat.min_le_left _ _
  · intro n hn u hu
    rcases hlive _ _ hu with ⟨hl, rfl⟩ | ⟨hne, hu⟩
    · rcases hnode n hn with hn | ⟨-, hname⟩
      · exact absurd (h.alloc n hn) (by omega)
      · rw [hname, hkey]
    · rcases hnode n hn with hn | ⟨hl, -⟩
      · exact h.key n hn u hu
      · exact absurd hl hne
  · intro a u hu
    rcases hlive _ _ hu with ⟨-, rfl⟩ | ⟨-, hu⟩
    · rw [hkey, hdata, hdeadline]
      exact hP
    · exact h.data a u hu
  · exact hbrk' ▸ Nat.le_succ _
  · intro a u ha hu
    rcases hlive _ _ hu with ⟨rfl, -⟩ | ⟨-, hu⟩
    · exact absurd ha (lt_irrefl _)
    · exact ⟨u, hu, rfl, Or.inl ⟨rfl, rfl⟩⟩

theorem liveAt_of_getData {lkn : ℕ} {ui : SaveUnit α} (h : c.heap.getData lkn = .ok ui) :
    c.LiveAt lkn ui := by
  unfold LinkHeap.getData at h
  split at h
  · rename_i d hd
    rw [LiveAt, hd, Except.ok.inj h]
  · cases h

/-- The list node that a search finds was made for the key. -/
theorem Holds.search (h : c.Holds P) {key : List UInt8} {lkn : ℕ}
    (hs : search c.hTab key = .ok (some lkn)) :
    lkn < c.heap.brk ∧ key.length ≤ HASH_KEY_MAX_LEN ∧
      ∀ ui, c.LiveAt lkn ui → tableKey ui.key = key := by
  obtain ⟨n, hn, rfl, rfl⟩ := HashTab.exists_of_search hs
  exact ⟨h.alloc n hn, h.short n hn, fun ui hui => (h.key n hn ui hui).symm⟩

/-- `CachePut` keeps the property, when the data has it under what the table keeps of the key and with
its deadline. -/
theorem Holds.put (h : c.Holds P) {key : List UInt8} {data : α} {TTL now : ℤ}
    (hP : P (tableKey key) (now + TTL) data) (hnew : new (tableKey key) (now + TTL) data)
    (hok : cachePut c key data TTL now = .ok c') : c'.Holds P ∧ c.Follows new c' := by
  obtain ⟨r, hs, hok⟩ := Run.bind_eq_ok.mp hok
  cases r with
  | some lkn =>
    obtain ⟨pui, hpui, hok⟩ := Run.bind_eq_ok.mp hok
    obtain ⟨hp, hset, hok⟩ := Run.bind_eq_ok.mp hok
    obtain ⟨-, hshort, hkey⟩ := h.search hs
    have hlive := liveAt_of_getData hpui
    -- The node was made for the key, which the table keeps whole.
    have hpui : tableKey pui.key = tableKey key := by
      rw [hkey pui hlive, tableKey_of_length_le hshort]
    have hP' : P (tableKey pui.key) (now + TTL) data := hpui ▸ hP
    have hnew' : new (tableKey pui.key) (now + TTL) data := hpui ▸ hnew
    obtain ⟨h₁, hf₁⟩ := @Holds.setData _ P new c h lkn pui
      { pui with data := data, saveTime := now, TTL := TTL } hlive rfl hP' hnew' _ hset
    obtain ⟨h₂, hf₂, -⟩ := h₁.moveToHead hok
    exact ⟨h₂, hf₁.trans hf₂⟩
  | none =>
    dsimp only at hok
    split_ifs at hok
    · -- The last entry makes room.
      obtain ⟨c₁, hevict, hok⟩ := Run.bind_eq_ok.mp hok
      obtain ⟨lkn, -, hdiscard⟩ := Run.bind_eq_ok.mp hevict
      obtain ⟨h₁, hf₁⟩ := h.discard hdiscard
      obtain ⟨h₂, hf₂⟩ := h₁.addNode hP hok
      exact ⟨h₂, hf₁.trans hf₂⟩
    · exact h.addNode hP hok

/-- The first section of `CacheGet` keeps the property. The node that it finds was made for the key,
and its deadline is not over. -/
theorem Holds.getLocked (h : c.Holds P) {key : List UInt8} {now : ℤ} {r : Option ℕ}
    (hok : cacheGetLocked c key now = .ok (r, c')) :
    c'.Holds P ∧ c.Follows new c' ∧ ∀ lkn, r = some lkn → lkn < c'.heap.brk ∧
      ∀ ui, c'.LiveAt lkn ui → tableKey ui.key = key ∧ now ≤ ui.deadline := by
  obtain ⟨found, hs, hok⟩ := Run.bind_eq_ok.mp hok
  cases found with
  | none =>
    obtain ⟨rfl, rfl⟩ := Prod.mk.inj (Except.ok.inj hok)
    exact ⟨h, .refl c, fun _ hr => by cases hr⟩
  | some lkn =>
    obtain ⟨ui, hui, hok⟩ := Run.bind_eq_ok.mp hok
    obtain ⟨hlt, -, hkey⟩ := h.search hs
    split_ifs at hok with hexp
    -- The time of the node is over: it is dropped.
    · obtain ⟨c₁, hdiscard, hok⟩ := Run.bind_eq_ok.mp hok
      obtain ⟨rfl, rfl⟩ := Prod.mk.inj (Except.ok.inj hok)
      obtain ⟨h₁, hf₁⟩ := h.discard hdiscard
      exact ⟨h₁, hf₁, fun _ hr => by cases hr⟩
    · obtain ⟨c₁, hmove, hok⟩ := Run.bind_eq_ok.mp hok
      obtain ⟨rfl, rfl⟩ := Prod.mk.inj (Except.ok.inj hok)
      obtain ⟨h₁, hf₁, hdata⟩ := h.moveToHead hmove
      refine ⟨h₁, hf₁, fun l hr => ?_⟩
      obtain rfl := Option.some.inj hr
      refine ⟨hlt.trans_le hf₁.brk, fun u hu => ?_⟩
      rw [LiveAt, hdata] at hu
      obtain rfl := Option.some.inj (Option.some.inj ((liveAt_of_getData hui).symm.trans hu))
      exact ⟨hkey _ hu, by rw [SaveUnit.deadline]; omega⟩

/-- What the second section of `CacheGet` copies is in the node. -/
theorem liveAt_of_getCopy {lkn : ℕ} {d : α} (h : cacheGetCopy c lkn = .ok d) :
    ∃ ui, c.LiveAt lkn ui ∧ ui.data = d := by
  obtain ⟨ui, hui, h⟩ := Run.bind_eq_ok.mp h
  exact ⟨ui, liveAt_of_getData hui, Except.ok.inj h⟩

/-- What the second section of `CacheGet` copies has the property, under the key of its node. -/
theorem Holds.getCopy (h : c.Holds P) {lkn : ℕ} {d : α} (hok : cacheGetCopy c lkn = .ok d) :
    ∃ ui, c.LiveAt lkn ui ∧ P (tableKey ui.key) ui.deadline d := by
  obtain ⟨ui, hui, rfl⟩ := liveAt_of_getCopy hok
  exact ⟨ui, hui, h.data lkn ui hui⟩

end Cache

end DnsRelayer
