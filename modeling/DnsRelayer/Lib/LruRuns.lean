import DnsRelayer.Lib.Lru
import Mathlib.Data.List.Induction
import Mathlib.Data.Finset.Card

/-!
# What a map that forgets still knows

Three facts about sequences of uses of the map of `Lib/Lru.lean`, from the empty one.

- What `get` returns is the value that was put last under the key, in its time (`get_lastPut`).
- An entry is not dropped as long as it is in time and, between two uses of its key, fewer other keys
  are used than there is room for (`get_retained`).
- Whatever a map returns, one with more room returns as well (`run_included`). The entries of the
  smaller are among those of the larger, in the same order, and the larger never has more others than
  it has more room: a `get` of a key that only the larger has moves its entry in front, so that the
  entries of the smaller need not be first.
-/

namespace DnsRelayer.Lib

/-- The entry that a use stores. -/
def Use.stores {K V : Type} : Use K V → Option (Entry K V)
  | .put key value TTL now => some ⟨key, value, now, TTL⟩
  | .get _ _ => none

namespace Lru

variable {K V : Type} [DecidableEq K] {maxSize : ℕ} {key : K} {es es' fs l r : List (Entry K V)}
  {e : Entry K V} {u : Use K V}

/-- The entries after one use. -/
def next (maxSize : ℕ) (u : Use K V) (es : List (Entry K V)) : List (Entry K V) :=
  (run maxSize [u] es).2

@[simp]
theorem next_put (key : K) (value : V) (TTL now : ℤ) :
    next maxSize (.put key value TTL now) es = put maxSize key value TTL now es := rfl

/-- Two sequences of uses, one after the other. -/
theorem run_append (us vs : List (Use K V)) (es : List (Entry K V)) :
    run maxSize (us ++ vs) es = ((run maxSize us es).1 ++ (run maxSize vs (run maxSize us es).2).1,
      (run maxSize vs (run maxSize us es).2).2) := by
  induction us generalizing es with
  | nil => rfl
  | cons u us ih =>
    rw [List.cons_append, run_cons, run_cons maxSize u us, ih]
    simp only [List.append_assoc]

/-- The entries after one more use. -/
theorem run_concat (us : List (Use K V)) (u : Use K V) (es : List (Entry K V)) :
    (run maxSize (us ++ [u]) es).2 = next maxSize u (run maxSize us es).2 := by
  rw [run_append]
  rfl

/-! ## One use -/

/-- No two entries have one key, and there are no more than `maxSize`. -/
structure Wf (maxSize : ℕ) (es : List (Entry K V)) : Prop where
  nodup : (keys es).Nodup
  length_le : es.length ≤ maxSize

/-- What a use does to the entries. -/
inductive Effect (maxSize : ℕ) (es : List (Entry K V)) : Use K V → List (Entry K V) → Prop
  | misses {key : K} {now : ℤ} (absent : key ∉ keys es) : Effect maxSize es (.get key now) es
  | expires {key : K} {now : ℤ} {e : Entry K V} {l r : List (Entry K V)} (split : es = l ++ e :: r)
    (key_eq : e.key = key) (expired : e.Expired now) : Effect maxSize es (.get key now) (l ++ r)
  | hits {key : K} {now : ℤ} {e : Entry K V} {l r : List (Entry K V)} (split : es = l ++ e :: r)
    (key_eq : e.key = key) (live : ¬ e.Expired now) :
    Effect maxSize es (.get key now) (e :: (l ++ r))
  | replaces {key : K} {value : V} {TTL now : ℤ} {e : Entry K V} {l r : List (Entry K V)}
    (split : es = l ++ e :: r) (key_eq : e.key = key) :
    Effect maxSize es (.put key value TTL now) (⟨key, value, now, TTL⟩ :: (l ++ r))
  | grows {key : K} {value : V} {TTL now : ℤ} (absent : key ∉ keys es) (room : es.length < maxSize) :
    Effect maxSize es (.put key value TTL now) (⟨key, value, now, TTL⟩ :: es)
  | evicts {key : K} {value : V} {TTL now : ℤ} {e : Entry K V} {l : List (Entry K V)}
    (absent : key ∉ keys es) (last : es = l ++ [e]) (full : es.length = maxSize) :
    Effect maxSize es (.put key value TTL now) (⟨key, value, now, TTL⟩ :: l)

omit [DecidableEq K] in
theorem mem_keys (h : e ∈ es) : e.key ∈ keys es := List.mem_map_of_mem h

omit [DecidableEq K] in
/-- The entry of a key, with what is before and after it. -/
theorem exists_split (h : key ∈ keys es) : ∃ l e r, es = l ++ e :: r ∧ e.key = key := by
  obtain ⟨e, he, hkey⟩ := List.mem_map.mp h
  obtain ⟨l, r, rfl⟩ := List.append_of_mem he
  exact ⟨l, e, r, rfl, hkey⟩

/-- Every use does one of these. -/
theorem effect_next (h : Wf maxSize es) (hmax : 1 ≤ maxSize) (u : Use K V) :
    Effect maxSize es u (next maxSize u es) := by
  cases u with
  | get key now =>
    show Effect maxSize es _ (get key now es).2
    by_cases hkey : key ∈ keys es
    · obtain ⟨l, e, r, rfl, hek⟩ := exists_split hkey
      rw [get_of_split now h.nodup hek]
      split_ifs with hexp
      · exact .expires rfl hek hexp
      · exact .hits rfl hek hexp
    · rw [get_of_notMem now hkey]
      exact .misses hkey
  | put key value TTL now =>
    show Effect maxSize es _ (put maxSize key value TTL now es)
    by_cases hkey : key ∈ keys es
    · obtain ⟨l, e, r, rfl, hek⟩ := exists_split hkey
      rw [put_of_split maxSize value TTL now h.nodup hek]
      exact .replaces rfl hek
    rcases Nat.lt_or_eq_of_le h.length_le with hlt | heq
    · rw [put_of_notMem_of_lt value TTL now hkey hlt]
      exact .grows hkey hlt
    · obtain ⟨l, e, rfl⟩ := (List.eq_nil_or_concat' es).resolve_left fun hnil => by
        rw [hnil] at heq
        simp at heq
        omega
      rw [put_of_notMem_of_eq value TTL now hkey heq]
      exact .evicts hkey rfl heq

omit [DecidableEq K] in
/-- The key of an entry is that of no other one. -/
theorem Wf.split (h : Wf maxSize (l ++ e :: r)) : Wf maxSize (l ++ r) ∧ e.key ∉ keys (l ++ r) := by
  have hperm : (keys (l ++ e :: r)).Perm (e.key :: keys (l ++ r)) :=
    List.perm_middle.map Entry.key
  obtain ⟨hnot, hnodup⟩ := List.nodup_cons.mp (hperm.nodup_iff.mp h.nodup)
  refine ⟨⟨hnodup, ?_⟩, hnot⟩
  have := h.length_le
  simp only [List.length_append, List.length_cons] at this ⊢
  omega

omit [DecidableEq K] in
/-- Uses keep entries with keys of their own. -/
theorem Wf.effect (h : Wf maxSize es) (he : Effect maxSize es u es') : Wf maxSize es' := by
  cases he with
  | misses absent => exact h
  | expires split key_eq expired =>
    subst split
    exact h.split.1
  | hits split key_eq live =>
    subst split
    refine ⟨List.nodup_cons.mpr ⟨h.split.2, h.split.1.nodup⟩, ?_⟩
    have := h.length_le
    simp only [List.length_append, List.length_cons] at this ⊢
    omega
  | replaces split key_eq =>
    subst split
    subst key_eq
    refine ⟨List.nodup_cons.mpr ⟨h.split.2, h.split.1.nodup⟩, ?_⟩
    have := h.length_le
    simp only [List.length_append, List.length_cons] at this ⊢
    omega
  | grows absent room => exact ⟨List.nodup_cons.mpr ⟨absent, h.nodup⟩, room⟩
  | @evicts key value TTL now e l absent last full =>
    subst last
    have hnil := h.split
    rw [List.append_nil] at hnil
    refine ⟨List.nodup_cons.mpr ⟨fun hk => absent ?_, hnil.1.nodup⟩, ?_⟩
    · simp only [keys, List.map_append, List.mem_append]
      exact Or.inl hk
    · simpa using full.le

/-- After every sequence of uses the entries have keys of their own. -/
theorem wf_run (hmax : 1 ≤ maxSize) (us : List (Use K V)) : Wf maxSize (run maxSize us []).2 := by
  induction us using List.reverseRecOn with
  | nil => exact ⟨List.nodup_nil, Nat.zero_le _⟩
  | append_singleton us u ih =>
    rw [run_concat]
    exact ih.effect (effect_next ih hmax u)

/-! ## What was put last -/

/-- The entry that was stored last under a key. -/
def lastPut (us : List (Use K V)) (key : K) : Option (Entry K V) :=
  ((us.filterMap Use.stores).filter (·.key = key)).getLast?

theorem lastPut_concat_of_eq (us : List (Use K V)) (h : u.stores = some e) :
    lastPut (us ++ [u]) e.key = some e := by
  simp [lastPut, List.filterMap_append, h]

theorem lastPut_concat_of_ne (us : List (Use K V)) (h : ∀ e, u.stores = some e → e.key ≠ key) :
    lastPut (us ++ [u]) key = lastPut us key := by
  cases hu : u.stores with
  | none => simp [lastPut, List.filterMap_append, hu]
  | some e => simp [lastPut, List.filterMap_append, hu, h e hu]

omit [DecidableEq K] in
/-- After a use there is what it stores, if anything, and entries of other keys from before. -/
theorem Effect.mem (he : Effect maxSize es u es') (h : Wf maxSize es) :
    ∀ e ∈ es', u.stores = some e ∨ e ∈ es ∧ ∀ e', u.stores = some e' → e'.key ≠ e.key := by
  intro e hmem
  cases he with
  | misses absent => exact Or.inr ⟨hmem, fun _ hs => by cases hs⟩
  | expires split key_eq expired =>
    subst split
    exact Or.inr ⟨List.perm_middle.symm.mem_iff.mp (List.mem_cons_of_mem _ hmem),
      fun _ hs => by cases hs⟩
  | hits split key_eq live =>
    subst split
    exact Or.inr ⟨List.perm_middle.symm.mem_iff.mp hmem, fun _ hs => by cases hs⟩
  | @replaces key value TTL now e' l r split key_eq =>
    subst split
    subst key_eq
    rcases List.mem_cons.mp hmem with rfl | hmem
    · exact Or.inl rfl
    · refine Or.inr ⟨List.perm_middle.symm.mem_iff.mp (List.mem_cons_of_mem _ hmem), ?_⟩
      rintro _ ⟨⟩ heq
      exact h.split.2 (heq ▸ mem_keys hmem)
  | @grows key value TTL now absent room =>
    rcases List.mem_cons.mp hmem with rfl | hold
    · exact Or.inl rfl
    · refine Or.inr ⟨hold, ?_⟩
      rintro _ ⟨⟩ (rfl : key = e.key)
      exact absent (mem_keys hold)
  | @evicts key value TTL now e' l absent last full =>
    subst last
    rcases List.mem_cons.mp hmem with rfl | hold
    · exact Or.inl rfl
    · refine Or.inr ⟨List.mem_append_left _ hold, ?_⟩
      rintro _ ⟨⟩ (rfl : key = e.key)
      exact absent (mem_keys (List.mem_append_left _ hold))

/-- Every entry is what was stored last under its key. -/
theorem lastPut_of_mem (hmax : 1 ≤ maxSize) (us : List (Use K V)) :
    ∀ e ∈ (run maxSize us []).2, lastPut us e.key = some e := by
  induction us using List.reverseRecOn with
  | nil =>
    intro e he
    cases he
  | append_singleton us u ih =>
    intro e he
    rw [run_concat] at he
    have hwf := wf_run hmax us
    rcases (effect_next hwf hmax u).mem hwf e he with hs | ⟨hmem, hne⟩
    · exact lastPut_concat_of_eq us hs
    · rw [lastPut_concat_of_ne us hne]
      exact ih e hmem

/-- What a `get` returns was stored last under its key, and is in its time. -/
theorem get_lastPut (hmax : 1 ≤ maxSize) (us : List (Use K V)) {now : ℤ} {v : V}
    (h : (get key now (run maxSize us []).2).1 = some v) :
    ∃ e, lastPut us key = some e ∧ e.value = v ∧ ¬ e.Expired now := by
  have hwf := wf_run hmax us
  by_cases hkey : key ∈ keys (run maxSize us []).2
  · obtain ⟨l, e, r, heq, rfl⟩ := exists_split hkey
    have hlast := lastPut_of_mem hmax us e (by rw [heq]; simp)
    rw [heq] at hwf h
    rw [get_of_split now hwf.nodup rfl] at h
    split_ifs at h with hexp
    exact ⟨e, hlast, Option.some.inj h, hexp⟩
  · rw [get_of_notMem now hkey] at h
    cases h

/-! ## What is not dropped -/

/-- Between two uses of a key, and after the last one, fewer other keys are used than `maxSize`. -/
def Roomy (maxSize : ℕ) (key : K) (us : List (Use K V)) : Prop :=
  ∀ w, w <:+: us → key ∉ w.map Use.key → (w.map Use.key).toFinset.card < maxSize

/-- Whether there is room is decided by trying every stretch of the uses. -/
instance (us : List (Use K V)) : Decidable (Roomy maxSize key us) :=
  decidable_of_iff (∀ t ∈ us.tails, ∀ w ∈ t.inits, key ∉ w.map Use.key →
    (w.map Use.key).toFinset.card < maxSize) <| by
      simp only [List.mem_tails, List.mem_inits, Roomy]
      constructor
      · intro h w hw
        obtain ⟨t, hwt, ht⟩ := List.infix_iff_prefix_suffix.mp hw
        exact h t ht w hwt
      · intro h t ht w hwt
        exact h w (List.infix_iff_prefix_suffix.mpr ⟨t, hwt, ht⟩)

/-- The entry is there, behind entries of keys that were used since its own was. -/
def Behind (e : Entry K V) (w : List (Use K V)) (es : List (Entry K V)) : Prop :=
  ∃ l r, es = l ++ e :: r ∧ ∀ k ∈ keys l, k ∈ w.map Use.key

omit [DecidableEq K] in
/-- An entry stays behind what it was behind when another one is taken out. -/
theorem split_of_ne {e' : Entry K V} {l' r' : List (Entry K V)}
    (h : l ++ e :: r = l' ++ e' :: r') (hne : e ≠ e') :
    ∃ l₁ r₁, l' ++ r' = l₁ ++ e :: r₁ ∧ ∀ a ∈ l₁, a ∈ l := by
  rcases List.append_eq_append_iff.mp h with ⟨m, rfl, hm⟩ | ⟨m, rfl, hm⟩
  · cases m with
    | nil => exact absurd (List.cons.inj hm).1 hne
    | cons a m =>
      obtain ⟨rfl, rfl⟩ := List.cons.inj hm
      exact ⟨l, m ++ r', by simp, fun _ ha => ha⟩
  · cases m with
    | nil => exact absurd (List.cons.inj hm).1.symm hne
    | cons a m =>
      obtain ⟨rfl, rfl⟩ := List.cons.inj hm
      refine ⟨l' ++ m, r, by simp, fun a ha => ?_⟩
      exact List.perm_middle.symm.mem_iff.mp (List.mem_cons_of_mem _ ha)

/-- A use of another key keeps the entry, unless it brings the keys to `maxSize`. -/
theorem Behind.effect_of_ne {w : List (Use K V)} (h : Behind e w es) (hwf : Wf maxSize es)
    (he : Effect maxSize es u es') (hkey : u.key ≠ e.key)
    (hroom : ((w ++ [u]).map Use.key).toFinset.card < maxSize) : Behind e (w ++ [u]) es' := by
  obtain ⟨l, r, hes, hl⟩ := h
  have hold : ∀ k ∈ keys l, k ∈ (w ++ [u]).map Use.key := by
    intro k hk
    rw [List.map_append]
    exact List.mem_append_left _ (hl k hk)
  have hnew : u.key ∈ (w ++ [u]).map Use.key := by simp
  have hsub : ∀ {l₁ : List (Entry K V)}, (∀ a ∈ l₁, a ∈ l) →
      ∀ k ∈ keys l₁, k ∈ (w ++ [u]).map Use.key := by
    intro l₁ hl₁ k hk
    obtain ⟨a, ha, rfl⟩ := List.mem_map.mp hk
    exact hold _ (mem_keys (hl₁ a ha))
  have hcons : ∀ {e' : Entry K V} {l₁ : List (Entry K V)}, e'.key = u.key → (∀ a ∈ l₁, a ∈ l) →
      ∀ k ∈ keys (e' :: l₁), k ∈ (w ++ [u]).map Use.key := by
    intro e' l₁ he' hl₁ k hk
    rcases List.mem_cons.mp hk with hk | hk
    · rw [show k = u.key from hk.trans he']
      exact hnew
    · exact hsub hl₁ k hk
  cases he with
  | misses absent => exact ⟨l, r, hes, hold⟩
  | expires split key_eq expired =>
    obtain ⟨l₁, r₁, heq, hl₁⟩ := split_of_ne (hes.symm.trans split)
      (fun h => hkey (key_eq.symm.trans (congrArg Entry.key h.symm)))
    exact ⟨l₁, r₁, heq, hsub hl₁⟩
  | hits split key_eq live =>
    obtain ⟨l₁, r₁, heq, hl₁⟩ := split_of_ne (hes.symm.trans split)
      (fun h => hkey (key_eq.symm.trans (congrArg Entry.key h.symm)))
    exact ⟨_ :: l₁, r₁, by rw [heq, List.cons_append], hcons key_eq hl₁⟩
  | replaces split key_eq =>
    obtain ⟨l₁, r₁, heq, hl₁⟩ := split_of_ne (hes.symm.trans split)
      (fun h => hkey (key_eq.symm.trans (congrArg Entry.key h.symm)))
    exact ⟨_ :: l₁, r₁, by rw [heq, List.cons_append], hcons rfl hl₁⟩
  | grows absent room =>
    exact ⟨_ :: l, r, by rw [hes, List.cons_append], hcons rfl fun _ ha => ha⟩
  | @evicts key value TTL now e' l' absent last full =>
    rcases List.eq_nil_or_concat' r with rfl | ⟨r, b, rfl⟩
    · -- The entry is the last one: all the keys before it were used, and so is the new one.
      have hsubset : (key :: keys l).toFinset ⊆
          ((w ++ [Use.put key value TTL now]).map Use.key).toFinset := by
        intro k hk
        rw [List.mem_toFinset] at hk ⊢
        exact @hcons ⟨key, value, now, TTL⟩ l rfl (fun _ ha => ha) k hk
      have hnodup : (key :: keys l).Nodup := by
        rw [hes] at absent hwf
        refine List.nodup_cons.mpr ⟨fun hk => absent ?_, ?_⟩
        · simp only [keys, List.map_append, List.mem_append]
          exact Or.inl hk
        · simpa using hwf.split.1.nodup
      have hcard := Finset.card_le_card hsubset
      rw [List.toFinset_card_of_nodup hnodup] at hcard
      rw [hes] at full
      simp only [keys, List.length_cons, List.length_map, List.length_append, List.length_nil]
        at hcard full
      omega
    · rw [last, ← List.cons_append, ← List.append_assoc] at hes
      obtain rfl := (List.append_inj' hes rfl).1
      exact ⟨_ :: l, r, rfl, hcons rfl fun _ ha => ha⟩

omit [DecidableEq K] in
/-- A `get` of its own key that finds the entry in its time brings it to the front. -/
theorem Behind.effect_of_get {w : List (Use K V)} {now : ℤ} (h : Behind e w es)
    (hwf : Wf maxSize es) (he : Effect maxSize es (.get e.key now) es') (hlive : ¬ e.Expired now) :
    Behind e [] es' := by
  obtain ⟨l, r, rfl, -⟩ := h
  have hmem : e ∈ l ++ e :: r := by simp
  -- The entry that is found is the only one of its key.
  have heq : ∀ {e' l' r'}, l ++ e :: r = l' ++ e' :: r' → e'.key = e.key → e' = e := by
    intro e' l' r' hsplit hkey
    exact List.inj_on_of_nodup_map hwf.nodup (by rw [hsplit]; simp) hmem hkey
  cases he with
  | misses absent => exact absurd (mem_keys hmem) absent
  | expires split key_eq expired =>
    obtain rfl := heq split key_eq
    exact absurd expired hlive
  | @hits _ _ e' l' r' split key_eq live =>
    obtain rfl := heq split key_eq
    exact ⟨[], l' ++ r', rfl, by simp [keys]⟩

/-- What is put goes in front. -/
theorem exists_put_eq (maxSize : ℕ) (key : K) (value : V) (TTL now : ℤ) (es : List (Entry K V)) :
    ∃ es', put maxSize key value TTL now es = ⟨key, value, now, TTL⟩ :: es' := by
  rw [put]
  split_ifs <;> exact ⟨_, rfl⟩

/-- If the use is of the entry's key, it is a `get` in its time. -/
def Spares (e : Entry K V) : Use K V → Prop
  | .put key _ _ _ => key ≠ e.key
  | .get key now => key = e.key → ¬ e.Expired now

instance (e : Entry K V) : DecidablePred (Spares e)
  | .put _ _ _ _ => inferInstanceAs (Decidable (_ ≠ _))
  | .get _ _ => inferInstanceAs (Decidable (_ → _))

/-- An entry in front stays among the entries along uses that leave room for it. -/
theorem behind_run (hmax : 1 ≤ maxSize) (hwf : Wf maxSize (e :: es)) (us : List (Use K V))
    (hroom : Roomy maxSize e.key us) (htime : ∀ u ∈ us, Spares e u) :
    Wf maxSize (run maxSize us (e :: es)).2 ∧
      ∃ w, w <:+ us ∧ e.key ∉ w.map Use.key ∧ Behind e w (run maxSize us (e :: es)).2 := by
  induction us using List.reverseRecOn with
  | nil => exact ⟨hwf, [], List.suffix_refl _, by simp, [], es, rfl, by simp [keys]⟩
  | append_singleton us u ih =>
    obtain ⟨hwf', w, hw, hnot, hbehind⟩ := ih
      (fun w hw => hroom w (hw.trans (List.infix_append_of_infix_left (List.infix_refl us))))
      (fun v hv => htime v (List.mem_append_left _ hv))
    rw [run_concat]
    have heff := effect_next hwf' hmax u
    refine ⟨hwf'.effect heff, ?_⟩
    by_cases hkey : u.key = e.key
    · have hspares := htime u (by simp)
      cases u with
      | put key value TTL now => exact absurd hkey hspares
      | get key now =>
        obtain rfl : key = e.key := hkey
        exact ⟨[], List.nil_suffix, by simp, hbehind.effect_of_get hwf' heff (hspares rfl)⟩
    · obtain ⟨t, rfl⟩ := hw
      have hsuffix : w ++ [u] <:+ t ++ w ++ [u] := ⟨t, by simp⟩
      have hnot' : e.key ∉ (w ++ [u]).map Use.key := by simpa [Ne.symm hkey] using hnot
      exact ⟨w ++ [u], hsuffix, hnot',
        hbehind.effect_of_ne hwf' heff hkey (hroom _ hsuffix.isInfix hnot')⟩

/-- A value that was put is returned as long as it is in its time, is not put over, and fewer other
keys than `maxSize` are used between two uses of its key. -/
theorem get_retained (hmax : 1 ≤ maxSize) (before after : List (Use K V)) {v : V} {TTL saveTime now : ℤ}
    (hroom : Roomy maxSize key after) (htime : ∀ u ∈ after, Spares ⟨key, v, saveTime, TTL⟩ u)
    (hnow : now - saveTime ≤ TTL) :
    (get key now (run maxSize (before ++ .put key v TTL saveTime :: after) []).2).1 = some v := by
  obtain ⟨es, hes⟩ := exists_put_eq maxSize key v TTL saveTime (run maxSize before []).2
  have hput := @run_concat _ _ _ maxSize before (.put key v TTL saveTime) []
  rw [next_put, hes] at hput
  have hwf := wf_run hmax (before ++ [.put key v TTL saveTime])
  rw [hput] at hwf
  obtain ⟨hwf', w, -, -, l, r, hsplit, -⟩ := behind_run hmax hwf after hroom htime
  rw [List.append_cons, run_append, hput]
  rw [hsplit] at hwf' ⊢
  rw [get_of_split now hwf'.nodup rfl, if_neg (by simpa [Entry.Expired] using hnow)]

/-! ## More room -/

/-- The entries of a map are among those of another with more room, in the same order, and the other
has no more others than it has more room. -/
structure Included (n m : ℕ) (es fs : List (Entry K V)) : Prop where
  sublist : es.Sublist fs
  length_le : fs.length + n ≤ es.length + m

section Included

variable {n m : ℕ} {l' r' : List (Entry K V)}

/-- An entry that both maps have is taken out of both. -/
theorem Included.remove (h : (l ++ e :: r).Sublist (l' ++ e :: r'))
    (hes : (keys (l ++ e :: r)).Nodup) (hfs : (keys (l' ++ e :: r')).Nodup) :
    (l ++ r).Sublist (l' ++ r') := by
  rw [← (find?_split hes rfl).2, ← (find?_split hfs rfl).2]
  exact h.eraseP

/-- An entry that the smaller map does not have is taken out of the larger. -/
theorem Included.remove_absent (h : es.Sublist (l' ++ e :: r')) (hfs : (keys (l' ++ e :: r')).Nodup)
    (habs : e.key ∉ keys es) : es.Sublist (l' ++ r') := by
  have hes : es.eraseP (·.key = e.key) = es := by
    refine List.eraseP_of_forall_not fun a ha => ?_
    simpa using fun hk : a.key = e.key => habs (hk ▸ mem_keys ha)
  rw [← hes, ← (find?_split hfs rfl).2]
  exact h.eraseP

/-- A use keeps the entries of the smaller map among those of the larger. -/
theorem Included.effect {es' fs' : List (Entry K V)} (h : Included n m es fs) (hes : Wf n es)
    (hfs : Wf m fs) (hsmall : Effect n es u es') (hlarge : Effect m fs u fs') :
    Included n m es' fs' := by
  have hlen := h.length_le
  have hsub := h.sublist
  -- An entry of the smaller map is the only one of its key in the larger.
  have heq : ∀ {a e' l' r'}, a ∈ es → fs = l' ++ e' :: r' → e'.key = a.key → e' = a := by
    intro a e' l' r' ha hsplit hkey
    exact List.inj_on_of_nodup_map hfs.nodup (by rw [hsplit]; simp) (hsub.subset ha) hkey
  have hpresent : ∀ {a key}, a ∈ es → a.key = key → key ∈ keys fs := by
    rintro a _ ha rfl
    exact mem_keys (hsub.subset ha)
  cases hsmall with
  | misses absent =>
    cases hlarge with
    | misses _ => exact h
    | expires split key_eq _ =>
      subst split
      subst key_eq
      refine ⟨Included.remove_absent hsub hfs.nodup absent, ?_⟩
      simp only [List.length_append, List.length_cons] at hlen ⊢
      omega
    | hits split key_eq _ =>
      subst split
      subst key_eq
      refine ⟨(Included.remove_absent hsub hfs.nodup absent).cons _, ?_⟩
      simp only [List.length_append, List.length_cons] at hlen ⊢
      omega
  | @expires key now e l r split key_eq expired =>
    have hmem : e ∈ es := by simp [split]
    cases hlarge with
    | misses absent => exact absurd (hpresent hmem key_eq) absent
    | expires split' key_eq' _ =>
      obtain rfl := heq hmem split' (key_eq'.trans key_eq.symm)
      subst split
      subst split'
      refine ⟨Included.remove hsub hes.nodup hfs.nodup, ?_⟩
      simp only [List.length_append, List.length_cons] at hlen ⊢
      omega
    | hits split' key_eq' live =>
      obtain rfl := heq hmem split' (key_eq'.trans key_eq.symm)
      exact absurd expired live
  | @hits key now e l r split key_eq live =>
    have hmem : e ∈ es := by simp [split]
    cases hlarge with
    | misses absent => exact absurd (hpresent hmem key_eq) absent
    | expires split' key_eq' expired =>
      obtain rfl := heq hmem split' (key_eq'.trans key_eq.symm)
      exact absurd expired live
    | hits split' key_eq' _ =>
      obtain rfl := heq hmem split' (key_eq'.trans key_eq.symm)
      subst split
      subst split'
      refine ⟨(Included.remove hsub hes.nodup hfs.nodup).cons_cons _, ?_⟩
      simp only [List.length_append, List.length_cons] at hlen ⊢
      omega
  | @replaces key value TTL now e l r split key_eq =>
    have hmem : e ∈ es := by simp [split]
    cases hlarge with
    | replaces split' key_eq' =>
      obtain rfl := heq hmem split' (key_eq'.trans key_eq.symm)
      subst split
      subst split'
      refine ⟨(Included.remove hsub hes.nodup hfs.nodup).cons_cons _, ?_⟩
      simp only [List.length_append, List.length_cons] at hlen ⊢
      omega
    | grows absent _ => exact absurd (hpresent hmem key_eq) absent
    | evicts absent _ _ => exact absurd (hpresent hmem key_eq) absent
  | grows absent room =>
    cases hlarge with
    | replaces split key_eq =>
      subst split
      subst key_eq
      refine ⟨(Included.remove_absent hsub hfs.nodup absent).cons_cons _, ?_⟩
      simp only [List.length_append, List.length_cons] at hlen ⊢
      omega
    | grows _ _ =>
      refine ⟨hsub.cons_cons _, ?_⟩
      simp only [List.length_cons]
      omega
    -- There is room in the smaller map, so that the larger is not full.
    | evicts _ _ full => omega
  | evicts absent last full =>
    subst last
    have hfront := (List.sublist_append_left _ _).trans hsub
    have hle := hfs.length_le
    cases hlarge with
    | replaces split key_eq =>
      subst split
      subst key_eq
      refine ⟨((List.sublist_append_left _ _).trans
        (Included.remove_absent hsub hfs.nodup absent)).cons_cons _, ?_⟩
      simp only [List.length_append, List.length_cons, List.length_nil] at hle full ⊢
      omega
    | grows _ room =>
      refine ⟨hfront.cons_cons _, ?_⟩
      simp only [List.length_append, List.length_cons, List.length_nil] at full ⊢
      omega
    | @evicts _ _ _ _ e' l' _ last' full' =>
      subst last'
      refine ⟨List.Sublist.cons_cons _ ?_, ?_⟩
      · simpa using hsub.reverse.tail.reverse
      · simp only [List.length_append, List.length_cons, List.length_nil] at full full' ⊢
        omega

/-- What the smaller map returns, the larger one returns. -/
theorem Included.get_eq (h : Included n m es fs) (hes : Wf n es) (hfs : Wf m fs) {now : ℤ} {v : V}
    (hget : (get key now es).1 = some v) : (get key now fs).1 = some v := by
  by_cases hkey : key ∈ keys es
  · obtain ⟨l, e, r, rfl, rfl⟩ := exists_split hkey
    obtain ⟨l', r', rfl⟩ := List.append_of_mem (h.sublist.subset (List.mem_append_right l List.mem_cons_self))
    rw [get_of_split now hes.nodup rfl] at hget
    rw [get_of_split now hfs.nodup rfl]
    split_ifs at hget ⊢ with hexp
    exact hget
  · rw [get_of_notMem now hkey] at hget
    cases hget

/-- Along every sequence of uses the entries of the smaller map are among those of the larger. -/
theorem included_run (hle : n ≤ m) (hn : 1 ≤ n) (us : List (Use K V)) :
    Included n m (run n us []).2 (run m us []).2 := by
  induction us using List.reverseRecOn with
  | nil => exact ⟨List.Sublist.refl _, by simp [run, hle]⟩
  | append_singleton us u ih =>
    have hes := wf_run hn us
    have hfs := wf_run (hn.trans hle) us
    rw [run_concat, run_concat]
    exact ih.effect hes hfs (effect_next hes hn u) (effect_next hfs (hn.trans hle) u)

/-- Whatever a map returns along a sequence of uses, one with more room returns as well. -/
theorem run_included (hle : n ≤ m) (hn : 1 ≤ n) (us : List (Use K V)) :
    List.Forall₂ (fun r r' => ∀ v, r = some v → r' = some v) (run n us []).1 (run m us []).1 := by
  induction us using List.reverseRecOn with
  | nil => exact .nil
  | append_singleton us u ih =>
    rw [run_append, run_append]
    refine List.rel_append ih ?_
    cases u with
    | put key value TTL now => exact .nil
    | get key now =>
      exact .cons (fun v => (included_run hle hn us).get_eq (wf_run hn us) (wf_run (hn.trans hle) us))
        .nil

end Included

end Lru

end DnsRelayer.Lib
