import Mathlib.Data.List.Nodup
import Mathlib.Data.Int.Notation

/-!
# A map that forgets: least recently used entries and expired ones

The reference behaviour of a bounded cache with times to live. The state is the list of the entries,
the most recently used first. `put` replaces the entry of its key, or makes room for a new one by
dropping the last; `get` drops the entry that it finds expired. Either leaves the entry of its key
in front, unless `get` found none to return.
-/

namespace DnsRelayer.Lib

/-- One entry: a key with its value, the time at which the value was stored, and for how long it may
be returned. -/
structure Entry (K V : Type) where
  key : K
  value : V
  saveTime : ℤ
  TTL : ℤ
  deriving DecidableEq, Repr

/-- An entry has outlived its time to live. -/
def Entry.Expired {K V : Type} (e : Entry K V) (now : ℤ) : Prop := now - e.saveTime > e.TTL

instance {K V : Type} (e : Entry K V) (now : ℤ) : Decidable (e.Expired now) :=
  inferInstanceAs (Decidable (_ < _))

/-- One use of the map, with the reading of the clock that it makes. -/
inductive Use (K V : Type) where
  | put (key : K) (value : V) (TTL now : ℤ)
  | get (key : K) (now : ℤ)

/-- The key of a use. -/
def Use.key {K V : Type} : Use K V → K
  | .put key _ _ _ => key
  | .get key _ => key

namespace Lru

variable {K V : Type} [DecidableEq K]

/-- The keys in order of use. -/
def keys (es : List (Entry K V)) : List K := es.map (·.key)

/-- Store a value: the entry of the key goes in front, in place of an older one of the same key, or
of the last entry when there are already `maxSize`. -/
def put (maxSize : ℕ) (key : K) (value : V) (TTL now : ℤ) (es : List (Entry K V)) :
    List (Entry K V) :=
  if key ∈ keys es then ⟨key, value, now, TTL⟩ :: es.eraseP (·.key = key)
  else if es.length = maxSize then ⟨key, value, now, TTL⟩ :: es.dropLast
  else ⟨key, value, now, TTL⟩ :: es

/-- Look a key up: the value of its entry, which goes in front, unless the entry has expired and is
dropped. -/
def get (key : K) (now : ℤ) (es : List (Entry K V)) : Option V × List (Entry K V) :=
  match es.find? (·.key = key) with
  | none => (none, es)
  | some e =>
    if e.Expired now then (none, es.eraseP (·.key = key))
    else (some e.value, e :: es.eraseP (·.key = key))

/-- A sequence of uses: what the `get`s return, in order, and the entries at the end. -/
def run (maxSize : ℕ) : List (Use K V) → List (Entry K V) → List (Option V) × List (Entry K V)
  | [], es => ([], es)
  | .put key value TTL now :: uses, es => run maxSize uses (put maxSize key value TTL now es)
  | .get key now :: uses, es =>
    let (r, es) := get key now es
    let (rs, es) := run maxSize uses es
    (r :: rs, es)

/-- A sequence of uses is the first of them and then the others. -/
theorem run_cons (maxSize : ℕ) (u : Use K V) (us : List (Use K V)) (es : List (Entry K V)) :
    run maxSize (u :: us) es =
      ((run maxSize [u] es).1 ++ (run maxSize us (run maxSize [u] es).2).1,
        (run maxSize us (run maxSize [u] es).2).2) := by
  cases u <;> rfl

/-- Storing leaves other entries as they are, or drops them. -/
theorem mem_of_mem_put {maxSize : ℕ} {key : K} {value : V} {TTL now : ℤ} {es : List (Entry K V)}
    {e : Entry K V} (h : e ∈ put maxSize key value TTL now es) : e = ⟨key, value, now, TTL⟩ ∨ e ∈ es := by
  rw [put] at h
  split_ifs at h <;> refine (List.mem_cons.mp h).imp_right fun h => ?_
  · exact List.mem_of_mem_eraseP h
  · exact (List.dropLast_sublist es).subset h
  · exact h

/-- Looking up leaves the entries as they are, or drops them, and finds the value of one of the key. -/
theorem get_cases (key : K) (now : ℤ) (es : List (Entry K V)) :
    (∀ e ∈ (get key now es).2, e ∈ es) ∧
      ∀ v, (get key now es).1 = some v → ∃ e ∈ es, e.key = key ∧ e.value = v := by
  rw [get]
  cases hfind : es.find? (·.key = key) with
  | none => exact ⟨fun _ h => h, fun v hv => by cases hv⟩
  | some e =>
    have hmem := List.mem_of_find?_eq_some hfind
    have hkey : e.key = key := by simpa using List.find?_some hfind
    dsimp only
    split_ifs
    · exact ⟨fun _ h => List.mem_of_mem_eraseP h, fun v hv => by cases hv⟩
    · refine ⟨fun a ha => ?_, fun v hv => ⟨e, hmem, hkey, Option.some.inj hv⟩⟩
      rcases List.mem_cons.mp ha with rfl | ha
      · exact hmem
      · exact List.mem_of_mem_eraseP ha

/-! ## The operations at the position of the key's entry -/

variable {key : K} {e : Entry K V} {l r es : List (Entry K V)}

/-- With no two entries of one key, a search by key finds the entry and nothing before it. -/
theorem find?_split (hnd : (keys (l ++ e :: r)).Nodup) (he : e.key = key) :
    (l ++ e :: r).find? (·.key = key) = some e ∧
      (l ++ e :: r).eraseP (·.key = key) = l ++ r := by
  have hl : ∀ a ∈ l, a.key ≠ key := by
    intro a ha hak
    rw [keys, List.map_append, List.nodup_append] at hnd
    exact hnd.2.2 a.key (List.mem_map_of_mem ha) e.key (by simp) (hak.trans he.symm)
  constructor
  · rw [List.find?_append, List.find?_eq_none.mpr (by simpa using hl)]
    simp [he]
  · rw [List.eraseP_append_right _ (by simpa using hl)]
    simp [he]

/-- Storing under a key that an entry has. -/
theorem put_of_split (maxSize : ℕ) (value : V) (TTL now : ℤ)
    (hnd : (keys (l ++ e :: r)).Nodup) (he : e.key = key) :
    put maxSize key value TTL now (l ++ e :: r) = ⟨key, value, now, TTL⟩ :: (l ++ r) := by
  rw [put, if_pos (by simp [keys, he]), (find?_split hnd he).2]

/-- Storing under a key that no entry has, with room for one more. -/
theorem put_of_notMem_of_lt {maxSize : ℕ} (value : V) (TTL now : ℤ) (hk : key ∉ keys es)
    (hlt : es.length < maxSize) : put maxSize key value TTL now es = ⟨key, value, now, TTL⟩ :: es := by
  rw [put, if_neg hk, if_neg (by omega)]

/-- Storing under a key that no entry has, without room. -/
theorem put_of_notMem_of_eq {maxSize : ℕ} (value : V) (TTL now : ℤ)
    (hk : key ∉ keys (es ++ [e])) (heq : (es ++ [e]).length = maxSize) :
    put maxSize key value TTL now (es ++ [e]) = ⟨key, value, now, TTL⟩ :: es := by
  rw [put, if_neg hk, if_pos heq, List.dropLast_concat]

/-- Looking up a key that an entry has. -/
theorem get_of_split (now : ℤ) (hnd : (keys (l ++ e :: r)).Nodup) (he : e.key = key) :
    get key now (l ++ e :: r) =
      if e.Expired now then (none, l ++ r) else (some e.value, e :: (l ++ r)) := by
  rw [get, (find?_split hnd he).1, (find?_split hnd he).2]

/-- Looking up a key that no entry has. -/
theorem get_of_notMem (now : ℤ) (hk : key ∉ keys es) : get key now es = (none, es) := by
  rw [get, List.find?_eq_none.mpr]
  intro a ha
  have : a.key ≠ key := fun h => hk (List.mem_map.mpr ⟨a, ha, h⟩)
  simpa using this

end Lru

end DnsRelayer.Lib
