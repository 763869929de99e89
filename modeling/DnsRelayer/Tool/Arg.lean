import DnsRelayer.Cache.HashRuns
import DnsRelayer.Tool.FileReader
import Mathlib.Data.Int.Init

/-!
# The command line of `src/tool/arg.c`

An argument of the command line is a key and a value with `=` between them, or a key alone, for which the
value is `true`. `NewArg` puts them into a hash table, one after the other, so that the last argument with a
key counts (`newArg_last`). The arrays that an argument is copied to have no room for a terminator when a key
or a value has 50 bytes or more.

The values are read as text (`getStr`), as a number (`getInt`), or compared with a text (`matchArg`), which
looks only at as many bytes as that text has.
-/

namespace DnsRelayer

open Lib

/-- The bytes of a string literal. -/
def lit (s : String) : List UInt8 := s.toUTF8.data.toList

/-- Size of the arrays `key` and `value` of `NewArg`. -/
def ARG_SIZE : ℕ := 50

/-- The struct `Arg` of `src/include/arg.h`: the table of the values. -/
abbrev ArgTab := HashTab (List UInt8)

/-- The delimiter of a key and its value. -/
def delim (c : UInt8) : Bool := c == 61

/-- `strtok` with the delimiter: the next token, and where the next call goes on. -/
def strtok (s : List UInt8) : Option (List UInt8 × List UInt8) :=
  (token delim s).map fun (t, rest) => (t, rest.drop 1)

/-- `strncpy` into one of the arrays of `NewArg`, which is read as a string afterwards. -/
def copyArg (s : List UInt8) : Run (List UInt8) :=
  if ARG_SIZE ≤ s.length then .error .overrun else .ok (strncpy s ARG_SIZE)

/-- The body of the loop of `NewArg`: insert the value of an argument. -/
def setArg (ta : ArgTab) (argv : List UInt8) : Run ArgTab :=
  match strtok argv with
  -- `strncpy` from `NULL`.
  | none => .error .badPointer
  | some (key, rest) => do
    let key ← copyArg key
    let value ← copyArg (match strtok rest with
      | none => lit "true"
      | some (p, _) => p)
    insert ta key value

/-- `NewArg`: the table of a command line, whose first word is the name of the program. -/
def newArg (argv : List (List UInt8)) : Run ArgTab := (argv.drop 1).foldlM setArg newHashTab

/-- `getStr`: the value of a key, if it has one. -/
def getStr (arg : ArgTab) (key : List UInt8) : Run (Option (List UInt8)) := search arg key

/-- `isdigit`. -/
def isdigit (c : UInt8) : Bool := 48 ≤ c && c ≤ 57

/-- The least and the greatest `long`. -/
def LONG_MIN : ℤ := -2 ^ 63
def LONG_MAX : ℤ := 2 ^ 63 - 1

/-- The number that decimal digits write. -/
def decimal (digits : List UInt8) : ℤ := digits.foldl (fun n c => n * 10 + (c.toNat - 48)) 0

/-- `strtol` to the base 10, without where it ends: blanks, a sign, and digits, in the range of `long`. -/
def strtol (s : List UInt8) : ℤ :=
  let n := match skipBlank isspace s with
    | 45 :: s => - decimal (s.takeWhile isdigit)
    | 43 :: s => decimal (s.takeWhile isdigit)
    | s => decimal (s.takeWhile isdigit)
  max LONG_MIN (min n LONG_MAX)

/-- `atoi`: what `strtol` gives, as an `int`. -/
def atoi (s : List UInt8) : ℤ := (strtol s).bmod UINT_MOD

/-- `getInt`: the value of a key as a number, and zero when it has none. -/
def getInt (arg : ArgTab) (key : List UInt8) : Run ℤ := do
  match ← search arg key with
  | none => return 0
  | some p => return atoi p

/-- `matchArg`: the value of a key begins with this one. -/
def matchArg (arg : ArgTab) (key value : List UInt8) : Run Bool := do
  match ← search arg key with
  | none => return false
  | some p => return p.take value.length == value

/-! ## The settings of a command line -/

/-- A key with its value. -/
structure Setting where
  key : List UInt8
  value : List UInt8
  deriving DecidableEq

/-- The setting that an argument says, when it has a key. -/
def setting (s : List UInt8) : Option Setting :=
  (token delim s).map fun (key, rest) => ⟨key, ((token delim rest).map Prod.fst).getD (lit "true")⟩

/-- The key and the value are copied whole. -/
def Setting.Fits (x : Setting) : Prop := x.key.length < ARG_SIZE ∧ x.value.length < ARG_SIZE

instance (x : Setting) : Decidable x.Fits := inferInstanceAs (Decidable (_ ∧ _))

/-- An argument says a setting that fits. -/
def Proper (s : List UInt8) : Prop := ∃ x ∈ setting s, x.Fits

instance (s : List UInt8) : Decidable (Proper s) :=
  match h : setting s with
  | none => isFalse (by simp [Proper, h])
  | some x => decidable_of_iff x.Fits (by simp [Proper, h])

/-- The settings of a command line, behind the name of the program. -/
def settings (argv : List (List UInt8)) : List Setting := (argv.drop 1).filterMap setting

/-- The last value of a key. -/
def lastValue (xs : List Setting) (k : List UInt8) : Option (List UInt8) :=
  (xs.reverse.find? (·.key = k)).map (·.value)

/-- The call that puts a setting into the table. -/
def Setting.call (x : Setting) : TableCall (List UInt8) := .insert x.key x.value

/-- The last value of a key is what the calls leave. -/
theorem lastData_calls (xs : List Setting) (k : List UInt8) :
    lastData (xs.map Setting.call) k = lastValue xs k := by
  induction xs using List.reverseRecOn with
  | nil => rfl
  | append_singleton xs x ih =>
    rw [List.map_append, List.map_singleton, lastData_concat, ih, lastValue, lastValue,
      List.reverse_concat]
    by_cases hk : x.key = k
    · simp [Setting.call, TableCall.hold, hk]
    · simp [Setting.call, TableCall.hold, hk, Ne.symm hk]

/-! ## The loop -/

theorem copyArg_eq (s : List UInt8) :
    copyArg s = if s.length < ARG_SIZE then .ok s else .error .overrun := by
  by_cases hs : s.length < ARG_SIZE
  · rw [copyArg, if_neg (Nat.not_le.mpr hs), if_pos hs, strncpy_of_length_le hs.le]
  · rw [copyArg, if_pos (Nat.not_lt.mp hs), if_neg hs]

/-- What `NewArg` does with an argument, by its setting. -/
theorem setArg_eq (ta : ArgTab) (s : List UInt8) : setArg ta s =
    match setting s with
    | none => .error .badPointer
    | some x => if x.Fits then insert ta x.key x.value else .error .overrun := by
  cases hkey : token delim s with
  | none => simp [setArg, setting, strtok, hkey]
  | some r =>
    obtain ⟨key, rest⟩ := r
    -- `strtok` goes on behind the delimiter that ended the key.
    have hrest : strtok (rest.drop 1) = strtok rest := by
      rw [strtok, strtok, token_drop_one (token_stops hkey)]
    have hvalue : (match strtok rest with
        | none => lit "true"
        | some (p, _) => p) = ((token delim rest).map Prod.fst).getD (lit "true") := by
      cases h : token delim rest <;> simp [strtok, h]
    simp only [setArg, setting, hkey, strtok, Option.map_some]
    rw [← strtok, hrest, hvalue, copyArg_eq, copyArg_eq]
    generalize ((token delim rest).map Prod.fst).getD (lit "true") = value
    by_cases hk : key.length < ARG_SIZE
    · by_cases hv : value.length < ARG_SIZE <;> simp [Setting.Fits, hk, hv]
    · simp [Setting.Fits, hk]

/-- What the table holds when these settings have been put into it. -/
structure Entered (xs : List Setting) (ta : ArgTab) : Prop where
  tracks : ta.Tracks (xs.map Setting.call)
  num_le : ta.num ≤ xs.length
  len_le : ta.len ≤ max INIT_SIZE xs.length

theorem newHashTab_entered : Entered [] newHashTab where
  tracks := HashTab.newHashTab_tracks
  num_le := Nat.le_refl 0
  len_le := by rw [HashTab.newHashTab_len, List.length_nil]; decide

/-- Inserting one more setting, as long as there are fewer than `2 ^ 31`. -/
theorem Entered.insert {xs : List Setting} {ta : ArgTab} (h : Entered xs ta) {x : Setting} (hx : x.Fits)
    (hlt : xs.length + 1 < 2 ^ 31) :
    ∃ ta', insert ta x.key x.value = .ok ta' ∧ Entered (xs ++ [x]) ta' := by
  have hinit : INIT_SIZE = 1024 := rfl
  have hlen := h.len_le
  have hnum := h.num_le
  -- There are too few settings for the number of chains to wrap.
  have hmod : ta.len * 2 % UINT_MOD = ta.len * 2 := by
    apply Nat.mod_eq_of_lt
    unfold UINT_MOD
    omega
  have hafter : 1 ≤ ta.lenAfter (.insert x.key x.value) := by
    have hpos := h.tracks.len_pos
    rw [HashTab.lenAfter, hmod]
    split <;> omega
  obtain ⟨ta', hta', hinserted, htracks⟩ := h.tracks.insert hx.1 hafter
  refine ⟨ta', hta', by rw [List.map_append]; exact htracks, ?_, ?_⟩
  all_goals
    rw [List.length_append, List.length_singleton]
    cases hinserted with
    | overwritten n rest hn before after hnum' hlen' => omega
    | added habs after hnum' hlen' hroom =>
      rw [Nat.mod_eq_of_lt (by unfold UINT_MOD; omega)] at hnum'
      omega

/-- `search` finds the last value of any key. -/
theorem Entered.search {xs : List Setting} {ta : ArgTab} (h : Entered xs ta) (hxs : ∀ x ∈ xs, x.Fits)
    (k : List UInt8) : DnsRelayer.search ta k = .ok (lastValue xs k) := by
  by_cases hk : Short k
  · rw [h.tracks.search hk, lastData_calls]
  -- No setting has a key that long, and no node.
  · have hnone : lastValue xs k = none := by
      rw [lastValue, Option.map_eq_none_iff, List.find?_eq_none]
      intro x hx hxk
      obtain rfl : x.key = k := by simpa using hxk
      exact hk (hxs x (List.mem_reverse.mp hx)).1
    rw [hnone]
    cases hs : DnsRelayer.search ta k with
    | error e => simp [HashTab.search_eq h.tracks.len_pos] at hs
    | ok found =>
      cases found with
      | none => rfl
      | some v =>
        obtain ⟨n, hn, rfl, -⟩ := HashTab.exists_of_search hs
        exact absurd (h.tracks.short n hn) hk

/-- The loop of `NewArg` does not fault when each argument says a setting that fits. -/
theorem setArg_loop {args : List (List UInt8)} (hproper : ∀ s ∈ args, Proper s)
    (hlt : args.length < 2 ^ 31) :
    ∃ ta, args.foldlM setArg newHashTab = .ok ta ∧ Entered (args.filterMap setting) ta := by
  have hmeets : Meets setArg (fun _ s => Proper s) newHashTab args :=
    meets_of_forall fun s hs _ => hproper s hs
  refine exec_history (I := fun args ta => Entered (args.filterMap setting) ta) newHashTab_entered ?_
    hmeets args (List.prefix_refl args)
  rintro us ta s hus hentered ⟨x, hx, hfits⟩
  have hlen := hus.length_le
  have hle := List.length_filterMap_le setting us
  rw [List.length_append, List.length_singleton] at hlen
  obtain ⟨ta', hta', hentered'⟩ := hentered.insert hfits (by omega)
  have hset : setting s = some x := hx
  refine ⟨ta', by simpa [setArg_eq, hset, hfits] using hta', ?_⟩
  rw [List.filterMap_append, List.filterMap_cons_some hset]
  exact hentered'

/-- An argument that says no setting that fits ends the loop with a fault. -/
theorem proper_of_loop {args : List (List UInt8)} {ta ta' : ArgTab}
    (h : args.foldlM setArg ta = .ok ta') : ∀ s ∈ args, Proper s := by
  induction args generalizing ta with
  | nil => simp
  | cons s args ih =>
    obtain ⟨ta₁, hset, hrest⟩ := Run.bind_eq_ok.mp h
    refine List.forall_mem_cons.mpr ⟨?_, ih hrest⟩
    rw [setArg_eq] at hset
    cases hx : setting s with
    | none => simp [hx] at hset
    | some x =>
      refine ⟨x, hx, ?_⟩
      by_contra hfits
      simp [hx, hfits] at hset

/-! ## The table of a command line -/

/-- The number that the last value of a key writes, and zero when it has none. -/
def lastInt (xs : List Setting) (k : List UInt8) : ℤ := ((lastValue xs k).map atoi).getD 0

/-- What the functions that read the table see of a key. -/
structure Sees (xs : List Setting) (ta : ArgTab) (key : List UInt8) : Prop where
  str : getStr ta key = .ok (lastValue xs key)
  int : getInt ta key = .ok (lastInt xs key)
  starts : ∀ value, matchArg ta key value = .ok (decide (∃ p ∈ lastValue xs key, value <+: p))

theorem Entered.sees {xs : List Setting} {ta : ArgTab} (h : Entered xs ta) (hxs : ∀ x ∈ xs, x.Fits)
    (key : List UInt8) : Sees xs ta key := by
  have hsearch := h.search hxs key
  refine ⟨hsearch, ?_, fun value => ?_⟩
  · rw [getInt, hsearch, lastInt]
    cases lastValue xs key <;> rfl
  · rw [matchArg, hsearch]
    cases lastValue xs key with
    | none => simp [pure, Except.pure]
    | some p =>
      have hbeq : (p.take value.length == value) = decide (value = p.take value.length) := by
        rw [beq_eq_decide, decide_eq_decide]
        exact eq_comm
      simp [List.prefix_iff_eq_take, pure, Except.pure, hbeq]

/-- The table of a command line whose arguments are proper. -/
theorem newArg_sees {argv : List (List UInt8)} (hproper : ∀ s ∈ argv.drop 1, Proper s)
    (hargc : argv.length < 2 ^ 31) :
    ∃ ta, newArg argv = .ok ta ∧ ∀ key, Sees (settings argv) ta key := by
  obtain ⟨ta, hta, hentered⟩ := setArg_loop hproper (by rw [List.length_drop]; omega)
  refine ⟨ta, hta, hentered.sees fun x hx => ?_⟩
  obtain ⟨s, hs, hset⟩ := List.mem_filterMap.mp hx
  obtain ⟨y, hy, hfits⟩ := hproper s hs
  obtain rfl := Option.some.inj (hset.symm.trans hy)
  exact hfits

/-- What `atoi` gives is an `int`. -/
theorem lastInt_lt (xs : List Setting) (k : List UInt8) : lastInt xs k < 2 ^ 31 := by
  unfold lastInt
  cases lastValue xs k with
  | none => decide
  | some p => exact Int.bmod_lt (by decide)

/-- **The last setting counts.** `NewArg` reads nothing but the strings that it has written to its arrays, and
no token that is not there, exactly when each argument says a setting whose key and value are shorter than the
arrays. Then, whatever the keys, with however many of them in one chain of the table, the functions that read
the table see the last value of each key: as a text, as a number, and as a text that begins with another. -/
theorem newArg_last (argv : List (List UInt8)) (hargc : argv.length < 2 ^ 31) :
    ((∃ ta, newArg argv = .ok ta) ↔ ∀ s ∈ argv.drop 1, Proper s) ∧
    ∀ ta, newArg argv = .ok ta → ∀ key,
      getStr ta key = .ok (lastValue (settings argv) key) ∧
      getInt ta key = .ok (lastInt (settings argv) key) ∧
      ∀ value, matchArg ta key value =
        .ok (decide (∃ p ∈ lastValue (settings argv) key, value <+: p)) := by
  refine ⟨⟨fun ⟨ta, hta⟩ => proper_of_loop hta, fun hproper =>
    (newArg_sees hproper hargc).imp fun _ h => h.1⟩, fun ta hta key => ?_⟩
  obtain ⟨ta', hta', hsees⟩ := newArg_sees (proper_of_loop hta) hargc
  obtain rfl := Except.ok.inj (hta.symm.trans hta')
  exact ⟨(hsees key).str, (hsees key).int, (hsees key).starts⟩

/-- A key that is given twice, and one that is given without a value. -/
theorem newArg_last_port : ∃ ta,
    newArg [lit "server", lit "port=5353", lit "--help", lit "port=8053"] = .ok ta ∧
      getInt ta (lit "port") = .ok 8053 ∧ matchArg ta (lit "--help") (lit "true") = .ok true := by
  obtain ⟨hreturns, hlast⟩ :=
    newArg_last [lit "server", lit "port=5353", lit "--help", lit "port=8053"] (by decide)
  obtain ⟨ta, hta⟩ := hreturns.mpr (by decide +kernel)
  refine ⟨ta, hta, ?_, ?_⟩
  · rw [(hlast ta hta _).2.1]
    decide +kernel
  · rw [(hlast ta hta _).2.2]
    decide +kernel

end DnsRelayer
