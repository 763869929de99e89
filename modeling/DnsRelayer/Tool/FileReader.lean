import DnsRelayer.Cache.HashSpec
import DnsRelayer.Lib.Tokens

/-!
# The local file of `src/tool/file_reader.c`

The file is read once into an index, which gives the position of the line of each domain. A lookup
finds the position, moves the position of the `FILE` there (`fseek`), and reads the address from
there (`fscanf`). The `FILE` is its text and a position; the text of a `FILE` at a position is a
list of bytes, the text from there on.

`FileText text lines` says that the text is that of well-formed lines. The index of such a file maps
every domain that it keeps whole to the last line that lists it (`file_reader_alloc_cases`).
-/

namespace DnsRelayer

open Lib

/-- `isspace`, in the C locale. -/
def isspace (c : UInt8) : Bool := c == 32 || (9 ≤ c && c ≤ 13)

/-- Size of the array `domain` of `file_reader_index`, in which `%s` puts a terminator as well. -/
def DOMAIN_SIZE : ℕ := 512

/-- Size of the array `ip` of `file_reader_index`. -/
def IP_SIZE : ℕ := 16

/-- The struct `file_reader`: the text of its `FILE` and the index. -/
structure FileReader where
  fd : List UInt8
  item_index : HashTab ℕ

/-- The loop of `file_reader_index`, at the text `rest`. The array `domain` keeps what was read into
it before. Every turn reads a byte, so the number of bytes bounds the number of turns. -/
def indexLoop (fd : List UInt8) :
    ℕ → List UInt8 → Option (List UInt8) → HashTab ℕ → Run (HashTab ℕ)
  | 0, _, _, _ => .error .diverges
  | fuel + 1, rest, domain, ht =>
    let cur := fd.length - rest.length
    match token isspace rest with
    | none => .ok ht
    | some (ip, rest) =>
      if ip.length ≥ IP_SIZE then .error .overrun
      else
        match token isspace rest, domain with
        -- `fscanf` read one of the two words, which is not `EOF`.
        | none, none => .error .uninit
        | none, some d => do
          let ht ← insert ht (cstr d) cur
          indexLoop fd fuel [] (some d) ht
        | some (d, rest), _ =>
          if d.length ≥ DOMAIN_SIZE then .error .overrun
          else do
            let ht ← insert ht (cstr d) cur
            indexLoop fd fuel (skipBlank isspace rest) (some d) ht

/-- `file_reader_index`: the index of a file. -/
def file_reader_index (fd : List UInt8) : Run (HashTab ℕ) :=
  indexLoop fd (fd.length + 1) fd none newHashTab

/-- `file_reader_alloc`, of a file that can be opened. -/
def file_reader_alloc (fd : List UInt8) : Run FileReader := do
  let item_index ← file_reader_index fd
  return ⟨fd, item_index⟩

/-- The first part of `file_reader_get_a_record`: where the line of a domain is, if the index has
it. -/
def file_reader_find (fr : FileReader) (domain : List UInt8) : Run (Option ℕ) :=
  search fr.item_index domain

/-- The last part of `file_reader_get_a_record`: what `fscanf` reads at a position of the `FILE`,
and the position after it. At the end of the file there is nothing to read. The caller's array for
the address has `size` bytes. -/
def file_reader_scan (fr : FileReader) (size pos : ℕ) : Run (Option (List UInt8) × ℕ) :=
  match token isspace (fr.fd.drop pos) with
  | none => .ok (none, fr.fd.length)
  | some (ip, rest) =>
    if ip.length ≥ size then .error .overrun else .ok (some ip, fr.fd.length - rest.length)

/-- `file_reader_get_a_record`, when nothing else uses the `FILE` meanwhile. The caller's array `ip` has
`size` bytes, and keeps what it holds when there is nothing to read. -/
def file_reader_get_a_record (fr : FileReader) (size : ℕ) (ip domain : List UInt8) :
    Run (Option (List UInt8)) := do
  match ← file_reader_find fr domain with
  | none => return none
  | some cur =>
    let (read, _) ← file_reader_scan fr size cur
    return some (read.getD ip)

/-! ## Well-formed files -/

/-- A line: an address, blanks, a domain, and the blanks after it. -/
structure Line where
  ip : List UInt8
  gap : List UInt8
  domain : List UInt8
  ending : List UInt8

/-- The text of a line. -/
def Line.text (l : Line) : List UInt8 := l.ip ++ (l.gap ++ (l.domain ++ l.ending))

/-- The address and the domain are words that fit their arrays, with blanks between them. -/
structure Line.WellFormed (l : Line) : Prop where
  ip : Word isspace l.ip
  ip_lt : l.ip.length < IP_SIZE
  gap : Blank isspace l.gap
  gap_ne_nil : l.gap ≠ []
  domain : Word isspace l.domain
  domain_lt : l.domain.length < DOMAIN_SIZE
  domain_nul : 0 ∉ l.domain
  ending : Blank isspace l.ending

instance (l : Line) : Decidable l.WellFormed :=
  decidable_of_iff (Word isspace l.ip ∧ l.ip.length < IP_SIZE ∧ Blank isspace l.gap ∧ l.gap ≠ [] ∧
      Word isspace l.domain ∧ l.domain.length < DOMAIN_SIZE ∧ 0 ∉ l.domain ∧
      Blank isspace l.ending)
    ⟨fun ⟨a, b, c, d, e, f, g, h⟩ => ⟨a, b, c, d, e, f, g, h⟩,
      fun ⟨a, b, c, d, e, f, g, h⟩ => ⟨a, b, c, d, e, f, g, h⟩⟩

/-- The text of lines, where blanks separate each from the next. -/
inductive LinesText : List UInt8 → List Line → Prop
  | nil : LinesText [] []
  | last {l : Line} (wf : l.WellFormed) : LinesText l.text [l]
  | cons {l : Line} {text : List UInt8} {lines : List Line} (wf : l.WellFormed)
      (ending_ne_nil : l.ending ≠ []) (rest : LinesText text lines) :
      LinesText (l.text ++ text) (l :: lines)

/-- A file of lines: blanks, and the text of the lines. -/
def FileLines (text : List UInt8) (lines : List Line) : Prop :=
  ∃ lead body, text = lead ++ body ∧ Blank isspace lead ∧ LinesText body lines

/-- The reader of a file without lines. -/
def emptyReader : FileReader := ⟨[], newHashTab⟩

/-- A file of well-formed lines, which are counted in an `unsigned int`, whose double must not
overflow. -/
structure FileText (text : List UInt8) (lines : List Line) : Prop where
  split : FileLines text lines
  lines_lt : lines.length < 2 ^ 31

/-- The address that a file lists for a domain: that of the last line with the domain. -/
def listed (lines : List Line) (domain : List UInt8) : Option (List UInt8) :=
  (lines.reverse.find? (·.domain = domain)).map (·.ip)

/-- The first word from a position of the file is the address. -/
def ReadsAt (fd : List UInt8) (pos : ℕ) (ip : List UInt8) : Prop :=
  ∃ rest, token isspace (fd.drop pos) = some (ip, rest)

/-- A further line of a domain takes the place of the earlier ones. -/
theorem listed_concat (lines : List Line) (l : Line) (k : List UInt8) :
    listed (lines ++ [l]) k = if l.domain = k then some l.ip else listed lines k := by
  unfold listed
  rw [List.reverse_append, List.reverse_singleton, List.singleton_append, List.find?_cons]
  by_cases h : l.domain = k <;> simp [h]

/-- An address that is listed is that of a line. -/
theorem exists_of_listed {lines : List Line} {k ip : List UInt8} (h : listed lines k = some ip) :
    ∃ l ∈ lines, l.domain = k ∧ l.ip = ip := by
  obtain ⟨l, hl, hip⟩ := Option.map_eq_some_iff.mp h
  exact ⟨l, List.mem_reverse.mp (List.mem_of_find?_eq_some hl),
    by simpa using List.find?_some hl, hip⟩

namespace LinesText

variable {text : List UInt8} {l : Line} {lines : List Line}

/-- The lines are well formed. -/
theorem wellFormed (h : LinesText text lines) : ∀ l ∈ lines, l.WellFormed := by
  induction h with
  | nil => simp
  | last wf => simpa using wf
  | cons wf _ _ ih =>
    intro l hl
    rcases List.mem_cons.mp hl with rfl | hl
    · exact wf
    · exact ih l hl

/-- The two words of the first line, with the blanks before it and what follows the lines, and the
text of the other lines. -/
theorem read (h : LinesText text (l :: lines)) {after : List UInt8}
    (hafter : ∀ m ∈ (l :: lines).getLast?, Stops isspace (m.ending ++ after)) :
    ∃ rest₁ rest₂ rest, token isspace (text ++ after) = some (l.ip, rest₁) ∧
      token isspace rest₁ = some (l.domain, rest₂) ∧
      skipBlank isspace rest₂ = skipBlank isspace (rest ++ after) ∧ LinesText rest lines := by
  -- The text is the line and the text of the other lines, which the line's last word stops before.
  obtain ⟨wf, rest, hrest, rfl, hstops⟩ : l.WellFormed ∧ ∃ rest, LinesText rest lines ∧
      text = l.text ++ rest ∧ Stops isspace (l.ending ++ (rest ++ after)) := by
    cases h with
    | last wf => exact ⟨wf, [], .nil, (List.append_nil _).symm, hafter l rfl⟩
    | cons wf hne hrest => exact ⟨wf, _, hrest, rfl, stops_append_of_ne_nil wf.ending hne⟩
  refine ⟨l.gap ++ (l.domain ++ (l.ending ++ (rest ++ after))), l.ending ++ (rest ++ after), rest,
    ?_, token_append wf.gap wf.domain hstops, skipBlank_append wf.ending, hrest⟩
  have hip : token isspace ([] ++ (l.ip ++ (l.gap ++ (l.domain ++ (l.ending ++ (rest ++ after)))))) =
      some (l.ip, l.gap ++ (l.domain ++ (l.ending ++ (rest ++ after)))) :=
    token_append (by simp [Blank]) wf.ip (stops_append_of_ne_nil wf.gap wf.gap_ne_nil)
  simpa [Line.text] using hip

end LinesText

/-- The lines of a file are well formed. -/
theorem FileLines.wellFormed {text : List UInt8} {lines : List Line} (h : FileLines text lines) :
    ∀ l ∈ lines, l.WellFormed := by
  obtain ⟨lead, body, -, -, hbody⟩ := h
  exact hbody.wellFormed

/-! ## The index -/

/-- A table is the index of lines: it finds a domain that it keeps whole at a position from where the
address listed for it is read, and it keeps no longer names. It has `INIT_SIZE` chains, or twice as
many and so on when there are as many nodes. -/
structure Indexes (good : List UInt8 → Prop) (fd : List UInt8) (lines : List Line)
    (ht : HashTab ℕ) : Prop where
  num_eq : ht.num = ht.entries.length
  num_le : ht.num ≤ lines.length
  num_le_max : ht.num ≤ 2 ^ 31
  grown : ∃ j, ht.len = INIT_SIZE * 2 ^ j ∧ (j = 0 ∨ ht.len ≤ ht.num)
  load : ht.num < ht.len * 2
  indexed : ht.Indexed good
  names : ∀ n ∈ ht.entries, n.name.length ≤ HASH_KEY_MAX_LEN
  found : ∀ k, good k → ht.lookup k = none ∧ listed lines k = none ∨
    ∃ cur ip, ht.lookup k = some cur ∧ ReadsAt fd cur ip ∧ listed lines k = some ip

namespace Indexes

variable {good : List UInt8 → Prop} {fd : List UInt8} {lines : List Line} {ht : HashTab ℕ}

/-- A new table is the index of no lines. -/
theorem new (fd : List UInt8) : Indexes good fd [] newHashTab := by
  refine ⟨?_, le_rfl, Nat.zero_le _, ⟨0, by simp [HashTab.newHashTab_len], Or.inl rfl⟩, ?_,
    HashTab.newHashTab_indexed, ?_, ?_⟩
  · rw [HashTab.newHashTab_entries]
    rfl
  · rw [HashTab.newHashTab_len]
    decide
  · rw [HashTab.newHashTab_entries]
    simp
  · intro k _
    refine Or.inl ⟨?_, rfl⟩
    rw [HashTab.lookup, HashTab.newHashTab_entries]
    rfl

theorem len_pos (h : Indexes good fd lines ht) : 0 < ht.len := by
  have := h.load
  omega

theorem len_le (h : Indexes good fd lines ht) : ht.len ≤ 2 ^ 31 := by
  obtain ⟨j, hlen, rfl | hle⟩ := h.grown
  · rw [hlen]
    decide
  · exact hle.trans h.num_le_max

/-- A table that cannot grow any more is full. -/
theorem num_of_len_eq (h : Indexes good fd lines ht) (hlen : ht.len = 2 ^ 31) :
    ht.num = 2 ^ 31 := by
  obtain ⟨j, hlen', rfl | hle⟩ := h.grown
  · rw [hlen'] at hlen
    exact absurd hlen (by decide)
  · exact Nat.le_antisymm h.num_le_max (hlen ▸ hle)

/-- A table that can grow has room for a node. -/
theorem num_lt (h : Indexes good fd lines ht) (hlt : ht.len < 2 ^ 31) : ht.num < 2 ^ 31 := by
  obtain ⟨j, hlen, -⟩ := h.grown
  have hload := h.load
  rw [hlen, INIT_SIZE] at hlt hload
  have hj : j < 21 := by
    by_contra hge
    have := Nat.pow_le_pow_right (show 0 < 2 by omega) (not_lt.mp hge)
    omega
  have := Nat.pow_le_pow_right (show 0 < 2 by omega) (Nat.le_of_lt_succ hj)
  omega

/-- Inserting the position of a further line indexes it as well, or divides by zero when the table
is full and does not have the domain. -/
theorem insert (h : Indexes good fd lines ht) (hgood : ∀ k, good k → Fits k) {l : Line}
    (hkeeps : Keeps good l.domain) {cur : ℕ} (hcur : ReadsAt fd cur l.ip) :
    (∃ ht', insert ht l.domain cur = .ok ht' ∧ Indexes good fd (lines ++ [l]) ht') ∨
    (insert ht l.domain cur = .error .divByZero ∧ ht.num = 2 ^ 31 ∧
      ∀ n ∈ ht.chain l.domain, n.name ≠ l.domain) := by
  rcases ht.insert_cases h.len_pos h.len_le l.domain cur with
    ⟨ht', hok, hpos, hplaced, hins⟩ | ⟨hlen, herr, habsent⟩
  swap
  · exact Or.inr ⟨herr, h.num_of_len_eq hlen, habsent⟩
  have hindexed := hins.indexed hkeeps h.indexed h.len_pos (hplaced good hkeeps h.indexed.placed)
  have hlookup : ∀ k, good k → ht'.lookup k = if k = l.domain then some cur else ht.lookup k :=
    fun k hk => hins.lookup hkeeps h.indexed hindexed hk (hgood k hk)
  -- The line is the last one for its domain; other domains are as before.
  have hfound : ∀ k, good k → ht'.lookup k = none ∧ listed (lines ++ [l]) k = none ∨
      ∃ cur ip, ht'.lookup k = some cur ∧ ReadsAt fd cur ip ∧
        listed (lines ++ [l]) k = some ip := by
    intro k hk
    rw [hlookup k hk, listed_concat]
    by_cases hkl : k = l.domain
    · rw [if_pos hkl, if_pos hkl.symm]
      exact Or.inr ⟨cur, l.ip, rfl, hcur, rfl⟩
    · rw [if_neg hkl, if_neg fun e => hkl e.symm]
      exact h.found k hk
  have hnum_le := h.num_le
  cases hins with
  | overwritten n rest name_eq before after num_eq len_eq =>
    have hlength : ht'.entries.length = ht.entries.length := by
      rw [after.length_eq, before.length_eq, List.length_cons, List.length_cons]
    refine Or.inl ⟨ht', hok, by rw [num_eq, hlength, h.num_eq], ?_, num_eq ▸ h.num_le_max, ?_, ?_,
      hindexed, ?_, hfound⟩
    · rw [num_eq, List.length_append]
      omega
    · rw [num_eq, len_eq]
      exact h.grown
    · rw [num_eq, len_eq]
      exact h.load
    · intro m hm
      rcases List.mem_cons.mp (after.mem_iff.mp hm) with rfl | hm
      · rw [← name_eq]
        exact h.names n (before.mem_iff.mpr List.mem_cons_self)
      · exact h.names m (before.mem_iff.mpr (List.mem_cons_of_mem _ hm))
  | added absent after num_eq len_le room =>
    have hnum_lt := h.num_lt room
    rw [Nat.mod_eq_of_lt (by simp only [UINT_MOD]; omega)] at num_eq
    refine Or.inl ⟨ht', hok, ?_, ?_, by omega, ?_, ?_, hindexed, ?_, hfound⟩
    · rw [num_eq, after.length_eq, List.length_cons, h.num_eq]
    · rw [num_eq, List.length_append, List.length_singleton]
      omega
    · obtain ⟨j, hlen, hj⟩ := h.grown
      rcases len_le with ⟨heq, -⟩ | ⟨heq, hle⟩
      · exact ⟨j, heq.trans hlen, hj.imp_right fun hle => by omega⟩
      · exact ⟨j + 1, by rw [heq, hlen, Nat.pow_succ, Nat.mul_assoc], Or.inr (heq ▸ hle)⟩
    · have := h.load
      rcases len_le with ⟨heq, hlt⟩ | ⟨heq, -⟩ <;> omega
    · intro n hn
      rcases List.mem_cons.mp (after.mem_iff.mp hn) with rfl | hn
      · rw [newNode, strncpy, List.length_take]
        exact Nat.min_le_left _ _
      · exact h.names n hn

/-- What `search` finds in the index, under a name that is of the kind when it fits, is a position from
where the address listed for the name is read. -/
theorem search (h : Indexes good fd lines ht) {k : List UInt8} {cur : ℕ}
    (hk : Fits k → good k) (hs : search ht k = .ok (some cur)) :
    ∃ ip, ReadsAt fd cur ip ∧ listed lines k = some ip := by
  -- No node has a longer name.
  obtain ⟨n, hn, rfl, -⟩ := HashTab.exists_of_search hs
  have hgood : good n.name := hk (h.names n hn)
  rw [HashTab.search_of_placed h.len_pos h.indexed.placed hgood] at hs
  rcases h.found n.name hgood with ⟨hnone, -⟩ | ⟨cur', ip, hsome, hreads, hip⟩
  · rw [hnone] at hs
    cases hs
  · rw [hsome] at hs
    cases hs
    exact ⟨ip, hreads, hip⟩

end Indexes

/-- Among the lines there is one whose domain is not in the index of those before it, which is
full. -/
def Overfull (good : List UInt8 → Prop) (fd : List UInt8) (lines : List Line) : Prop :=
  ∃ pre l ht, pre ++ [l] <+: lines ∧ Indexes good fd pre ht ∧ ht.num = 2 ^ 31 ∧
    ∀ n ∈ ht.chain l.domain, n.name ≠ l.domain

/-- From the position of the end of a file that the first word of is read at. -/
theorem readsAt_of_suffix {fd s w rest : List UInt8} (hs : s <:+ fd)
    (hread : token isspace s = some (w, rest)) : ReadsAt fd (fd.length - s.length) w := by
  refine ⟨rest, ?_⟩
  rw [← List.suffix_iff_eq_drop.mp hs, hread]

/-- The loop of `file_reader_index` indexes the lines that are left and goes on with what follows
them, or divides by zero when they are too many. -/
theorem indexLoop_lines {good : List UInt8 → Prop} (hgood : ∀ k, good k → Fits k)
    {fd body after : List UInt8} {lines done : List Line}
    (hkeeps : ∀ l ∈ lines, Keeps good l.domain)
    {ht : HashTab ℕ} (h : Indexes good fd done ht) (htext : LinesText body lines)
    (hafter : ∀ l ∈ lines.getLast?, Stops isspace (l.ending ++ after))
    {s : List UInt8} (hs : skipBlank isspace s = skipBlank isspace (body ++ after))
    (hsuffix : s <:+ fd) {fuel : ℕ} (hfuel : s.length < fuel) (domain : Option (List UInt8)) :
    (∃ ht' s' fuel', indexLoop fd fuel s domain ht =
        indexLoop fd fuel' s' ((lines.getLast?.map Line.domain).or domain) ht' ∧
      Indexes good fd (done ++ lines) ht' ∧ skipBlank isspace s' = skipBlank isspace after ∧
      s' <:+ fd ∧ s'.length < fuel') ∨
    (indexLoop fd fuel s domain ht = .error .divByZero ∧ Overfull good fd (done ++ lines)) := by
  induction lines generalizing body done ht s fuel domain with
  | nil =>
    cases htext
    exact Or.inl ⟨ht, s, fuel, rfl, by simpa using h, hs, hsuffix, hfuel⟩
  | cons l lines ih =>
    obtain ⟨rest₁, rest₂, rest, hread₁, hread₂, hskip, hrest⟩ := htext.read hafter
    rw [← token_congr hs] at hread₁
    have wf := htext.wellFormed l (by simp)
    obtain ⟨fuel, rfl⟩ : ∃ n, fuel = n + 1 := ⟨fuel - 1, by omega⟩
    -- One turn of the loop inserts the line's domain, at the position where its text starts.
    have hturn : indexLoop fd (fuel + 1) s domain ht =
        insert ht l.domain (fd.length - s.length) >>=
          fun ht => indexLoop fd fuel (skipBlank isspace rest₂) (some l.domain) ht := by
      have hip : ¬ l.ip.length ≥ IP_SIZE := Nat.not_le.mpr wf.ip_lt
      have hdomain : ¬ l.domain.length ≥ DOMAIN_SIZE := Nat.not_le.mpr wf.domain_lt
      rw [indexLoop]
      simp only [hread₁, if_neg hip, hread₂, if_neg hdomain, cstr_of_no_nul wf.domain_nul]
    have happ : done ++ l :: lines = done ++ [l] ++ lines := by simp
    rw [hturn, happ]
    rcases h.insert hgood (hkeeps l (by simp)) (readsAt_of_suffix hsuffix hread₁) with
      ⟨ht₁, hins, h₁⟩ | ⟨hins, hnum, habsent⟩
    · -- What is left is the end of the text, and there is less of it.
      obtain ⟨hsuffix₁, hlt₁⟩ := token_suffix hread₁
      obtain ⟨hsuffix₂, hlt₂⟩ := token_suffix hread₂
      have hsuffix₃ := @skipBlank_suffix UInt8 isspace rest₂
      have hlt : (skipBlank isspace rest₂).length < fuel := by
        have := hsuffix₃.length_le
        omega
      have hlast : ((l :: lines).getLast?.map Line.domain).or domain =
          (lines.getLast?.map Line.domain).or (some l.domain) := by
        cases lines with
        | nil => rfl
        | cons m lines => simp [List.getLast?_cons]
      have hafter' : ∀ m ∈ lines.getLast?, Stops isspace (m.ending ++ after) := by
        intro m hm
        refine hafter m ?_
        rw [List.getLast?_cons, hm]
        rfl
      rw [hins, Run.ok_bind, hlast]
      exact ih (fun m hm => hkeeps m (List.mem_cons_of_mem _ hm)) h₁ hrest hafter'
        (by rw [skipBlank_skipBlank, hskip]) (hsuffix₃.trans (hsuffix₂.trans (hsuffix₁.trans hsuffix)))
        hlt (some l.domain)
    · right
      rw [hins, Run.error_bind]
      exact ⟨rfl, done, l, ht, List.prefix_append _ _, h, hnum, habsent⟩

/-- The index of a file of lines. -/
theorem file_reader_alloc_cases {good : List UInt8 → Prop} (hgood : ∀ k, good k → Fits k)
    {fd : List UInt8} {lines : List Line} (hfile : FileLines fd lines)
    (hkeeps : ∀ l ∈ lines, Keeps good l.domain) :
    (∃ fr, file_reader_alloc fd = .ok fr ∧ fr.fd = fd ∧ Indexes good fd lines fr.item_index) ∨
    (file_reader_alloc fd = .error .divByZero ∧ Overfull good fd lines) := by
  obtain ⟨lead, body, rfl, hlead, hbody⟩ := hfile
  have hstops : ∀ l ∈ lines.getLast?, Stops isspace (l.ending ++ []) := by
    intro l hl c hc
    rw [List.append_nil] at hc
    exact (hbody.wellFormed l (List.mem_of_getLast? hl)).ending c (List.mem_of_mem_head? hc)
  rcases indexLoop_lines hgood hkeeps (.new (lead ++ body)) hbody hstops
    (s := lead ++ body) (by rw [List.append_nil, skipBlank_append hlead]) (List.suffix_refl _)
    (Nat.lt_succ_self _) none with ⟨ht, s', fuel', hloop, hindexes, hs', -, hfuel'⟩ | ⟨herr, hover⟩
  · refine Or.inl ⟨⟨lead ++ body, ht⟩, ?_, rfl, by simpa using hindexes⟩
    -- Nothing follows the lines.
    obtain ⟨fuel', rfl⟩ := Nat.exists_eq_add_of_lt hfuel'
    have hnone : token isspace s' = none := by
      rw [token_congr hs']
      rfl
    rw [file_reader_alloc, file_reader_index, hloop, indexLoop, hnone]
    rfl
  · refine Or.inr ⟨?_, by simpa using hover⟩
    simp only [file_reader_alloc, file_reader_index, herr, Run.error_bind]

/-- The index of a file of well-formed lines. -/
theorem file_reader_alloc_spec {fd : List UInt8} {lines : List Line} (h : FileText fd lines) :
    ∃ fr, file_reader_alloc fd = .ok fr ∧ fr.fd = fd ∧ Indexes Short fd lines fr.item_index := by
  refine (file_reader_alloc_cases (fun _ hk => hk.fits) h.split
    fun l _ => keeps_short l.domain).resolve_right ?_
  rintro ⟨-, pre, l, ht, hpre, hindexes, hnum, -⟩
  have hlen := hpre.length_le
  have hle := hindexes.num_le
  have hlt := h.lines_lt
  rw [List.length_append, List.length_singleton] at hlen
  omega

/-- From a position where an address of a well-formed line starts, `fscanf` reads that address. -/
theorem file_reader_scan_spec {fr : FileReader} {pos size : ℕ} {ip : List UInt8}
    (h : ReadsAt fr.fd pos ip) (hlt : ip.length < size) :
    ∃ pos', file_reader_scan fr size pos = .ok (some ip, pos') := by
  obtain ⟨rest, hrest⟩ := h
  refine ⟨fr.fd.length - rest.length, ?_⟩
  rw [file_reader_scan, hrest]
  simp only [ge_iff_le, if_neg (Nat.not_le.mpr hlt)]

end DnsRelayer
