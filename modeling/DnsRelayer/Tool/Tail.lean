import DnsRelayer.Tool.Listed

/-!
# A file with a damaged tail

The last line of a file may be cut off after its first word. `fscanf` then reads one word of the two,
which is not `EOF`, and the loop of `file_reader_index` takes the position of that word for the
domain that is still in its array: the domain of the line before. So the file answers as if that
domain was listed once more, with the stray word as its address (`file_reader_alloc_tail`). Without
a line before, the array was never written to (`file_reader_alloc_stray`).
-/

namespace DnsRelayer

open Lib

/-- What follows the lines of a damaged file: blanks, a word that a line starts with, and blanks. -/
structure Stray where
  gap : List UInt8
  word : List UInt8
  ending : List UInt8

/-- The text of a stray word. -/
def Stray.text (x : Stray) : List UInt8 := x.gap ++ (x.word ++ x.ending)

/-- The word fits its array, and begins after a blank of the file `fd`. -/
structure Stray.Follows (x : Stray) (fd : List UInt8) : Prop where
  gap : Blank isspace x.gap
  word : Word isspace x.word
  word_lt : x.word.length < IP_SIZE
  ending : Blank isspace x.ending
  /-- The last letter before the word, such as a newline, is blank. -/
  apart : Stops isspace (fd ++ x.gap).reverse

/-- The line that the index takes a stray word and the line before it for. -/
def Line.withAddress (l : Line) (ip : List UInt8) : Line := { l with ip := ip }

/-- Both files can be indexed, and every lookup gives the same in both. -/
def SameAnswers (fd fd' : List UInt8) : Prop :=
  ∃ fr fr', file_reader_alloc fd = .ok fr ∧ file_reader_alloc fd' = .ok fr' ∧
    ∀ size ip domain, IP_SIZE ≤ size →
      file_reader_get_a_record fr' size ip domain = file_reader_get_a_record fr size ip domain

variable {fd : List UInt8} {lines : List Line} {x : Stray} {good : List UInt8 → Prop}

/-- The stray word is read where it stands, and there is no other after it. -/
theorem Stray.Follows.read (h : x.Follows fd) {s : List UInt8}
    (hs : skipBlank isspace s = skipBlank isspace x.text) :
    token isspace s = some (x.word, x.ending) ∧ token isspace x.ending = none := by
  constructor
  · rw [token_congr hs]
    exact token_append h.gap h.word fun c hc => h.ending c (List.mem_of_mem_head? hc)
  · exact token_blank h.ending

/-- The text of lines ends with that of the last line. -/
theorem LinesText.exists_last {body : List UInt8} (h : LinesText body lines) {l : Line}
    (hl : l ∈ lines.getLast?) : ∃ pre, body = pre ++ l.text := by
  induction h with
  | nil => cases hl
  | last wf =>
    obtain rfl := Option.some.inj hl
    exact ⟨[], rfl⟩
  | @cons m text lines wf hne hrest ih =>
    cases lines with
    | nil =>
      cases hrest
      obtain rfl := Option.some.inj hl
      exact ⟨[], List.append_nil _⟩
    | cons m' lines =>
      obtain ⟨pre, rfl⟩ := ih (by simpa [List.getLast?_cons] using hl)
      exact ⟨m.text ++ pre, (List.append_assoc ..).symm⟩

/-- The last line's domain ends before the stray word. -/
theorem Stray.Follows.stops (h : x.Follows fd) (hfile : FileLines fd lines) :
    ∀ l ∈ lines.getLast?, Stops isspace (l.ending ++ x.text) := by
  intro l hl
  obtain ⟨lead, body, hfd, -, hbody⟩ := hfile
  have wf := hbody.wellFormed l (List.mem_of_getLast? hl)
  obtain ⟨pre, hpre⟩ := hbody.exists_last hl
  have hblank : Blank isspace (l.ending ++ x.gap) := by
    intro c hc
    rcases List.mem_append.mp hc with hc | hc
    · exact wf.ending c hc
    · exact h.gap c hc
  -- with no blank in between, the letter before the word is the domain's last
  have hne : l.ending ++ x.gap ≠ [] := by
    intro hnil
    obtain ⟨hending, hgap⟩ := List.append_eq_nil_iff.mp hnil
    obtain ⟨front, c, hc⟩ := List.eq_nil_or_concat'  l.domain |>.resolve_left wf.domain.ne_nil
    have hletter : isspace c = false := wf.domain.letters c (by simp [hc])
    have hspace : isspace c = true := by
      refine h.apart c ?_
      rw [hfd, hpre, Line.text, hending, hgap, hc]
      simp
    rw [hletter] at hspace
    cases hspace
  unfold Stray.text
  rw [← List.append_assoc]
  exact stops_append_of_ne_nil hblank hne

/-- With the lines indexed, the loop of `file_reader_index` comes to the stray word, with the domain
of the last line in its array. -/
theorem indexLoop_tail (hgood : ∀ k, good k → Fits k) (hfile : FileLines fd lines)
    (hkeeps : ∀ l ∈ lines, Keeps good l.domain) (hx : x.Follows fd) :
    (∃ ht s fuel, file_reader_index (fd ++ x.text) =
        indexLoop (fd ++ x.text) (fuel + 2) s (lines.getLast?.map Line.domain) ht ∧
      Indexes good (fd ++ x.text) lines ht ∧ token isspace s = some (x.word, x.ending) ∧
      s <:+ fd ++ x.text) ∨
    (file_reader_index (fd ++ x.text) = .error .divByZero ∧
      Overfull good (fd ++ x.text) lines) := by
  have hstops := hx.stops hfile
  obtain ⟨lead, body, rfl, hlead, hbody⟩ := hfile
  have hs : skipBlank isspace (lead ++ body ++ x.text) = skipBlank isspace (body ++ x.text) := by
    rw [List.append_assoc, skipBlank_append hlead]
  rcases indexLoop_lines hgood hkeeps (.new _) hbody hstops hs (List.suffix_refl _)
    (Nat.lt_succ_self _) none with ⟨ht, s, fuel, hloop, hindexes, hskip, hsuffix, hfuel⟩ | ⟨herr, hover⟩
  · left
    obtain ⟨hread, -⟩ := hx.read hskip
    -- The word is a turn's worth of the fuel, and the end of the file another.
    have hpos := (token_suffix hread).2
    obtain ⟨fuel, rfl⟩ : ∃ n, fuel = n + 2 := ⟨fuel - 2, by omega⟩
    rw [Option.or_none] at hloop
    exact ⟨ht, s, fuel, hloop, by simpa using hindexes, hread, hsuffix⟩
  · exact Or.inr ⟨herr, by simpa using hover⟩

/-- A file with a stray word after its last line is indexed as if the line was there once more with
that address, or divides by zero when the lines are too many. -/
theorem file_reader_alloc_tail (hgood : ∀ k, good k → Fits k) (hfile : FileLines fd lines)
    (hkeeps : ∀ l ∈ lines, Keeps good l.domain) (hx : x.Follows fd) {l : Line}
    (hl : l ∈ lines.getLast?) :
    (∃ fr, file_reader_alloc (fd ++ x.text) = .ok fr ∧ fr.fd = fd ++ x.text ∧
      Indexes good fr.fd (lines ++ [l.withAddress x.word]) fr.item_index) ∨
    (file_reader_alloc (fd ++ x.text) = .error .divByZero ∧
      Overfull good (fd ++ x.text) (lines ++ [l.withAddress x.word])) := by
  have hmem := List.mem_of_getLast? hl
  have wf : l.WellFormed := hfile.wellFormed l hmem
  unfold file_reader_alloc
  rcases indexLoop_tail hgood hfile hkeeps hx with
    ⟨ht, s, fuel, hloop, hindexes, hread, hsuffix⟩ | ⟨herr, pre, m, ht, hpre, hover⟩
  · -- The turn of the stray word inserts its position for the domain of the last line.
    have hturn : file_reader_index (fd ++ x.text) =
        insert ht l.domain ((fd ++ x.text).length - s.length) := by
      have hword : ¬ x.word.length ≥ IP_SIZE := Nat.not_le.mpr hx.word_lt
      rw [hloop, hl, Option.map_some, indexLoop]
      simp only [hread, if_neg hword, token_blank hx.ending, cstr_of_no_nul wf.domain_nul]
      -- after it the file is at its end
      cases insert ht l.domain ((fd ++ x.text).length - s.length) with
      | error e => rfl
      | ok ht' => rfl
    rw [hturn]
    have hcur : ReadsAt (fd ++ x.text) ((fd ++ x.text).length - s.length)
        (l.withAddress x.word).ip := readsAt_of_suffix hsuffix hread
    rcases hindexes.insert hgood (l := l.withAddress x.word) (hkeeps l hmem) hcur with
      ⟨ht', hins, h'⟩ | ⟨hins, hnum, habsent⟩
    · have hins : insert ht l.domain ((fd ++ x.text).length - s.length) = .ok ht' := hins
      rw [hins]
      exact Or.inl ⟨⟨fd ++ x.text, ht'⟩, rfl, rfl, h'⟩
    · have hins : insert ht l.domain ((fd ++ x.text).length - s.length) = .error .divByZero := hins
      rw [hins]
      exact Or.inr ⟨rfl, lines, l.withAddress x.word, ht, List.prefix_rfl, hindexes, hnum, habsent⟩
  · rw [herr]
    exact Or.inr ⟨rfl, pre, m, ht, hpre.trans (List.prefix_append _ _), hover⟩

/-- A file with nothing but a stray word: the index is made with what happens to be in the array. -/
theorem file_reader_alloc_stray (hfile : FileLines fd []) (hx : x.Follows fd) :
    file_reader_alloc (fd ++ x.text) = .error .uninit := by
  unfold file_reader_alloc
  rcases @indexLoop_tail _ _ _ Short (fun _ hk => hk.fits) hfile (by simp) hx with
    ⟨ht, s, fuel, hloop, -, hread, -⟩ | ⟨-, pre, m, -, hpre, -⟩
  · have hword : ¬ x.word.length ≥ IP_SIZE := Nat.not_le.mpr hx.word_lt
    rw [hloop, indexLoop]
    simp only [hread, if_neg hword, token_blank hx.ending, List.getLast?_nil, Option.map_none]
    rfl
  · simp at hpre

/-! ## When a damaged tail changes nothing -/

/-- One more line of a domain that is listed makes no other domain. -/
theorem domains_withAddress {l : Line} (hl : l ∈ lines) (ip : List UInt8) :
    domains (lines ++ [l.withAddress ip]) = domains lines := by
  have hmem : l.domain ∈ lines.map (·.domain) := List.mem_map_of_mem hl
  ext k
  simp only [domains, List.map_append, List.map_singleton, List.mem_toFinset, List.mem_append,
    List.mem_singleton, Line.withAddress]
  constructor
  · rintro (hk | rfl)
    · exact hk
    · exact hmem
  · exact Or.inl

/-- The last line is the one that is listed for its domain. -/
theorem listed_last {l : Line} (hl : l ∈ lines.getLast?) : listed lines l.domain = some l.ip := by
  obtain ⟨pre, rfl⟩ := List.getLast?_eq_some_iff.mp hl
  rw [listed_concat, if_pos rfl]

/-- Once more with the same address, the last line does not change what is listed. -/
theorem listed_withAddress {l : Line} (hl : l ∈ lines.getLast?) (k : List UInt8) :
    listed (lines ++ [l.withAddress l.ip]) k = listed lines k := by
  rw [listed_concat]
  by_cases hk : l.domain = k
  · rw [← hk, listed_last hl]
    exact if_pos rfl
  · exact if_neg hk

/-- With a stray word after its lines, what is looked up right is that the domain of the last line
has the word for its address. -/
theorem looksUp_tail_of_ok (hfile : FileLines fd lines) (hfits : ∀ l ∈ lines, Fits l.domain)
    (hx : x.Follows fd) {l : Line} (hl : l ∈ lines.getLast?) {fr : FileReader}
    (hok : file_reader_alloc (fd ++ x.text) = .ok fr) :
    LooksUp (fd ++ x.text) (lines ++ [l.withAddress x.word]) := by
  have hl' := List.mem_of_getLast? hl
  have hlast : (l.withAddress x.word).WellFormed :=
    { hfile.wellFormed l hl' with ip := hx.word, ip_lt := hx.word_lt }
  have hwf : ∀ m ∈ lines ++ [l.withAddress x.word], m.WellFormed :=
    List.forall_mem_append.mpr ⟨hfile.wellFormed, List.forall_mem_singleton.mpr hlast⟩
  have hfits' : ∀ m ∈ lines ++ [l.withAddress x.word], Fits m.domain :=
    List.forall_mem_append.mpr ⟨hfits, List.forall_mem_singleton.mpr (hfits l hl')⟩
  rcases file_reader_alloc_tail (fun _ hk => hk) hfile (fun m hm => keeps_of_fits (hfits m hm)) hx hl
    with ⟨fr', hok', -, h⟩ | ⟨herr, -⟩
  · exact ⟨fr', hok', fun size ip domain hsize =>
      h.lookup_right hwf size ip domain hsize hfits'⟩
  · rw [herr] at hok
    cases hok

/-- A file with a word that follows its lines answers as the lines do exactly when there is a last
line, it has this word for its address, and the lines list at most `2 ^ 31` domains. -/
theorem tail_same_iff (hfile : FileLines fd lines) (hshort : ∀ l ∈ lines, Short l.domain)
    (hx : x.Follows fd) : SameAnswers fd (fd ++ x.text) ↔
      (∃ l ∈ lines.getLast?, l.ip = x.word) ∧ (domains lines).card ≤ 2 ^ 31 := by
  have hfits : ∀ l ∈ lines, Fits l.domain := fun l hl => (hshort l hl).fits
  constructor
  · rintro ⟨fr, fr', hok, hok', hsame⟩
    have hlooks := looksUp_of_ok hfile hfits hok
    refine ⟨?_, card_domains_of_ok hfile hfits hok⟩
    cases hl : lines.getLast? with
    | none =>
      rw [List.getLast?_eq_none_iff.mp hl] at hfile
      rw [file_reader_alloc_stray hfile hx] at hok'
      cases hok'
    | some l =>
      -- Both files are asked for the domain of the last line.
      obtain ⟨r, hr, hget⟩ := hlooks
      obtain ⟨r', hr', hget'⟩ := looksUp_tail_of_ok hfile hfits hx hl hok'
      obtain rfl := Except.ok.inj (hok.symm.trans hr)
      obtain rfl := Except.ok.inj (hok'.symm.trans hr')
      have hdomain := hsame IP_SIZE [] l.domain le_rfl
      rw [hget IP_SIZE [] l.domain le_rfl, hget' IP_SIZE [] l.domain le_rfl, listed_last hl,
        listed_concat, Line.withAddress, if_pos rfl] at hdomain
      exact ⟨l, rfl, (Option.some.inj (Except.ok.inj hdomain)).symm⟩
  · rintro ⟨⟨l, hl, hip⟩, hcard⟩
    obtain ⟨fr, hok, hget⟩ := looksUp_of_card hfile hfits hcard
    have hl' := List.mem_of_getLast? hl
    -- The stray word makes no other domain, so there is room for it.
    obtain ⟨fr', hok'⟩ : ∃ fr', file_reader_alloc (fd ++ x.text) = .ok fr' := by
      rcases file_reader_alloc_tail (fun _ hk => hk) hfile (fun m hm => keeps_of_fits (hfits m hm)) hx
        hl with ⟨fr', hok', -⟩ | ⟨-, hover⟩
      · exact ⟨fr', hok'⟩
      · have hlt := hover.lt_card
          (List.forall_mem_append.mpr ⟨hfits, List.forall_mem_singleton.mpr (hfits l hl')⟩)
        rw [domains_withAddress hl'] at hlt
        exact absurd hcard (not_le.mpr hlt)
    obtain ⟨r', hr', hget'⟩ := looksUp_tail_of_ok hfile hfits hx hl hok'
    obtain rfl := Except.ok.inj (hok'.symm.trans hr')
    refine ⟨fr, fr', hok, hok', fun size ip domain hsize => ?_⟩
    rw [hget size ip domain hsize, hget' size ip domain hsize, ← hip, listed_withAddress hl]

/-- The file of two lines with the stray word `2.2.2.2`, the address of its last line. -/
theorem tail_same_two : SameAnswers twoLinesText
    (twoLinesText ++ (⟨[], [50, 46, 50, 46, 50, 46, 50], [10]⟩ : Stray).text) :=
  (tail_same_iff twoLines_fileText.split (by decide)
    (show (⟨[], [50, 46, 50, 46, 50, 46, 50], [10]⟩ : Stray).Follows twoLinesText from
      ⟨by decide, by decide, by decide, by decide, by decide⟩)).mpr ⟨⟨_, rfl, rfl⟩, by decide⟩

/-- The file of two lines with the stray word `9`: the address of `b` is `9` then, and is `2.2.2.2`
without it. -/
theorem tail_changes_last :
    FileLines twoLinesText twoLines ∧ (∀ l ∈ twoLines, Short l.domain) ∧
    (⟨[], [57], []⟩ : Stray).Follows twoLinesText ∧
    ¬ SameAnswers twoLinesText (twoLinesText ++ (⟨[], [57], []⟩ : Stray).text) := by
  refine ⟨twoLines_fileText.split, by decide,
    ⟨by decide, by decide, by decide, by decide, by decide⟩, ?_⟩
  rintro ⟨fr, fr', hok, hok', hsame⟩
  have hwithout : (file_reader_alloc twoLinesText >>= fun fr =>
      file_reader_get_a_record fr IP_SIZE [] [98]) = .ok (some [50, 46, 50, 46, 50, 46, 50]) := by
    decide +kernel
  have hwith : (file_reader_alloc (twoLinesText ++ (⟨[], [57], []⟩ : Stray).text) >>= fun fr =>
      file_reader_get_a_record fr IP_SIZE [] [98]) = .ok (some [57]) := by
    decide +kernel
  rw [hok, Run.ok_bind] at hwithout
  rw [hok', Run.ok_bind, hsame IP_SIZE [] [98] le_rfl, hwithout] at hwith
  exact absurd hwith (by decide)

end DnsRelayer
