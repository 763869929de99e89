import DnsRelayer.Tool.Lookups
import Mathlib.Data.Finset.Card
import Mathlib.Data.Finset.Dedup

/-!
# Which files are looked up right

A lookup by itself returns the address listed for its domain, and `NULL` for a domain that is not
listed, exactly when the index keeps every domain of the file whole and has room for all of them
(`looksUp_iff`). When it keeps all of them whole, it has a node for each (`Indexes.num_eq_card`).
A longer domain is in the file, and is not found (`long_not_found`).
-/

namespace DnsRelayer

open Lib

/-- The domains that lines list. -/
def domains (lines : List Line) : Finset (List UInt8) := (lines.map (·.domain)).toFinset

/-- The file can be indexed, and every lookup returns what is listed. -/
def LooksUp (fd : List UInt8) (lines : List Line) : Prop :=
  ∃ fr, file_reader_alloc fd = .ok fr ∧ ∀ size ip domain, IP_SIZE ≤ size →
    file_reader_get_a_record fr size ip domain = .ok (listed lines domain)

variable {fd : List UInt8} {lines : List Line} {ht : HashTab ℕ} {fr : FileReader}

/-- An address is listed for the domains of the lines. -/
theorem listed_isSome_iff {k : List UInt8} : (listed lines k).isSome ↔ k ∈ domains lines := by
  simp [listed, domains, List.find?_isSome]

/-- The domains that the index has are those of the lines. -/
theorem Indexes.names_eq (h : Indexes Fits fd lines ht) (hfits : ∀ l ∈ lines, Fits l.domain) :
    (ht.entries.map (·.name)).toFinset = domains lines := by
  ext k
  rw [← listed_isSome_iff, List.mem_toFinset, List.mem_map]
  -- A name of a node and a domain of a line fit.
  have hlookup : (∃ n ∈ ht.entries, n.name = k) ↔ (ht.lookup k).isSome := by
    simp [HashTab.lookup, List.find?_isSome]
  rw [hlookup]
  by_cases hk : Fits k
  · rcases h.found k hk with ⟨hnone, hlisted⟩ | ⟨cur, ip, hsome, -, hlisted⟩
    · simp [hnone, hlisted]
    · simp [hsome, hlisted]
  · have hnone : ¬ (ht.lookup k).isSome := by
      rw [← hlookup]
      rintro ⟨n, hn, rfl⟩
      exact hk (h.names n hn)
    have hnot : ¬ (listed lines k).isSome := by
      intro hsome
      obtain ⟨ip, hip⟩ := Option.isSome_iff_exists.mp hsome
      obtain ⟨l, hl, rfl, -⟩ := exists_of_listed hip
      exact hk (hfits l hl)
    exact iff_of_false hnone hnot

/-- The index has one node for each domain. -/
theorem Indexes.num_eq_card (h : Indexes Fits fd lines ht) (hfits : ∀ l ∈ lines, Fits l.domain) :
    ht.num = (domains lines).card := by
  have hnodup : (ht.entries.map (·.name)).Nodup := by
    rw [List.nodup_iff_count_le_one]
    intro k
    by_cases hk : Fits k
    · have := h.indexed.unique k hk
      rw [← List.countP_eq_length_filter] at this
      rw [List.count, List.countP_map]
      refine le_trans (le_of_eq (List.countP_congr ?_)) this
      intro n _
      simp
    · rw [List.count_eq_zero.mpr]
      · exact Nat.zero_le _
      · intro hmem
        obtain ⟨n, hn, rfl⟩ := List.mem_map.mp hmem
        exact hk (h.names n hn)
  rw [← h.names_eq hfits, List.toFinset_card_of_nodup hnodup, List.length_map, h.num_eq]

/-- A file whose domains fit has more of them than the index can have, when it is too long. -/
theorem Overfull.lt_card (h : Overfull Fits fd lines) (hfits : ∀ l ∈ lines, Fits l.domain) :
    2 ^ 31 < (domains lines).card := by
  obtain ⟨pre, l, ht, hpre, hindexes, hnum, habsent⟩ := h
  have hsub : ∀ m ∈ pre ++ [l], m ∈ lines := fun m hm => hpre.subset hm
  have hfits' : ∀ m ∈ pre, Fits m.domain := fun m hm => hfits m (hsub m (by simp [hm]))
  have hl : Fits l.domain := hfits l (hsub l (by simp))
  -- The domain of the line is none of those before it.
  have hnew : l.domain ∉ domains pre := by
    rw [← hindexes.names_eq hfits', List.mem_toFinset, List.mem_map]
    rintro ⟨n, hn, hname⟩
    exact HashTab.lookup_eq_none_of_chain hindexes.len_pos hindexes.indexed.placed hl habsent n hn
      hname
  have hsubset : Insert.insert l.domain (domains pre) ⊆ domains lines := by
    intro k hk
    rw [domains, List.mem_toFinset, List.mem_map]
    rcases Finset.mem_insert.mp hk with rfl | hk
    · exact ⟨l, hsub l (by simp), rfl⟩
    · rw [domains, List.mem_toFinset, List.mem_map] at hk
      obtain ⟨m, hm, rfl⟩ := hk
      exact ⟨m, hsub m (by simp [hm]), rfl⟩
  have hcard := Finset.card_le_card hsubset
  rw [Finset.card_insert_of_notMem hnew, ← hindexes.num_eq_card hfits', hnum] at hcard
  omega

/-- A lookup in an index that keeps its domains whole returns what is listed. -/
theorem Indexes.lookup_right (h : Indexes Fits fr.fd lines fr.item_index)
    (hwf : ∀ l ∈ lines, l.WellFormed) (size : ℕ) (ip domain : List UInt8) (hsize : IP_SIZE ≤ size)
    (hfits : ∀ l ∈ lines, Fits l.domain) :
    file_reader_get_a_record fr size ip domain = .ok (listed lines domain) := by
  have hsearch := HashTab.search_eq h.len_pos domain
  cases hr : ((fr.item_index.chain domain).find? (·.name = domain)).map (·.data) with
  | some cur =>
    rw [hr] at hsearch
    obtain ⟨a, hreads, hlisted⟩ := h.search id hsearch
    obtain ⟨l, hl, -, rfl⟩ := exists_of_listed hlisted
    obtain ⟨pos', hscan⟩ := file_reader_scan_spec hreads ((hwf l hl).ip_lt.trans_le hsize)
    simp only [file_reader_get_a_record, file_reader_find, hsearch, hscan, Run.ok_bind, hlisted]
    rfl
  | none =>
    rw [hr] at hsearch
    -- The index has the domains that are listed, so this one is not.
    have hlisted : listed lines domain = none := by
      rw [← Option.not_isSome_iff_eq_none, listed_isSome_iff, ← h.names_eq hfits,
        List.mem_toFinset, List.mem_map]
      rintro ⟨n, hn, rfl⟩
      have hfind := HashTab.search_of_placed h.len_pos h.indexed.placed (h.names n hn)
      rw [hsearch, HashTab.lookup] at hfind
      have hnone : fr.item_index.entries.find? (·.name = n.name) = none := by
        simpa using (Except.ok.inj hfind).symm
      have hne := List.find?_eq_none.mp hnone n hn
      exact hne (decide_eq_true rfl)
    simp only [file_reader_get_a_record, file_reader_find, hsearch, Run.ok_bind, hlisted]
    rfl

/-- A domain that an index cannot keep whole is not found in it. -/
theorem Indexes.lookup_long {good : List UInt8 → Prop}
    (h : Indexes good fr.fd lines fr.item_index) (size : ℕ) (ip : List UInt8) {domain : List UInt8}
    (hlong : ¬ Fits domain) : file_reader_get_a_record fr size ip domain = .ok none := by
  have hsearch := HashTab.search_eq h.len_pos domain
  cases hr : ((fr.item_index.chain domain).find? (·.name = domain)).map (·.data) with
  | some cur =>
    rw [hr] at hsearch
    obtain ⟨n, hn, hname, -⟩ := HashTab.exists_of_search hsearch
    exact absurd (hname ▸ h.names n hn) hlong
  | none =>
    rw [hr] at hsearch
    simp only [file_reader_get_a_record, file_reader_find, hsearch, Run.ok_bind]
    rfl

/-- A file of lines that can be indexed is looked up right, when the domains fit. -/
theorem looksUp_of_ok (hfile : FileLines fd lines) (hfits : ∀ l ∈ lines, Fits l.domain)
    (hok : file_reader_alloc fd = .ok fr) : LooksUp fd lines := by
  rcases file_reader_alloc_cases (fun _ hk => hk) hfile fun l hl => keeps_of_fits (hfits l hl) with
    ⟨fr', hok', hfd, h⟩ | ⟨herr, -⟩
  · exact ⟨fr', hok', fun size ip domain hsize =>
      (hfd.symm ▸ h).lookup_right hfile.wellFormed size ip domain hsize hfits⟩
  · rw [herr] at hok
    cases hok

/-- Where every lookup is right, the domains fit. -/
theorem LooksUp.fits (h : LooksUp fd lines) (hfile : FileLines fd lines) :
    ∀ l ∈ lines, Fits l.domain := by
  intro l hl
  by_contra hlong
  obtain ⟨fr, hok, hlooks⟩ := h
  rcases file_reader_alloc_cases (fun _ hk => hk.fits) hfile fun l _ => keeps_short l.domain with
    ⟨fr', hok', rfl, hindexes⟩ | ⟨herr, -⟩
  · obtain rfl := Except.ok.inj (hok.symm.trans hok')
    -- The domain is listed, and not found.
    have hget := hlooks IP_SIZE [] l.domain le_rfl
    rw [hindexes.lookup_long IP_SIZE [] hlong] at hget
    have hmem : l.domain ∈ domains lines := List.mem_toFinset.mpr (List.mem_map_of_mem hl)
    rw [← listed_isSome_iff, ← (Except.ok.inj hget : none = listed lines l.domain)] at hmem
    cases hmem
  · rw [herr] at hok
    cases hok

/-- A file that can be indexed does not list too many domains. -/
theorem card_domains_of_ok (hfile : FileLines fd lines) (hfits : ∀ l ∈ lines, Fits l.domain)
    (hok : file_reader_alloc fd = .ok fr) : (domains lines).card ≤ 2 ^ 31 := by
  rcases file_reader_alloc_cases (fun _ hk => hk) hfile fun l hl => keeps_of_fits (hfits l hl) with
    ⟨fr', -, -, h⟩ | ⟨herr, -⟩
  · rw [← h.num_eq_card hfits]
    exact h.num_le_max
  · rw [herr] at hok
    cases hok

/-- A file whose domains fit and are few enough is looked up right. -/
theorem looksUp_of_card (hfile : FileLines fd lines) (hfits : ∀ l ∈ lines, Fits l.domain)
    (hcard : (domains lines).card ≤ 2 ^ 31) : LooksUp fd lines := by
  rcases file_reader_alloc_cases (fun _ hk => hk) hfile fun l hl => keeps_of_fits (hfits l hl) with
    ⟨fr, hok, -⟩ | ⟨-, hover⟩
  · exact looksUp_of_ok hfile hfits hok
  · exact absurd (hover.lt_card hfits) (not_lt.mpr hcard)

/-- On a file of lines every lookup returns the address of the last line that lists its domain, and
`NULL` when there is none, exactly when no domain has more than 50 bytes and there are at most
`2 ^ 31` different ones. -/
theorem looksUp_iff (hfile : FileLines fd lines) :
    LooksUp fd lines ↔ (∀ l ∈ lines, Fits l.domain) ∧ (domains lines).card ≤ 2 ^ 31 := by
  constructor
  · intro h
    have hfits := h.fits hfile
    obtain ⟨fr, hok, -⟩ := h
    exact ⟨hfits, card_domains_of_ok hfile hfits hok⟩
  · rintro ⟨hfits, hcard⟩
    exact looksUp_of_card hfile hfits hcard

/-- `looksUp_iff` for the file of two lines. -/
theorem looksUp_two : LooksUp twoLinesText twoLines :=
  (looksUp_iff twoLines_fileText.split).mpr ⟨by decide, by decide⟩

/-- A domain of 67 bytes, with the address `0.0.0.0`. -/
def longLine : Line where
  ip := [48, 46, 48, 46, 48, 46, 48]
  gap := [32]
  domain := [122, 104, 101, 110, 100, 101, 115, 104, 105, 46, 116, 105, 101, 98, 105, 101, 99, 104,
    97, 110, 103, 45, 116, 105, 101, 98, 105, 101, 99, 104, 97, 110, 103, 100, 101, 46, 122, 117,
    105, 99, 104, 97, 110, 103, 50, 53, 53, 122, 105, 102, 117, 46, 100, 111, 109, 97, 105, 110, 45,
    110, 97, 109, 101, 46, 99, 111, 109]
  ending := [10]

/-- The domain of 67 bytes is listed, and is not found. -/
theorem long_not_found : FileLines longLine.text [longLine] ∧ ∃ fr,
    file_reader_alloc longLine.text = .ok fr ∧
    file_reader_get_a_record fr IP_SIZE [] longLine.domain = .ok none ∧
    listed [longLine] longLine.domain = some longLine.ip := by
  refine ⟨⟨[], longLine.text, rfl, by decide, .last (by decide)⟩, ?_⟩
  have hfind : (file_reader_alloc longLine.text >>= fun fr =>
      file_reader_get_a_record fr IP_SIZE [] longLine.domain) = .ok none := by
    decide +kernel
  obtain ⟨fr, hfr, hnone⟩ := Run.bind_eq_ok.mp hfind
  exact ⟨fr, hfr, hnone, by decide⟩

end DnsRelayer
