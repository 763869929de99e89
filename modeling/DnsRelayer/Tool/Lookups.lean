import DnsRelayer.Tool.FileReader
import DnsRelayer.Lib.Runs

/-!
# Concurrent lookups in the local file

The worker threads share one `FileReader`, and with it the position of its `FILE`. A call of
`file_reader_get_a_record` is three steps of its thread: it finds the domain in the index, which no
thread writes to, moves the position of the `FILE` to the line (`fseek`), and reads the address from
the position (`fscanf`). The steps of the threads interleave in any order.

A lookup fills in the address listed for its domain when its `fscanf` finds the position where its
own `fseek` left it (`lookup_fills_listed`). Nothing in the code makes sure of that, and
`lookup_fills_other` is a run in which another lookup moves the position in between.
-/

namespace DnsRelayer

open Lib

/-- Size of the array `ip` of `handler`, which a lookup fills in. -/
def HANDLER_IP_SIZE : ℕ := 17

/-- Where a thread is in `file_reader_get_a_record`. -/
inductive Lookup where
  | idle
  /-- The domain was found in the index, and `fseek` comes next. -/
  | found (domain : List UInt8) (cur : ℕ)
  /-- The position was set, and `fscanf` comes next. -/
  | sought (domain : List UInt8) (cur : ℕ)
  deriving DecidableEq

/-- A step of a lookup. -/
inductive Move where
  | call (domain : List UInt8)
  | fseek
  | fscanf
  deriving DecidableEq

variable {ι : Type} [DecidableEq ι]

/-- The position of the `FILE`, where each thread is, and what the lookups that found their domain
have filled in, nothing when there was nothing to read. -/
structure Lookups (ι : Type) where
  pos : ℕ
  calls : ι → Lookup
  filled : List (List UInt8 × Option (List UInt8))

namespace Lookups

/-- No thread has called yet: the position is where indexing left it, at the end. -/
def init (fr : FileReader) : Lookups ι := ⟨fr.fd.length, fun _ => .idle, []⟩

/-- A step of the thread `t`, when it is the step that the thread takes next. Anything else is no
step, and changes nothing. -/
def step (fr : FileReader) (s : Lookups ι) : ι × Move → Run (Lookups ι)
  | (t, move) =>
    match s.calls t, move with
    | .idle, .call domain => do
      match ← file_reader_find fr domain with
      -- The call returns `NULL`.
      | none => return s
      | some cur => return { s with calls := Function.update s.calls t (.found domain cur) }
    | .found domain cur, .fseek =>
      return { s with pos := cur, calls := Function.update s.calls t (.sought domain cur) }
    | .sought domain _, .fscanf => do
      let (ip, pos) ← file_reader_scan fr HANDLER_IP_SIZE s.pos
      return { pos := pos, calls := Function.update s.calls t .idle,
               filled := (domain, ip) :: s.filled }
    | _, _ => return s

/-- The step is not of a lookup of a name of exactly 50 bytes, and a `fscanf` finds the position where
the `fseek` of its own lookup left it. -/
def Undisturbed (s : Lookups ι) : ι × Move → Prop
  | (_, .call domain) => domain.length ≠ HASH_KEY_MAX_LEN
  | (_, .fseek) => True
  | (t, .fscanf) => ∀ domain cur, s.calls t = .sought domain cur → s.pos = cur

/-- The lookups under way are at positions where the address listed for their domain is read, and
those that are over filled it in. -/
structure Sound (fr : FileReader) (lines : List Line) (s : Lookups ι) : Prop where
  found : ∀ t domain cur, s.calls t = .found domain cur →
    ∃ ip, ReadsAt fr.fd cur ip ∧ listed lines domain = some ip
  sought : ∀ t domain cur, s.calls t = .sought domain cur →
    ∃ ip, ReadsAt fr.fd cur ip ∧ listed lines domain = some ip
  filled : ∀ domain ip, (domain, ip) ∈ s.filled → ∃ a, listed lines domain = some a ∧ ip = some a

variable {fr : FileReader} {lines : List Line} {s : Lookups ι}

omit [DecidableEq ι] in
/-- No lookup has started. -/
theorem init_sound : Sound fr lines (init fr : Lookups ι) :=
  ⟨by simp [init], by simp [init], by simp [init]⟩

/-- A thread that moves on to where it may be keeps the lookups under way sound. -/
theorem Sound.update (h : Sound fr lines s) (t : ι) (call : Lookup) (pos : ℕ)
    (hcall : ∀ domain cur, call = .found domain cur ∨ call = .sought domain cur →
      ∃ ip, ReadsAt fr.fd cur ip ∧ listed lines domain = some ip) :
    Sound fr lines { s with pos := pos, calls := Function.update s.calls t call } := by
  have hcases : ∀ u c, Function.update s.calls t call u = c → s.calls u = c ∨ call = c := by
    intro u c hu
    by_cases hut : u = t
    · subst hut
      rw [Function.update_self] at hu
      exact Or.inr hu
    · rw [Function.update_of_ne hut] at hu
      exact Or.inl hu
  refine ⟨?_, ?_, h.filled⟩
  · intro u domain cur hu
    rcases hcases u _ hu with hu | hu
    · exact h.found u domain cur hu
    · exact hcall domain cur (Or.inl hu)
  · intro u domain cur hu
    rcases hcases u _ hu with hu | hu
    · exact h.sought u domain cur hu
    · exact hcall domain cur (Or.inr hu)

/-- An undisturbed step does not fault, and keeps the lookups sound. -/
theorem Sound.step (h : Sound fr lines s) (hindex : Indexes Short fr.fd lines fr.item_index)
    (hlines : ∀ l ∈ lines, l.WellFormed) (x : ι × Move) (hx : s.Undisturbed x) :
    ∃ s', Lookups.step fr s x = .ok s' ∧ Sound fr lines s' := by
  obtain ⟨t, move⟩ := x
  -- Anything but the thread's next step changes nothing.
  have hno : Lookups.step fr s (t, move) = .ok s →
      ∃ s', Lookups.step fr s (t, move) = .ok s' ∧ Sound fr lines s' := fun e => ⟨s, e, h⟩
  cases hc : s.calls t with
  | idle =>
    cases move with
    | call domain =>
      have hsearch := HashTab.search_eq hindex.len_pos domain
      cases hr : ((fr.item_index.chain domain).find? (·.name = domain)).map (·.data) with
      | none =>
        rw [hr] at hsearch
        refine hno ?_
        simp only [Lookups.step, hc, file_reader_find, hsearch, Run.ok_bind]
        rfl
      | some cur =>
        rw [hr] at hsearch
        refine ⟨_, ?_, h.update t (.found domain cur) s.pos ?_⟩
        · simp only [Lookups.step, hc, file_reader_find, hsearch, Run.ok_bind]
          rfl
        · rintro d c (hd | hd)
          · cases hd
            exact hindex.search (fun hfits => lt_of_le_of_ne hfits hx) hsearch
          · cases hd
    | fseek => exact hno (by simp only [Lookups.step, hc]; rfl)
    | fscanf => exact hno (by simp only [Lookups.step, hc]; rfl)
  | found domain cur =>
    cases move with
    | call _ => exact hno (by simp only [Lookups.step, hc]; rfl)
    | fseek =>
      refine ⟨_, ?_, h.update t (.sought domain cur) cur ?_⟩
      · simp only [Lookups.step, hc]
        rfl
      · rintro d c (hd | hd)
        · cases hd
        · cases hd
          exact h.found t domain cur hc
    | fscanf => exact hno (by simp only [Lookups.step, hc]; rfl)
  | sought domain cur =>
    cases move with
    | call _ => exact hno (by simp only [Lookups.step, hc]; rfl)
    | fseek => exact hno (by simp only [Lookups.step, hc]; rfl)
    | fscanf =>
      -- The position is that of the lookup's own line, and the address there fits the array.
      obtain ⟨ip, hreads, hip⟩ := h.sought t domain cur hc
      obtain ⟨l, hl, -, rfl⟩ := exists_of_listed hip
      have hfits : l.ip.length < HANDLER_IP_SIZE :=
        (hlines l hl).ip_lt.trans (by decide)
      have hpos : s.pos = cur := hx domain cur hc
      obtain ⟨pos', hscan⟩ := file_reader_scan_spec (hpos ▸ hreads) hfits
      have hidle := h.update t .idle pos' (by rintro d c (hd | hd) <;> cases hd)
      refine ⟨{ pos := pos', calls := Function.update s.calls t .idle,
                filled := (domain, some l.ip) :: s.filled }, ?_, hidle.found, hidle.sought, ?_⟩
      · simp only [Lookups.step, hc, hscan, Run.ok_bind]
        rfl
      · intro d a hd
        rcases List.mem_cons.mp hd with hd | hd
        · cases hd
          exact ⟨l.ip, hip, rfl⟩
        · exact h.filled d a hd

instance (s : Lookups ι) : DecidablePred s.Undisturbed
  | (_, .call domain) => inferInstanceAs (Decidable (domain.length ≠ HASH_KEY_MAX_LEN))
  | (_, .fseek) => inferInstanceAs (Decidable True)
  | (t, .fscanf) =>
    match hc : s.calls t with
    | .sought domain cur => decidable_of_iff (s.pos = cur)
      ⟨fun h d c hd => by cases hc.symm.trans hd; exact h, fun h => h domain cur hc⟩
    | .idle | .found _ _ => isTrue fun d c hd => by cases hc.symm.trans hd

end Lookups

/-- On a file of well-formed lines, in a run of any number of threads in which no name of exactly 50
bytes is looked up, and each `fscanf` finds the position where the `fseek` of its own lookup left
it, nothing faults, and every lookup that found its domain filled in the address listed for it. -/
theorem lookup_fills_listed {fd : List UInt8} {lines : List Line} (hfile : FileText fd lines)
    {fr : FileReader} (hfr : file_reader_alloc fd = .ok fr) (xs : List (ι × Move))
    (hxs : Meets (Lookups.step fr) Lookups.Undisturbed (Lookups.init fr) xs) :
    ∀ pre, pre <+: xs → ∃ s, exec (Lookups.step fr) (Lookups.init fr) pre = .ok s ∧
      ∀ domain ip, (domain, ip) ∈ s.filled → ∃ a, listed lines domain = some a ∧ ip = some a := by
  obtain ⟨fr', hok, hfd, hindex⟩ := file_reader_alloc_spec hfile
  rw [hfr] at hok
  cases hok
  intro pre hpre
  obtain ⟨s, hs, hsound⟩ := exec_total Lookups.init_sound
    (fun s x h hx => h.step (hfd.symm ▸ hindex) hfile.split.wellFormed x hx) hxs pre hpre
  exact ⟨s, hs, hsound.filled⟩

/-- The two lines `1.1.1.1 a` and `2.2.2.2 b`. -/
def twoLines : List Line :=
  [⟨[49, 46, 49, 46, 49, 46, 49], [32], [97], [10]⟩, ⟨[50, 46, 50, 46, 50, 46, 50], [32], [98], [10]⟩]

/-- The text of the two lines. -/
def twoLinesText : List UInt8 := twoLines.flatMap Line.text

/-- The text is that of well-formed lines. -/
theorem twoLines_fileText : FileText twoLinesText twoLines := by
  have hwf : ∀ l ∈ twoLines, l.WellFormed := by decide
  exact ⟨⟨[], twoLinesText, rfl, by decide,
    .cons (hwf _ (by simp [twoLines])) (by decide)
      (.cons (hwf _ (by simp [twoLines])) (by decide) .nil)⟩, by decide⟩

/-- `lookup_fills_listed` for lookups of two threads, which call both before the one and then the other goes
on. -/
theorem lookup_fills_listed_two : ∃ fr, file_reader_alloc twoLinesText = .ok fr ∧
    ∃ s, exec (Lookups.step fr) (Lookups.init fr) [((0 : ℕ), .call [97]), (1, .call [98]), (1, .fseek),
        (1, .fscanf), (0, .fseek), (0, .fscanf)] = .ok s ∧
      s.filled = [([97], some [49, 46, 49, 46, 49, 46, 49]), ([98], some [50, 46, 50, 46, 50, 46, 50])] ∧
      ∀ domain ip, (domain, ip) ∈ s.filled → ∃ a, listed twoLines domain = some a ∧ ip = some a := by
  have hrun : (file_reader_alloc twoLinesText).map (fun fr =>
      (decide (Meets (Lookups.step fr) Lookups.Undisturbed (Lookups.init fr) [((0 : ℕ), .call [97]),
        (1, .call [98]), (1, .fseek), (1, .fscanf), (0, .fseek), (0, .fscanf)]),
        (exec (Lookups.step fr) (Lookups.init fr) [((0 : ℕ), .call [97]), (1, .call [98]), (1, .fseek),
          (1, .fscanf), (0, .fseek), (0, .fscanf)]).toOption.any fun s =>
            s.filled = [([97], some [49, 46, 49, 46, 49, 46, 49]),
              ([98], some [50, 46, 50, 46, 50, 46, 50])])) = .ok (true, true) := by
    decide +kernel
  obtain ⟨fr, hfr, hrun⟩ := Run.map_eq_ok.mp hrun
  obtain ⟨hxs, hrun⟩ := Prod.mk.inj hrun
  obtain ⟨s, hs, hfilled⟩ := exec_reaches hrun
  obtain ⟨s', hs', hlisted⟩ := lookup_fills_listed twoLines_fileText hfr _ (of_decide_eq_true hxs) _
    (List.prefix_refl _)
  obtain rfl := Except.ok.inj (hs.symm.trans hs')
  exact ⟨fr, hfr, s, hs, of_decide_eq_true hfilled, hlisted⟩

/-- Between the `fseek` and the `fscanf` of the lookup of `a` the lookup of `b` moves the position:
the lookup of `a` fills in the address of `b`. -/
theorem lookup_fills_other : ∃ fr s, file_reader_alloc twoLinesText = .ok fr ∧
    exec (Lookups.step fr) (Lookups.init fr) [((0 : ℕ), .call [97]), (1, .call [98]), (0, .fseek),
      (1, .fseek), (0, .fscanf)] = .ok s ∧
    ∃ domain ip, (domain, ip) ∈ s.filled ∧
      ¬ ∃ a, listed twoLines domain = some a ∧ ip = some a := by
  obtain ⟨fr, hfr, -⟩ := file_reader_alloc_spec twoLines_fileText
  have hrun : (file_reader_alloc twoLinesText >>= fun fr =>
      exec (Lookups.step fr) (Lookups.init fr) [((0 : ℕ), .call [97]), (1, .call [98]),
        (0, .fseek), (1, .fseek), (0, .fscanf)]).map Lookups.filled =
      .ok [([97], some [50, 46, 50, 46, 50, 46, 50])] := by
    decide +kernel
  rw [hfr, Run.ok_bind] at hrun
  cases hs : exec (Lookups.step fr) (Lookups.init fr) [((0 : ℕ), .call [97]), (1, .call [98]),
      (0, .fseek), (1, .fseek), (0, .fscanf)] with
  | error e =>
    rw [hs] at hrun
    cases hrun
  | ok s =>
    rw [hs] at hrun
    simp only [Except.map, Except.ok.injEq] at hrun
    refine ⟨fr, s, hfr, hs, [97], some [50, 46, 50, 46, 50, 46, 50], by simp [hrun], ?_⟩
    decide

end DnsRelayer
