import DnsRelayer.Message.RoundTrip
import DnsRelayer.Cache.Log

/-!
# Compression of names, whatever their length

`encodeName` without its hash table. The names and tails that were written so far are a log, newest
first, and a name is written piece by piece, between its dots, up to the first tail that is found in
the log (`compress`). While the table has its first size, `encodeName` writes what `compress` does
(`encodeName_compress`). The pieces are those of any name: they may be empty, or too long for a
label.
-/

namespace DnsRelayer

/-- The names and tails written so far with their offsets, newest first. -/
abbrev Log := List (List UInt8 × UInt16)

variable {ht : HashTab UInt16} {log : Log} {off : ℕ} {p : List UInt8} {ps : List (List UInt8)}

/-! ## Pieces -/

/-- The name with these pieces. -/
def joined (ps : List (List UInt8)) : List UInt8 := [DOT].intercalate ps

/-- The pieces of a name, between its dots. -/
def pieces (name : List UInt8) : List (List UInt8) := name.splitOn DOT

@[simp]
theorem joined_pieces (name : List UInt8) : joined (pieces name) = name := List.intercalate_splitOn DOT

theorem pieces_ne_nil (name : List UInt8) : pieces name ≠ [] := List.splitOn_ne_nil DOT name

theorem joined_singleton (p : List UInt8) : joined [p] = p := by simp [joined]

theorem joined_cons_of_ne_nil (p : List UInt8) (h : ps ≠ []) :
    joined (p :: ps) = p ++ DOT :: joined ps := by
  simp [joined, List.intercalate_cons_of_ne_nil h]

/-- A name is its pieces, if they have no dots. -/
theorem pieces_joined (hne : ps ≠ []) (hdot : ∀ p ∈ ps, DOT ∉ p) : pieces (joined ps) = ps :=
  List.splitOn_intercalate DOT hdot hne

/-- A piece has no dot. -/
theorem dot_not_mem_of_mem_pieces {name : List UInt8} (h : p ∈ pieces name) : DOT ∉ p := by
  induction name generalizing p with
  | nil =>
    have hp : p = [] := by simpa [pieces] using h
    simp [hp]
  | cons c name ih =>
    unfold pieces at h ih
    rw [List.splitOn_cons_eq_if_modifyHead] at h
    obtain ⟨q, qs, hq⟩ := List.exists_cons_of_ne_nil (List.splitOn_ne_nil DOT name)
    rw [hq] at h ih
    by_cases hc : c = DOT
    · simp only [hc, beq_self_eq_true, if_true, List.mem_cons] at h
      rcases h with rfl | h
      · simp
      · exact ih (by simpa using h)
    · simp only [beq_iff_eq, hc, if_false, List.modifyHead_cons, List.mem_cons] at h
      rcases h with rfl | h
      · have hq' : DOT ∉ q := ih List.mem_cons_self
        simpa [Ne.symm hc] using hq'
      · exact ih (List.mem_cons_of_mem q h)

/-- A name has as many pieces as dots, and one more. -/
theorem length_pieces_le (name : List UInt8) : (pieces name).length ≤ name.length + 1 := by
  induction name with
  | nil => simp [pieces]
  | cons c name ih =>
    unfold pieces at ih ⊢
    rw [List.splitOn_cons_eq_if_modifyHead, List.length_cons]
    split_ifs
    · rw [List.length_cons]
      omega
    · rw [List.length_modifyHead]
      omega

/-- Labels with dots between them are pieces with dots between them. -/
theorem dotted_eq_joined (ls : List Label) : dotted ls = joined (ls.map Label.bytes) := by
  induction ls with
  | nil => rfl
  | cons l ls ih =>
    by_cases hls : ls = []
    · subst hls
      exact (joined_singleton l.bytes).symm
    · rw [dotted_cons_of_ne_nil l hls, List.map_cons, joined_cons_of_ne_nil _ (by simpa using hls), ih]

/-- The pieces of a name are its labels. -/
theorem pieces_dotted {ls : List Label} (hne : ls ≠ []) : pieces (dotted ls) = ls.map Label.bytes := by
  rw [dotted_eq_joined]
  apply pieces_joined (by simpa using hne)
  intro p hp
  obtain ⟨l, -, rfl⟩ := List.mem_map.mp hp
  exact l.no_dot

/-! ## Writing with a log -/

/-- A piece as it is written: its length, which may be cut to a byte, and its bytes. -/
def wire (p : List UInt8) : List UInt8 := UInt8.ofNat p.length :: p

@[simp]
theorem length_wire (p : List UInt8) : (wire p).length = 1 + p.length := by
  rw [wire, List.length_cons, Nat.add_comm]

/-- Write the pieces of a name from an offset on: the bytes, and the log after them. -/
def compress : List (List UInt8) → ℕ → Log → List UInt8 × Log
  | [], _, log => ([0], log)
  | p :: ps, off, log =>
    match found log (joined (p :: ps)) with
    | some pos => (htons (0xc000 ||| pos), log)
    | none =>
      let r := compress ps (off + 1 + p.length) ((joined (p :: ps), UInt16.ofNat off) :: log)
      (wire p ++ r.1, r.2)

theorem compress_of_some {pos : UInt16} (h : found log (joined (p :: ps)) = some pos) :
    compress (p :: ps) off log = (htons (0xc000 ||| pos), log) := by
  simp only [compress, h]

theorem compress_of_none (h : found log (joined (p :: ps)) = none) :
    compress (p :: ps) off log =
      (wire p ++ (compress ps (off + 1 + p.length) ((joined (p :: ps), UInt16.ofNat off) :: log)).1,
        (compress ps (off + 1 + p.length) ((joined (p :: ps), UInt16.ofNat off) :: log)).2) := by
  simp only [compress, h]

/-- `getPos` asks the log. -/
theorem Logged.getPos (h : Logged ht log) (k : List UInt8) :
    getPos k ht = .ok ((found log k).elim 0 (0xc000 ||| ·)) := by
  rw [DnsRelayer.getPos, h.search k, Run.ok_bind]
  cases found log k <;> rfl

/-- The loop of `encodeName` writes the pieces of a name that is not found in the log. -/
theorem encodeLoop_compress (h : Logged ht log) (hdot : ∀ q ∈ p :: ps, DOT ∉ q)
    (hnone : found log (joined (p :: ps)) = none)
    (hroom : log.length + (p :: ps).length < 2 * INIT_SIZE) (off : ℕ) (out : List UInt8) :
    ∃ ht', encodeLoop ht off (joined (p :: ps)) out [] 0 (joined (p :: ps)) =
        .ok (out ++ (compress (p :: ps) off log).1, ht') ∧
      Logged ht' (compress (p :: ps) off log).2 := by
  induction ps generalizing ht log off p out with
  | nil =>
    have hp : DOT ∉ p := hdot p List.mem_cons_self
    obtain ⟨ht', hok, hlog⟩ := h.insert hnone (by simpa using hroom) (UInt16.ofNat off)
    rw [compress_of_none hnone]
    rw [joined_singleton] at hok hlog ⊢
    refine ⟨ht', ?_, hlog⟩
    have hrun := @encodeLoop_label ht off p out [] [] 0 p hp
    rw [List.append_nil] at hrun
    rw [hrun, encodeLoop, hok]
    simp [compress, wire]
  | cons q qs ih =>
    have hp : DOT ∉ p := hdot p List.mem_cons_self
    rw [List.length_cons] at hroom
    obtain ⟨ht₁, hok, hlog₁⟩ := h.insert hnone (by simp at hroom; omega) (UInt16.ofNat off)
    rw [compress_of_none hnone]
    have hmore := joined_cons_of_ne_nil p (List.cons_ne_nil q qs)
    generalize hname : joined (p :: q :: qs) = name at hok hlog₁ hmore ⊢
    -- After the piece, the table is asked for the rest of the name.
    have hrun : encodeLoop ht off name out [] 0 name =
        getPos (joined (q :: qs)) ht₁ >>= fun pos =>
          if pos ≠ 0 then .ok (out ++ (wire p ++ htons pos), ht₁)
          else encodeLoop ht₁ (off + 1 + p.length) (joined (q :: qs)) (out ++ wire p) [] 0
            (joined (q :: qs)) := by
      have hlabel := @encodeLoop_label ht off name out [] (DOT :: joined (q :: qs)) 0 p hp
      rw [← hmore] at hlabel
      rw [hlabel, encodeLoop, if_pos rfl, hok, Run.ok_bind, List.nil_append,
        show (0 : UInt8) + UInt8.ofNat p.length = UInt8.ofNat p.length from UInt8.zero_add _]
      rfl
    rw [hrun, hlog₁.getPos, Run.ok_bind]
    cases hf : found ((name, UInt16.ofNat off) :: log) (joined (q :: qs)) with
    | some pos =>
      refine ⟨ht₁, ?_, ?_⟩
      · rw [Option.elim_some, if_pos (pointer_ne_zero pos), compress_of_some hf]
      · rw [compress_of_some hf]
        exact hlog₁
    | none =>
      obtain ⟨ht', hok', hlog'⟩ := ih hlog₁ (fun r hr => hdot r (List.mem_cons_of_mem p hr)) hf
        (by simp only [List.length_cons] at hroom ⊢; omega) (off + 1 + p.length) (out ++ wire p)
      refine ⟨ht', ?_, hlog'⟩
      rw [Option.elim_none, if_neg (by simp), hok', List.append_assoc]

/-- `encodeName` writes what `compress` does. -/
theorem encodeName_compress (h : Logged ht log) (name : List UInt8)
    (hroom : log.length + (name.length + 1) < 2 * INIT_SIZE) (off : ℕ) :
    ∃ ht', encodeName name off ht = .ok ((compress (pieces name) off log).1, ht') ∧
      Logged ht' (compress (pieces name) off log).2 := by
  obtain ⟨p, ps, hps⟩ := List.exists_cons_of_ne_nil (pieces_ne_nil name)
  have hname : joined (p :: ps) = name := by rw [← hps, joined_pieces]
  have hlen := length_pieces_le name
  rw [encodeName, h.getPos, Run.ok_bind, hps]
  rw [hps] at hlen
  cases hf : found log name with
  | some pos =>
    rw [Option.elim_some, if_pos (pointer_ne_zero pos), compress_of_some (by rw [hname, hf])]
    exact ⟨ht, rfl, h⟩
  | none =>
    -- The pieces are what is between the dots.
    have hdot : ∀ q ∈ p :: ps, DOT ∉ q := by
      intro q hq
      rw [← hps] at hq
      exact dot_not_mem_of_mem_pieces hq
    obtain ⟨ht', hok, hlog⟩ := encodeLoop_compress h hdot (by rw [hname, hf]) (by omega) off []
    rw [hname] at hok
    refine ⟨ht', ?_, hlog⟩
    rw [Option.elim_none, if_neg (by simp), hok, List.nil_append]

end DnsRelayer
