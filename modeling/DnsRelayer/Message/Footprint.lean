import DnsRelayer.Message.Session

/-!
# How much of a buffer a message takes

The bytes that a message takes are counted from its names and the lengths of its data alone. A name is
counted piece by piece, with a byte for each length, up to the first tail at which a search for it stops
at a tail that was counted before, for which there are two bytes more, or to the end, for which there
is one (`footprint`). `encode` fits its buffer exactly when the count does (`encode_fits_iff`): up to
the end of the buffer, the table has its first size.
-/

namespace DnsRelayer

variable {seen : List (List UInt8)} {log : Log} {off p : ℕ} {ht ht' : HashTab UInt16}

/-- The bytes that the pieces of a name take, after names with these tails, and the tails after it. -/
def footprint : List (List UInt8) → List (List UInt8) → ℕ × List (List UInt8)
  | [], seen => (1, seen)
  | p :: ps, seen =>
    if ∃ k ∈ seen, Hits k (joined (p :: ps)) then (2, seen)
    else
      let r := footprint ps (joined (p :: ps) :: seen)
      (1 + p.length + r.1, r.2)

/-- The bytes that an element takes, and the tails after it. -/
def Entry.footprint (seen : List (List UInt8)) : Entry → ℕ × List (List UInt8)
  | .ques q =>
    let n := DnsRelayer.footprint (pieces q.q_name) seen
    (n.1 + 4, n.2)
  | .rr r =>
    let n := DnsRelayer.footprint (pieces r.name) seen
    match r.data_type with
    | .BINARY_TYPE => (n.1 + 10 + r.data_length.toNat, n.2)
    | .STRING_TYPE =>
      let s := DnsRelayer.footprint (pieces r.string_data) n.2
      (n.1 + 10 + s.1, s.2)

/-- The bytes that elements take, one after the other. -/
def entriesFootprint : List Entry → List (List UInt8) → ℕ
  | [], _ => 0
  | x :: xs, seen => (x.footprint seen).1 + entriesFootprint xs (x.footprint seen).2

/-- The bytes that a message takes. -/
def Message.footprint (m : Message) : ℕ := 12 + entriesFootprint m.entries []

/-- The names of an element are within their arrays, and its data is all there. -/
def Entry.Within : Entry → Prop
  | .ques q => q.q_name.length < MAX_LEN
  | .rr r => r.name.length < MAX_LEN ∧ r.string_data.length < MAX_LEN ∧
      (r.data_type = .BINARY_TYPE → r.data_length.toNat ≤ r.data.length)

/-! ## Names -/

/-- The pieces of a name are written in as many bytes as are counted. -/
theorem compress_footprint (ps : List (List UInt8)) (off : ℕ) (log : Log) :
    (compress ps off log).1.length = (footprint ps (log.map (·.1))).1 ∧
      (compress ps off log).2.map (·.1) = (footprint ps (log.map (·.1))).2 := by
  -- Whether a tail is found depends on the names of the log, not on their offsets.
  induction ps generalizing off log with
  | nil => exact ⟨rfl, rfl⟩
  | cons p ps ih =>
    unfold footprint
    cases hf : found log (joined (p :: ps)) with
    | some pos =>
      obtain ⟨key, hkey, hhits⟩ := exists_of_found hf
      have hseen : ∃ k ∈ log.map (·.1), Hits k (joined (p :: ps)) :=
        ⟨key, List.mem_map_of_mem hkey, hhits⟩
      rw [compress_of_some hf, if_pos hseen]
      exact ⟨rfl, rfl⟩
    | none =>
      have hseen : ¬ ∃ k ∈ log.map (·.1), Hits k (joined (p :: ps)) := by
        rintro ⟨k, hk, hhits⟩
        obtain ⟨e, he, rfl⟩ := List.mem_map.mp hk
        exact found_eq_none_iff.mp hf e he hhits
      obtain ⟨hlen, hlog⟩ := ih (off + 1 + p.length) ((joined (p :: ps), UInt16.ofNat off) :: log)
      rw [List.map_cons] at hlen hlog
      rw [compress_of_none hf, if_neg hseen]
      refine ⟨?_, hlog⟩
      rw [List.length_append, length_wire, hlen]

/-- `encodeName` in the buffer, with a log that is no longer than what is written before. -/
theorem encodeName_footprint (h : Logged ht log) (hlen : log.length ≤ p) {name : List UInt8}
    (hname : name.length < MAX_LEN) (hp : p ≤ BUFF_SIZE + 2 * MAX_LEN) :
    ∃ bs ht' log', encodeName name p ht = .ok (bs, ht') ∧ Logged ht' log' ∧
      log'.length ≤ p + bs.length ∧ bs.length = (footprint (pieces name) (log.map (·.1))).1 ∧
      log'.map (·.1) = (footprint (pieces name) (log.map (·.1))).2 := by
  -- The table is not full: each of its names took a byte of what is written.
  have hroom : log.length + (name.length + 1) < 2 * INIT_SIZE := by
    unfold MAX_LEN at hname hp
    unfold BUFF_SIZE at hp
    unfold INIT_SIZE
    omega
  obtain ⟨ht', hok, hlog⟩ := encodeName_compress h name hroom p
  obtain ⟨hsize, hseen⟩ := compress_footprint (pieces name) p log
  have hgrow := length_compress_log (pieces name) p log
  exact ⟨_, ht', _, hok, hlog, by omega, hsize, hseen⟩

/-- A name takes two bytes more than it has, at most. -/
theorem footprint_le (ps : List (List UInt8)) (seen : List (List UInt8)) (hne : ps ≠ []) :
    (footprint ps seen).1 ≤ (joined ps).length + 2 := by
  induction ps generalizing seen with
  | nil => exact absurd rfl hne
  | cons p ps ih =>
    unfold footprint
    split_ifs
    -- A pointer.
    · exact Nat.le_add_left 2 _
    · by_cases hps : ps = []
      · subst hps
        simp only [footprint, joined_singleton]
        omega
      · have hrest := ih (joined (p :: ps) :: seen) hps
        have hlen : (joined (p :: ps)).length = p.length + 1 + (joined ps).length := by
          rw [joined_cons_of_ne_nil p hps, List.length_append, List.length_cons]
          omega
        dsimp only
        omega

/-! ## Elements -/

/-- An element that begins in the buffer is written, in as many bytes as are counted. -/
theorem encodeEntry_footprint (h : Logged ht log) (hlen : log.length ≤ p) {x : Entry}
    (hx : x.Within) (hp : p ≤ BUFF_SIZE) :
    ∃ bs ht' log', encodeEntry x p ht = .ok (bs, ht') ∧ Logged ht' log' ∧
      log'.length ≤ p + bs.length ∧ bs.length = (x.footprint (log.map (·.1))).1 ∧
      log'.map (·.1) = (x.footprint (log.map (·.1))).2 := by
  cases x with
  | ques q =>
    obtain ⟨name, ht', log', hok, hlog', hlen', hsize, hseen⟩ :=
      encodeName_footprint h hlen (show q.q_name.length < MAX_LEN from hx) (by omega)
    refine ⟨name ++ (htons q.q_type ++ htons q.q_class), ht', log', ?_, hlog', ?_, ?_, hseen⟩
    · rw [encodeEntry, encodeQues, hok]
      rfl
    · rw [List.length_append]
      omega
    · rw [List.length_append, hsize]
      rfl
  | rr r =>
    obtain ⟨hname, hdata, hbinary⟩ := hx
    obtain ⟨name, ht₁, log₁, hok, hlog₁, hlen₁, hsize, hseen⟩ :=
      encodeName_footprint h hlen hname (by omega)
    -- The target may begin behind the buffer, but not so far that the table is full.
    have hshort : name.length ≤ r.name.length + 2 := by
      have := footprint_le (pieces r.name) (log.map (·.1)) (pieces_ne_nil r.name)
      rwa [joined_pieces, ← hsize] at this
    rw [encodeEntry, encodeRR, hok, Run.ok_bind]
    simp only [Entry.footprint]
    cases hd : r.data_type with
    | BINARY_TYPE =>
      have hle := hbinary hd
      simp only [if_neg (Nat.not_lt.mpr hle)]
      refine ⟨_, ht₁, log₁, rfl, hlog₁, ?_, ?_, hseen⟩
      · simp only [List.length_append]
        omega
      · simp only [List.length_append, length_htons, length_htonl, List.length_take, hsize]
        omega
    | STRING_TYPE =>
      have hstart : (name ++ (htons r.type ++ (htons r.class_ ++ htonl r.TTL))).length + 2 =
          name.length + 10 := by
        simp only [List.length_append, length_htons, length_htonl]
      obtain ⟨target, ht₂, log₂, hok₂, hlog₂, hlen₂, hsize₂, hseen₂⟩ :=
        @encodeName_footprint log₁ (p + (name.length + 10)) ht₁ hlog₁ (by omega) r.string_data
          hdata (by unfold MAX_LEN at hname ⊢; omega)
      rw [hseen] at hsize₂ hseen₂
      simp only [Nat.add_assoc p, hstart, hok₂, Run.ok_bind]
      refine ⟨_, ht₂, log₂, rfl, hlog₂, ?_, ?_, hseen₂⟩
      · simp only [List.length_append, length_htons, length_htonl]
        omega
      · simp only [List.length_append, length_htons, length_htonl, hsize, hsize₂]
        omega

/-- Elements that begin in the buffer are written in it exactly when as many bytes as are counted fit
there. -/
theorem encodeEntries_fits_iff {xs : List Entry} (h : Logged ht log) (hlen : log.length ≤ p)
    (hxs : ∀ x ∈ xs, x.Within) (hp : p ≤ BUFF_SIZE) :
    (∃ r, encodeEntries xs p ht = .ok r ∧ p + r.1.length ≤ BUFF_SIZE) ↔
      p + entriesFootprint xs (log.map (·.1)) ≤ BUFF_SIZE := by
  -- An element that begins in the buffer is written, whether it fits or not.
  induction xs generalizing ht log p with
  | nil =>
    constructor
    · intro _
      exact hp
    · intro _
      exact ⟨_, rfl, hp⟩
  | cons x xs ih =>
    obtain ⟨bs, ht₁, log₁, hok, hlog₁, hlen₁, hsize, hseen⟩ :=
      encodeEntry_footprint h hlen (hxs x List.mem_cons_self) hp
    have hrest : ∀ y ∈ xs, y.Within := fun y hy => hxs y (List.mem_cons_of_mem x hy)
    rw [encodeEntries, hok, Run.ok_bind, entriesFootprint, ← hsize, ← hseen, ← Nat.add_assoc]
    constructor
    · rintro ⟨r, hr, hfit⟩
      obtain ⟨r', hr', hr⟩ := Run.bind_eq_ok.mp hr
      obtain rfl := Except.ok.inj hr
      rw [List.length_append] at hfit
      dsimp only at hfit
      -- What comes after it fits, so this one ends in the buffer.
      exact (ih hlog₁ hlen₁ hrest (by omega)).mp ⟨r', hr', by omega⟩
    · intro hfit
      obtain ⟨r', hr', hfit'⟩ := (ih hlog₁ hlen₁ hrest (by omega)).mpr hfit
      refine ⟨(bs ++ r'.1, r'.2), by rw [hr', Run.ok_bind], ?_⟩
      rw [List.length_append]
      omega

/-- `encode` fits its buffer exactly when as many bytes as are counted do. -/
theorem encode_fits_iff {m : Message} (hc : m.Counted) (hm : ∀ x ∈ m.entries, x.Within) :
    (∃ bs, encode m = .ok bs ∧ bs.length ≤ BUFF_SIZE) ↔ m.footprint ≤ BUFF_SIZE := by
  have hrun := encodeEntries_fits_iff logged_newHashTab (Nat.zero_le 12) hm (by decide)
  rw [Message.footprint, ← show (([] : Log).map (·.1)) = [] from rfl, ← hrun, encode_eq hc]
  constructor
  · rintro ⟨bs, hok, hfit⟩
    obtain ⟨r, hr, hok⟩ := Run.bind_eq_ok.mp hok
    obtain rfl := Except.ok.inj hok
    rw [List.length_append, length_encodeHeader] at hfit
    exact ⟨r, hr, hfit⟩
  · rintro ⟨r, hr, hfit⟩
    refine ⟨encodeHeader m ++ r.1, by rw [hr, Run.ok_bind], ?_⟩
    rw [List.length_append, length_encodeHeader]
    exact hfit

/-! ## Messages that were decoded -/

theorem cstr_length_le (s : List UInt8) : (cstr s).length ≤ s.length :=
  (List.takeWhile_prefix _).length_le

/-- A name that was decoded is within its array. -/
theorem length_of_decodeField {buf name : List UInt8} {pos e : ℕ}
    (h : decodeField buf pos = .ok (name, e)) : name.length < MAX_LEN := by
  obtain ⟨⟨raw, e'⟩, -, h⟩ := Run.bind_eq_ok.mp h
  by_cases hlong : raw.length ≥ MAX_LEN
  · simp only [if_pos hlong] at h
    cases h
  · simp only [if_neg hlong] at h
    obtain ⟨rfl, -⟩ := Prod.mk.inj (Except.ok.inj h)
    exact (cstr_length_le raw).trans_lt (Nat.not_le.mp hlong)

theorem within_of_decodeQues {buf : List UInt8} {q : Question} {pos e : ℕ}
    (h : decodeQues buf pos = .ok (q, e)) : (Entry.ques q).Within := by
  obtain ⟨⟨name, e'⟩, hname, h⟩ := Run.bind_eq_ok.mp h
  obtain ⟨t, -, h⟩ := Run.bind_eq_ok.mp h
  obtain ⟨c, -, h⟩ := Run.bind_eq_ok.mp h
  obtain ⟨rfl, -⟩ := Prod.mk.inj (Except.ok.inj h)
  exact length_of_decodeField hname

theorem within_of_decodeRR {buf : List UInt8} {r : RR} {pos e : ℕ}
    (h : decodeRR buf pos = .ok (r, e)) : (Entry.rr r).Within := by
  obtain ⟨⟨name, e'⟩, hname, h⟩ := Run.bind_eq_ok.mp h
  obtain ⟨t, -, h⟩ := Run.bind_eq_ok.mp h
  obtain ⟨c, -, h⟩ := Run.bind_eq_ok.mp h
  obtain ⟨ttl, -, h⟩ := Run.bind_eq_ok.mp h
  obtain ⟨len, -, h⟩ := Run.bind_eq_ok.mp h
  dsimp only at h
  split_ifs at h
  · obtain ⟨⟨target, e''⟩, htarget, h⟩ := Run.bind_eq_ok.mp h
    obtain ⟨rfl, -⟩ := Prod.mk.inj (Except.ok.inj h)
    exact ⟨length_of_decodeField hname, length_of_decodeField htarget, fun h => by cases h⟩
  · obtain ⟨data, hdata, h⟩ := Run.bind_eq_ok.mp h
    obtain ⟨rfl, -⟩ := Prod.mk.inj (Except.ok.inj h)
    refine ⟨length_of_decodeField hname, Nat.zero_lt_succ 255, fun _ => ?_⟩
    unfold bytesAt at hdata
    split_ifs at hdata with hle
    obtain rfl := Except.ok.inj hdata
    show len.toNat ≤ _
    rw [List.length_take, List.length_drop]
    omega

/-- What holds of every element that is decoded holds of those of an array. -/
theorem forall_of_decodeArray {α : Type} {P : α → Prop} {item : ℕ → Run (α × ℕ)}
    (hitem : ∀ pos x e, item pos = .ok (x, e) → P x) {count i pos e : ℕ} {xs : List α}
    (h : decodeArray item count i pos = .ok (xs, e)) : ∀ x ∈ xs, P x := by
  induction count generalizing i pos xs e with
  | zero =>
    obtain ⟨rfl, -⟩ := Prod.mk.inj (Except.ok.inj h)
    exact fun x hx => absurd hx List.not_mem_nil
  | succ count ih =>
    rw [decodeArray] at h
    split_ifs at h
    obtain ⟨⟨x, e₁⟩, hx, h⟩ := Run.bind_eq_ok.mp h
    obtain ⟨⟨xs', e₂⟩, hxs, h⟩ := Run.bind_eq_ok.mp h
    obtain ⟨rfl, -⟩ := Prod.mk.inj (Except.ok.inj h)
    intro y hy
    rcases List.mem_cons.mp hy with rfl | hy
    · exact hitem _ _ _ hx
    · exact ih hxs y hy

/-- The elements of a message that was decoded are within their arrays. -/
theorem within_of_decode {buf : List UInt8} {m : Message} {e : ℕ} (h : decode buf = .ok (m, e)) :
    ∀ x ∈ m.entries, x.Within := by
  obtain ⟨pos, pos₀, pos₁, pos₂, hques, h₀, h₁, h₂⟩ := decode_arrays h
  have hq := forall_of_decodeArray (fun _ _ _ h => within_of_decodeQues h) hques
  have hr : ∀ {count pos e : ℕ} {rs : List RR}, decodeArray (decodeRR buf) count 0 pos = .ok (rs, e) →
      ∀ r ∈ rs, (Entry.rr r).Within := fun h =>
    forall_of_decodeArray (fun _ _ _ h => within_of_decodeRR h) h
  intro x hx
  simp only [Message.entries, List.mem_append, List.mem_map] at hx
  rcases hx with ⟨q, hmem, rfl⟩ | ⟨r, hmem, rfl⟩ | ⟨r, hmem, rfl⟩ | ⟨r, hmem, rfl⟩
  · exact hq q hmem
  · exact hr h₀ r hmem
  · exact hr h₁ r hmem
  · exact hr h₂ r hmem

end DnsRelayer
