import DnsRelayer.Message.Compression
import DnsRelayer.Message.Reencode

/-!
# Compression pointers

Where the pointers lead that `encodeName` writes, for names of any length. A node keeps the first 50
bytes of its name, in the chain of the whole name, so a search for a tail of 50 bytes may stop at a
longer name that begins with it, when the two are in one chain (`Confuses`). It does as soon as such a
name has been written, since the longer name's node is in front (`found_of_confuses`), and then the
pointer leads to a place where more than 50 bytes are read, or where reading does not end
(`length_le_of_leads`). Otherwise every pointer leads to the tail that it stands for
(`compress_sound`).
-/

namespace DnsRelayer

variable {B : List UInt8} {log : Log} {off n : ℕ} {ls us vs : List Label} {t s : List UInt8}

/-! ## Confusion -/

/-- A search for `s` stops at a node that was made for `t`, a longer name that no node keeps whole. -/
def Confuses (t s : List UInt8) : Prop := HASH_KEY_MAX_LEN < t.length ∧ Hits t s

instance (t s : List UInt8) : Decidable (Confuses t s) := inferInstanceAs (Decidable (_ ∧ _))

theorem Confuses.length_eq (h : Confuses t s) : s.length = HASH_KEY_MAX_LEN := h.2.length_eq h.1

/-- Each name of the log was not found when it was put in. -/
def Fresh : Log → Prop
  | [] => True
  | e :: log => found log e.1 = none ∧ Fresh log

/-- A search for a name stops at one that confuses it, if any has been put in: had the name been put
in after it, it would have been found then. -/
theorem found_of_confuses (hfresh : Fresh log) {o : UInt16} (ht : (t, o) ∈ log) (h : Confuses t s) :
    ∃ key pos, found log s = some pos ∧ (key, pos) ∈ log ∧ HASH_KEY_MAX_LEN < key.length := by
  induction log with
  | nil => simp at ht
  | cons e log ih =>
    obtain ⟨hnew, hfresh⟩ := hfresh
    -- The search stops at the newest name that it cannot tell from `s`.
    by_cases ha : Hits e.1 s
    · have hfound : found (e :: log) s = some e.2 := by
        unfold found
        rw [List.find?_cons_of_pos (by simpa using ha)]
        rfl
      by_cases hlong : HASH_KEY_MAX_LEN < e.1.length
      · exact ⟨e.1, e.2, hfound, List.mem_cons_self, hlong⟩
      · -- It would be the name itself, put in after the one that confuses it.
        exfalso
        have hes : e.1 = s := ha.eq_of_fits (not_lt.mp hlong)
        rcases List.mem_cons.mp ht with rfl | ht
        · exact hlong h.1
        · rw [hes, found_eq_none_iff] at hnew
          exact hnew _ ht h.2
    · have hfound : found (e :: log) s = found log s := by
        unfold found
        rw [List.find?_cons_of_neg (by simpa using ha)]
      rcases List.mem_cons.mp ht with rfl | ht
      · exact absurd h.2 ha
      · obtain ⟨key, pos, hpos, hmem, hlong⟩ := ih hfresh ht
        exact ⟨key, pos, by rw [hfound, hpos], List.mem_cons_of_mem e hmem, hlong⟩

/-! ## Labels -/

/-- A tail is no longer than the name. -/
theorem length_dotted_le (us vs : List Label) : (dotted vs).length ≤ (dotted (us ++ vs)).length := by
  induction us with
  | nil => exact le_rfl
  | cons u us ih =>
    refine ih.trans ?_
    rw [List.cons_append]
    by_cases h : us ++ vs = []
    · rw [h]
      exact Nat.zero_le _
    · rw [dotted_cons_of_ne_nil u h, List.length_append, List.length_cons]
      omega

/-- A tail after a label is shorter than the name. -/
theorem length_dotted_lt (u : Label) (ls : List Label) : (dotted ls).length < (dotted (u :: ls)).length := by
  by_cases h : ls = []
  · rw [h]
    exact u.length_pos
  · rw [dotted_cons_of_ne_nil u h, List.length_append, List.length_cons]
    omega

/-- Write the labels of a name from an offset on. -/
def compressLabels (ls : List Label) (off : ℕ) (log : Log) : List UInt8 × Log :=
  compress (ls.map Label.bytes) off log

theorem compressLabels_nil : compressLabels [] off log = ([0], log) := rfl

theorem compressLabels_of_some {l : Label} {pos : UInt16} (h : found log (dotted (l :: ls)) = some pos) :
    compressLabels (l :: ls) off log = (htons (0xc000 ||| pos), log) := by
  rw [dotted_eq_joined] at h
  exact compress_of_some h

theorem compressLabels_of_none {l : Label} (h : found log (dotted (l :: ls)) = none) :
    compressLabels (l :: ls) off log =
      (l.wire ++
        (compressLabels ls (off + 1 + l.length) ((dotted (l :: ls), UInt16.ofNat off) :: log)).1,
        (compressLabels ls (off + 1 + l.length) ((dotted (l :: ls), UInt16.ofNat off) :: log)).2) := by
  rw [dotted_eq_joined] at h ⊢
  exact compress_of_none h

/-- The tails that are added are no longer than the name, and the log keeps what it has. -/
theorem compressLabels_log (ls : List Label) (off : ℕ) (log : Log) :
    ∃ new, (compressLabels ls off log).2 = new ++ log ∧
      ∀ e ∈ new, e.1.length ≤ (dotted ls).length := by
  induction ls generalizing off log with
  | nil => exact ⟨[], rfl, by simp⟩
  | cons l ls ih =>
    cases hf : found log (dotted (l :: ls)) with
    | some pos =>
      rw [compressLabels_of_some hf]
      exact ⟨[], rfl, by simp⟩
    | none =>
      rw [compressLabels_of_none hf]
      obtain ⟨new, hnew, hlen⟩ := ih (off + 1 + l.length) ((dotted (l :: ls), UInt16.ofNat off) :: log)
      have hle := (length_dotted_lt l ls).le
      refine ⟨new ++ [(dotted (l :: ls), UInt16.ofNat off)], by rw [hnew]; simp, ?_⟩
      intro e he
      rcases List.mem_append.mp he with he | he
      · exact (hlen e he).trans hle
      · rw [List.mem_singleton.mp he]

/-- Something is written for each name. -/
theorem compressLabels_ne_nil (ls : List Label) (off : ℕ) (log : Log) :
    0 < (compressLabels ls off log).1.length := by
  cases ls with
  | nil => simp [compressLabels_nil]
  | cons l ls =>
    cases hf : found log (dotted (l :: ls)) with
    | some pos => simp [compressLabels_of_some hf]
    | none =>
      rw [compressLabels_of_none hf, List.length_append, l.length_wire]
      omega

/-- What is added to the log are the tails of the name, with places in what is written. -/
theorem compressLabels_added (hfit : off + (compressLabels ls off log).1.length ≤ POINTER_MAX) :
    ∀ e ∈ (compressLabels ls off log).2, e ∈ log ∨
      (∃ us vs, ls = us ++ vs ∧ vs ≠ [] ∧ e.1 = dotted vs) ∧
        e.2.toNat < off + (compressLabels ls off log).1.length := by
  induction ls generalizing off log with
  | nil => exact fun e he => Or.inl he
  | cons l ls ih =>
    cases hf : found log (dotted (l :: ls)) with
    | some pos =>
      rw [compressLabels_of_some hf]
      exact fun e he => Or.inl he
    | none =>
      rw [compressLabels_of_none hf] at hfit ⊢
      -- Something is written after the label, so its place is before the end.
      have hpos := compressLabels_ne_nil ls (off + 1 + l.length)
        ((dotted (l :: ls), UInt16.ofNat off) :: log)
      have hrest := @ih ((dotted (l :: ls), UInt16.ofNat off) :: log) (off + 1 + l.length)
      rw [List.length_append, l.length_wire] at hfit ⊢
      intro e he
      rcases hrest (by omega) e he with he | ⟨⟨us, vs, rfl, hvs, hkey⟩, hlt⟩
      · rcases List.mem_cons.mp he with rfl | he
        · refine Or.inr ⟨⟨[], l :: ls, rfl, by simp, rfl⟩, ?_⟩
          unfold POINTER_MAX at hfit
          rw [UInt16.toNat_ofNat']
          omega
        · exact Or.inl he
      · exact Or.inr ⟨⟨l :: us, vs, rfl, hvs, hkey⟩, by omega⟩

/-- Writing a name keeps the log fresh. -/
theorem Fresh.compressLabels (h : Fresh log) (ls : List Label) (off : ℕ) :
    Fresh (compressLabels ls off log).2 := by
  induction ls generalizing off log with
  | nil => exact h
  | cons l ls ih =>
    cases hf : found log (dotted (l :: ls)) with
    | some pos =>
      rw [compressLabels_of_some hf]
      exact h
    | none =>
      rw [compressLabels_of_none hf]
      have h' : Fresh ((dotted (l :: ls), UInt16.ofNat off) :: log) := ⟨hf, h⟩
      exact ih h' _

/-- A name that no node keeps whole is not found. -/
theorem found_of_long (h : HASH_KEY_MAX_LEN < s.length) : found log s = none := by
  rw [found_eq_none_iff]
  intro e _ ha
  have hle := ha.length_le.1
  omega

/-- The tails of a name that are too long to be found are all put in. -/
theorem mem_compressLabels_of_long (hvs : vs ≠ []) (hlong : HASH_KEY_MAX_LEN < (dotted vs).length) :
    ∃ o, (dotted vs, o) ∈ (compressLabels (us ++ vs) off log).2 := by
  induction us generalizing off log with
  | nil =>
    obtain ⟨v, vs, rfl⟩ := List.exists_cons_of_ne_nil hvs
    rw [List.nil_append, compressLabels_of_none (found_of_long hlong)]
    obtain ⟨new, hnew, -⟩ := compressLabels_log vs (off + 1 + v.length)
      ((dotted (v :: vs), UInt16.ofNat off) :: log)
    exact ⟨UInt16.ofNat off, by simp only [hnew]; simp⟩
  | cons u us ih =>
    have hlong' : HASH_KEY_MAX_LEN < (dotted (u :: (us ++ vs))).length :=
      hlong.trans_le (length_dotted_le (u :: us) vs)
    rw [List.cons_append, compressLabels_of_none (found_of_long hlong')]
    exact ih

/-- A name with a tail that is confused, with a name put in before it or with a longer tail of its
own, is written as the labels before the tail and a pointer to one that confuses it. -/
theorem compressLabels_of_confuses (hfresh : Fresh log) (hvs : vs ≠ [])
    (hlen : (dotted vs).length = HASH_KEY_MAX_LEN)
    (h : (∃ e ∈ log, Confuses e.1 (dotted vs)) ∨
      ∃ us₁ us₂, us = us₁ ++ us₂ ∧ Confuses (dotted (us₂ ++ vs)) (dotted vs)) (off : ℕ) :
    ∃ key pos, (key, pos) ∈ (compressLabels (us ++ vs) off log).2 ∧ HASH_KEY_MAX_LEN < key.length ∧
      (compressLabels (us ++ vs) off log).1 = wires us ++ htons (0xc000 ||| pos) := by
  induction us generalizing off log with
  | nil =>
    obtain ⟨v, vs, rfl⟩ := List.exists_cons_of_ne_nil hvs
    obtain ⟨e, he, hc⟩ : ∃ e ∈ log, Confuses e.1 (dotted (v :: vs)) := by
      rcases h with h | ⟨us₁, us₂, hnil, hc⟩
      · exact h
      · -- A name does not confuse itself.
        obtain ⟨-, rfl⟩ := List.append_eq_nil_iff.mp hnil.symm
        exact absurd hc.1 (by rw [List.nil_append, hlen]; omega)
    obtain ⟨key, pos, hpos, hmem, hlong⟩ := found_of_confuses hfresh he hc
    rw [List.nil_append, compressLabels_of_some hpos]
    exact ⟨key, pos, hmem, hlong, rfl⟩
  | cons u us ih =>
    -- The longer tails are not found, and are put in.
    have hlong : HASH_KEY_MAX_LEN < (dotted (u :: (us ++ vs))).length := by
      have h₁ := length_dotted_lt u (us ++ vs)
      have h₂ := length_dotted_le us vs
      omega
    have hnone : found log (dotted (u :: (us ++ vs))) = none := found_of_long hlong
    rw [List.cons_append, compressLabels_of_none hnone]
    have hfresh' : Fresh ((dotted (u :: (us ++ vs)), UInt16.ofNat off) :: log) := ⟨hnone, hfresh⟩
    have h' : (∃ e ∈ (dotted (u :: (us ++ vs)), UInt16.ofNat off) :: log, Confuses e.1 (dotted vs)) ∨
        ∃ us₁ us₂, us = us₁ ++ us₂ ∧ Confuses (dotted (us₂ ++ vs)) (dotted vs) := by
      rcases h with ⟨e, he, hc⟩ | ⟨us₁, us₂, heq, hc⟩
      · exact Or.inl ⟨e, List.mem_cons_of_mem _ he, hc⟩
      · rcases us₁ with _ | ⟨w, us₁⟩
        -- The whole name confuses the tail, and it is in the log by then.
        · refine Or.inl ⟨_, List.mem_cons_self, ?_⟩
          rw [List.nil_append] at heq
          rwa [← heq, List.cons_append] at hc
        · rw [List.cons_append] at heq
          exact Or.inr ⟨us₁, us₂, (List.cons.inj heq).2, hc⟩
    obtain ⟨key, pos, hmem, hkey, hbytes⟩ := ih hfresh' h' (off + 1 + u.length)
    exact ⟨key, pos, hmem, hkey, by rw [hbytes, wires_cons, List.append_assoc]⟩

/-! ## What is read at a place of the log -/

/-- At a position, reading comes to a name of the log that is at least as long as `s`: it is there,
or a pointer to it is. -/
inductive Reaches (B : List UInt8) (log : Log) (n : ℕ) (s : List UInt8) : Prop
  | entry (key : List UInt8) (pos : UInt16) (mem : (key, pos) ∈ log) (pos_eq : pos.toNat = n)
      (le : s.length ≤ key.length)
  | pointer (key : List UInt8) (pos : UInt16) (mem : (key, pos) ∈ log) (le : s.length ≤ key.length)
      (hi lo : UInt8) (hhi : B[n]? = some hi) (hp : hi ≥ POINTER) (hlo : B[n + 1]? = some lo)
      (target : pointerTarget hi lo = pos.toNat)

/-- A name of the log starts with its first label, and after that reading comes to a name at least as
long as the rest. -/
def Continues (B : List UInt8) (log : Log) (e : List UInt8 × UInt16) : Prop :=
  ∃ l ls, e.1 = dotted (l :: ls) ∧ LabelAt B e.2.toNat l ∧
    (ls = [] ∨ Reaches B log (e.2.toNat + 1 + l.length) (dotted ls))

theorem Reaches.mono {log' : Log} (h : Reaches B log n s) (hsub : ∀ e ∈ log, e ∈ log') :
    Reaches B log' n s := by
  cases h with
  | entry key pos mem pos_eq le => exact .entry key pos (hsub _ mem) pos_eq le
  | pointer key pos mem le hi lo hhi hp hlo target =>
    exact .pointer key pos (hsub _ mem) le hi lo hhi hp hlo target

theorem Continues.mono {log' : Log} {e : List UInt8 × UInt16} (h : Continues B log e)
    (hsub : ∀ e ∈ log, e ∈ log') : Continues B log' e := by
  obtain ⟨l, ls, he, hl, hrest⟩ := h
  exact ⟨l, ls, he, hl, hrest.imp_right fun hr => hr.mono hsub⟩

/-- Where reading comes to a name, there is no root. -/
theorem Reaches.ne_root (hlog : ∀ e ∈ log, Continues B log e) (h : Reaches B log n s) :
    B[n]? ≠ some 0 := by
  intro h0
  cases h with
  | entry key pos mem pos_eq =>
    obtain ⟨l, ls, -, hl, -⟩ := hlog _ mem
    rw [← pos_eq] at h0
    exact l.len_ne_zero (Option.some.inj (hl.len.symm.trans h0))
  | pointer key pos mem le hi lo hhi hp =>
    exact ne_zero_of_pointer hp (Option.some.inj (hhi.symm.trans h0))

/-- What is read where a name of the log is, or a pointer to it, is at least as long as the name. -/
theorem length_le_of_reaches (hlog : ∀ e ∈ log, Continues B log e) {name : List UInt8} {e : ℕ}
    (hname : NameAt B 0 n name e) (h : Reaches B log n s) : s.length ≤ name.length := by
  induction hname generalizing s with
  | root h0 => exact absurd h0 (h.ne_root hlog)
  | pointer hhi hp hlo target ih =>
    cases h with
    | entry key pos mem pos_eq =>
      -- A label is no pointer.
      obtain ⟨l, ls, -, hl, -⟩ := hlog _ mem
      rw [pos_eq] at hl
      exact absurd hp (hl.not_pointer hhi)
    | pointer key pos mem le hi lo hhi' hp' hlo' htarget =>
      obtain rfl := Option.some.inj (hhi.symm.trans hhi')
      obtain rfl := Option.some.inj (hlo.symm.trans hlo')
      exact le.trans (ih (.entry key pos mem (by rw [Nat.zero_add, htarget]) le_rfl))
  | last hlen hne hnp hle hroot =>
    cases h with
    | entry key pos mem pos_eq le =>
      obtain ⟨l, ls, rfl, hl, hrest⟩ := hlog _ mem
      rw [pos_eq] at hl hrest
      obtain rfl := Option.some.inj (hl.len.symm.trans hlen)
      rw [hl.take_eq]
      rcases hrest with rfl | hrest
      · exact le
      · rw [l.toNat_len] at hroot
        exact absurd hroot (hrest.ne_root hlog)
    | pointer key pos mem le hi lo hhi hp =>
      obtain rfl := Option.some.inj (hlen.symm.trans hhi)
      exact absurd hp hnp
  | more hlen hne hnp hle hroot rest ih =>
    cases h with
    | entry key pos mem pos_eq le =>
      obtain ⟨l, ls, rfl, hl, hrest⟩ := hlog _ mem
      rw [pos_eq] at hl hrest
      obtain rfl := Option.some.inj (hl.len.symm.trans hlen)
      rw [hl.take_eq, List.length_append, List.length_cons]
      by_cases hls : ls = []
      · rw [hls] at le
        have hle' : s.length ≤ l.bytes.length := le
        omega
      · rw [dotted_cons_of_ne_nil l hls, List.length_append, List.length_cons] at le
        have hrest' := hrest.resolve_left hls
        rw [← l.toNat_len] at hrest'
        have := ih hrest'
        omega
    | pointer key pos mem le hi lo hhi hp =>
      obtain rfl := Option.some.inj (hlen.symm.trans hhi)
      exact absurd hp hnp

/-- What is written at the end of a prefix of the buffer. -/
theorem pointer_at {Q R : List UInt8} {pos : UInt16} (hpos : pos.toNat < POINTER_MAX)
    (hB : B = Q ++ (htons (0xc000 ||| pos) ++ R)) :
    ∃ hi lo, htons (0xc000 ||| pos) = [hi, lo] ∧ B[Q.length]? = some hi ∧ hi ≥ POINTER ∧
      B[Q.length + 1]? = some lo ∧ pointerTarget hi lo = pos.toNat := by
  obtain ⟨hi, lo, hbytes, hp, htarget⟩ := exists_htons_pointer hpos
  rw [hbytes] at hB
  exact ⟨hi, lo, hbytes, by simp [hB], hp, by simp [hB], htarget⟩

/-- After a name is written, reading comes to it where it starts, and goes on from there and from its
tails as it should. -/
theorem compressLabels_continues {Q R : List UInt8} (hB : B = Q ++ ((compressLabels ls Q.length log).1 ++ R))
    (hfit : B.length ≤ POINTER_MAX) (hlog : ∀ e ∈ log, e.2.toNat < POINTER_MAX) :
    (ls ≠ [] → Reaches B (compressLabels ls Q.length log).2 Q.length (dotted ls)) ∧
      ∀ e ∈ (compressLabels ls Q.length log).2,
        e ∈ log ∨ Continues B (compressLabels ls Q.length log).2 e := by
  induction ls generalizing Q log with
  | nil => exact ⟨fun h => absurd rfl h, fun e he => Or.inl he⟩
  | cons l ls ih =>
    cases hf : found log (dotted (l :: ls)) with
    | some pos =>
      rw [compressLabels_of_some hf] at hB ⊢
      refine ⟨fun _ => ?_, fun e he => Or.inl he⟩
      obtain ⟨key, mem, hhits⟩ := exists_of_found hf
      obtain ⟨hi, lo, -, hhi, hp, hlo, htarget⟩ := pointer_at (hlog _ mem) hB
      exact .pointer key pos mem hhits.length_le.2 hi lo hhi hp hlo htarget
    | none =>
      rw [compressLabels_of_none hf] at hB ⊢
      have hnext := l.length_append_wire Q
      rw [hnext] at hB ⊢
      have hQ : Q.length < POINTER_MAX := by
        have hlen := congrArg List.length hB
        rw [List.append_assoc, List.length_append, List.length_append, l.length_wire] at hlen
        omega
      -- The place fits a pointer, so its offset is not cut.
      have hoff : (UInt16.ofNat Q.length).toNat = Q.length := by
        unfold POINTER_MAX at hQ
        rw [UInt16.toNat_ofNat']
        omega
      have hlog' : ∀ e ∈ (dotted (l :: ls), UInt16.ofNat Q.length) :: log, e.2.toNat < POINTER_MAX := by
        intro e he
        rcases List.mem_cons.mp he with rfl | he
        · rw [hoff]
          exact hQ
        · exact hlog e he
      have hB' := hB
      rw [List.append_assoc, ← List.append_assoc] at hB'
      obtain ⟨hreach, hcont⟩ := ih hB' hlog'
      obtain ⟨new, hnew, -⟩ := compressLabels_log ls (Q ++ l.wire).length
        ((dotted (l :: ls), UInt16.ofNat Q.length) :: log)
      generalize hlog₁ : (compressLabels ls (Q ++ l.wire).length
        ((dotted (l :: ls), UInt16.ofNat Q.length) :: log)).2 = log₁ at *
      have hmem : (dotted (l :: ls), UInt16.ofNat Q.length) ∈ log₁ := by
        rw [hnew]
        simp
      refine ⟨fun _ => .entry _ _ hmem hoff le_rfl, fun e he => ?_⟩
      -- The new name goes on with the rest, to which reading comes.
      rcases hcont e he with he' | he'
      · rcases List.mem_cons.mp he' with rfl | he'
        · refine Or.inr ⟨l, ls, rfl, ?_, ?_⟩
          · rw [hoff, hB, List.append_assoc]
            exact labelAt_wire l Q _
          · rw [hoff, hnext]
            by_cases hls : ls = []
            · exact Or.inl hls
            · exact Or.inr (hreach hls)
        · exact Or.inl he'
      · exact Or.inr he'

/-! ## Names without confusion -/

/-- No tail of the name is confused, with a name of the log or with a longer tail of the name. -/
def Clean (log : Log) (ls : List Label) : Prop :=
  ∀ us vs, ls = us ++ vs → (∀ e ∈ log, ¬ Confuses e.1 (dotted vs)) ∧
    ∀ us₁ us₂, us = us₁ ++ us₂ → ¬ Confuses (dotted (us₂ ++ vs)) (dotted vs)

/-- The names of the log, up to a length, are in the buffer. -/
def InBuffer (B : List UInt8) (log : Log) (len : ℕ) : Prop :=
  ∀ e ∈ log, e.1.length ≤ len → ∃ e', WfName B e.2.toNat e.1 e'

/-- What is found for a name that is not confused is the name. -/
theorem Clean.mem_of_found (h : Clean log ls) {pos : UInt16} (hf : found log (dotted ls) = some pos) :
    (dotted ls, pos) ∈ log := by
  obtain ⟨key, mem, hhits⟩ := exists_of_found hf
  have hfits : Fits key := by
    by_contra hlong
    exact (h [] ls rfl).1 _ mem ⟨not_le.mp hlong, hhits⟩
  rwa [hhits.eq_of_fits hfits] at mem

/-- After a label, the rest of the name is not confused either. -/
theorem Clean.tail {l : Label} (h : Clean log (l :: ls)) (o : UInt16) :
    Clean ((dotted (l :: ls), o) :: log) ls := by
  intro us vs hls
  have hcons : l :: ls = (l :: us) ++ vs := by rw [hls, List.cons_append]
  obtain ⟨hlog, hown⟩ := h (l :: us) vs hcons
  refine ⟨fun e he => ?_, fun us₁ us₂ hus => hown (l :: us₁) us₂ (by rw [hus, List.cons_append])⟩
  rcases List.mem_cons.mp he with rfl | he
  · have := hown [] (l :: us) rfl
    rwa [← hcons] at this
  · exact hlog e he

/-- Adding a longer name keeps the shorter ones in the buffer. -/
theorem InBuffer.cons {len : ℕ} (h : InBuffer B log len) {k : List UInt8} (hk : len < k.length)
    (o : UInt16) : InBuffer B ((k, o) :: log) len := by
  intro e he hle
  rcases List.mem_cons.mp he with rfl | he
  · exact absurd hle (not_le.mpr hk)
  · exact h e he hle

theorem InBuffer.mono {len len' : ℕ} (h : InBuffer B log len) (hle : len' ≤ len) :
    InBuffer B log len' := fun e he hle' => h e he (hle'.trans hle)

/-- The offset of the place where a name starts. -/
theorem toNat_ofNat_length {Q rest : List UInt8} (hB : B = Q ++ rest) (hfit : B.length ≤ POINTER_MAX) :
    (UInt16.ofNat Q.length).toNat = Q.length := by
  rw [hB] at hfit
  exact toNat_offset hfit

/-- The offsets of a log are behind the place after a label, when the label's own is put in. -/
theorem lt_length_append_wire {Q : List UInt8} (hoff : (UInt16.ofNat Q.length).toNat = Q.length)
    (hlog : ∀ e ∈ log, e.2.toNat < Q.length) (l : Label) (key : List UInt8) :
    ∀ e ∈ (key, UInt16.ofNat Q.length) :: log, e.2.toNat < (Q ++ l.wire).length := by
  intro e he
  rw [← l.length_append_wire Q]
  rcases List.mem_cons.mp he with rfl | he
  · rw [hoff]
    omega
  · have := hlog e he
    omega

/-- The pointer for a name that is not confused leads back to the name. -/
theorem Clean.pointer_at {Q R : List UInt8} {pos : UInt16} (hclean : Clean log ls)
    (hf : found log (dotted ls) = some pos) (hB : B = Q ++ (htons (0xc000 ||| pos) ++ R))
    (hfit : B.length ≤ POINTER_MAX) (hlog : ∀ e ∈ log, e.2.toNat < Q.length)
    (hin : InBuffer B log (dotted ls).length) :
    ∃ hi lo, htons (0xc000 ||| pos) = [hi, lo] ∧ B[Q.length]? = some hi ∧ hi ≥ POINTER ∧
      B[Q.length + 1]? = some lo ∧ pointerTarget hi lo < Q.length ∧
      ∃ e, WfName B (pointerTarget hi lo) (dotted ls) e := by
  have hmem := hclean.mem_of_found hf
  have hlt : pos.toNat < Q.length := hlog _ hmem
  have hQ : Q.length ≤ B.length := by
    rw [hB, List.length_append]
    omega
  obtain ⟨hi, lo, hbytes, hhi, hp, hlo, htarget⟩ := DnsRelayer.pointer_at (by omega) hB
  rw [← htarget] at hlt
  obtain ⟨e, hwf⟩ := hin _ hmem le_rfl
  rw [← htarget] at hwf
  exact ⟨hi, lo, hbytes, hhi, hp, hlo, hlt, e, hwf⟩

/-- A name that is not confused is where it is written, and so are its tails that are added to the
log. -/
theorem compressLabels_sound {Q R : List UInt8} (hne : ls ≠ [])
    (hB : B = Q ++ ((compressLabels ls Q.length log).1 ++ R)) (hfit : B.length ≤ POINTER_MAX)
    (hlog : ∀ e ∈ log, e.2.toNat < Q.length) (hclean : Clean log ls)
    (hin : InBuffer B log (dotted ls).length) :
    WfName B Q.length (dotted ls) (Q.length + (compressLabels ls Q.length log).1.length) ∧
      InBuffer B (compressLabels ls Q.length log).2 (dotted ls).length := by
  induction ls generalizing Q log with
  | nil => exact absurd rfl hne
  | cons l ls ih =>
    cases hf : found log (dotted (l :: ls)) with
    | some pos =>
      rw [compressLabels_of_some hf] at hB ⊢
      obtain ⟨hi, lo, -, hhi, hp, hlo, hlt, e, hwf⟩ := hclean.pointer_at hf hB hfit hlog hin
      exact ⟨.pointer hhi hp hlo hlt hwf, hin⟩
    | none =>
      rw [compressLabels_of_none hf] at hB ⊢
      have hoff := toNat_ofNat_length hB hfit
      have hlt := length_dotted_lt l ls
      have hlabel : LabelAt B Q.length l := by
        rw [hB, List.append_assoc]
        exact labelAt_wire l Q _
      have hnext := l.length_append_wire Q
      rw [hnext] at hB ⊢
      have hlog' := lt_length_append_wire hoff hlog l (dotted (l :: ls))
      have hin' := (hin.mono hlt.le).cons hlt (UInt16.ofNat Q.length)
      rw [List.append_assoc, ← List.append_assoc] at hB
      obtain ⟨new, hnew, hshort⟩ := compressLabels_log ls (Q ++ l.wire).length
        ((dotted (l :: ls), UInt16.ofNat Q.length) :: log)
      -- The rest of the name: a root, or labels.
      obtain ⟨hwf, hin₁⟩ : WfName B Q.length (dotted (l :: ls))
          ((Q ++ l.wire).length + (compressLabels ls (Q ++ l.wire).length
            ((dotted (l :: ls), UInt16.ofNat Q.length) :: log)).1.length) ∧
          InBuffer B (compressLabels ls (Q ++ l.wire).length
            ((dotted (l :: ls), UInt16.ofNat Q.length) :: log)).2 (dotted ls).length := by
        by_cases hls : ls = []
        · subst hls
          rw [compressLabels_nil] at hB ⊢
          have hroot : B[Q.length + 1 + l.length]? = some 0 := by
            rw [hnext]
            simp [hB]
          refine ⟨?_, hin'⟩
          rw [← hnext]
          exact .last hlabel hroot
        · obtain ⟨hwf, hin₁⟩ := ih hls hB hlog' (hclean.tail _) hin'
          refine ⟨?_, hin₁⟩
          have hroot := hwf.ne_root (dotted_ne_nil hls)
          rw [← hnext] at hwf hroot ⊢
          have hmore := WfName.more hlabel hroot hwf
          rwa [← dotted_cons_of_ne_nil l hls] at hmore
      generalize compressLabels ls (Q ++ l.wire).length
        ((dotted (l :: ls), UInt16.ofNat Q.length) :: log) = r at *
      have hend : Q.length + (l.wire ++ r.1).length = (Q ++ l.wire).length + r.1.length := by
        rw [List.length_append, List.length_append]
        omega
      rw [hend]
      refine ⟨hwf, fun e he hle => ?_⟩
      by_cases hlong : e.1.length ≤ (dotted ls).length
      · exact hin₁ e he hlong
      · simp only [hnew] at he
        rcases List.mem_append.mp he with he | he
        · exact absurd (hshort e he) hlong
        · rcases List.mem_cons.mp he with rfl | he
          · rw [hoff]
            exact ⟨_, hwf⟩
          · exact hin e he hle

/-- A pointer that is written for a tail of a name that is not confused leads to the tail. -/
theorem pointer_of_clean {Q R : List UInt8} {hi lo : UInt8} (hvs : vs ≠ [])
    (hB : B = Q ++ ((compressLabels (us ++ vs) Q.length log).1 ++ R)) (hfit : B.length ≤ POINTER_MAX)
    (hlog : ∀ e ∈ log, e.2.toNat < Q.length) (hclean : Clean log (us ++ vs))
    (hin : InBuffer B log (dotted (us ++ vs)).length)
    (hbytes : (compressLabels (us ++ vs) Q.length log).1 = wires us ++ [hi, lo]) (hp : hi ≥ POINTER) :
    pointerTarget hi lo < Q.length + (wires us).length ∧
      ∃ e, WfName B (pointerTarget hi lo) (dotted vs) e := by
  induction us generalizing Q log with
  | nil =>
    obtain ⟨v, vs, rfl⟩ := List.exists_cons_of_ne_nil hvs
    rw [List.nil_append] at *
    cases hf : found log (dotted (v :: vs)) with
    | none =>
      -- A label is no pointer.
      rw [compressLabels_of_none hf] at hbytes
      have hhead := List.head_eq_of_cons_eq (show v.len :: _ = hi :: _ from hbytes)
      rw [← hhead] at hp
      exact absurd hp v.not_pointer
    | some pos =>
      rw [compressLabels_of_some hf] at hB hbytes
      obtain ⟨hi', lo', hbytes', -, -, -, hlt, hwf⟩ := hclean.pointer_at hf hB hfit hlog hin
      obtain ⟨rfl, rfl⟩ : hi' = hi ∧ lo' = lo := by
        have := hbytes'.symm.trans hbytes
        simpa [wires] using this
      exact ⟨by omega, hwf⟩
  | cons u us ih =>
    rw [List.cons_append] at *
    cases hf : found log (dotted (u :: (us ++ vs))) with
    | some pos =>
      -- A pointer is no label.
      rw [compressLabels_of_some hf] at hB hbytes
      obtain ⟨hi', lo', hbytes', -, hp', -, -⟩ := hclean.pointer_at hf hB hfit hlog hin
      rw [hbytes', wires_cons] at hbytes
      have hhead := List.head_eq_of_cons_eq (show hi' :: [lo'] = u.len :: _ from hbytes)
      rw [hhead] at hp'
      exact absurd hp' u.not_pointer
    | none =>
      rw [compressLabels_of_none hf] at hB hbytes
      have hoff := toNat_ofNat_length hB hfit
      have hlt := length_dotted_lt u (us ++ vs)
      have hnext := u.length_append_wire Q
      rw [hnext, wires_cons, List.append_assoc] at hbytes
      rw [hnext, List.append_assoc, ← List.append_assoc] at hB
      have hlog' := lt_length_append_wire hoff hlog u (dotted (u :: (us ++ vs)))
      obtain ⟨hback, e, hwf⟩ := ih hB hlog' (hclean.tail _)
        ((hin.mono hlt.le).cons hlt (UInt16.ofNat Q.length)) (List.append_cancel_left hbytes)
      refine ⟨?_, e, hwf⟩
      rw [wires_cons, List.length_append]
      rw [List.length_append] at hback
      omega

end DnsRelayer
