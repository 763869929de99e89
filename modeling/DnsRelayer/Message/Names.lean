import DnsRelayer.Message.Decode
import DnsRelayer.Lib.Orbit

/-!
# Names in a datagram

What `decodeName` does, without its fuel. `hop` is the arrow that it follows: from a label to what
comes after the label, and from a pointer to where it points. Following it from the start of a name
either stops, at a root or at the end of the bytes, or goes round in a circle: `decodeName` returns
or faults in the first case, and does not return in the second (`exists_fuel_iff`); the code has
nothing that would stop a circle. `NameAt` says what the name is when it returns
(`decodeName_eq_ok_iff`).
-/

namespace DnsRelayer

open Lib

variable {buf : List UInt8} {origin fuel pos num : ℕ} {name : List UInt8}

/-! ## Reads -/

theorem byteAt_eq_ok {b : UInt8} : byteAt buf pos = .ok b ↔ buf[pos]? = some b := by
  unfold byteAt
  split <;> simp_all

theorem byteAt_of_getElem? {b : UInt8} (h : buf[pos]? = some b) : byteAt buf pos = .ok b :=
  byteAt_eq_ok.mpr h

theorem byteAt_of_none (h : buf[pos]? = none) : byteAt buf pos = .error (.outOfBounds pos) := by
  rw [byteAt, h]

theorem bytesAt_of_le {n : ℕ} (h : pos + n ≤ buf.length) :
    bytesAt buf pos n = .ok ((buf.drop pos).take n) := if_pos h

/-! ## The arrow between labels -/

/-- Where `decodeName` goes on from a length byte: after the label, or where the pointer points. It
goes nowhere from a root, or from the end of the bytes. -/
def hop (buf : List UInt8) (origin pos : ℕ) : Option ℕ :=
  match buf[pos]? with
  | none => none
  | some len =>
    if len = 0 then none
    else if len ≥ POINTER then buf[pos + 1]?.map (origin + pointerTarget len ·)
    else if pos + 1 + len.toNat ≤ buf.length then some (pos + 1 + len.toNat)
    else none

theorem hop_of_pointer {len lo : UInt8} (h : buf[pos]? = some len) (hne : len ≠ 0)
    (hp : len ≥ POINTER) (hlo : buf[pos + 1]? = some lo) :
    hop buf origin pos = some (origin + pointerTarget len lo) := by
  simp [hop, h, hne, hp, hlo]

theorem hop_of_label {len : UInt8} (h : buf[pos]? = some len) (hne : len ≠ 0)
    (hp : ¬ len ≥ POINTER) (hlen : pos + 1 + len.toNat ≤ buf.length) :
    hop buf origin pos = some (pos + 1 + len.toNat) := by
  simp [hop, h, hne, hp, hlen]

/-- A name goes on only from a byte. -/
theorem lt_of_hop {q : ℕ} (h : hop buf origin pos = some q) : pos < buf.length := by
  by_contra hge
  have hnone : buf[pos]? = none := List.getElem?_eq_none (by omega)
  simp [hop, hnone] at h

/-! ## What the two functions do at a byte -/

theorem decodeName_of_none (h : buf[pos]? = none) :
    decodeName buf origin (fuel + 1) pos = .error (.outOfBounds pos) := by
  rw [decodeName, byteAt_of_none h, Run.error_bind]

theorem decodeName_of_root (h : buf[pos]? = some 0) :
    decodeName buf origin (fuel + 1) pos = .ok ([], pos + 1) := by
  rw [decodeName, byteAt_of_getElem? h]
  rfl

theorem decodeName_of_ne_zero {len : UInt8} (h : buf[pos]? = some len) (hne : len ≠ 0) :
    decodeName buf origin (fuel + 1) pos = nameLoop buf origin fuel pos [] := by
  rw [decodeName, byteAt_of_getElem? h, Run.ok_bind, if_neg hne]

theorem nameLoop_of_none (h : buf[num]? = none) :
    nameLoop buf origin (fuel + 1) num name = .error (.outOfBounds num) := by
  rw [nameLoop, byteAt_of_none h, Run.error_bind]

theorem nameLoop_of_root (h : buf[num]? = some 0) :
    nameLoop buf origin (fuel + 1) num name = .ok (name.dropLast, num + 1) := by
  rw [nameLoop, byteAt_of_getElem? h]
  rfl

theorem nameLoop_of_half {len : UInt8} (h : buf[num]? = some len) (hne : len ≠ 0)
    (hp : len ≥ POINTER) (hlo : buf[num + 1]? = none) :
    nameLoop buf origin (fuel + 1) num name = .error (.outOfBounds (num + 1)) := by
  rw [nameLoop, byteAt_of_getElem? h, Run.ok_bind, if_neg hne, if_pos hp, byteAt_of_none hlo,
    Run.error_bind]

theorem nameLoop_of_pointer {len lo : UInt8} (h : buf[num]? = some len) (hne : len ≠ 0)
    (hp : len ≥ POINTER) (hlo : buf[num + 1]? = some lo) :
    nameLoop buf origin (fuel + 1) num name =
      (do
        let (rest, _) ← decodeName buf origin fuel (origin + pointerTarget len lo)
        return (name ++ rest, num + 2)) := by
  rw [nameLoop, byteAt_of_getElem? h, Run.ok_bind, if_neg hne, if_pos hp,
    byteAt_of_getElem? hlo, Run.ok_bind]

theorem nameLoop_of_cut {len : UInt8} (h : buf[num]? = some len) (hne : len ≠ 0)
    (hp : ¬ len ≥ POINTER) (hlen : ¬ num + 1 + len.toNat ≤ buf.length) :
    nameLoop buf origin (fuel + 1) num name =
      .error (.outOfBounds (max (num + 1) buf.length)) := by
  rw [nameLoop, byteAt_of_getElem? h, Run.ok_bind, if_neg hne, if_neg hp, bytesAt, if_neg hlen,
    Run.error_bind]

theorem nameLoop_of_label {len : UInt8} (h : buf[num]? = some len) (hne : len ≠ 0)
    (hp : ¬ len ≥ POINTER) (hlen : num + 1 + len.toNat ≤ buf.length) :
    nameLoop buf origin (fuel + 1) num name =
      nameLoop buf origin fuel (num + 1 + len.toNat)
        (name ++ (buf.drop (num + 1)).take len.toNat ++ [DOT]) := by
  rw [nameLoop, byteAt_of_getElem? h, Run.ok_bind, if_neg hne, if_neg hp, bytesAt_of_le hlen,
    Run.ok_bind]

/-- What the loop of `decodeName` does at a byte, however much fuel it has. -/
inductive LoopStep (buf : List UInt8) (origin num : ℕ) : Prop
  /-- It returns or faults. -/
  | stops (hop_eq : hop buf origin num = none) (r : List UInt8 → Run (List UInt8 × ℕ))
      (hr : ∀ name, r name ≠ .error .diverges)
      (eq : ∀ fuel name, nameLoop buf origin (fuel + 1) num name = r name)
  /-- It follows a pointer. -/
  | points (q : ℕ) (hop_eq : hop buf origin num = some q)
      (eq : ∀ fuel name, nameLoop buf origin (fuel + 1) num name =
        (do
          let (rest, _) ← decodeName buf origin fuel q
          return (name ++ rest, num + 2)))
  /-- It copies a label. -/
  | copies (q : ℕ) (label : List UInt8) (hop_eq : hop buf origin num = some q)
      (eq : ∀ fuel name, nameLoop buf origin (fuel + 1) num name =
        nameLoop buf origin fuel q (name ++ label ++ [DOT]))

theorem loopStep (buf : List UInt8) (origin num : ℕ) : LoopStep buf origin num := by
  cases h : buf[num]? with
  | none =>
    exact .stops (by simp [hop, h]) _ (by simp) fun _ _ => nameLoop_of_none h
  | some len =>
    by_cases hne : len = 0
    · subst hne
      exact .stops (by simp [hop, h]) _ (by simp) fun _ _ => nameLoop_of_root h
    by_cases hp : len ≥ POINTER
    · cases hlo : buf[num + 1]? with
      | none =>
        exact .stops (by simp [hop, h, hne, hp, hlo]) _ (by simp)
          fun _ _ => nameLoop_of_half h hne hp hlo
      | some lo =>
        exact .points _ (hop_of_pointer h hne hp hlo) fun _ _ => nameLoop_of_pointer h hne hp hlo
    · by_cases hlen : num + 1 + len.toNat ≤ buf.length
      · exact .copies _ _ (hop_of_label h hne hp hlen) fun _ _ => nameLoop_of_label h hne hp hlen
      · exact .stops (by simp [hop, h, hne, hp, hlen]) _ (by simp)
          fun _ _ => nameLoop_of_cut h hne hp hlen

/-- What `decodeName` does at a byte: it returns or faults, or it starts its loop. -/
theorem decodeName_cases (buf : List UInt8) (origin pos : ℕ) :
    (hop buf origin pos = none ∧ ∃ r, r ≠ .error .diverges ∧
      ∀ fuel, decodeName buf origin (fuel + 1) pos = r) ∨
    ∀ fuel, decodeName buf origin (fuel + 1) pos = nameLoop buf origin fuel pos [] := by
  cases h : buf[pos]? with
  | none => exact Or.inl ⟨by simp [hop, h], _, by simp, fun _ => decodeName_of_none h⟩
  | some len =>
    by_cases hne : len = 0
    · subst hne
      exact Or.inl ⟨by simp [hop, h], _, by simp, fun _ => decodeName_of_root h⟩
    · exact Or.inr fun _ => decodeName_of_ne_zero h hne

/-! ## Termination -/

/-- A result, other than running out of fuel, does not depend on how much fuel is left. -/
theorem fuel_mono (buf : List UInt8) (origin fuel : ℕ) :
    (∀ pos, decodeName buf origin fuel pos ≠ .error .diverges →
      decodeName buf origin (fuel + 1) pos = decodeName buf origin fuel pos) ∧
    ∀ num name, nameLoop buf origin fuel num name ≠ .error .diverges →
      nameLoop buf origin (fuel + 1) num name = nameLoop buf origin fuel num name := by
  -- On the fuel, for the function and its loop at once: each calls the other with less.
  induction fuel with
  | zero => exact ⟨fun _ h => absurd rfl h, fun _ _ h => absurd rfl h⟩
  | succ fuel ih =>
    obtain ⟨ihName, ihLoop⟩ := ih
    constructor
    · intro pos hne
      rcases decodeName_cases buf origin pos with ⟨-, r, -, heq⟩ | heq
      · rw [heq, heq]
      · rw [heq] at hne ⊢
        rw [heq, ihLoop pos [] hne]
    · intro num name hne
      rcases loopStep buf origin num with ⟨-, r, -, heq⟩ | ⟨q, -, heq⟩ | ⟨q, label, -, heq⟩
      · rw [heq, heq]
      · rw [heq] at hne ⊢
        rw [heq, ihName q fun he => hne (by rw [he]; rfl)]
      · rw [heq] at hne ⊢
        rw [heq, ihLoop q _ hne]

/-- A result holds with any further fuel. -/
theorem decodeName_mono {fuel' : ℕ} (hle : fuel ≤ fuel')
    (h : decodeName buf origin fuel pos ≠ .error .diverges) :
    decodeName buf origin fuel' pos = decodeName buf origin fuel pos := by
  induction fuel', hle using Nat.le_induction with
  | base => rfl
  | succ n _ ih => rw [(fuel_mono buf origin n).1 pos (by rw [ih]; exact h), ih]

theorem nameLoop_mono {fuel' : ℕ} (hle : fuel ≤ fuel')
    (h : nameLoop buf origin fuel num name ≠ .error .diverges) :
    nameLoop buf origin fuel' num name = nameLoop buf origin fuel num name := by
  induction fuel', hle using Nat.le_induction with
  | base => rfl
  | succ n _ ih => rw [(fuel_mono buf origin n).2 num name (by rw [ih]; exact h), ih]

/-- Where the arrow stops after `k` steps, two units of fuel for each are enough. -/
theorem returns_of_halts {k : ℕ} (h : Halts (hop buf origin) k pos) :
    (∀ fuel, 2 * k + 2 ≤ fuel → decodeName buf origin fuel pos ≠ .error .diverges) ∧
      ∀ fuel name, 2 * k + 1 ≤ fuel → nameLoop buf origin fuel pos name ≠ .error .diverges := by
  have hloop : ∀ fuel name, 2 * k + 1 ≤ fuel →
      nameLoop buf origin fuel pos name ≠ .error .diverges := by
    induction k generalizing pos with
    | zero =>
      intro fuel name hfuel
      obtain ⟨f, rfl⟩ : ∃ f, fuel = f + 1 := ⟨fuel - 1, by omega⟩
      have hnone : hop buf origin pos = none := by cases h; assumption
      rcases loopStep buf origin pos with ⟨-, r, hr, heq⟩ | ⟨q, hq, -⟩ | ⟨q, label, hq, -⟩
      · rw [heq]
        exact hr name
      · rw [hnone] at hq; cases hq
      · rw [hnone] at hq; cases hq
    | succ k ih =>
      intro fuel name hfuel
      obtain ⟨f, rfl⟩ : ∃ f, fuel = f + 2 := ⟨fuel - 2, by omega⟩
      obtain ⟨q, hq, hk⟩ : ∃ q, hop buf origin pos = some q ∧ Halts (hop buf origin) k q := by
        cases h with
        | step h hb => exact ⟨_, h, hb⟩
      rcases loopStep buf origin pos with ⟨hnone, -⟩ | ⟨q', hq', heq⟩ | ⟨q', label, hq', heq⟩
      · rw [hq] at hnone; cases hnone
      · obtain rfl := Option.some.inj (hq.symm.trans hq')
        rw [heq]
        -- The call at the target returns, so the loop does.
        have hcall : decodeName buf origin (f + 1) q ≠ .error .diverges := by
          rcases decodeName_cases buf origin q with ⟨-, r, hr, heq'⟩ | heq'
          · rw [heq']
            exact hr
          · rw [heq']
            exact ih hk f [] (by omega)
        cases hres : decodeName buf origin (f + 1) q with
        | error e =>
          rw [hres] at hcall
          exact hcall
        | ok x =>
          rw [Run.ok_bind]
          intro he
          cases he
      · obtain rfl := Option.some.inj (hq.symm.trans hq')
        rw [heq]
        exact ih hk (f + 1) _ (by omega)
  refine ⟨?_, hloop⟩
  intro fuel hfuel
  obtain ⟨f, rfl⟩ : ∃ f, fuel = f + 1 := ⟨fuel - 1, by omega⟩
  rcases decodeName_cases buf origin pos with ⟨-, r, hr, heq⟩ | heq
  · rw [heq]
    exact hr
  · rw [heq]
    exact hloop f [] (by omega)

/-- Where the arrow leads into a circle, no fuel is enough. -/
theorem diverges_of_circular (fuel : ℕ) :
    (∀ pos, Circular (hop buf origin) pos → decodeName buf origin fuel pos = .error .diverges) ∧
      ∀ num name, Circular (hop buf origin) num →
        nameLoop buf origin fuel num name = .error .diverges := by
  induction fuel with
  | zero => exact ⟨fun _ _ => rfl, fun _ _ _ => rfl⟩
  | succ fuel ih =>
    obtain ⟨ihName, ihLoop⟩ := ih
    constructor
    · intro pos hc
      -- A circle has a next place, so neither stops here.
      obtain ⟨q, hq, -⟩ := hc.leads
      rcases decodeName_cases buf origin pos with ⟨hnone, -⟩ | heq
      · rw [Leads, hnone] at hq; cases hq
      · rw [heq, ihLoop pos [] hc]
    · intro num name hc
      obtain ⟨q, hq, hqc⟩ := hc.leads
      rcases loopStep buf origin num with ⟨hnone, -⟩ | ⟨q', hq', heq⟩ | ⟨q', label, hq', heq⟩
      · rw [Leads, hnone] at hq; cases hq
      · obtain rfl := Option.some.inj (hq.symm.trans hq')
        rw [heq, ihName q hqc]
        rfl
      · obtain rfl := Option.some.inj (hq.symm.trans hq')
        rw [heq, ihLoop q _ hqc]

/-- The arrow leaves only from the bytes of the buffer. -/
theorem hop_mem (buf : List UInt8) (origin : ℕ) :
    ∀ a b, hop buf origin a = some b → a ∈ Finset.range buf.length :=
  fun _ _ h => Finset.mem_range.mpr (lt_of_hop h)

/-- With the fuel that `decode` gives it, `decodeName` runs out of fuel only where the arrow leads
into a circle. -/
theorem decodeName_nameFuel :
    decodeName buf origin (nameFuel buf) pos = .error .diverges ↔
      Circular (hop buf origin) pos := by
  constructor
  · intro hdiv
    by_contra hc
    obtain ⟨k, hk⟩ := (halts_iff (hop_mem buf origin)).mpr hc
    have hle := hk.le_card (hop_mem buf origin)
    rw [Finset.card_range] at hle
    exact (returns_of_halts hk).1 _ (by unfold nameFuel; omega) hdiv
  · exact (diverges_of_circular _).1 pos

/-- `decodeName` returns, or faults at the end of the bytes, after finitely many steps, exactly where
following labels and pointers leads into no circle. -/
theorem exists_fuel_iff :
    (∃ fuel, decodeName buf origin fuel pos ≠ .error .diverges) ↔
      ¬ Circular (hop buf origin) pos := by
  constructor
  · rintro ⟨fuel, hne⟩ hc
    exact hne ((diverges_of_circular fuel).1 pos hc)
  · intro hc
    exact ⟨nameFuel buf, mt decodeName_nameFuel.mp hc⟩

/-- `decodeName` and its loop do not fault in other ways than these two. -/
theorem error_cases (buf : List UInt8) (origin fuel : ℕ) :
    (∀ pos e, decodeName buf origin fuel pos = .error e →
      e = .diverges ∨ ∃ i, e = .outOfBounds i) ∧
    ∀ num name e, nameLoop buf origin fuel num name = .error e →
      e = .diverges ∨ ∃ i, e = .outOfBounds i := by
  induction fuel with
  | zero => exact ⟨fun _ _ h => Or.inl (by cases h; rfl), fun _ _ _ h => Or.inl (by cases h; rfl)⟩
  | succ fuel ih =>
    obtain ⟨ihName, ihLoop⟩ := ih
    constructor
    · intro pos e he
      cases h : buf[pos]? with
      | none =>
        rw [decodeName_of_none h] at he
        exact Or.inr ⟨pos, by cases he; rfl⟩
      | some len =>
        by_cases hne : len = 0
        · rw [decodeName_of_root (hne ▸ h)] at he
          cases he
        · rw [decodeName_of_ne_zero h hne] at he
          exact ihLoop pos [] e he
    · intro num name e he
      -- The turn of the loop, by the byte that it reads.
      cases h : buf[num]? with
      | none =>
        rw [nameLoop_of_none h] at he
        exact Or.inr ⟨num, by cases he; rfl⟩
      | some len =>
        by_cases hne : len = 0
        · rw [nameLoop_of_root (hne ▸ h)] at he
          cases he
        by_cases hp : len ≥ POINTER
        · cases hlo : buf[num + 1]? with
          | none =>
            rw [nameLoop_of_half h hne hp hlo] at he
            exact Or.inr ⟨num + 1, by cases he; rfl⟩
          | some lo =>
            rw [nameLoop_of_pointer h hne hp hlo] at he
            rcases Run.bind_eq_error.mp he with hcall | ⟨r, -, hr⟩
            · exact ihName _ e hcall
            · cases hr
        · by_cases hlen : num + 1 + len.toNat ≤ buf.length
          · rw [nameLoop_of_label h hne hp hlen] at he
            exact ihLoop _ _ e he
          · rw [nameLoop_of_cut h hne hp hlen] at he
            exact Or.inr ⟨_, by cases he; rfl⟩

/-- `decodeName` does not fault in other ways than these two. -/
theorem decodeName_error {e : Fault} (h : decodeName buf origin fuel pos = .error e) :
    e = .diverges ∨ ∃ i, e = .outOfBounds i := (error_cases buf origin fuel).1 pos e h

/-! ## The name -/

/-- The name whose first length byte is at `pos`, as its labels with dots between them, and the
position after it. A label that a pointer to a root follows keeps its dot. -/
inductive NameAt (buf : List UInt8) (origin : ℕ) : ℕ → List UInt8 → ℕ → Prop
  | root {pos : ℕ} (h : buf[pos]? = some 0) : NameAt buf origin pos [] (pos + 1)
  | pointer {pos e : ℕ} {len lo : UInt8} {name : List UInt8} (h : buf[pos]? = some len)
      (hp : len ≥ POINTER) (hlo : buf[pos + 1]? = some lo)
      (target : NameAt buf origin (origin + pointerTarget len lo) name e) :
      NameAt buf origin pos name (pos + 2)
  | last {pos : ℕ} {len : UInt8} (h : buf[pos]? = some len) (hne : len ≠ 0)
      (hp : ¬ len ≥ POINTER) (hlen : pos + 1 + len.toNat ≤ buf.length)
      (hroot : buf[pos + 1 + len.toNat]? = some 0) :
      NameAt buf origin pos ((buf.drop (pos + 1)).take len.toNat) (pos + 1 + len.toNat + 1)
  | more {pos e : ℕ} {len : UInt8} {name : List UInt8} (h : buf[pos]? = some len) (hne : len ≠ 0)
      (hp : ¬ len ≥ POINTER) (hlen : pos + 1 + len.toNat ≤ buf.length)
      (hroot : buf[pos + 1 + len.toNat]? ≠ some 0)
      (rest : NameAt buf origin (pos + 1 + len.toNat) name e) :
      NameAt buf origin pos ((buf.drop (pos + 1)).take len.toNat ++ DOT :: name) e

/-- A pointer is no root. -/
theorem ne_zero_of_pointer {len : UInt8} (hp : len ≥ POINTER) : len ≠ 0 := by
  rintro rfl
  revert hp
  decide

/-- A name is what `decodeName` returns, with some fuel, and what its loop adds to what is written
already. -/
theorem NameAt.exists_fuel {e : ℕ} (h : NameAt buf origin pos name e) :
    ∃ fuel, decodeName buf origin fuel pos = .ok (name, e) ∧
      (buf[pos]? ≠ some 0 → ∀ written,
        nameLoop buf origin fuel pos written = .ok (written ++ name, e)) := by
  -- The loop adds to what is there, so it is shown for whatever is there.
  induction h with
  | root h => exact ⟨1, decodeName_of_root h, fun hne => absurd h hne⟩
  | @pointer pos e len lo name h hp hlo _ ih =>
    obtain ⟨fuel, hok, -⟩ := ih
    have hne := ne_zero_of_pointer hp
    have hloop : ∀ f, fuel ≤ f → ∀ written,
        nameLoop buf origin (f + 1) pos written = .ok (written ++ name, pos + 2) := by
      intro f hf written
      rw [nameLoop_of_pointer h hne hp hlo, decodeName_mono hf (by rw [hok]; simp), hok]
      rfl
    exact ⟨fuel + 2, by rw [decodeName_of_ne_zero h hne, hloop fuel le_rfl]; rfl,
      fun _ => hloop (fuel + 1) (Nat.le_succ _)⟩
  | @last pos len h hne hp hlen hroot =>
    have hloop : ∀ f written, nameLoop buf origin (f + 2) pos written =
        .ok (written ++ (buf.drop (pos + 1)).take len.toNat, pos + 1 + len.toNat + 1) := by
      intro f written
      rw [nameLoop_of_label h hne hp hlen, nameLoop_of_root hroot, List.dropLast_concat]
    exact ⟨3, by rw [decodeName_of_ne_zero h hne, hloop 0]; rfl, fun _ => hloop 1⟩
  | @more pos e len name h hne hp hlen hroot _ ih =>
    obtain ⟨fuel, -, hloop⟩ := ih
    have hloop' : ∀ f, fuel ≤ f → ∀ written, nameLoop buf origin (f + 1) pos written =
        .ok (written ++ ((buf.drop (pos + 1)).take len.toNat ++ DOT :: name), e) := by
      intro f hf written
      rw [nameLoop_of_label h hne hp hlen]
      have hrest := hloop hroot (written ++ (buf.drop (pos + 1)).take len.toNat ++ [DOT])
      rw [nameLoop_mono hf (by rw [hrest]; simp), hrest]
      simp
    exact ⟨fuel + 2, by rw [decodeName_of_ne_zero h hne, hloop' fuel le_rfl]; rfl,
      fun _ => hloop' (fuel + 1) (Nat.le_succ _)⟩

/-- What `decodeName` returns is the name, and what its loop returns has the name added. -/
theorem nameAt_of_ok (fuel : ℕ) :
    (∀ pos name e, decodeName buf origin fuel pos = .ok (name, e) → NameAt buf origin pos name e) ∧
      ∀ num written out e, buf[num]? ≠ some 0 →
        nameLoop buf origin fuel num written = .ok (out, e) →
        ∃ name, out = written ++ name ∧ NameAt buf origin num name e := by
  induction fuel with
  | zero =>
    constructor
    · intro _ _ _ h
      cases h
    · intro _ _ _ _ _ h
      cases h
  | succ fuel ih =>
    obtain ⟨ihName, ihLoop⟩ := ih
    constructor
    · intro pos name e hok
      cases h : buf[pos]? with
      | none =>
        rw [decodeName_of_none h] at hok
        cases hok
      | some len =>
        by_cases hne : len = 0
        · subst hne
          rw [decodeName_of_root h] at hok
          cases hok
          exact .root h
        · rw [decodeName_of_ne_zero h hne] at hok
          -- It starts the loop with nothing written, at the same byte.
          obtain ⟨name', rfl, hat⟩ := ihLoop pos [] name e (by rw [h]; simpa using hne) hok
          exact hat
    · intro num written out e hroot hok
      cases h : buf[num]? with
      | none =>
        rw [nameLoop_of_none h] at hok
        cases hok
      | some len =>
        have hne : len ≠ 0 := by
          rintro rfl
          exact hroot h
        by_cases hp : len ≥ POINTER
        · cases hlo : buf[num + 1]? with
          | none =>
            rw [nameLoop_of_half h hne hp hlo] at hok
            cases hok
          | some lo =>
            rw [nameLoop_of_pointer h hne hp hlo] at hok
            obtain ⟨⟨rest, e'⟩, hrest, hout⟩ := Run.bind_eq_ok.mp hok
            cases hout
            exact ⟨rest, rfl, .pointer h hp hlo (ihName _ _ _ hrest)⟩
        · by_cases hlen : num + 1 + len.toNat ≤ buf.length
          · rw [nameLoop_of_label h hne hp hlen] at hok
            by_cases hz : buf[num + 1 + len.toNat]? = some 0
            · -- The last label: its dot gives way to the terminator.
              cases fuel with
              | zero => cases hok
              | succ fuel =>
                rw [nameLoop_of_root hz, List.dropLast_concat] at hok
                cases hok
                exact ⟨_, rfl, .last h hne hp hlen hz⟩
            · obtain ⟨name, rfl, hat⟩ := ihLoop _ _ _ _ hz hok
              exact ⟨_, by simp, .more h hne hp hlen hz hat⟩
          · rw [nameLoop_of_cut h hne hp hlen] at hok
            cases hok

/-- With the fuel that `decode` gives it, `decodeName` returns the name, where there is one. -/
theorem decodeName_eq_ok_iff {e : ℕ} :
    decodeName buf origin (nameFuel buf) pos = .ok (name, e) ↔ NameAt buf origin pos name e := by
  constructor
  · exact (nameAt_of_ok _).1 pos name e
  · intro h
    obtain ⟨fuel, hok, -⟩ := h.exists_fuel
    have hne : decodeName buf origin fuel pos ≠ .error .diverges := by
      rw [hok]
      simp
    have hne' : decodeName buf origin (nameFuel buf) pos ≠ .error .diverges :=
      mt decodeName_nameFuel.mp (exists_fuel_iff.mp ⟨fuel, hne⟩)
    rw [← hok, ← decodeName_mono (Nat.le_max_left fuel (nameFuel buf)) hne,
      decodeName_mono (Nat.le_max_right fuel (nameFuel buf)) hne']

/-- A place has one name. -/
theorem NameAt.unique {name' : List UInt8} {e e' : ℕ} (h : NameAt buf origin pos name e)
    (h' : NameAt buf origin pos name' e') : name = name' ∧ e = e' := by
  have := (decodeName_eq_ok_iff.mpr h).symm.trans (decodeName_eq_ok_iff.mpr h')
  simpa using this

/-- A name stays a name when bytes are added after those it was read from. -/
theorem NameAt.append {e : ℕ} (h : NameAt buf origin pos name e) (tail : List UInt8) :
    NameAt (buf ++ tail) origin pos name e := by
  have hget : ∀ {i : ℕ} {b : UInt8}, buf[i]? = some b → (buf ++ tail)[i]? = some b := by
    intro i b hb
    have hi : i < buf.length := by
      by_contra hge
      rw [List.getElem?_eq_none (by omega)] at hb
      cases hb
    rw [List.getElem?_append_left hi, hb]
  have htake : ∀ {i n : ℕ}, i + n ≤ buf.length →
      ((buf ++ tail).drop i).take n = (buf.drop i).take n := by
    intro i n hin
    rw [List.drop_append_of_le_length (by omega), List.take_append_of_le_length]
    rw [List.length_drop]
    omega
  have hle : ∀ {n : ℕ}, n ≤ buf.length → n ≤ (buf ++ tail).length := by
    intro n hn
    rw [List.length_append]
    omega
  induction h with
  | root h => exact .root (hget h)
  | pointer h hp hlo _ ih => exact .pointer (hget h) hp (hget hlo) ih
  | last h hne hp hlen hroot =>
    rw [← htake hlen]
    exact .last (hget h) hne hp (hle hlen) (hget hroot)
  | @more pos e len name h hne hp hlen hroot rest ih =>
    rw [← htake hlen]
    refine .more (hget h) hne hp (hle hlen) ?_ ih
    -- The name goes on, so there is a byte there, and it is the same one.
    have hlt : pos + 1 + len.toNat < buf.length := by
      by_contra hge
      have hnone := List.getElem?_eq_none (l := buf) (i := pos + 1 + len.toNat) (by omega)
      cases rest with
      | root h => rw [hnone] at h; cases h
      | pointer h => rw [hnone] at h; cases h
      | last h => rw [hnone] at h; cases h
      | more h => rw [hnone] at h; cases h
    rw [List.getElem?_append_left hlt]
    exact hroot

end DnsRelayer
