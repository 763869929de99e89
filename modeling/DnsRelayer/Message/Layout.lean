import DnsRelayer.Message.Names

/-!
# The layout of a datagram

How `decode` gets through a datagram, item by item. The counts of the header announce the items:
questions, then resource records. Each starts with a name and has fields after it; a record has data
as well, which is a name where its type says so. `Goes` follows them and says how it ends: every
item is passed, or an item is in the way whose name leads into a circle or is too long for its
array, or that is one more than its array holds. There is no way to follow them past the end of the
bytes.

`decode` does what `Goes` says (`outcome_decode`).
-/

namespace DnsRelayer

open Lib

variable {buf : List UInt8} {pos : ℕ}

/-! ## Outcomes -/

/-- How decoding an item or some of them ends: behind them, or not at all. -/
inductive Outcome where
  | passes (next : ℕ)
  | spins
  | overruns
  deriving DecidableEq

/-- The outcome is not that the items are passed. -/
def Outcome.Stops : Outcome → Prop
  | .passes _ => False
  | _ => True

/-- The outcome of a part of `decode`; there is none where it reads past the end. -/
def outcome {α : Type} : Run (α × ℕ) → Option Outcome
  | .ok (_, next) => some (.passes next)
  | .error (.outOfBounds _) => none
  | .error .diverges => some .spins
  | .error _ => some .overruns

/-- A computation that faults only for want of bytes. -/
def Reading {α : Type} (x : Run α) : Prop := ∀ e, x = .error e → ∃ i, e = .outOfBounds i

/-- After a read there is an outcome where the bytes are there. -/
theorem outcome_read {α β : Type} {x : Run α} {f : α → Run (β × ℕ)} {o : Outcome}
    (hx : Reading x) : outcome (x >>= f) = some o ↔ ∃ a, x = .ok a ∧ outcome (f a) = some o := by
  cases x with
  | error e =>
    obtain ⟨i, rfl⟩ := hx e rfl
    simp [outcome]
  | ok a => simp

/-- The outcome of two parts is that of the first, when it stops, or else that of the second. -/
theorem outcome_bind {α β : Type} {x : Run (α × ℕ)} {f : α × ℕ → Run (β × ℕ)} {o : Outcome} :
    outcome (x >>= f) = some o ↔
      outcome x = some o ∧ o.Stops ∨ ∃ a next, x = .ok (a, next) ∧
        outcome (f (a, next)) = some o := by
  cases x with
  | error e =>
    rw [Run.error_bind]
    cases e <;> simp [outcome] <;> rintro rfl <;> trivial
  | ok a =>
    obtain ⟨a, next⟩ := a
    rw [Run.ok_bind]
    constructor
    · exact fun h => Or.inr ⟨a, next, rfl, h⟩
    · rintro (⟨h, hs⟩ | ⟨a', next', hok, h⟩)
      · simp only [outcome, Option.some.injEq] at h
        subst h
        exact hs.elim
      · cases hok
        exact h

/-- What a part returns, apart from where it ends, makes no difference to the outcome. -/
theorem outcome_map {α β : Type} (x : Run (α × ℕ)) (g : α → β) :
    outcome (do
      let (a, next) ← x
      return (g a, next)) = outcome x := by
  cases x with
  | error e => cases e <;> rfl
  | ok a => rfl

/-- A part that returns passes to its end. -/
theorem outcome_eq_passes {α : Type} {x : Run (α × ℕ)} {next : ℕ} :
    outcome x = some (.passes next) ↔ ∃ a, x = .ok (a, next) := by
  cases x with
  | error e => cases e <;> simp [outcome]
  | ok a =>
    obtain ⟨a, n⟩ := a
    simp [outcome]

/-! ## Reads -/

theorem reading_ok {α : Type} (a : α) : Reading (.ok a : Run α) := by
  intro e h
  cases h

theorem reading_bind {α β : Type} {x : Run α} {f : α → Run β} (hx : Reading x)
    (hf : ∀ a, Reading (f a)) : Reading (x >>= f) := by
  cases x with
  | error e =>
    intro e' h
    cases h
    exact hx e rfl
  | ok a => exact hf a

theorem reading_byteAt (buf : List UInt8) (i : ℕ) : Reading (byteAt buf i) := by
  unfold byteAt
  split
  · exact reading_ok _
  · intro e h
    exact ⟨i, by cases h; rfl⟩

theorem reading_bytesAt (buf : List UInt8) (i n : ℕ) : Reading (bytesAt buf i n) := by
  unfold bytesAt
  split_ifs
  · exact reading_ok _
  · intro e h
    exact ⟨_, by cases h; rfl⟩

theorem reading_ntohsAt (buf : List UInt8) (i : ℕ) : Reading (ntohsAt buf i) :=
  reading_bind (reading_byteAt _ _) fun _ => reading_bind (reading_byteAt _ _) fun _ => reading_ok _

theorem reading_ntohlAt (buf : List UInt8) (i : ℕ) : Reading (ntohlAt buf i) :=
  reading_bind (reading_byteAt _ _) fun _ => reading_bind (reading_byteAt _ _) fun _ =>
    reading_bind (reading_byteAt _ _) fun _ => reading_bind (reading_byteAt _ _) fun _ =>
      reading_ok _

theorem exists_byteAt : (∃ b, byteAt buf pos = .ok b) ↔ pos < buf.length := by
  simp only [byteAt_eq_ok]
  rw [← Option.isSome_iff_exists, isSome_getElem?]

theorem exists_bytesAt {n : ℕ} : (∃ bs, bytesAt buf pos n = .ok bs) ↔ pos + n ≤ buf.length := by
  unfold bytesAt
  split_ifs with h <;> simp [h]

theorem exists_ntohsAt : (∃ v, ntohsAt buf pos = .ok v) ↔ pos + 2 ≤ buf.length := by
  constructor
  · rintro ⟨v, h⟩
    obtain ⟨b₁, -, h⟩ := Run.bind_eq_ok.mp h
    obtain ⟨b₀, h₀, -⟩ := Run.bind_eq_ok.mp h
    have := exists_byteAt.mp ⟨b₀, h₀⟩
    omega
  · intro h
    obtain ⟨b₁, h₁⟩ := exists_byteAt.mpr (show pos < buf.length by omega)
    obtain ⟨b₀, h₀⟩ := exists_byteAt.mpr (show pos + 1 < buf.length by omega)
    exact ⟨_, by rw [ntohsAt, h₁, Run.ok_bind, h₀, Run.ok_bind]; rfl⟩

theorem exists_ntohlAt : (∃ v, ntohlAt buf pos = .ok v) ↔ pos + 4 ≤ buf.length := by
  constructor
  · rintro ⟨v, h⟩
    obtain ⟨b₃, -, h⟩ := Run.bind_eq_ok.mp h
    obtain ⟨b₂, -, h⟩ := Run.bind_eq_ok.mp h
    obtain ⟨b₁, -, h⟩ := Run.bind_eq_ok.mp h
    obtain ⟨b₀, h₀, -⟩ := Run.bind_eq_ok.mp h
    have := exists_byteAt.mp ⟨b₀, h₀⟩
    omega
  · intro h
    obtain ⟨b₃, h₃⟩ := exists_byteAt.mpr (show pos < buf.length by omega)
    obtain ⟨b₂, h₂⟩ := exists_byteAt.mpr (show pos + 1 < buf.length by omega)
    obtain ⟨b₁, h₁⟩ := exists_byteAt.mpr (show pos + 2 < buf.length by omega)
    obtain ⟨b₀, h₀⟩ := exists_byteAt.mpr (show pos + 3 < buf.length by omega)
    refine ⟨ntohl b₃ b₂ b₁ b₀, ?_⟩
    rw [ntohlAt, h₃, Run.ok_bind, h₂, Run.ok_bind, h₁, Run.ok_bind, h₀, Run.ok_bind]
    rfl

/-! ## Items -/

/-- What the bytes at a position make of a name. -/
inductive FieldGoes (buf : List UInt8) (pos : ℕ) : Outcome → Prop
  | passes {raw : List UInt8} {e : ℕ} (name : NameAt buf 0 pos raw e)
      (fits : raw.length < MAX_LEN) : FieldGoes buf pos (.passes e)
  | overruns {raw : List UInt8} {e : ℕ} (name : NameAt buf 0 pos raw e)
      (long : MAX_LEN ≤ raw.length) : FieldGoes buf pos .overruns
  | spins (circular : Circular (hop buf 0) pos) : FieldGoes buf pos .spins

/-- The items of a datagram. -/
inductive Kind where
  | question
  | record
  deriving DecidableEq

/-- The type of a record whose data is a name. -/
def NamesData (type : UInt16) : Prop := type = CNAME ∨ type = NS

instance (type : UInt16) : Decidable (NamesData type) := inferInstanceAs (Decidable (_ ∨ _))

/-- What the bytes at a position make of an item: its name stops `decode`, or the name is followed by
the fields, and for a record by data. Data that is a name is passed by the length of the data, not
by that of the name, and stops `decode` where that name does. -/
inductive Kind.Goes (buf : List UInt8) (pos : ℕ) : Kind → Outcome → Prop
  | owner {k : Kind} {o : Outcome} (name : FieldGoes buf pos o) (stops : o.Stops) :
      Kind.Goes buf pos k o
  | question {e : ℕ} (name : FieldGoes buf pos (.passes e)) (fields : e + 4 ≤ buf.length) :
      Kind.Goes buf pos .question (.passes (e + 4))
  | bytes {e : ℕ} {type n : UInt16} (name : FieldGoes buf pos (.passes e))
      (fields : e + 10 ≤ buf.length) (type_eq : ntohsAt buf e = .ok type)
      (len_eq : ntohsAt buf (e + 8) = .ok n) (isBytes : ¬ NamesData type)
      (data : e + 10 + n.toNat ≤ buf.length) :
      Kind.Goes buf pos .record (.passes (e + 10 + n.toNat))
  | target {e next : ℕ} {type n : UInt16} (name : FieldGoes buf pos (.passes e))
      (fields : e + 10 ≤ buf.length) (type_eq : ntohsAt buf e = .ok type)
      (len_eq : ntohsAt buf (e + 8) = .ok n) (isName : NamesData type)
      (data : FieldGoes buf (e + 10) (.passes next)) :
      Kind.Goes buf pos .record (.passes (e + 10 + n.toNat))
  | targetStops {e : ℕ} {o : Outcome} {type : UInt16} (name : FieldGoes buf pos (.passes e))
      (fields : e + 10 ≤ buf.length) (type_eq : ntohsAt buf e = .ok type)
      (isName : NamesData type) (data : FieldGoes buf (e + 10) o) (stops : o.Stops) :
      Kind.Goes buf pos .record o

/-- What the bytes from a position on make of items, each with its index in its array. -/
inductive Goes (buf : List UInt8) : List (Kind × ℕ) → ℕ → Outcome → Prop
  | done (pos : ℕ) : Goes buf [] pos (.passes pos)
  | full {k : Kind} {i : ℕ} {todo : List (Kind × ℕ)} {pos : ℕ} (hi : MAX_SIZE ≤ i) :
      Goes buf ((k, i) :: todo) pos .overruns
  | stop {k : Kind} {i : ℕ} {todo : List (Kind × ℕ)} {pos : ℕ} {o : Outcome} (hi : i < MAX_SIZE)
      (item : k.Goes buf pos o) (stops : o.Stops) : Goes buf ((k, i) :: todo) pos o
  | item {k : Kind} {i : ℕ} {todo : List (Kind × ℕ)} {pos next : ℕ} {o : Outcome}
      (hi : i < MAX_SIZE) (item : k.Goes buf pos (.passes next)) (rest : Goes buf todo next o) :
      Goes buf ((k, i) :: todo) pos o

/-- The outcome of reading a name into its array. -/
theorem outcome_decodeField {o : Outcome} :
    outcome (decodeField buf pos) = some o ↔ FieldGoes buf pos o := by
  cases h : decodeName buf 0 (nameFuel buf) pos with
  | error e =>
    -- No name is there, so it does not pass or overrun.
    have hnot : ∀ raw next, ¬ NameAt buf 0 pos raw next := fun raw next hn => by
      rw [decodeName_eq_ok_iff.mpr hn] at h
      cases h
    have hrun : decodeField buf pos = .error e := by rw [decodeField, h, Run.error_bind]
    rw [hrun]
    rcases decodeName_error h with rfl | ⟨i, rfl⟩
    · constructor
      · intro ho
        simp only [outcome, Option.some.injEq] at ho
        subst ho
        exact .spins (decodeName_nameFuel.mp h)
      · rintro (⟨hn, -⟩ | ⟨hn, -⟩ | -)
        · exact absurd hn (hnot _ _)
        · exact absurd hn (hnot _ _)
        · rfl
    · constructor
      · intro ho
        cases ho
      · rintro (⟨hn, -⟩ | ⟨hn, -⟩ | hc)
        · exact absurd hn (hnot _ _)
        · exact absurd hn (hnot _ _)
        · rw [decodeName_nameFuel.mpr hc] at h
          cases h
  | ok x =>
    obtain ⟨raw, e⟩ := x
    have hname := decodeName_eq_ok_iff.mp h
    -- A name is there: it ends, so only its length matters.
    have hcirc : ¬ Circular (hop buf 0) pos := fun hc => by
      rw [decodeName_nameFuel.mpr hc] at h
      cases h
    by_cases hlen : raw.length ≥ MAX_LEN
    · have hrun : decodeField buf pos = .error .overrun := by
        rw [decodeField, h, Run.ok_bind]
        simp only [if_pos hlen]
        rfl
      rw [hrun]
      constructor
      · intro ho
        simp only [outcome, Option.some.injEq] at ho
        subst ho
        exact .overruns hname hlen
      · rintro (⟨hn, hlt⟩ | ⟨-, -⟩ | hc)
        · obtain ⟨rfl, -⟩ := hn.unique hname
          omega
        · rfl
        · exact absurd hc hcirc
    · have hrun : decodeField buf pos = .ok (cstr raw, e) := by
        rw [decodeField, h, Run.ok_bind]
        simp only [if_neg hlen]
        rfl
      rw [hrun]
      constructor
      · intro ho
        simp only [outcome, Option.some.injEq] at ho
        subst ho
        exact .passes hname (Nat.lt_of_not_ge hlen)
      · rintro (⟨hn, -⟩ | ⟨hn, hge⟩ | hc)
        · obtain ⟨-, rfl⟩ := hn.unique hname
          rfl
        · obtain ⟨rfl, -⟩ := hn.unique hname
          omega
        · exact absurd hc hcirc

/-- The outcome of a question. -/
theorem outcome_decodeQues {o : Outcome} :
    outcome (decodeQues buf pos) = some o ↔ Kind.question.Goes buf pos o := by
  rw [decodeQues, outcome_bind, outcome_decodeField]
  simp only [outcome_read (reading_ntohsAt _ _)]
  constructor
  · rintro (⟨hname, hstops⟩ | ⟨q_name, e, hfield, q_type, -, q_class, h₂, ho⟩)
    · exact .owner hname hstops
    · have hname := outcome_decodeField.mp (outcome_eq_passes.mpr ⟨q_name, hfield⟩)
      have hlen := exists_ntohsAt.mp ⟨q_class, h₂⟩
      cases ho
      exact .question hname hlen
  · intro h
    cases h with
    | owner hname hstops => exact Or.inl ⟨hname, hstops⟩
    | @question e hname hlen =>
      obtain ⟨q_name, hfield⟩ := outcome_eq_passes.mp (outcome_decodeField.mpr hname)
      obtain ⟨q_type, h₁⟩ := exists_ntohsAt.mpr (show e + 2 ≤ buf.length by omega)
      obtain ⟨q_class, h₂⟩ := exists_ntohsAt.mpr (show e + 2 + 2 ≤ buf.length by omega)
      exact Or.inr ⟨q_name, e, hfield, q_type, h₁, q_class, h₂, rfl⟩

/-- The outcome of a resource record. -/
theorem outcome_decodeRR {o : Outcome} :
    outcome (decodeRR buf pos) = some o ↔ Kind.record.Goes buf pos o := by
  rw [decodeRR, outcome_bind, outcome_decodeField]
  simp only [outcome_read (reading_ntohsAt _ _), outcome_read (reading_ntohlAt _ _)]
  constructor
  · rintro (⟨hname, hstops⟩ | ⟨name, e, hfield, type, h₁, class_, h₂, TTL, h₃, n, h₄, ho⟩)
    · exact .owner hname hstops
    -- The name is passed and the fields are there; then the data is read.
    · have hname := outcome_decodeField.mp (outcome_eq_passes.mpr ⟨name, hfield⟩)
      have hlen := exists_ntohsAt.mp ⟨n, h₄⟩
      split_ifs at ho with htype
      · rw [outcome_bind] at ho
        rcases ho with ⟨hdata, hstops⟩ | ⟨target, next, hdata, ho⟩
        · exact .targetStops hname (by omega) h₁ htype (outcome_decodeField.mp hdata) hstops
        · cases ho
          exact .target hname (by omega) h₁ h₄ htype
            (outcome_decodeField.mp (outcome_eq_passes.mpr ⟨target, hdata⟩))
      · obtain ⟨data, hdata, ho⟩ := (outcome_read (reading_bytesAt _ _ _)).mp ho
        cases ho
        exact .bytes hname (by omega) h₁ h₄ htype (exists_bytesAt.mp ⟨data, hdata⟩)
  · -- The fields of a record whose name is passed, the type and the length given.
    have hfields : ∀ {e : ℕ} {type n : UInt16}, FieldGoes buf pos (.passes e) →
        e + 10 ≤ buf.length → ntohsAt buf e = .ok type → ntohsAt buf (e + 8) = .ok n →
        ∃ name class_ TTL, decodeField buf pos = .ok (name, e) ∧
          ntohsAt buf (e + 2) = .ok class_ ∧ ntohlAt buf (e + 4) = .ok TTL := by
      intro e type n hname hlen _ _
      obtain ⟨name, hfield⟩ := outcome_eq_passes.mp (outcome_decodeField.mpr hname)
      obtain ⟨class_, h₂⟩ := exists_ntohsAt.mpr (show e + 2 + 2 ≤ buf.length by omega)
      obtain ⟨TTL, h₃⟩ := exists_ntohlAt.mpr (show e + 4 + 4 ≤ buf.length by omega)
      exact ⟨name, class_, TTL, hfield, h₂, h₃⟩
    intro h
    cases h with
    | owner hname hstops => exact Or.inl ⟨hname, hstops⟩
    | @bytes e type n hname hlen h₁ h₄ htype hdata =>
      obtain ⟨name, class_, TTL, hfield, h₂, h₃⟩ := hfields hname hlen h₁ h₄
      obtain ⟨data, hd⟩ := exists_bytesAt.mpr hdata
      refine Or.inr ⟨name, e, hfield, type, h₁, class_, h₂, TTL, h₃, n, h₄, ?_⟩
      rw [if_neg (show ¬ (type = CNAME ∨ type = NS) from htype), hd]
      rfl
    | @target e next type n hname hlen h₁ h₄ htype hdata =>
      obtain ⟨name, class_, TTL, hfield, h₂, h₃⟩ := hfields hname hlen h₁ h₄
      obtain ⟨target, ht⟩ := outcome_eq_passes.mp (outcome_decodeField.mpr hdata)
      refine Or.inr ⟨name, e, hfield, type, h₁, class_, h₂, TTL, h₃, n, h₄, ?_⟩
      rw [if_pos (show type = CNAME ∨ type = NS from htype), ht]
      rfl
    | @targetStops e o type hname hlen h₁ htype hdata hstops =>
      obtain ⟨n, h₄⟩ := exists_ntohsAt.mpr (show e + 8 + 2 ≤ buf.length by omega)
      obtain ⟨name, class_, TTL, hfield, h₂, h₃⟩ := hfields hname hlen h₁ h₄
      refine Or.inr ⟨name, e, hfield, type, h₁, class_, h₂, TTL, h₃, n, h₄, ?_⟩
      rw [if_pos (show type = CNAME ∨ type = NS from htype), outcome_bind]
      exact Or.inl ⟨outcome_decodeField.mpr hdata, hstops⟩

/-- The items of one array, from the index `i` on. -/
def slots (k : Kind) : ℕ → ℕ → List (Kind × ℕ)
  | 0, _ => []
  | count + 1, i => (k, i) :: slots k count (i + 1)

/-- The outcome of an array is that of its items. -/
theorem outcome_decodeArray {α : Type} {item : ℕ → Run (α × ℕ)} {k : Kind}
    (hitem : ∀ {pos o}, outcome (item pos) = some o ↔ k.Goes buf pos o) (count i pos : ℕ)
    {o : Outcome} :
    outcome (decodeArray item count i pos) = some o ↔ Goes buf (slots k count i) pos o := by
  induction count generalizing i pos o with
  | zero =>
    constructor
    · intro h
      cases h
      exact .done pos
    · intro h
      cases h
      rfl
  | succ count ih =>
    rw [decodeArray, slots]
    -- The pointer to the item is stored before the item is read.
    by_cases hi : i ≥ MAX_SIZE
    · rw [if_pos hi]
      constructor
      · intro h
        cases h
        exact .full hi
      · intro h
        cases h with
        | full => rfl
        | stop hlt => omega
        | item hlt => omega
    · rw [if_neg hi, outcome_bind, hitem]
      have hlt : i < MAX_SIZE := Nat.lt_of_not_ge hi
      constructor
      · rintro (⟨hx, hstops⟩ | ⟨x, next, hx, ho⟩)
        · exact .stop hlt hx hstops
        · have hpass := hitem.mp (outcome_eq_passes.mpr ⟨x, hx⟩)
          have hrest := (outcome_map (decodeArray item count (i + 1) next) (x :: ·)).symm.trans ho
          exact .item hlt hpass ((ih (i + 1) next).mp hrest)
      · intro h
        cases h with
        | full hge => omega
        | stop _ hx hstops => exact Or.inl ⟨hx, hstops⟩
        | @item _ _ _ _ next _ _ hx hrest =>
          obtain ⟨x, hok⟩ := outcome_eq_passes.mp (hitem.mpr hx)
          have ho := (ih (i + 1) next).mpr hrest
          exact Or.inr ⟨x, next, hok,
            (outcome_map (decodeArray item count (i + 1) next) (x :: ·)).trans ho⟩

/-- Items after items: the outcome of the first, when it stops, or else that of the second from where
the first end. -/
theorem goes_append {l r : List (Kind × ℕ)} {o : Outcome} :
    Goes buf (l ++ r) pos o ↔
      Goes buf l pos o ∧ o.Stops ∨ ∃ next, Goes buf l pos (.passes next) ∧ Goes buf r next o := by
  -- Only items that are passed lead on, so the first list stops the whole or is passed.
  induction l generalizing pos with
  | nil =>
    constructor
    · exact fun h => Or.inr ⟨pos, .done pos, h⟩
    · rintro (⟨h, hs⟩ | ⟨next, h, hr⟩)
      · cases h
        exact hs.elim
      · cases h
        exact hr
  | cons s l ih =>
    obtain ⟨k, i⟩ := s
    constructor
    · intro h
      cases h with
      | full hi => exact Or.inl ⟨.full hi, trivial⟩
      | stop hi hx hs => exact Or.inl ⟨.stop hi hx hs, hs⟩
      | item hi hx hrest =>
        rcases ih.mp hrest with ⟨hl, hs⟩ | ⟨next, hl, hr⟩
        · exact Or.inl ⟨.item hi hx hl, hs⟩
        · exact Or.inr ⟨next, .item hi hx hl, hr⟩
    · rintro (⟨h, hs⟩ | ⟨next, h, hr⟩)
      · cases h with
        | full hi => exact .full hi
        | stop hi hx hs => exact .stop hi hx hs
        | item hi hx hl => exact .item hi hx (ih.mpr (Or.inl ⟨hl, hs⟩))
      · cases h with
        | stop _ _ hs => exact hs.elim
        | item hi hx hl => exact .item hi hx (ih.mpr (Or.inr ⟨next, hl, hr⟩))

/-- Two parts of `decode`, each over items: they are over the items of both. -/
theorem outcome_then {α β : Type} {x : Run (α × ℕ)} {f : α × ℕ → Run (β × ℕ)}
    {l r : List (Kind × ℕ)} {o : Outcome} (hx : ∀ {o}, outcome x = some o ↔ Goes buf l pos o)
    (hf : ∀ a next, outcome (f (a, next)) = some o ↔ Goes buf r next o) :
    outcome (x >>= f) = some o ↔ Goes buf (l ++ r) pos o := by
  rw [outcome_bind, goes_append]
  refine or_congr (and_congr_left fun _ => hx) ⟨?_, ?_⟩
  · rintro ⟨a, next, hok, ho⟩
    exact ⟨next, hx.mp (outcome_eq_passes.mpr ⟨a, hok⟩), (hf a next).mp ho⟩
  · rintro ⟨next, hl, hr⟩
    obtain ⟨a, hok⟩ := outcome_eq_passes.mp (hx.mpr hl)
    exact ⟨a, next, hok, (hf a next).mpr hr⟩

/-! ## Datagrams -/

/-- The items that the counts of the header announce. -/
def items (q n₀ n₁ n₂ : UInt16) : List (Kind × ℕ) :=
  slots .question q.toNat 0 ++ (slots .record n₀.toNat 0 ++ (slots .record n₁.toNat 0 ++
    slots .record n₂.toNat 0))

/-- What the bytes make of a datagram: the header is there, and then the items go on to the
outcome. -/
inductive Datagram (buf : List UInt8) : Outcome → Prop
  | items {q n₀ n₁ n₂ : UInt16} {o : Outcome} (header : 12 ≤ buf.length)
      (q_eq : ntohsAt buf 4 = .ok q) (n₀_eq : ntohsAt buf 6 = .ok n₀)
      (n₁_eq : ntohsAt buf 8 = .ok n₁) (n₂_eq : ntohsAt buf 10 = .ok n₂)
      (rest : Goes buf (DnsRelayer.items q n₀ n₁ n₂) 12 o) : Datagram buf o

/-- The outcome of `decode` is what the bytes make of the datagram. -/
theorem outcome_decode {o : Outcome} : outcome (decode buf) = some o ↔ Datagram buf o := by
  rw [decode]
  simp only [outcome_read (reading_ntohsAt _ _), outcome_read (reading_byteAt _ _)]
  -- The arrays one after the other.
  have harrays : ∀ (ID q n₀ n₁ n₂ : UInt16) (b₀ b₁ : UInt8),
      outcome (do
        let ques ← decodeArray (decodeQues buf) q.toNat 0 12
        let rr₀ ← decodeArray (decodeRR buf) n₀.toNat 0 ques.2
        let rr₁ ← decodeArray (decodeRR buf) n₁.toNat 0 rr₀.2
        let rr₂ ← decodeArray (decodeRR buf) n₂.toNat 0 rr₁.2
        return ((⟨ID, flagOfBytes b₀ b₁, q, ⟨n₀, n₁, n₂⟩, ques.1, ⟨rr₀.1, rr₁.1, rr₂.1⟩⟩ : Message),
          rr₂.2)) = some o ↔ Goes buf (items q n₀ n₁ n₂) 12 o := by
    intro ID q n₀ n₁ n₂ b₀ b₁
    refine outcome_then (outcome_decodeArray outcome_decodeQues _ _ _) fun ques _ =>
      outcome_then (outcome_decodeArray outcome_decodeRR _ _ _) fun rr₀ _ =>
        outcome_then (outcome_decodeArray outcome_decodeRR _ _ _) fun rr₁ next => ?_
    rw [← outcome_decodeArray outcome_decodeRR]
    exact Eq.congr_left (outcome_map (decodeArray (decodeRR buf) n₂.toNat 0 next) fun rr₂ =>
      (⟨ID, flagOfBytes b₀ b₁, q, ⟨n₀, n₁, n₂⟩, ques, ⟨rr₀, rr₁, rr₂⟩⟩ : Message))
  constructor
  · rintro ⟨ID, -, b₀, -, b₁, -, q, hq, n₀, h₀, n₁, h₁, n₂, h₂, ho⟩
    have := exists_ntohsAt.mp ⟨n₂, h₂⟩
    exact .items (by omega) hq h₀ h₁ h₂ ((harrays ID q n₀ n₁ n₂ b₀ b₁).mp ho)
  · rintro ⟨hlen, hq, h₀, h₁, h₂, hrest⟩
    obtain ⟨ID, hID⟩ := exists_ntohsAt.mpr (show 0 + 2 ≤ buf.length by omega)
    obtain ⟨b₀, hb₀⟩ := exists_byteAt.mpr (show 2 < buf.length by omega)
    obtain ⟨b₁, hb₁⟩ := exists_byteAt.mpr (show 3 < buf.length by omega)
    exact ⟨ID, hID, b₀, hb₀, b₁, hb₁, _, hq, _, h₀, _, h₁, _, h₂,
      (harrays ID _ _ _ _ b₀ b₁).mpr hrest⟩

end DnsRelayer
