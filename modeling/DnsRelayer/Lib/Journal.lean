import Mathlib.Init

/-!
# Computations with a journal

A computation that returns or fails, and keeps a journal of what it did until then. What one
computation after another logs is what the first logs, and, if it returns, what the second does
(`mem_log_bind`).
-/

namespace DnsRelayer.Lib

/-- What a computation logs, and how it ends. -/
structure Journal (ω ε α : Type) where
  log : List ω
  result : Except ε α

namespace Journal

variable {ω ε α β γ : Type}

/-- One computation after the other, which only comes when the first returns. -/
def bind (x : Journal ω ε α) (f : α → Journal ω ε β) : Journal ω ε β :=
  match x.result with
  | .ok a => ⟨x.log ++ (f a).log, (f a).result⟩
  | .error e => ⟨x.log, .error e⟩

instance : Monad (Journal ω ε) where
  pure a := ⟨[], .ok a⟩
  bind := Journal.bind

/-- An entry of the log. -/
def entry (w : ω) : Journal ω ε Unit := ⟨[w], .ok ()⟩

/-- A computation that logs nothing. -/
def lift (x : Except ε α) : Journal ω ε α := ⟨[], x⟩

variable {x : Journal ω ε α} {f : α → Journal ω ε β} {w : ω}

theorem bind_of_ok {a : α} (h : x.result = .ok a) :
    x >>= f = ⟨x.log ++ (f a).log, (f a).result⟩ := by
  show Journal.bind x f = _
  rw [Journal.bind, h]

theorem bind_of_error {e : ε} (h : x.result = .error e) : x >>= f = ⟨x.log, .error e⟩ := by
  show Journal.bind x f = _
  rw [Journal.bind, h]

/-- What is logged by one computation after the other. -/
theorem mem_log_bind :
    w ∈ (x >>= f).log ↔ w ∈ x.log ∨ ∃ a, x.result = .ok a ∧ w ∈ (f a).log := by
  cases h : x.result with
  | ok a =>
    rw [bind_of_ok h]
    simp
  | error e =>
    rw [bind_of_error h]
    simp

/-- Where one computation after the other returns. -/
theorem result_bind_eq_ok {b : β} :
    (x >>= f).result = .ok b ↔ ∃ a, x.result = .ok a ∧ (f a).result = .ok b := by
  cases h : x.result with
  | ok a =>
    rw [bind_of_ok h]
    simp
  | error e =>
    rw [bind_of_error h]
    simp

/-- Where one computation after the other fails. -/
theorem result_bind_eq_error {e : ε} :
    (x >>= f).result = .error e ↔
      x.result = .error e ∨ ∃ a, x.result = .ok a ∧ (f a).result = .error e := by
  cases h : x.result with
  | ok a =>
    rw [bind_of_ok h]
    simp
  | error e =>
    rw [bind_of_error h]
    simp

/-- Without its log, one computation after the other is one result after the other. -/
theorem result_bind : (x >>= f).result = x.result >>= fun a => (f a).result := by
  cases h : x.result with
  | error e =>
    rw [bind_of_error h]
    rfl
  | ok a =>
    rw [bind_of_ok h]
    rfl

/-- The order of three computations does not depend on how they are put together. -/
theorem bind_assoc' (x : Journal ω ε α) (f : α → Journal ω ε β) (g : β → Journal ω ε γ) :
    x >>= f >>= g = x >>= fun a => f a >>= g := by
  cases h : x.result with
  | error e => rw [bind_of_error h, bind_of_error h, bind_of_error rfl]
  | ok a =>
    rw [bind_of_ok h, bind_of_ok h]
    cases hf : (f a).result with
    | error e => rw [bind_of_error rfl, bind_of_error hf]
    | ok b => rw [bind_of_ok rfl, bind_of_ok hf, List.append_assoc]

instance : LawfulMonad (Journal ω ε) :=
  LawfulMonad.mk' (Journal ω ε)
    (fun x => by
      show Journal.bind x (fun a => ⟨[], .ok a⟩) = x
      obtain ⟨log, _ | _⟩ := x <;> simp [Journal.bind])
    (fun a f => by
      show Journal.bind ⟨[], .ok a⟩ f = f a
      simp [Journal.bind])
    bind_assoc'

/-- A function of what is returned changes nothing of the log. -/
@[simp]
theorem log_map (g : α → β) : (g <$> x).log = x.log := by
  show (Journal.bind x _).log = x.log
  obtain ⟨log, _ | _⟩ := x <;> simp [Journal.bind]

/-- It is applied where the computation returns. -/
@[simp]
theorem result_map (g : α → β) : (g <$> x).result = g <$> x.result := by
  show (Journal.bind x _).result = g <$> x.result
  obtain ⟨log, _ | _⟩ := x <;> rfl

@[simp]
theorem log_pure (a : α) : (Pure.pure a : Journal ω ε α).log = [] := rfl

@[simp]
theorem result_pure (a : α) : (Pure.pure a : Journal ω ε α).result = .ok a := rfl

@[simp]
theorem log_entry : (entry w : Journal ω ε Unit).log = [w] := rfl

@[simp]
theorem result_entry : (entry w : Journal ω ε Unit).result = .ok () := rfl

@[simp]
theorem log_lift (x : Except ε α) : (lift x : Journal ω ε α).log = [] := rfl

@[simp]
theorem result_lift (x : Except ε α) : (lift x : Journal ω ε α).result = x := rfl

/-- A value without a log goes on as it is. -/
theorem lift_bind (a : α) (f : α → Journal ω ε β) : (lift (.ok a) : Journal ω ε α) >>= f = f a := by
  rw [bind_of_ok (result_lift _), log_lift, List.nil_append]

theorem result_map_eq_ok {g : α → β} {b : β} :
    (g <$> x).result = .ok b ↔ ∃ a, x.result = .ok a ∧ g a = b := by
  rw [result_map]
  cases x.result with
  | ok a => simp [Functor.map, Except.map]
  | error e => simp [Functor.map, Except.map]

end Journal

end DnsRelayer.Lib
