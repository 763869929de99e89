import Mathlib.Algebra.Ring.Nat
import Mathlib.Algebra.Group.Int.Defs
import Mathlib.Data.Nat.Notation
import Mathlib.Data.List.TakeWhile
import Mathlib.Data.List.Perm.Basic
import Mathlib.Logic.Function.Basic

/-!
# What a run of the C code can do

The functions of `src/` are modelled as functions into `Run`, which either return or fault. A fault
is a point where the C program has no next step that its text determines: a read past the end of a
buffer, a remainder by zero, a dereference of `NULL` or of an object already freed, a call that
never returns, or the end of the program. What a program does after a fault is not modelled, so a
statement about a run is a statement up to its first fault.

A `char *` is the list of the bytes before its terminating `NUL` (`cstr` reads it off a raw array).
-/

namespace DnsRelayer

/-- The ways in which a step of the C program has no defined successor. -/
inductive Fault where
  /-- A read at offset `i`, at or past the end of the buffer it reads. -/
  | outOfBounds (i : ℕ)
  /-- `%` with divisor zero. -/
  | divByZero
  /-- A dereference of `NULL` or of an object that has been freed. -/
  | badPointer
  /-- A write past the end of an array, or a read of an array that its string does not fit. -/
  | overrun
  /-- A read of a variable that was never set. -/
  | uninit
  /-- A call that does not return. -/
  | diverges
  /-- The program ends itself, with `exit`. -/
  | exits
  deriving DecidableEq, Repr

/-- A computation of the C program: it returns a value, or it faults. -/
abbrev Run (α : Type) := Except Fault α

/-- Runs are compared by their value or fault; the tests evaluate this. -/
instance Run.instDecidableEq {α : Type} [DecidableEq α] : DecidableEq (Run α)
  | .ok a, .ok b => decidable_of_iff (a = b) (by simp)
  | .error e, .error f => decidable_of_iff (e = f) (by simp)
  | .ok _, .error _ => isFalse (by simp)
  | .error _, .ok _ => isFalse (by simp)

/-- A sequence of two computations returns when both do. -/
theorem Run.bind_eq_ok {α β : Type} {x : Run α} {f : α → Run β} {b : β} :
    x >>= f = .ok b ↔ ∃ a, x = .ok a ∧ f a = .ok b := by
  cases x with
  | error e => simp [bind, Except.bind]
  | ok a => simp [bind, Except.bind]

/-- What a computation returns is mapped. -/
theorem Run.map_eq_ok {α β : Type} {x : Run α} {f : α → β} {b : β} :
    x.map f = .ok b ↔ ∃ a, x = .ok a ∧ f a = b := by
  cases x with
  | error e => simp [Except.map]
  | ok a => simp [Except.map]

/-- A sequence of two computations faults when the first does, or when the second does after it. -/
theorem Run.bind_eq_error {α β : Type} {x : Run α} {f : α → Run β} {e : Fault} :
    x >>= f = .error e ↔ x = .error e ∨ ∃ a, x = .ok a ∧ f a = .error e := by
  cases x with
  | error e => simp [bind, Except.bind]
  | ok a => simp [bind, Except.bind]

@[simp]
theorem Run.ok_bind {α β : Type} (a : α) (f : α → Run β) : ((.ok a : Run α) >>= f) = f a := rfl

@[simp]
theorem Run.error_bind {α β : Type} (e : Fault) (f : α → Run β) :
    ((.error e : Run α) >>= f) = .error e := rfl

/-- The address that is never allocated. -/
def NULL : ℕ := 0

/-! ## C strings -/

/-- The C string that a `char` array holds: its bytes before the first `NUL`. -/
def cstr (array : List UInt8) : List UInt8 := array.takeWhile (· ≠ 0)

/-- `strncpy` into an array of `n` bytes, or a longer one whose other bytes read as `NUL`: the
string that the array then holds. Nothing terminates it when the source has `n` bytes or more. -/
def strncpy (src : List UInt8) (n : ℕ) : List UInt8 := src.take n

/-- A string without `NUL` bytes is read off its own array whole. -/
theorem cstr_of_no_nul {s : List UInt8} (h : 0 ∉ s) : cstr s = s := by
  apply List.takeWhile_eq_self_iff.mpr
  intro b hb
  have : b ≠ 0 := fun h0 => h (h0 ▸ hb)
  simpa using this

/-- `strncpy` keeps a string that fits. -/
theorem strncpy_of_length_le {s : List UInt8} {n : ℕ} (h : s.length ≤ n) : strncpy s n = s :=
  List.take_of_length_le h

end DnsRelayer
