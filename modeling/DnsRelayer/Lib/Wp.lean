import DnsRelayer.Lib.Pool

/-!
# Weakest preconditions of programs

What a program calls, and what it ends with, for all results that its calls may have. An `Interface`
says of each operation how it is to be called and what it may return; `Prog.wp` takes a condition on
the end of a program to the condition that it is met whatever the calls return, and that every call
is as it is to be. The rules are equivalences, so that they serve to refute as well: a program of which
the condition holds ends somehow, as it says (`Prog.wp.ends`).
-/

namespace DnsRelayer.Lib

variable {Op : Type} {Res : Op → Type} {ε α β : Type}

/-- How operations are to be called, and what they may return. -/
structure Interface (Op : Type) (Res : Op → Type) where
  pre : Op → Prop
  post : (o : Op) → Res o → Prop

namespace Prog

theorem bind_pure' (p : Prog Op Res ε α) : p >>= Pure.pure = p := by
  induction p with
  | pure a => rfl
  | fail e => rfl
  | call o k ih => exact congrArg (Prog.call o) (funext ih)

theorem bind_assoc' {γ : Type} (p : Prog Op Res ε α) (f : α → Prog Op Res ε β)
    (g : β → Prog Op Res ε γ) : p >>= f >>= g = p >>= fun a => f a >>= g := by
  induction p with
  | pure a => rfl
  | fail e => rfl
  | call o k ih => exact congrArg (Prog.call o) (funext ih)

instance : LawfulMonad (Prog Op Res ε) :=
  LawfulMonad.mk' _ bind_pure' (fun _ _ => rfl) bind_assoc'

variable (I : Interface Op Res)

/-- Every call of a program is as it is to be, and the program ends, or fails, as `Q` says, whatever
its calls return. -/
def wp (Q : Except ε α → Prop) : Prog Op Res ε α → Prop
  | .pure a => Q (.ok a)
  | .fail e => Q (.error e)
  | .call o k => I.pre o ∧ ∀ r, I.post o r → (k r).wp Q

/-- What has to hold of the end of a program, when `f` goes on from there. -/
def after (f : α → Prog Op Res ε β) (Q : Except ε β → Prop) : Except ε α → Prop
  | .ok a => (f a).wp I Q
  | .error e => Q (.error e)

variable {I} {p : Prog Op Res ε α} {f : α → Prog Op Res ε β} {Q Q' : Except ε α → Prop}
  {Q₂ : Except ε β → Prop}

@[simp]
theorem after_ok (a : α) : after I f Q₂ (.ok a) ↔ (f a).wp I Q₂ := Iff.rfl

@[simp]
theorem after_error (e : ε) : after I f Q₂ (.error e : Except ε α) ↔ Q₂ (.error e) := Iff.rfl

@[simp]
theorem wp_pure (a : α) : (Pure.pure a : Prog Op Res ε α).wp I Q ↔ Q (.ok a) := Iff.rfl

@[simp]
theorem wp_fail (e : ε) : (Prog.fail e : Prog Op Res ε α).wp I Q ↔ Q (.error e) := Iff.rfl

/-- A computation that calls nothing. -/
@[simp]
theorem wp_ofExcept (x : Except ε α) : (ofExcept x : Prog Op Res ε α).wp I Q ↔ Q x := by
  cases x <;> exact Iff.rfl

/-- A call. -/
@[simp]
theorem wp_op (o : Op) {Q : Except ε (Res o) → Prop} :
    (op o : Prog Op Res ε (Res o)).wp I Q ↔ I.pre o ∧ ∀ r, I.post o r → Q (.ok r) := Iff.rfl

/-- Programs one after the other. -/
theorem wp_bind : (p >>= f).wp I Q₂ ↔ p.wp I (after I f Q₂) := by
  induction p with
  | pure a => exact Iff.rfl
  | fail e => exact Iff.rfl
  | call o k ih =>
    exact and_congr_right fun _ => forall_congr' fun r => imp_congr_right fun _ => ih r

/-- What a program ends with may be weakened. -/
theorem wp.mono (h : p.wp I Q) (hQ : ∀ x, Q x → Q' x) : p.wp I Q' := by
  induction p with
  | pure a => exact hQ _ h
  | fail e => exact hQ _ h
  | call o k ih => exact ⟨h.1, fun r hr => ih r (h.2 r hr)⟩

/-- A program ends somehow, when every operation may return something. -/
theorem wp.ends (hpost : ∀ o, ∃ r, I.post o r) (h : p.wp I Q) : ∃ x, Q x := by
  induction p with
  | pure a => exact ⟨_, h⟩
  | fail e => exact ⟨_, h⟩
  | call o k ih =>
    obtain ⟨r, hr⟩ := hpost o
    exact ih r (h.2 r hr)

end Prog

end DnsRelayer.Lib
