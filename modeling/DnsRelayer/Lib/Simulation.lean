import DnsRelayer.Lib.Pool

/-!
# Simulation of programs that run alone

The same programs run on states of two kinds, between which there is a relation. A program is
simulated when, whatever it does alone on a state of the first kind, it does as well on a related state of
the second (`Simulates`). Programs that are composed of simulated ones are simulated, and so are jobs
that run one after the other (`Serial.simulated`).
-/

namespace DnsRelayer.Lib

variable {Op : Type} {Res : Op → Type} {ε α β σ τ Env : Type}
  {perform : (o : Op) → Env → σ → Except ε (Res o × σ)} {ok : σ → Op → Env → Prop}
  {perform' : (o : Op) → Env → τ → Except ε (Res o × τ)} {ok' : τ → Op → Env → Prop}
  {R : σ → τ → Prop} {p : Prog Op Res ε α}

/-! ## What a program did alone -/

theorem Alone.of_pure {a b : α} {s s' : σ}
    (h : Alone perform ok (Pure.pure a : Prog Op Res ε α) s b s') : b = a ∧ s' = s := by
  cases h
  exact ⟨rfl, rfl⟩

theorem Alone.of_ofExcept {x : Except ε α} {a : α} {s s' : σ}
    (h : Alone perform ok (Prog.ofExcept x : Prog Op Res ε α) s a s') : x = .ok a ∧ s' = s := by
  cases x with
  | error e => cases h
  | ok b =>
    obtain ⟨rfl, rfl⟩ := Alone.of_pure h
    exact ⟨rfl, rfl⟩

theorem Alone.of_op {o : Op} {r : Res o} {s s' : σ}
    (h : Alone perform ok (Prog.op o : Prog Op Res ε _) s r s') :
    ∃ e, ok s o e ∧ perform o e s = .ok (r, s') := by
  cases h with
  | call allowed performs rest =>
    obtain ⟨rfl, rfl⟩ := Alone.of_pure rest
    exact ⟨_, allowed, performs⟩

theorem Alone.of_bind {f : α → Prog Op Res ε β} {b : β} {s s'' : σ}
    (h : Alone perform ok (p >>= f) s b s'') :
    ∃ a s', Alone perform ok p s a s' ∧ Alone perform ok (f a) s' b s'' := by
  induction p generalizing s with
  | pure a => exact ⟨a, s, .pure, h⟩
  | fail e => cases h
  | call o k ih =>
    cases h with
    | call allowed performs rest =>
      obtain ⟨a, s', hp, hf⟩ := ih _ rest
      exact ⟨a, s', .call allowed performs hp, hf⟩

/-! ## Simulation -/

/-- Whatever the program does alone on a state, it does as well on a related state. -/
def Simulates (perform : (o : Op) → Env → σ → Except ε (Res o × σ)) (ok : σ → Op → Env → Prop)
    (perform' : (o : Op) → Env → τ → Except ε (Res o × τ)) (ok' : τ → Op → Env → Prop)
    (R : σ → τ → Prop) (p : Prog Op Res ε α) : Prop :=
  ∀ s a s' t, R s t → Alone perform ok p s a s' → ∃ t', Alone perform' ok' p t a t' ∧ R s' t'

namespace Simulates

theorem pure {a : α} : Simulates perform ok perform' ok' R (Pure.pure a : Prog Op Res ε α) := by
  intro s b s' t h hp
  obtain ⟨rfl, rfl⟩ := hp.of_pure
  exact ⟨t, .pure, h⟩

theorem fail {e : ε} : Simulates perform ok perform' ok' R (Prog.fail e : Prog Op Res ε α) := by
  intro s b s' t h hp
  cases hp

theorem ofExcept {x : Except ε α} :
    Simulates perform ok perform' ok' R (Prog.ofExcept x : Prog Op Res ε α) := by
  intro s a s' t h hp
  obtain ⟨hx, rfl⟩ := hp.of_ofExcept
  exact ⟨t, Alone.ofExcept hx, h⟩

/-- An operation is simulated by a step of the other kind. -/
theorem op {o : Op} (h : ∀ s e r s' t, R s t → ok s o e → perform o e s = .ok (r, s') →
    ∃ t', ok' t o e ∧ perform' o e t = .ok (r, t') ∧ R s' t') :
    Simulates perform ok perform' ok' R (Prog.op o : Prog Op Res ε (Res o)) := by
  intro s r s' t hR hp
  obtain ⟨e, hok, hperf⟩ := hp.of_op
  obtain ⟨t', hok', hperf', hR'⟩ := h s e r s' t hR hok hperf
  exact ⟨t', Alone.op hok' hperf', hR'⟩

theorem bind {f : α → Prog Op Res ε β} (hp : Simulates perform ok perform' ok' R p)
    (hf : ∀ a, Simulates perform ok perform' ok' R (f a)) :
    Simulates perform ok perform' ok' R (p >>= f) := by
  intro s b s'' t h hrun
  obtain ⟨a, s', hfirst, hrest⟩ := hrun.of_bind
  obtain ⟨t', hfirst', h'⟩ := hp s a s' t h hfirst
  obtain ⟨t'', hrest', h''⟩ := hf a s' b s'' t' h' hrest
  exact ⟨t'', hfirst'.bind hrest', h''⟩

end Simulates

/-! ## Jobs one after the other -/

variable {Job X : Type} {body : Job → Prog Op Res ε Unit} {change : X → σ → σ} {change' : X → τ → τ}

/-- Jobs run alone, one after the other, each after a change from outside. -/
inductive Serial (perform : (o : Op) → Env → σ → Except ε (Res o × σ)) (ok : σ → Op → Env → Prop)
    (body : Job → Prog Op Res ε Unit) (change : X → σ → σ) : σ → List (X × Job) → σ → Prop
  | nil {s : σ} : Serial perform ok body change s [] s
  | cons {s s' s'' : σ} {x : X} {j : Job} {js : List (X × Job)}
    (first : Alone perform ok (body j) (change x s) () s')
    (rest : Serial perform ok body change s' js s'') : Serial perform ok body change s ((x, j) :: js) s''

/-- Jobs that are simulated are simulated one after the other. -/
theorem Serial.simulated (hbody : ∀ j, Simulates perform ok perform' ok' R (body j))
    (hchange : ∀ x s t, R s t → R (change x s) (change' x t)) {s s' : σ} {js : List (X × Job)}
    (h : Serial perform ok body change s js s') {t : τ} (hR : R s t) :
    ∃ t', Serial perform' ok' body change' t js t' ∧ R s' t' := by
  induction h generalizing t with
  | nil => exact ⟨t, .nil, hR⟩
  | @cons s s' s'' x j js first rest ih =>
    obtain ⟨t', hfirst, hR'⟩ := hbody j (change x s) () s' (change' x t) (hchange x s t hR) first
    obtain ⟨t'', hrest, hR''⟩ := ih hR'
    exact ⟨t'', .cons hfirst hrest, hR''⟩

/-! ## Step by step -/

/-- Two computations fail in the same way, or end in related states. -/
inductive Alike (R : σ → τ → Prop) : Except ε σ → Except ε τ → Prop
  | ok {s : σ} {t : τ} (related : R s t) : Alike R (.ok s) (.ok t)
  | error (e : ε) : Alike R (.error e) (.error e)

theorem Alike.mono {R' : σ → τ → Prop} {x : Except ε σ} {y : Except ε τ} (h : Alike R x y)
    (hR : ∀ s t, R s t → R' s t) : Alike R' x y := by
  cases h with
  | ok related => exact .ok (hR _ _ related)
  | error e => exact .error e

/-- A computation that ends does so with the one that it is like. -/
theorem Alike.exists_ok {x : Except ε σ} {y : Except ε τ} (h : Alike R x y) {t : τ} (hy : y = .ok t) :
    ∃ s, x = .ok s ∧ R s t := by
  cases h with
  | ok related =>
    obtain rfl := Except.ok.inj hy
    exact ⟨_, rfl, related⟩
  | error e => cases hy

/-- Two systems that take related states to related states, or fail alike, in every step whose condition
is met, do so in every run that meets it. -/
theorem exec_alike {A : Type} {step : σ → A → Except ε σ} {step' : τ → A → Except ε τ}
    {cond : σ → A → Prop} {s : σ} {t : τ} (h0 : R s t)
    (hstep : ∀ s t a, R s t → cond s a → Alike R (step s a) (step' t a)) {as : List A}
    (has : Meets step cond s as) :
    ∀ pre, pre <+: as → Alike R (exec step s pre) (exec step' t pre) := by
  intro pre
  induction pre using List.reverseRecOn with
  | nil => exact fun _ => .ok h0
  | append_singleton pre a ih =>
    intro hp
    have hlast : exec step s (pre ++ [a]) = exec step s pre >>= fun s' => step s' a := by
      simp [exec, List.foldlM_append]
    have hlast' : exec step' t (pre ++ [a]) = exec step' t pre >>= fun t' => step' t' a := by
      simp [exec, List.foldlM_append]
    have hcond := has pre a hp
    have hpre := ih ((List.prefix_append pre [a]).trans hp)
    rw [hlast, hlast']
    generalize exec step s pre = x at hpre hcond
    generalize exec step' t pre = y at hpre
    cases hpre with
    | ok related => exact hstep _ _ a related (hcond _ rfl)
    | error e => exact .error e

end DnsRelayer.Lib
