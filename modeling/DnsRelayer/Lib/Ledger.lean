import DnsRelayer.Lib.Record
import Mathlib.Algebra.Order.BigOperators.Group.Finset
import Mathlib.Algebra.Order.Group.Multiset

/-!
# What jobs hold and what they leave

A counter of the shared state may count what the jobs of a recorded pool hold together: what each holds can
be told from its calls (`Recorded.Ledger`). It is enough that each operation changes the counter as it changes
what its caller holds, where the program of a job calls it (`Ledger.step`). What a job that has ended holds it
has left for good.

What a program has done when it has called some operations is known from the local states that it is in
(`Tracks.reaches`), and a job that has ended has done all of its program (`Finished.step`).
-/

namespace DnsRelayer.Lib

variable {Op : Type} {Res : Op → Type} {ε α : Type}

/-! ## Local states along calls -/

section Local

variable {L : Type} (next : (o : Op) → Res o → L → Option L)

/-- The local state after calls. -/
def along (l : L) (cs : List (Called Op Res)) : Option L := cs.foldlM (fun l c => next c.1 c.2 l) l

variable {next} {p q : Prog Op Res ε α} {Q : α → L → Prop} {l : L} {cs : List (Called Op Res)}

/-- What is left of a program may be run in the local state that it is in. -/
theorem Tracks.reaches (h : Tracks next p Q l) (hreaches : p.Reaches cs q) :
    ∃ l', along next l cs = some l' ∧ Tracks next q Q l' := by
  induction hreaches generalizing l with
  | refl p => exact ⟨l, rfl, h⟩
  | @call o k r cs q rest ih =>
    obtain ⟨l₁, hnext, hk⟩ := h r
    obtain ⟨l', halong, hq⟩ := ih hk
    refine ⟨l', ?_, hq⟩
    rw [along, List.foldlM_cons, hnext]
    exact halong

end Local

variable {ι σ Job Env X : Type} {body : Job → Prog Op Res ε Unit}
  {perform : (o : Op) → Env → σ → Except ε (Res o × σ)} {change : X → σ → σ} {okJob : Job → Prop}

namespace Recorded

/-- The jobs that have ended have run their programs to the end. -/
def Finished (body : Job → Prog Op Res ε Unit) (s : Recorded ι σ Job Op Res ε) : Prop :=
  ∀ i ∈ s.ended, (body i.job).Reaches i.calls (.pure ())

/-- What the invocations hold that are going on, and those that have ended, is what is counted. -/
def Ledger [Fintype ι] (count : σ → ℕ) (holds : List (Called Op Res) → ℕ) (s : Recorded ι σ Job Op Res ε) : Prop :=
  count s.pool.shared = (s.ended.map fun i => holds i.calls).sum + ∑ t, holds (s.called t)

/-- Where a job calls an operation, it changes the counter as it changes what its caller holds. -/
def Books (okJob : Job → Prop) (body : Job → Prog Op Res ε Unit)
    (perform : (o : Op) → Env → σ → Except ε (Res o × σ)) (count : σ → ℕ)
    (holds : List (Called Op Res) → ℕ) : Prop :=
  ∀ j cs o k e x r x', okJob j → (body j).Reaches cs (.call o k) → holds cs ≤ count x →
    perform o e x = .ok (r, x') → count x' + holds cs = count x + holds (cs ++ [⟨o, r⟩])

variable [DecidableEq ι] {s s' : Recorded ι σ Job Op Res ε} {a : PoolAction ι Job Env X}

/-- A job ends with its program. -/
theorem Finished.step (h : s.Finished body) (ht : s.Traced okJob body)
    (hs : s.step body perform change a = .ok s') : s'.Finished body := by
  cases step_effect hs with
  | busy | starts | idle | calls | outside => exact h
  | @ends t e x last =>
    intro i hi
    rcases List.mem_append.mp hi with hi | hi
    · obtain ⟨-, p, hp, hreaches⟩ := ht.going t i (Option.mem_toList.mp hi)
      obtain rfl := Option.some.inj (last.symm.trans hp)
      exact hreaches
    · exact h i hi

/-- A thread has calls recorded exactly when it has a job. -/
theorem step_going (h : ∀ t, s.going t = none ↔ s.pool.threads t = none)
    (hs : s.step body perform change a = .ok s') (t : ι) : s'.going t = none ↔ s'.pool.threads t = none := by
  cases step_effect hs with
  | busy | idle | outside => exact h t
  | @starts u j free =>
    simp only [Function.update_apply]
    split_ifs
    · simp
    · exact h t
  | @ends u e x last =>
    simp only [Function.update_apply]
    split_ifs
    · simp
    · exact h t
  | @calls u e o k r shared next performs =>
    simp only [Function.update_apply]
    split_ifs
    · simp [h u, next]
    · exact h t

variable [Fintype ι] {count : σ → ℕ} {holds : List (Called Op Res) → ℕ}

omit [DecidableEq ι] in
theorem init_ledger (h0 : holds [] = 0) {x : σ} (hx : count x = 0) :
    (init x : Recorded ι σ Job Op Res ε).Ledger count holds := by
  simp [Ledger, init, called, h0, hx]

/-- A step keeps the books. -/
theorem Ledger.step (h0 : holds [] = 0) (hbooks : Books okJob body perform count holds)
    (hchange : ∀ x s, count (change x s) = count s) (ht : s.Traced okJob body)
    (hgoing : ∀ t, s.going t = none ↔ s.pool.threads t = none) (h : s.Ledger count holds)
    (hs : s.step body perform change a = .ok s') : s'.Ledger count holds := by
  -- One thread records other calls.
  have hupdate : ∀ (t : ι) (cs : List (Called Op Res)),
      ∑ u, holds (Function.update s.called t cs u) + holds (s.called t) =
        ∑ u, holds (s.called u) + holds cs := by
    intro t cs
    rw [← Finset.add_sum_erase _ _ (Finset.mem_univ t),
      ← Finset.add_sum_erase _ (fun u => holds (s.called u)) (Finset.mem_univ t), Function.update_self]
    have hrest : ∑ u ∈ Finset.univ.erase t, holds (Function.update s.called t cs u) =
        ∑ u ∈ Finset.univ.erase t, holds (s.called u) :=
      Finset.sum_congr rfl fun u hu => by rw [Function.update_of_ne (Finset.ne_of_mem_erase hu)]
    rw [hrest]
    omega
  unfold Ledger at h ⊢
  cases step_effect hs with
  | busy | idle => exact h
  | @starts t j free =>
    have hnone : s.called t = [] := by rw [called, (hgoing t).mpr free]; rfl
    have hsum := hupdate t []
    rw [called_update rfl]
    simp only [Option.elim_some]
    rw [hnone] at hsum
    omega
  | @ends t e x last =>
    obtain ⟨i, hi, hcalled⟩ := exists_going hgoing last
    -- What it holds it leaves.
    have hsum := hupdate t []
    rw [called_update rfl]
    simp only [hi, Option.toList_some, List.singleton_append, List.map_cons, List.sum_cons,
      Option.elim_none]
    rw [hcalled, h0] at hsum
    omega
  | @calls t e o k r shared next performs =>
    obtain ⟨i, hi, hcalled⟩ := exists_going hgoing next
    obtain ⟨hok, p, hp, hreaches⟩ := ht.going t i hi
    obtain rfl := Option.some.inj (next.symm.trans hp)
    have hsum := hupdate t (i.calls ++ [⟨o, r⟩])
    rw [hcalled] at hsum
    have hle : holds i.calls ≤ count s.pool.shared := by
      have := Finset.single_le_sum (fun u _ => Nat.zero_le (holds (s.called u))) (Finset.mem_univ t)
      rw [hcalled] at this
      omega
    have hcount := hbooks i.job i.calls o k e _ r shared hok hreaches hle performs
    rw [called_update rfl]
    simp only [hi, Option.map_some, Option.elim_some]
    omega
  | @outside x => exact (hchange x _).trans h

/-! ## What is held until it is given back or lost -/

variable {next : (o : Op) → Res o → Bool → Option Bool} {lost : Called Op Res → Prop} [DecidablePred lost]

/-- Where an operation may be called, it changes the counter as it changes whether its caller holds something, but
what is lost stays counted. -/
def Counts (perform : (o : Op) → Env → σ → Except ε (Res o × σ)) (next : (o : Op) → Res o → Bool → Option Bool)
    (lost : Called Op Res → Prop) [DecidablePred lost] (count : σ → ℕ) : Prop :=
  ∀ o e x r x' b b', next o r b = some b' → b.toNat ≤ count x → perform o e x = .ok (r, x') →
    count x' + b.toNat = count x + b'.toNat + if lost ⟨o, r⟩ then 1 else 0

/-- What a job holds, and what it has lost. -/
def holdsOrLost (next : (o : Op) → Res o → Bool → Option Bool) (lost : Called Op Res → Prop)
    [DecidablePred lost] (cs : List (Called Op Res)) : ℕ :=
  (if along next false cs = some true then 1 else 0) + cs.countP fun c => lost c

omit [DecidableEq ι] [Fintype ι] in
/-- The books are kept for it. -/
theorem Counts.books (h : Counts perform next lost count)
    (hbody : ∀ j, Tracks next (body j) (fun _ b => b = false) false) :
    Books okJob body perform count (holdsOrLost next lost) := by
  intro j cs o k e x r x' _ hreaches hle hperf
  obtain ⟨b, halong, hcall⟩ := (hbody j).reaches hreaches
  obtain ⟨b', hnext, -⟩ := hcall r
  have halong' : along next false (cs ++ [⟨o, r⟩]) = some b' := by
    rw [along, List.foldlM_append]
    simp only [along] at halong
    simp [halong, hnext]
  have hb : b.toNat = if along next false cs = some true then 1 else 0 := by
    rw [halong]
    cases b <;> rfl
  have hb' : b'.toNat = if along next false (cs ++ [⟨o, r⟩]) = some true then 1 else 0 := by
    rw [halong']
    cases b' <;> rfl
  have hlost : (cs ++ [(⟨o, r⟩ : Called Op Res)]).countP (lost ·) =
      cs.countP (lost ·) + if lost ⟨o, r⟩ then 1 else 0 := by
    rw [List.countP_append, List.countP_singleton]
    simp
  simp only [holdsOrLost] at hle ⊢
  have := h o e x r x' b b' hnext (by omega) hperf
  omega

omit [DecidableEq ι] in
/-- What is counted is what was lost in all calls, and what the threads at work hold. -/
theorem Ledger.eq (h : s.Ledger count (holdsOrLost next lost)) (hfinished : s.Finished body)
    (hbody : ∀ j, Tracks next (body j) (fun _ b => b = false) false) :
    count s.pool.shared = s.calls.countP lost +
      (Finset.univ.filter fun t => along next false (s.called t) = some true).card := by
  have hended : (s.ended.map fun i => holdsOrLost next lost i.calls).sum =
      (s.ended.flatMap (·.calls)).countP (lost ·) := by
    rw [List.countP_flatMap]
    refine congrArg List.sum (List.map_congr_left fun i hi => ?_)
    -- A job that has ended holds nothing.
    obtain ⟨b, halong, rfl⟩ := (hbody i.job).reaches (hfinished i hi)
    simp [holdsOrLost, halong]
  have hgoing : (∑ t, (s.called t : Multiset (Called Op Res))).countP lost =
      ∑ t, (s.called t).countP (lost ·) :=
    map_sum (Multiset.countPAddMonoidHom lost) _ _
  rw [h, hended, calls, Multiset.countP_add, hgoing]
  simp only [holdsOrLost, Finset.sum_add_distrib, Finset.card_filter, Multiset.coe_countP]
  omega

/-- The books of a pool are kept. -/
structure Kept (okJob : Job → Prop) (body : Job → Prog Op Res ε Unit) (next : (o : Op) → Res o → Bool → Option Bool)
    (lost : Called Op Res → Prop) [DecidablePred lost] (count : σ → ℕ) (s : Recorded ι σ Job Op Res ε) : Prop where
  traced : s.Traced okJob body
  going : ∀ t, s.going t = none ↔ s.pool.threads t = none
  finished : s.Finished body
  ledger : s.Ledger count (holdsOrLost next lost)

omit [DecidableEq ι] in
theorem init_kept {x : σ} (hx : count x = 0) :
    (init x : Recorded ι σ Job Op Res ε).Kept okJob body next lost count where
  traced := init_traced x
  going _ := iff_of_true rfl rfl
  finished _ hi := absurd hi List.not_mem_nil
  ledger := init_ledger rfl hx

/-- A step keeps the books, when the job that it starts is allowed. -/
theorem Kept.step (h : s.Kept okJob body next lost count) (hcounts : Counts perform next lost count)
    (hbody : ∀ j, Tracks next (body j) (fun _ b => b = false) false)
    (hchange : ∀ x s, count (change x s) = count s) (ha : ∀ t j, a = .start t j → okJob j)
    (hs : s.step body perform change a = .ok s') : s'.Kept okJob body next lost count where
  traced := h.traced.step ha hs
  going := step_going h.going hs
  finished := h.finished.step h.traced hs
  ledger := h.ledger.step rfl (hcounts.books hbody) hchange h.traced h.going hs

end Recorded

end DnsRelayer.Lib
