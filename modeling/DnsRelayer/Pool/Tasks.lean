import DnsRelayer.Pool.ThreadPool
import Mathlib.Algebra.BigOperators.Group.Finset.Piecewise
import Mathlib.Data.Multiset.AddSub
import Mathlib.Tactic.Abel

/-!
# What becomes of the tasks

In every run of the thread pool each task that was added is run at most once, and is accounted for at any time
(`ThreadPool.tasks_run_once`): a worker has one task at a time, and what it takes off the queue it runs
to its end before it takes more. When `ClosePool` has returned no worker is left, and no task is half
done (`ThreadPool.closed_pool`).
-/

namespace DnsRelayer

open Lib

namespace ThreadPool

variable {ι κ σ Task Op Env X : Type} {Res : Op → Type} [DecidableEq ι] [DecidableEq κ] [Fintype ι]
  {body : Task → Prog Op Res Fault Unit}
  {perform : (o : Op) → Env → σ → Except Fault (Res o × σ)} {change : X → σ → σ}
  {s s' : ThreadPool ι κ σ Task Op Res}

/-! ## Every task is run once -/

omit [DecidableEq κ] in
/-- What threads of one kind took is what each of them took. -/
theorem sum_takenBy [DecidableEq κ] {taken : List ((κ ⊕ ι) × Task)}
    (h : ∀ p ∈ taken, ∃ t, p.1 = .inr t) : (taken.map Prod.snd : Multiset Task) =
      ∑ t, ((taken.filter (·.1 = Sum.inr t)).map Prod.snd : Multiset Task) := by
  induction taken with
  | nil => simp
  | cons p ps ih =>
    obtain ⟨u, hu⟩ := h p List.mem_cons_self
    have hps := ih fun q hq => h q (List.mem_cons_of_mem p hq)
    have hcons : ∀ t, (((p :: ps).filter (·.1 = Sum.inr t)).map Prod.snd : Multiset Task) =
        (if t = u then {p.2} else 0) + ((ps.filter (·.1 = Sum.inr t)).map Prod.snd : List Task) := by
      intro t
      by_cases htu : t = u
      · simp [htu, hu]
      · simp [htu, hu, Ne.symm htu]
    simp only [hcons, Finset.sum_add_distrib, Finset.sum_ite_eq', Finset.mem_univ, if_true, ← hps]
    rfl

/-- The task that a worker runs. -/
def current (s : ThreadPool ι κ σ Task Op Res) (t : ι) : List Task :=
  ((s.workers.going t).map (·.job)).toList

/-- The queue holds `vs`; only workers take tasks, one at a time, and run what they took to its end before
they take more; a worker ends when it finds the queue destroyed; and the tasks that have ended are those
that workers have run to their end. -/
structure Sound (s : ThreadPool ι κ σ Task Op Res) (vs : List Task) : Prop where
  q : s.q.Sound vs
  client : ∀ c, ¬ s.q.InDeque (.inl c)
  worker : ∀ t, s.q.calls (.inr t) = .idle ∨ s.q.InDeque (.inr t)
  busy : ∀ t, s.workers.pool.threads t ≠ none → s.q.calls (.inr t) = .idle ∧ s.exited t = false
  exited : ∀ t, s.exited t = true → s.q.calls (.inr t) = .idle ∧ s.q.destroyed = true
  going : ∀ t, s.workers.going t = none ↔ s.workers.pool.threads t = none
  dead : ∀ t, s.q.calls (.inr t) = .dequeLeaves none → s.q.destroyed = true
  taken : ∀ p ∈ s.q.taken, ∃ t, p.1 = .inr t
  returned : ∀ t, s.q.returned (.inr t) = s.finished t ++ s.current t
  ended : (s.workers.ended.map (·.job) : Multiset Task) = ∑ t, (s.finished t : Multiset Task)

theorem create_sound (ids : List ι) (x : σ) :
    (create ids x : ThreadPool ι κ σ Task Op Res).Sound [] where
  q := Users.init_sound
  client c := by simp [Users.InDeque, create, Users.init]
  worker _ := Or.inl rfl
  busy _ h := absurd rfl h
  exited _ h := by simp [create] at h
  going _ := iff_of_true rfl rfl
  dead _ h := by simp [create, Users.init] at h
  taken _ h := absurd h List.not_mem_nil
  returned _ := rfl
  ended := by simp [create, Recorded.init]

namespace Sound

variable {vs : List Task}

/-- A step on the queue that is none of the last ones of a `SafeDeque`. -/
theorem onQueue (h : s.Sound vs) {a : QueueAction (κ ⊕ ι) Task} {q : Users (κ ⊕ ι) Task}
    (he : s.q.Effect a q) (henque : ∀ t data, a ≠ .enque (.inr t) data)
    (hdeque : ∀ u, a = .deque u →
      ∃ t, u = .inr t ∧ s.exited t = false ∧ s.workers.pool.threads t = none)
    (hrun : ∀ t w, a = .run (.inr t) w → ∀ data, s.q.calls (.inr t) ≠ .dequeLeaves data)
    (hq : s'.q = q) (hworkers : s'.workers = s.workers) (hexited : s'.exited = s.exited)
    (hfinished : s'.finished = s.finished) : ∃ vs', s'.Sound vs' := by
  obtain ⟨vs', hsound⟩ := h.q.step he
  -- A worker in a task, and one that has ended, does not call.
  have hidle : ∀ t, s.q.calls (.inr t) = .idle → s.exited t = true ∨ s.workers.pool.threads t ≠ none →
      q.calls (.inr t) = .idle := by
    intro t ht hno
    refine he.idle ht (henque t) fun ha => ?_
    obtain ⟨u, hu, halive, hfree⟩ := hdeque _ ha
    obtain rfl := Sum.inr.inj hu
    rcases hno with hno | hno
    · rw [halive] at hno
      cases hno
    · exact hno hfree
  have hreturned : ∀ t, q.returned (.inr t) = s.q.returned (.inr t) := by
    intro t
    refine he.returned_eq ?_
    by_cases ha : ∃ w, a = .run (.inr t) w
    · obtain ⟨w, ha⟩ := ha
      exact Or.inr (hrun t w ha)
    · exact Or.inl fun w hw => ha ⟨w, hw⟩
  refine ⟨vs', hq.symm ▸ hsound, ?_, ?_, ?_, ?_, ?_, ?_, ?_, ?_, ?_⟩
  · intro c hc
    rw [hq] at hc
    rcases he.inDeque hc with hc | ha
    · exact h.client c hc
    · obtain ⟨t, ht, -⟩ := hdeque _ ha
      cases ht
  · intro t
    rw [hq]
    exact he.idle_or_inDeque (h.worker t) (henque t)
  · intro t ht
    rw [hworkers] at ht
    rw [hq, hexited]
    exact ⟨hidle t (h.busy t ht).1 (Or.inr ht), (h.busy t ht).2⟩
  · intro t ht
    rw [hexited] at ht
    rw [hq]
    exact ⟨hidle t (h.exited t ht).1 (Or.inl ht), he.destroyed (h.exited t ht).2⟩
  · rw [hworkers]
    exact h.going
  · intro t ht
    rw [hq] at ht ⊢
    rcases he.destroyed_of_leaves ht with ht | hd
    · exact he.destroyed (h.dead t ht)
    · exact he.destroyed hd
  · intro p hp
    rw [hq] at hp
    rcases he.taken hp with hp | hp
    · exact h.taken p hp
    · obtain ⟨u, x⟩ := p
      cases u with
      | inl c => exact absurd hp (h.client c)
      | inr t => exact ⟨t, rfl⟩
  · intro t
    rw [hq, hreturned, h.returned, hfinished, current, current, hworkers]
  · rw [hworkers, hfinished]
    exact h.ended

/-- `SafeDeque` returns to a worker, which starts the task or ends. -/
theorem leaves (h : s.Sound vs) {t : ι} {data : Option Task}
    (hcall : s.q.calls (.inr t) = .dequeLeaves data)
    (hq : s'.q = (s.q.discount.answer (.inr t) data).goto (.inr t) .idle)
    (hexited : ∀ u, s'.exited u = true → s.exited u = true ∨ u = t ∧ data = none)
    (hbusy : ∀ u, s'.workers.pool.threads u ≠ none →
      s.workers.pool.threads u ≠ none ∧ s'.exited u = s.exited u ∨ u = t ∧ s'.exited u = false)
    (hgoing : ∀ u, s'.workers.going u = none ↔ s'.workers.pool.threads u = none)
    (hcurrent : ∀ u, s'.current u = s.current u ++ if u = t then data.toList else [])
    (hended : s'.workers.ended = s.workers.ended) (hfinished : s'.finished = s.finished) :
    ∃ vs', s'.Sound vs' := by
  have he : s.q.Effect (.run (.inr t) none) s'.q := hq ▸ .dequeEnds hcall
  obtain ⟨vs', hsound⟩ := h.q.step he
  have hidle : ∀ u, s.q.calls (.inr u) = .idle → s'.q.calls (.inr u) = .idle := fun u hu =>
    he.idle hu (fun _ => by simp) (by simp)
  have hself : s'.q.calls (.inr t) = .idle := by
    rw [hq]
    exact Users.goto_self _ _ _
  refine ⟨vs', hsound, ?_, ?_, ?_, ?_, hgoing, ?_, ?_, ?_, ?_⟩
  · intro c hc
    rcases he.inDeque hc with hc | ha
    · exact h.client c hc
    · cases ha
  · exact fun u => he.idle_or_inDeque (h.worker u) fun _ => by simp
  · intro u hu
    rcases hbusy u hu with ⟨hu, heq⟩ | ⟨rfl, halive⟩
    · exact ⟨hidle u (h.busy u hu).1, heq.trans (h.busy u hu).2⟩
    · exact ⟨hself, halive⟩
  · intro u hu
    rcases hexited u hu with hu | ⟨rfl, rfl⟩
    · exact ⟨hidle u (h.exited u hu).1, he.destroyed (h.exited u hu).2⟩
    · exact ⟨hself, he.destroyed (h.dead u hcall)⟩
  · intro u hu
    rcases he.destroyed_of_leaves hu with hu | hd
    · exact he.destroyed (h.dead u hu)
    · exact he.destroyed hd
  · intro p hp
    rw [hq] at hp
    exact h.taken p hp
  · intro u
    rw [hcurrent, ← List.append_assoc, hfinished, ← h.returned, hq]
    simp only [Users.goto, Users.answer, Users.discount, Function.update_apply, Sum.inr.injEq]
    split_ifs with hut
    · rw [hut]
    · rw [List.append_nil]
  · rw [hended, hfinished]
    exact h.ended

/-- A worker takes a step in its task, or ends it. -/
theorem runs (h : s.Sound vs) {t : ι} {e : Env} {p : Prog Op Res Fault Unit}
    {workers : Recorded ι σ Task Op Res Fault} (hp : s.workers.pool.threads t = some p)
    (hrun : s.workers.step body perform change (.run t e : PoolAction ι Task Env X) = .ok workers) :
    Sound { s with workers := workers, finished := s.finish t } vs := by
  have hbusy := h.busy t (by rw [hp]; simp)
  cases Recorded.step_effect hrun with
  | idle free => cases hp.symm.trans free
  | @ends t e x last =>
    have hfinish : s.finish t = Function.update s.finished t (s.finished t ++ s.current t) := by
      simp only [finish, last, current]
    refine ⟨h.q, h.client, h.worker, fun u hu => h.busy u fun hnone => hu ?_, h.exited, fun u => ?_,
      h.dead, h.taken, fun u => ?_, ?_⟩
    · simp [Function.update_apply, hnone]
    · simp only [Function.update_apply]
      split_ifs
      · exact iff_of_true rfl rfl
      · exact h.going u
    · simp only [current, hfinish, Function.update_apply]
      split_ifs with hut
      · rw [hut, h.returned]
        exact (List.append_nil _).symm
      · exact h.returned u
    · rw [hfinish, sum_update_append, ← h.ended, List.map_append, ← Multiset.coe_add, current,
        Option.toList_map]
  | @calls t e o k r shared next performs =>
    have hfinish : s.finish t = s.finished := by simp only [finish, next]
    refine ⟨h.q, h.client, h.worker, fun u hu => ?_, h.exited, fun u => ?_, h.dead, h.taken, fun u => ?_,
      hfinish ▸ h.ended⟩
    · by_cases hut : u = t
      · subst hut
        exact hbusy
      · exact h.busy u (by simpa [Function.update_of_ne hut] using hu)
    · simp only [Function.update_apply]
      split_ifs with hut
      · have := h.going t
        rw [hp] at this
        simpa using this
      · exact h.going u
    · rw [hfinish]
      simp only [current, Function.update_apply]
      split_ifs with hut
      · rw [hut, h.returned]
        cases hg : s.workers.going t <;> simp [current, hg]
      · exact h.returned u

/-- A step keeps the pool sound. -/
theorem step (h : s.Sound vs) {a : ThreadPoolAction ι κ Task Env X}
    (he : s.Effect body perform change a s') : ∃ vs', s'.Sound vs' := by
  cases he with
  | adds enques =>
    exact h.onQueue enques (fun _ _ => by simp) (fun _ => by simp) (fun _ _ => by simp) rfl rfl rfl rfl
  | client proceeds =>
    exact h.onQueue proceeds (fun _ _ => by simp) (fun _ => by simp) (fun _ _ => by simp) rfl rfl rfl
      rfl
  | @calls t w q alive free deques =>
    refine h.onQueue deques (fun _ _ => by simp) (fun u hu => ?_) (fun _ _ => by simp) rfl rfl rfl rfl
    cases hu
    exact ⟨t, rfl, alive, free⟩
  | @proceeds t w q alive free stays proceeds =>
    refine h.onQueue proceeds (fun _ _ => by simp) (fun _ => by simp) (fun u w' hu => ?_) rfl rfl rfl
      rfl
    cases hu
    exact stays
  | @starts t w task alive free call =>
    have hnone := (h.going t).mpr free
    refine h.leaves call rfl (fun u hu => Or.inl hu) (fun u hu => ?_) (fun u => ?_) (fun u => ?_) rfl rfl
    · by_cases hut : u = t
      · exact Or.inr ⟨hut, hut ▸ alive⟩
      · exact Or.inl ⟨by simpa [Function.update_of_ne hut] using hu, rfl⟩
    · simp only [Function.update_apply]
      split_ifs
      · simp
      · exact h.going u
    · simp only [current, Function.update_apply]
      split_ifs with hut
      · rw [hut, hnone]
        rfl
      · exact (List.append_nil _).symm
  | @leaves t w alive free call =>
    refine h.leaves call rfl (fun u hu => ?_) (fun u hu => Or.inl ⟨hu, ?_⟩) h.going (fun u => ?_) rfl rfl
    · by_cases hut : u = t
      · exact Or.inr ⟨hut, rfl⟩
      · exact Or.inl (by simpa [Function.update_of_ne hut] using hu)
    · refine Function.update_of_ne ?_ _ _
      rintro rfl
      exact hu free
    · split_ifs <;> exact (List.append_nil _).symm
  | @exits t w alive free idle dead =>
    refine ⟨vs, h.q, h.client, h.worker, fun u hu => ⟨(h.busy u hu).1, ?_⟩, fun u hu => ?_, h.going,
      h.dead, h.taken, h.returned, h.ended⟩
    · refine (Function.update_of_ne ?_ _ _).trans (h.busy u hu).2
      rintro rfl
      exact hu free
    · by_cases hut : u = t
      · subst hut
        exact ⟨idle, dead⟩
      · exact h.exited u (by simpa [Function.update_of_ne hut] using hu)
  | wakes wakes =>
    exact h.onQueue wakes (fun _ _ => by simp) (fun _ => by simp) (fun _ _ => by simp) rfl rfl rfl rfl
  | runs busy runs => exact ⟨vs, h.runs busy runs⟩
  | outside =>
    exact ⟨vs, h.q, h.client, h.worker, h.busy, h.exited, h.going, h.dead, h.taken, h.returned, h.ended⟩
  | destroys closer stays destroys =>
    exact h.onQueue destroys (fun _ _ => by simp) (fun _ => by simp) (fun _ _ => by simp) rfl rfl rfl rfl
  | frees closer left frees =>
    exact h.onQueue frees (fun _ _ => by simp) (fun _ => by simp) (fun _ _ => by simp) rfl rfl rfl rfl
  | joins closer gone =>
    exact ⟨vs, h.q, h.client, h.worker, h.busy, h.exited, h.going, h.dead, h.taken, h.returned, h.ended⟩
  | returns closer =>
    exact ⟨vs, h.q, h.client, h.worker, h.busy, h.exited, h.going, h.dead, h.taken, h.returned, h.ended⟩
  | wakesCloser wakes =>
    exact h.onQueue wakes (fun _ _ => by simp) (fun _ => by simp) (fun _ _ => by simp) rfl rfl rfl rfl

/-- What was taken is, for each worker, what it has run to its end, what it runs, and what its call of
`SafeDeque` is about to return. -/
theorem taken_eq (h : s.Sound vs) : (s.q.taken.map Prod.snd : Multiset Task) =
    ∑ t, ((s.finished t ++ s.current t ++ (s.q.calls (.inr t)).inFlight : List Task) :
      Multiset Task) := by
  have htaken : ∀ t, s.finished t ++ s.current t ++ (s.q.calls (.inr t)).inFlight =
      s.q.takenBy (.inr t) := fun t => by rw [← h.returned, h.q.returned]
  simp only [htaken]
  exact sum_takenBy h.taken

/-- What was enqueued has ended, is at work, is about to be started, or is in the queue. -/
theorem count (h : s.Sound vs) : (s.q.enqueued : Multiset Task) =
    s.workers.ended.map (·.job) + ∑ t, (s.current t : Multiset Task) +
      ∑ t, ((s.q.calls (.inr t)).inFlight : Multiset Task) + vs := by
  rw [← h.q.order, ← Multiset.coe_add, h.taken_eq, h.ended]
  simp only [← Multiset.coe_add, Finset.sum_add_distrib]

end Sound

variable [Fintype κ] {ids : List ι} {x : σ} {as : List (ThreadPoolAction ι κ Task Env X)}

/-- Every state that a new pool gets to is sound. -/
theorem sound_of_exec (hs : exec (step body perform change) (create ids x) as = .ok s) :
    ∃ vs, s.Sound vs := by
  have hall : Meets (step body perform change) (fun _ _ => True)
      (create ids x : ThreadPool ι κ σ Task Op Res) as := meets_of_forall fun _ _ _ => trivial
  refine exec_invariant (I := fun s : ThreadPool ι κ σ Task Op Res => ∃ vs, s.Sound vs)
    ⟨[], create_sound ids x⟩ (fun s a s' h _ hstep => ?_) hall as (List.prefix_refl as) s hs
  obtain ⟨vs, h⟩ := h
  rcases step_cases hstep with rfl | he
  · exact ⟨vs, h⟩
  · exact h.step he

/-- **Every task once.** In every run of a pool with any number of clients and workers, which may be closed
at any time: what the workers took off the queue, followed by what is in it, is what was added, in order;
and each task that was added is, as often as it was added, in the queue, returned to a worker that has not
started it yet, at work, or has ended. -/
theorem tasks_run_once (hs : exec (step body perform change) (create ids x) as = .ok s) :
    ∃ vs, (s.q.destroyer ≠ .done → s.q.Holds vs) ∧ s.q.taken.map Prod.snd ++ vs = s.q.enqueued ∧
      (s.q.enqueued : Multiset Task) = s.workers.ended.map (·.job) + ∑ t, (s.current t : Multiset Task) +
        ∑ t, ((s.q.calls (.inr t)).inFlight : Multiset Task) + vs := by
  obtain ⟨vs, h⟩ := sound_of_exec hs
  exact ⟨vs, h.q.holds, h.q.order, h.count⟩

/-- A pool of one worker and one client, whose tasks are over at once. -/
abbrev Trivial : Type := ThreadPool Unit Unit Unit ℕ Empty fun _ => Unit

/-- A step of it. -/
def trivialStep : Trivial → ThreadPoolAction Unit Unit ℕ Unit Unit → Run Trivial :=
  step (fun _ => .pure ()) (fun o _ _ => nomatch o) (fun _ s => s)

/-- A task is added to it. -/
def added (task : ℕ) : List (ThreadPoolAction Unit Unit ℕ Unit Unit) :=
  .addTask () task :: List.replicate 4 (.client () none)

/-- Its worker takes a task off the queue, and runs it. -/
def served : List (ThreadPoolAction Unit Unit ℕ Unit Unit) :=
  List.replicate 5 (.worker () none) ++ [.run () ()]

/-- `tasks_run_once` for two tasks, of which one has been run. -/
theorem tasks_run_once_two : ∃ (s : Trivial) (vs : List ℕ),
    exec trivialStep (create [()] ()) (added 7 ++ added 8 ++ served) = .ok s ∧
    s.workers.ended.map (·.job) = [7] ∧ s.q.taken.map Prod.snd ++ vs = s.q.enqueued ∧
      (s.q.enqueued : Multiset ℕ) = s.workers.ended.map (·.job) + ∑ t, (s.current t : Multiset ℕ) +
        ∑ t, ((s.q.calls (.inr t)).inFlight : Multiset ℕ) + vs := by
  obtain ⟨s, hs, hended⟩ : ∃ s,
      exec trivialStep (create [()] ()) (added 7 ++ added 8 ++ served) = .ok s ∧
        decide (s.workers.ended.map (·.job) = [7]) = true := exec_reaches (by decide +kernel)
  obtain ⟨vs, -, horder, hcount⟩ := tasks_run_once hs
  exact ⟨s, vs, hs, of_decide_eq_true hended, horder, hcount⟩

/-! ## What `ClosePool` leaves -/

/-- Once `SafeDestroy` is over the workers are waited for, and those that are not have ended. -/
structure Closes (s : ThreadPool ι κ σ Task Op Res) : Prop where
  done : s.closer ≠ .destroys → s.q.destroyer = .done
  joined : ∀ t ∈ s.ids, s.exited t = true ∨ s.closer = .destroys ∨
    ∃ ids, s.closer = .joins ids ∧ t ∈ ids

omit [DecidableEq ι] [DecidableEq κ] [Fintype ι] [Fintype κ] in
theorem create_closes (ids : List ι) (x : σ) :
    (create ids x : ThreadPool ι κ σ Task Op Res).Closes :=
  ⟨fun h => absurd rfl h, fun _ _ => Or.inr (Or.inl rfl)⟩

omit [Fintype ι] [Fintype κ] in
/-- A step keeps what `ClosePool` has done. -/
theorem Closes.step (h : s.Closes) {a : ThreadPoolAction ι κ Task Env X}
    (he : s.Effect body perform change a s') : s'.Closes ∧ s'.ids = s.ids := by
  have hdone : s.closer ≠ .destroys → s'.q.destroyer = .done := by
    intro hc
    rcases he.queue with heq | ⟨qa, hqa, -⟩
    · rw [heq]
      exact h.done hc
    · exact hqa.done_iff.mpr (Or.inl (h.done hc))
  have hexit : ∀ {q : Users (κ ⊕ ι) Task} (t : ι), (s.closer ≠ .destroys → q.destroyer = .done) →
      Closes { s with q := q, exited := Function.update s.exited t true } := by
    refine fun t hq => ⟨hq, fun u hu => ?_⟩
    rcases h.joined u hu with hgone | hrest
    · refine Or.inl ?_
      simp only [Function.update_apply]
      split_ifs
      · rfl
      · exact hgone
    · exact Or.inr hrest
  cases he with
  | @leaves t w alive free call => exact ⟨hexit t hdone, rfl⟩
  | @exits t w alive free idle dead => exact ⟨hexit t hdone, rfl⟩
  | frees closer left frees =>
    exact ⟨⟨fun _ => frees.done_iff.mpr (Or.inr ⟨rfl, left⟩),
      fun t ht => Or.inr (Or.inr ⟨s.ids, rfl, ht⟩)⟩, rfl⟩
  | @joins t ids closer gone =>
    refine ⟨⟨fun _ => h.done (by simp [closer]), fun u hu => ?_⟩, rfl⟩
    rcases h.joined u hu with hgone | hd | ⟨ids', hids, hmem⟩
    · exact Or.inl hgone
    · rw [closer] at hd
      cases hd
    · rw [closer] at hids
      cases hids
      rcases List.mem_cons.mp hmem with rfl | hmem
      · exact Or.inl gone
      · exact Or.inr (Or.inr ⟨ids, rfl, hmem⟩)
  | returns closer =>
    refine ⟨⟨fun _ => h.done (by simp [closer]), fun u hu => ?_⟩, rfl⟩
    rcases h.joined u hu with hgone | hd | ⟨ids', hids, hmem⟩
    · exact Or.inl hgone
    · rw [closer] at hd
      cases hd
    · rw [closer] at hids
      cases hids
      cases hmem
  | _ => exact ⟨⟨hdone, h.joined⟩, rfl⟩

/-- **Shutdown.** When `ClosePool` has returned, in any run, every worker has ended, and its steps do nothing
any more; every task that was taken off the queue has been run to its end; and the tasks that were not
are those that were in the queue when it was destroyed. -/
theorem closed_pool (hids : ∀ t, t ∈ ids)
    (hs : exec (step body perform change) (create ids x) as = .ok s) (hclosed : s.closer = .returned) :
    (∀ t, s.exited t = true ∧ s.workers.pool.threads t = none ∧
      ∀ w, s.step body perform change (.worker t w : ThreadPoolAction ι κ Task Env X) = .ok s) ∧
    s.q.destroyer = .done ∧
    (s.q.taken.map Prod.snd : Multiset Task) = s.workers.ended.map (·.job) := by
  obtain ⟨vs, h⟩ := sound_of_exec hs
  have hcloses : s.Closes ∧ s.ids = ids := by
    have hall : Meets (step body perform change) (fun _ _ => True)
        (create ids x : ThreadPool ι κ σ Task Op Res) as := meets_of_forall fun _ _ _ => trivial
    refine exec_invariant (I := fun s : ThreadPool ι κ σ Task Op Res => s.Closes ∧ s.ids = ids)
      ⟨create_closes ids x, rfl⟩ (fun s a s' h _ hstep => ?_) hall as (List.prefix_refl as) s hs
    rcases step_cases hstep with rfl | he
    · exact h
    · obtain ⟨hc, heq⟩ := h.1.step he
      exact ⟨hc, heq.trans h.2⟩
  have hgone : ∀ t, s.exited t = true := by
    intro t
    rcases hcloses.1.joined t (hcloses.2 ▸ hids t) with hgone | hd | ⟨ids', hd, -⟩
    · exact hgone
    · rw [hclosed] at hd
      cases hd
    · rw [hclosed] at hd
      cases hd
  have hfree : ∀ t, s.workers.pool.threads t = none := by
    intro t
    by_contra hne
    have := (h.busy t hne).2
    rw [hgone t] at this
    cases this
  refine ⟨fun t => ⟨hgone t, hfree t, fun w => ?_⟩, hcloses.1.done (by simp [hclosed]), ?_⟩
  · simp only [ThreadPool.step, workerStep, hgone t, true_or, if_true]
    rfl
  · rw [h.taken_eq, h.ended]
    refine Finset.sum_congr rfl fun t _ => ?_
    have hcurrent : s.current t = [] := by
      rw [current, (h.going t).mpr (hfree t)]
      rfl
    rw [hcurrent, (h.exited t (hgone t)).1]
    simp [Call.inFlight]

/-- Its pool is closed. -/
def closed : List (ThreadPoolAction Unit Unit ℕ Unit Unit) :=
  List.replicate 4 .close ++ [.worker () none, .close, .close]

/-- `closed_pool` for a pool that is closed when it has run the first of two tasks: 7 was taken off the
queue and run to its end, and 8 was not. -/
theorem closed_pool_one : ∃ s : Trivial,
    exec trivialStep (create [()] ()) (added 7 ++ added 8 ++ served ++ closed) = .ok s ∧
    (∀ t, s.exited t = true ∧ s.workers.pool.threads t = none ∧
      ∀ w, trivialStep s (.worker t w) = .ok s) ∧ s.q.destroyer = .done ∧
    s.q.enqueued = [7, 8] ∧ s.q.taken = [(.inr (), 7)] ∧
    ({7} : Multiset ℕ) = s.workers.ended.map (·.job) := by
  obtain ⟨s, hs, hlast⟩ : ∃ s,
      exec trivialStep (create [()] ()) (added 7 ++ added 8 ++ served ++ closed) = .ok s ∧
        (decide (s.closer = .returned) && decide (s.q.enqueued = [7, 8]) &&
          decide (s.q.taken = [(.inr (), 7)])) = true := exec_reaches (by decide +kernel)
  simp only [Bool.and_eq_true, decide_eq_true_eq] at hlast
  obtain ⟨⟨hclosed, henqueued⟩, htaken⟩ := hlast
  obtain ⟨hgone, hdone, hran⟩ := closed_pool (fun _ => List.mem_cons_self) hs hclosed
  rw [htaken] at hran
  exact ⟨s, hs, hgone, hdone, henqueued, htaken, hran⟩

/-! ## The workers by themselves -/

/-- What the workers do in a step, apart from the queue. -/
def does (s : ThreadPool ι κ σ Task Op Res) : ThreadPoolAction ι κ Task Env X → List (PoolAction ι Task Env X)
  | .worker t _ =>
    match s.exited t, s.workers.pool.threads t, s.q.calls (.inr t) with
    | false, none, .dequeLeaves (some task) => [.start t task]
    | _, _, _ => []
  | .run t e => [.run t e]
  | .outside x => [.outside x]
  | _ => []

/-- A step of the pool is one of its workers, or leaves them as they are. -/
theorem step_does {a : ThreadPoolAction ι κ Task Env X} (h : s.step body perform change a = .ok s') :
    s.does a = [] ∧ s'.workers = s.workers ∨
      ∃ b, s.does a = [b] ∧ s.workers.step body perform change b = .ok s'.workers := by
  cases a with
  | worker t w =>
    simp only [does]
    split
    · rename_i task halive hfree hcall
      obtain ⟨-, hw⟩ := workerStep_starts halive hfree hcall h
      exact Or.inr ⟨_, rfl, by rw [hw, Recorded.step, hfree]⟩
    · rename_i hnot
      refine Or.inl ⟨rfl, ?_⟩
      rcases step_cases h with rfl | he
      · rfl
      · cases he with
        | starts alive free call => exact (hnot _ alive free call).elim
        | calls | proceeds | leaves | exits => rfl
  | run t e =>
    obtain ⟨s₁, hwork, hs⟩ := Run.bind_eq_ok.mp h
    obtain ⟨workers, hw, hs₁⟩ := Run.bind_eq_ok.mp hwork
    obtain rfl := Except.ok.inj hs₁
    obtain rfl := Except.ok.inj hs
    exact Or.inr ⟨_, rfl, hw⟩
  | outside x =>
    obtain ⟨workers, hw, hs⟩ := Run.bind_eq_ok.mp h
    obtain rfl := Except.ok.inj hs
    exact Or.inr ⟨_, rfl, hw⟩
  | addTask | client | wake | close | wakeCloser =>
    refine Or.inl ⟨rfl, ?_⟩
    rcases step_cases h with rfl | he
    · rfl
    · cases he <;> rfl

omit [Fintype ι] [Fintype κ] in
/-- A step keeps the tasks of a kind when only such tasks are added. -/
theorem Effect.only {P : Task → Prop} {a : ThreadPoolAction ι κ Task Env X}
    (he : s.Effect body perform change a s') (h : s.q.Only P)
    (ha : ∀ c task, a = .addTask c task → P task) : s'.q.Only P := by
  rcases he.queue with heq | ⟨qa, hqa, htakes⟩
  · rw [heq]
    exact h
  · refine h.step (fun u task hu => ?_) hqa
    obtain rfl := hu
    cases htakes
    exact ha _ task rfl

omit [Fintype κ] in
/-- A task that a worker starts is one that was added. -/
theorem mem_does {P : Task → Prop} (h : ∃ vs, s.Sound vs) (honly : s.q.Only P) {t : ι} {task : Task}
    {a : ThreadPoolAction ι κ Task Env X} (hb : .start t task ∈ s.does a) : P task := by
  obtain ⟨vs, h⟩ := h
  cases a with
  | worker u w =>
    simp only [does] at hb
    split at hb
    · rename_i task' halive hfree hcall
      cases List.mem_singleton.mp hb
      refine honly.enqueued task (h.q.mem_enqueued (t := .inr t) ?_)
      rw [hcall]
      exact List.mem_singleton_self task
    · cases hb
  | run u e => cases List.mem_singleton.mp hb
  | outside x => cases List.mem_singleton.mp hb
  | addTask | client | wake | close | wakeCloser => cases hb

/-- No step faults that is not a fault of a task, before the nodes of the queue are freed. -/
theorem Sound.total {vs : List Task} (h : s.Sound vs) (hdone : s.q.destroyer ≠ .done)
    (hcloser : s.closer ≠ .returned) (a : ThreadPoolAction ι κ Task Env X)
    (hwork : ∀ b ∈ s.does a, ∃ workers, s.workers.step body perform change b = .ok workers) :
    ∃ s', s.step body perform change a = .ok s' := by
  have hqueue : ∀ qa, ∃ q, s.onQueue qa = .ok { s with q := q } := by
    intro qa
    obtain ⟨q, hq⟩ := h.q.total hdone qa
    exact ⟨q, by rw [ThreadPool.onQueue, hq]; rfl⟩
  cases a with
  | addTask c task =>
    obtain ⟨q, hq⟩ := hqueue (.enque (.inl c) task)
    simp only [ThreadPool.step]
    cases hc : s.closer with
    | returned => exact absurd hc hcloser
    | destroys => exact ⟨_, hq⟩
    | joins ids => exact ⟨_, hq⟩
  | client c w => exact (hqueue _).imp' _ fun _ h => h
  | wake t => exact (hqueue _).imp' _ fun _ h => h
  | wakeCloser => exact (hqueue _).imp' _ fun _ h => h
  | run t e =>
    obtain ⟨workers, hw⟩ := hwork _ (List.mem_singleton_self _)
    exact ⟨_, by rw [ThreadPool.step, work, hw]; rfl⟩
  | outside x => exact ⟨_, rfl⟩
  | worker t w =>
    simp only [ThreadPool.step, workerStep]
    by_cases hbusy : s.exited t ∨ (s.workers.pool.threads t).isSome
    · exact ⟨s, by rw [if_pos hbusy]; rfl⟩
    rw [if_neg hbusy]
    rw [not_or, Bool.not_eq_true, Option.not_isSome_iff_eq_none] at hbusy
    obtain ⟨q, hq⟩ := hqueue (.run (.inr t) w)
    cases hc : s.q.calls (.inr t) with
    | idle =>
      dsimp only
      split_ifs
      · exact ⟨_, rfl⟩
      · exact (hqueue _).imp' _ fun _ h => h
    | dequeLeaves data =>
      cases data with
      | none => exact ⟨_, by simp only [hq]; rfl⟩
      | some task =>
        simp only [hq, Run.ok_bind, work, Recorded.step, hbusy.2]
        exact ⟨_, rfl⟩
    | _ => exact ⟨_, hq⟩
  | close =>
    obtain ⟨q, hq⟩ := h.q.total hdone .destroy
    simp only [ThreadPool.step, closeStep]
    cases hc : s.closer with
    | destroys => exact ⟨_, by simp only [hq]; rfl⟩
    | returned => exact absurd hc hcloser
    | joins ids =>
      cases ids with
      | nil => exact ⟨_, rfl⟩
      | cons t ids => exact ⟨_, rfl⟩

end ThreadPool

end DnsRelayer
