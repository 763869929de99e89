import DnsRelayer.Pool.Queue
import DnsRelayer.Lib.Linked

/-!
# What the steps of the queue do

`Effect s a s'` says what a step can do, one case for each section of the code; `step_cases` is the
inversion of `Users.step`. The nodes of the queue are a linked list in memory, with the data that is
in the queue behind the head (`Users.Holds`): linking a node puts data at the end, and unlinking one
takes the first.
-/

namespace DnsRelayer

open Lib

namespace Users

variable {ι α : Type} [DecidableEq ι] {s s' : Users ι α} {t u : ι} {c : Call α}

@[simp]
theorem goto_self (s : Users ι α) (t : ι) (c : Call α) : (s.goto t c).calls t = c :=
  Function.update_self _ _ _

theorem goto_of_ne (s : Users ι α) (c : Call α) (h : u ≠ t) :
    (s.goto t c).calls u = s.calls u := Function.update_of_ne h _ _

/-- Where the threads are after one of them moved on. -/
theorem goto_calls (s : Users ι α) (t : ι) (c : Call α) (u : ι) :
    (s.goto t c).calls u = if u = t then c else s.calls u := Function.update_apply _ _ _ _

/-! ## The nodes in memory -/

/-- The nodes behind the head are linked up to `NULL`, the last one at the tail; new nodes get
addresses that no node has. -/
structure Chain (s : Users ι α) (hd : QueNode α) (ps : List (ℕ × QueNode α)) : Prop where
  linked : Linked QueNode.next s.nodes s.head ((s.head, hd) :: ps) NULL
  nodup : (s.head :: ps.map Prod.fst).Nodup
  tail : s.tail = (s.head :: ps.map Prod.fst).getLast (List.cons_ne_nil _ _)
  lt_brk : ∀ a ∈ s.head :: ps.map Prod.fst, NULL < a ∧ a < s.brk

/-- The data that is in the queue, in order. -/
def Holds (s : Users ι α) (vs : List α) : Prop :=
  ∃ hd ps, s.Chain hd ps ∧ ps.map (fun p => p.2.data) = vs.map some

omit [DecidableEq ι] in
/-- Only the memory of the queue matters. -/
theorem Holds.congr {vs : List α} (h : s.Holds vs) (hn : s'.nodes = s.nodes)
    (hh : s'.head = s.head) (ht : s'.tail = s.tail) (hb : s'.brk = s.brk) : s'.Holds vs := by
  obtain ⟨hd, ps, hc, hv⟩ := h
  refine ⟨hd, ps, ⟨?_, ?_, ?_, ?_⟩, hv⟩
  · rw [hn, hh]
    exact hc.linked
  · rw [hh]
    exact hc.nodup
  · rw [ht, hc.tail]
    simp only [hh]
  · rw [hh, hb]
    exact hc.lt_brk

omit [DecidableEq ι] in
/-- The queue is empty when it is new. -/
theorem init_holds : (init : Users ι α).Holds [] := by
  refine ⟨⟨none, NULL⟩, [], ⟨.cons ?_ (.nil _), by simp, rfl, ?_⟩, rfl⟩
  · simp [init]
  · simp [init, NULL]

omit [DecidableEq ι] in
/-- The head is the tail exactly when the queue is empty. -/
theorem Holds.head_eq_tail_iff {vs : List α} (h : s.Holds vs) : s.head = s.tail ↔ vs = [] := by
  obtain ⟨hd, ps, hc, hv⟩ := h
  have hvs : vs = [] ↔ ps = [] := by
    rw [← List.map_eq_nil_iff, ← hv, List.map_eq_nil_iff]
  rw [hvs, hc.tail]
  constructor
  · intro heq
    by_contra hne
    have hne' : ps.map Prod.fst ≠ [] := by simpa using hne
    rw [List.getLast_cons hne'] at heq
    exact (List.nodup_cons.mp hc.nodup).1 (heq ▸ List.getLast_mem hne')
  · rintro rfl
    rfl

omit [DecidableEq ι] in
/-- The node at the tail is the last one. -/
theorem Chain.last {hd : QueNode α} {ps : List (ℕ × QueNode α)} (h : s.Chain hd ps) :
    ∃ l n, (s.head, hd) :: ps = l ++ [(s.tail, n)] := by
  obtain ⟨l, ⟨a, n⟩, hl⟩ := (List.eq_nil_or_concat' ((s.head, hd) :: ps)).resolve_left
    (List.cons_ne_nil _ _)
  have hmap : s.head :: ps.map Prod.fst = l.map Prod.fst ++ [a] := by
    simpa using congrArg (List.map Prod.fst) hl
  have htail : s.tail = a := by
    rw [h.tail]
    simp only [hmap, List.getLast_append_singleton]
  exact ⟨l, n, by rw [hl, htail]⟩

omit [DecidableEq ι] in
/-- The node at an address of the list. -/
theorem node_of_eq {a : ℕ} {n : QueNode α} (h : s.nodes a = some n) : s.node a = .ok n := by
  rw [node, h]

omit [DecidableEq ι] in
/-- `SafeEnque` puts data at the end. -/
theorem Holds.link {vs : List α} (h : s.Holds vs) (data : α) :
    ∃ s', s.link data = .ok s' ∧ s'.Holds (vs ++ [data]) := by
  obtain ⟨hd, ps, hc, hv⟩ := h
  obtain ⟨l, n, hl⟩ := hc.last
  have hmap : s.head :: ps.map Prod.fst = l.map Prod.fst ++ [s.tail] := by
    simpa using congrArg (List.map Prod.fst) hl
  have hnode : s.nodes s.tail = some n :=
    hc.linked.node (p := (s.tail, n)) (by simp [hl])
  have hfresh : s.brk ∉ s.head :: ps.map Prod.fst := by
    intro hmem
    exact absurd (hc.lt_brk _ hmem).2 (lt_irrefl _)
  have hnodup : (l.map Prod.fst ++ [s.tail]).Nodup := hmap ▸ hc.nodup
  have htail : s.tail ∉ l.map Prod.fst := by
    intro hmem
    exact List.disjoint_of_nodup_append hnodup hmem (List.mem_singleton_self _)
  -- The last node points to the new one, which is the last node then.
  have hlinked : Linked QueNode.next
      (Function.update (Function.update s.nodes s.tail (some { n with next := s.brk })) s.brk
        (some ⟨some data, NULL⟩)) s.head
      (l ++ [(s.tail, { n with next := s.brk }), (s.brk, ⟨some data, NULL⟩)]) NULL := by
    have hold := hc.linked
    rw [hl] at hold
    have hnew := (hold.concat htail { n with next := s.brk }).update (c := s.brk)
      (by rw [hmap] at hfresh; simpa using hfresh) (some ⟨some data, NULL⟩)
    rw [show ∀ x y : ℕ × QueNode α, l ++ [x, y] = (l ++ [x]) ++ [y] by simp]
    exact linked_append.mpr ⟨_, hnew, .cons (Function.update_self _ _ _) (.nil _)⟩
  -- The head is still the first node, with the same data behind it and the new data.
  obtain ⟨hd', ps', hl', hfst, hdata⟩ : ∃ hd' ps', l ++ [(s.tail, { n with next := s.brk })] =
      (s.head, hd') :: ps' ∧ ps'.map Prod.fst = ps.map Prod.fst ∧
        ps'.map (fun p => p.2.data) = ps.map (fun p => p.2.data) := by
    cases l with
    | nil =>
      obtain ⟨heq, rfl⟩ := List.cons.inj hl
      exact ⟨_, [], by rw [List.nil_append, (Prod.mk.inj heq).1], rfl, rfl⟩
    | cons x l =>
      obtain ⟨rfl, rfl⟩ := List.cons.inj hl
      exact ⟨hd, l ++ [(s.tail, { n with next := s.brk })], rfl, by simp, by simp⟩
  refine ⟨_, by rw [Users.link, node_of_eq hnode]; rfl, hd', ps' ++ [(s.brk, ⟨some data, NULL⟩)],
    ⟨?_, ?_, ?_, ?_⟩, by simp [hdata, hv]⟩
  · rw [← List.cons_append, ← hl']
    simpa using hlinked
  · rw [List.map_append, hfst, ← List.cons_append]
    exact hc.nodup.append (List.nodup_singleton _) (by simpa using hfresh)
  · simp only [List.map_append, List.map_cons, List.map_nil, ← List.cons_append,
      List.getLast_append_singleton]
  · intro a ha
    rw [List.map_append, hfst, ← List.cons_append] at ha
    rcases List.mem_append.mp ha with ha | ha
    · exact ⟨(hc.lt_brk a ha).1, Nat.lt_succ_of_lt (hc.lt_brk a ha).2⟩
    · obtain rfl := List.mem_singleton.mp ha
      have := hc.lt_brk s.head List.mem_cons_self
      exact ⟨this.1.trans this.2, Nat.lt_succ_self _⟩

omit [DecidableEq ι] in
/-- `SafeDeque` takes the first data. -/
theorem Holds.unlink {v : α} {vs : List α} (h : s.Holds (v :: vs)) (t : ι) :
    ∃ s', s.unlink t = .ok (v, s') ∧ s'.Holds vs := by
  obtain ⟨hd, ps, hc, hv⟩ := h
  obtain ⟨⟨a, n⟩, ps, rfl⟩ : ∃ p ps', ps = p :: ps' := by
    cases ps with
    | nil => simp at hv
    | cons p ps => exact ⟨p, ps, rfl⟩
  simp only [List.map_cons, List.cons.injEq] at hv
  obtain ⟨-, hhead, hrest⟩ := linked_cons.mp hc.linked
  obtain ⟨ha, hnode, hps⟩ := linked_cons.mp hrest
  dsimp only at ha hhead hnode hps
  have hnodup := hc.nodup
  simp only [List.map_cons, List.nodup_cons, List.mem_cons, not_or] at hnodup
  obtain ⟨⟨hne, hhps⟩, haps, hndps⟩ := hnodup
  subst ha
  -- The node behind the head goes, and the head links to what comes after it.
  refine ⟨_, by simp only [Users.unlink, node_of_eq hhead, node_of_eq hnode, Run.ok_bind, hv.1]; rfl,
    { hd with next := n.next }, ps, ⟨.cons ?_ ?_, ?_, ?_, ?_⟩, hv.2⟩
  · simp [Function.update_of_ne hne]
  · exact (hps.update hhps _).update haps _
  · exact List.nodup_cons.mpr ⟨hhps, hndps⟩
  · -- The tail is the node that was taken exactly when it was the only one.
    have htail := hc.tail
    simp only [List.map_cons] at htail
    cases ps with
    | nil => simp [htail]
    | cons p ps =>
      have hlast : s.tail ∈ (p :: ps).map Prod.fst := by
        rw [htail]
        simp only [List.getLast_cons (List.cons_ne_nil _ _), List.map_cons]
        exact List.getLast_mem _
      rw [if_neg fun heq => haps (by rw [heq]; exact hlast), htail]
      simp only [List.getLast_cons (List.cons_ne_nil _ _), List.map_cons]
  · intro b hb
    refine hc.lt_brk b ?_
    rcases List.mem_cons.mp hb with rfl | hb
    · exact List.mem_cons_self
    · simp only [List.map_cons]
      exact List.mem_cons_of_mem _ (List.mem_cons_of_mem _ hb)

/-- `SafeDestroy` frees the nodes of a list. -/
theorem freeNodes_linked {nodes : ℕ → Option (QueNode α)} {ps : List (ℕ × QueNode α)} {a fuel : ℕ}
    (h : Linked QueNode.next nodes a ps NULL) (hnodup : (ps.map Prod.fst).Nodup)
    (hnull : NULL ∉ ps.map Prod.fst) (hfuel : ps.length < fuel) :
    ∃ nodes', freeNodes fuel a nodes = .ok nodes' := by
  induction ps generalizing a fuel nodes with
  | nil =>
    obtain rfl := linked_nil.mp h
    obtain ⟨fuel, rfl⟩ := Nat.exists_eq_add_of_lt hfuel
    exact ⟨nodes, by rw [freeNodes, if_pos rfl]⟩
  | cons p ps ih =>
    obtain ⟨rfl, hnode, hps⟩ := linked_cons.mp h
    obtain ⟨fuel, rfl⟩ : ∃ n, fuel = n + 1 := ⟨fuel - 1, by omega⟩
    rw [List.map_cons, List.nodup_cons] at hnodup
    rw [List.map_cons, List.mem_cons, not_or] at hnull
    obtain ⟨nodes', hok⟩ := ih (hps.update hnodup.1 none) hnodup.2 hnull.2
      (by simpa using hfuel)
    refine ⟨nodes', ?_⟩
    rw [freeNodes, if_neg (Ne.symm hnull.1), hnode]
    exact hok

omit [DecidableEq ι] in
/-- There are fewer nodes than addresses that were handed out. -/
theorem Holds.freeNodes {vs : List α} (h : s.Holds vs) :
    ∃ nodes', freeNodes (s.brk + 1) s.head s.nodes = .ok nodes' := by
  obtain ⟨hd, ps, hc, -⟩ := h
  refine freeNodes_linked hc.linked (by simpa using hc.nodup) ?_ ?_
  · intro hnull
    exact lt_irrefl _ (hc.lt_brk NULL (by simpa using hnull)).1
  · have hsub : s.head :: ps.map Prod.fst ⊆ List.range s.brk := fun a ha =>
      List.mem_range.mpr (hc.lt_brk a ha).2
    have := (List.Nodup.subperm hc.nodup hsub).length_le
    simp only [List.length_cons, List.length_map, List.length_range] at this ⊢
    omega

/-! ## The steps -/

variable [Fintype ι]

/-- What a step can do, apart from nothing. -/
inductive Effect (s : Users ι α) : QueueAction ι α → Users ι α → Prop
  | enque {t : ι} {data : α} (idle : s.calls t = .idle) (alive : s.destroyed = false) :
      Effect s (.enque t data) (s.goto t (.enqueTested data))
  | deque {t : ι} (idle : s.calls t = .idle) (alive : s.destroyed = false) :
      Effect s (.deque t) (s.goto t .dequeTested)
  | enqueCounts {t : ι} {w : Option ι} {data : α} (call : s.calls t = .enqueTested data) :
      Effect s (.run t w) ({ s with usedNum := s.usedNum + 1 }.goto t (.enqueCounted data))
  | enqueReturns {t : ι} {w : Option ι} {data : α} (call : s.calls t = .enqueCounted data)
      (unlocked : s.q_lock = none) (dead : s.destroyed = true) (not_done : s.destroyer ≠ .done) :
      Effect s (.run t w) (s.goto t .idle)
  | enqueLinks {t : ι} {w : Option ι} {data : α} {nodes : ℕ → Option (QueNode α)} {tail brk : ℕ}
      (call : s.calls t = .enqueCounted data) (unlocked : s.q_lock = none)
      (alive : s.destroyed = false)
      (links : s.link data = .ok { s with
        nodes := nodes, tail := tail, brk := brk, enqueued := s.enqueued ++ [data] }) :
      Effect s (.run t w) ({ s with
        nodes := nodes, tail := tail, brk := brk, enqueued := s.enqueued ++ [data]
        }.goto t .enqueLinked)
  | signals {t u : ι} (call : s.calls t = .enqueLinked) (blocked : s.calls u = .dequeBlocked) :
      Effect s (.run t (some u)) ((s.goto u .dequeCounted).goto t .enqueSignalled)
  | signalsNone {t : ι} (call : s.calls t = .enqueLinked)
      (none_blocked : ∀ u, s.calls u ≠ .dequeBlocked) :
      Effect s (.run t none) (s.goto t .enqueSignalled)
  | enqueEnds {t : ι} {w : Option ι} (call : s.calls t = .enqueSignalled) :
      Effect s (.run t w) (s.discount.goto t .idle)
  | dequeCounts {t : ι} {w : Option ι} (call : s.calls t = .dequeTested) :
      Effect s (.run t w) ({ s with usedNum := s.usedNum + 1 }.goto t .dequeCounted)
  | waits {t : ι} {w : Option ι} (call : s.calls t = .dequeCounted) (unlocked : s.q_lock = none)
      (alive : s.destroyed = false) (empty : s.head = s.tail) :
      Effect s (.run t w) ({ s with q_lock := some t }.goto t .dequeWaits)
  | passes {t : ι} {w : Option ι} (call : s.calls t = .dequeCounted) (unlocked : s.q_lock = none)
      (past : s.destroyed = true ∨ s.head ≠ s.tail) :
      Effect s (.run t w) ({ s with q_lock := some t }.goto t .dequePassed)
  | blocks {t : ι} {w : Option ι} (call : s.calls t = .dequeWaits) :
      Effect s (.run t w) ({ s with q_lock := none }.goto t .dequeBlocked)
  | finds {t : ι} {w : Option ι} (call : s.calls t = .dequePassed) (dead : s.destroyed = true) :
      Effect s (.run t w) ({ s with q_lock := none }.goto t (.dequeLeaves none))
  | takes {t : ι} {w : Option ι} {data : α} {nodes : ℕ → Option (QueNode α)} {tail : ℕ}
      (call : s.calls t = .dequePassed) (alive : s.destroyed = false)
      (unlinks : s.unlink t = .ok (data, { s with
        nodes := nodes, tail := tail, taken := s.taken ++ [(t, data)] })) :
      Effect s (.run t w) ({ s with
        nodes := nodes, tail := tail, taken := s.taken ++ [(t, data)], q_lock := none
        }.goto t (.dequeLeaves (some data)))
  | dequeEnds {t : ι} {w : Option ι} {data : Option α} (call : s.calls t = .dequeLeaves data) :
      Effect s (.run t w) ((s.discount.answer t data).goto t .idle)
  | wakes {t : ι} (call : s.calls t = .dequeBlocked) :
      Effect s (.wake t) (s.goto t .dequeCounted)
  | flags (destroyer : s.destroyer = .notCalled) :
      Effect s .destroy { s with destroyed := true, destroyer := .flagged }
  | broadcasts (destroyer : s.destroyer = .flagged) :
      Effect s .destroy { s with
        calls := fun t => if (s.calls t).isBlocked then .dequeCounted else s.calls t
        destroyer := .broadcast }
  | destroyerWaits (destroyer : s.destroyer = .broadcast) (used : s.usedNum > 0) :
      Effect s .destroy { s with destroyer := .waits }
  | leaves (destroyer : s.destroyer = .broadcast) (unused : s.usedNum ≤ 0) :
      Effect s .destroy { s with destroyer := .left }
  | frees {nodes : ℕ → Option (QueNode α)} (destroyer : s.destroyer = .left) :
      Effect s .destroy { s with nodes := nodes, destroyer := .done }
  | destroyerWakes (destroyer : s.destroyer = .waits) :
      Effect s .wakeDestroyer { s with destroyer := .broadcast }

theorem isIdle_iff : c.isIdle = true ↔ c = .idle := by
  cases c <;> simp [Call.isIdle]

theorem isBlocked_iff : c.isBlocked = true ↔ c = .dequeBlocked := by
  cases c <;> simp [Call.isBlocked]

/-- What a thread does next in its call. -/
theorem proceed_cases {w : Option ι} (hdone : ¬ (¬ (s.calls t).isIdle ∧ s.destroyer = .done))
    (h : s.proceed t w = .ok s') :
    s' = s ∨ s.Effect (.run t w) s' := by
  unfold proceed at h
  cases hc : s.calls t with
  | idle => rw [hc] at h; exact Or.inl (Except.ok.inj h).symm
  | enqueTested data => rw [hc] at h; cases h; exact Or.inr (.enqueCounts hc)
  | enqueCounted data =>
    rw [hc] at h
    dsimp only at h
    split_ifs at h with hlock hdead
    · exact Or.inl (Except.ok.inj h).symm
    · cases h
      exact Or.inr (.enqueReturns hc (by simpa using hlock) hdead
        fun hd => hdone ⟨by simp [hc, Call.isIdle], hd⟩)
    · obtain ⟨s₁, hlink, h⟩ := Run.bind_eq_ok.mp h
      obtain ⟨last, -, hs₁⟩ := Run.bind_eq_ok.mp hlink
      cases hs₁
      cases h
      exact Or.inr (.enqueLinks hc (by simpa using hlock) (by simpa using hdead) hlink)
  | enqueLinked =>
    rw [hc] at h
    cases w with
    | some u =>
      dsimp only at h
      split_ifs at h with hb
      · cases h
        exact Or.inr (.signals hc (isBlocked_iff.mp hb))
      · exact Or.inl (Except.ok.inj h).symm
    | none =>
      dsimp only at h
      split_ifs at h with hb
      · cases h
        exact Or.inr (.signalsNone hc fun u hu => hb u (isBlocked_iff.mpr hu))
      · exact Or.inl (Except.ok.inj h).symm
  | enqueSignalled => rw [hc] at h; cases h; exact Or.inr (.enqueEnds hc)
  | dequeTested => rw [hc] at h; cases h; exact Or.inr (.dequeCounts hc)
  | dequeCounted =>
    rw [hc] at h
    dsimp only at h
    split_ifs at h with hlock htest
    · exact Or.inl (Except.ok.inj h).symm
    · -- The loop's test holds: it waits.
      cases h
      exact Or.inr (.waits hc (by simpa using hlock) (by simpa using htest.1) htest.2)
    · cases h
      -- One of the two parts of the loop's test fails.
      refine Or.inr (.passes hc (by simpa using hlock) ?_)
      by_contra hno
      rw [not_or, not_not] at hno
      exact htest hno
  | dequeWaits => rw [hc] at h; cases h; exact Or.inr (.blocks hc)
  | dequeBlocked => rw [hc] at h; exact Or.inl (Except.ok.inj h).symm
  | dequePassed =>
    rw [hc] at h
    dsimp only at h
    split_ifs at h with hdead
    · cases h
      exact Or.inr (.finds hc hdead)
    · obtain ⟨⟨data, s₁⟩, htake, h⟩ := Run.bind_eq_ok.mp h
      obtain ⟨first, -, hs₁⟩ := Run.bind_eq_ok.mp htake
      obtain ⟨n, -, hs₁⟩ := Run.bind_eq_ok.mp hs₁
      cases hdata : n.data with
      | none => rw [hdata] at hs₁; cases hs₁
      | some v =>
        rw [hdata] at hs₁
        cases hs₁
        cases h
        exact Or.inr (.takes hc (by simpa using hdead) htake)
  | dequeLeaves data => rw [hc] at h; cases h; exact Or.inr (.dequeEnds hc)

omit [Fintype ι] in
/-- What `SafeDestroy` does next. -/
theorem destroyStep_cases (h : s.destroyStep = .ok s') : s' = s ∨ s.Effect .destroy s' := by
  unfold destroyStep at h
  cases hd : s.destroyer with
  | notCalled => rw [hd] at h; cases h; exact Or.inr (.flags hd)
  | flagged => rw [hd] at h; cases h; exact Or.inr (.broadcasts hd)
  | broadcast =>
    rw [hd] at h
    cases h
    split_ifs with hused
    · exact Or.inr (.destroyerWaits hd hused)
    · exact Or.inr (.leaves hd (not_lt.mp hused))
  | waits => rw [hd] at h; exact Or.inl (Except.ok.inj h).symm
  | left =>
    rw [hd] at h
    obtain ⟨nodes, -, h⟩ := Run.bind_eq_ok.mp h
    cases h
    exact Or.inr (.frees hd)
  | done => rw [hd] at h; exact Or.inl (Except.ok.inj h).symm

/-- What a step does. -/
theorem step_cases {a : QueueAction ι α} (h : s.step a = .ok s') : s' = s ∨ s.Effect a s' := by
  cases a with
  | enque t data =>
    simp only [step] at h
    split_ifs at h with hcond
    · cases h
      exact Or.inr (.enque (isIdle_iff.mp hcond.1) (by simpa using hcond.2))
    · exact Or.inl (Except.ok.inj h).symm
  | deque t =>
    simp only [step] at h
    split_ifs at h with hcond
    · cases h
      exact Or.inr (.deque (isIdle_iff.mp hcond.1) (by simpa using hcond.2))
    · exact Or.inl (Except.ok.inj h).symm
  | run t w =>
    simp only [step] at h
    split_ifs at h with hdone
    exact proceed_cases hdone h
  | wake t =>
    simp only [step] at h
    split_ifs at h with hb
    · cases h
      exact Or.inr (.wakes (isBlocked_iff.mp hb))
    · exact Or.inl (Except.ok.inj h).symm
  | destroy => exact destroyStep_cases h
  | wakeDestroyer =>
    simp only [step] at h
    split_ifs at h with hw
    · cases h
      exact Or.inr (.destroyerWakes hw)
    · exact Or.inl (Except.ok.inj h).symm

end Users

end DnsRelayer
