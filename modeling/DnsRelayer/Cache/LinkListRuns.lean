import DnsRelayer.Cache.LinkList

/-!
# Runs of calls on a list

Callers make nodes, put them into a list at either end, take them out from anywhere, put them in
again and free them. `ListCall.sequence` says what each call does to the sequence of the nodes. In
every run from an empty list the heap holds that sequence, which is what the links say read in either
direction, and no call changes the links of a node that is neither in the list nor named by the call.
-/

namespace DnsRelayer

open Lib

variable {α : Type}

/-- A call on a list or on a node. -/
inductive ListCall (α : Type) where
  | newLinkNode (data : α)
  | freeLinkNode (nod : ℕ)
  | putInHead (nod : ℕ)
  | putInTail (nod : ℕ)
  | removeFromLinkList (nod : ℕ)

namespace ListCall

/-- The call, on the list `l`. -/
def perform (hp : LinkHeap α) (l : LinkList) : ListCall α → Run (LinkHeap α)
  | .newLinkNode data => .ok (DnsRelayer.newLinkNode hp data).2
  | .freeLinkNode nod => DnsRelayer.freeLinkNode hp nod
  | .putInHead nod => DnsRelayer.putInHead hp l nod
  | .putInTail nod => DnsRelayer.putInTail hp l nod
  | .removeFromLinkList nod => DnsRelayer.removeFromLinkList hp nod

/-- The sequence of the nodes after the call. -/
def sequence (xs : List ℕ) : ListCall α → List ℕ
  | .newLinkNode _ | .freeLinkNode _ => xs
  | .putInHead nod => nod :: xs
  | .putInTail nod => xs ++ [nod]
  | .removeFromLinkList nod => xs.erase nod

/-- The node that the call is about. -/
def node (hp : LinkHeap α) : ListCall α → ℕ
  | .newLinkNode _ => hp.brk
  | .freeLinkNode nod | .putInHead nod | .putInTail nod | .removeFromLinkList nod => nod

/-- A caller may make the call on the list `l` of the nodes `xs`: it puts in a live node that is not
in the list, takes out a node of the list, and frees no node of the list. -/
def Allowed (hp : LinkHeap α) (l : LinkList) (xs : List ℕ) : ListCall α → Prop
  | .newLinkNode _ => True
  | .freeLinkNode nod | .putInHead nod | .putInTail nod =>
    (hp.data nod).isSome ∧ nod ∉ l.head :: xs
  | .removeFromLinkList nod => nod ∈ xs

instance (hp : LinkHeap α) (l : LinkList) (xs : List ℕ) :
    (c : ListCall α) → Decidable (c.Allowed hp l xs)
  | .newLinkNode _ => inferInstanceAs (Decidable True)
  | .freeLinkNode nod | .putInHead nod | .putInTail nod =>
    inferInstanceAs (Decidable ((hp.data nod).isSome ∧ nod ∉ l.head :: xs))
  | .removeFromLinkList nod => inferInstanceAs (Decidable (nod ∈ xs))

/-- The calls, one after the other. -/
def run (l : LinkList) : LinkHeap α → List (ListCall α) → Run (LinkHeap α)
  | hp, [] => .ok hp
  | hp, c :: calls => do
    let hp ← c.perform hp l
    run l hp calls

/-- A caller may make each of the calls when its turn comes. -/
def AllAllowed (l : LinkList) : LinkHeap α → List ℕ → List (ListCall α) → Prop
  | _, _, [] => True
  | hp, xs, c :: calls => c.Allowed hp l xs ∧
    ∀ hp', c.perform hp l = .ok hp' → AllAllowed l hp' (c.sequence xs) calls

end ListCall

variable {hp : LinkHeap α} {l : LinkList} {xs : List ℕ}

/-- One call: it does not fault, the list is then the sequence that it is to be, and the links of
the nodes outside the list are as before, but for those of its node. -/
theorem ListCall.perform_isList (h : IsList hp l xs) (ha : hp.Allocated) {c : ListCall α}
    (hc : c.Allowed hp l xs) :
    ∃ hp', c.perform hp l = .ok hp' ∧ IsList hp' l (c.sequence xs) ∧ hp'.Allocated ∧
      ∀ a ∉ l.head :: xs, a ≠ c.node hp → hp'.next a = hp.next a ∧ hp'.pre a = hp.pre a := by
  cases c with
  | newLinkNode data =>
    obtain ⟨hl, ha'⟩ := newLinkNode_isList h ha data
    refine ⟨_, rfl, hl, ha', ?_⟩
    exact fun a _ hne => ⟨Function.update_of_ne hne _ _, Function.update_of_ne hne _ _⟩
  | freeLinkNode nod =>
    obtain ⟨hok, hl, ha'⟩ := freeLinkNode_isList h ha hc.1 hc.2
    exact ⟨_, hok, hl, ha', fun _ _ _ => ⟨rfl, rfl⟩⟩
  | putInHead nod =>
    obtain ⟨hp', hok, hl, hsame⟩ := putInHead_isList h hc.2 hc.1
    refine ⟨hp', hok, hl, hsame.allocated ha, ?_⟩
    exact fun a hnot hne => hsame.links_eq a (List.not_mem_cons_of_ne_of_not_mem hne hnot)
  | putInTail nod =>
    obtain ⟨hp', hok, hl, hsame⟩ := putInTail_isList h hc.2 hc.1
    refine ⟨hp', hok, hl, hsame.allocated ha, ?_⟩
    exact fun a hnot hne => hsame.links_eq a (List.not_mem_cons_of_ne_of_not_mem hne hnot)
  | removeFromLinkList nod =>
    -- the node is where it occurs first, which is its only place
    obtain ⟨r, b, hnot, rfl, herase⟩ := List.exists_erase_eq hc
    obtain ⟨hp', hok, hl, hsame, -⟩ := removeFromLinkList_isList h
    refine ⟨hp', hok, ?_, hsame.allocated ha, ?_⟩
    · rwa [sequence, herase]
    · exact fun a hnot _ => hsame.links_eq a hnot

/-- A sequence of calls. -/
theorem ListCall.run_isList (h : IsList hp l xs) (ha : hp.Allocated) {calls : List (ListCall α)}
    (hc : AllAllowed l hp xs calls) :
    ∃ hp', run l hp calls = .ok hp' ∧ IsList hp' l (calls.foldl sequence xs) ∧ hp'.Allocated := by
  induction calls generalizing hp xs with
  | nil => exact ⟨hp, rfl, h, ha⟩
  | cons c calls ih =>
    obtain ⟨hp₁, hok, h₁, ha₁, -⟩ := perform_isList h ha hc.1
    obtain ⟨hp', hok', h', ha'⟩ := ih h₁ ha₁ (hc.2 hp₁ hok)
    refine ⟨hp', ?_, h', ha'⟩
    unfold run
    rw [hok]
    exact hok'

/-! ## The list is the sequence -/

/-- The list `l` shows these nodes in this order, whichever way it is read. -/
structure Faithful (hp : LinkHeap α) (l : LinkList) (xs : List ℕ) : Prop where
  /-- Following `next` from the sentinel visits the nodes and returns to the sentinel. -/
  forward : List.iterate hp.next (hp.next l.head) (xs.length + 1) = xs ++ [l.head]
  /-- Following `pre` visits them in reverse. -/
  backward : List.iterate hp.pre (hp.pre l.head) (xs.length + 1) = xs.reverse ++ [l.head]
  /-- Every link that is followed is of live memory. -/
  live : ∀ a ∈ l.head :: xs, (hp.data a).isSome
  /-- No node appears twice, and the sentinel is none of them. -/
  nodup : (l.head :: xs).Nodup
  first : getFirstLinkNode hp l = .ok (xs.head?.getD NULL)
  last : getLastLinkNode hp l = .ok (xs.getLast?.getD NULL)
  first_eq_null : getFirstLinkNode hp l = .ok NULL ↔ xs = []
  last_eq_null : getLastLinkNode hp l = .ok NULL ↔ xs = []

/-- A ring of live nodes is faithful. -/
theorem IsList.faithful (h : IsList hp l xs) (ha : hp.Allocated) : Faithful hp l xs where
  forward := h.ring.next_links.iterate
  backward := by
    rw [← List.length_reverse]
    exact h.ring.pre_links.iterate
  live := h.live
  nodup := h.ring.nodup
  first := getFirstLinkNode_eq h
  last := getLastLinkNode_eq h
  first_eq_null := by
    rw [getFirstLinkNode_eq h]
    cases xs with
    | nil => simp
    | cons x r =>
      have hx : NULL < x := (ha x (h.live x (by simp))).1
      simpa using hx.ne'
  last_eq_null := by
    rw [getLastLinkNode_eq h]
    rcases List.eq_nil_or_concat' xs with rfl | ⟨r, x, rfl⟩
    · simp
    · have hx : NULL < x := (ha x (h.live x (by simp))).1
      simpa using hx.ne'

/-- Whatever is called on a list from `NewLinkList`, it shows the sequence of the nodes that the
calls make, and the next call changes the links of no node outside the list but its own. -/
theorem linkList_faithful (ha : hp.Allocated) (hbrk : NULL < hp.brk) {calls : List (ListCall α)}
    (hc : ListCall.AllAllowed (newLinkList hp).1 (newLinkList hp).2 [] calls) :
    ∃ hp', ListCall.run (newLinkList hp).1 (newLinkList hp).2 calls = .ok hp' ∧
      Faithful hp' (newLinkList hp).1 (calls.foldl ListCall.sequence []) ∧
      ∀ c : ListCall α, c.Allowed hp' (newLinkList hp).1 (calls.foldl ListCall.sequence []) →
        ∃ hp'', c.perform hp' (newLinkList hp).1 = .ok hp'' ∧
          ∀ a ∉ (newLinkList hp).1.head :: calls.foldl ListCall.sequence [], a ≠ c.node hp' →
            hp''.next a = hp'.next a ∧ hp''.pre a = hp'.pre a := by
  obtain ⟨h₀, ha₀⟩ := newLinkList_isList ha hbrk
  obtain ⟨hp', hok, h', ha'⟩ := ListCall.run_isList h₀ ha₀ hc
  refine ⟨hp', hok, h'.faithful ha', fun c hcall => ?_⟩
  obtain ⟨hp'', hok'', -, -, hframe⟩ := ListCall.perform_isList h' ha' hcall
  exact ⟨hp'', hok'', hframe⟩

/-- A node that is put in, taken out and put in again, as the only one, and a second one at the
end. -/
theorem linkList_faithful_two : ∃ hp' : LinkHeap Unit,
    ListCall.run ⟨1, 1⟩ (newLinkList emptyHeap).2
      [.newLinkNode (), .newLinkNode (), .putInHead 2, .removeFromLinkList 2, .putInTail 2,
        .putInTail 3] = .ok hp' ∧ Faithful hp' ⟨1, 1⟩ [2, 3] := by
  have hc : ListCall.AllAllowed ⟨1, 1⟩ (newLinkList (emptyHeap : LinkHeap Unit)).2 []
      [.newLinkNode (), .newLinkNode (), .putInHead 2, .removeFromLinkList 2, .putInTail 2,
        .putInTail 3] := by
    refine ⟨trivial, ?_⟩
    rintro _ ⟨⟩
    refine ⟨trivial, ?_⟩
    rintro _ ⟨⟩
    refine ⟨by decide, ?_⟩
    rintro _ ⟨⟩
    refine ⟨by decide, ?_⟩
    rintro _ ⟨⟩
    refine ⟨by decide, ?_⟩
    rintro _ ⟨⟩
    exact ⟨by decide, fun _ _ => trivial⟩
  obtain ⟨hp', hok, hl, -⟩ := @linkList_faithful Unit emptyHeap
    emptyHeap_allocated (by decide) _ hc
  exact ⟨hp', hok, hl⟩

end DnsRelayer
