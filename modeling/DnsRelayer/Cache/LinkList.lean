import DnsRelayer.Basic
import DnsRelayer.Lib.Ring

/-!
# The doubly linked list of `src/cache/linkList.c`

The nodes live in a heap, which keeps the two links of every node apart from its content: an
assignment to `next` says nothing about `pre`. An address that holds no node is not to be
dereferenced; `0` is `NULL`, and `malloc` returns an address that it has never returned before, as
an object's identity in C ends with its life. `head` and `tail` of a list are one node, the
sentinel, whose content is never set.

`putInHead`, `putInTail` and `removeFromLinkList` are related to the rings of `Lib/Ring.lean` by
`putInHead_isList`, `putInTail_isList` and `removeFromLinkList_isList`: on a heap where the list is a
ring, they do not fault, the list is then the ring with the node in front, at the end, or without
it, and no other link has changed.
-/

namespace DnsRelayer

open Lib

/-- The nodes in memory: the content of each live node (none before it is set) and the links. -/
structure LinkHeap (α : Type) where
  data : ℕ → Option (Option α)
  pre : ℕ → ℕ
  next : ℕ → ℕ
  /-- The address that the next `malloc` returns. -/
  brk : ℕ

/-- A list: the addresses of its sentinel. -/
structure LinkList where
  head : ℕ
  tail : ℕ
  deriving DecidableEq, Repr

variable {α : Type}

namespace LinkHeap

/-- A dereference of an address: it faults when no node lives there. -/
def deref (hp : LinkHeap α) (nod : ℕ) : Run Unit :=
  if (hp.data nod).isSome then .ok () else .error .badPointer

/-- `nod->next`. -/
def getNext (hp : LinkHeap α) (nod : ℕ) : Run ℕ := do
  hp.deref nod
  return hp.next nod

/-- `nod->pre`. -/
def getPre (hp : LinkHeap α) (nod : ℕ) : Run ℕ := do
  hp.deref nod
  return hp.pre nod

/-- `nod->next = v`. -/
def setNext (hp : LinkHeap α) (nod v : ℕ) : Run (LinkHeap α) := do
  hp.deref nod
  return { hp with next := Function.update hp.next nod v }

/-- `nod->pre = v`. -/
def setPre (hp : LinkHeap α) (nod v : ℕ) : Run (LinkHeap α) := do
  hp.deref nod
  return { hp with pre := Function.update hp.pre nod v }

/-- The object that `nod->data` points to. -/
def getData (hp : LinkHeap α) (nod : ℕ) : Run α :=
  match hp.data nod with
  | some (some d) => .ok d
  | _ => .error .badPointer

/-- An assignment to the object that `nod->data` points to. -/
def setData (hp : LinkHeap α) (nod : ℕ) (d : α) : Run (LinkHeap α) := do
  let _ ← hp.getData nod
  return { hp with data := Function.update hp.data nod (some (some d)) }

/-- `malloc` of a node with this content. -/
def malloc (hp : LinkHeap α) (d : Option α) : ℕ × LinkHeap α :=
  (hp.brk, { hp with data := Function.update hp.data hp.brk (some d), brk := hp.brk + 1 })

end LinkHeap

/-- The heap before the first allocation. -/
def emptyHeap : LinkHeap α := ⟨fun _ => none, fun _ => NULL, fun _ => NULL, NULL + 1⟩

/-- `newLinkNode`: a node with a copy of the data. -/
def newLinkNode (hp : LinkHeap α) (data : α) : ℕ × LinkHeap α :=
  let (res, hp) := hp.malloc (some data)
  (res, { hp with
    next := Function.update hp.next res NULL
    pre := Function.update hp.pre res NULL })

/-- `freeLinkNode`: the node and its data are freed. -/
def freeLinkNode (hp : LinkHeap α) (nod : ℕ) : Run (LinkHeap α) := do
  hp.deref nod
  return { hp with data := Function.update hp.data nod none }

/-- `NewLinkList`. -/
def newLinkList (hp : LinkHeap α) : LinkList × LinkHeap α :=
  let (head, hp) := hp.malloc none
  (⟨head, head⟩, { hp with
    next := Function.update hp.next head head
    pre := Function.update hp.pre head head })

/-- `PutInHead`. -/
def putInHead (hp : LinkHeap α) (l : LinkList) (nod : ℕ) : Run (LinkHeap α) := do
  let hp ← hp.setNext nod (← hp.getNext l.head)
  let hp ← hp.setPre (← hp.getNext l.head) nod
  let hp ← hp.setNext l.head nod
  hp.setPre nod l.head

/-- `PutInTail`. -/
def putInTail (hp : LinkHeap α) (l : LinkList) (nod : ℕ) : Run (LinkHeap α) := do
  let hp ← hp.setPre nod (← hp.getPre l.tail)
  let hp ← hp.setNext (← hp.getPre l.tail) nod
  let hp ← hp.setNext nod l.tail
  hp.setPre l.tail nod

/-- `RemoveFromLinkList`. -/
def removeFromLinkList (hp : LinkHeap α) (nod : ℕ) : Run (LinkHeap α) := do
  let hp ← hp.setNext (← hp.getPre nod) (← hp.getNext nod)
  let hp ← hp.setPre (← hp.getNext nod) (← hp.getPre nod)
  let hp ← hp.setPre nod NULL
  hp.setNext nod NULL

/-- `GetFirstLinkNode`: the first node, `NULL` when there is none. -/
def getFirstLinkNode (hp : LinkHeap α) (l : LinkList) : Run ℕ := do
  if (← hp.getNext l.head) = l.tail then return NULL
  else hp.getNext l.head

/-- `GetLastLinkNode`: the last node, `NULL` when there is none. -/
def getLastLinkNode (hp : LinkHeap α) (l : LinkList) : Run ℕ := do
  if (← hp.getNext l.head) = l.tail then return NULL
  else hp.getPre l.tail

/-! ## Lists as rings -/

/-- The heap holds the list `l` of the live nodes `xs`. -/
structure IsList (hp : LinkHeap α) (l : LinkList) (xs : List ℕ) : Prop where
  /-- The nodes and the sentinel form a ring. -/
  ring : IsRing hp.next hp.pre l.head xs
  /-- Head and tail are one node. -/
  tail_eq : l.tail = l.head
  /-- The sentinel and every node are live. -/
  live : ∀ a ∈ l.head :: xs, (hp.data a).isSome

/-- The heap holds the list `l` of the nodes `xs`, each with its content set. -/
structure HoldsList (hp : LinkHeap α) (l : LinkList) (xs : List ℕ) : Prop where
  /-- The nodes and the sentinel form a ring. -/
  ring : IsRing hp.next hp.pre l.head xs
  /-- Head and tail are one node. -/
  tail_eq : l.tail = l.head
  /-- The sentinel is live. -/
  head_live : (hp.data l.head).isSome
  /-- Every node is live, with its content. -/
  live : ∀ a ∈ xs, ∃ d, hp.data a = some (some d)

/-- Nothing but the links of the nodes `as` is different in `hp'`. -/
structure LinkHeap.SameBut (hp hp' : LinkHeap α) (as : List ℕ) : Prop where
  data_eq : hp'.data = hp.data
  brk_eq : hp'.brk = hp.brk
  /-- The other nodes keep their links. -/
  links_eq : ∀ a ∉ as, hp'.next a = hp.next a ∧ hp'.pre a = hp.pre a

/-- Every live node was allocated: its address is not `NULL` and is below `brk`. -/
def LinkHeap.Allocated (hp : LinkHeap α) : Prop :=
  ∀ a, (hp.data a).isSome → NULL < a ∧ a < hp.brk

/-- Where no further node comes to life, memory in use stays allocated. -/
theorem LinkHeap.Allocated.mono {hp hp' : LinkHeap α} (h : hp.Allocated)
    (hdata : ∀ a, (hp'.data a).isSome → (hp.data a).isSome) (hbrk : hp.brk ≤ hp'.brk) :
    hp'.Allocated := fun a ha =>
  ⟨(h a (hdata a ha)).1, (h a (hdata a ha)).2.trans_le hbrk⟩

/-- `malloc` returns an address that is not in use. -/
theorem LinkHeap.Allocated.ne_brk {hp : LinkHeap α} (ha : hp.Allocated) {a : ℕ}
    (hs : (hp.data a).isSome) : a ≠ hp.brk := (ha a hs).2.ne

/-- With the memory that `malloc` gave, memory in use is allocated. -/
theorem LinkHeap.Allocated.malloc {hp hp' : LinkHeap α} (ha : hp.Allocated) (hbrk : NULL < hp.brk)
    {d : Option α} (hdata : hp'.data = Function.update hp.data hp.brk (some d))
    (hbrk' : hp'.brk = hp.brk + 1) : hp'.Allocated := by
  intro a hs
  rw [hdata] at hs
  rw [hbrk']
  by_cases hab : a = hp.brk
  · rw [hab]
    exact ⟨hbrk, Nat.lt_succ_self _⟩
  · rw [Function.update_of_ne hab] at hs
    exact ⟨(ha a hs).1, (ha a hs).2.trans (Nat.lt_succ_self _)⟩

theorem LinkHeap.SameBut.allocated {hp hp' : LinkHeap α} {as : List ℕ} (h : hp.SameBut hp' as)
    (ha : hp.Allocated) : hp'.Allocated :=
  ha.mono (fun _ hs => h.data_eq ▸ hs) h.brk_eq.ge

namespace LinkHeap

theorem getNext_of_live {hp : LinkHeap α} {nod : ℕ} (h : (hp.data nod).isSome) :
    hp.getNext nod = .ok (hp.next nod) := by simp [getNext, deref, h, pure, Except.pure]

theorem getPre_of_live {hp : LinkHeap α} {nod : ℕ} (h : (hp.data nod).isSome) :
    hp.getPre nod = .ok (hp.pre nod) := by simp [getPre, deref, h, pure, Except.pure]

theorem setNext_of_live {hp : LinkHeap α} {nod : ℕ} (v : ℕ) (h : (hp.data nod).isSome) :
    hp.setNext nod v = .ok { hp with next := Function.update hp.next nod v } := by
  simp [setNext, deref, h, pure, Except.pure]

theorem setPre_of_live {hp : LinkHeap α} {nod : ℕ} (v : ℕ) (h : (hp.data nod).isSome) :
    hp.setPre nod v = .ok { hp with pre := Function.update hp.pre nod v } := by
  simp [setPre, deref, h, pure, Except.pure]

/-- Only the data is read: a value is found where the heap has one. -/
theorem getData_eq_ok {hp : LinkHeap α} {nod : ℕ} {d : α} :
    hp.getData nod = .ok d ↔ hp.data nod = some (some d) := by
  unfold getData
  split
  · rename_i d' h
    simp [h]
  · rename_i h
    simp only [reduceCtorEq, false_iff]
    exact h d

end LinkHeap

variable {hp : LinkHeap α} {l : LinkList} {xs : List ℕ} {nod : ℕ}

theorem HoldsList.isList (h : HoldsList hp l xs) : IsList hp l xs where
  ring := h.ring
  tail_eq := h.tail_eq
  live := by
    intro a ha
    rcases List.mem_cons.mp ha with rfl | ha
    · exact h.head_live
    · obtain ⟨d, hd⟩ := h.live a ha
      simp [hd]

theorem IsList.holdsList (h : IsList hp l xs) (hlive : ∀ a ∈ xs, ∃ d, hp.data a = some (some d)) :
    HoldsList hp l xs := ⟨h.ring, h.tail_eq, h.live _ List.mem_cons_self, hlive⟩

/-- Every address that the ring links to is live. -/
theorem HoldsList.isSome_of_mem (h : HoldsList hp l xs) {a : ℕ} (ha : a ∈ l.head :: xs) :
    (hp.data a).isSome := h.isList.live a ha

theorem IsList.congr {hp' : LinkHeap α} (h : IsList hp l xs)
    (hn : ∀ a ∈ l.head :: xs, hp'.next a = hp.next a)
    (hpre : ∀ a ∈ l.head :: xs, hp'.pre a = hp.pre a)
    (hlive : ∀ a ∈ l.head :: xs, (hp'.data a).isSome) : IsList hp' l xs :=
  ⟨h.ring.congr hn hpre, h.tail_eq, hlive⟩

/-- An assignment to nodes outside the list keeps it, as long as its nodes keep a content and their
links. -/
theorem HoldsList.congr {hp' : LinkHeap α} (h : HoldsList hp l xs)
    (hn : ∀ a ∈ l.head :: xs, hp'.next a = hp.next a)
    (hpre : ∀ a ∈ l.head :: xs, hp'.pre a = hp.pre a) (hhead : (hp'.data l.head).isSome)
    (hlive : ∀ a ∈ xs, ∃ d, hp'.data a = some (some d)) : HoldsList hp' l xs :=
  ⟨h.ring.congr hn hpre, h.tail_eq, hhead, hlive⟩

/-- A node that goes between the neighbours `p` and `q`, by the four assignments to their links. -/
theorem IsList.insert {a b u v : List ℕ} {p q : ℕ} (h : IsList hp l (a ++ b))
    (hp' : l.head :: a = u ++ [p]) (hq : b ++ [l.head] = q :: v) (hnod : nod ∉ l.head :: (a ++ b))
    (hlive : (hp.data nod).isSome) :
    IsList { hp with
      next := Function.update (Function.update hp.next nod q) p nod
      pre := Function.update (Function.update hp.pre nod p) q nod } l (a ++ nod :: b) where
  ring := h.ring.insert hp' hq hnod
  tail_eq := h.tail_eq
  live := by
    intro c hc
    by_cases hcn : c = nod
    · rw [hcn]
      exact hlive
    · exact h.live c (by simp_all)

/-- `PutInHead` of a live node that is not in the list: the node is then in front. -/
theorem putInHead_isList (h : IsList hp l xs) (hnod : nod ∉ l.head :: xs)
    (hlive : (hp.data nod).isSome) :
    ∃ hp', putInHead hp l nod = .ok hp' ∧ IsList hp' l (nod :: xs) ∧
      hp.SameBut hp' (nod :: l.head :: xs) := by
  have hhead := h.live l.head List.mem_cons_self
  -- `q` is the first node of the list, or the sentinel.
  obtain ⟨q, v, hq⟩ : ∃ q v, xs ++ [l.head] = q :: v := by cases xs <;> simp
  have hnext : hp.next l.head = q := (IsRing.neighbours (l := []) h.ring (u := []) rfl hq).1
  have hqmem : q ∈ l.head :: xs := by
    have : q ∈ xs ++ [l.head] := by simp [hq]
    simpa [or_comm] using this
  have hqne : nod ≠ q := fun e => hnod (e ▸ hqmem)
  have hne : nod ≠ l.head := fun e => hnod (by simp [e])
  refine ⟨{ hp with
    next := Function.update (Function.update hp.next nod q) l.head nod
    pre := Function.update (Function.update hp.pre q nod) nod l.head }, ?_, ?_, rfl, rfl, ?_⟩
  · simp only [putInHead, LinkHeap.getNext_of_live hhead, LinkHeap.setNext_of_live _ hlive,
      Run.ok_bind, hnext]
    rw [LinkHeap.getNext_of_live (by exact hhead), Run.ok_bind]
    simp only [Function.update_of_ne hne.symm, hnext]
    rw [LinkHeap.setPre_of_live _ (by exact h.live q hqmem), Run.ok_bind,
      LinkHeap.setNext_of_live _ (by exact hhead), Run.ok_bind,
      LinkHeap.setPre_of_live _ (by exact hlive)]
  · have hins := IsList.insert (a := []) h (u := []) rfl hq hnod hlive
    rwa [Function.update_comm hqne] at hins
  · intro a ha
    simp only [List.mem_cons, not_or] at ha hqmem
    have haq : a ≠ q := by
      rintro rfl
      tauto
    simp only [Function.update_of_ne ha.1, Function.update_of_ne ha.2.1, Function.update_of_ne haq,
      and_self]

/-- `PutInTail` of a live node that is not in the list: the node is then at the end. -/
theorem putInTail_isList (h : IsList hp l xs) (hnod : nod ∉ l.head :: xs)
    (hlive : (hp.data nod).isSome) :
    ∃ hp', putInTail hp l nod = .ok hp' ∧ IsList hp' l (xs ++ [nod]) ∧
      hp.SameBut hp' (nod :: l.head :: xs) := by
  have hhead := h.live l.head List.mem_cons_self
  -- `p` is the last node of the list, or the sentinel.
  obtain ⟨u, p, hp'⟩ := exists_last l.head xs
  have hpre : hp.pre l.head = p := (IsRing.neighbours (r := []) (by simpa using h.ring) hp' rfl).2
  have hpmem : p ∈ l.head :: xs := by rw [hp']; simp
  have hpne : nod ≠ p := fun e => hnod (e ▸ hpmem)
  have hne : nod ≠ l.head := fun e => hnod (by simp [e])
  refine ⟨{ hp with
    next := Function.update (Function.update hp.next p nod) nod l.head
    pre := Function.update (Function.update hp.pre nod p) l.head nod }, ?_, ?_, rfl, rfl, ?_⟩
  · simp only [putInTail, h.tail_eq, LinkHeap.getPre_of_live hhead, LinkHeap.setPre_of_live _ hlive,
      Run.ok_bind, hpre]
    rw [LinkHeap.getPre_of_live (by exact hhead), Run.ok_bind]
    simp only [Function.update_of_ne hne.symm, hpre]
    rw [LinkHeap.setNext_of_live _ (by exact h.live p hpmem), Run.ok_bind,
      LinkHeap.setNext_of_live _ (by exact hlive), Run.ok_bind,
      LinkHeap.setPre_of_live _ (by exact hhead)]
  · have hins := IsList.insert (b := []) (by simpa using h) hp' rfl (by simpa using hnod) hlive
    rwa [Function.update_comm hpne] at hins
  · intro a ha
    simp only [List.mem_cons, not_or] at ha hpmem
    have hap : a ≠ p := by
      rintro rfl
      tauto
    simp only [Function.update_of_ne ha.1, Function.update_of_ne ha.2.1, Function.update_of_ne hap,
      and_self]

/-- `PutInHead` where the node has a content: it keeps that, as all nodes do. -/
theorem putInHead_spec (h : HoldsList hp l xs) (hnod : nod ∉ l.head :: xs) {d : α}
    (hd : hp.data nod = some (some d)) :
    ∃ hp', putInHead hp l nod = .ok hp' ∧ HoldsList hp' l (nod :: xs) ∧ hp'.data = hp.data ∧
      hp'.brk = hp.brk := by
  have hlive : (hp.data nod).isSome := by simp [hd]
  obtain ⟨hp', hok, hl, hsame⟩ := putInHead_isList h.isList hnod hlive
  refine ⟨hp', hok, hl.holdsList ?_, hsame.data_eq, hsame.brk_eq⟩
  intro a ha
  rw [hsame.data_eq]
  rcases List.mem_cons.mp ha with rfl | ha
  · exact ⟨d, hd⟩
  · exact h.live a ha

/-- `newLinkNode` does not touch a list: the node has an address of its own. -/
theorem newLinkNode_isList (h : IsList hp l xs) (ha : hp.Allocated) (d : α) :
    IsList (newLinkNode hp d).2 l xs ∧ (newLinkNode hp d).2.Allocated := by
  have hne : ∀ a ∈ l.head :: xs, a ≠ hp.brk := fun a hmem => ha.ne_brk (h.live a hmem)
  have hhead := ha l.head (h.live _ List.mem_cons_self)
  constructor
  · refine h.congr ?_ ?_ ?_
    · exact fun a hmem => Function.update_of_ne (hne a hmem) _ _
    · exact fun a hmem => Function.update_of_ne (hne a hmem) _ _
    · intro a hmem
      have hdata : (newLinkNode hp d).2.data a = hp.data a := Function.update_of_ne (hne a hmem) _ _
      rw [hdata]
      exact h.live a hmem
  · exact ha.malloc (hhead.1.trans hhead.2) rfl rfl

/-- Nothing is in use before the first allocation. -/
theorem emptyHeap_allocated : (emptyHeap : LinkHeap α).Allocated := by
  intro a ha
  simp [emptyHeap] at ha

/-- `NewLinkList` makes a list without nodes. -/
theorem newLinkList_isList (ha : hp.Allocated) (hbrk : NULL < hp.brk) :
    IsList (newLinkList hp).2 (newLinkList hp).1 [] ∧ (newLinkList hp).2.Allocated := by
  refine ⟨⟨IsRing.nil (Function.update_self ..) (Function.update_self ..), rfl, ?_⟩,
    ha.malloc hbrk rfl rfl⟩
  intro a hmem
  rw [List.mem_singleton.mp hmem]
  have hdata : (newLinkList hp).2.data (newLinkList hp).1.head = some none :=
    Function.update_self ..
  rw [hdata]
  rfl

/-- `freeLinkNode` of a node outside of a list does not touch that. -/
theorem freeLinkNode_isList (h : IsList hp l xs) (ha : hp.Allocated) (hnod : (hp.data nod).isSome)
    (hnot : nod ∉ l.head :: xs) :
    freeLinkNode hp nod = .ok { hp with data := Function.update hp.data nod none } ∧
      IsList { hp with data := Function.update hp.data nod none } l xs ∧
      LinkHeap.Allocated { hp with data := Function.update hp.data nod none } := by
  have hdata : ∀ a ≠ nod, Function.update hp.data nod none a = hp.data a :=
    fun a hne => Function.update_of_ne hne _ _
  refine ⟨?_, ?_, ?_⟩
  · simp [freeLinkNode, LinkHeap.deref, hnod, pure, Except.pure, Run.ok_bind]
  · refine h.congr (fun _ _ => rfl) (fun _ _ => rfl) ?_
    intro a hmem
    dsimp only
    rw [hdata a fun e => hnot (e ▸ hmem)]
    exact h.live a hmem
  · refine ha.mono ?_ le_rfl
    intro a hs
    have hne : a ≠ nod := by
      rintro rfl
      simp at hs
    rwa [← hdata a hne]

/-- A new node put in front of the list: it has an address that no live node had. -/
theorem putInHead_newLinkNode {brk : ℕ} (h : HoldsList hp l xs) (ha : hp.Allocated)
    (hbrk : hp.brk = brk) (d : α) :
    ∃ hp', putInHead (newLinkNode hp d).2 l brk = .ok hp' ∧ HoldsList hp' l (brk :: xs) ∧
      hp'.data = Function.update hp.data brk (some (some d)) ∧ hp'.brk = brk + 1 ∧
      hp'.Allocated ∧ ∀ a, (hp.data a).isSome → a ≠ brk := by
  subst hbrk
  have hfresh : ∀ a, (hp.data a).isSome → a ≠ hp.brk := fun _ hs => ha.ne_brk hs
  have hdata : (newLinkNode hp d).2.data = Function.update hp.data hp.brk (some (some d)) := rfl
  have hold : ∀ a ∈ xs, (newLinkNode hp d).2.data a = hp.data a := by
    intro a hmem
    rw [hdata]
    exact Function.update_of_ne (hfresh a (h.isSome_of_mem (List.mem_cons_of_mem _ hmem))) _ _
  obtain ⟨hl₁, ha₁⟩ := newLinkNode_isList h.isList ha d
  have hl₁ : HoldsList (newLinkNode hp d).2 l xs := by
    refine hl₁.holdsList fun a hmem => ?_
    rw [hold a hmem]
    exact h.live a hmem
  have hnot : hp.brk ∉ l.head :: xs := fun hmem => hfresh _ (h.isSome_of_mem hmem) rfl
  obtain ⟨hp₂, hok₂, hl₂, hdata₂, hbrk₂⟩ :=
    putInHead_spec hl₁ hnot (d := d) (by rw [hdata]; exact Function.update_self ..)
  exact ⟨hp₂, hok₂, hl₂, hdata₂.trans hdata, hbrk₂,
    ha₁.mono (fun _ hs => hdata₂ ▸ hs) hbrk₂.ge, hfresh⟩

/-- `RemoveFromLinkList` of a node of the list: the list is then the other nodes, and the node has
no links. -/
theorem removeFromLinkList_isList {a b : List ℕ} (h : IsList hp l (a ++ nod :: b)) :
    ∃ hp', removeFromLinkList hp nod = .ok hp' ∧ IsList hp' l (a ++ b) ∧
      hp.SameBut hp' (l.head :: (a ++ nod :: b)) ∧ hp'.next nod = NULL ∧ hp'.pre nod = NULL := by
  -- `p` and `q` are the node's neighbours.
  obtain ⟨a', p, hp'⟩ := exists_last l.head a
  obtain ⟨q, b', hq⟩ : ∃ q b', b ++ [l.head] = q :: b' := by cases b <;> simp
  have hpre : hp.pre nod = p :=
    (h.ring.neighbours hp' (v := b ++ [l.head]) rfl).2
  have hnext : hp.next nod = q :=
    (IsRing.neighbours (l := a ++ [nod]) (by simpa using h.ring) (u := l.head :: a) rfl hq).1
  have hring := h.ring.unlink
  rw [hpre, hnext] at hring
  have hnod : (hp.data nod).isSome := h.live nod (by simp)
  have hpmem : p ∈ l.head :: a := by rw [hp']; simp
  have hqmem : q ∈ b ++ [l.head] := by rw [hq]; simp
  have hplive : (hp.data p).isSome := h.live p (by
    rcases List.mem_cons.mp hpmem with e | e <;> simp [e])
  have hqlive : (hp.data q).isSome := h.live q (by
    rcases List.mem_append.mp hqmem with e | e <;> simp_all)
  -- The node is not in the list that is left, and is neither neighbour.
  have hnotMem : nod ∉ l.head :: (a ++ b) := (nodup_around.mp h.ring.nodup).1
  have hpne : nod ≠ p := by
    rintro rfl
    exact hnotMem (by rcases List.mem_cons.mp hpmem with e | e <;> simp [e])
  have hqne : nod ≠ q := by
    rintro rfl
    exact hnotMem (by rcases List.mem_append.mp hqmem with e | e <;> simp_all)
  refine ⟨{ hp with
    next := Function.update (Function.update hp.next p q) nod NULL
    pre := Function.update (Function.update hp.pre q p) nod NULL }, ?_, ?_, ⟨rfl, rfl, ?_⟩, ?_, ?_⟩
  · simp only [removeFromLinkList, LinkHeap.getPre_of_live hnod, LinkHeap.getNext_of_live hnod,
      Run.ok_bind, hpre, hnext, LinkHeap.setNext_of_live _ hplive]
    rw [LinkHeap.getNext_of_live (by exact hnod), Run.ok_bind,
      LinkHeap.getPre_of_live (by exact hnod), Run.ok_bind]
    simp only [Function.update_of_ne hpne, hnext, hpre]
    rw [LinkHeap.setPre_of_live _ (by exact hqlive), Run.ok_bind,
      LinkHeap.setPre_of_live _ (by exact hnod), Run.ok_bind,
      LinkHeap.setNext_of_live _ (by exact hnod)]
  · refine ⟨hring.congr ?_ ?_, h.tail_eq, ?_⟩
    · intro c hc
      exact Function.update_of_ne (fun e : c = nod => hnotMem (e ▸ hc)) _ _
    · intro c hc
      exact Function.update_of_ne (fun e : c = nod => hnotMem (e ▸ hc)) _ _
    · intro c hc
      exact h.live c (by simp_all; tauto)
  · intro c hc
    have hcnod : c ≠ nod := fun e => hc (by simp [e])
    have hcp : c ≠ p := fun e => hc (by rcases List.mem_cons.mp hpmem with e' | e' <;> simp [e, e'])
    have hcq : c ≠ q := fun e => hc (by rcases List.mem_append.mp hqmem with e' | e' <;> simp_all)
    simp only [Function.update_of_ne hcnod, Function.update_of_ne hcp, Function.update_of_ne hcq,
      and_self]
  · exact Function.update_self ..
  · exact Function.update_self ..

/-- `RemoveFromLinkList` where the nodes have contents: they keep them. -/
theorem removeFromLinkList_spec {a b : List ℕ} (h : HoldsList hp l (a ++ nod :: b)) :
    ∃ hp', removeFromLinkList hp nod = .ok hp' ∧ HoldsList hp' l (a ++ b) ∧
      hp'.data = hp.data ∧ hp'.brk = hp.brk := by
  obtain ⟨hp', hok, hl, hsame, -⟩ := removeFromLinkList_isList h.isList
  refine ⟨hp', hok, hl.holdsList ?_, hsame.data_eq, hsame.brk_eq⟩
  intro c hc
  rw [hsame.data_eq]
  refine h.live c ?_
  rcases List.mem_append.mp hc with e | e
  · exact List.mem_append_left _ e
  · exact List.mem_append_right _ (List.mem_cons_of_mem _ e)

/-- `GetFirstLinkNode` finds the first node, or `NULL`. -/
theorem getFirstLinkNode_eq (h : IsList hp l xs) :
    getFirstLinkNode hp l = .ok (xs.head?.getD NULL) := by
  have hhead := h.live l.head List.mem_cons_self
  simp only [getFirstLinkNode, LinkHeap.getNext_of_live hhead, Run.ok_bind, h.tail_eq,
    h.ring.next_eq_self_iff]
  cases xs with
  | nil => rfl
  | cons x r =>
    rw [if_neg (List.cons_ne_nil x r), h.ring.next_sentinel]
    rfl

/-- `GetLastLinkNode` finds the last node, or `NULL`. -/
theorem getLastLinkNode_eq (h : IsList hp l xs) :
    getLastLinkNode hp l = .ok (xs.getLast?.getD NULL) := by
  have hhead := h.live l.head List.mem_cons_self
  simp only [getLastLinkNode, LinkHeap.getNext_of_live hhead, LinkHeap.getPre_of_live hhead,
    Run.ok_bind, h.tail_eq, h.ring.next_eq_self_iff]
  rcases List.eq_nil_or_concat' xs with rfl | ⟨r, x, rfl⟩
  · rfl
  · rw [if_neg (by simp), h.ring.pre_sentinel, List.getLast?_concat, Option.getD_some]

/-- `GetLastLinkNode` of a list with a last node. -/
theorem getLastLinkNode_concat (h : HoldsList hp l (xs ++ [nod])) :
    getLastLinkNode hp l = .ok nod := by
  rw [getLastLinkNode_eq h.isList, List.getLast?_concat, Option.getD_some]

end DnsRelayer
