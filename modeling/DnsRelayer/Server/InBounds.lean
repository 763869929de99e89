import DnsRelayer.Server.ItemSpec
import DnsRelayer.Server.Alone
import DnsRelayer.Lib.Wp

/-!
# What the handler takes for granted

The handler does not check what it puts into its arrays, nor what it reads with: the number of
records of an item, the bytes of an address, the length of a name, that there is a question, and
its type. `cache_fill_iff` says of a response exactly when the loop that caches its records stays in
bounds, and `lookup_iff` of a request when the lookup in the cache does, whatever the clock and the cache
return.
-/

namespace DnsRelayer

open Lib
open Prog hiding pure

/-- The strings of an item have room for a terminator. -/
def Item.Terminated (it : Item) : Prop := ∀ s ∈ it.strVal, s.length < STR_LEN + 1

/-- An item stays within its arrays. -/
structure Item.InBounds (it : Item) : Prop where
  num : it.num ≤ MAX_NUM
  name : it.name.length < STR_LEN
  strVal : it.Terminated

/-- The items of a response stay within their arrays. -/
structure Items.InBounds (items : Items) : Prop where
  Ait : items.Ait.InBounds
  Nit : items.Nit.InBounds
  Cit : items.Cit.InBounds

/-- The operations may be called in any way, and return anything. -/
def anyResults : Interface Op Res := ⟨fun _ => True, fun _ _ => True⟩

/-- There is room for the records of a type in an item, after `num` others of which the last has the
name: each of them has the bytes that are copied, and the name of the last is terminated. -/
structure Room (type : UInt16) (num : ℕ) (name : List UInt8) (rrs : List RR) : Prop where
  num : num + (rrs.filter (·.type = type)).length ≤ MAX_NUM
  data : type = A → ∀ rr ∈ rrs, rr.type = A → 4 ≤ rr.data.length
  name : (((rrs.filter (·.type = type)).map RR.name).getLastD name).length < STR_LEN

variable {type : UInt16} {num : ℕ} {name : List UInt8} {rr : RR} {rrs : List RR} {it : Item}

/-! ## Room in an item -/

theorem length_strncpy_lt (s : List UInt8) :
    (strncpy s STR_LEN).length < STR_LEN ↔ s.length < STR_LEN := by
  rw [strncpy, List.length_take]
  omega

theorem length_strncpy_le (s : List UInt8) : (strncpy s STR_LEN).length < STR_LEN + 1 := by
  rw [strncpy, List.length_take]
  omega

/-- Without records, the item has room already. -/
theorem room_nil (hnum : num ≤ MAX_NUM) : Room type num name [] ↔ name.length < STR_LEN := by
  constructor
  · intro h
    exact h.name
  · intro h
    exact ⟨hnum, by simp, h⟩

/-- A record of another type takes no room. -/
theorem room_cons_of_ne (type : UInt16) (hne : rr.type ≠ type) :
    Room type num name (rr :: rrs) ↔ Room type num name rrs := by
  have hfilter : (rr :: rrs).filter (·.type = type) = rrs.filter (·.type = type) :=
    List.filter_cons_of_neg (by simpa using hne)
  constructor
  · intro h
    have hnum := h.num
    have hname := h.name
    rw [hfilter] at hnum hname
    exact ⟨hnum, fun hA r hr => h.data hA r (List.mem_cons_of_mem _ hr), hname⟩
  · intro h
    refine ⟨by rw [hfilter]; exact h.num, fun hA r hr htype => ?_, by rw [hfilter]; exact h.name⟩
    rcases List.mem_cons.mp hr with rfl | hr
    · exact absurd (htype.trans hA.symm) hne
    · exact h.data hA r hr htype

/-- There is room for one record, and then for the others. -/
theorem room_cons_of_eq (heq : rr.type = type) :
    Room type num name (rr :: rrs) ↔ (num < MAX_NUM ∧ (type = A → 4 ≤ rr.data.length)) ∧
      Room type (num + 1) (strncpy rr.name STR_LEN) rrs := by
  have hfilter : (rr :: rrs).filter (·.type = type) = rr :: rrs.filter (·.type = type) :=
    List.filter_cons_of_pos (by simpa using heq)
  -- The name of the last record, whether it is this one or another.
  have hname : (((rrs.filter (·.type = type)).map RR.name).getLastD
        (strncpy rr.name STR_LEN)).length < STR_LEN ↔
      (((rrs.filter (·.type = type)).map RR.name).getLastD rr.name).length < STR_LEN := by
    cases (rrs.filter (·.type = type)).map RR.name with
    | nil => exact length_strncpy_lt rr.name
    | cons s l => rw [List.getLastD_cons, List.getLastD_cons]
  constructor
  · intro h
    have hnum := h.num
    have hlast := h.name
    rw [hfilter, List.length_cons] at hnum
    rw [hfilter, List.map_cons, List.getLastD_cons] at hlast
    refine ⟨⟨by omega, fun hA => h.data hA rr List.mem_cons_self (heq.trans hA)⟩, by omega,
      fun hA r hr => h.data hA r (List.mem_cons_of_mem _ hr), hname.mpr hlast⟩
  · rintro ⟨⟨-, hdata⟩, h⟩
    have hnum := h.num
    refine ⟨?_, fun hA r hr htype => ?_, ?_⟩
    · rw [hfilter, List.length_cons]
      omega
    · rcases List.mem_cons.mp hr with rfl | hr
      · exact hdata hA
      · exact h.data hA r hr htype
    · rw [hfilter, List.map_cons, List.getLastD_cons]
      exact hname.mp h.name

/-! ## Filling an item -/

/-- `addRR2Item` puts a record into an item that has room for it. -/
theorem addRR2Item_eq_ok (hcached : Cached rr.type) (hterminated : it.Terminated)
    (hnum : it.num < MAX_NUM) (hdata : rr.type = A → 4 ≤ rr.data.length) (now : ℤ) :
    ∃ it', addRR2Item it rr now = .ok it' ∧ it'.num = it.num + 1 ∧
      it'.name = strncpy rr.name STR_LEN ∧ it'.Terminated := by
  have hcast : rr.type.toUInt8.toUInt16 = rr.type := toUInt8_toUInt16_of_cached hcached
  have hroom : ¬ it.num ≥ MAX_NUM := Nat.not_le.mpr hnum
  simp only [addRR2Item, hcast, if_neg hroom]
  by_cases hA : rr.type = A
  · have hlong : ¬ rr.data.length < 4 := Nat.not_lt.mpr (hdata hA)
    rw [if_pos hA, if_neg hlong]
    exact ⟨_, rfl, rfl, rfl, hterminated⟩
  · rw [if_neg hA]
    refine ⟨_, rfl, rfl, rfl, fun s hs => ?_⟩
    rcases List.mem_or_eq_of_mem_set hs with hs | rfl
    · exact hterminated s hs
    · exact length_strncpy_le _

/-- `addRR2Item` leaves its arrays when the item is full, or the record has no address in it. -/
theorem addRR2Item_eq_error (hcached : Cached rr.type)
    (h : ¬ (it.num < MAX_NUM ∧ (rr.type = A → 4 ≤ rr.data.length))) (now : ℤ) :
    addRR2Item it rr now = .error .overrun := by
  have hcast : rr.type.toUInt8.toUInt16 = rr.type := toUInt8_toUInt16_of_cached hcached
  simp only [addRR2Item, hcast]
  by_cases hfull : it.num ≥ MAX_NUM
  · rw [if_pos hfull]
  · have hdata : ¬ (rr.type = A → 4 ≤ rr.data.length) := fun hd => h ⟨Nat.not_le.mp hfull, hd⟩
    push Not at hdata
    rw [if_neg hfull, if_pos hdata.1, if_pos hdata.2]

/-- Storing a record and going on stays in bounds when there is room for the record, and going on
does. -/
theorem storeRR_wp {α : Type} {f : Item → M α} {Q : Run α → Prop} {G : Prop} (hcached : Cached rr.type)
    (hterminated : it.Terminated) (hQ : ∀ e, ¬ Q (.error e))
    (hf : ∀ it' : Item, it'.num = it.num + 1 → it'.num ≤ MAX_NUM →
      it'.name = strncpy rr.name STR_LEN → it'.Terminated →
        ((f it').wp anyResults Q ↔ Room rr.type it'.num it'.name rrs ∧ G)) :
    (storeRR it rr >>= f).wp anyResults Q ↔ Room rr.type it.num it.name (rr :: rrs) ∧ G := by
  have hstore : (storeRR it rr >>= f).wp anyResults Q ↔
      ∀ now, after anyResults f Q (addRR2Item it rr now) := by
    rw [wp_bind, storeRR, wp_bind]
    constructor
    · intro h now
      exact wp_ofExcept (addRR2Item it rr now) |>.mp (h.2 now trivial)
    · intro h
      exact ⟨trivial, fun now _ => (wp_ofExcept (addRR2Item it rr now)).mpr (h now)⟩
  rw [hstore, room_cons_of_eq rfl]
  by_cases hroom : it.num < MAX_NUM ∧ (rr.type = A → 4 ≤ rr.data.length)
  -- The time goes into the item, but not into its bounds.
  · have hgo : ∀ now, after anyResults f Q (addRR2Item it rr now) ↔
        Room rr.type (it.num + 1) (strncpy rr.name STR_LEN) rrs ∧ G := by
      intro now
      obtain ⟨it', hok, hnum, hname, hterm⟩ :=
        addRR2Item_eq_ok hcached hterminated hroom.1 hroom.2 now
      rw [hok, after_ok, hf it' hnum (by omega) hname hterm, hnum, hname]
    constructor
    · intro h
      exact ⟨⟨hroom, ((hgo 0).mp (h 0)).1⟩, ((hgo 0).mp (h 0)).2⟩
    · rintro ⟨⟨-, hrest⟩, hG⟩ now
      exact (hgo now).mpr ⟨hrest, hG⟩
  · constructor
    · intro h
      have := h 0
      rw [addRR2Item_eq_error hcached hroom, after_error] at this
      exact absurd this (hQ _)
    · rintro ⟨⟨h, -⟩, -⟩
      exact absurd h hroom

/-- The loop over an answer section stays in bounds exactly when there is room for the records of each
type in its item. -/
theorem collect_wp (rrs : List RR) (items : Items)
    (hA : items.Ait.num ≤ MAX_NUM ∧ items.Ait.Terminated)
    (hNS : items.Nit.num ≤ MAX_NUM ∧ items.Nit.Terminated)
    (hCNAME : items.Cit.num ≤ MAX_NUM ∧ items.Cit.Terminated) :
    (collect rrs items).wp anyResults (fun r => ∃ items', r = .ok items' ∧ items'.InBounds) ↔
      Room A items.Ait.num items.Ait.name rrs ∧ Room NS items.Nit.num items.Nit.name rrs ∧
        Room CNAME items.Cit.num items.Cit.name rrs := by
  have hfault : ∀ e : Fault, ¬ ∃ items', (.error e : Run Items) = .ok items' ∧ items'.InBounds := by
    rintro e ⟨_, h, -⟩
    cases h
  induction rrs generalizing items with
  | nil =>
    unfold collect
    rw [wp_pure, room_nil hA.1, room_nil hNS.1, room_nil hCNAME.1]
    constructor
    · rintro ⟨items', h, hin⟩
      obtain rfl := Except.ok.inj h
      exact ⟨hin.Ait.name, hin.Nit.name, hin.Cit.name⟩
    · rintro ⟨h₁, h₂, h₃⟩
      exact ⟨items, rfl, ⟨hA.1, h₁, hA.2⟩, ⟨hNS.1, h₂, hNS.2⟩, ⟨hCNAME.1, h₃, hCNAME.2⟩⟩
  | cons rr rrs ih =>
    unfold collect
    -- The record takes room in the item of its type and none in the others.
    split_ifs with h₁ h₂ h₃
    · rw [room_cons_of_ne NS (by rw [h₁]; decide),
        room_cons_of_ne CNAME (by rw [h₁]; decide), ← h₁]
      refine storeRR_wp (Or.inl h₁) hA.2 hfault fun it' _ hle _ hterm => ?_
      rw [h₁]
      exact ih { items with Ait := it' } ⟨hle, hterm⟩ hNS hCNAME
    · rw [room_cons_of_ne A h₁, room_cons_of_ne CNAME (by rw [h₂]; decide), ← h₂,
        and_left_comm]
      refine storeRR_wp (Or.inr (Or.inl h₂)) hNS.2 hfault fun it' _ hle _ hterm => ?_
      rw [h₂, and_left_comm]
      exact ih { items with Nit := it' } hA ⟨hle, hterm⟩ hCNAME
    · rw [room_cons_of_ne A h₁, room_cons_of_ne NS h₂, ← h₃, ← and_assoc,
        and_comm]
      refine storeRR_wp (Or.inr (Or.inr h₃)) hCNAME.2 hfault fun it' _ hle _ hterm => ?_
      rw [h₃, and_comm, and_assoc]
      exact ih { items with Cit := it' } hA hNS ⟨hle, hterm⟩
    · rw [room_cons_of_ne A h₁, room_cons_of_ne NS h₂,
        room_cons_of_ne CNAME h₃]
      exact ih items hA hNS hCNAME

/-! ## Responses -/

/-- The records of a type in an answer section fit an item. -/
structure FitsItem (type : UInt16) (rrs : List RR) : Prop where
  num : (rrs.filter (·.type = type)).length ≤ MAX_NUM
  data : type = A → ∀ rr ∈ rrs, rr.type = A → 4 ≤ rr.data.length
  name : ∀ rr, (rrs.filter (·.type = type)).getLast? = some rr → rr.name.length < STR_LEN

/-- An item after `bzero` has room for the records exactly when they fit an item. -/
theorem room_zero : Room type 0 [] rrs ↔ FitsItem type rrs := by
  have hlast : (((rrs.filter (·.type = type)).map RR.name).getLastD []).length < STR_LEN ↔
      ∀ rr, (rrs.filter (·.type = type)).getLast? = some rr → rr.name.length < STR_LEN := by
    rw [List.getLastD_eq_getLast?, List.getLast?_map]
    cases (rrs.filter (·.type = type)).getLast? with
    | none => simp [STR_LEN]
    | some rr => simp
  constructor
  · intro h
    exact ⟨by simpa using h.num, h.data, hlast.mp h.name⟩
  · intro h
    exact ⟨by simpa using h.num, h.data, hlast.mpr h.name⟩

/-- Filling empty items with records stays in bounds exactly when the records of each type fit an
item. -/
theorem collect_zero_wp (rrs : List RR) :
    (collect rrs ⟨zeroItem, zeroItem, zeroItem⟩).wp anyResults
        (fun r => ∃ items, r = .ok items ∧ items.InBounds) ↔
      ∀ type, Cached type → FitsItem type rrs := by
  have hzero : zeroItem.num ≤ MAX_NUM ∧ zeroItem.Terminated :=
    ⟨Nat.zero_le _, fun s hs => by rw [List.eq_of_mem_replicate hs]; decide⟩
  rw [collect_wp _ _ hzero hzero hzero]
  constructor
  · rintro ⟨hA, hNS, hCNAME⟩ type (rfl | rfl | rfl)
    · exact room_zero.mp hA
    · exact room_zero.mp hNS
    · exact room_zero.mp hCNAME
  · intro h
    exact ⟨room_zero.mpr (h A (Or.inl rfl)), room_zero.mpr (h NS (Or.inr (Or.inl rfl))),
      room_zero.mpr (h CNAME (Or.inr (Or.inr rfl)))⟩

/-- The loop that puts the records of a response into items stays in bounds, whatever the clock says,
exactly when the records of each type that is cached fit an item: there are at most ten, each address
has four bytes, and the name of the last is shorter than 128 bytes. -/
theorem cache_fill_iff (d : Received) :
    (collect d.answers ⟨zeroItem, zeroItem, zeroItem⟩).wp anyResults
        (fun r => ∃ items, r = .ok items ∧ items.InBounds) ↔
      ∀ type, Cached type → FitsItem type d.answers :=
  collect_zero_wp d.answers

/-- A response with eleven addresses of `a`. -/
def elevenAddresses : Received :=
  padded ([0, 1, 129, 128, 0, 1, 0, 11, 0, 0, 0, 0, 1, 97, 0, 0, 1, 0, 1] ++
    (List.replicate 11 [192, 12, 0, 1, 0, 1, 0, 0, 0, 10, 0, 4, 9, 9, 9, 9]).flatten)
    (by decide +kernel)

/-- The eleventh address is put after the array of the item. -/
theorem cache_fill_overrun :
    elevenAddresses.answers = List.replicate 11 (addressRR 10 [9, 9, 9, 9]) ∧
      ¬ (collect elevenAddresses.answers ⟨zeroItem, zeroItem, zeroItem⟩).wp anyResults
        (fun r => ∃ items, r = .ok items ∧ items.InBounds) := by
  have hanswers : elevenAddresses.answers = List.replicate 11 (addressRR 10 [9, 9, 9, 9]) := by
    decide +kernel
  refine ⟨hanswers, ?_⟩
  rw [hanswers, collect_zero_wp]
  intro h
  have hnum : 11 ≤ MAX_NUM := (h A (Or.inl rfl)).num
  exact absurd hnum (by decide)

/-! ## Requests -/

/-- Size of the array of a key. -/
def KEY_SIZE : ℕ := 501

/-- The part of `handler` that looks in the cache: the items that it finds. -/
def lookupCache (name : List UInt8) (qtype : UInt16) : M (List Item) := do
  if Cached qtype then
    let name ← compute (terminated name)
    match ← getItem name qtype with
    | some it => return [it]
    | none =>
      if qtype = A then
        match ← getItem name CNAME with
        | some it =>
          match ← getItem (it.strVal.headD []) A with
          | some tit => return [it, tit]
          | none => return []
        | none => return []
      else return []
  else return []

/-- What `handler` does with a request up to the end of the lookup in the cache. -/
def lookup (buff : List UInt8) : M (Message × Question × List UInt8 × List Item) := do
  let (msg, q) ← compute (request buff)
  call (.showRequest q.q_type)
  let name := strncpy q.q_name STR_LEN
  let its ← lookupCache name q.q_type
  return (msg, q, name, its)

/-- Reply with the items that are found, if there are any. -/
def replyItems (parg : Arg) (msg : Message) : List Item → M Bool
  | [] => return false
  | its => do
    let msg ← its.foldlM answerItem msg
    reply parg msg
    return true

/-- What `handler` does after the lookup in the cache. -/
def afterLookup (fr : FileReader) (parg : Arg) :
    Message × Question × List UInt8 × List Item → M Unit
  | (msg, q, name, its) => do
    if ← replyItems parg msg its then return
    else if ← replyFromFile fr parg msg name q.q_type then return
    else relay parg msg q.q_type

/-- A reply from the cache is a lookup and a reply of what is found. -/
theorem replyFromCache_eq (parg : Arg) (msg : Message) (name : List UInt8) (qtype : UInt16) :
    replyFromCache parg msg name qtype = lookupCache name qtype >>= replyItems parg msg := by
  unfold replyFromCache lookupCache
  split_ifs with hcached hA
  · simp only [bind_assoc]
    refine bind_congr fun name => ?_
    refine bind_congr fun r => ?_
    cases r with
    | some it => simp only [pure_bind, replyItems, List.foldlM_cons, List.foldlM_nil, bind_pure]
    | none =>
      simp only [bind_assoc]
      refine bind_congr fun r => ?_
      cases r with
      | none => rfl
      | some it =>
        simp only [bind_assoc]
        refine bind_congr fun r => ?_
        cases r with
        | none => rfl
        | some tit =>
          simp only [pure_bind, replyItems, List.foldlM_cons, List.foldlM_nil, bind_pure, bind_assoc]
  · simp only [bind_assoc]
    refine bind_congr fun name => ?_
    refine bind_congr fun r => ?_
    cases r with
    | some it => simp only [pure_bind, replyItems, List.foldlM_cons, List.foldlM_nil, bind_pure]
    | none => rfl
  · rfl

/-- `handler` begins with the lookup. -/
theorem handler_eq (fr : FileReader) (parg : Arg) :
    handler fr parg = lookup (parg.buff.bytes ++ parg.buff.rest) >>= afterLookup fr parg := by
  unfold handler lookup
  simp only [replyFromCache_eq, bind_assoc, pure_bind]
  rfl

/-- The operations are called within their arrays, and the cache returns items whose strings are
terminated. -/
def lookupBounds : Interface Op Res where
  pre
    | .showRequest q_type => q_type.toNat < TYPENAME_SIZE
    | .cacheGetLocked key => key.length + 1 ≤ KEY_SIZE
    | _ => True
  post
    | .cacheGetCopy _, it => Item.Terminated it
    | _, _ => True

theorem exists_lookupBounds_post (o : Op) : ∃ r, lookupBounds.post o r := by
  cases o with
  | cacheGetCopy lkn =>
    exact ⟨zeroItem, fun s hs => by rw [List.eq_of_mem_replicate hs]; decide⟩
  | time => exact ⟨(0 : ℤ), trivial⟩
  | cacheGetLocked key => exact ⟨(none : Option ℕ), trivial⟩
  | fscanf domain cur => exact ⟨(none : Option (List UInt8)), trivial⟩
  | sendtoServer bytes => exact ⟨true, trivial⟩
  | recvfrom => exact ⟨(none : Option Received), trivial⟩
  | _ => exact ⟨(), trivial⟩

theorem compute_ok_bind {α β : Type} (a : α) (f : α → M β) : (compute (.ok a) >>= f) = f a := rfl

/-- A name that fits an array has a key, of a type that is cached, which fits its array. -/
theorem calcKey_of_cached (hcached : Cached type) (hlen : name.length < STR_LEN + 1) :
    ∃ key, calcKey name type = some key ∧ key.length + 1 ≤ KEY_SIZE := by
  have hfits : ∀ t : List UInt8, t.length ≤ 5 → (name ++ 58 :: t).length + 1 ≤ KEY_SIZE := by
    intro t ht
    rw [List.length_append, List.length_cons]
    simp only [STR_LEN, KEY_SIZE] at hlen ⊢
    omega
  rcases hcached with rfl | rfl | rfl
  · exact ⟨_, rfl, hfits _ (by decide)⟩
  · exact ⟨_, rfl, hfits _ (by decide)⟩
  · exact ⟨_, rfl, hfits _ (by decide)⟩

/-- `getItem` stays in bounds, and what it finds is an item whose strings are terminated. -/
theorem getItem_wp {Q : Run (Option Item) → Prop} (hcached : Cached type)
    (hlen : name.length < STR_LEN + 1) (hnone : Q (.ok none))
    (hsome : ∀ it : Item, it.Terminated → Q (.ok (some it))) :
    (getItem name type).wp lookupBounds Q := by
  obtain ⟨key, hkey, hfits⟩ := calcKey_of_cached hcached hlen
  have hkeyOf : keyOf name type = .ok key := by rw [keyOf, hkey]
  unfold getItem
  rw [hkeyOf]
  refine ⟨hfits, fun r _ => ?_⟩
  cases r with
  | none => exact hnone
  | some lkn => exact ⟨trivial, fun it hit => hsome it hit⟩

/-- The lookup of a name that is terminated stays in bounds. -/
theorem lookupCache_wp {qtype : UInt16} (hlen : name.length < STR_LEN) :
    (lookupCache name qtype).wp lookupBounds (fun r => ∃ its, r = .ok its) := by
  have hname : terminated name = .ok name := if_neg (Nat.not_le.mpr hlen)
  have hlen' : name.length < STR_LEN + 1 := hlen.trans (Nat.lt_succ_self _)
  have hend : ∀ its : List Item,
      (pure its : M (List Item)).wp lookupBounds (fun r => ∃ its, r = .ok its) := fun its =>
    ⟨its, rfl⟩
  unfold lookupCache
  split_ifs with hcached hA
  · rw [hname, compute_ok_bind]
    refine wp_bind.mpr (getItem_wp hcached hlen' ?_ fun it _ => hend _)
    -- The alias of the name, and the addresses of its target.
    refine wp_bind.mpr (getItem_wp (Or.inr (Or.inr rfl)) hlen' (hend _) fun it hit => ?_)
    have htarget : (it.strVal.headD []).length < STR_LEN + 1 := by
      cases hval : it.strVal with
      | nil => exact Nat.succ_pos _
      | cons s l => exact hit s (by rw [hval]; exact List.mem_cons_self)
    exact wp_bind.mpr (getItem_wp (Or.inl rfl) htarget (hend _) fun tit _ => hend _)
  · rw [hname, compute_ok_bind]
    exact wp_bind.mpr (getItem_wp hcached hlen' (hend _) fun it _ => hend _)
  · exact hend _

/-- A message that can be decoded is no request when it has no question. -/
theorem request_of_nil {buff : List UInt8} {msg : Message} {n : ℕ}
    (h : decode buff = .ok (msg, n)) (hques : msg.ques = []) : request buff = .error .badPointer := by
  unfold request
  rw [h, Run.ok_bind]
  simp only [setFlag, setResp, releaseAdditionalRR, hques]
  rfl

/-- A message that can be decoded is a request when it has a question. -/
theorem request_of_cons {buff : List UInt8} {msg : Message} {n : ℕ} {q : Question}
    {qs : List Question} (h : decode buff = .ok (msg, n)) (hques : msg.ques = q :: qs) :
    request buff = .ok (setFlag (setResp (releaseAdditionalRR msg)) RA, q) := by
  unfold request
  rw [h, Run.ok_bind]
  simp only [setFlag, setResp, releaseAdditionalRR, hques]
  rfl

/-- The lookup of a question: it stays in bounds up to its end when the type is in the table, and the
lookup in the cache stays in bounds and ends. -/
theorem lookup_wp {buff : List UInt8} {msg : Message} {q : Question}
    (hrequest : request buff = .ok (msg, q)) {Q : Run (Message × Question × List UInt8 × List Item) → Prop} :
    (lookup buff).wp lookupBounds Q ↔ q.q_type.toNat < TYPENAME_SIZE ∧
      (lookupCache (strncpy q.q_name STR_LEN) q.q_type).wp lookupBounds
        (after lookupBounds (fun its => pure (msg, q, strncpy q.q_name STR_LEN, its)) Q) := by
  unfold lookup
  rw [hrequest, ← wp_bind]
  constructor
  · rintro ⟨htype, hrest⟩
    exact ⟨htype, hrest () trivial⟩
  · rintro ⟨htype, hrest⟩
    exact ⟨htype, fun _ _ => hrest⟩

/-- The handler stays in bounds up to the end of its lookup in the cache, whatever the cache returns,
exactly when the request has a question, and the first is of a type in the table of names and for a
name that is shorter than 128 bytes. -/
theorem lookup_iff {parg : Arg} {msg : Message} {n : ℕ}
    (h : decode (parg.buff.bytes ++ parg.buff.rest) = .ok (msg, n)) :
    (lookup (parg.buff.bytes ++ parg.buff.rest)).wp lookupBounds
        (fun r => ∃ msg q name its, r = .ok (msg, q, name, its) ∧ name.length < STR_LEN) ↔
      ∃ q, msg.ques.head? = some q ∧ q.q_type.toNat < TYPENAME_SIZE ∧
        q.q_name.length < STR_LEN := by
  cases hques : msg.ques with
  | nil =>
    constructor
    · intro hwp
      unfold lookup at hwp
      rw [request_of_nil h hques] at hwp
      obtain ⟨_, _, _, _, hok, -⟩ := hwp
      cases hok
    · rintro ⟨q, hq, -⟩
      cases hq
  | cons q qs =>
    rw [lookup_wp (request_of_cons h hques)]
    constructor
    · rintro ⟨htype, hrest⟩
      -- Whatever the cache returns, the run ends, and the name was read to its end.
      obtain ⟨r, hends⟩ := hrest.ends exists_lookupBounds_post
      cases r with
      | error e =>
        obtain ⟨_, _, _, _, hok, -⟩ := hends
        cases hok
      | ok its =>
        obtain ⟨_, _, _, _, hok, hlen⟩ := hends
        cases hok
        exact ⟨q, rfl, htype, (length_strncpy_lt _).mp hlen⟩
    · rintro ⟨q', hq', htype, hlen⟩
      obtain rfl := Option.some.inj hq'
      have hcopy := (length_strncpy_lt _).mpr hlen
      refine ⟨htype, (lookupCache_wp hcopy).mono ?_⟩
      rintro _ ⟨its, rfl⟩
      exact ⟨_, _, _, its, rfl, hcopy⟩

/-- `lookup_iff` for a query for the address of `a`. -/
theorem lookup_iff_queryA :
    ∃ msg n, decode (queryA.buff.bytes ++ queryA.buff.rest) = .ok (msg, n) ∧
      (lookup (queryA.buff.bytes ++ queryA.buff.rest)).wp lookupBounds
        (fun r => ∃ msg q name its, r = .ok (msg, q, name, its) ∧ name.length < STR_LEN) := by
  obtain ⟨⟨msg, n⟩, hdecode, hques⟩ := Run.map_eq_ok.mp (show (decode (queryA.buff.bytes ++
    queryA.buff.rest)).map (·.1.ques) = .ok [⟨[97], A, IN⟩] by decide +kernel)
  refine ⟨msg, n, hdecode, ?_⟩
  rw [@lookup_iff queryA msg n hdecode, show msg.ques = _ from hques]
  exact ⟨⟨[97], A, IN⟩, rfl, by decide, by decide⟩

/-- A query for all records of `a`. -/
def queryANY : Arg :=
  ⟨padded [0, 2, 1, 0, 0, 1, 0, 0, 0, 0, 0, 0, 1, 97, 0, 0, 255, 0, 1] (by decide), 0⟩

/-- The type of the question, 255, is not in the table of names. -/
theorem lookup_type_unlisted :
    ∃ msg n, decode (queryANY.buff.bytes ++ queryANY.buff.rest) = .ok (msg, n) ∧
      msg.ques = [⟨[97], 255, IN⟩] ∧
      ¬ (lookup (queryANY.buff.bytes ++ queryANY.buff.rest)).wp lookupBounds
        (fun r => ∃ msg q name its, r = .ok (msg, q, name, its) ∧ name.length < STR_LEN) := by
  obtain ⟨⟨msg, n⟩, hdecode, hques⟩ := Run.map_eq_ok.mp (show (decode (queryANY.buff.bytes ++
    queryANY.buff.rest)).map (·.1.ques) = .ok [⟨[97], 255, IN⟩] by decide +kernel)
  refine ⟨msg, n, hdecode, hques, ?_⟩
  rw [lookup_wp (request_of_cons hdecode hques)]
  rintro ⟨htype, -⟩
  exact absurd htype (by decide)

end DnsRelayer
