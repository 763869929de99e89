import DnsRelayer.Message.Stores

/-!
# Where `decode` returns

Nothing stops `decode` at the end of an array: it goes on storing. So whether it returns depends on the
names alone, and so does what makes it read past the end of the datagram: that is told of `decode` in
arrays without an end (`decodeStores`).

It gets to the first item, and from an item that it passes to the next (`ComesTo`). It fails at the
item where it stops, in the way that the part for this item does (`decodeStores_eq_error`); and that
part does not return exactly when one of the item's names leads into a circle
(`itemStores_diverges`). So `decode` returns, or reads past the end, exactly when no name of an item
that it gets to leads into one (`decode_returns_iff`).
-/

namespace DnsRelayer

open Lib

variable {buf : List UInt8} {pos : ℕ} {k : Kind}

/-! ## Items -/

/-- Items are passed, one after the other. -/
inductive Passes (buf : List UInt8) : List (Kind × ℕ) → ℕ → ℕ → Prop
  | done (pos : ℕ) : Passes buf [] pos pos
  | item {k : Kind} {i pos next e : ℕ} {todo : List (Kind × ℕ)} (item : k.Passes buf pos next)
      (rest : Passes buf todo next e) : Passes buf ((k, i) :: todo) pos e

/-- `decode` gets to an item at a position: the counts of the header announce it, and the items before
it are passed. -/
inductive ComesTo (buf : List UInt8) (k : Kind) (pos : ℕ) : Prop
  | items {q n₀ n₁ n₂ : UInt16} {i : ℕ} {before after : List (Kind × ℕ)} (header : 12 ≤ buf.length)
      (q_eq : ntohsAt buf 4 = .ok q) (n₀_eq : ntohsAt buf 6 = .ok n₀)
      (n₁_eq : ntohsAt buf 8 = .ok n₁) (n₂_eq : ntohsAt buf 10 = .ok n₂)
      (items_eq : DnsRelayer.items q n₀ n₁ n₂ = before ++ (k, i) :: after)
      (passes : Passes buf before 12 pos) : ComesTo buf k pos

/-- Reading items fails where the part for an item that it gets to does. -/
theorem itemsStores_eq_error {e : Fault} (todo : List (Kind × ℕ)) (pos : ℕ) :
    (itemsStores buf todo pos).result = .error e ↔
      ∃ before k i after pos', todo = before ++ (k, i) :: after ∧ Passes buf before pos pos' ∧
        (k.stores buf pos').result = .error e := by
  induction todo generalizing pos with
  | nil =>
    constructor
    · intro h
      cases h
    · rintro ⟨before, k, i, after, pos', h, -⟩
      simp at h
  | cons s todo ih =>
    obtain ⟨k, i⟩ := s
    rw [itemsStores, Journal.result_bind_eq_error]
    simp only [Journal.result_entry, Journal.result_bind_eq_error, itemStores_eq_ok, ih]
    constructor
    · rintro (h | ⟨-, -, h | ⟨next, hpass, before, k', i', after, pos', rfl, hbefore, h⟩⟩)
      · cases h
      · exact ⟨[], k, i, todo, pos, rfl, .done pos, h⟩
      · exact ⟨(k, i) :: before, k', i', after, pos', rfl, .item hpass hbefore, h⟩
    · rintro ⟨before, k', i', after, pos', heq, hbefore, h⟩
      refine Or.inr ⟨(), trivial, ?_⟩
      cases hbefore with
      | done =>
        obtain ⟨hk, -⟩ := List.cons.inj heq
        obtain ⟨rfl, -⟩ := Prod.mk.inj hk
        exact Or.inl h
      | @item _ _ _ next _ before hpass hrest =>
        obtain ⟨hk, rfl⟩ := List.cons.inj heq
        obtain ⟨rfl, -⟩ := Prod.mk.inj hk
        exact Or.inr ⟨next, hpass, before, k', i', after, pos', rfl, hrest, h⟩

/-- Where the header is there, `decode` fails where the part for an item that it gets to does. -/
theorem decodeStores_eq_error {e : Fault} (header : 12 ≤ buf.length) :
    (decodeStores buf).result = .error e ↔
      ∃ k pos, ComesTo buf k pos ∧ (k.stores buf pos).result = .error e := by
  obtain ⟨q, n₀, n₁, n₂, hq, h₀, h₁, h₂⟩ := exists_counts header
  have hsnd : (decodeStores buf).result = .error e ↔
      (itemsStores buf (items q n₀ n₁ n₂) 12).result = .error e := by
    rw [← snd_decodeStores header hq h₀ h₁ h₂, Journal.result_map]
    cases (decodeStores buf).result <;> simp [Functor.map, Except.map]
  rw [hsnd, itemsStores_eq_error]
  constructor
  · rintro ⟨before, k, i, after, pos, heq, hbefore, h⟩
    exact ⟨k, pos, .items header hq h₀ h₁ h₂ heq hbefore, h⟩
  · rintro ⟨k, pos, ⟨-, hq', h₀', h₁', h₂', heq, hbefore⟩, h⟩
    obtain rfl := Except.ok.inj (hq.symm.trans hq')
    obtain rfl := Except.ok.inj (h₀.symm.trans h₀')
    obtain rfl := Except.ok.inj (h₁.symm.trans h₁')
    obtain rfl := Except.ok.inj (h₂.symm.trans h₂')
    exact ⟨_, k, _, _, pos, heq, hbefore, h⟩

/-! ## Ends -/

/-- A part of `decode` ends: it does not return exactly when a name that it reads leads into a circle,
and otherwise fails only for want of bytes. -/
structure Ends {α : Type} (buf : List UInt8) (x : Storing α) : Prop where
  diverges_iff : x.result = .error .diverges ↔ ∃ p, .name p ∈ x.log ∧ Circular (hop buf 0) p
  error : ∀ e, x.result = .error e → e = .diverges ∨ ∃ i, e = .outOfBounds i

namespace Ends

variable {α β : Type}

theorem bind {x : Storing α} {f : α → Storing β} (hx : Ends buf x)
    (hf : ∀ a, x.result = .ok a → Ends buf (f a)) : Ends buf (x >>= f) where
  diverges_iff := by
    simp only [Journal.result_bind_eq_error, Journal.mem_log_bind, hx.diverges_iff]
    constructor
    · rintro (⟨p, hp, hcirc⟩ | ⟨a, hok, h⟩)
      · exact ⟨p, Or.inl hp, hcirc⟩
      · obtain ⟨p, hp, hcirc⟩ := (hf a hok).diverges_iff.mp h
        exact ⟨p, Or.inr ⟨a, hok, hp⟩, hcirc⟩
    · rintro ⟨p, hp | ⟨a, hok, hp⟩, hcirc⟩
      · exact Or.inl ⟨p, hp, hcirc⟩
      · exact Or.inr ⟨a, hok, (hf a hok).diverges_iff.mpr ⟨p, hp, hcirc⟩⟩
  error := by
    intro e h
    rcases Journal.result_bind_eq_error.mp h with h | ⟨a, hok, h⟩
    · exact hx.error e h
    · exact (hf a hok).error e h

theorem pure (a : α) : Ends buf (Pure.pure a) where
  diverges_iff := by simp
  error := by simp

/-- A read fails only for want of bytes. -/
theorem lift {x : Run α} (hx : Reading x) : Ends buf (Journal.lift x) where
  diverges_iff := by
    constructor
    · intro h
      obtain ⟨i, hi⟩ := hx _ h
      cases hi
    · rintro ⟨p, hp, -⟩
      cases hp
  error e h := Or.inr (hx e h)

end Ends

theorem fieldStores_eq_error {e : Fault} :
    (fieldStores buf pos).result = .error e ↔ decodeName buf 0 (nameFuel buf) pos = .error e := by
  simp only [fieldStores, Journal.result_bind, Journal.result_entry, Journal.result_lift]
  cases decodeName buf 0 (nameFuel buf) pos <;> simp

theorem ends_fieldStores (pos : ℕ) : Ends buf (fieldStores buf pos) where
  diverges_iff := by simp [fieldStores_eq_error, decodeName_nameFuel, mem_fieldStores]
  error _ h := decodeName_error (fieldStores_eq_error.mp h)

/-- The part for an item ends. -/
theorem ends_itemStores (k : Kind) (pos : ℕ) : Ends buf (k.stores buf pos) := by
  cases k with
  | question =>
    rw [Kind.stores, map_eq_pure_bind]
    refine .bind ?_ fun _ _ => .pure _
    exact (ends_fieldStores pos).bind fun x _ => (Ends.lift (reading_ntohsAt _ _)).bind fun _ _ =>
      (Ends.lift (reading_ntohsAt _ _)).bind fun _ _ => .pure _
  | record =>
    rw [Kind.stores, map_eq_pure_bind]
    refine .bind ?_ fun _ _ => .pure _
    refine (ends_fieldStores pos).bind fun x _ => (Ends.lift (reading_ntohsAt _ _)).bind fun type _ =>
      (Ends.lift (reading_ntohsAt _ _)).bind fun _ _ => (Ends.lift (reading_ntohlAt _ _)).bind fun _ _ =>
        (Ends.lift (reading_ntohsAt _ _)).bind fun n _ => ?_
    split_ifs
    · exact (ends_fieldStores _).bind fun _ _ => .pure _
    · exact (Ends.lift (reading_bytesAt _ _ _)).bind fun _ _ => .pure _

/-- The part for an item does not return exactly when one of the item's names leads into a circle. -/
theorem itemStores_diverges :
    (k.stores buf pos).result = .error .diverges ↔
      ∃ p, k.HasName buf pos p ∧ Circular (hop buf 0) p := by
  rw [(ends_itemStores k pos).diverges_iff]
  simp [mem_itemStores]

/-! ## Datagrams -/

/-- `decodeName` takes finitely many steps exactly where following labels and pointers from its start
leads into no circle, and `decode` exactly when no name of an item that it gets to leads into one. -/
theorem decode_returns_iff (buf : List UInt8) :
    (∀ origin start, (∃ fuel, decodeName buf origin fuel start ≠ .error .diverges) ↔
      ¬ Circular (hop buf origin) start) ∧
    ((decodeStores buf).result ≠ .error .diverges ↔
      ∀ k pos, ComesTo buf k pos → ∀ p, k.HasName buf pos p → ¬ Circular (hop buf 0) p) := by
  refine ⟨fun origin start => exists_fuel_iff, ?_⟩
  by_cases header : 12 ≤ buf.length
  · rw [ne_eq, decodeStores_eq_error header]
    simp only [itemStores_diverges]
    push Not
    rfl
  · -- Without a header `decode` gets to no item.
    obtain ⟨i, hshort⟩ := decodeStores_of_short header
    rw [hshort]
    refine iff_of_true (by simp) fun k pos hcomes => ?_
    obtain ⟨hlen, -⟩ := hcomes
    exact absurd hlen header

/-- A query whose name is a pointer to itself. -/
def selfPointer : List UInt8 := [0, 0, 0, 0, 0, 1, 0, 0, 0, 0, 0, 0, 0xc0, 12, 0, 1, 0, 1]

/-- On a pointer to itself `decodeName` calls itself for ever, and so `decode` does not return. -/
theorem decode_spins :
    (¬ ∃ fuel, decodeName selfPointer 0 fuel 12 ≠ .error .diverges) ∧
      (decodeStores selfPointer).result = .error .diverges := by
  refine ⟨?_, by decide +kernel⟩
  rw [exists_fuel_iff, not_not]
  exact ⟨12, .refl, .single (show hop selfPointer 0 12 = some 12 by decide)⟩

end DnsRelayer
