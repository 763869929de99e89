import DnsRelayer.Message.Returns

/-!
# Decoding what was received

A datagram is received into a buffer that is longer than it, and `decode` is not told where it ends.
A part of `decode` is `Local` when, as long as it does not read past the end of some bytes, bytes
after them change nothing. Every part is, in arrays without an end, so `decode` of a datagram in a
buffer depends on the datagram only, as long as decoding the datagram alone reads nothing past its
end; and that is so exactly when the datagram contains the items that it gets to
(`decode_received_iff`).
-/

namespace DnsRelayer

open Lib

/-- Bytes after those that are read change nothing. -/
def Local {α : Type} (f : List UInt8 → Run α) : Prop :=
  ∀ d t, (∀ i, f d ≠ .error (.outOfBounds i)) → f (d ++ t) = f d

namespace Local

variable {α β : Type}

/-- What reads nothing is local. -/
theorem const (x : Run α) : Local fun _ => x := fun _ _ _ => rfl

/-- A sequence of local parts is local. -/
theorem bind {f : List UInt8 → Run α} {g : List UInt8 → α → Run β} (hf : Local f)
    (hg : ∀ a, Local fun d => g d a) : Local fun d => f d >>= g d := by
  intro d t hne
  have hfd : ∀ i, f d ≠ .error (.outOfBounds i) := by
    intro i hi
    exact hne i (by simp only [hi, Run.error_bind])
  simp only [hf d t hfd]
  cases h : f d with
  | error e => rfl
  | ok a =>
    simp only [h, Run.ok_bind] at hne ⊢
    exact hg a d t hne

end Local

theorem local_byteAt (i : ℕ) : Local (byteAt · i) := by
  intro d t hne
  beta_reduce at hne ⊢
  cases h : d[i]? with
  | none => exact absurd (byteAt_of_none h) (hne i)
  | some b =>
    have hi : i < d.length := exists_byteAt.mp ⟨b, byteAt_of_getElem? h⟩
    rw [byteAt_of_getElem? h]
    exact byteAt_of_getElem? (by rw [List.getElem?_append_left hi, h])

theorem local_bytesAt (i n : ℕ) : Local (bytesAt · i n) := by
  intro d t hne
  beta_reduce at hne ⊢
  by_cases h : i + n ≤ d.length
  · have h' : i + n ≤ (d ++ t).length := by
      rw [List.length_append]
      omega
    rw [bytesAt_of_le h, bytesAt_of_le h', List.drop_append_of_le_length (by omega),
      List.take_append_of_le_length (by rw [List.length_drop]; omega)]
  · exact absurd (if_neg h) (hne _)

theorem local_ntohsAt (i : ℕ) : Local (ntohsAt · i) :=
  (local_byteAt i).bind fun _ => (local_byteAt (i + 1)).bind fun _ => .const _

theorem local_ntohlAt (i : ℕ) : Local (ntohlAt · i) :=
  (local_byteAt i).bind fun _ => (local_byteAt (i + 1)).bind fun _ =>
    (local_byteAt (i + 2)).bind fun _ => (local_byteAt (i + 3)).bind fun _ => .const _

/-- The arrow between labels is the same in a longer buffer. -/
theorem hop_append {d : List UInt8} {origin pos q : ℕ} (h : hop d origin pos = some q)
    (t : List UInt8) : hop (d ++ t) origin pos = some q := by
  have hlt := lt_of_hop h
  have hbyte : (d ++ t)[pos]? = d[pos]? := List.getElem?_append_left hlt
  cases hlen : d[pos]? with
  | none => simp [hop, hlen] at h
  | some len =>
    by_cases hne : len = 0
    · simp [hop, hlen, hne] at h
    by_cases hp : len ≥ POINTER
    · cases hlo : d[pos + 1]? with
      | none => simp [hop, hlen, hne, hp, hlo] at h
      | some lo =>
        have hlt' : pos + 1 < d.length := exists_byteAt.mp ⟨lo, byteAt_of_getElem? hlo⟩
        rw [hop_of_pointer hlen hne hp hlo] at h
        rw [hop_of_pointer (by rw [hbyte, hlen]) hne hp
          (by rw [List.getElem?_append_left hlt', hlo]), h]
    · by_cases hle : pos + 1 + len.toNat ≤ d.length
      · rw [hop_of_label hlen hne hp hle] at h
        rw [hop_of_label (by rw [hbyte, hlen]) hne hp (by rw [List.length_append]; omega), h]
      · simp [hop, hlen, hne, hp, hle] at h

/-- A circle is a circle in a longer buffer. -/
theorem circular_append {d : List UInt8} {origin pos : ℕ} (h : Circular (hop d origin) pos)
    (t : List UInt8) : Circular (hop (d ++ t) origin) pos := by
  obtain ⟨b, hab, hbb⟩ := h
  have hle : Leads (hop d origin) ≤ Leads (hop (d ++ t) origin) := fun _ _ h => hop_append h t
  exact ⟨b, Relation.ReflTransGen.mono hle _ _ hab, Relation.TransGen.mono hle _ _ hbb⟩

theorem local_decodeName (origin pos : ℕ) :
    Local fun d => decodeName d origin (nameFuel d) pos := by
  intro d t hne
  beta_reduce at hne ⊢
  cases h : decodeName d origin (nameFuel d) pos with
  | error e =>
    rcases decodeName_error h with rfl | ⟨i, rfl⟩
    · exact decodeName_nameFuel.mpr (circular_append (decodeName_nameFuel.mp h) t)
    · exact absurd h (hne i)
  | ok x =>
    obtain ⟨raw, e⟩ := x
    exact decodeName_eq_ok_iff.mpr ((decodeName_eq_ok_iff.mp h).append t)

theorem local_fieldStores (pos : ℕ) : Local fun d => (fieldStores d pos).result := by
  simp only [fieldStores, Journal.result_bind]
  exact (Local.const _).bind fun _ => (local_decodeName 0 pos).bind fun _ => .const _

theorem local_quesStores (pos : ℕ) : Local fun d => (quesStores d pos).result := by
  simp only [quesStores, Journal.result_bind]
  exact (local_fieldStores pos).bind fun x => (local_ntohsAt x.2).bind fun _ =>
    (local_ntohsAt (x.2 + 2)).bind fun _ => .const _

theorem local_rrStores (pos : ℕ) : Local fun d => (rrStores d pos).result := by
  simp only [rrStores, Journal.result_bind]
  refine (local_fieldStores pos).bind fun x => (local_ntohsAt x.2).bind fun type =>
    (local_ntohsAt (x.2 + 2)).bind fun _ => (local_ntohlAt (x.2 + 4)).bind fun _ =>
      (local_ntohsAt (x.2 + 8)).bind fun n => ?_
  split_ifs
  · simp only [Journal.result_bind]
    exact (local_fieldStores (x.2 + 10)).bind fun _ => .const _
  · simp only [Journal.result_bind]
    exact (local_bytesAt (x.2 + 10) n.toNat).bind fun _ => .const _

theorem local_arrayStores {α : Type} {item : List UInt8 → ℕ → Storing (α × ℕ)}
    (hitem : ∀ pos, Local fun d => (item d pos).result) (count i pos : ℕ) :
    Local fun d => (arrayStores (item d) count i pos).result := by
  induction count generalizing i pos with
  | zero => exact .const _
  | succ count ih =>
    simp only [arrayStores, Journal.result_bind]
    exact (Local.const _).bind fun _ => (hitem pos).bind fun x => (ih (i + 1) x.2).bind fun _ => .const _

theorem local_decodeStores : Local fun d => (decodeStores d).result := by
  simp only [decodeStores, Journal.result_bind]
  exact (local_ntohsAt 0).bind fun _ => (local_byteAt 2).bind fun _ => (local_byteAt 3).bind fun _ =>
    (local_ntohsAt 4).bind fun q => (local_ntohsAt 6).bind fun n₀ => (local_ntohsAt 8).bind
      fun n₁ => (local_ntohsAt 10).bind fun n₂ =>
        (local_arrayStores local_quesStores q.toNat 0 12).bind fun x =>
          (local_arrayStores local_rrStores n₀.toNat 0 x.2).bind fun y =>
            (local_arrayStores local_rrStores n₁.toNat 0 y.2).bind fun z =>
              (local_arrayStores local_rrStores n₂.toNat 0 z.2).bind fun _ => .const _

/-- The bytes contain an item, or go on for ever at one of its names. -/
def Kind.Contained (d : List UInt8) (k : Kind) (pos : ℕ) : Prop :=
  (∃ next, k.Passes d pos next) ∨ ∃ p, k.HasName d pos p ∧ Circular (hop d 0) p

/-- The bytes contain the header, and every item that `decode` gets to. -/
def Contained (d : List UInt8) : Prop :=
  12 ≤ d.length ∧ ∀ k pos, ComesTo d k pos → k.Contained d pos

/-- The part for an item reads nothing past the end where the bytes contain the item. -/
theorem itemStores_inBounds_iff {d : List UInt8} {k : Kind} {pos : ℕ} :
    (∀ i, (k.stores d pos).result ≠ .error (.outOfBounds i)) ↔ k.Contained d pos := by
  rw [Kind.Contained, ← itemStores_diverges]
  simp only [← itemStores_eq_ok]
  cases h : (k.stores d pos).result with
  | ok next => simp
  | error e =>
    rcases (ends_itemStores k pos).error e h with rfl | ⟨i, rfl⟩ <;> simp

/-- `decode` reads nothing past the end exactly where the bytes contain what it gets to. -/
theorem decodeStores_inBounds_iff (d : List UInt8) :
    (∀ i, (decodeStores d).result ≠ .error (.outOfBounds i)) ↔ Contained d := by
  by_cases header : 12 ≤ d.length
  · simp only [Contained, header, true_and, ne_eq, decodeStores_eq_error header,
      ← itemStores_inBounds_iff]
    push Not
    exact ⟨fun h k pos hcomes i => h i k pos hcomes, fun h i k pos hcomes => h k pos hcomes i⟩
  · obtain ⟨i, hshort⟩ := decodeStores_of_short header
    refine iff_of_false (fun h => h i ?_) fun h => header h.1
    rw [hshort]

/-- In a buffer of 1024 bytes that starts with the datagram `d`, `decode` reads nothing past `d`, and
what it does is the same whatever comes after `d`, exactly when `d` contains the header and all that the
items take that it gets to. -/
theorem decode_received_iff (d : List UInt8) :
    ((∀ i, (decodeStores d).result ≠ .error (.outOfBounds i)) ∧
      ∀ t₁ t₂, (d ++ t₁).length = 1024 → (d ++ t₂).length = 1024 →
        (decodeStores (d ++ t₁)).result = (decodeStores (d ++ t₂)).result) ↔ Contained d := by
  rw [← decodeStores_inBounds_iff]
  refine ⟨fun h => h.1, fun h => ⟨h, fun t₁ t₂ _ _ => ?_⟩⟩
  exact (local_decodeStores d t₁ h).trans (local_decodeStores d t₂ h).symm

/-- A header that announces one question, and nothing after it. -/
def headerOnly : List UInt8 := [0, 0, 0, 0, 0, 1, 0, 0, 0, 0, 0, 0]

/-- The question that `decode` makes of a mere header is made of what was in the buffer before. -/
theorem decode_reads_stale :
    (headerOnly ++ List.replicate 1012 0).length = 1024 ∧
      (headerOnly ++ ([1, 97] ++ List.replicate 1010 0)).length = 1024 ∧
      (decodeStores (headerOnly ++ List.replicate 1012 0)).result ≠
        (decodeStores (headerOnly ++ ([1, 97] ++ List.replicate 1010 0))).result := by
  decide +kernel

end DnsRelayer
