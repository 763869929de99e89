import DnsRelayer.Message.RoundTrip

/-!
# Encoding what was decoded

A server forwards or answers with a message that it decoded and encodes again. `encode` writes a
root of two bytes where `decode` reads one: it takes the root for one more, empty label. So a name
that is the root, or that a pointer to the root ends, is not carried over (`Rooted`).

What happens to the rest of the message after the first such name depends on where it is. As the
target of a record, or after other labels, it differs itself. As the name of a question or the owner
of a record it is read back, but `decode` is then one byte behind what `encode` wrote, at a byte that
reads as a root; it never catches up, and cannot end where the message does (`Behind`). So
re-encoding preserves a datagram exactly when it has no such name (`reencode_iff`).
-/

namespace DnsRelayer

variable {buf : List UInt8} {tab : HashTab UInt16} {n : ℕ}

/-! ## Names that the root ends -/

/-- The text of a name that is the root, or labels that a pointer to the root follows. -/
def Rooted (name : List UInt8) : Prop := name = [] ∨ name.getLast? = some DOT

instance (name : List UInt8) : Decidable (Rooted name) := inferInstanceAs (Decidable (_ ∨ _))

/-- Labels with a dot after each. -/
def rooted (ls : List Label) : List UInt8 := ls.flatMap fun l => l.bytes ++ [DOT]

theorem rooted_cons (l : Label) (ls : List Label) :
    rooted (l :: ls) = l.bytes ++ DOT :: rooted ls := by simp [rooted]

theorem rooted_rooted (ls : List Label) : Rooted (rooted ls) := by
  induction ls with
  | nil => exact Or.inl rfl
  | cons l ls ih =>
    right
    rw [rooted_cons]
    rcases ih with h | h
    · simp [h]
    · simp [List.getLast?_append, List.getLast?_cons, h]

/-- Labels with dots between them do not end in a dot. -/
theorem not_rooted_dotted {ls : List Label} (h : ls ≠ []) : ¬ Rooted (dotted ls) := by
  rintro (h' | h')
  · exact dotted_ne_nil h h'
  · induction ls with
    | nil => exact h rfl
    | cons l ls ih =>
      by_cases hls : ls = []
      · subst hls
        exact l.no_dot (List.mem_of_getLast? h')
      · obtain ⟨c, cs, hcs⟩ := List.exists_cons_of_ne_nil (dotted_ne_nil hls)
        rw [dotted_cons_of_ne_nil l hls, List.getLast?_append_of_ne_nil _ (by simp), hcs,
          List.getLast?_cons_cons, ← hcs] at h'
        exact ih hls h'

/-- What a well-formed name reads as. -/
theorem WfName.cases_text {pos e : ℕ} {name : List UInt8} (h : WfName buf pos name e) :
    (∃ ls : List Label, ls ≠ [] ∧ dotted ls = name) ∨ ∃ ls, rooted ls = name := by
  induction h with
  | root => exact Or.inr ⟨[], rfl⟩
  | pointer _ _ _ _ _ ih => exact ih
  | @last _ l => exact Or.inl ⟨[l], by simp, rfl⟩
  | @more _ _ l _ _ _ _ ih =>
    rcases ih with ⟨ls, hne, rfl⟩ | ⟨ls, rfl⟩
    · exact Or.inl ⟨l :: ls, by simp, dotted_cons_of_ne_nil l hne⟩
    · exact Or.inr ⟨l :: ls, rooted_cons l ls⟩

/-- A name that can be carried over is one that the root does not end. -/
theorem WfName.encodable_iff {pos e : ℕ} {name : List UInt8} (h : WfName buf pos name e)
    (hs : Short name) : Encodable name ↔ ¬ Rooted name := by
  constructor
  · rintro ⟨⟨ls, hne, rfl⟩, -⟩
    exact not_rooted_dotted hne
  · intro hr
    rcases h.cases_text with ⟨ls, hne, rfl⟩ | ⟨ls, rfl⟩
    · exact ⟨⟨ls, hne, rfl⟩, hs⟩
    · exact absurd (rooted_rooted ls) hr

/-! ## Writing them -/

/-- Labels as they are written. -/
def wires (ls : List Label) : List UInt8 := ls.flatMap Label.wire

theorem wires_cons (l : Label) (ls : List Label) : wires (l :: ls) = l.wire ++ wires ls := by
  simp [wires]

/-- The loop of `encodeName` writes labels that a dot ends one by one, and two bytes for the root,
when the table has no such names. -/
theorem encodeLoop_rooted {ls : List Label} (hs : Short (rooted ls)) (hT : Table tab n)
    (hn : n + ls.length < TABLE_MAX)
    (hnone : ∀ k, Rooted k → k.length < (rooted ls).length → tab.lookup k = none) (num : ℕ)
    (out : List UInt8) :
    ∃ tab', encodeLoop tab num (rooted ls) out [] 0 (rooted ls) =
      .ok (out ++ (wires ls ++ [0, 0]), tab') := by
  induction ls generalizing tab n num out with
  | nil =>
    obtain ⟨tab', hok, -, -⟩ := hT.insert (by simpa using hn) [] (UInt16.ofNat num)
    refine ⟨tab', ?_⟩
    rw [show rooted [] = [] from rfl, encodeLoop, hok]
    rfl
  | cons l ls ih =>
    rw [List.length_cons] at hn
    have hlt : (rooted ls).length < (rooted (l :: ls)).length := by
      rw [rooted_cons, List.length_append, List.length_cons]
      omega
    have hshort : ∀ k : List UInt8, k.length < (rooted (l :: ls)).length → Short k :=
      fun k hk => hk.trans hs
    obtain ⟨tab₁, hok, hT₁, hl⟩ := hT.insert (by omega) (rooted (l :: ls)) (UInt16.ofNat num)
    -- The tails that follow are shorter than this one, and not yet in the table.
    have hnone₁ : ∀ k, Rooted k → k.length < (rooted (l :: ls)).length → tab₁.lookup k = none := by
      intro k hk hlen
      rw [hl k (hshort k hlen), if_neg (fun h => by rw [h] at hlen; omega), hnone k hk hlen]
    obtain ⟨tab', hok'⟩ := ih (hshort _ hlt) hT₁ (by omega)
      (fun k hk hlen => hnone₁ k hk (hlen.trans hlt)) (num + 1 + l.bytes.length) (out ++ l.wire)
    have hlabel := @encodeLoop_label tab num (rooted (l :: ls)) out [] (DOT :: rooted ls) 0 l.bytes
      l.no_dot
    rw [← rooted_cons] at hlabel
    refine ⟨tab', ?_⟩
    rw [hlabel, encodeLoop, if_pos rfl, hok, Run.ok_bind,
      hT₁.getPos_none (hshort _ hlt) (hnone₁ _ (rooted_rooted ls) hlt), Run.ok_bind,
      if_neg (by simp), List.nil_append]
    rw [show out ++ (0 + UInt8.ofNat l.bytes.length) :: l.bytes = out ++ l.wire by
      rw [UInt8.zero_add]; rfl, hok', wires_cons]
    simp

/-- `encodeName` of a name that the root ends, when the table has no such names. -/
theorem encodeName_rooted {ls : List Label} (hs : Short (rooted ls)) (hT : Table tab n)
    (hn : n + ls.length < TABLE_MAX) (hnone : ∀ k, Short k → Rooted k → tab.lookup k = none)
    (p : ℕ) :
    ∃ tab', encodeName (rooted ls) p tab = .ok (wires ls ++ [0, 0], tab') := by
  obtain ⟨tab', hok⟩ := encodeLoop_rooted hs hT hn
    (fun k hk hlen => hnone k (hlen.trans hs) hk) p []
  refine ⟨tab', ?_⟩
  rw [encodeName, hT.getPos_none hs (hnone _ hs (rooted_rooted ls)), Run.ok_bind,
    if_neg (by simp), hok]
  rfl

/-- `encodeName` of the root, when the table does not have it, writes two bytes, and the table gets
it. -/
theorem encodeName_root (hT : Table tab n) (hn : n < TABLE_MAX) (hnone : tab.lookup [] = none)
    (p : ℕ) :
    ∃ tab', encodeName [] p tab = .ok ([0, 0], tab') ∧ Table tab' (n + 1) ∧
      tab'.lookup [] = some (UInt16.ofNat p) := by
  obtain ⟨tab', hok, hT', hl⟩ := hT.insert hn [] (UInt16.ofNat p)
  refine ⟨tab', ?_, hT', by rw [hl [] (by decide), if_pos rfl]⟩
  rw [encodeName, hT.getPos_none (by decide) hnone, Run.ok_bind, if_neg (by simp), encodeLoop, hok]
  rfl

/-- `decode` reads labels and the root as the labels with dots between them, and one byte for the
root. -/
theorem wfName_wires (ls : List Label) (P t : List UInt8) :
    WfName (P ++ (wires ls ++ 0 :: t)) P.length (dotted ls) (P.length + (wires ls).length + 1) := by
  induction ls generalizing P with
  | nil => exact .root (by simp [wires])
  | cons l ls ih =>
    have hlen := l.length_append_wire P
    have hend : P.length + (l.wire ++ wires ls).length + 1 =
        (P ++ l.wire).length + (wires ls).length + 1 := by simp [Nat.add_assoc]
    have hrest := ih (P ++ l.wire)
    have hassoc : P ++ l.wire ++ (wires ls ++ 0 :: t) = P ++ (l.wire ++ wires ls ++ 0 :: t) := by
      simp
    rw [hassoc] at hrest
    have hlabel : LabelAt (P ++ (l.wire ++ wires ls ++ 0 :: t)) P.length l := by
      rw [List.append_assoc l.wire]
      exact labelAt_wire l P _
    rw [wires_cons, hend]
    -- The zero ends the name after its last label.
    by_cases hls : ls = []
    · subst hls
      have hroot : (P ++ (l.wire ++ wires [] ++ 0 :: t))[P.length + 1 + l.length]? = some 0 := by
        rw [hlen, ← hassoc]
        simp [wires]
      have h := WfName.last hlabel hroot
      rwa [hlen] at h
    · rw [dotted_cons_of_ne_nil l hls]
      have hroot := hrest.ne_root (dotted_ne_nil hls)
      rw [← hlen] at hrest hroot
      rw [← hlen]
      exact .more hlabel hroot hrest

/-! ## `encode` returns -/

theorem Table.exists_getPos (h : Table tab n) (k : List UInt8) : ∃ pos, getPos k tab = .ok pos := by
  rw [getPos, HashTab.search_eq h.len_pos, Run.ok_bind]
  split
  · exact ⟨_, rfl⟩
  · exact ⟨_, rfl⟩

/-- The loop of `encodeName` returns on every name. -/
theorem encodeLoop_total (hT : Table tab n) {name : List UInt8} (hn : n + name.length < TABLE_MAX)
    (num : ℕ) (last_name out label : List UInt8) (cnt : UInt8) :
    ∃ bs tab', encodeLoop tab num last_name out label cnt name = .ok (bs, tab') ∧
      Table tab' (n + name.length + 1) := by
  induction name generalizing tab n num last_name out label cnt with
  | nil =>
    obtain ⟨tab', hok, hT', -⟩ := hT.insert hn last_name (UInt16.ofNat num)
    exact ⟨_, tab', by rw [encodeLoop, hok]; rfl, hT'⟩
  | cons c name ih =>
    rw [List.length_cons] at hn ⊢
    by_cases hc : c = DOT
    · obtain ⟨tab₁, hok, hT₁, -⟩ := hT.insert (by omega) last_name (UInt16.ofNat num)
      obtain ⟨pos, hpos⟩ := hT₁.exists_getPos name
      rw [encodeLoop, if_pos hc, hok, Run.ok_bind, hpos, Run.ok_bind]
      split_ifs with hne
      · exact ⟨_, tab₁, rfl, hT₁.mono (by omega)⟩
      · obtain ⟨bs, tab', hok', hT'⟩ := ih hT₁ (by omega) (num + 1 + label.length) name
          (out ++ cnt :: label) [] 0
        exact ⟨bs, tab', hok', hT'.mono (by omega)⟩
    · obtain ⟨bs, tab', hok, hT'⟩ := ih hT (by omega) num last_name out (label ++ [c]) (cnt + 1)
      exact ⟨bs, tab', by rw [encodeLoop, if_neg hc, hok], hT'.mono (by omega)⟩

theorem encodeName_total (hT : Table tab n) {name : List UInt8} (hs : Short name)
    (hn : n + HASH_KEY_MAX_LEN ≤ TABLE_MAX) (p : ℕ) :
    ∃ bs tab', encodeName name p tab = .ok (bs, tab') ∧ Table tab' (n + HASH_KEY_MAX_LEN) := by
  unfold Short at hs
  obtain ⟨pos, hpos⟩ := hT.exists_getPos name
  rw [encodeName, hpos, Run.ok_bind]
  split_ifs
  · exact ⟨_, tab, rfl, hT.mono (by omega)⟩
  · obtain ⟨bs, tab', hok, hT'⟩ := @encodeLoop_total tab n hT name (by omega) p name [] [] 0
    exact ⟨bs, tab', hok, hT'.mono (by omega)⟩

theorem encodeEntry_total {x : Entry} (ht : x.Typed) (hs : ∀ k ∈ x.names, Short k)
    (hT : Table tab n) (hn : n + 2 * HASH_KEY_MAX_LEN ≤ TABLE_MAX) (p : ℕ) :
    ∃ bs tab', encodeEntry x p tab = .ok (bs, tab') ∧ Table tab' (n + 2 * HASH_KEY_MAX_LEN) := by
  cases x with
  | ques q =>
    obtain ⟨name, tab', hok, hT'⟩ := encodeName_total hT (hs _ List.mem_cons_self) (by omega) p
    refine ⟨name ++ (htons q.q_type ++ htons q.q_class), tab', ?_, hT'.mono (by omega)⟩
    rw [encodeEntry, encodeQues, hok]
    rfl
  | rr r =>
    obtain ⟨name, tab₁, hok, hT₁⟩ := encodeName_total hT (hs _ List.mem_cons_self) (by omega) p
    cases hd : r.data_type with
    | BINARY_TYPE =>
      exact ⟨_, tab₁, encodeRR_bytes hd (ht.2 hd) hok, hT₁.mono (by omega)⟩
    | STRING_TYPE =>
      obtain ⟨target, tab', hok', hT'⟩ := encodeName_total hT₁
        (hs r.string_data (by simp [Entry.names, hd])) (by omega) (p + name.length + 10)
      refine ⟨name ++ (fieldBytes r (UInt16.ofNat target.length) ++ target), tab', ?_,
        hT'.mono (by omega)⟩
      rw [encodeEntry, encodeRR_name hd hok, hok', Run.ok_bind]

theorem encodeEntries_total {xs : List Entry} (ht : ∀ x ∈ xs, x.Typed)
    (hs : ∀ x ∈ xs, ∀ k ∈ x.names, Short k) (hT : Table tab n)
    (hn : n + 2 * HASH_KEY_MAX_LEN * xs.length ≤ TABLE_MAX) (p : ℕ) :
    ∃ r, encodeEntries xs p tab = .ok r := by
  induction xs generalizing tab n p with
  | nil => exact ⟨_, rfl⟩
  | cons x xs ih =>
    rw [List.length_cons, Nat.mul_succ] at hn
    obtain ⟨bs, tab₁, hok, hT₁⟩ := encodeEntry_total (ht x List.mem_cons_self)
      (hs x List.mem_cons_self) hT (by omega) p
    obtain ⟨r, hr⟩ := ih (fun y hy => ht y (List.mem_cons_of_mem x hy))
      (fun y hy => hs y (List.mem_cons_of_mem x hy)) hT₁ (by omega) (p + bs.length)
    refine ⟨(bs ++ r.1, r.2), ?_⟩
    rw [encodeEntries, hok, Run.ok_bind, hr, Run.ok_bind]

/-! ## Numbers that are read one or two bytes early -/

theorem ntohsAt_eq_ok {i : ℕ} {x : UInt16} :
    ntohsAt buf i = .ok x ↔ ∃ b₁ b₀, buf[i]? = some b₁ ∧ buf[i + 1]? = some b₀ ∧ ntohs b₁ b₀ = x := by
  constructor
  · intro h
    obtain ⟨b₁, h₁, h⟩ := Run.bind_eq_ok.mp h
    obtain ⟨b₀, h₀, h⟩ := Run.bind_eq_ok.mp h
    exact ⟨b₁, b₀, byteAt_eq_ok.mp h₁, byteAt_eq_ok.mp h₀, Except.ok.inj h⟩
  · rintro ⟨b₁, b₀, h₁, h₀, rfl⟩
    rw [ntohsAt, byteAt_of_getElem? h₁, Run.ok_bind, byteAt_of_getElem? h₀]
    rfl

theorem ntohlAt_eq_ok {i : ℕ} {x : UInt32} :
    ntohlAt buf i = .ok x ↔ ∃ b₃ b₂ b₁ b₀, buf[i]? = some b₃ ∧ buf[i + 1]? = some b₂ ∧
      buf[i + 2]? = some b₁ ∧ buf[i + 3]? = some b₀ ∧ ntohl b₃ b₂ b₁ b₀ = x := by
  constructor
  · intro h
    obtain ⟨b₃, h₃, h⟩ := Run.bind_eq_ok.mp h
    obtain ⟨b₂, h₂, h⟩ := Run.bind_eq_ok.mp h
    obtain ⟨b₁, h₁, h⟩ := Run.bind_eq_ok.mp h
    obtain ⟨b₀, h₀, h⟩ := Run.bind_eq_ok.mp h
    exact ⟨b₃, b₂, b₁, b₀, byteAt_eq_ok.mp h₃, byteAt_eq_ok.mp h₂, byteAt_eq_ok.mp h₁,
      byteAt_eq_ok.mp h₀, Except.ok.inj h⟩
  · rintro ⟨b₃, b₂, b₁, b₀, h₃, h₂, h₁, h₀, rfl⟩
    rw [ntohlAt, byteAt_of_getElem? h₃, Run.ok_bind, byteAt_of_getElem? h₂, Run.ok_bind,
      byteAt_of_getElem? h₁, Run.ok_bind, byteAt_of_getElem? h₀]
    rfl

/-- The bytes of a number are known from it. -/
theorem ntohs_inj {b₁ b₀ c₁ c₀ : UInt8} (h : ntohs b₁ b₀ = ntohs c₁ c₀) : b₁ = c₁ ∧ b₀ = c₀ := by
  have hb := congrArg htons h
  rw [htons_ntohs, htons_ntohs] at hb
  simpa using hb

theorem ntohl_inj {b₃ b₂ b₁ b₀ c₃ c₂ c₁ c₀ : UInt8}
    (h : ntohl b₃ b₂ b₁ b₀ = ntohl c₃ c₂ c₁ c₀) : b₃ = c₃ ∧ b₂ = c₂ ∧ b₁ = c₁ ∧ b₀ = c₀ := by
  have hn := congrArg UInt32.toNat h
  simp only [ntohl, UInt32.toNat_ofNat'] at hn
  have hb₃ := b₃.toNat_lt
  have hb₂ := b₂.toNat_lt
  have hb₁ := b₁.toNat_lt
  have hb₀ := b₀.toNat_lt
  have hc₃ := c₃.toNat_lt
  have hc₂ := c₂.toNat_lt
  have hc₁ := c₁.toNat_lt
  have hc₀ := c₀.toNat_lt
  refine ⟨?_, ?_, ?_, ?_⟩ <;> exact UInt8.toNat_inj.mp (by omega)

/-- A number that reads the same one byte early, from a zero byte on, is zero. -/
theorem ntohs_lag {i : ℕ} {x : UInt16} (h0 : buf[i]? = some 0) (h : ntohsAt buf i = .ok x)
    (h' : ntohsAt buf (i + 1) = .ok x) : x = 0 ∧ buf[i + 2]? = some 0 := by
  obtain ⟨b₁, b₀, e₁, e₀, rfl⟩ := ntohsAt_eq_ok.mp h
  obtain ⟨c₁, c₀, f₁, f₀, hc⟩ := ntohsAt_eq_ok.mp h'
  obtain ⟨rfl, rfl⟩ := ntohs_inj hc
  obtain rfl := Option.some.inj (e₁.symm.trans h0)
  obtain rfl := Option.some.inj (e₀.symm.trans f₁)
  exact ⟨rfl, f₀⟩

theorem ntohl_lag {i : ℕ} {x : UInt32} (h0 : buf[i]? = some 0) (h : ntohlAt buf i = .ok x)
    (h' : ntohlAt buf (i + 1) = .ok x) : buf[i + 4]? = some 0 := by
  obtain ⟨b₃, b₂, b₁, b₀, e₃, e₂, e₁, e₀, rfl⟩ := ntohlAt_eq_ok.mp h
  obtain ⟨c₃, c₂, c₁, c₀, f₃, f₂, f₁, f₀, hc⟩ := ntohlAt_eq_ok.mp h'
  obtain ⟨rfl, rfl, rfl, rfl⟩ := ntohl_inj hc
  obtain rfl := Option.some.inj (e₃.symm.trans h0)
  obtain rfl := Option.some.inj (e₂.symm.trans f₃)
  obtain rfl := Option.some.inj (e₁.symm.trans f₂)
  obtain rfl := Option.some.inj (e₀.symm.trans f₁)
  exact f₀

/-- A long number that reads the same two bytes early repeats its two bytes. -/
theorem ntohl_shift {i : ℕ} {x : UInt32} {v : UInt16} (h : ntohlAt buf i = .ok x)
    (h' : ntohlAt buf (i + 2) = .ok x) (hv : ntohsAt buf i = .ok v) :
    ntohsAt buf (i + 4) = .ok v := by
  obtain ⟨b₃, b₂, b₁, b₀, e₃, e₂, e₁, e₀, rfl⟩ := ntohlAt_eq_ok.mp h
  obtain ⟨c₃, c₂, c₁, c₀, f₃, f₂, f₁, f₀, hc⟩ := ntohlAt_eq_ok.mp h'
  obtain ⟨rfl, rfl, rfl, rfl⟩ := ntohl_inj hc
  obtain ⟨d₁, d₀, g₁, g₀, rfl⟩ := ntohsAt_eq_ok.mp hv
  obtain rfl := Option.some.inj (g₁.symm.trans e₃)
  obtain rfl := Option.some.inj (g₀.symm.trans e₂)
  obtain rfl := Option.some.inj (e₁.symm.trans f₃)
  obtain rfl := Option.some.inj (e₀.symm.trans f₂)
  exact ntohsAt_eq_ok.mpr ⟨_, _, f₁, f₀, rfl⟩

/-! ## What was written -/

/-- A question that was written: its name and then its fields. -/
theorem encodeQues_eq_ok {q : Question} {p : ℕ} {bs : List UInt8} {tab' : HashTab UInt16}
    (h : encodeQues q p tab = .ok (bs, tab')) :
    ∃ name, encodeName q.q_name p tab = .ok (name, tab') ∧
      bs = name ++ (htons q.q_type ++ htons q.q_class) := by
  obtain ⟨⟨name, tab₁⟩, hok, h⟩ := Run.bind_eq_ok.mp h
  obtain ⟨rfl, rfl⟩ := Prod.mk.inj (Except.ok.inj h)
  exact ⟨name, hok, rfl⟩

/-- A record that was written: its name, its fields and its data. -/
theorem encodeRR_eq_ok {r : RR} {p : ℕ} {bs : List UInt8} {tab' : HashTab UInt16}
    (h : encodeRR r p tab = .ok (bs, tab')) :
    ∃ name tab₁, encodeName r.name p tab = .ok (name, tab₁) ∧
      ((r.data_type = .BINARY_TYPE ∧ tab' = tab₁ ∧
        bs = name ++ (fieldBytes r r.data_length ++ r.data.take r.data_length.toNat)) ∨
      (r.data_type = .STRING_TYPE ∧ ∃ target,
        encodeName r.string_data (p + name.length + 10) tab₁ = .ok (target, tab') ∧
        bs = name ++ (fieldBytes r (UInt16.ofNat target.length) ++ target))) := by
  obtain ⟨⟨name, tab₁⟩, hok, hdata⟩ := Run.bind_eq_ok.mp h
  refine ⟨name, tab₁, hok, ?_⟩
  cases hd : r.data_type with
  | BINARY_TYPE =>
    have hle : r.data_length.toNat ≤ r.data.length := by
      by_contra hlt
      simp only [hd, not_le.mp hlt, if_true] at hdata
      cases hdata
    rw [encodeRR_bytes hd hle hok] at h
    obtain ⟨rfl, rfl⟩ := Prod.mk.inj (Except.ok.inj h)
    exact Or.inl ⟨rfl, rfl, rfl⟩
  | STRING_TYPE =>
    rw [encodeRR_name hd hok] at h
    obtain ⟨⟨target, tab₂⟩, hok', h⟩ := Run.bind_eq_ok.mp h
    obtain ⟨rfl, rfl⟩ := Prod.mk.inj (Except.ok.inj h)
    exact Or.inr ⟨rfl, target, hok', rfl⟩

/-- Records that say the same agree in all the fields that are used. -/
theorem RR.content_eq {r r' : RR} (h : r'.content = r.content) :
    r'.name = r.name ∧ r'.type = r.type ∧ r'.class_ = r.class_ ∧ r'.TTL = r.TTL ∧
      r'.data_type = r.data_type ∧
      (r.data_type = .BINARY_TYPE → r'.data_length = r.data_length) ∧
      (r.data_type = .STRING_TYPE → r'.string_data = r.string_data) := by
  obtain ⟨name, type, class_, TTL, data_length, data, data_type, string_data⟩ := r
  obtain ⟨name', type', class_', TTL', data_length', data', data_type', string_data'⟩ := r'
  cases data_type <;> cases data_type' <;> simp_all [RR.content]

/-! ## Behind -/

/-- `decode` is behind what is written, at a root that ends there; and the table has the root. -/
structure Behind (P : List UInt8) (tab : HashTab UInt16) (pos : ℕ) : Prop where
  lt : pos < P.length
  root : WfName P pos [] P.length
  table : ∃ n, Table tab n
  known : ∃ off e, tab.lookup [] = some off ∧ WfName P off.toNat [] e

/-- While `decode` is behind, the next name reads as the root. -/
theorem Behind.name_eq {P t name : List UInt8} {pos e : ℕ} (h : Behind P tab pos)
    (hname : WfName (P ++ t) pos name e) : name = [] ∧ e = P.length :=
  hname.unique (h.root.append t)

/-- While `decode` is behind, the root is written as a pointer `v`, which reads as the root. -/
theorem Behind.exists_pointer {P : List UInt8} {pos : ℕ} (h : Behind P tab pos)
    (hfit : P.length ≤ POINTER_MAX) (p : ℕ) :
    ∃ v, 0xc000 ≤ UInt16.toNat v ∧ encodeName [] p tab = .ok (htons v, tab) ∧
      ∀ Q, (P ++ Q ++ htons v).length ≤ POINTER_MAX →
        WfName (P ++ Q ++ htons v) (P ++ Q).length [] (P ++ Q ++ htons v).length := by
  obtain ⟨n, hT⟩ := h.table
  obtain ⟨off, e, hl, hwf⟩ := h.known
  have hoff := hwf.lt_length
  refine ⟨0xc000 ||| off, ?_, ?_, fun Q hQ => wfName_pointer (hwf.append Q) hQ⟩
  · rw [toNat_pointer (by omega)]
    omega
  · rw [encodeName, hT.getPos_some (by decide) hl, Run.ok_bind, if_pos (pointer_ne_zero off)]
    rfl

/-- A question that is written while `decode` is behind, and reads back as it is, has the pointer to
the root as its type and class, and leaves `decode` behind. -/
theorem Behind.ques {P rest bs B : List UInt8} {pos e : ℕ} {tab' : HashTab UInt16} {q : Question}
    (h : Behind P tab pos) (hok : encodeQues q P.length tab = .ok (bs, tab'))
    (hB : B = P ++ (bs ++ rest)) (hfit : B.length ≤ POINTER_MAX)
    (hy : WfEntry B pos (.ques q) e) : Behind (P ++ bs) tab' e := by
  have hfit' : P.length + bs.length ≤ POINTER_MAX := by
    rw [hB, List.length_append, List.length_append] at hfit
    omega
  obtain ⟨name, hname, rfl⟩ := encodeQues_eq_ok hok
  cases hy with
  | @ques _ e hn short type_eq class_eq =>
    obtain ⟨v, -, hroot, hread⟩ := h.exists_pointer (by omega) P.length
    obtain ⟨hnil, rfl⟩ := h.name_eq (hB ▸ hn)
    rw [hnil, hroot] at hname
    obtain ⟨rfl, rfl⟩ := Prod.mk.inj (Except.ok.inj hname)
    -- The pointer is read as the type, and the type as the class.
    have hr₁ : ntohsAt B P.length = .ok v :=
      ntohsAt_of_eq (by rw [hB, List.append_assoc]) rfl
    have hr₂ : ntohsAt B (P.length + 2) = .ok q.q_type :=
      @ntohsAt_of_eq _ (P ++ htons v) (htons q.q_class ++ rest) _ _ (by simp [hB]) (by simp)
    have htype : q.q_type = v := Except.ok.inj (type_eq.symm.trans hr₁)
    have hclass : q.q_class = v := (Except.ok.inj (class_eq.symm.trans hr₂)).trans htype
    rw [htype, hclass] at hfit' ⊢
    have hP : P ++ (htons v ++ (htons v ++ htons v)) = P ++ (htons v ++ htons v) ++ htons v := by
      simp
    have hpos : P.length + 4 = (P ++ (htons v ++ htons v)).length := by simp
    have hle : (P ++ (htons v ++ htons v) ++ htons v).length ≤ POINTER_MAX := by
      rwa [← hP, List.length_append]
    rw [hP, hpos]
    obtain ⟨off, e₀, hl, hwf⟩ := h.known
    refine ⟨?_, hread _ hle, h.table, off, e₀, hl, (hwf.append _).append _⟩
    have hlt : (P ++ (htons v ++ htons v) ++ htons v).length =
        (P ++ (htons v ++ htons v)).length + 2 := by rw [List.length_append, length_htons]
    omega

/-- No record that is written while `decode` is behind reads back as it is: its type, class, time
and length would all be the pointer to the root, and it would have that many bytes of data. -/
theorem Behind.not_rr {P rest bs B : List UInt8} {pos e : ℕ} {tab' : HashTab UInt16} {r r' : RR}
    (h : Behind P tab pos)
    (hok : encodeRR r P.length tab = .ok (bs, tab')) (hB : B = P ++ (bs ++ rest))
    (hfit : B.length ≤ POINTER_MAX) (hy : WfEntry B pos (.rr r') e)
    (hr : r'.content = r.content) : False := by
  have hfit' : P.length + bs.length ≤ POINTER_MAX := by
    rw [hB, List.length_append, List.length_append] at hfit
    omega
  obtain ⟨hrname, hrtype, hrclass, hrTTL, hrdt, hrlen, -⟩ := RR.content_eq hr
  obtain ⟨v, hbig, hroot, -⟩ := h.exists_pointer (by omega) P.length
  -- What is read: the fields right after the name that `decode` is behind at.
  obtain ⟨e, hn, -, htype, hclass, hTTL, hlen, -, hdata⟩ := hy.rr_parts
  obtain ⟨hnil, rfl⟩ := h.name_eq (hB ▸ hn)
  -- What was written: the pointer, and the fields after it.
  obtain ⟨len, t, hBt⟩ : ∃ len t, B = P ++ (htons v ++ (fieldBytes r len ++ t)) := by
    obtain ⟨name, tab₁, hname, hd⟩ := encodeRR_eq_ok hok
    rw [← hrname, hnil, hroot] at hname
    obtain ⟨rfl, rfl⟩ := Prod.mk.inj (Except.ok.inj hname)
    rcases hd with ⟨-, -, rfl⟩ | ⟨-, target, -, rfl⟩
    · exact ⟨_, _, by rw [hB]; simp only [List.append_assoc]; rfl⟩
    · exact ⟨_, _, by rw [hB]; simp only [List.append_assoc]; rfl⟩
  have hlen_v : (P ++ htons v).length = P.length + 2 := by simp
  obtain ⟨h₁, h₂, h₃, -⟩ := @fields_of_eq B (P ++ htons v) t r len (by rw [hBt, List.append_assoc])
  rw [hlen_v] at h₁ h₂ h₃
  have htype_v : r'.type = v :=
    Except.ok.inj (htype.symm.trans (ntohsAt_of_eq hBt rfl))
  have hclass_v : r'.class_ = v := by
    rw [← htype_v, hrtype]
    exact Except.ok.inj (hclass.symm.trans h₁)
  have hclass_v' : ntohsAt B (P.length + 4) = .ok v := by
    rw [← hclass_v, hrclass]
    exact h₂
  have hlen_v' : r'.data_length = v := by
    rw [hrTTL] at hTTL
    exact Except.ok.inj (hlen.symm.trans (ntohl_shift hTTL h₃ hclass_v'))
  rw [htype_v, hlen_v'] at hdata
  rcases hdata with ⟨-, -, hdata⟩ | ⟨-, rfl | rfl, -⟩
  · have hle := exists_bytesAt.mp ⟨_, hdata⟩
    unfold POINTER_MAX at hfit
    omega
  · revert hbig
    decide
  · revert hbig
    decide

/-- What is written while `decode` is behind is no message that says what was to be written: `decode`
does not catch up. -/
theorem Behind.run {xs ys : List Entry} {P bs : List UInt8} {pos : ℕ} {tab' : HashTab UInt16}
    (h : Behind P tab pos) (hok : encodeEntries xs P.length tab = .ok (bs, tab'))
    (hfit : (P ++ bs).length ≤ POINTER_MAX)
    (hys : WfEntries (P ++ bs) pos ys (P ++ bs).length)
    (hxy : ys.map Entry.content = xs.map Entry.content) : False := by
  induction xs generalizing ys P bs pos tab with
  | nil =>
    obtain ⟨rfl, rfl⟩ := Prod.mk.inj (Except.ok.inj hok)
    obtain rfl := List.map_eq_nil_iff.mp hxy
    have hlt := h.lt
    rw [List.append_nil] at hys
    cases hys
    omega
  | cons x xs ih =>
    obtain ⟨y, ys, rfl, hy, hys'⟩ := List.map_eq_cons_iff.mp hxy
    obtain ⟨⟨b, tab₁⟩, hb, hok⟩ := Run.bind_eq_ok.mp hok
    obtain ⟨⟨bs', tab₂⟩, hbs', hok⟩ := Run.bind_eq_ok.mp hok
    obtain ⟨rfl, rfl⟩ := Prod.mk.inj (Except.ok.inj hok)
    cases hys with
    | @cons _ next _ _ _ head tail =>
      -- A question leaves `decode` behind, and a record does not read back.
      have hbehind : Behind (P ++ b) tab₁ next := by
        cases x with
        | ques q =>
          cases y with
          | ques q' =>
            obtain rfl := Entry.ques.inj hy
            exact h.ques hb rfl hfit head
          | rr r' => cases hy
        | rr r =>
          cases y with
          | ques q' => cases hy
          | rr r' =>
            exact (h.not_rr hb rfl hfit head (Entry.rr.inj hy)).elim
      rw [← List.append_assoc] at hfit tail
      exact ih hbehind (by rwa [List.length_append]) hfit tail hys'

/-! ## Level -/

/-- A table whose names are known has no name that the root ends. -/
theorem Known.lookup_rooted {P : List UInt8} (h : Known P tab HASH_KEY_MAX_LEN) {k : List UInt8}
    (hk : Short k) (hr : Rooted k) : tab.lookup k = none := by
  cases hl : tab.lookup k with
  | none => rfl
  | some off =>
    obtain ⟨⟨⟨ls, hne, rfl⟩, -⟩, -⟩ := h k off hk hk.le hl
    exact absurd hr (not_rooted_dotted hne)

/-- The first name that the root ends reads back as it is only when it is the root, and `decode` is
then one byte short of its end. -/
theorem rooted_name {ls : List Label} {P bs rest B : List UInt8} {e : ℕ} {tab' : HashTab UInt16}
    (hs : Short (rooted ls)) (hT : Table tab n) (hn : n + HASH_KEY_MAX_LEN ≤ TABLE_MAX)
    (hknown : Known P tab HASH_KEY_MAX_LEN)
    (hok : encodeName (rooted ls) P.length tab = .ok (bs, tab')) (hB : B = P ++ (bs ++ rest))
    (hwf : WfName B P.length (rooted ls) e) :
    rooted ls = [] ∧ bs = [0, 0] ∧ e = P.length + 1 ∧ Table tab' (n + 1) ∧
      tab'.lookup [] = some (UInt16.ofNat P.length) := by
  have hlen : ls.length ≤ (rooted ls).length := by
    clear * -
    induction ls with
    | nil => simp
    | cons l ls ih =>
      rw [rooted_cons, List.length_append, List.length_cons, List.length_cons]
      omega
  have hnone : ∀ k, Short k → Rooted k → tab.lookup k = none :=
    fun k hk hr => hknown.lookup_rooted hk hr
  unfold Short at hs
  obtain ⟨tab₁, hok'⟩ := encodeName_rooted hs hT (by omega) hnone P.length
  obtain ⟨rfl, rfl⟩ := Prod.mk.inj (Except.ok.inj (hok.symm.trans hok'))
  have hB' : B = P ++ (wires ls ++ 0 :: 0 :: rest) := by rw [hB]; simp
  obtain ⟨htext, rfl⟩ := hwf.unique (hB' ▸ wfName_wires ls P (0 :: rest))
  -- What is read has no dot at its end.
  have hls : ls = [] := by
    by_contra hne
    exact not_rooted_dotted hne (htext ▸ rooted_rooted ls)
  subst hls
  have hroot : encodeName [] P.length tab = .ok ([0, 0], tab') := hok
  obtain ⟨tab₁, hok₁, hT₁, hl⟩ := encodeName_root hT (by
    unfold HASH_KEY_MAX_LEN at hn
    omega) (hnone [] (by decide) (Or.inl rfl)) P.length
  obtain ⟨-, rfl⟩ := Prod.mk.inj (Except.ok.inj (hroot.symm.trans hok₁))
  exact ⟨rfl, rfl, rfl, hT₁, hl⟩

/-- Where `decode` is one byte short of what was written, and that byte is zero, it is behind. -/
theorem behind_of_zero {P bs rest : List UInt8} {pos : ℕ} (hpos : pos + 1 = (P ++ bs).length)
    (h0 : (P ++ (bs ++ rest))[pos]? = some 0) (hT : Table tab n)
    (hl : tab.lookup [] = some (UInt16.ofNat P.length))
    (hroot : (P ++ (bs ++ rest))[P.length]? = some 0) (hbs : bs ≠ [])
    (hfit : (P ++ (bs ++ rest)).length ≤ POINTER_MAX) : Behind (P ++ bs) tab pos := by
  rw [← List.append_assoc] at h0 hroot hfit
  have hlt : P.length < (P ++ bs).length := by
    have := List.length_pos_of_ne_nil hbs
    rw [List.length_append]
    omega
  rw [List.getElem?_append_left (by omega)] at h0
  rw [List.getElem?_append_left hlt] at hroot
  refine ⟨by omega, hpos ▸ .root h0, ⟨n, hT⟩, _, P.length + 1, hl, ?_⟩
  rw [@toNat_offset P bs (by
    rw [List.length_append] at hfit
    omega)]
  exact .root hroot

/-- A question for a name that the root ends leaves `decode` behind, when it reads back as it is. -/
theorem behind_of_ques {ls : List Label} {P bs rest B : List UInt8} {e : ℕ}
    {tab' : HashTab UInt16} {q : Question} (hq : rooted ls = q.q_name) (hT : Table tab n)
    (hn : n + HASH_KEY_MAX_LEN ≤ TABLE_MAX) (hknown : Known P tab HASH_KEY_MAX_LEN)
    (hok : encodeQues q P.length tab = .ok (bs, tab')) (hB : B = P ++ (bs ++ rest))
    (hfit : B.length ≤ POINTER_MAX) (hy : WfEntry B P.length (.ques q) e) :
    Behind (P ++ bs) tab' e := by
  obtain ⟨name, hname, rfl⟩ := encodeQues_eq_ok hok
  cases hy with
  | @ques _ e hn' short type_eq class_eq =>
    rw [← hq] at hname hn' short
    obtain ⟨-, rfl, rfl, hT', hl⟩ := rooted_name short hT hn hknown hname
      (by rw [hB, List.append_assoc]) hn'
    -- The fields are read one byte early, at the second zero.
    have h₀ : B[P.length]? = some 0 := by simp [hB]
    have h₁ : B[P.length + 1]? = some 0 := by simp [hB]
    have hr₁ : ntohsAt B (P.length + 1 + 1) = .ok q.q_type :=
      @ntohsAt_of_eq _ (P ++ [0, 0]) (htons q.q_class ++ rest) _ _ (by simp [hB]) (by simp)
    have hr₂ : ntohsAt B (P.length + 1 + 2 + 1) = .ok q.q_class :=
      @ntohsAt_of_eq _ (P ++ [0, 0] ++ htons q.q_type) rest _ _ (by simp [hB]) (by simp)
    obtain ⟨-, h₃⟩ := ntohs_lag h₁ type_eq hr₁
    obtain ⟨-, h₅⟩ := ntohs_lag h₃ class_eq hr₂
    subst hB
    exact behind_of_zero (by simp) h₅ hT' hl h₀ (by simp) hfit

/-- A record owned by a name that the root ends leaves `decode` behind, when it reads back as it
is: it has no data then. -/
theorem behind_of_rr {ls : List Label} {P bs rest B : List UInt8} {e : ℕ}
    {tab' : HashTab UInt16} {r r' : RR} (hq : rooted ls = r.name)
    (hT : Table tab n) (hn : n + HASH_KEY_MAX_LEN ≤ TABLE_MAX)
    (hknown : Known P tab HASH_KEY_MAX_LEN) (hok : encodeRR r P.length tab = .ok (bs, tab'))
    (hB : B = P ++ (bs ++ rest)) (hfit : B.length ≤ POINTER_MAX)
    (hy : WfEntry B P.length (.rr r') e) (hr : r'.content = r.content) :
    Behind (P ++ bs) tab' e := by
  obtain ⟨hrname, hrtype, hrclass, hrTTL, hrdt, hrlen, -⟩ := RR.content_eq hr
  obtain ⟨name, tab₁, hname, hd⟩ := encodeRR_eq_ok hok
  obtain ⟨e, hwf, short, htype, hclass, hTTL, hlen, rfl, hdata⟩ := hy.rr_parts
  rw [hrname, ← hq] at hwf short
  rw [hrtype] at htype
  rw [hrclass] at hclass
  rw [hrTTL] at hTTL
  rw [← hq] at hname
  obtain ⟨len, t, hBt⟩ : ∃ len t, B = P ++ (name ++ (fieldBytes r len ++ t)) ∧
      (r.data_type = .BINARY_TYPE → len = r.data_length ∧ tab' = tab₁ ∧
        bs = name ++ (fieldBytes r r.data_length ++ r.data.take r.data_length.toNat)) := by
    rcases hd with ⟨hb, rfl, rfl⟩ | ⟨hs, target, -, rfl⟩
    · exact ⟨r.data_length, r.data.take r.data_length.toNat ++ rest,
        by rw [hB]; simp only [List.append_assoc], fun _ => ⟨rfl, rfl, rfl⟩⟩
    · exact ⟨UInt16.ofNat target.length, target ++ rest,
        by rw [hB]; simp only [List.append_assoc], fun hb => absurd (hs.symm.trans hb) (by simp)⟩
  obtain ⟨hBt, hbin⟩ := hBt
  obtain ⟨-, rfl, rfl, hT', hl⟩ := rooted_name short hT hn hknown hname hBt hwf
  -- The fields are read one byte early, from the second zero on.
  have h₀ : B[P.length]? = some 0 := by simp [hBt]
  have h₁ : B[P.length + 1]? = some 0 := by simp [hBt]
  obtain ⟨f₁, f₂, f₃, f₄⟩ := @fields_of_eq B (P ++ [0, 0]) t r len (by rw [hBt, List.append_assoc])
  have hlen2 : (P ++ [0, 0]).length = P.length + 1 + 1 := by simp
  rw [hlen2] at f₁ f₂ f₃ f₄
  obtain ⟨htype0, h₃⟩ := ntohs_lag h₁ htype f₁
  obtain ⟨-, h₅⟩ := ntohs_lag h₃ hclass (by rw [← f₂])
  have h₉ := ntohl_lag h₅ hTTL (by rw [← f₃])
  -- So the type is no name's.
  have hb : r.data_type = .BINARY_TYPE := by
    rw [hrdt, hrtype, htype0] at hdata
    rcases hdata with ⟨hb, -⟩ | ⟨-, h | h, -⟩
    · exact hb
    · exact absurd h (by decide)
    · exact absurd h (by decide)
  obtain ⟨rfl, rfl, rfl⟩ := hbin hb
  rw [hrlen hb] at hlen ⊢
  obtain ⟨hlen0, h₁₁⟩ := ntohs_lag h₉ hlen (by rw [← f₄])
  rw [hlen0] at hB ⊢
  subst hB
  refine behind_of_zero ?_ ?_ hT' hl h₀ (by simp) hfit
  · simp
  · exact h₁₁

/-- No record whose data is the first name that the root ends reads back as it is, with data of its
length. -/
theorem not_target_rooted {ls : List Label} {P bs rest B : List UInt8} {e : ℕ}
    {tab' : HashTab UInt16} {r r' : RR} (hd : r.data_type = .STRING_TYPE)
    (hq : rooted ls = r.string_data) (howner : Encodable r.name)
    (hT : Table tab n) (hn : n + 2 * HASH_KEY_MAX_LEN ≤ TABLE_MAX)
    (hknown : Known P tab HASH_KEY_MAX_LEN) (hok : encodeRR r P.length tab = .ok (bs, tab'))
    (hB : B = P ++ (bs ++ rest)) (hfit : B.length ≤ POINTER_MAX)
    (hy : WfEntry B P.length (.rr r') e) (hr : r'.content = r.content) : False := by
  obtain ⟨hrname, -, -, -, hrdt, -, hrdata⟩ := RR.content_eq hr
  obtain ⟨name, tab₁, hname, hb | ⟨-, target, htarget, rfl⟩⟩ := encodeRR_eq_ok hok
  · exact absurd (hb.1.symm.trans hd) (by simp)
  obtain ⟨e, hwf, -, -, -, -, hlen, rfl, hb | ⟨-, -, short, hdata⟩⟩ := hy.rr_parts
  · exact absurd (hb.1.symm.trans (hrdt.trans hd)) (by simp)
  have hB₁ : B = P ++ name ++ (fieldBytes r (UInt16.ofNat target.length) ++ (target ++ rest)) := by
    rw [hB]
    simp only [List.append_assoc]
  have hfit₁ : (P ++ name).length ≤ POINTER_MAX := by
    rw [hB₁, List.length_append] at hfit
    omega
  -- The owner is written and read as it is.
  obtain ⟨name', tab₂, hname', hT₁, hspec⟩ := encodeName_spec howner hT (by omega) P
  obtain ⟨rfl, rfl⟩ := Prod.mk.inj (Except.ok.inj (hname.symm.trans hname'))
  obtain ⟨hwf₁, hknown₁⟩ := hspec hfit₁ hknown
  rw [hrname] at hwf
  obtain ⟨-, rfl⟩ := hwf.unique (hB₁ ▸ hwf₁.append _)
  obtain ⟨-, -, -, hlen'⟩ := fields_of_eq hB₁
  -- The target takes two bytes and is read as one.
  generalize hP : P ++ name ++ fieldBytes r (UInt16.ofNat target.length) = P₂
  have hP₂ : P₂.length = (P ++ name).length + 10 := by rw [← hP, List.length_append,
    length_fieldBytes]
  have hpos : P.length + name.length + 10 = P₂.length := by rw [hP₂, List.length_append]
  rw [hpos, ← hq] at htarget
  rw [hrdata hd, ← hq] at hdata short
  rw [← hP₂] at hdata
  have hB₂ : B = P₂ ++ (target ++ rest) := by
    rw [hB₁, ← hP]
    simp only [List.append_assoc]
  obtain ⟨-, rfl, hend, -⟩ := rooted_name short hT₁ (by omega) (hP ▸ hknown₁.append _) htarget hB₂
    hdata
  have hlen2 : r'.data_length = 2 := Except.ok.inj (hlen.symm.trans hlen')
  rw [hlen2, hP₂] at hend
  have h2 : (2 : UInt16).toNat = 2 := rfl
  omega

/-- Elements at one place, of one kind, have one end. -/
theorem WfEntry.end_eq {x y : Entry} {pos e e' : ℕ} (h : WfEntry buf pos x e)
    (h' : WfEntry buf pos y e') (hxy : x.content = y.content) : e = e' := by
  cases x with
  | ques q =>
    cases y with
    | rr r => cases hxy
    | ques q' =>
      have := (decodeQues_of_wfEntry h).symm.trans (decodeQues_of_wfEntry h')
      exact (Prod.mk.inj (Except.ok.inj this)).2
  | rr r =>
    cases y with
    | ques q' => cases hxy
    | rr r' =>
      have := (decodeRR_of_wfEntry h).symm.trans (decodeRR_of_wfEntry h')
      exact (Prod.mk.inj (Except.ok.inj this)).2

/-- An element that reads back as it is, when `decode` is level with what was written: its names
can be carried over, and `decode` stays level, or `decode` is behind after it. -/
theorem level_step {P bs rest B : List UInt8} {e : ℕ} {tab' : HashTab UInt16} {x y : Entry}
    (ht : x.Typed) (hx : ∀ k ∈ x.names, Encodable k ∨ ∃ ls, rooted ls = k)
    (hT : Table tab n) (hn : n + 2 * HASH_KEY_MAX_LEN ≤ TABLE_MAX)
    (hknown : Known P tab HASH_KEY_MAX_LEN) (hok : encodeEntry x P.length tab = .ok (bs, tab'))
    (hB : B = P ++ (bs ++ rest)) (hfit : B.length ≤ POINTER_MAX) (hy : WfEntry B P.length y e)
    (hxy : y.content = x.content) :
    ((∀ k ∈ x.names, Encodable k) ∧ e = (P ++ bs).length ∧
        Table tab' (n + 2 * HASH_KEY_MAX_LEN) ∧ Known (P ++ bs) tab' HASH_KEY_MAX_LEN) ∨
      Behind (P ++ bs) tab' e := by
  by_cases hall : ∀ k ∈ x.names, Encodable k
  · left
    obtain ⟨bs', tab₁, hok', hT', hw⟩ := encodeEntry_spec ht hall hT hn P
    obtain ⟨rfl, rfl⟩ := Prod.mk.inj (Except.ok.inj (hok.symm.trans hok'))
    rw [← List.append_assoc] at hB
    obtain ⟨ys, hys, hwf, hknown'⟩ := hw (by
      rw [hB, List.length_append] at hfit
      omega) hknown
    -- What was written is read in one way.
    obtain ⟨y', ys, rfl, hy', hnil⟩ := List.map_eq_cons_iff.mp hys
    obtain rfl := List.map_eq_nil_iff.mp hnil
    cases hwf with
    | cons head tail =>
      cases tail
      exact ⟨hall, hy.end_eq (hB ▸ head.append rest) (hxy.trans hy'.symm), hT', hknown'⟩
  · right
    cases x with
    | ques q =>
      cases y with
      | rr r' => cases hxy
      | ques q' =>
        obtain rfl := Entry.ques.inj hxy
        obtain ⟨ls, hls⟩ := (hx _ List.mem_cons_self).resolve_left
          fun h => hall fun k hk => List.mem_singleton.mp hk ▸ h
        exact behind_of_ques hls hT (by omega) hknown hok hB hfit hy
    | rr r =>
      cases y with
      | ques q' => cases hxy
      | rr r' =>
        rcases hx r.name List.mem_cons_self with howner | ⟨ls, hls⟩
        · -- The owner can be carried over, so the data is a name that cannot.
          cases hd : r.data_type with
          | BINARY_TYPE =>
            refine absurd (fun k hk => ?_) hall
            simp only [Entry.names, hd, List.mem_singleton] at hk
            exact hk ▸ howner
          | STRING_TYPE =>
            have hmem : r.string_data ∈ (Entry.rr r).names := by simp [Entry.names, hd]
            obtain ⟨ls, hls⟩ := (hx _ hmem).resolve_left fun h => hall fun k hk => by
              simp only [Entry.names, hd, List.mem_cons, List.not_mem_nil, or_false] at hk
              rcases hk with rfl | rfl
              · exact howner
              · exact h
            exact (not_target_rooted hd hls howner hT hn hknown hok hB hfit hy
              (Entry.rr.inj hxy)).elim
        · exact behind_of_rr hls hT (by omega) hknown hok hB hfit hy (Entry.rr.inj hxy)

/-- When what is written, with `decode` level, is elements that say what was to be written, their
names can be carried over. -/
theorem level_run {xs ys : List Entry} {P bs : List UInt8} {tab' : HashTab UInt16}
    (ht : ∀ x ∈ xs, x.Typed) (hx : ∀ x ∈ xs, ∀ k ∈ x.names, Encodable k ∨ ∃ ls, rooted ls = k)
    (hT : Table tab n) (hn : n + 2 * HASH_KEY_MAX_LEN * xs.length ≤ TABLE_MAX)
    (hknown : Known P tab HASH_KEY_MAX_LEN)
    (hok : encodeEntries xs P.length tab = .ok (bs, tab')) (hfit : (P ++ bs).length ≤ POINTER_MAX)
    (hys : WfEntries (P ++ bs) P.length ys (P ++ bs).length)
    (hxy : ys.map Entry.content = xs.map Entry.content) :
    ∀ x ∈ xs, ∀ k ∈ x.names, Encodable k := by
  induction xs generalizing ys P bs tab n with
  | nil => exact fun _ h => absurd h List.not_mem_nil
  | cons x xs ih =>
    rw [List.length_cons, Nat.mul_succ] at hn
    obtain ⟨y, ys, rfl, hy, hys'⟩ := List.map_eq_cons_iff.mp hxy
    obtain ⟨⟨b, tab₁⟩, hb, hok⟩ := Run.bind_eq_ok.mp hok
    obtain ⟨⟨bs', tab₂⟩, hbs', hok⟩ := Run.bind_eq_ok.mp hok
    obtain ⟨rfl, rfl⟩ := Prod.mk.inj (Except.ok.inj hok)
    have ht' : ∀ x' ∈ xs, x'.Typed := fun x' hx' => ht x' (List.mem_cons_of_mem x hx')
    cases hys with
    | cons head tail =>
      have hstep := level_step (ht x List.mem_cons_self) (hx x List.mem_cons_self) hT (by omega)
        hknown hb rfl hfit head hy
      have hbs'' : encodeEntries xs (P ++ b).length tab₁ = .ok (bs', tab₂) := by
        rwa [List.length_append]
      rw [← List.append_assoc] at hfit tail
      -- Once it is behind, it does not catch up before the end.
      rcases hstep with ⟨hall, rfl, hT', hknown'⟩ | hbehind
      · have hrest := ih ht' (fun x' hx' => hx x' (List.mem_cons_of_mem x hx')) hT' (by omega)
          hknown' hbs'' hfit tail hys'
        intro x' hx'
        rcases List.mem_cons.mp hx' with rfl | hx'
        · exact hall
        · exact hrest x' hx'
      · exact (hbehind.run hbs'' hfit tail hys').elim

/-! ## Datagrams -/

/-- What a well-formed element says about its record type and its names. -/
theorem WfEntry.typed {x : Entry} {pos e : ℕ} (h : WfEntry buf pos x e) : x.Typed := by
  cases h with
  | ques => trivial
  | bytes _ _ _ _ _ _ isBytes data type =>
    refine ⟨⟨fun h => absurd (type.symm.trans h) (by simp), fun h => absurd h isBytes⟩, fun _ => ?_⟩
    have hle := exists_bytesAt.mp ⟨_, data⟩
    rw [bytesAt_of_le hle] at data
    rw [← Except.ok.inj data, List.length_take, List.length_drop]
    omega
  | target _ _ _ _ _ _ isName _ _ type =>
    exact ⟨⟨fun _ => isName, fun _ => type⟩, fun h => absurd (type.symm.trans h) (by simp)⟩

/-- Every name of a well-formed element is a well-formed name on the wire, and short. -/
theorem WfEntry.names {x : Entry} {pos e : ℕ} (h : WfEntry buf pos x e) :
    ∀ k ∈ x.names, Short k ∧ ∃ p e, WfName buf p k e := by
  intro k hk
  cases h with
  | ques name short =>
    obtain rfl := List.mem_singleton.mp hk
    exact ⟨short, _, _, name⟩
  | bytes name short _ _ _ _ _ _ type =>
    simp only [Entry.names, type, List.mem_singleton] at hk
    exact hk ▸ ⟨short, _, _, name⟩
  | target name short _ _ _ _ _ data short' type =>
    simp only [Entry.names, type, List.mem_cons, List.not_mem_nil, or_false] at hk
    rcases hk with rfl | rfl
    · exact ⟨short, _, _, name⟩
    · exact ⟨short', _, _, data⟩

/-- What holds of every well-formed element holds of all in a row. -/
theorem WfEntries.forall_mem {xs : List Entry} {pos e : ℕ} {p : Entry → Prop}
    (h : WfEntries buf pos xs e) (hp : ∀ x pos e, WfEntry buf pos x e → p x) : ∀ x ∈ xs, p x := by
  induction h with
  | nil => exact fun _ h => absurd h List.not_mem_nil
  | cons head _ ih =>
    intro x hx
    rcases List.mem_cons.mp hx with rfl | hx
    · exact hp _ _ _ head
    · exact ih x hx

/-- Messages that say the same have elements that say the same. -/
theorem entries_content {m m' : Message} (h : m'.content = m.content) :
    m'.entries.map Entry.content = m.entries.map Entry.content := by
  have hmap : ∀ m : Message, m.entries.map Entry.content = m.content.entries := by
    intro m
    simp only [Message.entries, Message.content, List.map_append, List.map_map]
    rfl
  rw [hmap, hmap, h]

/-- Encoding a message again preserves it: what is written is a well-formed message that says what
the message says. -/
def Preserves (m : Message) (bs : List UInt8) : Prop :=
  ∃ m', decode bs = .ok (m', bs.length) ∧ m'.content = m.content ∧ WfMessage bs m' bs.length

/-- **Re-encoding.** `decode` of a well-formed datagram is the message it stands for, and `encode`
of that returns; when what it writes fits the callers' buffer, it preserves the message exactly when
no name of the datagram is the root, or labels that a pointer to the root follows. -/
theorem reencode_iff (b : List UInt8) (m : Message) (h : WfMessage b m b.length) :
    decode b = .ok (m, b.length) ∧ ∃ bs, encode m = .ok bs ∧
      (bs.length ≤ BUFF_SIZE → (Preserves m bs ↔ ∀ k ∈ m.names, ¬ Rooted k)) := by
  have hc := h.counted
  have ht : ∀ x ∈ m.entries, x.Typed := h.entries.forall_mem fun _ _ _ hx => hx.typed
  have hnames : ∀ x ∈ m.entries, ∀ k ∈ x.names, Short k ∧ ∃ p e, WfName b p k e :=
    h.entries.forall_mem fun _ _ _ hx => hx.names
  have hfew : 0 + 2 * HASH_KEY_MAX_LEN * m.entries.length ≤ TABLE_MAX := hc.few
  obtain ⟨⟨bs, tab'⟩, hok⟩ := encodeEntries_total ht (fun x hx k hk => (hnames x hx k hk).1)
    table_newHashTab hfew 12
  have hencode : encode m = .ok (encodeHeader m ++ bs) := by rw [encode_eq hc, hok, Run.ok_bind]
  refine ⟨decode_of_wfMessage h, _, hencode, fun hfit => ?_⟩
  have hptr : (encodeHeader m ++ bs).length ≤ POINTER_MAX := hfit.trans BUFF_SIZE_le_POINTER_MAX
  constructor
  -- The elements begin behind the header, where both are level.
  · rintro ⟨m', -, hcontent, hwf⟩
    have hrun := level_run ht (fun x hx k hk => ?_) table_newHashTab hfew
      (known_newHashTab (encodeHeader m) _) (by rwa [length_encodeHeader]) hptr
      (by rw [length_encodeHeader]; exact hwf.entries) (entries_content hcontent)
    · intro k hk
      obtain ⟨x, hx, hk⟩ := List.mem_flatMap.mp hk
      obtain ⟨hs, p, e, hname⟩ := hnames x hx k hk
      exact (hname.encodable_iff hs).mp (hrun x hx k hk)
    · obtain ⟨hs, p, e, hname⟩ := hnames x hx k hk
      rcases hname.cases_text with ⟨ls, hne, rfl⟩ | hr
      · exact Or.inl ⟨⟨ls, hne, rfl⟩, hs⟩
      · exact Or.inr hr
  · intro hroot
    have hencodable : ∀ k ∈ m.names, Encodable k := by
      intro k hk
      obtain ⟨x, hx, hk'⟩ := List.mem_flatMap.mp hk
      obtain ⟨hs, p, e, hname⟩ := hnames x hx k hk'
      exact (hname.encodable_iff hs).mpr (hroot k hk)
    obtain ⟨bs', hok', hspec⟩ := encode_spec hc ht hencodable
    obtain rfl := Except.ok.inj (hencode.symm.trans hok')
    obtain ⟨m', hcontent, hwf⟩ := hspec hptr
    exact ⟨m', decode_of_wfMessage hwf, hcontent, hwf⟩

/-- A datagram with one question, of type `A`, and the bytes of its name. -/
def query (name : List UInt8) : List UInt8 :=
  [0, 7, 0, 0, 0, 1, 0, 0, 0, 0, 0, 0] ++ (name ++ [0, 1, 0, 1])

/-- The message of such a datagram. -/
def queryMessage (q_name : List UInt8) : Message where
  ID := 7
  flag := 0
  q_count := 1
  RR_count := ⟨0, 0, 0⟩
  ques := [⟨q_name, A, IN⟩]
  resourse_record := ⟨[], [], []⟩

/-- A query for a well-formed name is a well-formed datagram. -/
theorem wfMessage_query {name q_name : List UInt8} (hs : Short q_name)
    (h : WfName (query name) 12 q_name (12 + name.length)) :
    WfMessage (query name) (queryMessage q_name) (query name).length where
  header := ⟨rfl, ⟨0, 0, rfl, rfl, rfl⟩, rfl, rfl, rfl, rfl⟩
  counted :=
    ⟨rfl, rfl, rfl, rfl, Nat.le_add_left 1 31, Nat.zero_le _, Nat.zero_le _, Nat.zero_le _⟩
  entries := by
    have hlen : (query name).length = 12 + name.length + 4 := by
      simp only [query, List.length_append, List.length_cons, List.length_nil]
      omega
    rw [hlen]
    refine .cons (.ques h hs ?_ ?_) (.nil _)
    · exact @ntohsAt_of_eq _ ([0, 7, 0, 0, 0, 1, 0, 0, 0, 0, 0, 0] ++ name) [0, 1] A _
        (by simp [query]; rfl) (by rw [List.length_append]; rfl)
    · exact @ntohsAt_of_eq _ ([0, 7, 0, 0, 0, 1, 0, 0, 0, 0, 0, 0] ++ name ++ [0, 1]) [] IN _
        (by simp [query]; rfl) (by rw [List.length_append, List.length_append]; rfl)

/-- Re-encoding preserves the query for `a`. -/
theorem reencode_iff_query :
    decode (query [1, 97, 0]) = .ok (queryMessage [97], 19) ∧
      ∃ bs, encode (queryMessage [97]) = .ok bs ∧
        (bs.length ≤ BUFF_SIZE →
          (Preserves (queryMessage [97]) bs ↔ ∀ k ∈ (queryMessage [97]).names, ¬ Rooted k)) :=
  reencode_iff (query [1, 97, 0]) (queryMessage [97]) <| by
    have hlabel : LabelAt (query [1, 97, 0]) 12 (letter 97 (by decide) (by decide)) := ⟨rfl, rfl⟩
    exact wfMessage_query (by decide) (.last hlabel rfl)

/-- A query for the root is a well-formed datagram that re-encoding does not preserve: its type and
class are read one byte early. -/
theorem reencode_moves_fields :
    WfMessage (query [0]) (queryMessage []) (query [0]).length ∧
      decode (query [0]) = .ok (queryMessage [], 17) ∧
      ∃ bs, encode (queryMessage []) = .ok bs ∧ bs.length ≤ BUFF_SIZE ∧
        decode bs = .ok ({ queryMessage [] with ques := [⟨[], 0, 0x0100⟩] }, 17) ∧
        ¬ Preserves (queryMessage []) bs := by
  refine ⟨wfMessage_query (by decide) (.root rfl), by decide +kernel, query [0, 0],
    by decide +kernel, by decide, by decide +kernel, ?_⟩
  rintro ⟨m', hdec, -⟩
  have hend : decode (query [0, 0]) =
      .ok ({ queryMessage [] with ques := [⟨[], 0, 0x0100⟩] }, 17) := by decide +kernel
  have := (Prod.mk.inj (Except.ok.inj (hdec.symm.trans hend))).2
  revert this
  decide

end DnsRelayer
