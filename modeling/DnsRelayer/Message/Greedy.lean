import DnsRelayer.Lib.Journal
import DnsRelayer.Lib.Tails
import DnsRelayer.Message.Rfc
import DnsRelayer.Message.Session

/-!
# The names of a message are written greedily

Calls of `encodeName` that share a table and a buffer, each behind what the one before it wrote. The
names have labels, and so few bytes that the table keeps them whole. A call emits the tails of its
name that begin with a label that it writes. `encodeNames_greedy` says that the labels that it writes
are those before the longest tail that any call emitted before, that a pointer to where this was
emitted first follows them, and that every insert is of a name that the table does not have.

`encodeNameInserts` is `encodeName` with its inserts for a log.
-/

namespace DnsRelayer

open Lib

/-! ## The source -/

/-- A call of `insert`: the table before it, the name and the position. -/
structure Insert where
  ht : HashTab UInt16
  name : List UInt8
  pos : UInt16

/-- A part of `encodeName`, with its inserts. -/
abbrev Inserting (α : Type) := Journal Insert Fault α

/-- `insert`, with an entry for it. -/
def insertLogged (ht : HashTab UInt16) (name : List UInt8) (pos : UInt16) :
    Inserting (HashTab UInt16) := do
  Journal.entry ⟨ht, name, pos⟩
  Journal.lift (insert ht name pos)

/-- The loop of `encodeName`, with its inserts. -/
def encodeLoopInserts (ht : HashTab UInt16) (num : ℕ) (last_name out label : List UInt8)
    (cnt : UInt8) : List UInt8 → Inserting (List UInt8 × HashTab UInt16)
  | [] => do
    let ht ← insertLogged ht last_name (UInt16.ofNat num)
    return (out ++ (cnt :: label ++ [0]), ht)
  | c :: name =>
    if c = DOT then do
      let ht ← insertLogged ht last_name (UInt16.ofNat num)
      let pos ← Journal.lift (getPos name ht)
      if pos ≠ 0 then return (out ++ (cnt :: label ++ htons pos), ht)
      else encodeLoopInserts ht (num + 1 + label.length) name (out ++ cnt :: label) [] 0 name
    else encodeLoopInserts ht num last_name out (label ++ [c]) (cnt + 1) name

/-- `encodeName`, with its inserts. -/
def encodeNameInserts (name : List UInt8) (buff : ℕ) (ht : HashTab UInt16) :
    Inserting (List UInt8 × HashTab UInt16) := do
  let pos ← Journal.lift (getPos name ht)
  if pos ≠ 0 then return (htons pos, ht)
  else encodeLoopInserts ht buff name [] [] 0 name

/-- Without its log, the loop is that of `encodeName`. -/
theorem encodeLoopInserts_result (ht : HashTab UInt16) (num : ℕ) (last_name out label : List UInt8)
    (cnt : UInt8) (name : List UInt8) :
    (encodeLoopInserts ht num last_name out label cnt name).result =
      encodeLoop ht num last_name out label cnt name := by
  have hinsert : ∀ ht name pos, (insertLogged ht name pos).result = insert ht name pos :=
    fun _ _ _ => rfl
  induction name generalizing ht num last_name out label cnt with
  | nil =>
    rw [encodeLoopInserts, encodeLoop, Journal.result_bind, hinsert]
    rfl
  | cons c name ih =>
    rw [encodeLoopInserts, encodeLoop]
    by_cases hc : c = DOT
    · rw [if_pos hc, if_pos hc, Journal.result_bind, hinsert]
      refine bind_congr fun ht => ?_
      rw [Journal.result_bind, Journal.result_lift]
      refine bind_congr fun pos => ?_
      by_cases hpos : pos ≠ 0
      · rw [if_pos hpos, if_pos hpos]
        rfl
      · rw [if_neg hpos, if_neg hpos]
        exact ih ..
    · rw [if_neg hc, if_neg hc]
      exact ih ..

theorem encodeNameInserts_result (name : List UInt8) (buff : ℕ) (ht : HashTab UInt16) :
    (encodeNameInserts name buff ht).result = encodeName name buff ht := by
  rw [encodeNameInserts, encodeName, Journal.result_bind, Journal.result_lift]
  refine bind_congr fun pos => ?_
  by_cases hpos : pos ≠ 0
  · rw [if_pos hpos, if_pos hpos]
    rfl
  · rw [if_neg hpos, if_neg hpos]
    exact encodeLoopInserts_result ..

/-! ## Calls of a message -/

/-- A call of `encodeName` for a name with labels that the table keeps whole, at an offset. -/
structure NameWrite where
  labels : List Label
  ne_nil : labels ≠ []
  short : Short (dotted labels)
  buff : ℕ

/-- The calls, one after the other: what each of them writes, and the table after them. -/
def encodeNames : List NameWrite → HashTab UInt16 → Run (List (List UInt8) × HashTab UInt16)
  | [], ht => .ok ([], ht)
  | c :: calls, ht => do
    let (bs, ht) ← encodeName (dotted c.labels) c.buff ht
    let (outs, ht) ← encodeNames calls ht
    return (bs :: outs, ht)

/-- The inserts of the calls. -/
def namesInserts : List NameWrite → HashTab UInt16 → List Insert
  | [], _ => []
  | c :: calls, ht => (encodeNameInserts (dotted c.labels) c.buff ht).log ++
    match encodeName (dotted c.labels) c.buff ht with
    | .ok (_, ht) => namesInserts calls ht
    | .error _ => []

/-- How much room a label takes. -/
def Label.size (l : Label) : ℕ := 1 + l.length

/-- What is written of a name that is cut at the tail `vs`: the labels before it, and a pointer to
where it was first emitted, or the root's byte when there is no tail. -/
inductive Cuts (seen : Seen Label) (us : List Label) : List Label → List UInt8 → Prop
  | all : Cuts seen us [] (wires us ++ [0])
  | pointer {vs : List Label} {pos : ℕ} {hi lo : UInt8} (ne_nil : vs ≠ [])
      (first : seen.position vs = some pos) (hp : hi ≥ POINTER) (target : pointerTarget hi lo = pos) :
      Cuts seen us vs (wires us ++ [hi, lo])

/-- The calls write these bytes when tails have been emitted before: each name is cut at its longest
tail that was, and the tails that begin with a label that is written are emitted then. -/
inductive Greedy : Seen Label → List NameWrite → List (List UInt8) → Seen Label → Prop
  | nil {seen : Seen Label} : Greedy seen [] [] seen
  | cons {seen seen' : Seen Label} {c : NameWrite} {calls : List NameWrite} {us vs : List Label}
      {bs : List UInt8} {outs : List (List UInt8)} (isCut : IsCut seen c.labels us vs)
      (cuts : Cuts seen us vs bs)
      (rest : Greedy (seen ++ tailsAt Label.size vs us c.buff) calls outs seen') :
      Greedy seen (c :: calls) (bs :: outs) seen'

/-! ## The table -/

/-- The table has the tails that were emitted, where they were first. -/
structure Mirrors (ht : HashTab UInt16) (seen : Seen Label) : Prop where
  table : Table ht seen.length
  lookup : ∀ ls, ls ≠ [] → Short (dotted ls) →
    ht.lookup (dotted ls) = (seen.position ls).map UInt16.ofNat
  short : ∀ e ∈ seen, e.1 ≠ [] ∧ Short (dotted e.1)

theorem mirrors_newHashTab : Mirrors newHashTab [] where
  table := table_newHashTab
  lookup := by
    intro ls _ _
    rw [HashTab.lookup, HashTab.newHashTab_entries]
    rfl
  short := by simp

variable {ht : HashTab UInt16} {seen : Seen Label} {ls us vs : List Label}

/-- A tail that was not emitted before is put into the table. -/
theorem Mirrors.insert (h : Mirrors ht seen) (hne : ls ≠ []) (hs : Short (dotted ls))
    (hnone : seen.position ls = none) (hlen : seen.length < TABLE_MAX) (off : ℕ) :
    ∃ ht', DnsRelayer.insert ht (dotted ls) (UInt16.ofNat off) = .ok ht' ∧
      Mirrors ht' (seen ++ [(ls, off)]) := by
  obtain ⟨ht', hok, hT, hl⟩ := h.table.insert hlen (dotted ls) (UInt16.ofNat off)
  refine ⟨ht', hok, by simpa using hT, fun ks hks hshort => ?_, ?_⟩
  · rw [hl _ hshort, Seen.position_concat]
    by_cases hk : ls = ks
    · rw [← hk, if_pos rfl, if_pos rfl, hnone]
      rfl
    · rw [if_neg fun e => hk (dotted_injective hne hks e.symm), if_neg hk, Option.or_none,
        h.lookup ks hks hshort]
  · exact List.forall_mem_append.mpr ⟨h.short, List.forall_mem_singleton.mpr ⟨hne, hs⟩⟩

theorem Mirrors.search (h : Mirrors ht seen) (hne : ls ≠ []) (hs : Short (dotted ls)) :
    DnsRelayer.search ht (dotted ls) = .ok ((seen.position ls).map UInt16.ofNat) := by
  rw [HashTab.search_of_placed h.table.len_pos h.table.indexed.placed hs, h.lookup ls hne hs]

theorem Mirrors.getPos (h : Mirrors ht seen) (hne : ls ≠ []) (hs : Short (dotted ls)) :
    DnsRelayer.getPos (dotted ls) ht =
      .ok ((seen.position ls).elim 0 fun pos => 0xc000 ||| UInt16.ofNat pos) := by
  rw [DnsRelayer.getPos, h.search hne hs, Run.ok_bind]
  cases seen.position ls <;> rfl

/-! ## The loop -/

/-- What ends a name that is cut at this tail. -/
def ending (seen : Seen Label) : List Label → List UInt8
  | [] => [0]
  | v :: vs => htons (0xc000 ||| UInt16.ofNat ((seen.position (v :: vs)).getD 0))

/-- Longer tails that are emitted do not change how a name ends. -/
theorem ending_concat {key : List Label} (h : vs.length < key.length) (off : ℕ) :
    ending (seen ++ [(key, off)]) vs = ending seen vs := by
  cases vs with
  | nil => rfl
  | cons v vs =>
    have hne : key ≠ v :: vs := fun e => by
      rw [e] at h
      exact Nat.lt_irrefl _ h
    rw [ending, ending, Seen.position_concat_of_ne hne]

/-- What `encodeName` writes of a name, when these tails have been emitted. -/
def written (seen : Seen Label) (ls : List Label) : List UInt8 :=
  wires (cut seen ls).1 ++ ending seen (cut seen ls).2

/-- What it emits, at an offset. -/
def emitted (seen : Seen Label) (ls : List Label) (off : ℕ) : Seen Label :=
  tailsAt Label.size (cut seen ls).2 (cut seen ls).1 off

/-- A name that was emitted is a pointer. -/
theorem written_of_some {pos : ℕ} (hne : ls ≠ []) (h : seen.position ls = some pos) :
    written seen ls = htons (0xc000 ||| UInt16.ofNat pos) ∧ ∀ off, emitted seen ls off = [] := by
  obtain ⟨l, ls, rfl⟩ := List.exists_cons_of_ne_nil hne
  have hcut : cut seen (l :: ls) = ([], l :: ls) := by
    rw [cut, h]
    rfl
  unfold written emitted
  rw [hcut]
  refine ⟨?_, fun _ => rfl⟩
  rw [ending, h]
  rfl

/-- A name that was not emitted is its first label, and what is written of the rest after that. -/
theorem written_of_none {l : Label} (h : seen.position (l :: ls) = none) (off : ℕ) :
    written seen (l :: ls) = l.wire ++ written (seen ++ [(l :: ls, off)]) ls ∧
      seen ++ emitted seen (l :: ls) off =
        seen ++ [(l :: ls, off)] ++ emitted (seen ++ [(l :: ls, off)]) ls (off + 1 + l.length) := by
  have hcut : cut seen (l :: ls) = (l :: (cut seen ls).1, (cut seen ls).2) := by
    rw [cut, h]
    rfl
  have hsplit := (isCut_cut seen ls).split
  have hlt : ls.length < (l :: ls).length := Nat.lt_succ_self _
  -- the tail at which the rest is cut is no longer than the rest
  have hlt' : (cut seen ls).2.length < (l :: ls).length := by
    have hlen := congrArg List.length hsplit
    rw [List.length_append] at hlen
    omega
  unfold written emitted
  rw [hcut, cut_concat hlt, ending_concat hlt', wires_cons, List.append_assoc, tailsAt, ← hsplit,
    Label.size, ← Nat.add_assoc]
  exact ⟨rfl, (List.append_cons ..)⟩

/-- The loop copies the bytes of a label, and inserts nothing. -/
theorem encodeLoopInserts_label {num : ℕ} {last_name out label rest bytes : List UInt8}
    {cnt : UInt8} (h : DOT ∉ bytes) :
    encodeLoopInserts ht num last_name out label cnt (bytes ++ rest) =
      encodeLoopInserts ht num last_name out (label ++ bytes) (cnt + UInt8.ofNat bytes.length)
        rest := by
  refine @copies_label _ (encodeLoopInserts ht num last_name out) ?_ label rest bytes cnt h
  intro label cnt c rest hc
  rw [encodeLoopInserts, if_neg hc]

/-- After an insert, its entry is in front of the log of what comes then. -/
theorem insertLogged_bind {name : List UInt8} {pos : UInt16} {ht' : HashTab UInt16}
    (h : insert ht name pos = .ok ht') {β : Type} (f : HashTab UInt16 → Inserting β) :
    insertLogged ht name pos >>= f = ⟨⟨ht, name, pos⟩ :: (f ht').log, (f ht').result⟩ := by
  have hresult : (insertLogged ht name pos).result = .ok ht' := h
  rw [Journal.bind_of_ok hresult]
  rfl

/-- The loop of `encodeName` writes a name that was not emitted, and inserts only tails that the table
does not have. -/
theorem encodeLoopInserts_spec (hne : ls ≠ []) (hs : Short (dotted ls)) (h : Mirrors ht seen)
    (hnone : seen.position ls = none) (hlen : seen.length + ls.length ≤ TABLE_MAX) (off : ℕ)
    (out : List UInt8) :
    ∃ log ht', encodeLoopInserts ht off (dotted ls) out [] 0 (dotted ls) =
        ⟨log, .ok (out ++ written seen ls, ht')⟩ ∧ Mirrors ht' (seen ++ emitted seen ls off) ∧
      ∀ i ∈ log, search i.ht i.name = .ok none := by
  induction ls generalizing ht seen off out with
  | nil => exact absurd rfl hne
  | cons l ls ih =>
    rw [List.length_cons] at hlen
    obtain ⟨ht₁, hok, h₁⟩ := h.insert hne hs hnone (by omega) off
    have hfresh : search ht (dotted (l :: ls)) = .ok none := by
      rw [h.search hne hs, hnone]
      rfl
    obtain ⟨hwritten, hemitted⟩ := written_of_none hnone off
    have hcnt : (0 : UInt8) + UInt8.ofNat l.bytes.length = l.len := UInt8.zero_add _
    rw [hwritten, hemitted]
    by_cases hls : ls = []
    · subst hls
      have hrun := @encodeLoopInserts_label ht off (dotted [l]) out [] [] l.bytes 0 l.no_dot
      rw [show l.bytes ++ [] = dotted [l] from List.append_nil _] at hrun
      rw [hrun, hcnt, encodeLoopInserts, insertLogged_bind hok]
      refine ⟨_, ht₁, rfl, by simpa [emitted, cut, tailsAt] using h₁, ?_⟩
      intro i hi
      rw [List.mem_singleton.mp hi]
      exact hfresh
    · have hmore := dotted_cons_of_ne_nil l hls
      have hshort : Short (dotted ls) := lt_trans (length_dotted_lt l ls) hs
      -- After the label, the table is asked for the rest of the name.
      have hrun : encodeLoopInserts ht off (dotted (l :: ls)) out [] 0 (dotted (l :: ls)) =
          insertLogged ht (dotted (l :: ls)) (UInt16.ofNat off) >>= fun ht =>
            Journal.lift (getPos (dotted ls) ht) >>= fun pos =>
              if pos ≠ 0 then pure (out ++ (l.wire ++ htons pos), ht)
              else encodeLoopInserts ht (off + 1 + l.length) (dotted ls) (out ++ l.wire) [] 0
                (dotted ls) := by
        have hlabel := @encodeLoopInserts_label ht off (dotted (l :: ls)) out [] (DOT :: dotted ls)
          l.bytes 0 l.no_dot
        rw [← hmore] at hlabel
        rw [hlabel, hcnt, encodeLoopInserts, if_pos rfl]
        rfl
      rw [hrun, insertLogged_bind hok, h₁.getPos hls hshort, Journal.lift_bind]
      cases hp : Seen.position (seen ++ [(l :: ls, off)]) ls with
      | some pos =>
        obtain ⟨hw, he⟩ := written_of_some hls hp
        rw [hw, he, List.append_nil, Option.elim_some, if_pos (pointer_ne_zero _)]
        refine ⟨_, ht₁, rfl, h₁, ?_⟩
        intro i hi
        rw [List.mem_singleton.mp hi]
        exact hfresh
      | none =>
        obtain ⟨log, ht', hrest, h', hlog⟩ := ih hls hshort h₁ hp
          (by rw [List.length_append, List.length_singleton]; omega) (off + 1 + l.length)
          (out ++ l.wire)
        rw [Option.elim_none, if_neg (by simp), hrest, List.append_assoc]
        refine ⟨_, ht', rfl, h', ?_⟩
        intro i hi
        rcases List.mem_cons.mp hi with rfl | hi
        · exact hfresh
        · exact hlog i hi

/-- `encodeName` writes a name up to its longest tail that was emitted, and inserts only tails that
the table does not have. -/
theorem encodeNameInserts_spec (hne : ls ≠ []) (hs : Short (dotted ls)) (h : Mirrors ht seen)
    (off : ℕ) (hlen : (emitted seen ls off ≠ [] → seen.length + ls.length ≤ TABLE_MAX)) :
    ∃ ht', encodeName (dotted ls) off ht = .ok (written seen ls, ht') ∧
      Mirrors ht' (seen ++ emitted seen ls off) ∧
      ∀ i ∈ (encodeNameInserts (dotted ls) off ht).log, search i.ht i.name = .ok none := by
  rw [← encodeNameInserts_result, encodeNameInserts, h.getPos hne hs, Journal.lift_bind]
  cases hp : seen.position ls with
  | some pos =>
    obtain ⟨hw, he⟩ := written_of_some hne hp
    rw [hw, he, List.append_nil, Option.elim_some, if_pos (pointer_ne_zero _)]
    exact ⟨ht, rfl, h, by simp⟩
  | none =>
    have hsome : emitted seen ls off ≠ [] := by
      obtain ⟨l, ls, rfl⟩ := List.exists_cons_of_ne_nil hne
      rw [emitted, cut, hp]
      exact List.cons_ne_nil _ _
    obtain ⟨log, ht', hok, h', hlog⟩ := encodeLoopInserts_spec hne hs h hp (hlen hsome) off []
    rw [Option.elim_none, if_neg (by simp), hok, List.nil_append]
    exact ⟨ht', rfl, h', hlog⟩

/-! ## All calls of a message -/

/-- Each call writes behind what the one before it wrote, and no label that it writes is at an offset
which a pointer has no room for. -/
def InOrder : ℕ → Seen Label → List NameWrite → Prop
  | _, _, [] => True
  | lo, seen, c :: calls => lo ≤ c.buff ∧
    (∀ e ∈ emitted seen c.labels c.buff, e.2 < POINTER_MAX) ∧
    InOrder (c.buff + (written seen c.labels).length) (seen ++ emitted seen c.labels c.buff) calls

instance decidableInOrder : (lo : ℕ) → (seen : Seen Label) → (calls : List NameWrite) →
    Decidable (InOrder lo seen calls)
  | _, _, [] => inferInstanceAs (Decidable True)
  | lo, seen, c :: calls =>
    have := decidableInOrder (c.buff + (written seen c.labels).length)
      (seen ++ emitted seen c.labels c.buff) calls
    inferInstanceAs (Decidable (lo ≤ c.buff ∧
      (∀ e ∈ emitted seen c.labels c.buff, e.2 < POINTER_MAX) ∧ InOrder _ _ calls))

/-- What is written is a name that is cut at the longest tail that was emitted. -/
theorem cuts_written (hpos : ∀ e ∈ seen, e.2 < POINTER_MAX) (ls : List Label) :
    Cuts seen (cut seen ls).1 (cut seen ls).2 (written seen ls) := by
  have hcut := isCut_cut seen ls
  unfold written
  cases hvs : (cut seen ls).2 with
  | nil => exact .all
  | cons v vs =>
    rw [hvs] at hcut
    obtain ⟨pos, hp⟩ := Option.isSome_iff_exists.mp (hcut.seen_tail (List.cons_ne_nil v vs))
    -- the offset is that of a tail that was emitted, so a pointer has room for it
    have hlt : pos < POINTER_MAX := by
      obtain ⟨e, he, rfl⟩ := Option.map_eq_some_iff.mp hp
      exact hpos e (List.mem_of_find?_eq_some he)
    have hoff : (UInt16.ofNat pos).toNat = pos := by
      unfold POINTER_MAX at hlt
      rw [UInt16.toNat_ofNat']
      omega
    obtain ⟨hi, lo, hbytes, hhi, htarget⟩ := exists_htons_pointer (hoff.trans_lt hlt)
    rw [ending, hp, Option.getD_some, hbytes]
    exact .pointer (List.cons_ne_nil v vs) hp hhi (htarget.trans hoff)

/-- A call writes at least as many bytes as it emits tails. -/
theorem length_emitted_le (seen : Seen Label) (ls : List Label) (off : ℕ) :
    (emitted seen ls off).length ≤ (written seen ls).length := by
  have hwires : ∀ us : List Label, us.length ≤ (wires us).length := by
    intro us
    induction us with
    | nil => exact Nat.zero_le _
    | cons u us ih =>
      rw [wires_cons, List.length_append, u.length_wire, List.length_cons]
      omega
  unfold emitted written
  rw [length_tailsAt, List.length_append]
  exact (hwires _).trans (Nat.le_add_right _ _)

/-- A name has at most as many labels as bytes. -/
theorem length_le_length_dotted (ls : List Label) : ls.length ≤ (dotted ls).length + 1 := by
  by_cases hne : ls = []
  · simp [hne]
  · have hlen := length_pieces_le (dotted ls)
    rwa [pieces_dotted hne, List.length_map] at hlen

/-- Between two calls: the table mirrors the tails that were emitted, each once and within the reach of
a pointer, and what was written so far ends at `lo`. -/
structure Progress (lo : ℕ) (ht : HashTab UInt16) (seen : Seen Label) : Prop where
  mirrors : Mirrors ht seen
  length_le : seen.length ≤ lo
  reach : ∀ e ∈ seen, e.2 < POINTER_MAX
  nodup : (seen.map (·.1)).Nodup

theorem progress_newHashTab (lo : ℕ) : Progress lo newHashTab [] :=
  ⟨mirrors_newHashTab, Nat.zero_le _, by simp, List.nodup_nil⟩

/-- One call. -/
theorem Progress.step {lo : ℕ} (h : Progress lo ht seen) {c : NameWrite} (hlo : lo ≤ c.buff)
    (hreach : ∀ e ∈ emitted seen c.labels c.buff, e.2 < POINTER_MAX) :
    ∃ ht', encodeName (dotted c.labels) c.buff ht = .ok (written seen c.labels, ht') ∧
      Progress (c.buff + (written seen c.labels).length) ht'
        (seen ++ emitted seen c.labels c.buff) ∧
      ∀ i ∈ (encodeNameInserts (dotted c.labels) c.buff ht).log, search i.ht i.name = .ok none := by
  -- A call that emits a tail has its place within the reach of a pointer, so the table has room.
  have hroom : emitted seen c.labels c.buff ≠ [] → seen.length + c.labels.length ≤ TABLE_MAX := by
    intro hne
    obtain ⟨e, he⟩ := List.exists_mem_of_ne_nil _ hne
    obtain ⟨-, -, -, -, -, hle⟩ := mem_tailsAt he
    have hlt := hreach e he
    have hlabels := length_le_length_dotted c.labels
    have hshort := c.short
    have hlen := h.length_le
    unfold Short HASH_KEY_MAX_LEN at hshort
    unfold POINTER_MAX at hlt
    unfold TABLE_MAX
    omega
  obtain ⟨ht', hok, hmirrors, hfresh⟩ := encodeNameInserts_spec c.ne_nil c.short h.mirrors c.buff hroom
  refine ⟨ht', hok, ⟨hmirrors, ?_, List.forall_mem_append.mpr ⟨h.reach, hreach⟩, ?_⟩, hfresh⟩
  · have hle := length_emitted_le seen c.labels c.buff
    have hlen := h.length_le
    rw [List.length_append]
    omega
  · exact nodup_append_tailsAt h.nodup (isCut_cut seen c.labels) c.buff

/-- A sequence of calls. -/
theorem Progress.run {lo : ℕ} (h : Progress lo ht seen) {calls : List NameWrite}
    (horder : InOrder lo seen calls) :
    ∃ outs ht' seen' lo', encodeNames calls ht = .ok (outs, ht') ∧ Greedy seen calls outs seen' ∧
      Progress lo' ht' seen' ∧ ∀ i ∈ namesInserts calls ht, search i.ht i.name = .ok none := by
  induction calls generalizing ht seen lo with
  | nil => exact ⟨[], ht, seen, lo, rfl, .nil, h, by simp [namesInserts]⟩
  | cons c calls ih =>
    obtain ⟨hlo, hreach, hrest⟩ := horder
    obtain ⟨ht₁, hok, h₁, hfresh⟩ := h.step hlo hreach
    obtain ⟨outs, ht', seen', lo', hoks, hgreedy, h', hfreshs⟩ := ih h₁ hrest
    refine ⟨written seen c.labels :: outs, ht', seen', lo', ?_,
      .cons (isCut_cut seen c.labels) (cuts_written h.reach c.labels) hgreedy, h', ?_⟩
    · rw [encodeNames, hok, Run.ok_bind]
      dsimp only
      rw [hoks]
      rfl
    · rw [namesInserts, hok]
      exact List.forall_mem_append.mpr ⟨hfresh, hfreshs⟩

/-- Calls for names of labels, in order, in a new table: each writes the labels before the longest
tail that was emitted, and a pointer to where this was first, or all labels and the root's byte;
every insert is of a name that the table does not have; and no tail is emitted twice, so that the
table has each tail where it was emitted. -/
theorem encodeNames_greedy {lo : ℕ} {calls : List NameWrite} (horder : InOrder lo [] calls) :
    ∃ outs ht seen, encodeNames calls newHashTab = .ok (outs, ht) ∧ Greedy [] calls outs seen ∧
      (∀ i ∈ namesInserts calls newHashTab, search i.ht i.name = .ok none) ∧
      (seen.map (·.1)).Nodup ∧
      ∀ e ∈ seen, search ht (dotted e.1) = .ok (some (UInt16.ofNat e.2)) := by
  obtain ⟨outs, ht, seen, lo', hok, hgreedy, h, hfresh⟩ := (progress_newHashTab lo).run horder
  refine ⟨outs, ht, seen, hok, hgreedy, hfresh, h.nodup, ?_⟩
  rintro ⟨ls, off⟩ he
  obtain ⟨hne, hs⟩ := h.mirrors.short _ he
  rw [h.mirrors.search hne hs, Seen.position_of_mem h.nodup he]
  rfl

/-- The calls for `a` at the offset 12 and for `a.a` at the offsets 20 and 30. -/
def threeWrites : List NameWrite :=
  [⟨[labelA], by decide, by decide, 12⟩, ⟨[labelA, labelA], by decide, by decide, 20⟩,
    ⟨[labelA, labelA], by decide, by decide, 30⟩]

/-- The second call ends with a pointer to the first name, and the third is a pointer to the second
name. -/
theorem encodeNames_greedy_three : ∃ outs ht seen,
    encodeNames threeWrites newHashTab = .ok (outs, ht) ∧ Greedy [] threeWrites outs seen ∧
      (∀ i ∈ namesInserts threeWrites newHashTab, search i.ht i.name = .ok none) ∧
      (seen.map (·.1)).Nodup ∧
      ∀ e ∈ seen, search ht (dotted e.1) = .ok (some (UInt16.ofNat e.2)) :=
  encodeNames_greedy (show InOrder 12 [] threeWrites by decide)

example : (encodeNames threeWrites newHashTab).map (·.1) =
    .ok [[1, 97, 0], [1, 97, 0xc0, 12], [0xc0, 20]] := by decide +kernel

end DnsRelayer
