import DnsRelayer.Message.Pointers

/-!
# The names of an encoded message

`encode` calls `encodeName` for each name of the message in turn (`Message.nameCalls`), and the
calls share the table: each writes what `compress` does with the log that the calls before it left
(`Session`). So every pointer that a call writes leads to the tail of the name that it stands for,
exactly when no tail of a name of the message is confused with a longer tail, of that name or of one
before it (`pointers_sound_iff`).
-/

namespace DnsRelayer

variable {B : List UInt8} {log log' : Log} {lo lo' n : ℕ}

/-! ## The calls -/

/-- The arguments of a call of `encodeName`. -/
structure NameCall where
  name : List UInt8
  buff : ℕ
  ht : HashTab UInt16

/-- The calls that write an element. -/
def Entry.calls : Entry → ℕ → HashTab UInt16 → List NameCall
  | .ques q, p, ht => [⟨q.q_name, p, ht⟩]
  | .rr r, p, ht => ⟨r.name, p, ht⟩ ::
    match r.data_type, encodeName r.name p ht with
    | .STRING_TYPE, .ok (n, ht) => [⟨r.string_data, p + n.length + 10, ht⟩]
    | _, _ => []

/-- The calls that write elements one after the other. -/
def entriesCalls : List Entry → ℕ → HashTab UInt16 → List NameCall
  | [], _, _ => []
  | x :: xs, p, ht => x.calls p ht ++
    match encodeEntry x p ht with
    | .ok (bs, ht) => entriesCalls xs (p + bs.length) ht
    | .error _ => []

/-- The calls of `encodeName` in `encode`. -/
def Message.nameCalls (m : Message) : List NameCall := entriesCalls m.entries 12 newHashTab

/-- The call writes some labels of its name, and in the place of the others, `s`, a pointer, at the
offset `pos` and to the offset `target`. -/
def NameCall.Emits (c : NameCall) (pos : ℕ) (s : List UInt8) (target : ℕ) : Prop :=
  ∃ us vs hi lo ht', vs ≠ [] ∧ c.name = dotted (us ++ vs) ∧ s = dotted vs ∧
    encodeName c.name c.buff c.ht = .ok (wires us ++ [hi, lo], ht') ∧ hi ≥ POINTER ∧
    pos = c.buff + (wires us).length ∧ target = pointerTarget hi lo

/-- What a call writes with a log, and the log after it. -/
def NameCall.run (c : NameCall) (log : Log) : List UInt8 × Log := compress (pieces c.name) c.buff log

/-- Calls that write into a buffer from the offset `lo` on, each with the log that the one before it
left, to the offset `lo'`. -/
inductive Session (B : List UInt8) : ℕ → Log → List NameCall → ℕ → Log → Prop
  | nil {lo lo' : ℕ} {log : Log} (le : lo ≤ lo') : Session B lo log [] lo' log
  | cons {lo lo' : ℕ} {log log' : Log} {c : NameCall} {cs : List NameCall} (le : lo ≤ c.buff)
      (ok : ∃ ht', encodeName c.name c.buff c.ht = .ok ((c.run log).1, ht'))
      (written : ∃ Q R, B = Q ++ ((c.run log).1 ++ R) ∧ Q.length = c.buff)
      (rest : Session B (c.buff + (c.run log).1.length) (c.run log).2 cs lo' log') :
      Session B lo log (c :: cs) lo' log'

theorem Session.le {cs : List NameCall} (h : Session B lo log cs lo' log') : lo ≤ lo' := by
  induction h with
  | nil le => exact le
  | cons le _ _ _ ih => omega

theorem Session.weaken {cs : List NameCall} {lo₀ : ℕ} (h : Session B lo log cs lo' log')
    (hle : lo₀ ≤ lo) : Session B lo₀ log cs lo' log' := by
  cases h with
  | nil le => exact .nil (hle.trans le)
  | cons le ok written rest => exact .cons (hle.trans le) ok written rest

theorem Session.extend {cs : List NameCall} {lo₁ : ℕ} (h : Session B lo log cs lo' log')
    (hle : lo' ≤ lo₁) : Session B lo log cs lo₁ log' := by
  induction h with
  | nil le => exact .nil (le.trans hle)
  | cons le ok written _ ih => exact .cons le ok written (ih hle)

/-- One session after another. -/
theorem session_append_iff {cs cs' : List NameCall} {lo' : ℕ} {log' : Log} :
    Session B lo log (cs ++ cs') lo' log' ↔
      ∃ lo₁ log₁, Session B lo log cs lo₁ log₁ ∧ Session B lo₁ log₁ cs' lo' log' := by
  constructor
  · intro h
    induction cs generalizing lo log with
    | nil => exact ⟨lo, log, .nil le_rfl, h⟩
    | cons c cs ih =>
      cases h with
      | cons le ok written rest =>
        obtain ⟨lo₁, log₁, h₁, h₂⟩ := ih rest
        exact ⟨lo₁, log₁, .cons le ok written h₁, h₂⟩
  · rintro ⟨lo₁, log₁, h₁, h₂⟩
    induction h₁ with
    | nil le => exact h₂.weaken le
    | cons le ok written _ ih => exact .cons le ok written (ih h₂)

/-! ## The calls of a message are a session -/

/-- The log grows by less than what is written. -/
theorem length_compress_log (ps : List (List UInt8)) (off : ℕ) (log : Log) :
    (compress ps off log).2.length ≤ log.length + (compress ps off log).1.length := by
  induction ps generalizing off log with
  | nil => simp [compress]
  | cons p ps ih =>
    cases hf : found log (joined (p :: ps)) with
    | some pos =>
      rw [compress_of_some hf]
      exact Nat.le_add_right _ _
    | none =>
      rw [compress_of_none hf]
      have hrest := ih (off + 1 + p.length) ((joined (p :: ps), UInt16.ofNat off) :: log)
      rw [List.length_cons] at hrest
      rw [List.length_append, length_wire]
      dsimp only
      omega

/-- The most bytes of a name here. -/
def NAME_MAX : ℕ := 253

/-- A call is a session, in a table with a log that is no longer than what is written before it. -/
theorem session_of_encodeName {name : List UInt8} {p : ℕ} {ht ht' : HashTab UInt16}
    {bs Q R : List UInt8} (h : Logged ht log) (hlen : log.length ≤ p) (hname : name.length ≤ NAME_MAX)
    (hok : encodeName name p ht = .ok (bs, ht')) (hB : B = Q ++ (bs ++ R)) (hQ : Q.length = p)
    (hfit : B.length ≤ BUFF_SIZE) :
    ∃ log', Logged ht' log' ∧ log'.length ≤ p + bs.length ∧
      Session B p log [⟨name, p, ht⟩] (p + bs.length) log' := by
  have hp : p ≤ BUFF_SIZE := by
    rw [hB, List.length_append] at hfit
    omega
  have hroom : log.length + (name.length + 1) < 2 * INIT_SIZE := by
    unfold BUFF_SIZE at hp
    unfold NAME_MAX at hname
    unfold INIT_SIZE
    omega
  obtain ⟨ht₁, hrun, hlog₁⟩ := encodeName_compress h name hroom p
  obtain ⟨rfl, rfl⟩ := Prod.mk.inj (Except.ok.inj (hok.symm.trans hrun))
  have hgrow := length_compress_log (pieces name) p log
  exact ⟨_, hlog₁, hgrow.trans (by omega), .cons le_rfl ⟨ht', hrun⟩ ⟨Q, R, hB, hQ⟩ (.nil le_rfl)⟩

/-- Writing an element is a session. -/
theorem session_of_encodeEntry {x : Entry} {p : ℕ} {ht ht' : HashTab UInt16} {bs Q R : List UInt8}
    (h : Logged ht log) (hlen : log.length ≤ p) (hnames : ∀ k ∈ x.names, k.length ≤ NAME_MAX)
    (hok : encodeEntry x p ht = .ok (bs, ht')) (hB : B = Q ++ (bs ++ R)) (hQ : Q.length = p)
    (hfit : B.length ≤ BUFF_SIZE) :
    ∃ log', Logged ht' log' ∧ log'.length ≤ p + bs.length ∧
      Session B p log (x.calls p ht) (p + bs.length) log' ∧
      (x.calls p ht).map NameCall.name = x.names := by
  cases x with
  | ques q =>
    obtain ⟨name, hname, rfl⟩ := encodeQues_eq_ok hok
    obtain ⟨log', hlog', hlen', hses⟩ := session_of_encodeName h hlen (hnames _ List.mem_cons_self)
      hname (by rw [hB, List.append_assoc]) hQ hfit
    have hend : p + name.length ≤ p + (name ++ (htons q.q_type ++ htons q.q_class)).length := by
      rw [List.length_append]
      omega
    exact ⟨log', hlog', hlen'.trans hend, hses.extend hend, rfl⟩
  | rr r =>
    obtain ⟨name, tab₁, hname, hdata⟩ := encodeRR_eq_ok hok
    -- The owner, and then the target, if the data is a name.
    obtain ⟨log₁, hlog₁, hlen₁, hses₁⟩ : ∃ log₁, Logged tab₁ log₁ ∧ log₁.length ≤ p + name.length ∧
        Session B p log [⟨r.name, p, ht⟩] (p + name.length) log₁ := by
      rcases hdata with ⟨-, -, rfl⟩ | ⟨-, target, -, rfl⟩
      · exact session_of_encodeName h hlen (hnames _ List.mem_cons_self) hname
          (by rw [hB, List.append_assoc]) hQ hfit
      · exact session_of_encodeName h hlen (hnames _ List.mem_cons_self) hname
          (by rw [hB, List.append_assoc]) hQ hfit
    rcases hdata with ⟨hd, rfl, rfl⟩ | ⟨hd, target, htarget, rfl⟩
    · have hend : p + name.length ≤ p + (name ++ (fieldBytes r r.data_length ++
          r.data.take r.data_length.toNat)).length := by
        rw [List.length_append]
        omega
      have hcalls : (Entry.rr r).calls p ht = [⟨r.name, p, ht⟩] := by simp [Entry.calls, hd]
      rw [hcalls]
      exact ⟨log₁, hlog₁, hlen₁.trans hend, hses₁.extend hend, by simp [Entry.names, hd]⟩
    · have hcalls : (Entry.rr r).calls p ht =
          [⟨r.name, p, ht⟩] ++ [⟨r.string_data, p + name.length + 10, tab₁⟩] := by
        simp [Entry.calls, hd, hname]
      have hstart : (Q ++ (name ++ fieldBytes r (UInt16.ofNat target.length))).length =
          p + name.length + 10 := by
        rw [List.length_append, List.length_append, length_fieldBytes, hQ]
        omega
      have hB' : B = (Q ++ (name ++ fieldBytes r (UInt16.ofNat target.length))) ++ (target ++ R) := by
        rw [hB]
        simp only [List.append_assoc]
      obtain ⟨log₂, hlog₂, hlen₂, hses₂⟩ := session_of_encodeName hlog₁ (by omega)
        (hnames _ (by simp [Entry.names, hd])) htarget hB' hstart hfit
      have hend : p + (name ++ (fieldBytes r (UInt16.ofNat target.length) ++ target)).length =
          p + name.length + 10 + target.length := by
        rw [List.length_append, List.length_append, length_fieldBytes]
        omega
      rw [hcalls, hend]
      refine ⟨log₂, hlog₂, hlen₂, session_append_iff.mpr ⟨_, _, hses₁, hses₂.weaken (by omega)⟩, ?_⟩
      simp [Entry.names, hd]

/-- Writing elements is a session. -/
theorem session_of_encodeEntries {xs : List Entry} {p : ℕ} {ht ht' : HashTab UInt16}
    {bs Q R : List UInt8} (h : Logged ht log) (hlen : log.length ≤ p)
    (hnames : ∀ x ∈ xs, ∀ k ∈ x.names, k.length ≤ NAME_MAX)
    (hok : encodeEntries xs p ht = .ok (bs, ht')) (hB : B = Q ++ (bs ++ R)) (hQ : Q.length = p)
    (hfit : B.length ≤ BUFF_SIZE) :
    ∃ log', Session B p log (entriesCalls xs p ht) (p + bs.length) log' ∧
      (entriesCalls xs p ht).map NameCall.name = xs.flatMap Entry.names := by
  induction xs generalizing log p ht bs Q with
  | nil => exact ⟨log, .nil (Nat.le_add_right _ _), rfl⟩
  | cons x xs ih =>
    obtain ⟨⟨bs₁, ht₁⟩, hok₁, hok⟩ := Run.bind_eq_ok.mp hok
    obtain ⟨⟨bs₂, ht₂⟩, hok₂, hok⟩ := Run.bind_eq_ok.mp hok
    obtain ⟨rfl, rfl⟩ := Prod.mk.inj (Except.ok.inj hok)
    obtain ⟨log₁, hlog₁, hlen₁, hses₁, hn₁⟩ := session_of_encodeEntry h hlen
      (hnames x List.mem_cons_self) hok₁ (by rw [hB, List.append_assoc]) hQ hfit
    obtain ⟨log₂, hses₂, hn₂⟩ := ih hlog₁ hlen₁ (fun y hy => hnames y (List.mem_cons_of_mem x hy))
      hok₂ (by rw [hB, List.append_assoc, ← List.append_assoc Q]) (by rw [List.length_append, hQ])
    have hcalls : entriesCalls (x :: xs) p ht =
        x.calls p ht ++ entriesCalls xs (p + bs₁.length) ht₁ := by
      rw [entriesCalls, hok₁]
    rw [hcalls, List.length_append, ← Nat.add_assoc]
    refine ⟨log₂, session_append_iff.mpr ⟨_, _, hses₁, hses₂⟩, ?_⟩
    rw [List.map_append, hn₁, hn₂, List.flatMap_cons]

/-- The calls of `encodeName` in `encode` are a session that starts with an empty log. -/
theorem Message.Counted.session {m : Message} (hc : m.Counted)
    (hnames : ∀ k ∈ m.names, k.length ≤ NAME_MAX) (hok : encode m = .ok B)
    (hfit : B.length ≤ BUFF_SIZE) :
    ∃ lo' log', Session B 12 [] m.nameCalls lo' log' ∧ m.nameCalls.map NameCall.name = m.names := by
  rw [encode_eq hc] at hok
  obtain ⟨⟨bs, ht'⟩, hrun, hB⟩ := Run.bind_eq_ok.mp hok
  have hB' : B = encodeHeader m ++ (bs ++ []) := by
    rw [List.append_nil]
    exact (Except.ok.inj hB).symm
  obtain ⟨log', hses, hn⟩ := session_of_encodeEntries logged_newHashTab (Nat.zero_le 12)
    (fun x hx k hk => hnames k (List.mem_flatMap.mpr ⟨x, hx, hk⟩)) hrun hB'
    (length_encodeHeader m) hfit
  exact ⟨_, log', hses, hn⟩

/-! ## Tails -/

/-- The tails of a name from each of its labels on, the name itself first. -/
def labelTails (name : List UInt8) : List (List UInt8) :=
  ((pieces name).tails.filter (· ≠ [])).map joined

/-- Some tail of a name is confused, with a longer tail of that name or of one before it. -/
def Confusable (names : List (List UInt8)) : Prop :=
  ∃ P n Q, names = P ++ n :: Q ∧ ∃ s ∈ labelTails n, ∃ k ∈ P ++ [n], ∃ t ∈ labelTails k, Confuses t s

/-- A name of one label at least. -/
def Labelled (name : List UInt8) : Prop := ∃ ls : List Label, ls ≠ [] ∧ dotted ls = name

theorem mem_labelTails_iff {ls : List Label} (hne : ls ≠ []) {s : List UInt8} :
    s ∈ labelTails (dotted ls) ↔ ∃ us vs, ls = us ++ vs ∧ vs ≠ [] ∧ s = dotted vs := by
  simp only [labelTails, pieces_dotted hne, List.mem_map, List.mem_filter, List.mem_tails,
    decide_eq_true_eq]
  constructor
  · rintro ⟨ps, ⟨⟨qs, hsuffix⟩, hps⟩, rfl⟩
    obtain ⟨us, vs, rfl, -, rfl⟩ := List.map_eq_append_iff.mp hsuffix.symm
    exact ⟨us, vs, rfl, by simpa using hps, (dotted_eq_joined vs).symm⟩
  · rintro ⟨us, vs, rfl, hvs, rfl⟩
    refine ⟨vs.map Label.bytes, ⟨⟨us.map Label.bytes, by simp⟩, by simpa using hvs⟩, ?_⟩
    exact (dotted_eq_joined vs).symm

/-- A name has one sequence of labels. -/
theorem dotted_injective {ls ls' : List Label} (hne : ls ≠ []) (hne' : ls' ≠ [])
    (h : dotted ls = dotted ls') : ls = ls' := by
  have hbytes : ls.map Label.bytes = ls'.map Label.bytes := by
    rw [← pieces_dotted hne, ← pieces_dotted hne', h]
  refine List.map_injective_iff.mpr ?_ hbytes
  rintro ⟨b, _, _, _, _⟩ ⟨b', _, _, _, _⟩ hb
  simpa using hb

/-- A call for a name of labels writes them. -/
theorem NameCall.run_eq {c : NameCall} {ls : List Label} (hne : ls ≠ []) (hname : dotted ls = c.name) :
    c.run log = compressLabels ls c.buff log := by
  rw [NameCall.run, ← hname, pieces_dotted hne, compressLabels]

/-! ## A whole session -/

/-- Calls for names of labels keep the log fresh, keep what it has, and put in the tails that are too
long to be found. -/
theorem Session.log_spec {cs : List NameCall} (h : Session B lo log cs lo' log')
    (hnames : ∀ c ∈ cs, Labelled c.name) (hfresh : Fresh log) :
    Fresh log' ∧ (∀ e ∈ log, e ∈ log') ∧ ∀ c ∈ cs, ∀ t ∈ labelTails c.name,
      HASH_KEY_MAX_LEN < t.length → ∃ o, (t, o) ∈ log' := by
  induction h with
  | nil => exact ⟨hfresh, fun _ he => he, by simp⟩
  | @cons lo lo' log log' c cs le ok written rest ih =>
    obtain ⟨ls, hne, hname⟩ := hnames c List.mem_cons_self
    have hrun : c.run log = compressLabels ls c.buff log := NameCall.run_eq hne hname
    have hfresh₁ : Fresh (c.run log).2 := by
      rw [hrun]
      exact hfresh.compressLabels ls c.buff
    obtain ⟨hfresh', hsub, hlong⟩ := ih (fun d hd => hnames d (List.mem_cons_of_mem c hd)) hfresh₁
    obtain ⟨new, hnew, -⟩ := compressLabels_log ls c.buff log
    refine ⟨hfresh', fun e he => hsub e ?_, fun d hd t ht hlen => ?_⟩
    · rw [hrun, hnew]
      exact List.mem_append_right new he
    · rcases List.mem_cons.mp hd with rfl | hd
      · rw [← hname, mem_labelTails_iff hne] at ht
        obtain ⟨us, vs, rfl, hvs, rfl⟩ := ht
        -- A tail of this name: it is put in here and stays.
        obtain ⟨o, ho⟩ := @mem_compressLabels_of_long log d.buff us vs hvs hlen
        rw [← hrun] at ho
        exact ⟨o, hsub _ ho⟩
      · exact hlong d hd t ht hlen

/-- What is written into a buffer ends within it. -/
theorem end_le_of_written {Q bs R : List UInt8} (hB : B = Q ++ (bs ++ R))
    (hfit : B.length ≤ POINTER_MAX) : Q.length + bs.length ≤ POINTER_MAX := by
  rw [hB, List.length_append, List.length_append] at hfit
  omega

/-- After a session, every name of the log is at an offset that fits a pointer, and reading goes on
from it as it should. -/
theorem Session.continues {cs : List NameCall} (h : Session B lo log cs lo' log')
    (hfit : B.length ≤ POINTER_MAX) (hnames : ∀ c ∈ cs, Labelled c.name)
    (hlog : ∀ e ∈ log, e.2.toNat < POINTER_MAX ∧ Continues B log e) :
    ∀ e ∈ log', e.2.toNat < POINTER_MAX ∧ Continues B log' e := by
  induction h with
  | nil => exact hlog
  | @cons lo lo' log log' c cs le ok written rest ih =>
    obtain ⟨ls, hne, hname⟩ := hnames c List.mem_cons_self
    have hrun : c.run log = compressLabels ls c.buff log := NameCall.run_eq hne hname
    obtain ⟨Q, R, hB, hQ⟩ := written
    rw [hrun, ← hQ] at hB ih
    have hend := end_le_of_written hB hfit
    obtain ⟨-, hcont⟩ := compressLabels_continues hB hfit fun e he => (hlog e he).1
    obtain ⟨new, hnew, -⟩ := compressLabels_log ls Q.length log
    refine ih (fun d hd => hnames d (List.mem_cons_of_mem c hd)) fun e he => ?_
    -- What the call adds is in what it writes; what was there goes on as before.
    constructor
    · rcases compressLabels_added hend e he with he | ⟨-, hlt⟩
      · exact (hlog e he).1
      · omega
    · rcases hcont e he with he | he
      · refine (hlog e he).2.mono fun e' he' => ?_
        rw [hnew]
        exact List.mem_append_right new he'
      · exact he

/-- The calls' names are not confused, with names of the log or with each other. -/
def Clear (log : Log) (names : List (List UInt8)) : Prop :=
  ∀ P n Q, names = P ++ n :: Q → ∀ s ∈ labelTails n,
    (∀ e ∈ log, ¬ Confuses e.1 s) ∧ ∀ k ∈ P ++ [n], ∀ t ∈ labelTails k, ¬ Confuses t s

/-- The first of the names is not confused. -/
theorem Clear.clean {ls : List Label} {names : List (List UInt8)} (hne : ls ≠ [])
    (h : Clear log (dotted ls :: names)) : Clean log ls := by
  have hfirst := h [] (dotted ls) names rfl
  have hself : dotted ls ∈ ([] : List (List UInt8)) ++ [dotted ls] := by simp
  intro us vs hls
  by_cases hvs : vs = []
  · -- The empty tail is too short.
    subst hvs
    have hno : ∀ t, ¬ Confuses t (dotted []) := by
      intro t hc
      exact absurd hc.length_eq (by decide)
    exact ⟨fun e _ => hno e.1, fun _ us₂ _ => hno _⟩
  · obtain ⟨hlog, hown⟩ := hfirst (dotted vs) ((mem_labelTails_iff hne).mpr ⟨us, vs, hls, hvs, rfl⟩)
    refine ⟨hlog, fun us₁ us₂ hus => hown _ hself _ ((mem_labelTails_iff hne).mpr ?_)⟩
    exact ⟨us₁, us₂ ++ vs, by rw [hls, hus, List.append_assoc], by simp [hvs], rfl⟩

/-- After the first of the names, the others are not confused. -/
theorem Clear.rest {n : List UInt8} {names : List (List UInt8)} (h : Clear log (n :: names))
    {log₁ : Log} (hadd : ∀ e ∈ log₁, e ∈ log ∨ e.1 ∈ labelTails n) : Clear log₁ names := by
  intro P n' Q hsplit s hs
  obtain ⟨hlog, hown⟩ := h (n :: P) n' Q (by rw [hsplit, List.cons_append]) s hs
  refine ⟨fun e he => ?_, fun k hk => hown k (List.mem_cons_of_mem n hk)⟩
  rcases hadd e he with he | he
  · exact hlog e he
  · exact hown n List.mem_cons_self e.1 he

/-- Every pointer that calls write for names that are not confused leads back to its tail. -/
theorem Session.sound {cs : List NameCall} (h : Session B lo log cs lo' log')
    (hfit : B.length ≤ POINTER_MAX) (hnames : ∀ c ∈ cs, Labelled c.name)
    (hlo : ∀ e ∈ log, e.2.toNat < lo) (hin : ∀ len, InBuffer B log len)
    (hclear : Clear log (cs.map NameCall.name)) :
    ∀ c ∈ cs, ∀ pos s target, c.Emits pos s target →
      target < pos ∧ ∃ e, WfName B target s e := by
  induction h with
  | nil => simp
  | @cons lo lo' log log' c cs le ok written rest ih =>
    obtain ⟨ls, hne, hname⟩ := hnames c List.mem_cons_self
    have hrun : c.run log = compressLabels ls c.buff log := NameCall.run_eq hne hname
    obtain ⟨Q, R, hB, hQ⟩ := written
    rw [List.map_cons, ← hname] at hclear
    have hclean := hclear.clean hne
    have hlo' : ∀ e ∈ log, e.2.toNat < Q.length := by
      intro e he
      have := hlo e he
      omega
    rw [hrun, ← hQ] at hB ih
    have hend := end_le_of_written hB hfit
    obtain ⟨-, hin'⟩ := compressLabels_sound hne hB hfit hlo' hclean (hin _)
    have hadded := compressLabels_added hend
    intro d hd pos s target hemits
    rcases List.mem_cons.mp hd with rfl | hd
    · obtain ⟨us, vs, hi, lo, ht', hvs, hsplit, rfl, hbytes, hp, rfl, rfl⟩ := hemits
      -- The tail that the pointer stands for begins at a label.
      have hls : ls = us ++ vs :=
        dotted_injective hne (by simp [hvs]) (hname.trans hsplit)
      obtain ⟨ht'', hok⟩ := ok
      rw [hbytes, hrun, ← hQ] at hok
      have heq := (Prod.mk.inj (Except.ok.inj hok)).1
      subst hls
      rw [← hQ]
      exact pointer_of_clean hvs hB hfit hlo' hclean (hin _) heq.symm hp
    · refine ih (fun d hd => hnames d (List.mem_cons_of_mem c hd)) ?_ ?_ ?_ d hd pos s target hemits
      -- The next call finds the log as this one did.
      · intro e he
        rcases hadded e he with he | ⟨-, hlt⟩
        · have := hlo' e he
          omega
        · exact hlt
      · intro len e he hle
        obtain ⟨new, hnew, hshort⟩ := compressLabels_log ls Q.length log
        by_cases hle' : e.1.length ≤ (dotted ls).length
        · exact hin' e he hle'
        · rw [hnew] at he
          rcases List.mem_append.mp he with he | he
          · exact absurd (hshort e he) hle'
          · exact hin len e he hle
      · refine hclear.rest fun e he => ?_
        rcases hadded e he with he | ⟨⟨us, vs, hls, hvs, hkey⟩, -⟩
        · exact Or.inl he
        · exact Or.inr ((mem_labelTails_iff hne).mpr ⟨us, vs, hls, hvs, hkey⟩)

/-- A call for a name with a confused tail writes a pointer for the tail, to a longer name. -/
theorem Session.exists_confused {cs : List NameCall} {c : NameCall}
    (h : Session B lo log (c :: cs) lo' log') (hnames : Labelled c.name) (hfresh : Fresh log)
    {s : List UInt8} (hs : s ∈ labelTails c.name)
    (hconf : (∃ e ∈ log, Confuses e.1 s) ∨ ∃ t ∈ labelTails c.name, Confuses t s) :
    ∃ key pos, (key, pos) ∈ (c.run log).2 ∧ HASH_KEY_MAX_LEN < key.length ∧
      (pos.toNat < POINTER_MAX → ∃ at_pos, c.Emits at_pos s pos.toNat) := by
  obtain ⟨ls, hne, hname⟩ := hnames
  have hrun : c.run log = compressLabels ls c.buff log := NameCall.run_eq hne hname
  rw [← hname, mem_labelTails_iff hne] at hs
  obtain ⟨us, vs, rfl, hvs, rfl⟩ := hs
  have hlen : (dotted vs).length = HASH_KEY_MAX_LEN := by
    rcases hconf with ⟨e, -, hc⟩ | ⟨t, -, hc⟩
    · exact hc.length_eq
    · exact hc.length_eq
  have hconf' : (∃ e ∈ log, Confuses e.1 (dotted vs)) ∨
      ∃ us₁ us₂, us = us₁ ++ us₂ ∧ Confuses (dotted (us₂ ++ vs)) (dotted vs) := by
    rcases hconf with h | ⟨t, ht, hc⟩
    · exact Or.inl h
    · rw [← hname, mem_labelTails_iff hne] at ht
      obtain ⟨ws, xs, hsplit, hxs, rfl⟩ := ht
      -- The longer tail begins before the confused one.
      rcases List.append_eq_append_iff.mp hsplit.symm with ⟨zs, hus, hxs'⟩ | ⟨zs, hws, hvs'⟩
      · exact Or.inr ⟨ws, zs, hus, by rwa [← hxs']⟩
      · exfalso
        have hle := length_dotted_le zs xs
        rw [← hvs'] at hle
        have := hc.1
        omega
  obtain ⟨key, pos, hmem, hkey, hbytes⟩ := compressLabels_of_confuses hfresh hvs hlen hconf' c.buff
  rw [← hrun] at hmem hbytes
  refine ⟨key, pos, hmem, hkey, fun hpos => ?_⟩
  obtain ⟨hi, lo₁, hptr, hp, htarget⟩ := exists_htons_pointer hpos
  rw [hptr] at hbytes
  cases h with
  | cons le ok written rest =>
    obtain ⟨ht', hok⟩ := ok
    rw [hbytes] at hok
    exact ⟨_, us, vs, hi, lo₁, ht', hvs, hname.symm, rfl, hok, hp, rfl, htarget.symm⟩

/-- When a name of a session is confused, a call writes a pointer for a tail of it that leads to a
longer name. -/
theorem Session.exists_overlong {cs : List NameCall} (h : Session B lo [] cs lo' log')
    (hnames : ∀ c ∈ cs, Labelled c.name) (hconf : Confusable (cs.map NameCall.name)) :
    ∃ c ∈ cs, ∃ s key pos, (key, pos) ∈ log' ∧ s.length < key.length ∧
      (pos.toNat < POINTER_MAX → ∃ at_pos, c.Emits at_pos s pos.toNat) := by
  obtain ⟨P, n, Q, hsplit, s, hs, k, hk, t, ht, hconf⟩ := hconf
  obtain ⟨Pc, rest, rfl, hPc, hrest⟩ := List.map_eq_append_iff.mp hsplit
  obtain ⟨c, Qc, rfl, rfl, -⟩ := List.map_eq_cons_iff.mp hrest
  obtain ⟨lo₁, log₁, hbefore, hfrom⟩ := session_append_iff.mp h
  obtain ⟨hfresh₁, -, hlong₁⟩ :=
    hbefore.log_spec (fun d hd => hnames d (List.mem_append_left _ hd)) trivial
  have hlab : Labelled c.name := hnames c (by simp)
  -- The longer tail is of a name before, and in the log, or of this name.
  have hconf' : (∃ e ∈ log₁, Confuses e.1 s) ∨ ∃ t ∈ labelTails c.name, Confuses t s := by
    rcases List.mem_append.mp hk with hk | hk
    · rw [← hPc] at hk
      obtain ⟨d, hd, rfl⟩ := List.mem_map.mp hk
      obtain ⟨o, ho⟩ := hlong₁ d hd t ht hconf.1
      exact Or.inl ⟨_, ho, hconf⟩
    · rw [List.mem_singleton.mp hk] at ht
      exact Or.inr ⟨t, ht, hconf⟩
  obtain ⟨key, pos, hkey, hlong, hemits⟩ := hfrom.exists_confused hlab hfresh₁ hs hconf'
  have hkey' : (key, pos) ∈ log' := by
    cases hfrom with
    | cons le ok written rest =>
      obtain ⟨ls, hne, hname⟩ := hlab
      have hfresh₂ : Fresh (c.run log₁).2 := by
        rw [NameCall.run_eq hne hname]
        exact hfresh₁.compressLabels ls c.buff
      exact (rest.log_spec (fun d hd => hnames d (by simp [hd])) hfresh₂).2.1 _ hkey
  exact ⟨c, by simp, s, key, pos, hkey', hconf.length_eq.trans_lt hlong, hemits⟩

/-- With nothing in the log, names are clear when they are not confused with each other. -/
theorem clear_of_not_confusable {names : List (List UInt8)} (h : ¬ Confusable names) :
    Clear [] names := by
  intro P n Q hsplit s hs
  refine ⟨by simp, fun k hk t ht hconf => h ?_⟩
  exact ⟨P, n, Q, hsplit, s, hs, k, hk, t, ht, hconf⟩

/-- **Compression pointers.** In a message whose names are labels with dots between them, and whose
encoding fits the callers' buffer, every compression pointer that `encodeName` writes leads to an
earlier offset at which the encoding decodes to the tail that the pointer stands for, exactly when no
tail of 50 bytes is the beginning of a longer tail with the same hash, modulo the size of the table,
of its own name or of one before it. -/
theorem pointers_sound_iff (m : Message) (hc : m.Counted)
    (hnames : ∀ k ∈ m.names, Labelled k ∧ k.length ≤ NAME_MAX) (hok : encode m = .ok B)
    (hfit : B.length ≤ BUFF_SIZE) :
    (∀ c ∈ m.nameCalls, ∀ pos s target, c.Emits pos s target →
      target < pos ∧ ∃ e, decodeName B 0 (nameFuel B) target = .ok (s, e)) ↔
        ¬ Confusable m.names := by
  obtain ⟨lo', log', hses, hmap⟩ := hc.session (fun k hk => (hnames k hk).2) hok hfit
  have hlab : ∀ c ∈ m.nameCalls, Labelled c.name := by
    intro c hcm
    refine (hnames c.name ?_).1
    rw [← hmap]
    exact List.mem_map_of_mem hcm
  have hptr : B.length ≤ POINTER_MAX := hfit.trans BUFF_SIZE_le_POINTER_MAX
  rw [← hmap]
  constructor
  · intro hsound hconf
    obtain ⟨c, hcm, s, key, pos, hkey, hlt, hemits⟩ := hses.exists_overlong hlab hconf
    have hcont := hses.continues hptr hlab (by simp)
    obtain ⟨at_pos, hem⟩ := hemits (hcont _ hkey).1
    obtain ⟨-, e, hdecode⟩ := hsound c hcm at_pos s _ hem
    -- More than the tail is read there.
    have hle := length_le_of_reaches (fun e he => (hcont e he).2) (decodeName_eq_ok_iff.mp hdecode)
      (.entry key pos hkey rfl le_rfl)
    omega
  · intro hno c hcm pos s target hemits
    obtain ⟨hback, e, hwf⟩ := hses.sound hptr hlab (by simp)
      (fun _ e he => absurd he List.not_mem_nil) (clear_of_not_confusable hno) c hcm pos s target
      hemits
    exact ⟨hback, e, decodeName_eq_ok_iff.mpr hwf.nameAt⟩

/-- Names that nodes keep whole are not confused. -/
theorem not_confusable_of_fits {names : List (List UInt8)} (hlab : ∀ k ∈ names, Labelled k)
    (hfits : ∀ k ∈ names, Fits k) : ¬ Confusable names := by
  rintro ⟨P, n, Q, rfl, s, -, k, hk, t, ht, hlong, -⟩
  have hmem : k ∈ P ++ n :: Q := by
    rcases List.mem_append.mp hk with hk | hk
    · exact List.mem_append_left _ hk
    · simp [List.mem_singleton.mp hk]
  obtain ⟨ls, hne, rfl⟩ := hlab k hmem
  rw [mem_labelTails_iff hne] at ht
  obtain ⟨us, vs, rfl, -, rfl⟩ := ht
  have hle : (dotted (us ++ vs)).length ≤ HASH_KEY_MAX_LEN := hfits _ hmem
  have := length_dotted_le us vs
  omega

/-- A message whose pointers all lead to their tails: the owner of the answer is written as a pointer,
and the target ends with one. -/
theorem pointers_sound_alias : ∃ B, encode aliasMessage = .ok B ∧
    ∀ c ∈ aliasMessage.nameCalls, ∀ pos s target, c.Emits pos s target →
      target < pos ∧ ∃ e, decodeName B 0 (nameFuel B) target = .ok (s, e) := by
  have hcounted : aliasMessage.Counted :=
    ⟨rfl, rfl, rfl, rfl, by decide, by decide, by decide, by decide⟩
  have hlen : (encode aliasMessage).map List.length = .ok 37 := by decide +kernel
  obtain ⟨B, hok, hB⟩ := Run.map_eq_ok.mp hlen
  have hlab : ∀ k ∈ aliasMessage.names, Labelled k := by
    intro k hk
    have hk' : k ∈ [[97, DOT, 99], [97, DOT, 99], [98, DOT, 99]] := hk
    simp only [List.mem_cons, List.not_mem_nil, or_false] at hk'
    rcases hk' with rfl | rfl | rfl
    · exact ⟨[letter 97 (by decide) (by decide), letter 99 (by decide) (by decide)], by simp, rfl⟩
    · exact ⟨[letter 97 (by decide) (by decide), letter 99 (by decide) (by decide)], by simp, rfl⟩
    · exact ⟨[letter 98 (by decide) (by decide), letter 99 (by decide) (by decide)], by simp, rfl⟩
  have hfits : ∀ k ∈ aliasMessage.names, k.length = 3 := by
    intro k hk
    have hk' : k ∈ [[97, DOT, 99], [97, DOT, 99], [98, DOT, 99]] := hk
    simp only [List.mem_cons, List.not_mem_nil, or_false] at hk'
    rcases hk' with rfl | rfl | rfl <;> rfl
  refine ⟨B, hok, (pointers_sound_iff aliasMessage hcounted (fun k hk => ⟨hlab k hk, ?_⟩) hok
    (by rw [hB]; decide)).mpr (not_confusable_of_fits hlab fun k hk => ?_)⟩
  · rw [hfits k hk]
    decide
  · unfold Fits
    rw [hfits k hk]
    decide

/-- A name of 50 letters. -/
def cutName : List UInt8 := List.replicate 50 97

/-- The name with another label, whose bytes have a sum that is a multiple of the table's size. -/
def confusingName : List UInt8 := cutName ++ DOT :: (List.replicate 7 127 ++ [89])

/-- Two questions, for the longer name and for the other. -/
def confusedMessage : Message where
  ID := 7
  flag := 1
  q_count := 2
  RR_count := ⟨0, 0, 0⟩
  ques := [⟨confusingName, A, IN⟩, ⟨cutName, A, IN⟩]
  resourse_record := ⟨[], [], []⟩

/-- The second name is written as a pointer to the first. -/
theorem confused_pointer : ∃ B, encode confusedMessage = .ok B ∧ B.length ≤ BUFF_SIZE ∧
    (∀ k ∈ confusedMessage.names, Labelled k ∧ k.length ≤ NAME_MAX) ∧
    ∃ c ∈ confusedMessage.nameCalls, ∃ pos, c.Emits pos cutName 12 ∧
      ∃ e, decodeName B 0 (nameFuel B) 12 = .ok (confusingName, e) ∧ confusingName ≠ cutName := by
  have hB : (encode confusedMessage).map (fun B =>
      (B.length, decodeName B 0 (nameFuel B) 12)) = .ok (83, .ok (confusingName, 73)) := by
    decide +kernel
  obtain ⟨B, hok, hread⟩ := Run.map_eq_ok.mp hB
  obtain ⟨hlen, hdecode⟩ := Prod.mk.inj hread
  have hcall : ∃ c ∈ confusedMessage.nameCalls, c.name = cutName ∧
      (encodeName c.name c.buff c.ht).map Prod.fst = .ok [0xc0, 12] := by
    decide +kernel
  obtain ⟨c, hc, hname, hrun⟩ := hcall
  obtain ⟨⟨bs, ht'⟩, hrun', hbs⟩ := Run.map_eq_ok.mp hrun
  have hcut : Labelled cutName := by
    refine ⟨[⟨cutName, by decide, by decide, by decide, by decide⟩], by simp, rfl⟩
  have hlong : Labelled confusingName := by
    refine ⟨[⟨cutName, by decide, by decide, by decide, by decide⟩,
      ⟨List.replicate 7 127 ++ [89], by decide, by decide, by decide, by decide⟩], by simp, rfl⟩
  refine ⟨B, hok, by rw [hlen]; decide, ?_, c, hc, c.buff, ?_, 73, hdecode, by decide⟩
  · intro k hk
    have hk' : k ∈ [confusingName, cutName] := hk
    simp only [List.mem_cons, List.not_mem_nil, or_false] at hk'
    rcases hk' with rfl | rfl
    · exact ⟨hlong, by decide⟩
    · exact ⟨hcut, by decide⟩
  · obtain ⟨ls, hne, hls⟩ := hcut
    refine ⟨[], ls, 0xc0, 12, ht', hne, ?_, hls.symm, ?_, by decide, rfl, rfl⟩
    · rw [hname, List.nil_append, hls]
    · rw [hrun']
      exact congrArg (fun bs => Except.ok (bs, ht')) hbs

end DnsRelayer
