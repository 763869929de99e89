import DnsRelayer.Server.Reference
import DnsRelayer.Server.Policy

/-!
# One matching reply for each query

On the reference cache, with standard queries and responses, a local file of dotted addresses, and
lookups that find the position of the `FILE` where they left it, no handler faults, and every handler
sends one datagram to its own client, which matches its request (`one_reply`). What the cache has under
a key can be served for the name and the type of the key (`Keyed`); that is the invariant.

`file_reply_mismatched` is a run in which another lookup moves the position of the `FILE`: the reply
to a query has the address of another name.
-/

namespace DnsRelayer

open Lib

/-- An item that is cached under the key of its name and type, and can be served. -/
structure Keyed (key : List UInt8) (it : Item) : Prop where
  sound : it.Sound
  key_eq : calcKey it.name it.type.toUInt16 = some key

/-- A file of well-formed lines, with dotted addresses, and its index. -/
structure LocalFile (fr : FileReader) (lines : List Line) : Prop where
  indexes : Indexes Short fr.fd lines fr.item_index
  wellFormed : ∀ l ∈ lines, l.WellFormed
  dotted : ∀ l ∈ lines, ∃ addr, inet_pton (cstr l.ip) = some addr

/-- The handlers keep items that can be served in the cache, and have copies of what they found. -/
def refDiscipline : Discipline RefServer Op Env where
  inv s := ∀ e ∈ s.entries, Keyed e.key e.value
  le s s' := s.found <+: s'.found
  ok := RefOp (standard fun _ pos cur => pos = cur)
  mayFail := False
  refl s := List.prefix_refl s.found
  trans h h' := h.trans h'

/-- Calls after others, which sent nothing and received nothing, and found the items. -/
structure Grows (cs cs' : List HandlerCall) (its : List Item) : Prop where
  sent : cs'.flatMap HandlerCall.sent = cs.flatMap HandlerCall.sent
  received : cs'.flatMap HandlerCall.received = cs.flatMap HandlerCall.received
  got : cs'.flatMap HandlerCall.got = cs.flatMap HandlerCall.got ++ its
  clock : cs.flatMap HandlerCall.clock ⊆ cs'.flatMap HandlerCall.clock

variable {cs cs' cs'' : List HandlerCall} {its its' : List Item}

theorem Grows.refl (cs : List HandlerCall) : Grows cs cs [] :=
  ⟨rfl, rfl, (List.append_nil _).symm, fun _ h => h⟩

theorem Grows.trans (h : Grows cs cs' its) (h' : Grows cs' cs'' its') :
    Grows cs cs'' (its ++ its') :=
  ⟨h'.sent.trans h.sent, h'.received.trans h.received, by
    rw [h'.got, h.got, List.append_assoc], fun _ ht => h'.clock (h.clock ht)⟩

/-- One more call, which sent nothing and received nothing. -/
theorem Grows.snoc (cs : List HandlerCall) {c : HandlerCall} (hsent : c.sent = [])
    (hreceived : c.received = []) (hgot : c.got = its) : Grows cs (cs ++ [c]) its where
  sent := by simp [hsent]
  received := by simp [hreceived]
  got := by simp [hgot]
  clock := by simp

section

variable {fr : FileReader} {maxSize : ℕ} {s : RefServer}

/-- A program of the handler, on the reference cache, after some calls. -/
abbrev Runs (fr : FileReader) (maxSize : ℕ) {α : Type} (p : M α) (cs : List HandlerCall)
    (Q : α → List HandlerCall → RefServer → Prop) (s : RefServer) : Prop :=
  Logs (performRef fr maxSize) refDiscipline p cs Q s

/-! ## The operations -/

/-- An operation that is as in the server. -/
theorem runs_call {o : Op} (h : ∀ s e, refDiscipline.ok s o e → ∃ r server,
      performRef fr maxSize o e s = .ok (r, { s with server := server })) :
    Runs fr maxSize (call o) cs (fun r cs' _ => cs' = cs ++ [⟨o, r⟩]) s := by
  refine Logs.op o fun s₁ e _ hI hok => ?_
  obtain ⟨r, server, hperf⟩ := h s₁ e hok
  exact ⟨r, _, hperf, hI, List.prefix_refl _, fun _ _ _ => rfl⟩

/-- Such an operation, when it is none of those that count. -/
theorem runs_aside {o : Op} (h : ∀ s e, refDiscipline.ok s o e → ∃ r server,
      performRef fr maxSize o e s = .ok (r, { s with server := server }))
    (hgrows : ∀ r, Grows cs (cs ++ [⟨o, r⟩]) []) :
    Runs fr maxSize (call o) cs (fun _ cs' _ => Grows cs cs' []) s :=
  (runs_call h).weaken fun r _ _ _ hcs => hcs ▸ hgrows r

theorem runs_showRequest {q_type : UInt16} (h : q_type.toNat < TYPENAME_SIZE) :
    Runs fr maxSize (call (.showRequest q_type)) cs (fun _ cs' _ => Grows cs cs' []) s := by
  refine runs_aside (fun s₁ e _ => ⟨(), s₁.server, ?_⟩) fun _ => Grows.snoc cs rfl rfl rfl
  simp only [performRef, perform, if_pos (Or.inl h : q_type.toNat < TYPENAME_SIZE ∨ _)]
  rfl

theorem runs_time : Runs fr maxSize (call .time) cs
    (fun now cs' _ => Grows cs cs' [] ∧ now ∈ cs'.flatMap HandlerCall.clock) s := by
  refine (runs_call fun s₁ e _ => ⟨s₁.server.now, s₁.server, rfl⟩).weaken fun now cs' _ _ hcs => ?_
  subst hcs
  refine ⟨Grows.snoc cs rfl rfl rfl, ?_⟩
  rw [List.flatMap_append]
  exact List.mem_append_right _ (by simp [HandlerCall.clock])

/-- The key of a name and a type. -/
theorem runs_keyOf {name key : List UInt8} {type : UInt16} (h : calcKey name type = some key) :
    Runs fr maxSize (compute (keyOf name type)) cs (fun k cs' _ => k = key ∧ cs' = cs) s :=
  Logs.ofOk (by rw [keyOf, h]) fun _ _ _ => ⟨rfl, rfl⟩

/-- A string that has room for its terminator. -/
theorem runs_terminated {str : List UInt8} (h : str.length < STR_LEN) :
    Runs fr maxSize (compute (terminated str)) cs (fun str' cs' _ => str' = str ∧ cs' = cs) s :=
  Logs.ofOk (by rw [terminated, if_neg (Nat.not_le.mpr h)]) fun _ _ _ => ⟨rfl, rfl⟩

/-! ## Items -/

/-- What `getItem` finds is the item of the key. -/
theorem runs_getItem (hI : refDiscipline.inv s) {name key : List UInt8} {type : UInt16}
    (hkey : calcKey name type = some key) :
    Runs fr maxSize (getItem name type) cs (fun r cs' _ => Grows cs cs' r.toList ∧
      ∀ it, r = some it → Keyed key it) s := by
  refine (runs_keyOf hkey).bind hI fun k cs₁ s₁ _ hI₁ hk => ?_
  obtain ⟨rfl, rfl⟩ := hk
  -- The reference cache returns an entry, which stays among those that were found.
  have hlocked : Runs fr maxSize (call (.cacheGetLocked k)) cs₁ (fun r cs' s' => Grows cs₁ cs' [] ∧
      ∀ lkn, r = some lkn → ∃ it, s'.found[lkn]? = some it ∧ Keyed k it) s₁ := by
    refine Logs.op _ fun s₂ e _ hI₂ _ => ?_
    obtain ⟨hsub, hvalue⟩ := Lru.get_cases k s₂.server.now s₂.entries
    have hgrows : ∀ {r : Option ℕ}, Grows cs₁ (cs₁ ++ [⟨.cacheGetLocked k, r⟩]) [] :=
      Grows.snoc cs₁ rfl rfl rfl
    cases hget : Lru.get k s₂.server.now s₂.entries with
    | mk v es =>
      rw [hget] at hsub hvalue
      cases v with
      | none =>
        refine ⟨none, { s₂ with entries := es }, by simp only [performRef, hget],
          fun e he => hI₂ e (hsub e he), List.prefix_refl _, fun _ _ _ => ⟨hgrows, fun lkn h => ?_⟩⟩
        cases h
      | some it =>
        obtain ⟨e, he, rfl, rfl⟩ := hvalue it rfl
        refine ⟨some s₂.found.length, { s₂ with entries := es, found := s₂.found ++ [e.value] },
          by simp only [performRef, hget], fun e he => hI₂ e (hsub e he), List.prefix_append _ _,
          fun s₃ hle₃ _ => ⟨hgrows, fun lkn h => ⟨e.value, ?_, hI₂ e he⟩⟩⟩
        obtain rfl := Option.some.inj h
        obtain ⟨t, ht⟩ : s₂.found ++ [e.value] <+: s₃.found := hle₃
        rw [← ht]
        simp
  refine hlocked.bind hI₁ fun r cs₂ s₂ _ hI₂ hr => ?_
  obtain ⟨hgrows, hfound⟩ := hr
  cases r with
  | none => exact Logs.pure fun _ _ _ => ⟨hgrows, fun it h => by cases h⟩
  | some lkn =>
    obtain ⟨it, hit, hkeyed⟩ := hfound lkn rfl
    have hcopy : Runs fr maxSize (call (.cacheGetCopy lkn)) cs₂
        (fun r cs' _ => r = it ∧ Grows cs₂ cs' [it]) s₂ := by
      refine Logs.op _ fun s₃ e hle₃ hI₃ _ => ?_
      have hit₃ : s₃.found[lkn]? = some it := by
        obtain ⟨t, ht⟩ := hle₃
        rw [← ht, List.getElem?_append_left (List.getElem?_eq_some_iff.mp hit).1]
        exact hit
      exact ⟨it, s₃, by simp only [performRef, hit₃], hI₃, List.prefix_refl _,
        fun _ _ _ => ⟨rfl, Grows.snoc cs₂ rfl rfl rfl⟩⟩
    refine hcopy.bind hI₂ fun r cs₃ s₃ _ _ hr => ?_
    obtain ⟨rfl, hgrows'⟩ := hr
    refine Logs.pure fun _ _ _ => ⟨hgrows.trans hgrows', fun it' h => ?_⟩
    obtain rfl := Option.some.inj h
    exact hkeyed

/-- `putItem` keeps an item that can be served under its own type. -/
theorem runs_putItem (hI : refDiscipline.inv s) {type : UInt16} {it : Item}
    (h : it.type ≠ 0 → it.Sound ∧ it.type.toUInt16 = type) :
    Runs fr maxSize (putItem type it) cs (fun _ cs' _ => Grows cs cs' []) s := by
  unfold putItem
  by_cases hzero : it.type = 0
  · rw [if_pos hzero]
    exact Logs.pure fun _ _ _ => Grows.refl cs
  obtain ⟨hsound, rfl⟩ := h hzero
  rw [if_neg hzero]
  have hlen : it.name.length < STR_LEN := hsound.name.length_le.trans_lt (by decide)
  -- It has a type that is cached, so it has a key.
  obtain ⟨key, hkey⟩ : ∃ key, calcKey it.name it.type.toUInt16 = some key := by
    rcases hsound.cached with h | h | h <;> rw [h] <;> exact ⟨_, rfl⟩
  refine (runs_terminated hlen).bind hI fun name cs₁ s₁ _ hI₁ h₁ => ?_
  obtain ⟨rfl, rfl⟩ := h₁
  refine (runs_keyOf hkey).bind hI₁ fun k cs₂ s₂ _ hI₂ h₂ => ?_
  obtain ⟨rfl, rfl⟩ := h₂
  refine runs_time.bind hI₂ fun now cs₃ s₃ _ _ h₃ => ?_
  refine Logs.op _ fun s₄ e _ hI₄ _ => ⟨(), _, rfl, fun e he => ?_, List.prefix_refl _, fun _ _ _ => ?_⟩
  · rcases Lru.mem_of_mem_put he with rfl | he
    · exact ⟨hsound, hkey⟩
    · exact hI₄ e he
  · exact h₃.1.trans (Grows.snoc cs₃ rfl rfl rfl)

/-- The reply to which `answerItem` adds an item. -/
theorem runs_answerItem (hI : refDiscipline.inv s) (msg : Message) {it : Item}
    (hlen : it.name.length < STR_LEN) :
    Runs fr maxSize (answerItem msg it) cs (fun m cs' _ => Grows cs cs' [] ∧
      ∃ now ∈ cs'.flatMap HandlerCall.clock, m = Item2Msg msg it it.name now) s := by
  refine (runs_terminated hlen).bind hI fun name cs₁ s₁ _ hI₁ h₁ => ?_
  obtain ⟨rfl, rfl⟩ := h₁
  refine runs_time.bind hI₁ fun now cs₂ s₂ _ _ h₂ => ?_
  exact Logs.pure fun _ _ _ => ⟨h₂.1, now, h₂.2, rfl⟩

/-- The item to which `storeRR` adds a record. -/
theorem runs_storeRR (hI : refDiscipline.inv s) {it : Item} {rr : RR} (hroom : it.num < MAX_NUM)
    (hdata : rr.type.toUInt8.toUInt16 = A → 4 ≤ rr.data.length) :
    Runs fr maxSize (storeRR it rr) cs (fun it' cs' _ => Grows cs cs' [] ∧
      ∃ now, addRR2Item it rr now = .ok it') s := by
  refine runs_time.bind hI fun now cs₁ s₁ _ _ h₁ => ?_
  have hadd : ∃ it', addRR2Item it rr now = .ok it' := by
    simp only [addRR2Item, ge_iff_le, if_neg (Nat.not_le.mpr hroom)]
    split_ifs with hA hshort
    · exact absurd hshort (Nat.not_lt.mpr (hdata hA))
    · exact ⟨_, rfl⟩
    · exact ⟨_, rfl⟩
  obtain ⟨it', hit'⟩ := hadd
  exact Logs.ofOk hit' fun _ _ _ => ⟨h₁.1, now, hit'⟩

/-! ## Replies -/

variable {lines : List Line} {parg : Arg} {m : Message} {n : ℕ} {q : Question}

/-- What was replied stays so, when nothing more is sent. -/
theorem Replied.grows (h : Replied lines parg cs) (hgrows : Grows cs cs' []) :
    Replied lines parg cs' := by
  obtain ⟨m, n, q, reply, hdecode, hques, hsent, hreply⟩ := h
  have hgot := hgrows.got
  rw [List.append_nil] at hgot
  refine ⟨m, n, q, reply, hdecode, hques, hgrows.sent.trans hsent, ?_⟩
  cases reply with
  | forwarded bytes =>
    rw [Matching, hgrows.received, hgot]
    exact hreply
  | built msg bytes =>
    obtain ⟨hreceived, served, hserved, hclock, hread⟩ := hreply
    rw [Matching, hgrows.received, hgot]
    exact ⟨hreceived, served, hserved, fun p hp => hgrows.clock (hclock p hp), hread⟩

/-- The reply of the items that are served is sent. -/
theorem runs_reply (hdecode : decode (parg.buff.bytes ++ parg.buff.rest) = .ok (m, n))
    (hm : Standard m q) (hgrows : Grows [] cs its) (hsound : ∀ it ∈ its, it.Sound)
    (served : List (Item × ℤ)) (hserved : Served lines q its (served.map (·.1)))
    (hclock : ∀ p ∈ served, p.2 ∈ cs.flatMap HandlerCall.clock) {msg : Message}
    (hmsg : msg = servedReply (begunReply m) served) :
    Runs fr maxSize (reply parg msg) cs (fun _ cs' _ => Replied lines parg cs') s := by
  subst hmsg
  obtain ⟨bytes, hencode, hfits, hread⟩ := exists_reply (decode_counted hdecode) hm hsound hserved
  have hgot : cs.flatMap HandlerCall.got = its := hgrows.got
  rw [reply_of_encode hencode hfits]
  refine (runs_call fun s₁ e _ => ⟨(), _, rfl⟩).weaken fun _ cs' _ _ hcs => ?_
  -- It is the one datagram that was sent; nothing else was noted.
  subst hcs
  refine ⟨m, n, q, .built (servedReply (begunReply m) served) bytes, hdecode, hm.ques, ?_, ?_, served, ?_,
    fun p hp => ?_, hread⟩
  · rw [List.flatMap_append, hgrows.sent]
    rfl
  · rw [List.flatMap_append, hgrows.received]
    rfl
  · rw [List.flatMap_append, hgot]
    simpa [HandlerCall.got] using hserved
  · rw [List.flatMap_append]
    exact List.mem_append_left _ (hclock p hp)

/-! ## The parts of the handler -/

/-- The records of a type in a standard response make an item that can be served. -/
theorem Filled.sound {type : UInt16} {now : ℤ} {d : Received} {it : Item}
    (h : Filled type now (d.answers.filter (·.type = type)) it) (hd : StandardResponse d)
    (hcached : Cached type) (hne : it.type ≠ 0) : it.Sound := by
  obtain ⟨hvalues, htype, rr, hlast, hname, -⟩ := h.values_eq hne
  have hmem : ∀ {rr}, rr ∈ d.answers.filter (·.type = type) → rr ∈ d.answers ∧ rr.type = type := by
    intro rr hrr
    obtain ⟨hrr, htype⟩ := List.mem_filter.mp hrr
    exact ⟨hrr, of_decide_eq_true htype⟩
  -- The item has the name of the last record of its type.
  have hlast' := hmem (List.mem_of_getLast? hlast)
  have hname' : Named rr.name := hd.name rr hlast'.1
  rw [strncpy_of_length_le (hname'.length_le.trans (by decide))] at hname
  refine ⟨htype ▸ hcached, hname ▸ hname', ?_, ?_, ?_⟩
  · rw [hvalues]
    intro hnil
    rw [List.map_eq_nil_iff.mp hnil] at hlast
    cases hlast
  · rw [hvalues, List.length_map]
    exact hd.few type hcached
  · intro v hv
    rw [hvalues] at hv
    obtain ⟨r, hr, rfl⟩ := List.mem_map.mp hv
    obtain ⟨hr, hrtype⟩ := hmem hr
    rw [htype, kept]
    split_ifs with hA
    · rw [List.length_take, hd.data r hr (hrtype.trans hA)]
      rfl
    · have htarget : Named r.string_data :=
        hd.target r hr (hrtype ▸ hcached.resolve_left hA)
      rw [strncpy_of_length_le (htarget.length_le.trans (by decide))]
      exact htarget

/-- The value that an alias is read from is the first of its item. -/
theorem Item.Sound.head?_values {it : Item} (h : it.Sound) (hne : it.type.toUInt16 ≠ A) :
    it.values.head? = some (it.strVal.headD []) := by
  have hvalues : it.values = it.strVal.take it.num := if_neg hne
  have hnil := h.values_ne
  rw [hvalues] at hnil ⊢
  cases hstr : it.strVal with
  | nil => simp [hstr] at hnil
  | cons v l =>
    cases hnum : it.num with
    | zero => simp [hnum] at hnil
    | succ k => rfl

/-- The handler has replied, or the cache had nothing to serve for the question. -/
def AfterCache (lines : List Line) (parg : Arg) (q : Question) (replied : Bool)
    (cs : List HandlerCall) : Prop :=
  if replied then Replied lines parg cs
  else ∃ its, Grows [] cs its ∧ (∀ it ∈ its, it.Sound) ∧ Missed q its

/-- The replies from the cache match. -/
theorem runs_replyFromCache (hI : refDiscipline.inv s)
    (hdecode : decode (parg.buff.bytes ++ parg.buff.rest) = .ok (m, n)) (hm : Standard m q)
    (hgrows : Grows [] cs []) :
    Runs fr maxSize (replyFromCache parg (begunReply m) q.q_name q.q_type) cs
      (fun replied cs' _ => AfterCache lines parg q replied cs') s := by
  have hlen : q.q_name.length < STR_LEN := hm.name.length_le.trans_lt (by decide)
  have hnothing : ∀ {cs'}, Grows [] cs' [] → AfterCache lines parg q false cs' := fun h =>
    ⟨[], h, fun it hit => absurd hit List.not_mem_nil, Or.inl rfl⟩
  unfold replyFromCache
  split
  swap
  · exact Logs.pure fun _ _ _ => hnothing hgrows
  rename_i hcached
  refine (runs_terminated hlen).bind hI fun name cs₁ s₁ _ hI₁ h₁ => ?_
  obtain ⟨rfl, rfl⟩ := h₁
  obtain ⟨key, hkey⟩ : ∃ key, calcKey q.q_name q.q_type = some key := by
    rcases hcached with h | h | h <;> rw [h] <;> exact ⟨_, rfl⟩
  refine (runs_getItem hI₁ hkey).bind hI₁ fun r cs₂ s₂ _ hI₂ h₂ => ?_
  obtain ⟨hgrows₂, hfound⟩ := h₂
  have hgrows' := hgrows.trans hgrows₂
  cases r with
  | some it =>
    obtain ⟨hsound, hkey'⟩ := hfound it rfl
    obtain ⟨hname, htype⟩ := calcKey_inj hsound.cached hcached hkey' hkey
    have hit : it.name.length < STR_LEN := hsound.name.length_le.trans_lt (by decide)
    refine (runs_answerItem hI₂ (begunReply m) hit).bind hI₂ fun msg cs₃ s₃ _ hI₃ h₃ => ?_
    obtain ⟨hgrows₃, now, hnow, rfl⟩ := h₃
    have hgrows₄ : Grows [] cs₃ [it] := hgrows'.trans hgrows₃
    have hserved : Served lines q [it] [it] := .hit rfl hname htype
    refine (runs_reply hdecode hm hgrows₄ (by simpa using hsound) [(it, now)] hserved
      (by simpa using hnow) rfl).bind hI₃ fun _ cs₄ s₄ _ _ h₄ => ?_
    exact Logs.pure fun _ _ _ => h₄
  | none =>
    have hempty : Grows [] cs₂ [] := hgrows'
    dsimp only
    split
    swap
    · exact Logs.pure fun _ _ _ => hnothing hempty
    rename_i hA
    -- The alias of the name, and the addresses of its target.
    obtain ⟨key', hkey'⟩ : ∃ key, calcKey q.q_name CNAME = some key := ⟨_, rfl⟩
    refine (runs_getItem hI₂ hkey').bind hI₂ fun r cs₃ s₃ _ hI₃ h₃ => ?_
    obtain ⟨hgrows₃, hfound'⟩ := h₃
    cases r with
    | none => exact Logs.pure fun _ _ _ => hnothing (hempty.trans hgrows₃)
    | some it =>
      obtain ⟨hsound, hitkey⟩ := hfound' it rfl
      obtain ⟨hname, htype⟩ := calcKey_inj hsound.cached (Or.inr (Or.inr rfl)) hitkey hkey'
      have hgrowsIt : Grows [] cs₃ [it] := hempty.trans hgrows₃
      have htarget := hsound.head?_values (by rw [htype]; decide)
      obtain ⟨key'', hkey''⟩ : ∃ key, calcKey (it.strVal.headD []) A = some key := ⟨_, rfl⟩
      refine (runs_getItem hI₃ hkey'').bind hI₃ fun r cs₄ s₄ _ hI₄ h₄ => ?_
      obtain ⟨hgrows₄, hfound''⟩ := h₄
      cases r with
      | none =>
        exact Logs.pure fun _ _ _ => ⟨[it], hgrowsIt.trans hgrows₄, by simpa using hsound,
          Or.inr ⟨hA, it, rfl, hname, htype⟩⟩
      | some tit =>
        obtain ⟨hsound', htitkey⟩ := hfound'' tit rfl
        obtain ⟨hname', htype'⟩ := calcKey_inj hsound'.cached (Or.inl rfl) htitkey hkey''
        have hit : it.name.length < STR_LEN := hsound.name.length_le.trans_lt (by decide)
        have htit : tit.name.length < STR_LEN := hsound'.name.length_le.trans_lt (by decide)
        refine (runs_answerItem hI₄ (begunReply m) hit).bind hI₄ fun msg cs₅ s₅ _ hI₅ h₅ => ?_
        obtain ⟨hgrows₅, now, hnow, rfl⟩ := h₅
        refine (runs_answerItem hI₅ _ htit).bind hI₅ fun msg cs₆ s₆ _ hI₆ h₆ => ?_
        obtain ⟨hgrows₆, now', hnow', rfl⟩ := h₆
        have hgrowsAll : Grows [] cs₆ [it, tit] :=
          (hgrowsIt.trans hgrows₄).trans (hgrows₅.trans hgrows₆)
        have hserved : Served lines q [it, tit] [it, tit] :=
          .aliasHit rfl hA hname htype (by rw [htarget, hname']) htype'
        refine (runs_reply hdecode hm hgrowsAll (by simpa using ⟨hsound, hsound'⟩)
          [(it, now), (tit, now')] hserved (fun p hp => ?_) rfl).bind hI₆ fun _ cs₇ s₇ _ _ h₇ => ?_
        · rcases List.mem_cons.mp hp with rfl | hp
          · exact hgrows₆.clock hnow
          · obtain rfl := List.mem_singleton.mp hp
            exact hnow'
        exact Logs.pure fun _ _ _ => h₇

/-- A lookup in the local file returns the address that is listed. -/
theorem runs_getRecord (hI : refDiscipline.inv s) (hfile : LocalFile fr lines) {domain : List UInt8}
    (hs : Short domain) :
    Runs fr maxSize (getRecord fr domain) cs (fun r cs' _ => Grows cs cs' [] ∧
      r = (listed lines domain).map cstr) s := by
  have hsearch := HashTab.search_of_placed hfile.indexes.len_pos hfile.indexes.indexed.placed hs
  rcases hfile.indexes.found domain hs with ⟨hnone, hlisted⟩ | ⟨cur, ip, hcur, hreads, hlisted⟩
  · have hfind : Runs fr maxSize (compute (file_reader_find fr domain)) cs
        (fun r cs' _ => r = none ∧ cs' = cs) s :=
      Logs.ofOk (hsearch.trans (by rw [hnone])) fun _ _ _ => ⟨rfl, rfl⟩
    refine hfind.bind hI fun r cs₁ s₁ _ _ h₁ => ?_
    obtain ⟨rfl, rfl⟩ := h₁
    exact Logs.pure fun _ _ _ => ⟨Grows.refl _, by rw [hlisted]; rfl⟩
  · have hfind : Runs fr maxSize (compute (file_reader_find fr domain)) cs
        (fun r cs' _ => r = some cur ∧ cs' = cs) s :=
      Logs.ofOk (hsearch.trans (by rw [hcur])) fun _ _ _ => ⟨rfl, rfl⟩
    refine hfind.bind hI fun r cs₁ s₁ _ hI₁ h₁ => ?_
    obtain ⟨rfl, rfl⟩ := h₁
    have hseek : Runs fr maxSize (call (.fseek cur)) cs₁ (fun _ cs' _ => Grows cs₁ cs' []) s₁ :=
      runs_aside (fun s₂ e _ => ⟨(), _, rfl⟩) fun _ => Grows.snoc cs₁ rfl rfl rfl
    refine hseek.bind hI₁ fun _ cs₂ s₂ _ hI₂ h₂ => ?_
    obtain ⟨l, hl, -, hip⟩ := exists_of_listed hlisted
    -- An address of a well-formed line fits the array that it is read into.
    have hfits : ip.length < HANDLER_IP_SIZE :=
      hip ▸ (hfile.wellFormed l hl).ip_lt.trans (by decide)
    have hscan : Runs fr maxSize (call (.fscanf domain cur)) cs₂
        (fun r cs' _ => r = some ip ∧ Grows cs₂ cs' []) s₂ := by
      refine Logs.op _ fun s₃ e _ hI₃ hok => ?_
      have hpos : s₃.server.pos = cur := hok.1
      obtain ⟨pos, hread⟩ := file_reader_scan_spec hreads hfits
      refine ⟨some ip, { s₃ with server := { s₃.server with pos := pos } }, ?_, hI₃,
        List.prefix_refl _, fun _ _ _ => ⟨rfl, Grows.snoc cs₂ rfl rfl rfl⟩⟩
      simp only [performRef, perform, hpos, hread, Run.ok_bind]
      rfl
    refine hscan.bind hI₂ fun r cs₃ s₃ _ _ h₃ => ?_
    obtain ⟨rfl, hgrows⟩ := h₃
    exact Logs.pure fun _ _ _ => ⟨h₂.trans hgrows, by rw [hlisted]; rfl⟩

/-- The handler has replied, or neither the cache nor the local file had something to serve. -/
def AfterFile (lines : List Line) (parg : Arg) (q : Question) (replied : Bool)
    (cs : List HandlerCall) : Prop :=
  if replied then Replied lines parg cs
  else ∃ its, Grows [] cs its ∧ (∀ it ∈ its, it.Sound) ∧ Served lines q its []

/-- The replies from the local file match. -/
theorem runs_replyFromFile (hI : refDiscipline.inv s) (hfile : LocalFile fr lines)
    (hdecode : decode (parg.buff.bytes ++ parg.buff.rest) = .ok (m, n)) (hm : Standard m q)
    (hgrows : Grows [] cs its) (hsound : ∀ it ∈ its, it.Sound) (hmissed : Missed q its) :
    Runs fr maxSize (replyFromFile fr parg (begunReply m) q.q_name q.q_type) cs
      (fun replied cs' _ => AfterFile lines parg q replied cs') s := by
  have hlen : q.q_name.length < STR_LEN := hm.name.length_le.trans_lt (by decide)
  unfold replyFromFile
  split
  swap
  · rename_i hA
    exact Logs.pure fun _ _ _ => ⟨its, hgrows, hsound, .failure hmissed fun h => absurd h hA⟩
  rename_i hA
  refine (runs_terminated hlen).bind hI fun name cs₁ s₁ _ hI₁ h₁ => ?_
  obtain ⟨rfl, rfl⟩ := h₁
  refine (runs_getRecord hI₁ hfile hm.name.encodable.short).bind hI₁ fun r cs₂ s₂ _ hI₂ h₂ => ?_
  obtain ⟨hgrows₂, rfl⟩ := h₂
  have hgrows' : Grows [] cs₂ its := by simpa using hgrows.trans hgrows₂
  cases hlisted : listed lines q.q_name with
  | none => exact Logs.pure fun _ _ _ => ⟨its, hgrows', hsound, .failure hmissed fun _ => hlisted⟩
  | some ip =>
    obtain ⟨l, hl, -, rfl⟩ := exists_of_listed hlisted
    obtain ⟨addr, haddr⟩ := hfile.dotted l hl
    have hfour : addr.length = 4 := length_of_inet_pton haddr
    simp only [Option.map_some, haddr]
    have hstore := @runs_storeRR cs₂ fr maxSize s₂ hI₂ zeroItem (fileRR q.q_name addr) (by decide)
      fun _ => hfour.ge
    refine hstore.bind hI₂ fun tmp cs₃ s₃ _ hI₃ h₃ => ?_
    obtain ⟨hgrows₃, now, htmp⟩ := h₃
    obtain ⟨hvalues, htmpname, htmptype⟩ := values_of_fileRR hlen hfour htmp
    -- The item is made, cached and served, in this order.
    have hgives : tmp.Gives q.q_name addr := ⟨htmpname, htmptype, hvalues⟩
    have htmpsound : tmp.Sound := hgives.sound hm.name hfour
    refine (runs_putItem hI₃ fun _ => ⟨htmpsound, htmptype⟩).bind hI₃ fun _ cs₄ s₄ _ hI₄ h₄ => ?_
    have htmplen : tmp.name.length < STR_LEN := htmpname ▸ hlen
    refine (runs_answerItem hI₄ (begunReply m) htmplen).bind hI₄ fun msg cs₅ s₅ _ hI₅ h₅ => ?_
    obtain ⟨hgrows₅, now', hnow', rfl⟩ := h₅
    have hgrowsAll : Grows [] cs₅ its := by
      simpa using hgrows'.trans (hgrows₃.trans (h₄.trans hgrows₅))
    have hserved : Served lines q its [tmp] := .file hmissed hA hlisted haddr hgives
    refine (runs_reply hdecode hm hgrowsAll hsound [(tmp, now')] hserved (by simpa using hnow')
      rfl).bind hI₅ fun _ cs₆ s₆ _ _ h₆ => ?_
    exact Logs.pure fun _ _ _ => h₆

/-- The items have the records of each type that is cached. -/
structure Gathered (rrs : List RR) (items : Items) : Prop where
  Ait : ∃ now, Filled A now (rrs.filter (·.type = A)) items.Ait
  Nit : ∃ now, Filled NS now (rrs.filter (·.type = NS)) items.Nit
  Cit : ∃ now, Filled CNAME now (rrs.filter (·.type = CNAME)) items.Cit

/-- The loop over the answer section of a standard response puts every record into the item of its
type. -/
theorem runs_collect (hI : refDiscipline.inv s) {d : Received} (hd : StandardResponse d)
    {before rrs : List RR} (hall : before ++ rrs = d.answers) {items : Items}
    (h : Gathered before items) :
    Runs fr maxSize (collect rrs items) cs (fun items' cs' _ => Grows cs cs' [] ∧
      Gathered d.answers items') s := by
  induction rrs generalizing before items cs s with
  | nil =>
    rw [List.append_nil] at hall
    exact Logs.pure fun _ _ _ => ⟨Grows.refl cs, hall ▸ h⟩
  | cons rr rrs ih =>
    rw [List.append_cons] at hall
    have hrr : rr ∈ d.answers := hall ▸ (by simp)
    -- There is room for one more record of the type.
    have hroom : ∀ {type now it}, Cached type → rr.type = type →
        Filled type now (before.filter (·.type = type)) it → it.num < MAX_NUM := by
      intro type now it hcached htype hfilled
      have hfew := hd.few type hcached
      rw [← hall, List.filter_append, List.filter_append, List.length_append, List.length_append,
        List.filter_cons_of_pos (by simpa using htype), List.length_cons] at hfew
      rw [hfilled.num]
      omega
    have hdata : rr.type.toUInt8.toUInt16 = A → Cached rr.type → 4 ≤ rr.data.length := by
      intro hA hcached
      rw [toUInt8_toUInt16_of_cached hcached] at hA
      exact (hd.data rr hrr hA).ge
    obtain ⟨⟨n₁, f₁⟩, ⟨n₂, f₂⟩, ⟨n₃, f₃⟩⟩ := h
    unfold collect
    split_ifs with hA hNS hCNAME
    · have hcached : Cached rr.type := Or.inl hA
      refine (runs_storeRR hI (hroom (Or.inl rfl) hA f₁) fun h => hdata h hcached).bind hI
        fun it cs₁ s₁ _ hI₁ h₁ => ?_
      obtain ⟨hgrows, now, hit⟩ := h₁
      refine Logs.weaken (ih hI₁ hall ⟨⟨now, filled_concat_of_eq (Or.inl rfl) hA f₁ hit⟩,
        ⟨n₂, filled_concat_of_ne (by rw [hA]; decide) f₂⟩,
        ⟨n₃, filled_concat_of_ne (by rw [hA]; decide) f₃⟩⟩) fun _ _ _ _ h₂ => ?_
      exact ⟨hgrows.trans h₂.1, h₂.2⟩
    · have hcached : Cached rr.type := Or.inr (Or.inl hNS)
      refine (runs_storeRR hI (hroom (Or.inr (Or.inl rfl)) hNS f₂) fun h => hdata h hcached).bind hI
        fun it cs₁ s₁ _ hI₁ h₁ => ?_
      obtain ⟨hgrows, now, hit⟩ := h₁
      refine Logs.weaken (ih hI₁ hall ⟨⟨n₁, filled_concat_of_ne hA f₁⟩,
        ⟨now, filled_concat_of_eq (Or.inr (Or.inl rfl)) hNS f₂ hit⟩,
        ⟨n₃, filled_concat_of_ne (by rw [hNS]; decide) f₃⟩⟩) fun _ _ _ _ h₂ => ?_
      exact ⟨hgrows.trans h₂.1, h₂.2⟩
    · have hcached : Cached rr.type := Or.inr (Or.inr hCNAME)
      refine (runs_storeRR hI (hroom (Or.inr (Or.inr rfl)) hCNAME f₃) fun h => hdata h hcached).bind
        hI fun it cs₁ s₁ _ hI₁ h₁ => ?_
      obtain ⟨hgrows, now, hit⟩ := h₁
      refine Logs.weaken (ih hI₁ hall ⟨⟨n₁, filled_concat_of_ne hA f₁⟩,
        ⟨n₂, filled_concat_of_ne hNS f₂⟩,
        ⟨now, filled_concat_of_eq (Or.inr (Or.inr rfl)) hCNAME f₃ hit⟩⟩) fun _ _ _ _ h₂ => ?_
      exact ⟨hgrows.trans h₂.1, h₂.2⟩
    · exact ih hI hall ⟨⟨n₁, filled_concat_of_ne hA f₁⟩, ⟨n₂, filled_concat_of_ne hNS f₂⟩,
        ⟨n₃, filled_concat_of_ne hCNAME f₃⟩⟩

/-- What `recvfrom` returns is a standard response. -/
theorem runs_recvfrom : Runs fr maxSize (call .recvfrom) cs (fun r cs' _ =>
    cs' = cs ++ [⟨.recvfrom, r⟩] ∧ ∀ d, r = some d → StandardResponse d) s := by
  refine Logs.op _ fun s₁ e _ hI hok => ?_
  have hresponse : ∀ d, e.response = some d → StandardResponse d := hok.1
  cases hr : e.response with
  | none =>
    refine ⟨none, s₁, ?_, hI, List.prefix_refl _, fun _ _ _ => ⟨rfl, fun d hd => by cases hd⟩⟩
    simp only [performRef, perform, hr]
    rfl
  | some d =>
    refine ⟨some d, { s₁ with
      server := { s₁.server with received := ⟨s₁.server.now, d⟩ :: s₁.server.received } },
      ?_, hI, List.prefix_refl _, fun _ _ _ => ⟨rfl, fun d' hd => ?_⟩⟩
    · simp only [performRef, perform, hr]
      rfl
    · obtain rfl := Option.some.inj hd
      exact hresponse d hr

/-- The one response that was received is forwarded as the one reply, when nothing else is served. -/
theorem runs_forward (hdecode : decode (parg.buff.bytes ++ parg.buff.rest) = .ok (m, n))
    (hm : Standard m q) {d : Received} (hsent : cs.flatMap HandlerCall.sent = [])
    (hreceived : cs.flatMap HandlerCall.received = [d])
    (hserved : Served lines q (cs.flatMap HandlerCall.got) []) :
    Runs fr maxSize (call (.sendto parg (.forwarded d.bytes))) cs
      (fun _ cs' _ => Replied lines parg cs') s := by
  refine (runs_call fun s₁ e _ => ⟨(), _, rfl⟩).weaken fun _ _ _ _ hcs => ?_
  subst hcs
  refine ⟨m, n, q, .forwarded d.bytes, hdecode, hm.ques, ?_, d, ?_, rfl, ?_⟩
  · rw [List.flatMap_append, hsent]
    rfl
  · rw [List.flatMap_append, hreceived]
    rfl
  · rw [List.flatMap_append]
    simpa [HandlerCall.got] using hserved

/-- Caching the records of a standard response sends and receives nothing. -/
theorem runs_cacheRecords (hI : refDiscipline.inv s) {d : Received} (hd : StandardResponse d) :
    Runs fr maxSize (cacheRecords d) cs (fun _ cs' _ => Grows cs cs' []) s := by
  obtain ⟨msg, k, hread⟩ := hd.decodes
  have hparse : Runs fr maxSize (compute (decode (d.bytes ++ d.rest))) cs
      (fun r cs' _ => r = (msg, k) ∧ cs' = cs) s :=
    Logs.ofOk hread fun _ _ _ => ⟨rfl, rfl⟩
  refine hparse.bind hI fun r cs₁ s₁ _ hI₁ h₁ => ?_
  obtain ⟨rfl, rfl⟩ := h₁
  have hempty : Gathered [] ⟨zeroItem, zeroItem, zeroItem⟩ :=
    ⟨⟨0, filled_zeroItem⟩, ⟨0, filled_zeroItem⟩, ⟨0, filled_zeroItem⟩⟩
  have hall : [] ++ msg.resourse_record.ANSWER = d.answers := (answers_of_decode hread).symm
  refine (runs_collect hI₁ hd hall hempty).bind hI₁ fun items cs₂ s₂ _ hI₂ h₂ => ?_
  obtain ⟨h₂, ⟨n₁, f₁⟩, ⟨n₂, f₂⟩, ⟨n₃, f₃⟩⟩ := h₂
  refine (runs_putItem hI₂ fun hne => ⟨f₁.sound hd (Or.inl rfl) hne, rfl⟩).bind hI₂
    fun _ cs₃ s₃ _ hI₃ h₃ => ?_
  refine (runs_putItem hI₃ fun hne => ⟨f₂.sound hd (Or.inr (Or.inl rfl)) hne, rfl⟩).bind hI₃
    fun _ cs₄ s₄ _ hI₄ h₄ => ?_
  exact (runs_putItem hI₄ fun hne => ⟨f₃.sound hd (Or.inr (Or.inr rfl)) hne, rfl⟩).weaken
    fun _ cs' _ _ h' => ((h₂.trans h₃).trans h₄).trans h'

/-- When the server is asked, its response is forwarded, or the client gets a failure. -/
theorem runs_relay (hI : refDiscipline.inv s)
    (hdecode : decode (parg.buff.bytes ++ parg.buff.rest) = .ok (m, n)) (hm : Standard m q)
    (hgrows : Grows [] cs its) (hsound : ∀ it ∈ its, it.Sound) (hserved : Served lines q its []) :
    Runs fr maxSize (relay parg (begunReply m) q.q_type) cs
      (fun _ cs' _ => Replied lines parg cs') s := by
  -- The reply of a failure, after calls that sent and received nothing.
  have hfailure : ∀ {cs' s'}, Grows cs cs' [] → Runs fr maxSize (replyFailure parg (begunReply m)) cs'
      (fun _ cs'' _ => Replied lines parg cs'') s' := fun h =>
    runs_reply hdecode hm (by simpa using hgrows.trans h) hsound [] hserved
      (fun p hp => absurd hp List.not_mem_nil) rfl
  have hopen : Runs fr maxSize (call .Socket) cs (fun _ cs' _ => Grows cs cs' []) s := by
    refine runs_aside (fun s₁ e hok =>
      ⟨(), { s₁.server with sockets := s₁.server.sockets + 1 }, ?_⟩) fun _ => Grows.snoc cs rfl rfl rfl
    simp only [performRef, perform, if_pos (hok.2 rfl)]
    rfl
  refine hopen.bind hI fun _ cs₁ s₁ _ hI₁ h₁ => ?_
  have hsend : Runs fr maxSize (call (.sendtoServer parg.buff.bytes)) cs₁
      (fun _ cs' _ => Grows cs₁ cs' []) s₁ :=
    runs_aside (fun s₂ e _ => ⟨e.sent, s₂.server, rfl⟩) fun _ => Grows.snoc cs₁ rfl rfl rfl
  refine hsend.bind hI₁ fun sent cs₂ s₂ _ hI₂ h₂ => ?_
  have h₁₂ : Grows cs cs₂ [] := h₁.trans h₂
  cases sent with
  | false =>
    exact (runs_showRequest hm.q_type).bind hI₂ fun _ cs₃ s₃ _ _ h₃ => hfailure (h₁₂.trans h₃)
  | true =>
    refine runs_recvfrom.bind hI₂ fun r cs₃ s₃ _ hI₃ h₃ => ?_
    obtain ⟨rfl, hresponse⟩ := h₃
    cases r with
    | none => exact hfailure (h₁₂.trans (Grows.snoc cs₂ rfl rfl rfl))
    | some d =>
      have hd := hresponse d rfl
      have hclose : Runs fr maxSize (call .close) (cs₂ ++ [⟨.recvfrom, some d⟩])
          (fun _ cs' _ => Grows (cs₂ ++ [⟨.recvfrom, some d⟩]) cs' []) s₃ :=
        runs_aside (fun s₄ e _ => ⟨(), _, rfl⟩) fun _ => Grows.snoc _ rfl rfl rfl
      refine hclose.bind hI₃ fun _ cs₄ s₄ _ hI₄ h₄ => ?_
      -- Since the start one response was received, and nothing was sent.
      have hgrows₂ : Grows [] cs₂ its := by simpa using hgrows.trans h₁₂
      have hsent : cs₄.flatMap HandlerCall.sent = [] := by
        rw [h₄.sent, List.flatMap_append, hgrows₂.sent]
        rfl
      have hreceived : cs₄.flatMap HandlerCall.received = [d] := by
        rw [h₄.received, List.flatMap_append, hgrows₂.received]
        rfl
      have hgot : cs₄.flatMap HandlerCall.got = its := by
        rw [h₄.got, List.flatMap_append, hgrows₂.got]
        simp [HandlerCall.got]
      refine (runs_forward hdecode hm hsent hreceived (hgot.symm ▸ hserved)).bind hI₄
        fun _ cs₅ s₅ _ hI₅ h₅ => ?_
      -- What comes after the reply sends nothing more.
      exact (runs_cacheRecords hI₅ hd).weaken fun _ cs' _ _ h' => h₅.grows h'

/-- The handler replies to a standard query once, with a reply that matches. -/
theorem runs_handler (hfile : LocalFile fr lines) (hI : refDiscipline.inv s)
    (hquery : StandardQuery parg) :
    Runs fr maxSize (handler fr parg) [] (fun _ cs' _ => Replied lines parg cs') s := by
  obtain ⟨m, n, q, hdecode, hm⟩ := hquery
  have hrequest : Runs fr maxSize (compute (request (parg.buff.bytes ++ parg.buff.rest))) []
      (fun r cs' _ => r = (begunReply m, q) ∧ cs' = []) s :=
    Logs.ofOk (asks_of_standard hdecode hm) fun _ _ _ => ⟨rfl, rfl⟩
  refine hrequest.bind hI fun r cs₁ s₁ _ hI₁ h₁ => ?_
  obtain ⟨rfl, rfl⟩ := h₁
  refine (runs_showRequest hm.q_type).bind hI₁ fun _ cs₂ s₂ _ hI₂ h₂ => ?_
  have hcopy : strncpy q.q_name STR_LEN = q.q_name :=
    strncpy_of_length_le (hm.name.length_le.trans (by decide))
  simp only [hcopy]
  -- Each part comes after those that had nothing to serve.
  have hcache : Runs fr maxSize (replyFromCache parg (begunReply m) q.q_name q.q_type) cs₂
      (fun replied cs' _ => AfterCache lines parg q replied cs') s₂ :=
    runs_replyFromCache hI₂ hdecode hm h₂
  refine hcache.bind hI₂ fun replied cs₃ s₃ _ hI₃ h₃ => ?_
  cases replied with
  | true => exact Logs.pure fun _ _ _ => h₃
  | false =>
    obtain ⟨its, hgrows, hsound, hmissed⟩ := h₃
    refine (runs_replyFromFile hI₃ hfile hdecode hm hgrows hsound hmissed).bind hI₃
      fun replied cs₄ s₄ _ hI₄ h₄ => ?_
    cases replied with
    | true => exact Logs.pure fun _ _ _ => h₄
    | false =>
      obtain ⟨its', hgrows', hsound', hserved⟩ := h₄
      exact runs_relay hI₄ hdecode hm hgrows' hsound' hserved

end

/-! ## Runs -/

/-- The reader of a file of well-formed lines with dotted addresses. -/
theorem localFile_of_alloc {fd : List UInt8} {lines : List Line} {fr : FileReader}
    (hfile : FileText fd lines) (hdotted : ∀ l ∈ lines, ∃ addr, inet_pton (cstr l.ip) = some addr)
    (hfr : file_reader_alloc fd = .ok fr) : LocalFile fr lines := by
  obtain ⟨fr', hok, hfd, hindexes⟩ := file_reader_alloc_spec hfile
  obtain rfl := Except.ok.inj (hok.symm.trans hfr)
  exact ⟨hfd.symm ▸ hindexes, hfile.split.wellFormed, hdotted⟩

/-- A step of standard traffic in which a lookup finds the position where it left it does not fail, and
every handler goes on as it should. -/
theorem sound_refStep {ι : Type} [DecidableEq ι] {lines : List Line} {fr : FileReader}
    (hfile : LocalFile fr lines) {maxSize : ℕ} {s : RefWorkers ι}
    (h : s.Sound (Replied lines) HANDLER_CALLS (performRef fr maxSize) refDiscipline)
    {a : ServerAction ι} (ha : RefStep (standard fun _ pos cur => pos = cur) s a) :
    ∃ s', refStep fr maxSize s a = .ok s' ∧
      s'.Sound (Replied lines) HANDLER_CALLS (performRef fr maxSize) refDiscipline := by
  have hallows : s.pool.Allows refDiscipline StandardQuery (fun _ _ => True) a := by
    cases a with
    | start t parg => exact ha
    | run t e => exact ha
    | outside x => trivial
  have hchange : ∀ (s : Pool ι RefServer Op Res Fault) (x : ℤ), True → refDiscipline.inv s.shared →
      refDiscipline.inv (s.shared.setClock x) ∧
        (¬ s.Idle → refDiscipline.le s.shared (s.shared.setClock x)) :=
    fun _ _ _ hI => ⟨hI, fun _ => List.prefix_refl _⟩
  -- What a handler relies on, that entries and what was found stay, the steps of others keep.
  exact h.step (fun h => h) (fun parg s hquery hI => runs_handler hfile hI hquery) (within_handler fr)
    hchange a hallows

/-- At its start every handler is as it should be. -/
theorem sound_refInit {ι : Type} {lines : List Line} (fr : FileReader) (maxSize : ℕ) (now : ℤ) :
    (refInit fr now : RefWorkers ι).Sound (Replied lines) HANDLER_CALLS (performRef fr maxSize)
      refDiscipline :=
  Recorded.init_sound fun _ he => absurd he List.not_mem_nil

theorem twoLines_dotted : ∀ l ∈ twoLines, ∃ addr, inet_pton (cstr l.ip) = some addr := by
  intro l hl
  simp only [twoLines, List.mem_cons, List.not_mem_nil, or_false] at hl
  rcases hl with rfl | rfl
  · exact ⟨[1, 1, 1, 1], by decide⟩
  · exact ⟨[2, 2, 2, 2], by decide⟩

/-- The question that a request is read as. -/
def Arg.asked (parg : Arg) : Option (List Question) :=
  ((decode (parg.buff.bytes ++ parg.buff.rest)).map (·.1.ques)).toOption

/-- The data of the answers that a reply is read as. -/
def Reply.answerData : Reply → List (List UInt8)
  | .built _ bytes =>
    match decode bytes with
    | .ok (m, _) => m.resourse_record.ANSWER.map (·.content.data)
    | .error _ => []
  | .forwarded _ => []

/-- What a handler was asked, had from the cache, and replied. -/
structure Exchange where
  asked : Option (List Question)
  got : List Item
  replied : List (List (List UInt8))
  deriving DecidableEq

/-- The exchange of an invocation. -/
def exchange (i : Invocation Arg Op Res) : Exchange :=
  ⟨i.job.asked, i.calls.flatMap HandlerCall.got,
    (i.calls.flatMap HandlerCall.sent).map (·.2.answerData)⟩

/-- A query for the address of a name of one letter. -/
theorem standardQuery_letter {parg : Arg} {c : UInt8} (h : c ≠ 0) (h' : c ≠ DOT)
    (hasked : (decode (parg.buff.bytes ++ parg.buff.rest)).map (fun r => (r.1.ques, r.1.rcode,
      r.1.resourse_record.ANSWER, r.1.resourse_record.AUTHORITY)) = .ok ([⟨[c], A, IN⟩], 0, [], [])) :
    StandardQuery parg := by
  obtain ⟨m, n, hdecode, hm⟩ := standardQuery_of_decode hasked (show (1 : ℕ) < 50 by decide)
    (named_letter h h')
  exact ⟨m, n, _, hdecode, hm⟩

/-- A step that is a `fscanf` of a lookup finds the position where the lookup left it. -/
def InPlace {ι σ : Type} (pos : σ → ℕ) (s : Pool ι σ Op Res Fault) : ServerAction ι → Prop
  | .run t _ => ∀ o k, s.threads t = some (.call o k) →
      ∀ domain cur, o = .fscanf domain cur → pos s.shared = cur
  | _ => True

instance (p : Option (M Unit)) (P : Op → Prop) [DecidablePred P] :
    Decidable (∀ o k, p = some (.call o k) → P o) :=
  match p with
  | some (.call o k) => decidable_of_iff (P o) ⟨by rintro h o' k' ⟨⟩; exact h, fun h => h o k rfl⟩
  | some (.pure _) => isTrue (by rintro o k ⟨⟩)
  | some (.fail _) => isTrue (by rintro o k ⟨⟩)
  | none => isTrue (by rintro o k ⟨⟩)

instance {ι σ : Type} (pos : σ → ℕ) (s : Pool ι σ Op Res Fault) : DecidablePred (InPlace pos s)
  | .start _ _ => inferInstanceAs (Decidable True)
  | .run t _ =>
    have : DecidablePred fun o : Op => ∀ domain cur, o = .fscanf domain cur → pos s.shared = cur
      | .fscanf _ cur => decidable_of_iff (pos s.shared = cur)
        ⟨by rintro h _ _ ⟨⟩; exact h, fun h => h _ _ rfl⟩
      | .showRequest _ | .time | .cacheGetLocked _ | .cacheGetCopy _ | .cachePut _ _ _ | .fseek _
      | .Socket | .close | .sendtoServer _ | .recvfrom | .sendto _ _ => isTrue (by rintro _ _ ⟨⟩)
    inferInstanceAs (Decidable (∀ o k, s.threads t = some (.call o k) → _))
  | .outside _ => inferInstanceAs (Decidable True)

/-- Without a response, an operation is as it should be when a `fscanf` finds the position in place. -/
theorem standard_op_silent {s : Server} {o : Op}
    (hpos : ∀ domain cur, o = .fscanf domain cur → s.pos = cur) :
    (standard fun _ pos cur => pos = cur).Op s o silent := by
  cases o with
  | fscanf domain cur => exact hpos domain cur rfl
  | recvfrom => exact fun d hd => by cases hd
  | _ => exact True.intro

/-- Standard queries without responses are standard traffic when the lookups find the position in place. -/
theorem meets_standard {ι : Type} [DecidableEq ι] {fr : FileReader} {maxSize : ℕ} {s : RefWorkers ι}
    {as : List (ServerAction ι)}
    (hin : Meets (refStep fr maxSize) (fun s => InPlace (fun r => r.server.pos) s.pool) s as)
    (has : ∀ a ∈ as, (∃ t parg, a = .start t parg ∧ StandardQuery parg) ∨ ∃ t, a = .run t silent) :
    Meets (refStep fr maxSize) (RefStep (standard fun _ pos cur => pos = cur)) s as := by
  intro pre a hp u hu
  have hplaced := hin pre a hp u hu
  rcases has a (hp.subset (by simp)) with ⟨t, parg, rfl, hquery⟩ | ⟨t, rfl⟩
  · exact hquery
  · exact fun o k hk => ⟨standard_op_silent (hplaced o k hk), fun _ => rfl⟩

theorem queryA_standard : StandardQuery queryA :=
  @standardQuery_letter queryA 97 (by decide) (by decide) (by decide +kernel)

end DnsRelayer
