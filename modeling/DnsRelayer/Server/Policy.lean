import DnsRelayer.Server.System
import DnsRelayer.Server.ItemSpec
import DnsRelayer.Cache.Holds

/-!
# Policies: what is cached, and what is replied

A `Policy` says of a key what may be cached under it, and of a request what may be replied to it,
given the responses that were received so far. It is lawful when the handler keeps to it at every
place where it caches an item or replies (`Policy.Lawful`), which is about single steps of
computation only. Then, in every run of the server, whatever is cached and replied keeps to it
(`Policy.Lawful.replies`).

A policy may be for runs in which the clock is steady: it does not change while a handler is at work.
-/

namespace DnsRelayer

open Lib

/-- A policy, for runs under conditions. -/
structure Policy extends Conditions where
  /-- What may be cached under a key, up to its deadline. -/
  entry : List Response → List UInt8 → ℤ → Item → Prop
  /-- What may be sent. -/
  answer : List Response → Sent → Prop

namespace Policy

variable (P : Policy)

/-- An item that may be cached under the key may be served from there. -/
def Serves (rs : List Response) (now : ℤ) (key : List UInt8) (it : Item) : Prop :=
  ∃ t, P.entry rs key t it ∧ (P.steady → now ≤ t)

/-- The address that is read from the local file for a name that is found in its index. -/
def Reads (fr : FileReader) (name addr : List UInt8) : Prop :=
  ∃ cur pos ip, file_reader_find fr name = .ok (some cur) ∧ P.scan name pos cur ∧
    ReadsAt fr.fd pos ip ∧ inet_pton (cstr ip) = some addr

/-- The handler keeps to the policy. -/
structure Lawful (fr : FileReader) : Prop where
  entry_mono : ∀ {rs rs' key t it}, rs ⊆ rs' → P.entry rs key t it → P.entry rs' key t it
  answer_mono : ∀ {rs rs' sent}, rs ⊆ rs' → P.answer rs sent → P.answer rs' sent
  /-- The reply of an item that is cached for the question. -/
  hit : ∀ {rs now now' parg msg q key it bytes}, P.request parg → Asks parg msg q →
    Cached q.q_type → calcKey q.q_name q.q_type = some key → P.Serves rs now key it →
    it.name.length < STR_LEN → (P.steady → now' = now) →
    encode (Item2Msg msg it it.name now') = .ok bytes →
    P.answer rs ⟨now, parg, .built (Item2Msg msg it it.name now') bytes⟩
  /-- The reply of two items, for an alias and for its target. -/
  aliasHit : ∀ {rs now now₁ now₂ parg msg q key key' it tit bytes}, P.request parg →
    Asks parg msg q → q.q_type = A → calcKey q.q_name CNAME = some key →
    P.Serves rs now key it → calcKey (it.strVal.headD []) A = some key' →
    P.Serves rs now key' tit → it.name.length < STR_LEN → tit.name.length < STR_LEN →
    (P.steady → now₁ = now ∧ now₂ = now) →
    encode (Item2Msg (Item2Msg msg it it.name now₁) tit tit.name now₂) = .ok bytes →
    P.answer rs ⟨now, parg,
      .built (Item2Msg (Item2Msg msg it it.name now₁) tit tit.name now₂) bytes⟩
  /-- The item of an address in the local file, as it is cached. -/
  fileEntry : ∀ {rs now t parg msg q key addr tmp}, P.request parg → Asks parg msg q →
    q.q_type = A → P.Reads fr q.q_name addr → q.q_name.length < STR_LEN →
    addRR2Item zeroItem (fileRR q.q_name addr) now = .ok tmp →
    calcKey tmp.name A = some key → (P.steady → t = tmp.ddl) → P.entry rs (tableKey key) t tmp
  /-- The reply of an address in the local file. -/
  fileAnswer : ∀ {rs now now₁ now₂ parg msg q addr tmp bytes}, P.request parg →
    Asks parg msg q → q.q_type = A → P.Reads fr q.q_name addr → q.q_name.length < STR_LEN →
    addRR2Item zeroItem (fileRR q.q_name addr) now₁ = .ok tmp →
    (P.steady → now₁ = now ∧ now₂ = now) →
    encode (Item2Msg msg tmp tmp.name now₂) = .ok bytes →
    P.answer rs ⟨now, parg, .built (Item2Msg msg tmp tmp.name now₂) bytes⟩
  /-- The reply when a call for the server failed. -/
  failure : ∀ {rs now parg msg q bytes}, P.request parg → Asks parg msg q →
    (q.q_type = A → file_reader_find fr q.q_name = .ok none) →
    encode (setRCODE (setResp msg) SERVER_FAILURE) = .ok bytes →
    P.answer rs ⟨now, parg, .built (setRCODE (setResp msg) SERVER_FAILURE) bytes⟩
  /-- A response that is forwarded. -/
  forward : ∀ {rs time now parg msg q d}, P.request parg → Asks parg msg q →
    (q.q_type = A → file_reader_find fr q.q_name = .ok none) → ⟨time, d⟩ ∈ rs →
    (P.steady → time = now) → P.answer rs ⟨now, parg, .forwarded d.bytes⟩
  /-- The item of the records of a response that are of a type, as it is cached. -/
  learn : ∀ {rs time now t d msg n type key it}, ⟨time, d⟩ ∈ rs → P.response d →
    decode (d.bytes ++ d.rest) = .ok (msg, n) → Cached type →
    Filled type now (msg.resourse_record.ANSWER.filter (·.type = type)) it → it.type ≠ 0 →
    it.name.length < STR_LEN → calcKey it.name type = some key →
    (P.steady → now = time ∧ t = it.ddl) → P.entry rs (tableKey key) t it

/-! ## The discipline of a policy -/

/-- What is cached and what was replied keeps to the policy. -/
def Inv (s : Server) : Prop :=
  s.cache.Holds (P.entry s.received) ∧ ∀ sent ∈ s.replies, P.answer s.received sent

/-- What a handler may rely on while others take steps. -/
structure Le (s s' : Server) : Prop where
  received : s.received ⊆ s'.received
  cache : s.cache.Follows (fun _ t _ => P.steady → s.now ≤ t) s'.cache
  clock : P.steady → s.now = s'.now

variable {P}

theorem Le.refl (s : Server) : P.Le s s := ⟨fun _ h => h, .refl _, fun _ => rfl⟩

theorem Le.trans {s s' s'' : Server} (h : P.Le s s') (h' : P.Le s' s'') : P.Le s s'' := by
  exact ⟨fun _ hr => h'.received (h.received hr),
    h.cache.trans (h'.cache.mono fun _ _ _ hnew hs => (h.clock hs).trans_le (hnew hs)),
    fun hs => (h.clock hs).trans (h'.clock hs)⟩

variable (P) in
/-- The handlers keep to the policy when the responses and the scans are as it takes them to be. -/
def discipline : Discipline Server Op Env where
  inv := P.Inv
  le := P.Le
  ok := P.Op
  mayFail := True
  refl := Le.refl
  trans := Le.trans

theorem Serves.mono {s s' : Server} {fr : FileReader} (hP : P.Lawful fr) (hle : P.Le s s')
    {key : List UInt8} {it : Item} (h : P.Serves s.received s.now key it) :
    P.Serves s'.received s'.now key it := by
  obtain ⟨t, ht, hnow⟩ := h
  exact ⟨t, hP.entry_mono hle.received ht, fun hs => (hle.clock hs).symm.trans_le (hnow hs)⟩

/-! ## The operations -/

section

variable {fr : FileReader} (hP : P.Lawful fr) {s : Server}

/-- A program of the handler keeps to the policy. -/
abbrev Keeps (P : Policy) (fr : FileReader) {α : Type} (p : M α) (Q : α → Server → Prop)
    (s : Server) : Prop :=
  Safe (perform fr) P.discipline p Q s

/-- An operation that changes neither what is cached or replied nor what was received. -/
theorem Inv.congr {s' : Server} (h : P.Inv s) (hcache : s'.cache = s.cache)
    (hreplies : s'.replies = s.replies) (hreceived : s'.received = s.received) : P.Inv s' := by
  rw [Inv, hcache, hreplies, hreceived]
  exact h

theorem Le.congr {s' : Server} (hcache : s'.cache = s.cache) (hreceived : s'.received = s.received)
    (hnow : s'.now = s.now) : P.Le s s' :=
  ⟨by rw [hreceived]; exact fun _ h => h, by rw [hcache]; exact .refl _, fun _ => hnow.symm⟩

/-- The clock. -/
theorem keeps_time : P.Keeps fr (call .time) (fun now s' => P.steady → now = s'.now) s := by
  refine Safe.op trivial _ fun s₁ e r s₂ hle hI _ hperf => ?_
  obtain ⟨rfl, rfl⟩ := Prod.mk.inj (Except.ok.inj hperf)
  exact ⟨hI, Le.refl _, fun s₃ hle₃ _ hs => hle₃.clock hs⟩

/-- An operation on which nothing depends. -/
theorem keeps_aside {o : Op} (ho : o.Aside) : P.Keeps fr (call o) (fun _ _ => True) s := by
  refine Safe.op trivial _ fun s₁ e r s₂ hle hI _ hperf => ?_
  obtain ⟨hcache, hreplies, hreceived, hnow⟩ := ho.same hperf
  exact ⟨hI.congr hcache hreplies hreceived, Le.congr hcache hreceived hnow,
    fun _ _ _ => trivial⟩

/-- A string that is read to its end. -/
theorem keeps_terminated (str : List UInt8) :
    P.Keeps fr (compute (terminated str)) (fun str' _ => str' = str ∧ str.length < STR_LEN) s :=
  Safe.ofExcept trivial fun _ hstr _ _ _ => length_of_terminated hstr

/-- The name of a question, when its copy is read to its end. -/
theorem keeps_name (name : List UInt8) :
    P.Keeps fr (compute (terminated (strncpy name STR_LEN)))
      (fun name' _ => name' = name ∧ name.length < STR_LEN) s :=
  Safe.ofExcept trivial fun _ hname _ _ _ => terminated_strncpy hname

/-- A key that is there. -/
theorem keeps_keyOf (name : List UInt8) (type : UInt16) :
    P.Keeps fr (compute (keyOf name type)) (fun key _ => calcKey name type = some key) s := by
  refine Safe.ofExcept trivial fun key hkey s' _ _ => ?_
  rw [keyOf] at hkey
  split at hkey
  · rw [← Except.ok.inj hkey]
    assumption
  · cases hkey

/-- A reply that is sent as the policy says. -/
theorem keeps_sendto (parg : Arg) (reply : Reply)
    (h : ∀ s', P.Le s s' → P.Inv s' → P.answer s'.received ⟨s'.now, parg, reply⟩) :
    P.Keeps fr (call (.sendto parg reply)) (fun _ _ => True) s := by
  refine Safe.op trivial _ fun s₁ e r s₂ hle hI _ hperf => ?_
  obtain ⟨-, rfl⟩ := Prod.mk.inj (Except.ok.inj hperf)
  refine ⟨⟨hI.1, ?_⟩, Le.congr rfl rfl rfl, fun _ _ _ => trivial⟩
  intro sent hsent
  rcases List.mem_cons.mp hsent with rfl | hsent
  · exact h s₁ hle hI
  · exact hI.2 sent hsent

/-- A reply that is built and sent as the policy says. -/
theorem keeps_reply (parg : Arg) (msg : Message)
    (h : ∀ bytes s', encode msg = .ok bytes → P.Le s s' → P.Inv s' →
      P.answer s'.received ⟨s'.now, parg, .built msg bytes⟩) :
    P.Keeps fr (reply parg msg) (fun _ _ => True) s := by
  rw [reply]
  cases henc : encode msg with
  | error e => trivial
  | ok bytes =>
    show Safe _ _ (if _ then _ else _) _ _
    split_ifs
    · exact Safe.fail trivial
    · exact keeps_sendto parg _ fun s' hle hI => h bytes s' henc hle hI

/-! ## Items -/

/-- The list node was made for the key, and its deadline is not over. -/
def Found (P : Policy) (key : List UInt8) (lkn : ℕ) (s : Server) : Prop :=
  lkn < s.cache.heap.brk ∧ ∀ ui, s.cache.LiveAt lkn ui →
    tableKey ui.key = key ∧ (P.steady → s.now ≤ ui.deadline)

theorem Found.mono {s' : Server} {key : List UInt8} {lkn : ℕ} (h : P.Found key lkn s)
    (hle : P.Le s s') : P.Found key lkn s' := by
  refine ⟨h.1.trans_le hle.cache.brk, fun ui' hui' => ?_⟩
  obtain ⟨ui, hui, hkey, hsame⟩ := hle.cache.live lkn ui' h.1 hui'
  obtain ⟨hfound, hnow⟩ := h.2 ui hui
  refine ⟨hkey ▸ hfound, fun hs => ?_⟩
  rw [← hle.clock hs]
  rcases hsame with ⟨heq, -⟩ | hnew
  · exact heq ▸ hnow hs
  · exact hnew hs

include hP in
/-- What `getItem` returns may be served. -/
theorem keeps_getItem (hI : P.Inv s) (name : List UInt8) (type : UInt16) :
    P.Keeps fr (getItem name type) (fun r s' => ∀ it, r = some it →
      ∃ key, calcKey name type = some key ∧ P.Serves s'.received s'.now key it) s := by
  refine (keeps_keyOf name type).bind hI fun key s₁ _ hI₁ hkey => ?_
  -- The lock is let go in between: what was found stays so, whatever other handlers do.
  have hlocked : P.Keeps fr (call (.cacheGetLocked key))
      (fun r s' => ∀ lkn, r = some lkn → P.Found key lkn s') s₁ := by
    refine Safe.op trivial _ fun s₂ e r s₃ _ hI₂ _ hperf => ?_
    obtain ⟨⟨r', c⟩, hget, hperf⟩ := Run.bind_eq_ok.mp hperf
    obtain ⟨rfl, rfl⟩ := Prod.mk.inj (Except.ok.inj hperf)
    obtain ⟨hholds, hfollows, hfound⟩ := hI₂.1.getLocked hget
    refine ⟨⟨hholds, hI₂.2⟩, ⟨fun _ h => h, hfollows, fun _ => rfl⟩, fun s₄ hle₄ _ lkn hr => ?_⟩
    obtain ⟨hlt, hlive⟩ := hfound lkn hr
    have hfound₃ : P.Found key lkn { s₂ with cache := c } :=
      ⟨hlt, fun ui hui => ⟨(hlive ui hui).1, fun _ => (hlive ui hui).2⟩⟩
    exact hfound₃.mono hle₄
  refine hlocked.bind hI₁ fun r s₂ _ hI₂ hr => ?_
  cases r with
  | none => exact Safe.pure fun _ _ _ it hit => by cases hit
  | some lkn =>
    have hcopy : P.Keeps fr (call (.cacheGetCopy lkn))
        (fun it s' => P.Serves s'.received s'.now key it) s₂ := by
      refine Safe.op trivial _ fun s₃ e it s₄ hle₃ hI₃ _ hperf => ?_
      obtain ⟨it', hget, hperf⟩ := Run.bind_eq_ok.mp hperf
      obtain ⟨rfl, rfl⟩ := Prod.mk.inj (Except.ok.inj hperf)
      obtain ⟨ui, hlive, hentry⟩ := hI₃.1.getCopy hget
      obtain ⟨hkey', hnow⟩ := ((hr lkn rfl).mono hle₃).2 ui hlive
      have hserves : P.Serves s₃.received s₃.now key it' := ⟨_, hkey' ▸ hentry, hnow⟩
      exact ⟨hI₃, Le.refl _, fun s₅ hle₅ _ => hserves.mono hP hle₅⟩
    refine hcopy.bind hI₂ fun it s₃ _ _ hit => ?_
    refine Safe.pure fun s₄ hle₄ _ it' hit' => ?_
    obtain rfl := Option.some.inj hit'
    exact ⟨key, hkey, hit.mono hP hle₄⟩

/-- What `putItem` caches keeps to the policy, when the item does under its key. -/
theorem keeps_putItem (hI : P.Inv s) (type : UInt16) (it : Item)
    (hlive : it.type ≠ 0 → P.steady → s.now ≤ it.ddl)
    (h : it.type ≠ 0 → ∀ s' key t, P.Le s s' → it.name.length < STR_LEN →
      calcKey it.name type = some key → (P.steady → t = it.ddl) →
      P.entry s'.received (tableKey key) t it) :
    P.Keeps fr (putItem type it) (fun _ _ => True) s := by
  unfold putItem
  split_ifs with hzero
  · exact Safe.pure fun _ _ _ => trivial
  refine (keeps_terminated it.name).bind hI fun name s₁ hle₁ hI₁ hname₁ => ?_
  obtain ⟨rfl, hlen⟩ := hname₁
  refine (keeps_keyOf it.name type).bind hI₁ fun key s₂ hle₂ hI₂ hkey => ?_
  refine keeps_time.bind hI₂ fun (now : ℤ) s₃ hle₃ hI₃ (hnow : P.steady → now = s₃.now) => ?_
  refine Safe.op trivial _ fun s₄ e r s₅ hle₄ hI₄ _ hperf => ?_
  obtain ⟨c, hput, hperf⟩ := Run.bind_eq_ok.mp hperf
  obtain ⟨-, rfl⟩ := Prod.mk.inj (Except.ok.inj hperf)
  have hle : P.Le s s₄ := hle₁.trans (hle₂.trans (hle₃.trans hle₄))
  -- The time to live is counted from a time that is read again under the lock.
  have hdeadline : P.steady → s₄.now + (it.ddl - now) = it.ddl := by
    intro hs
    have h₃ := hnow hs
    have h₄ := hle₄.clock hs
    omega
  have hnew : P.steady → s₄.now ≤ s₄.now + (it.ddl - now) := by
    intro hs
    have := hlive hzero hs
    have := hle.clock hs
    rw [hdeadline hs]
    omega
  have hkept : c.Holds (P.entry s₄.received) ∧
      s₄.cache.Follows (fun _ t _ => P.steady → s₄.now ≤ t) c :=
    hI₄.1.put (h hzero s₄ key _ hle hlen hkey hdeadline) hnew hput
  exact ⟨⟨hkept.1, hI₄.2⟩, ⟨fun _ h => h, hkept.2, fun _ => rfl⟩, fun _ _ _ => trivial⟩

/-- The reply to which `answerItem` adds an item. -/
theorem keeps_answerItem (hI : P.Inv s) (msg : Message) (it : Item) :
    P.Keeps fr (answerItem msg it) (fun m s' => it.name.length < STR_LEN ∧
      ∃ now, m = Item2Msg msg it it.name now ∧ (P.steady → now = s'.now)) s := by
  refine (keeps_terminated it.name).bind hI fun name s₁ _ hI₁ hname₁ => ?_
  obtain ⟨rfl, hlen⟩ := hname₁
  refine keeps_time.bind hI₁ fun now s₂ _ _ hnow => ?_
  exact Safe.pure fun s₃ hle₃ _ => ⟨hlen, now, rfl, fun hs => (hnow hs).trans (hle₃.clock hs)⟩

/-- The item to which `storeRR` adds a record. -/
theorem keeps_storeRR (hI : P.Inv s) (it : Item) (rr : RR) :
    P.Keeps fr (storeRR it rr) (fun it' s' => ∃ now, addRR2Item it rr now = .ok it' ∧
      (P.steady → now = s'.now)) s := by
  refine keeps_time.bind hI fun now s₁ _ _ hnow => ?_
  exact Safe.ofExcept trivial fun it' hit' s₂ hle₂ _ =>
    ⟨now, hit', fun hs => (hnow hs).trans (hle₂.clock hs)⟩

/-! ## The parts of the handler -/

variable {parg : Arg} {msg : Message} {q : Question}

include hP in
/-- The replies from the cache keep to the policy. -/
theorem keeps_replyFromCache (hI : P.Inv s) (hok : P.request parg) (hasks : Asks parg msg q) :
    P.Keeps fr (replyFromCache parg msg (strncpy q.q_name STR_LEN) q.q_type) (fun _ _ => True)
      s := by
  unfold replyFromCache
  split
  swap
  · exact Safe.pure fun _ _ _ => trivial
  rename_i hcached
  refine (keeps_name q.q_name).bind hI fun name s₁ _ hI₁ hname₁ => ?_
  obtain ⟨rfl, -⟩ := hname₁
  refine (keeps_getItem hP hI₁ q.q_name q.q_type).bind hI₁ fun r s₂ _ hI₂ hr => ?_
  cases r with
  | some it =>
    obtain ⟨key, hkey, hserves⟩ := hr it rfl
    refine (keeps_answerItem hI₂ msg it).bind hI₂ fun m s₃ hle₃ hI₃ hm => ?_
    obtain ⟨hlen, now, rfl, hnow⟩ := hm
    refine Safe.bind (keeps_reply parg _ fun bytes s₄ henc hle₄ _ => ?_) hI₃
      fun _ _ _ _ _ => Safe.pure fun _ _ _ => trivial
    exact hP.hit hok hasks hcached hkey ((hserves.mono hP hle₃).mono hP hle₄) hlen
      (fun hs => (hnow hs).trans (hle₄.clock hs)) henc
  | none =>
    dsimp only
    split
    swap
    · exact Safe.pure fun _ _ _ => trivial
    rename_i hA
    -- The alias of the name, and the addresses of its target.
    refine (keeps_getItem hP hI₂ q.q_name CNAME).bind hI₂ fun r s₃ _ hI₃ hr => ?_
    cases r with
    | none => exact Safe.pure fun _ _ _ => trivial
    | some it =>
      obtain ⟨key, hkey, hserves⟩ := hr it rfl
      refine (keeps_getItem hP hI₃ (it.strVal.headD []) A).bind hI₃ fun r s₄ hle₄ hI₄ hr => ?_
      cases r with
      | none => exact Safe.pure fun _ _ _ => trivial
      | some tit =>
        obtain ⟨key', hkey', hserves'⟩ := hr tit rfl
        refine (keeps_answerItem hI₄ msg it).bind hI₄ fun m s₅ hle₅ hI₅ hm => ?_
        obtain ⟨hlen, now, rfl, hnow⟩ := hm
        refine (keeps_answerItem hI₅ _ tit).bind hI₅ fun m s₆ hle₆ hI₆ hm => ?_
        obtain ⟨hlen', now', rfl, hnow'⟩ := hm
        refine Safe.bind (keeps_reply parg _ fun bytes s₇ henc hle₇ _ => ?_) hI₆
          fun _ _ _ _ _ => Safe.pure fun _ _ _ => trivial
        have hle : P.Le s₄ s₇ := hle₅.trans (hle₆.trans hle₇)
        exact hP.aliasHit hok hasks hA hkey ((hserves.mono hP hle₄).mono hP hle) hkey'
          (hserves'.mono hP hle) hlen hlen'
          (fun hs => ⟨(hnow hs).trans ((hle₆.trans hle₇).clock hs),
            (hnow' hs).trans (hle₇.clock hs)⟩) henc

/-- What a lookup in the local file returns: nothing when the index does not have the domain, and else
what is read from the position of the line, or, when a lookup is disturbed, from another. -/
theorem keeps_getRecord (hI : P.Inv s) (domain : List UInt8) :
    P.Keeps fr (getRecord fr domain) (fun r _ => match r with
      | none => file_reader_find fr domain = .ok none
      | some ip => ∃ cur pos w, file_reader_find fr domain = .ok (some cur) ∧
          P.scan domain pos cur ∧ ReadsAt fr.fd pos w ∧ ip = cstr w) s := by
  have hfind : P.Keeps fr (compute (file_reader_find fr domain))
      (fun r _ => file_reader_find fr domain = .ok r) s :=
    Safe.ofExcept trivial fun r hr _ _ _ => hr
  refine hfind.bind hI fun r s₁ _ hI₁ hr => ?_
  cases r with
  | none => exact Safe.pure fun _ _ _ => hr
  | some cur =>
    have hseek : (Op.fseek cur).Aside := trivial
    refine (keeps_aside hseek).bind hI₁ fun _ s₂ _ hI₂ _ => ?_
    -- Another handler may have moved the position since.
    have hscan : P.Keeps fr (call (.fscanf domain cur)) (fun r _ => ∀ w, r = some w →
        ∃ pos, P.scan domain pos cur ∧ ReadsAt fr.fd pos w) s₂ := by
      refine Safe.op trivial _ fun s₃ e r s₄ _ hI₃ hok hperf => ?_
      obtain ⟨⟨read, pos'⟩, hread, hperf⟩ := Run.bind_eq_ok.mp hperf
      obtain ⟨rfl, rfl⟩ := Prod.mk.inj (Except.ok.inj hperf)
      refine ⟨hI₃, Le.congr rfl rfl rfl, fun _ _ _ w hw => ⟨s₃.pos, hok, ?_⟩⟩
      rw [file_reader_scan] at hread
      split at hread
      · cases hread
        cases hw
      · rename_i w' rest htoken
        split_ifs at hread
        cases hread
        obtain rfl := Option.some.inj hw
        exact ⟨rest, htoken⟩
    refine hscan.bind hI₂ fun r s₃ _ _ hr' => ?_
    cases r with
    | none => exact Safe.fail trivial
    | some w =>
      obtain ⟨pos, hpos, hreads⟩ := hr' w rfl
      exact Safe.pure fun _ _ _ => ⟨cur, pos, w, hr, hpos, hreads, rfl⟩

/-- The time of an item after a record is put into it. -/
theorem ddl_of_addRR2Item {it it' : Item} {rr : RR} {now : ℤ}
    (h : addRR2Item it rr now = .ok it') : it'.ddl = rr.TTL.toNat + now := by
  simp only [addRR2Item] at h
  split_ifs at h <;> rw [← Except.ok.inj h]

include hP in
/-- The replies from the local file keep to the policy. There is none only when the file does not have
the name, or the question is for another type. -/
theorem keeps_replyFromFile (hI : P.Inv s) (hok : P.request parg) (hasks : Asks parg msg q) :
    P.Keeps fr (replyFromFile fr parg msg (strncpy q.q_name STR_LEN) q.q_type)
      (fun replied _ => replied = false → q.q_type = A →
        file_reader_find fr q.q_name = .ok none) s := by
  unfold replyFromFile
  split
  swap
  · rename_i hA
    exact Safe.pure fun _ _ _ _ h => absurd h hA
  rename_i hA
  refine (keeps_name q.q_name).bind hI fun name s₁ _ hI₁ hname₁ => ?_
  obtain ⟨rfl, hlen⟩ := hname₁
  refine (keeps_getRecord hI₁ q.q_name).bind hI₁ fun r s₂ _ hI₂ hr => ?_
  cases r with
  | none => exact Safe.pure fun _ _ _ _ _ => hr
  | some ip =>
    obtain ⟨cur, pos, w, hfind, hpos, hreads, rfl⟩ := hr
    dsimp only
    cases haddr : inet_pton (cstr w) with
    | none => exact Safe.fail trivial
    | some addr =>
      have hfile : P.Reads fr q.q_name addr := ⟨cur, pos, w, hfind, hpos, hreads, haddr⟩
      refine (keeps_storeRR hI₂ _ _).bind hI₂ fun tmp s₃ _ hI₃ htmp => ?_
      obtain ⟨now, htmp, hnow⟩ := htmp
      -- The item is cached, and then served as it is here.
      have hput : P.Keeps fr (putItem A tmp) (fun _ _ => True) s₃ := by
        refine keeps_putItem hI₃ A tmp (fun _ hs => ?_) fun _ s₄ key t hle₄ _ hkey ht => ?_
        · rw [ddl_of_addRR2Item htmp, hnow hs]
          omega
        · exact hP.fileEntry hok hasks hA hfile hlen htmp hkey ht
      refine hput.bind hI₃ fun _ s₄ hle₄ hI₄ _ => ?_
      refine (keeps_answerItem hI₄ msg tmp).bind hI₄ fun m s₅ hle₅ hI₅ hm => ?_
      obtain ⟨hlen', now', rfl, hnow'⟩ := hm
      refine Safe.bind (keeps_reply parg _ fun bytes s₆ henc hle₆ _ => ?_) hI₅
        fun _ _ _ _ _ => Safe.pure fun _ _ _ h => by cases h
      exact hP.fileAnswer hok hasks hA hfile hlen htmp
        (fun hs => ⟨(hnow hs).trans ((hle₄.trans (hle₅.trans hle₆)).clock hs),
          (hnow' hs).trans (hle₆.clock hs)⟩) henc

/-- The items have the records of each type that is cached. -/
structure Collected (P : Policy) (rrs : List RR) (items : Items) (s : Server) : Prop where
  Ait : ∃ now, (P.steady → now = s.now) ∧ Filled A now (rrs.filter (·.type = A)) items.Ait
  Nit : ∃ now, (P.steady → now = s.now) ∧ Filled NS now (rrs.filter (·.type = NS)) items.Nit
  Cit : ∃ now, (P.steady → now = s.now) ∧
    Filled CNAME now (rrs.filter (·.type = CNAME)) items.Cit

theorem Collected.mono {rrs : List RR} {items : Items} {s' : Server}
    (h : P.Collected rrs items s) (hle : P.Le s s') : P.Collected rrs items s' := by
  obtain ⟨⟨n₁, h₁, f₁⟩, ⟨n₂, h₂, f₂⟩, ⟨n₃, h₃, f₃⟩⟩ := h
  exact ⟨⟨n₁, fun hs => (h₁ hs).trans (hle.clock hs), f₁⟩,
    ⟨n₂, fun hs => (h₂ hs).trans (hle.clock hs), f₂⟩,
    ⟨n₃, fun hs => (h₃ hs).trans (hle.clock hs), f₃⟩⟩

/-- The loop over the answer section puts every record into the item of its type. -/
theorem keeps_collect (hI : P.Inv s) {done : List RR} (rrs : List RR) {items : Items}
    (h : P.Collected done items s) :
    P.Keeps fr (collect rrs items) (fun items' s' => P.Collected (done ++ rrs) items' s') s := by
  induction rrs generalizing done items s with
  | nil =>
    rw [List.append_nil]
    exact Safe.pure fun s' hle _ => h.mono hle
  | cons rr rrs ih =>
    rw [List.append_cons]
    unfold collect
    -- The record goes to the item of its type; the others stay.
    split_ifs with hA hNS hCNAME
    · refine (keeps_storeRR hI _ _).bind hI fun it s₁ hle₁ hI₁ hit => ?_
      obtain ⟨now, hok, hnow⟩ := hit
      obtain ⟨⟨_, _, f₁⟩, ⟨n₂, h₂, f₂⟩, ⟨n₃, h₃, f₃⟩⟩ := h.mono hle₁
      exact ih hI₁ ⟨⟨now, hnow, filled_concat_of_eq (Or.inl rfl) hA f₁ hok⟩,
        ⟨n₂, h₂, filled_concat_of_ne (by rw [hA]; decide) f₂⟩,
        ⟨n₃, h₃, filled_concat_of_ne (by rw [hA]; decide) f₃⟩⟩
    · refine (keeps_storeRR hI _ _).bind hI fun it s₁ hle₁ hI₁ hit => ?_
      obtain ⟨now, hok, hnow⟩ := hit
      obtain ⟨⟨n₁, h₁, f₁⟩, ⟨_, _, f₂⟩, ⟨n₃, h₃, f₃⟩⟩ := h.mono hle₁
      exact ih hI₁ ⟨⟨n₁, h₁, filled_concat_of_ne hA f₁⟩,
        ⟨now, hnow, filled_concat_of_eq (Or.inr (Or.inl rfl)) hNS f₂ hok⟩,
        ⟨n₃, h₃, filled_concat_of_ne (by rw [hNS]; decide) f₃⟩⟩
    · refine (keeps_storeRR hI _ _).bind hI fun it s₁ hle₁ hI₁ hit => ?_
      obtain ⟨now, hok, hnow⟩ := hit
      obtain ⟨⟨n₁, h₁, f₁⟩, ⟨n₂, h₂, f₂⟩, ⟨_, _, f₃⟩⟩ := h.mono hle₁
      exact ih hI₁ ⟨⟨n₁, h₁, filled_concat_of_ne hA f₁⟩,
        ⟨n₂, h₂, filled_concat_of_ne hNS f₂⟩,
        ⟨now, hnow, filled_concat_of_eq (Or.inr (Or.inr rfl)) hCNAME f₃ hok⟩⟩
    · obtain ⟨⟨n₁, h₁, f₁⟩, ⟨n₂, h₂, f₂⟩, ⟨n₃, h₃, f₃⟩⟩ := h
      exact ih hI ⟨⟨n₁, h₁, filled_concat_of_ne hA f₁⟩, ⟨n₂, h₂, filled_concat_of_ne hNS f₂⟩,
        ⟨n₃, h₃, filled_concat_of_ne hCNAME f₃⟩⟩

include hP in
/-- What is cached of a response keeps to the policy. -/
theorem keeps_learn (hI : P.Inv s) {time now : ℤ} {d : Received} {m : Message} {n : ℕ}
    {type : UInt16} {it : Item} (hd : (⟨time, d⟩ : Response) ∈ s.received)
    (hok : P.response d) (hdecode : decode (d.bytes ++ d.rest) = .ok (m, n))
    (hcached : Cached type) (htime : P.steady → time = s.now) (hnow : P.steady → now = s.now)
    (h : Filled type now (m.resourse_record.ANSWER.filter (·.type = type)) it) :
    P.Keeps fr (putItem it.type.toUInt16 it) (fun _ _ => True) s := by
  refine keeps_putItem hI _ it (fun hne hs => ?_) fun hne s' key t hle hlen hkey ht => ?_
  · obtain ⟨-, -, rr, -, -, hddl⟩ := h.values_eq hne
    rw [hddl, hnow hs]
    omega
  · obtain ⟨-, htype, -⟩ := h.values_eq hne
    rw [htype] at hkey
    exact hP.learn (hle.received hd) hok hdecode hcached h hne hlen hkey
      fun hs => ⟨(hnow hs).trans (htime hs).symm, ht hs⟩

include hP in
/-- A response that comes was received when it came. -/
theorem keeps_recvfrom : P.Keeps fr (call .recvfrom) (fun r s' => ∀ d, r = some d →
    P.response d ∧ ∃ time, (⟨time, d⟩ : Response) ∈ s'.received ∧ (P.steady → time = s'.now)) s := by
  refine Safe.op trivial _ fun s₁ e r s₂ _ hI hresponse hperf => ?_
  obtain ⟨hr, rfl⟩ := perform_recvfrom hperf
  cases r with
  | none => exact ⟨hI, Le.refl _, fun _ _ _ d hd => by cases hd⟩
  | some d =>
    have hsub : s₁.received ⊆ ⟨s₁.now, d⟩ :: s₁.received := List.subset_cons_self _ _
    refine ⟨⟨hI.1.mono fun _ _ _ h => hP.entry_mono hsub h,
      fun sent hsent => hP.answer_mono hsub (hI.2 sent hsent)⟩,
      ⟨hsub, .refl _, fun _ => rfl⟩, fun s₃ hle₃ _ d' hd' => ?_⟩
    obtain rfl := Option.some.inj hd'
    exact ⟨hresponse d hr, s₁.now, hle₃.received List.mem_cons_self, hle₃.clock⟩

include hP in
/-- What is cached of a response that was received keeps to the policy. -/
theorem keeps_cacheRecords (hI : P.Inv s) {time : ℤ} {d : Received} (hresponse : P.response d)
    (htime : (⟨time, d⟩ : Response) ∈ s.received) (hclock : P.steady → time = s.now) :
    P.Keeps fr (cacheRecords d) (fun _ _ => True) s := by
  have hdecode : P.Keeps fr (compute (decode (d.bytes ++ d.rest)))
      (fun r _ => decode (d.bytes ++ d.rest) = .ok r) s :=
    Safe.ofExcept trivial fun r hr _ _ _ => hr
  refine hdecode.bind hI fun r s₁ hle₁ hI₁ hr => ?_
  obtain ⟨m, n⟩ := r
  have hempty : P.Collected [] ⟨zeroItem, zeroItem, zeroItem⟩ s₁ :=
    ⟨⟨s₁.now, fun _ => rfl, filled_zeroItem⟩, ⟨s₁.now, fun _ => rfl, filled_zeroItem⟩,
      ⟨s₁.now, fun _ => rfl, filled_zeroItem⟩⟩
  refine (keeps_collect hI₁ m.resourse_record.ANSWER hempty).bind hI₁
    fun items s₂ hle₂ hI₂ hitems => ?_
  rw [List.nil_append] at hitems
  have hle : P.Le s s₂ := hle₁.trans hle₂
  -- The three items, each in the state that the one before it leaves.
  have hput : ∀ {s' : Server} {type : UInt16} {it : Item}, P.Le s₂ s' → P.Inv s' →
      Cached type → (∃ now, (P.steady → now = s'.now) ∧
        Filled type now (m.resourse_record.ANSWER.filter (·.type = type)) it) →
      P.Keeps fr (putItem it.type.toUInt16 it) (fun _ _ => True) s' := by
    rintro s' type it hle' hI' hcached ⟨now, hnow, hfilled⟩
    have hle'' := hle.trans hle'
    exact keeps_learn hP hI' (hle''.received htime) hresponse hr hcached
      (fun hs => (hclock hs).trans (hle''.clock hs)) hnow hfilled
  refine (hput (Le.refl s₂) hI₂ (Or.inl rfl) hitems.Ait).bind hI₂ fun _ s₃ hle₃ hI₃ _ => ?_
  refine (hput hle₃ hI₃ (Or.inr (Or.inl rfl)) (hitems.mono hle₃).Nit).bind hI₃
    fun _ s₄ hle₄ hI₄ _ => ?_
  have hle₄' := hle₃.trans hle₄
  exact hput hle₄' hI₄ (Or.inr (Or.inr rfl)) (hitems.mono hle₄').Cit

include hP in
/-- The replies when the server is asked keep to the policy, and so does what is cached then. -/
theorem keeps_relay (hI : P.Inv s) (hok : P.request parg) (hasks : Asks parg msg q)
    (hnot : q.q_type = A → file_reader_find fr q.q_name = .ok none) :
    P.Keeps fr (relay parg msg q.q_type) (fun _ _ => True) s := by
  have hfailure : ∀ {s' : Server}, P.Keeps fr (replyFailure parg msg) (fun _ _ => True) s' :=
    keeps_reply parg _ fun bytes s' henc _ _ => hP.failure hok hasks hnot henc
  have hSocket : Op.Socket.Aside := trivial
  have hsend : (Op.sendtoServer parg.buff.bytes).Aside := trivial
  have hclose : Op.close.Aside := trivial
  refine (keeps_aside hSocket).bind hI fun _ s₁ _ hI₁ _ => ?_
  refine (keeps_aside hsend).bind hI₁ fun sent s₂ _ hI₂ _ => ?_
  cases sent with
  | false =>
    have hshow : (Op.showRequest q.q_type).Aside := trivial
    exact (keeps_aside hshow).bind hI₂ fun _ _ _ _ _ => hfailure
  | true =>
    refine (keeps_recvfrom hP).bind hI₂ fun r s₃ _ hI₃ hr => ?_
    cases r with
    | none => exact hfailure
    | some d =>
      obtain ⟨hresponse, time, htime, hclock⟩ := hr d rfl
      refine (keeps_aside hclose).bind hI₃ fun _ s₄ hle₄ hI₄ _ => ?_
      -- The response goes to the client before it is read.
      refine Safe.bind (keeps_sendto parg _ fun s₅ hle₅ _ => ?_) hI₄ fun _ s₅ hle₅ hI₅ _ => ?_
      · have hle := hle₄.trans hle₅
        exact hP.forward hok hasks hnot (hle.received htime)
          fun hs => (hclock hs).trans (hle.clock hs)
      · have hle := hle₄.trans hle₅
        exact keeps_cacheRecords hP hI₅ hresponse (hle.received htime)
          fun hs => (hclock hs).trans (hle.clock hs)

include hP in
/-- The handler keeps to a lawful policy. -/
theorem keeps_handler (hI : P.Inv s) (hok : P.request parg) :
    P.Keeps fr (handler fr parg) (fun _ _ => True) s := by
  have hrequest : P.Keeps fr (compute (request (parg.buff.bytes ++ parg.buff.rest)))
      (fun r _ => Asks parg r.1 r.2) s :=
    Safe.ofExcept trivial fun r hr _ _ _ => hr
  refine hrequest.bind hI fun r s₁ _ hI₁ hasks => ?_
  obtain ⟨msg, q⟩ := r
  have hshow : (Op.showRequest q.q_type).Aside := trivial
  refine (keeps_aside hshow).bind hI₁ fun _ s₂ _ hI₂ _ => ?_
  refine (keeps_replyFromCache hP hI₂ hok hasks).bind hI₂ fun replied s₃ _ hI₃ _ => ?_
  cases replied with
  | true => exact Safe.pure fun _ _ _ => trivial
  | false =>
    refine (keeps_replyFromFile hP hI₃ hok hasks).bind hI₃ fun replied s₄ _ hI₄ hnot => ?_
    cases replied with
    | true => exact Safe.pure fun _ _ _ => trivial
    | false => exact keeps_relay hP hI₄ hok hasks (hnot rfl)

end

/-! ## Runs -/

variable {ι : Type}

/-- In every run under the conditions of a lawful policy, every reply keeps to the policy. -/
theorem Lawful.replies [DecidableEq ι] {fr : FileReader} (hP : P.Lawful fr) {cachesize now : ℤ}
    {as : List (ServerAction ι)}
    (has : Meets (serverStep fr) P.Step (serverInit fr cachesize now) as) :
    ∀ pre, pre <+: as → ∀ s, exec (serverStep fr) (serverInit fr cachesize now) pre = .ok s →
      ∀ sent ∈ s.shared.replies, P.answer s.shared.received sent := by
  have hinit : P.Inv ⟨now, createCache cachesize, fr.fd.length, 0, [], []⟩ :=
    ⟨Cache.createCache_holds _, by simp⟩
  have hchange : ∀ (s : Workers ι) (x : ℤ), (P.steady → s.Idle) → P.Inv s.shared →
      P.Inv (s.shared.setClock x) ∧ (¬ s.Idle → P.Le s.shared (s.shared.setClock x)) := by
    intro s x hx hI
    exact ⟨hI, fun hbusy => ⟨fun _ h => h, .refl _, fun hs => absurd (hx hs) hbusy⟩⟩
  have hallows : Meets (serverStep fr)
      (Pool.Allows P.discipline P.request fun s _ => P.steady → s.Idle)
      (serverInit fr cachesize now) as := by
    intro pre a hp s hs
    have ha := has pre a hp s hs
    cases a <;> exact ha
  intro pre hpre s hs
  exact (pool_invariant (fun parg s hok hI => keeps_handler hP hI hok) hchange hinit hallows
    pre hpre s hs).2

/-! ## What is sent of a reply -/

/-- What is sent of a reply that the handler builds is its message, encoded. -/
def encoded : Policy where
  request _ := True
  response _ := True
  scan _ _ _ := True
  steady := False
  entry _ _ _ _ := True
  answer _ sent := ∀ msg bytes, sent.reply = .built msg bytes → encode msg = .ok bytes

theorem encoded_lawful (fr : FileReader) : encoded.Lawful fr := by
  have hbuilt : ∀ {rs now parg msg bytes}, encode msg = .ok bytes →
      encoded.answer rs ⟨now, parg, .built msg bytes⟩ := by
    intro rs now parg msg bytes hencode msg' bytes' heq
    obtain ⟨rfl, rfl⟩ := Reply.built.inj heq
    exact hencode
  refine {
    entry_mono := fun _ h => h
    answer_mono := fun _ h => h
    hit := fun _ _ _ _ _ _ _ h => hbuilt h
    aliasHit := fun _ _ _ _ _ _ _ _ _ _ h => hbuilt h
    fileEntry := fun _ _ _ _ _ _ _ _ => trivial
    fileAnswer := fun _ _ _ _ _ _ _ h => hbuilt h
    failure := fun _ _ _ h => hbuilt h
    forward := ?_
    learn := fun _ _ _ _ _ _ _ _ _ => trivial }
  intro rs time now parg msg q d _ _ _ _ _ msg' bytes heq
  cases heq

/-- In every run, what is sent of a reply that the handler builds is its message, encoded. -/
theorem encode_of_built [DecidableEq ι] {fr : FileReader} {cachesize now : ℤ}
    {as : List (ServerAction ι)} {s : Workers ι}
    (hs : exec (serverStep fr) (serverInit fr cachesize now) as = .ok s) {sent : Sent}
    (hsent : sent ∈ s.shared.replies) {msg : Message} {bytes : List UInt8}
    (hreply : sent.reply = .built msg bytes) : encode msg = .ok bytes := by
  have has : Meets (serverStep fr) encoded.Step (serverInit fr cachesize now) as := by
    intro pre a _ t _
    cases a with
    | start => trivial
    | run t e =>
      intro o k _
      cases o <;> first | trivial | exact fun _ _ => trivial
    | outside => exact fun h => h.elim
  exact (encoded_lawful fr).replies has as (List.prefix_refl as) s hs sent hsent msg bytes hreply

end Policy

end DnsRelayer
