import Mathlib.Data.Fintype.Basic
import DnsRelayer.Server.OneReply
import DnsRelayer.Server.Simulation
import DnsRelayer.Cache.Concurrent

/-!
# The server and the server on the reference cache

Handlers that run at the same time do on the hash table and the list what they do on the reference map,
as long as the table keeps a chain, keys are kept whole, and no handler takes out or overwrites an entry
that another has found and not yet copied (`server_refines`). The two then fail alike, and send the same
datagrams in the same order. What holds of every such run of the reference holds so of the server
(`one_reply_cached`).
-/

namespace DnsRelayer

open Lib

/-! ## The cache between the two sections of `CacheGet` -/

section Cache

variable {α : Type} {c : Cache α} {ps : List (ℕ × Lib.Entry (List UInt8) α)} {key : List UInt8}
  {data : α} {TTL now : ℤ} {held : ℕ → Prop}

/-- The section stores in the list node, in which there is an entry of the same key. -/
def Cache.Overwrites (c : Cache α) (lkn : ℕ) : Section α → Prop
  | .put key _ _ _ => ∃ n ∈ c.hTab.entries, n.name = key ∧ n.data = lkn
  | .find _ _ => False
  | .copy => False

instance (c : Cache α) : DecidablePred c.Collapses
  | .put _ _ _ _ => inferInstanceAs (Decidable (_ ∧ _ ∧ _ ∧ _))
  | .get _ _ => inferInstanceAs (Decidable (_ ∧ _ ∧ _))

instance (c : Cache α) (lkn : ℕ) : DecidablePred (c.Overwrites lkn : Section α → Prop)
  | .put _ _ _ _ => inferInstanceAs (Decidable (∃ n ∈ c.hTab.entries, _))
  | .find _ _ => inferInstanceAs (Decidable False)
  | .copy => inferInstanceAs (Decidable False)

/-- A cache has its entries in one way only. -/
theorem Cache.Rep.mem_of_rep {qs : List (ℕ × Lib.Entry (List UInt8) α)} (h : c.Rep ps) (h' : c.Rep qs)
    {p : ℕ × Lib.Entry (List UInt8) α} (hp : p ∈ ps) : p ∈ qs := by
  obtain ⟨q, hq, hqp⟩ := List.mem_map.mp (h'.table.mem_iff.mp (h.table.mem_iff.mpr
    (List.mem_map_of_mem hp)))
  obtain ⟨-, haddr⟩ := Node.mk.inj hqp
  have hdata := h'.data q hq
  rw [haddr, h.data p hp] at hdata
  obtain ⟨hkey, hsave, hTTL, hvalue⟩ := SaveUnit.mk.inj (Option.some.inj (Option.some.inj hdata))
  have hpq : p = q := by
    obtain ⟨a, e⟩ := p
    obtain ⟨b, f⟩ := q
    cases e
    cases f
    simp_all
  rw [hpq]
  exact hq

/-- `CachePut` leaves the entries of the list nodes that it neither takes out nor overwrites. -/
theorem put_keeps (h : c.Rep ps) (hlen : 0 < c.hTab.len) (hmax : 1 ≤ c.maxSize) (hfits : Fits key)
    (hchain : ¬ c.Collapses (.put key data TTL now))
    (hspare : ∀ lkn, held lkn → ¬ c.Removes lkn (.put key data TTL now) ∧
      ¬ c.Overwrites lkn (.put key data TTL now)) :
    ∃ c' ps', cachePut c key data TTL now = .ok c' ∧ c'.Rep ps' ∧
      ps'.map (·.2) = Lru.put c.maxSize.toNat key data TTL now (ps.map (·.2)) ∧
      c'.maxSize = c.maxSize ∧ 0 < c'.hTab.len ∧ ∀ p ∈ ps, held p.1 → p ∈ ps' := by
  have hspec := cachePut_spec h hlen hmax hfits data TTL now
  rw [if_neg (mt h.collapses_put_iff.mpr hchain)] at hspec
  obtain ⟨c', ps', hput, hrep', hps', hm, hlen'⟩ := hspec
  refine ⟨c', ps', hput, hrep', hps', hm, hlen', fun p hp hheld => ?_⟩
  obtain ⟨hkept, hsame⟩ := hspare p.1 hheld
  -- In each of the cases of the call, the node stays where it is.
  by_cases hk : key ∈ ps.map (·.2.key)
  · obtain ⟨l, q, r, rfl, hq⟩ := exists_split_of_key hk
    obtain ⟨c₁, hok, hrep, -, -⟩ := cachePut_of_mem h hlen hq data TTL now
    obtain rfl := Except.ok.inj (hok.symm.trans hput)
    rcases List.mem_cons.mp (List.perm_middle.mem_iff.mp hp) with rfl | hp
    · exact absurd ⟨tableNode p, h.table.mem_iff.mpr (List.mem_map_of_mem (by simp)), hq, rfl⟩ hsame
    · exact hrep.mem_of_rep hrep' (List.mem_cons_of_mem _ hp)
  · rcases h.bound.lt_or_eq with hlt | heq
    · obtain ⟨c₁, nod, hok, hrep, -, -⟩ := cachePut_of_lt h hlen hfits hk hlt data TTL now
      obtain rfl := Except.ok.inj (hok.symm.trans hput)
      exact hrep.mem_of_rep hrep' (List.mem_cons_of_mem _ hp)
    · rcases List.eq_nil_or_concat' ps with rfl | ⟨l, q, rfl⟩
      · cases hp
      have hfull := cachePut_of_full h hlen hfits hk heq data TTL now
      split_ifs at hfull
      · rw [hfull] at hput
        cases hput
      obtain ⟨c₁, nod, hok, hrep, -, -⟩ := hfull
      obtain rfl := Except.ok.inj (hok.symm.trans hput)
      rcases List.mem_append.mp hp with hp | hp
      · exact hrep.mem_of_rep hrep' (List.mem_cons_of_mem _ hp)
      · -- The last entry is the one that goes.
        obtain rfl := List.mem_singleton.mp hp
        refine absurd ⟨(h.len.trans heq).ge, fun n hn hname => ?_, getLastLinkNode_of_concat h⟩ hkept
        exact hk (h.mem_keys_iff.mpr ⟨n, hn, hname⟩)

/-- What the first section of `CacheGet` finds is what the reference map has, and the entries of the
nodes that it does not take out stay. -/
theorem find_keeps (h : c.Rep ps) (hlen : 0 < c.hTab.len)
    (hchain : ¬ c.Collapses (.get key now))
    (hspare : ∀ lkn, held lkn → ¬ c.Removes lkn (.find key now)) :
    ∃ r c' ps', cacheGetLocked c key now = .ok (r, c') ∧ c'.Rep ps' ∧
      ps'.map (·.2) = (Lru.get key now (ps.map (·.2))).2 ∧ c'.maxSize = c.maxSize ∧
      0 < c'.hTab.len ∧ (∀ p ∈ ps, held p.1 → p ∈ ps') ∧
      match r with
      | none => (Lru.get key now (ps.map (·.2))).1 = none
      | some lkn => ∃ p ∈ ps', p.1 = lkn ∧
          (Lru.get key now (ps.map (·.2))).1 = some p.2.value := by
  have hnd : (Lru.keys (ps.map (·.2))).Nodup := by
    rw [Cache.Rep.keys_eq]
    exact h.keys
  have hspec := cacheGetLocked_spec h hlen key now
  generalize hrun : cacheGetLocked c key now = x at hspec
  cases hspec with
  | absent hk =>
    have hget : Lru.get key now (ps.map (·.2)) = (none, ps.map (·.2)) :=
      Lru.get_of_notMem now (by rw [Cache.Rep.keys_eq]; exact hk)
    exact ⟨none, c, ps, rfl, h, by rw [hget], rfl, hlen, fun _ hp _ => hp, by rw [hget]⟩
  | @expired c' l p r hsplit hp hexp hrep hm hfree hzero =>
    subst hsplit
    have hget : Lru.get key now ((l ++ p :: r).map (·.2)) = (none, (l ++ r).map (·.2)) := by
      rw [List.map_append, List.map_cons] at hnd ⊢
      rw [Lru.get_of_split now hnd hp, if_pos hexp, List.map_append]
    refine ⟨none, c', l ++ r, rfl, hrep, by rw [hget], hm, ?_, fun q hq hheld => ?_, by rw [hget]⟩
    · refine Nat.pos_of_ne_zero fun h0 => hchain (h.collapses_get_iff.mpr ?_)
      obtain ⟨h1, hnil⟩ := hzero.mp h0
      obtain ⟨rfl, rfl⟩ := List.append_eq_nil_iff.mp hnil
      exact ⟨h1, rfl, p, by simp, hp, hexp⟩
    · rcases List.mem_cons.mp (List.perm_middle.mem_iff.mp hq) with rfl | hq
      · -- The node that expired is not held.
        refine absurd ?_ (hspare q.1 hheld)
        exact ⟨⟨tableNode q, h.table.mem_iff.mpr (List.mem_map_of_mem (by simp)), hp, rfl⟩,
          _, h.data q (by simp), hexp⟩
      · exact hq
  | @hit c' l p r hsplit hp hexp hrep hm htab =>
    subst hsplit
    have hget : Lru.get key now ((l ++ p :: r).map (·.2)) =
        (some p.2.value, (p :: (l ++ r)).map (·.2)) := by
      rw [List.map_append, List.map_cons] at hnd ⊢
      rw [Lru.get_of_split now hnd hp, if_neg hexp, List.map_cons, List.map_append]
    refine ⟨some p.1, c', p :: (l ++ r), rfl, hrep, by rw [hget], hm, by rw [htab]; exact hlen,
      fun q hq _ => List.perm_middle.mem_iff.mp hq, p, List.mem_cons_self, rfl, by rw [hget]⟩

end Cache

/-! ## Programs that copy what they found -/

/-- An operation that is neither of the two sections of `CacheGet`. -/
def Op.Whole : Op → Prop
  | .cacheGetLocked _ => False
  | .cacheGetCopy _ => False
  | _ => True

/-- A program that copies from an entry right after it found it, and at no other time, and for which the
node of the entry does not matter then. -/
inductive Tidy {α : Type} : M α → Prop
  | pure (a : α) : Tidy (.pure a)
  | fail (e : Fault) : Tidy (.fail e)
  | call {o : Op} {k : Res o → M α} (whole : o.Whole) (rest : ∀ r, Tidy (k r)) : Tidy (.call o k)
  | get {key : List UInt8} {k : Option ℕ → M α} {k' : Item → M α} (miss : Tidy (k none))
    (hit : ∀ lkn, k (some lkn) = .call (.cacheGetCopy lkn) k') (rest : ∀ it, Tidy (k' it)) :
    Tidy (.call (.cacheGetLocked key) k)

namespace Tidy

variable {α β : Type} {fr : FileReader}

theorem ofExcept {x : Run α} : Tidy (compute x) := by
  cases x with
  | ok a => exact .pure a
  | error e => exact .fail e

theorem op {o : Op} (ho : o.Whole) : Tidy (DnsRelayer.call o) := .call ho fun r => .pure r

theorem bind {p : M α} {f : α → M β} (hp : Tidy p) (hf : ∀ a, Tidy (f a)) : Tidy (p >>= f) := by
  induction hp with
  | pure a => exact hf a
  | fail e => exact .fail e
  | call whole _ ih => exact .call whole ih
  | @get key k k' _ hit _ ihmiss ihrest =>
    refine @get β key (fun r => (k r).bind f) (fun it => (k' it).bind f) ihmiss (fun lkn => ?_) ihrest
    rw [hit]
    rfl

theorem getItem (name : List UInt8) (type : UInt16) : Tidy (getItem name type) :=
  ofExcept.bind fun _ => @get _ _ _ (fun it => .pure (some it)) (.pure none) (fun _ => rfl)
    fun it => .pure (some it)

theorem putItem (type : UInt16) (it : Item) : Tidy (putItem type it) := by
  unfold DnsRelayer.putItem
  split
  · exact .pure ()
  · exact ofExcept.bind fun _ => ofExcept.bind fun _ => (@op .time trivial).bind fun _ =>
      @op (.cachePut _ _ _) trivial

theorem answerItem (msg : Message) (it : Item) : Tidy (answerItem msg it) :=
  ofExcept.bind fun _ => (@op .time trivial).bind fun _ => .pure _

theorem storeRR (it : Item) (rr : RR) : Tidy (storeRR it rr) :=
  (@op .time trivial).bind fun _ => ofExcept

theorem reply (parg : Arg) (msg : Message) : Tidy (reply parg msg) := by
  refine ofExcept.bind fun bytes => ?_
  split_ifs
  · exact .fail _
  · exact @op (.sendto _ _) trivial

theorem replyFromCache (parg : Arg) (msg : Message) (name : List UInt8) (qtype : UInt16) :
    Tidy (replyFromCache parg msg name qtype) := by
  unfold DnsRelayer.replyFromCache
  split
  · refine ofExcept.bind fun name => (getItem _ _).bind fun r => ?_
    rcases r with - | it
    · dsimp only
      split
      · refine (getItem _ _).bind fun r => ?_
        rcases r with - | it
        · exact .pure _
        refine (getItem _ _).bind fun r => ?_
        rcases r with - | tit
        · exact .pure _
        exact (answerItem _ _).bind fun msg => (answerItem _ _).bind fun msg =>
          (reply _ _).bind fun _ => .pure _
      · exact .pure _
    · exact (answerItem _ _).bind fun msg => (reply _ _).bind fun _ => .pure _
  · exact .pure _

theorem getRecord (domain : List UInt8) : Tidy (getRecord fr domain) := by
  refine ofExcept.bind fun r => ?_
  cases r with
  | none => exact .pure _
  | some cur =>
    refine (@op (.fseek _) trivial).bind fun _ => (@op (.fscanf _ _) trivial).bind fun r => ?_
    cases r with
    | none => exact .fail _
    | some ip => exact .pure _

theorem replyFromFile (parg : Arg) (msg : Message) (name : List UInt8) (qtype : UInt16) :
    Tidy (replyFromFile fr parg msg name qtype) := by
  unfold DnsRelayer.replyFromFile
  split_ifs
  · refine ofExcept.bind fun name => (getRecord _).bind fun r => ?_
    cases r with
    | none => exact .pure _
    | some ip =>
      dsimp only
      cases inet_pton ip with
      | none => exact .fail _
      | some addr =>
        exact (storeRR _ _).bind fun tmp => (putItem _ _).bind fun _ => (answerItem _ _).bind
          fun msg => (reply _ _).bind fun _ => .pure _
  · exact .pure _

theorem collect (rrs : List RR) (items : Items) : Tidy (collect rrs items) := by
  induction rrs generalizing items with
  | nil => exact .pure _
  | cons rr rrs ih =>
    unfold DnsRelayer.collect
    split_ifs
    · exact (storeRR _ _).bind fun _ => ih _
    · exact (storeRR _ _).bind fun _ => ih _
    · exact (storeRR _ _).bind fun _ => ih _
    · exact ih _

theorem relay (parg : Arg) (msg : Message) (qtype : UInt16) : Tidy (relay parg msg qtype) := by
  refine (@op .Socket trivial).bind fun _ => (@op (.sendtoServer _) trivial).bind fun sent => ?_
  cases sent with
  | false => exact (@op (.showRequest _) trivial).bind fun _ => reply _ _
  | true =>
    refine (@op .recvfrom trivial).bind fun r => ?_
    cases r with
    | none => exact reply _ _
    | some d =>
      refine (@op .close trivial).bind fun _ => (@op (.sendto _ _) trivial).bind fun _ => ?_
      exact ofExcept.bind fun _ => (collect _ _).bind fun _ => (putItem _ _).bind fun _ =>
        (putItem _ _).bind fun _ => putItem _ _

/-- The handler copies an item when it has found it, and at no other time. -/
theorem handler (parg : Arg) : Tidy (handler fr parg) := by
  refine ofExcept.bind fun _ => (@op (.showRequest _) trivial).bind fun _ => ?_
  refine (replyFromCache _ _ _ _).bind fun replied => ?_
  cases replied with
  | true => exact .pure _
  | false =>
    refine (replyFromFile _ _ _ _).bind fun replied => ?_
    cases replied with
    | true => exact .pure _
    | false => exact relay _ _ _

end Tidy

/-! ## The relation of the two servers -/

/-- The workers of the server, with what their handlers called. -/
abbrev LoggedWorkers (ι : Type) := Recorded ι Server Arg Op Res Fault

/-- The step of the server, with what is recorded of it. -/
def loggedStep {ι : Type} [DecidableEq ι] (fr : FileReader) :
    LoggedWorkers ι → ServerAction ι → Run (LoggedWorkers ι) :=
  Recorded.step (handler fr) (perform fr) Server.setClock

/-- What is recorded does not matter. -/
theorem exec_loggedStep {ι : Type} [DecidableEq ι] (fr : FileReader) (s : LoggedWorkers ι)
    (as : List (ServerAction ι)) :
    (exec (loggedStep fr) s as).map Recorded.pool = exec (serverStep fr) s.pool as :=
  s.exec_pool as

/-- The server at its start. -/
def loggedInit {ι : Type} (fr : FileReader) (cachesize now : ℤ) : LoggedWorkers ι :=
  Recorded.init ⟨now, createCache cachesize, fr.fd.length, 0, [], []⟩

/-- The list node has been found by a worker, which is about to copy from it. -/
def Pending {ι : Type} (w : Workers ι) (lkn : ℕ) : Prop :=
  ∃ t k, w.threads t = some (.call (.cacheGetCopy lkn) k)

/-- The operation leaves the table a chain, and the nodes that are pending as they are; its key can be
kept. -/
def Spared {ι : Type} (w : Workers ι) : Op → Prop
  | .cacheGetLocked key => ¬ w.shared.cache.Collapses (.get key w.shared.now) ∧
      ∀ lkn, Pending w lkn → ¬ w.shared.cache.Removes lkn (.find key w.shared.now)
  | .cachePut key it TTL => Fits key ∧ ¬ w.shared.cache.Collapses (.put key it TTL w.shared.now) ∧
      ∀ lkn, Pending w lkn → ¬ w.shared.cache.Removes lkn (.put key it TTL w.shared.now) ∧
        ¬ w.shared.cache.Overwrites lkn (.put key it TTL w.shared.now)
  | _ => True

/-- The node from which a worker is about to copy. -/
def pendingOf : Option (M Unit) → Option ℕ
  | some (.call (.cacheGetCopy lkn) _) => some lkn
  | _ => none

theorem pending_iff {ι : Type} {w : Workers ι} {lkn : ℕ} :
    Pending w lkn ↔ ∃ t, lkn ∈ pendingOf (w.threads t) := by
  refine exists_congr fun t => ⟨?_, fun h => ?_⟩
  · rintro ⟨k, hk⟩
    rw [hk]
    rfl
  · unfold pendingOf at h
    split at h
    · rename_i k hk
      cases h
      exact ⟨k, hk⟩
    · cases h

instance {ι : Type} [Fintype ι] (w : Workers ι) (P : ℕ → Prop) [DecidablePred P] :
    Decidable (∀ lkn, Pending w lkn → P lkn) :=
  decidable_of_iff (∀ t, ∀ lkn ∈ pendingOf (w.threads t), P lkn)
    ⟨fun h lkn hlkn => (pending_iff.mp hlkn).elim fun t ht => h t lkn ht,
      fun h t lkn hlkn => h lkn (pending_iff.mpr ⟨t, hlkn⟩)⟩

instance {ι : Type} [Fintype ι] (w : Workers ι) : DecidablePred (Spared w)
  | .cacheGetLocked _ => inferInstanceAs (Decidable (_ ∧ ∀ lkn, Pending w lkn → _))
  | .cachePut _ _ _ => inferInstanceAs (Decidable (_ ∧ _ ∧ ∀ lkn, Pending w lkn → _ ∧ _))
  | .showRequest _ | .time | .cacheGetCopy _ | .fseek _ | .fscanf _ _ | .Socket | .close
  | .sendtoServer _ | .recvfrom | .sendto _ _ => inferInstanceAs (Decidable True)

/-- A step calls an operation only when the table keeps a chain and its key, and the nodes that are pending are
left as they are. -/
def Undisturbed {ι : Type} (w : LoggedWorkers ι) : ServerAction ι → Prop
  | .run t _ => ∀ o k, w.pool.threads t = some (.call o k) → Spared w.pool o
  | _ => True

instance {ι : Type} [Fintype ι] : DecidableRel (@Undisturbed ι)
  | _, .start _ _ => inferInstanceAs (Decidable True)
  | w, .run t _ => inferInstanceAs (Decidable (∀ o k, w.pool.threads t = some (.call o k) → _))
  | _, .outside _ => inferInstanceAs (Decidable True)

/-- The same call, up to the node of an entry. -/
inductive SameCall : HandlerCall → HandlerCall → Prop
  | same (c : HandlerCall) : SameCall c c
  | found (key : List UInt8) (lkn i : ℕ) :
    SameCall ⟨.cacheGetLocked key, some lkn⟩ ⟨.cacheGetLocked key, some i⟩
  | copied (lkn i : ℕ) (it : Item) : SameCall ⟨.cacheGetCopy lkn, it⟩ ⟨.cacheGetCopy i, it⟩

/-- A handler of the same request, with the same calls. -/
structure SameInvocation (i j : Invocation Arg Op Res) : Prop where
  job : i.job = j.job
  calls : List.Forall₂ SameCall i.calls j.calls

/-- A worker has the same to do on the cache with the entries `ps` and on the reference map, where the
items `found` were found. -/
inductive SameThread (ps : List (ℕ × Lib.Entry (List UInt8) Item)) (found : List Item) :
    Option (M Unit) → Option (M Unit) → Prop
  | free : SameThread ps found none none
  | same {p : M Unit} (tidy : Tidy p) : SameThread ps found (some p) (some p)
  /-- Both are about to copy the item of an entry. -/
  | copying {p : ℕ × Lib.Entry (List UInt8) Item} {i : ℕ} {k : Item → M Unit} (mem : p ∈ ps)
    (at_eq : found[i]? = some p.2.value) (rest : ∀ it, Tidy (k it)) :
    SameThread ps found (some (.call (.cacheGetCopy p.1) k)) (some (.call (.cacheGetCopy i) k))

/-- The cache has the entries of the reference map, and anything else is the same. -/
structure InStep {ι : Type} (maxSize : ℕ) (ps : List (ℕ × Lib.Entry (List UInt8) Item))
    (w : LoggedWorkers ι) (v : RefWorkers ι) : Prop where
  same : { v.pool.shared.server with cache := w.pool.shared.cache } = w.pool.shared
  rep : w.pool.shared.cache.Rep ps
  entries : ps.map (·.2) = v.pool.shared.entries
  maxSize_eq : w.pool.shared.cache.maxSize = maxSize
  room : 1 ≤ maxSize
  chain : 0 < w.pool.shared.cache.hTab.len
  threads : ∀ t, SameThread ps v.pool.shared.found (w.pool.threads t) (v.pool.threads t)
  going : ∀ t, Option.Rel SameInvocation (w.going t) (v.going t)
  ended : List.Forall₂ SameInvocation w.ended v.ended

variable {ι : Type} [DecidableEq ι] {maxSize : ℕ} {fr : FileReader}
  {ps ps' : List (ℕ × Lib.Entry (List UInt8) Item)} {w : LoggedWorkers ι} {v : RefWorkers ι}

/-- A worker that is not concerned has the same to do when what is found stays, and so does the entry
that it is about to copy. -/
theorem SameThread.mono {found found' : List Item} {p q : Option (M Unit)}
    (h : SameThread ps found p q) (hfound : found <+: found')
    (hps : ∀ lkn k, p = some (.call (.cacheGetCopy lkn) k) → ∀ e ∈ ps, e.1 = lkn → e ∈ ps') :
    SameThread ps' found' p q := by
  cases h with
  | free => exact .free
  | same tidy => exact .same tidy
  | @copying p i k mem at_eq rest =>
    refine .copying (hps p.1 k rfl p mem rfl) ?_ rest
    obtain ⟨more, rfl⟩ := hfound
    obtain ⟨hi, -⟩ := List.getElem?_eq_some_iff.mp at_eq
    rwa [List.getElem?_append_left hi]

/-- A worker calls an operation on both sides, after which the two servers are alike again. -/
theorem InStep.advance (h : InStep maxSize ps w v) {t : ι} {o o' : Op} {r : Res o} {r' : Res o'}
    {p q : M Unit} {σ : Server} {τ : RefServer} (hcall : SameCall ⟨o, r⟩ ⟨o', r'⟩)
    (hsame : { τ.server with cache := σ.cache } = σ) (hrep : σ.cache.Rep ps')
    (hentries : ps'.map (·.2) = τ.entries) (hmax : σ.cache.maxSize = maxSize)
    (hchain : 0 < σ.cache.hTab.len) (hfound : v.pool.shared.found <+: τ.found)
    (hkept : ∀ e ∈ ps, Pending w.pool e.1 → e ∈ ps') (hthread : SameThread ps' τ.found (some p) (some q)) :
    InStep maxSize ps'
      { w with
        pool := ⟨σ, Function.update w.pool.threads t (some p)⟩
        going := Function.update w.going t
          ((w.going t).map fun i => { i with calls := i.calls ++ [⟨o, r⟩] }) }
      { v with
        pool := ⟨τ, Function.update v.pool.threads t (some q)⟩
        going := Function.update v.going t
          ((v.going t).map fun i => { i with calls := i.calls ++ [⟨o', r'⟩] }) } := by
  refine ⟨hsame, hrep, hentries, hmax, h.room, hchain, fun u => ?_, fun u => ?_, h.ended⟩
  · by_cases hut : u = t
    · subst hut
      simp only [Function.update_self]
      exact hthread
    · simp only [Function.update_of_ne hut]
      refine (h.threads u).mono hfound fun lkn k hp e he heq => hkept e he ?_
      exact ⟨u, k, heq ▸ hp⟩
  · by_cases hut : u = t
    · subst hut
      simp only [Function.update_self]
      have hgoing := h.going u
      generalize w.going u = i at hgoing ⊢
      generalize v.going u = j at hgoing ⊢
      cases hgoing with
      | none => exact .none
      | some hij =>
        exact .some ⟨hij.job, List.rel_append (R := SameCall) hij.calls (.cons hcall .nil)⟩
    · simp only [Function.update_of_ne hut]
      exact h.going u

/-! ## One step -/

omit [DecidableEq ι] in
/-- The server of the reference is that of the cache, with a cache that is not used. -/
theorem InStep.server_eq (h : InStep maxSize ps w v) :
    v.pool.shared.server = { w.pool.shared with cache := v.pool.shared.server.cache } := by
  rw [← h.same]

/-- An operation that does not use the cache does with another one what it does with this one, and fails
when it does. -/
theorem perform_map_of_plain {o : Op} (ho : o.Plain) (e : Env) (t : Server) (c : Cache Item) :
    perform fr o e { t with cache := c } =
      (perform fr o e t).map fun x => (x.1, { x.2 with cache := c }) := by
  cases o with
  | cacheGetLocked | cacheGetCopy | cachePut => exact ho.elim
  | showRequest q_type =>
    simp only [perform]
    split_ifs <;> rfl
  | fscanf domain cur =>
    simp only [perform]
    cases file_reader_scan fr HANDLER_IP_SIZE t.pos <;> rfl
  | Socket =>
    simp only [perform]
    split_ifs <;> rfl
  | recvfrom =>
    simp only [perform]
    cases e.response <;> rfl
  | _ => rfl

/-- What a step of a worker that calls an operation does, when it goes on. -/
theorem loggedStep_call {t : ι} {e : Env} {o : Op} {k : Res o → M Unit}
    (ht : w.pool.threads t = some (.call o k)) :
    loggedStep fr w (.run t e) = perform fr o e w.pool.shared >>= fun x => .ok { w with
      pool := ⟨x.2, Function.update w.pool.threads t (some (k x.1))⟩
      going := Function.update w.going t
        ((w.going t).map fun i => { i with calls := i.calls ++ [⟨o, x.1⟩] }) } := by
  simp only [loggedStep, Recorded.step, ht]

theorem refStep_call {t : ι} {e : Env} {o : Op} {k : Res o → M Unit}
    (ht : v.pool.threads t = some (.call o k)) :
    refStep fr maxSize v (.run t e) = performRef fr maxSize o e v.pool.shared >>= fun x => .ok { v with
      pool := ⟨x.2, Function.update v.pool.threads t (some (k x.1))⟩
      going := Function.update v.going t
        ((v.going t).map fun i => { i with calls := i.calls ++ [⟨o, x.1⟩] }) } := by
  simp only [refStep, Recorded.step, ht]

/-- An operation that does not use the cache. -/
theorem InStep.plain (h : InStep maxSize ps w v) {t : ι} {e : Env} {o : Op} {k : Res o → M Unit}
    (ho : o.Plain) (hk : ∀ r, Tidy (k r)) (ht : w.pool.threads t = some (.call o k))
    (ht' : v.pool.threads t = some (.call o k)) :
    Alike (fun w v => ∃ ps, InStep maxSize ps w v) (loggedStep fr w (.run t e))
      (refStep fr maxSize v (.run t e)) := by
  have hplain := @perform_map_of_plain fr o ho e w.pool.shared v.pool.shared.server.cache
  rw [← h.server_eq] at hplain
  rw [loggedStep_call ht, refStep_call ht', performRef_of_plain ho, hplain]
  cases hperf : perform fr o e w.pool.shared with
  | error err => exact .error err
  | ok x =>
    obtain ⟨-, hcache⟩ := perform_of_plain ho e _ w.pool.shared.cache hperf
    refine .ok ⟨ps, h.advance (.same _) rfl (hcache ▸ h.rep) h.entries (hcache ▸ h.maxSize_eq)
      (hcache ▸ h.chain) (List.prefix_refl _) (fun _ he _ => he) (.same (hk x.1))⟩

/-- `CachePut`. -/
theorem InStep.put (h : InStep maxSize ps w v) {t : ι} {e : Env} {key : List UInt8} {it : Item}
    {TTL : ℤ} {k : Unit → M Unit} (hk : ∀ r, Tidy (k r))
    (ht : w.pool.threads t = some (.call (.cachePut key it TTL) k))
    (ht' : v.pool.threads t = some (.call (.cachePut key it TTL) k))
    (hspared : Spared w.pool (.cachePut key it TTL)) :
    Alike (fun w v => ∃ ps, InStep maxSize ps w v) (loggedStep fr w (.run t e))
      (refStep fr maxSize v (.run t e)) := by
  obtain ⟨hfits, hchain, hkeeps⟩ := hspared
  obtain ⟨c', ps', hput, hrep', hps', hm, hlen', hkept⟩ := put_keeps h.rep h.chain
    (by rw [h.maxSize_eq]; exact_mod_cast h.room) hfits hchain hkeeps
  have hnow : v.pool.shared.server.now = w.pool.shared.now := by rw [h.server_eq]
  have hmax : w.pool.shared.cache.maxSize.toNat = maxSize := by rw [h.maxSize_eq, Int.toNat_natCast]
  rw [loggedStep_call ht, refStep_call ht']
  simp only [perform, performRef, hput, Run.ok_bind]
  refine .ok ⟨ps', h.advance (.same _) ?_ hrep' ?_ (hm.trans h.maxSize_eq) hlen' (List.prefix_refl _)
    hkept (.same (hk ()))⟩
  · rw [h.server_eq]
  · rw [hps', hmax, h.entries, hnow]

/-- The first section of `CacheGet`. -/
theorem InStep.find (h : InStep maxSize ps w v) {t : ι} {e : Env} {key : List UInt8}
    {k : Option ℕ → M Unit} {k' : Item → M Unit} (hmiss : Tidy (k none))
    (hhit : ∀ lkn, k (some lkn) = .call (.cacheGetCopy lkn) k') (hrest : ∀ it, Tidy (k' it))
    (ht : w.pool.threads t = some (.call (.cacheGetLocked key) k))
    (ht' : v.pool.threads t = some (.call (.cacheGetLocked key) k))
    (hspared : Spared w.pool (.cacheGetLocked key)) :
    Alike (fun w v => ∃ ps, InStep maxSize ps w v) (loggedStep fr w (.run t e))
      (refStep fr maxSize v (.run t e)) := by
  obtain ⟨r, c', ps', hfind, hrep', hps', hm, hlen', hkept, hr⟩ := find_keeps h.rep h.chain hspared.1
    hspared.2
  have hnow : v.pool.shared.server.now = w.pool.shared.now := by rw [h.server_eq]
  rw [h.entries, ← hnow] at hps' hr
  rw [loggedStep_call ht, refStep_call ht']
  simp only [perform, performRef, hfind, Run.ok_bind]
  cases hget : Lru.get key v.pool.shared.server.now v.pool.shared.entries with
  | mk found entries =>
  rw [hget] at hps' hr
  cases r with
  | none =>
    obtain rfl : found = none := hr
    refine .ok ⟨ps', h.advance (.same _) ?_ hrep' hps' (hm.trans h.maxSize_eq) hlen'
      (List.prefix_refl _) hkept (.same hmiss)⟩
    rw [h.server_eq]
  | some lkn =>
    obtain ⟨p, hp, rfl, rfl⟩ := hr
    refine .ok ⟨ps', h.advance (.found key p.1 _) ?_ hrep' hps' (hm.trans h.maxSize_eq) hlen'
      (List.prefix_append _ _) hkept ?_⟩
    · rw [h.server_eq]
    · rw [hhit, hhit]
      exact .copying hp (by simp) hrest

/-- The second section of `CacheGet`. -/
theorem InStep.copy (h : InStep maxSize ps w v) {t : ι} {e : Env}
    {p : ℕ × Lib.Entry (List UInt8) Item} {i : ℕ} {k : Item → M Unit} (hp : p ∈ ps)
    (hi : v.pool.shared.found[i]? = some p.2.value) (hk : ∀ it, Tidy (k it))
    (ht : w.pool.threads t = some (.call (.cacheGetCopy p.1) k))
    (ht' : v.pool.threads t = some (.call (.cacheGetCopy i) k)) :
    Alike (fun w v => ∃ ps, InStep maxSize ps w v) (loggedStep fr w (.run t e))
      (refStep fr maxSize v (.run t e)) := by
  have hcopy : cacheGetCopy w.pool.shared.cache p.1 = .ok p.2.value := by
    simp only [cacheGetCopy, h.rep.getData hp, Run.ok_bind]
    rfl
  rw [loggedStep_call ht, refStep_call ht']
  simp only [perform, performRef, hcopy, hi, Run.ok_bind]
  exact .ok ⟨ps, h.advance (.copied p.1 i _) h.same h.rep h.entries h.maxSize_eq h.chain
    (List.prefix_refl _) (fun _ he _ => he) (.same (hk _))⟩

/-- A worker that ends its handler, or takes a request, has nothing to do with the cache. -/
theorem InStep.update (h : InStep maxSize ps w v) {t : ι} {p : Option (M Unit)}
    {i j : Option (Invocation Arg Op Res)} {is js : List (Invocation Arg Op Res)}
    (hp : SameThread ps v.pool.shared.found p p) (hij : Option.Rel SameInvocation i j)
    (hended : List.Forall₂ SameInvocation is js) :
    InStep maxSize ps
      { pool := { w.pool with threads := Function.update w.pool.threads t p }
        going := Function.update w.going t i, ended := is }
      { pool := { v.pool with threads := Function.update v.pool.threads t p }
        going := Function.update v.going t j, ended := js } := by
  refine ⟨h.same, h.rep, h.entries, h.maxSize_eq, h.room, h.chain, fun u => ?_, fun u => ?_, hended⟩
  · by_cases hut : u = t
    · subst hut
      simpa only [Function.update_self] using hp
    · simpa only [Function.update_of_ne hut] using h.threads u
  · by_cases hut : u = t
    · subst hut
      simpa only [Function.update_self] using hij
    · simpa only [Function.update_of_ne hut] using h.going u

/-- A step that leaves the nodes that are pending as they are takes the two servers to where they are
alike again, or fails on both sides. -/
theorem InStep.step (h : InStep maxSize ps w v) (a : ServerAction ι) (ha : Undisturbed w a) :
    Alike (fun w v => ∃ ps, InStep maxSize ps w v) (loggedStep fr w a) (refStep fr maxSize v a) := by
  cases a with
  | start t parg =>
    have ht := h.threads t
    generalize hp : w.pool.threads t = p at ht
    generalize hq : v.pool.threads t = q at ht
    simp only [loggedStep, refStep, Recorded.step, hp, hq]
    cases ht with
    | free => exact .ok ⟨ps, h.update (.same (Tidy.handler parg)) (.some ⟨rfl, .nil⟩) h.ended⟩
    | same _ => exact .ok ⟨ps, h⟩
    | copying _ _ _ => exact .ok ⟨ps, h⟩
  | run t e =>
    have ht := h.threads t
    generalize hp : w.pool.threads t = p at ht
    generalize hq : v.pool.threads t = q at ht
    cases ht with
    | free =>
      simp only [loggedStep, refStep, Recorded.step, hp, hq]
      exact .ok ⟨ps, h⟩
    | same tidy =>
      cases tidy with
      | pure a =>
        simp only [loggedStep, refStep, Recorded.step, hp, hq]
        refine .ok ⟨ps, h.update .free .none ?_⟩
        have hgoing := h.going t
        generalize w.going t = i at hgoing ⊢
        generalize v.going t = j at hgoing ⊢
        cases hgoing with
        | none => exact h.ended
        | some hij => exact .cons hij h.ended
      | fail err =>
        simp only [loggedStep, refStep, Recorded.step, hp, hq]
        exact .error err
      | @call o k whole rest =>
        have hspared := ha o k hp
        have hplain := fun ho : o.Plain => @InStep.plain _ _ _ fr _ _ _ h t e o k ho rest hp hq
        cases o with
        | cacheGetLocked key => exact whole.elim
        | cacheGetCopy lkn => exact whole.elim
        | cachePut key it TTL => exact h.put rest hp hq hspared
        | _ => exact hplain trivial
      | get miss hit rest => exact h.find miss hit rest hp hq (ha _ _ hp)
    | copying mem at_eq rest => exact h.copy mem at_eq rest hp hq
  | outside now =>
    refine .ok ⟨ps, ?_⟩
    exact ⟨congrArg (Server.setClock now) h.same, h.rep, h.entries, h.maxSize_eq, h.room, h.chain,
      h.threads, h.going, h.ended⟩

/-! ## Runs -/

omit [DecidableEq ι] in
/-- The two servers are alike at their start. -/
theorem inStep_init (fr : FileReader) {maxSize : ℕ} (hmax : 1 ≤ maxSize) (hint : maxSize < 2 ^ 31)
    (now : ℤ) : InStep maxSize [] (loggedInit fr maxSize now : LoggedWorkers ι) (refInit fr now) :=
  ⟨rfl, createCache_rep hint, rfl, rfl, hmax, createCache_chain _, fun _ => .free, fun _ => .none, .nil⟩

omit [DecidableEq ι] in
theorem InStep.implements (h : InStep maxSize ps w v) :
    Implements maxSize w.pool.shared v.pool.shared :=
  ⟨h.same, ⟨ps, h.rep, h.entries⟩, h.maxSize_eq, h.room, h.chain⟩

/-- **Refinement.** In every run of the server in which the table keeps a chain, keys are kept whole, and no
step takes out or overwrites an entry that a worker has found and not yet copied, whatever the order of
the steps, the server does what it does on the reference map: it fails when that fails, and otherwise has
its entries, sent and received the same datagrams, and each handler had the same results of its calls, up
to where entries are in memory. -/
theorem server_refines (fr : FileReader) {maxSize : ℕ} (hmax : 1 ≤ maxSize) (hint : maxSize < 2 ^ 31)
    (now : ℤ) {as : List (ServerAction ι)}
    (has : Meets (loggedStep fr) Undisturbed (loggedInit fr maxSize now) as) :
    ∀ pre, pre <+: as → Alike (fun w v => Implements maxSize w.pool.shared v.pool.shared ∧
        (∀ t, Option.Rel SameInvocation (w.going t) (v.going t)) ∧
        List.Forall₂ SameInvocation w.ended v.ended)
      (exec (loggedStep fr) (loggedInit fr maxSize now) pre)
      (exec (refStep fr maxSize) (refInit fr now) pre) := by
  intro pre hpre
  have hruns := exec_alike (R := fun w v => ∃ ps, InStep maxSize ps w v)
    ⟨[], inStep_init fr hmax hint now⟩ (fun w v a h ha => h.elim fun ps h => h.step a ha) has pre hpre
  exact hruns.mono fun w v ⟨ps, h⟩ => ⟨h.implements, h.going, h.ended⟩

/-- The address of `a` is read from the file, and then two workers find it in the cache, the second before
the first has copied it. -/
def sharedHits : List (ServerAction Bool) :=
  .start false queryA :: List.replicate 11 (.run false silent) ++ [.start false queryA, .start true queryA] ++
    (List.replicate 6 [.run false silent, .run true silent]).flatten

theorem mem_sharedHits {a : ServerAction Bool} (ha : a ∈ sharedHits) :
    (∃ t, a = .start t queryA) ∨ ∃ t, a = .run t silent := by
  simp only [sharedHits, List.mem_append, List.mem_replicate, List.mem_cons, List.not_mem_nil,
    or_false, List.mem_flatten] at ha
  rcases ha with ((rfl | ⟨-, rfl⟩) | rfl | rfl) | ⟨as, ⟨-, rfl⟩, ha⟩
  · exact Or.inl ⟨false, rfl⟩
  · exact Or.inr ⟨false, rfl⟩
  · exact Or.inl ⟨false, rfl⟩
  · exact Or.inl ⟨true, rfl⟩
  · simp only [List.mem_cons, List.not_mem_nil, or_false] at ha
    rcases ha with rfl | rfl
    · exact Or.inr ⟨false, rfl⟩
    · exact Or.inr ⟨true, rfl⟩

/-- `server_refines` for two workers that share an entry. -/
theorem server_refines_shared : ∃ fr, file_reader_alloc twoLinesText = .ok fr ∧
    ∃ (w : LoggedWorkers Bool) (v : RefWorkers Bool),
      exec (loggedStep fr) (loggedInit fr (10 : ℕ) 0) sharedHits = .ok w ∧
      exec (refStep fr 10) (refInit fr 0) sharedHits = .ok v ∧ w.pool.shared.replies.length = 3 ∧
      Implements 10 w.pool.shared v.pool.shared ∧ List.Forall₂ SameInvocation w.ended v.ended := by
  have hrun : (file_reader_alloc twoLinesText).map (fun fr =>
      (decide (Meets (loggedStep fr) Undisturbed (loggedInit fr (10 : ℕ) 0) sharedHits),
        (exec (refStep fr 10) (refInit fr 0) sharedHits).map fun v =>
          v.pool.shared.server.replies.length)) = .ok (true, .ok 3) := by
    decide +kernel
  obtain ⟨fr, hfr, hrun⟩ := Run.map_eq_ok.mp hrun
  obtain ⟨hmeets, hreplies⟩ := Prod.mk.inj hrun
  obtain ⟨v, hv, hthree⟩ := Run.map_eq_ok.mp hreplies
  obtain ⟨w, hw, himpl, -, hended⟩ := (server_refines fr (by decide) (by decide) 0
    (of_decide_eq_true hmeets) _ (List.prefix_refl _)).exists_ok hv
  exact ⟨fr, hfr, w, v, hw, hv, by rw [← hthree, himpl.server_eq], himpl, hended⟩

/-! ## What follows for the server -/

theorem SameCall.flatMap {α : Type} {f : HandlerCall → List α}
    (hf : ∀ c c', SameCall c c' → f c = f c') {cs cs' : List HandlerCall}
    (h : List.Forall₂ SameCall cs cs') : cs.flatMap f = cs'.flatMap f := by
  induction h with
  | nil => rfl
  | cons hc _ ih => rw [List.flatMap_cons, List.flatMap_cons, hf _ _ hc, ih]

/-- A handler that replied on the reference map replied as well on the cache. -/
theorem SameInvocation.replied {lines : List Line} {i j : Invocation Arg Op Res}
    (h : SameInvocation i j) (hj : Replied lines j.job j.calls) : Replied lines i.job i.calls := by
  have hsent : i.calls.flatMap HandlerCall.sent = j.calls.flatMap HandlerCall.sent :=
    SameCall.flatMap (by rintro c c' (- | - | -) <;> rfl) h.calls
  have hreceived : i.calls.flatMap HandlerCall.received = j.calls.flatMap HandlerCall.received :=
    SameCall.flatMap (by rintro c c' (- | - | -) <;> rfl) h.calls
  have hgot : i.calls.flatMap HandlerCall.got = j.calls.flatMap HandlerCall.got :=
    SameCall.flatMap (by rintro c c' (- | - | -) <;> rfl) h.calls
  have hclock : i.calls.flatMap HandlerCall.clock = j.calls.flatMap HandlerCall.clock :=
    SameCall.flatMap (by rintro c c' (- | - | -) <;> rfl) h.calls
  obtain ⟨m, n, q, reply, hdecode, hques, hone, hmatching⟩ := hj
  refine ⟨m, n, q, reply, h.job ▸ hdecode, hques, by rw [hsent, hone, h.job], ?_⟩
  cases reply with
  | forwarded bytes =>
    simpa only [Matching, hreceived, hgot] using hmatching
  | built msg bytes =>
    simpa only [Matching, hreceived, hgot, hclock] using hmatching

/-- A step of the server is as the conditions say, there is a descriptor for a socket, the entries that are
pending are left as they are, and the table of the cache keeps a chain and the keys. -/
def OrderlyStep {ι : Type} (C : Conditions) (w : LoggedWorkers ι) (a : ServerAction ι) : Prop :=
  Undisturbed w a ∧ C.Step w.pool a ∧
    ∀ t e k, a = .run t e → w.pool.threads t = some (.call .Socket k) → e.opened = true

omit [DecidableEq ι] in
/-- What is asked of a step of the server is so of the step of the reference. -/
theorem InStep.refStep_of_orderly {C : Conditions} (h : InStep maxSize ps w v) {a : ServerAction ι}
    (ha : OrderlyStep C w a) : RefStep C v a := by
  obtain ⟨-, hstep, hopened⟩ := ha
  cases a with
  | start t parg => exact hstep
  | run t e =>
    intro o k hv
    have ht := h.threads t
    rw [hv] at ht
    generalize hw : w.pool.threads t = p at ht
    cases ht with
    | same tidy =>
      refine ⟨?_, fun hsocket => ?_⟩
      · rw [h.server_eq]
        exact (op_congr _).mpr (hstep o k hw)
      · subst hsocket
        exact hopened t e k rfl hw
    | copying mem at_eq rest => exact ⟨trivial, fun h => by cases h⟩
  | outside now =>
    intro hsteady t
    have ht := h.threads t
    rw [hstep hsteady t] at ht
    generalize v.pool.threads t = q at ht
    cases ht with
    | free => rfl

/-- The server does what it does on the reference map, where handlers reply as they should. -/
def Replies (fr : FileReader) (lines : List Line) (maxSize : ℕ) (w : LoggedWorkers ι) : Prop :=
  ∃ ps v, InStep maxSize ps w v ∧
    v.Sound (Replied lines) HANDLER_CALLS (performRef fr maxSize) refDiscipline

namespace Replies

variable {fr : FileReader} {lines : List Line} {maxSize : ℕ} {w : LoggedWorkers ι}

omit [DecidableEq ι] in
theorem init (fr : FileReader) (lines : List Line) (hmax : 1 ≤ maxSize) (hint : maxSize < 2 ^ 31)
    (now : ℤ) : Replies fr lines maxSize (loggedInit fr maxSize now : LoggedWorkers ι) :=
  ⟨[], refInit fr now, inStep_init fr hmax hint now, sound_refInit fr maxSize now⟩

/-- A step that is as it should be does not fault. -/
theorem step {fd : List UInt8} (hfile : FileText fd lines)
    (hdotted : ∀ l ∈ lines, ∃ addr, inet_pton (cstr l.ip) = some addr)
    (hfr : file_reader_alloc fd = .ok fr) (h : Replies fr lines maxSize w) {a : ServerAction ι}
    (ha : OrderlyStep (standard fun _ pos cur => pos = cur) w a) :
    ∃ w', loggedStep fr w a = .ok w' ∧ Replies fr lines maxSize w' := by
  obtain ⟨ps, v, h, hsound⟩ := h
  have hlocal := localFile_of_alloc hfile hdotted hfr
  obtain ⟨v', hv', hsound'⟩ := sound_refStep hlocal hsound (h.refStep_of_orderly ha)
  obtain ⟨w', hw', ps', h'⟩ := (h.step a ha.1).exists_ok hv'
  exact ⟨w', hw', ps', v', h', hsound'⟩

omit [DecidableEq ι] in
/-- Every handler that has ended has replied. -/
theorem ended (h : Replies fr lines maxSize w) :
    ∀ i ∈ w.ended, Replied lines i.job i.calls := by
  obtain ⟨ps, v, h, hsound⟩ := h
  intro i hi
  obtain ⟨k, hk, hki⟩ := List.mem_iff_getElem.mp hi
  have hsame := h.ended.get hk (h.ended.length_eq ▸ hk)
  simp only [List.get_eq_getElem, hki] at hsame
  exact hsame.replied (hsound.ended _ (List.getElem_mem _))

omit [DecidableEq ι] in
/-- No handler calls more than its bound. -/
theorem going (h : Replies fr lines maxSize w) :
    ∀ t i, w.going t = some i → i.calls.length ≤ HANDLER_CALLS := by
  obtain ⟨ps, v, h, hsound⟩ := h
  intro t i hi
  have hsame := h.going t
  rw [hi] at hsame
  generalize hj : v.going t = j at hsame
  cases hsame with
  | some hij =>
    rw [hij.calls.length_eq]
    exact hsound.calls_le hj

end Replies

/-- **One matching reply, with the cache.** On a local file of well-formed lines with dotted addresses, in
every run of the server with standard queries and responses in which a lookup finds the position of the
`FILE` where it left it, no entry that is pending is taken out or overwritten, the table of the cache keeps a
chain and keeps keys whole, and there is a descriptor for every socket: no handler faults, every handler that
has ended sent one datagram, to its own client, which matches its request, and no handler calls more than 60
operations. -/
theorem one_reply_cached {fd : List UInt8} {lines : List Line} {fr : FileReader}
    (hfile : FileText fd lines) (hdotted : ∀ l ∈ lines, ∃ addr, inet_pton (cstr l.ip) = some addr)
    (hfr : file_reader_alloc fd = .ok fr) {maxSize : ℕ} (hmax : 1 ≤ maxSize) (hint : maxSize < 2 ^ 31)
    (now : ℤ) {as : List (ServerAction ι)}
    (has : Meets (loggedStep fr) (OrderlyStep (standard fun _ pos cur => pos = cur))
      (loggedInit fr maxSize now) as) :
    ∃ w, exec (loggedStep fr) (loggedInit fr maxSize now) as = .ok w ∧
      (∀ i ∈ w.ended, Replied lines i.job i.calls) ∧
      ∀ t i, w.going t = some i → i.calls.length ≤ HANDLER_CALLS := by
  obtain ⟨w, hw, h⟩ := exec_total (Replies.init fr lines hmax hint now)
    (fun w a h ha => h.step hfile hdotted hfr ha) has as (List.prefix_refl as)
  exact ⟨w, hw, h.ended, h.going⟩

/-- `one_reply_cached` for two workers that share an entry. -/
theorem one_reply_cached_shared : ∃ fr, file_reader_alloc twoLinesText = .ok fr ∧
    ∃ w : LoggedWorkers Bool,
      exec (loggedStep fr) (loggedInit fr (10 : ℕ) 0) sharedHits = .ok w ∧ w.ended.length = 3 ∧
      ∀ i ∈ w.ended, Replied twoLines i.job i.calls := by
  have hrun : (file_reader_alloc twoLinesText).map (fun fr =>
      (decide (Meets (loggedStep fr) Undisturbed (loggedInit fr (10 : ℕ) 0) sharedHits),
        decide (Meets (loggedStep fr) (fun w => InPlace Server.pos w.pool) (loggedInit fr (10 : ℕ) 0) sharedHits),
        (exec (loggedStep fr) (loggedInit fr (10 : ℕ) 0) sharedHits).map fun w => w.ended.length)) =
          .ok (true, true, .ok 3) := by
    decide +kernel
  obtain ⟨fr, hfr, hrun⟩ := Run.map_eq_ok.mp hrun
  obtain ⟨hspared, hrun⟩ := Prod.mk.inj hrun
  obtain ⟨hinPlace, hended⟩ := Prod.mk.inj hrun
  obtain ⟨w, hw, hthree⟩ := Run.map_eq_ok.mp hended
  have hmeets : Meets (loggedStep fr) (OrderlyStep (standard fun _ pos cur => pos = cur))
      (loggedInit fr (10 : ℕ) 0) sharedHits := by
    intro pre a hp s hs
    have hin := of_decide_eq_true hinPlace pre a hp s hs
    refine ⟨of_decide_eq_true hspared pre a hp s hs, ?_⟩
    have ha : a ∈ sharedHits := hp.subset (by simp)
    rcases mem_sharedHits ha with ⟨t, rfl⟩ | ⟨t, rfl⟩
    · exact ⟨queryA_standard, fun u e k h => by cases h⟩
    · exact ⟨fun o k hk => standard_op_silent (hin o k hk), fun u e k h _ => by cases h; rfl⟩
  obtain ⟨w', hw', hreplied, -⟩ := one_reply_cached twoLines_fileText twoLines_dotted hfr
    (by decide) (by decide) 0 hmeets
  obtain rfl := Except.ok.inj (hw'.symm.trans hw)
  exact ⟨fr, hfr, w', hw', hthree, hreplied⟩

end DnsRelayer
