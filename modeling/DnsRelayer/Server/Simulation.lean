import DnsRelayer.Server.Reference
import DnsRelayer.Lib.Simulation

/-!
# The cache and the reference map

A handler that runs alone does the same on the cache and on the reference map, as long as the cache
keeps a chain and every key that is put into it is kept whole. Handlers that run one after the other so
send the same datagrams, and leave the cache with the entries of the map (`serial_simulated`).
-/

namespace DnsRelayer

open Lib

/-- The cache of a server has the entries of the reference map, and anything else is the same. -/
structure Implements (maxSize : ℕ) (t : Server) (s : RefServer) : Prop where
  same : { s.server with cache := t.cache } = t
  holds : ∃ ps, t.cache.Rep ps ∧ ps.map (·.2) = s.entries
  maxSize_eq : t.cache.maxSize = maxSize
  room : 1 ≤ maxSize
  chain : 0 < t.cache.hTab.len

/-- An operation is as the conditions say, leaves the cache a chain, and its key can be kept. -/
def Intact (C : Conditions) (t : Server) (o : Op) (e : Env) : Prop :=
  C.Op t o e ∧ match o with
    | .cacheGetLocked key => ¬ t.cache.Collapses (.get key t.now)
    | .cachePut key it TTL => Fits key ∧ ¬ t.cache.Collapses (.put key it TTL t.now)
    | _ => True

/-- A program does alone on the reference map what it does alone on the cache. -/
abbrev Simulated {α : Type} (C : Conditions) (fr : FileReader) (maxSize : ℕ) (p : M α) : Prop :=
  Simulates (perform fr) (Intact C) (performRef fr maxSize) (fun s => C.Op s.server)
    (Implements maxSize) p

variable {C : Conditions} {fr : FileReader} {maxSize : ℕ}

/-! ## Operations -/

/-- An operation that does not use the cache. -/
def Op.Plain : Op → Prop
  | .cacheGetLocked _ => False
  | .cacheGetCopy _ => False
  | .cachePut _ _ _ => False
  | _ => True

/-- An operation that does not use the cache does the same with another one. -/
theorem perform_of_plain {o : Op} (ho : o.Plain) (e : Env) (t : Server) (c : Cache Item) {r : Res o}
    {t' : Server} (h : perform fr o e t = .ok (r, t')) :
    perform fr o e { t with cache := c } = .ok (r, { t' with cache := c }) ∧ t'.cache = t.cache := by
  cases o with
  | cacheGetLocked | cacheGetCopy | cachePut => exact ho.elim
  -- These may fail: they do with one cache when they do with the other.
  | showRequest q_type =>
    simp only [perform] at h ⊢
    split_ifs at h ⊢
    cases h
    exact ⟨rfl, rfl⟩
  | fscanf domain cur =>
    obtain ⟨⟨ip, pos⟩, hscan, h⟩ := Run.bind_eq_ok.mp h
    cases h
    refine ⟨?_, rfl⟩
    simp only [perform, hscan, Run.ok_bind]
    rfl
  | Socket =>
    simp only [perform] at h ⊢
    split_ifs at h ⊢
    cases h
    exact ⟨rfl, rfl⟩
  | recvfrom =>
    simp only [perform] at h ⊢
    split at h <;> cases h <;> exact ⟨rfl, rfl⟩
  | _ =>
    cases h
    exact ⟨rfl, rfl⟩

theorem performRef_of_plain {o : Op} (ho : o.Plain) (e : Env) (s : RefServer) :
    performRef fr maxSize o e s =
      (perform fr o e s.server).map fun x => (x.1, { s with server := x.2 }) := by
  cases o with
  | cacheGetLocked | cacheGetCopy | cachePut => exact ho.elim
  | _ => rfl

/-- What is asked of an operation does not depend on the cache. -/
theorem op_congr {o : Op} {e : Env} {t : Server} (c : Cache Item) :
    C.Op { t with cache := c } o e ↔ C.Op t o e := by
  cases o <;> rfl

variable {t : Server} {s : RefServer}

/-- The server of the reference is that of the cache, with a cache that is not used. -/
theorem Implements.server_eq (h : Implements maxSize t s) : s.server = { t with cache := s.server.cache } := by
  rw [← h.same]

theorem Implements.op (h : Implements maxSize t s) {o : Op} {e : Env} (hok : C.Op t o e) :
    C.Op s.server o e := by
  rw [h.server_eq]
  exact (op_congr _).mpr hok

theorem simulated_call (o : Op) (ho : o.Plain) : Simulated C fr maxSize (call o) := by
  refine Simulates.op fun t e r t' s h hok hperf => ?_
  obtain ⟨hperf', hcache⟩ := perform_of_plain ho e t s.server.cache hperf
  refine ⟨{ s with server := { t' with cache := s.server.cache } }, h.op hok.1, ?_, rfl, ?_, ?_,
    h.room, ?_⟩
  · rw [performRef_of_plain ho, h.server_eq, hperf']
    rfl
  · rw [hcache]
    exact h.holds
  · rw [hcache]
    exact h.maxSize_eq
  · rw [hcache]
    exact h.chain

/-! ## Items -/

/-- What `CacheGet` finds, without interruption, is what the reference map has. -/
theorem simulated_getItem (name : List UInt8) (type : UInt16) :
    Simulated C fr maxSize (getItem name type) := by
  refine Simulates.ofExcept.bind fun key => ?_
  intro t r t' s h hrun
  obtain ⟨found, t₁, hfirst, hrest⟩ := hrun.of_bind
  obtain ⟨e, hok, hperf⟩ := hfirst.of_op
  obtain ⟨⟨lkn, c⟩, hlocked, hperf⟩ := Run.bind_eq_ok.mp hperf
  obtain ⟨rfl, rfl⟩ := Prod.mk.inj (Except.ok.inj hperf)
  obtain ⟨ps, hrep, hps⟩ := h.holds
  obtain ⟨c', ps', hget, hrep', hps', hmax, hlen⟩ := cacheGet_spec hrep h.chain key t.now
  have hnow : s.server.now = t.now := by rw [h.server_eq]
  have hchain : 0 < c'.hTab.len :=
    Nat.pos_of_ne_zero fun hzero => hok.2 (hrep.collapses_get_iff.mpr (hlen.mp hzero))
  -- The cache after the call has the entries of the map after it.
  have hafter : ∀ found, Implements maxSize { t with cache := c' }
      { s with entries := (Lru.get key s.server.now s.entries).2, found := found } := fun found =>
    ⟨by rw [h.server_eq], ⟨ps', hrep', by rw [hps', hps, hnow]⟩, hmax.trans h.maxSize_eq, h.room,
      hchain⟩
  rw [hps, ← hnow, cacheGet, hnow, hlocked, Run.ok_bind, ← hnow] at hget
  cases hlook : Lru.get key s.server.now s.entries with
  | mk v entries =>
  rw [hlook] at hget hafter
  cases lkn with
  | none =>
    obtain ⟨rfl, rfl⟩ := hrest.of_pure
    obtain ⟨rfl, rfl⟩ := Prod.mk.inj (Except.ok.inj hget)
    have hmiss : Lib.Alone (performRef fr maxSize) (fun s => C.Op s.server)
        (call (.cacheGetLocked key)) s none { s with entries := entries } :=
      Alone.op (e := e) (h.op hok.1) (by simp only [performRef, hlook])
    exact ⟨_, hmiss.bind .pure, hafter s.found⟩
  | some lkn =>
    obtain ⟨it, t₂, hcopy, hrest⟩ := hrest.of_bind
    obtain ⟨rfl, rfl⟩ := hrest.of_pure
    obtain ⟨e', -, hperf'⟩ := hcopy.of_op
    obtain ⟨it', hdata, hperf'⟩ := Run.bind_eq_ok.mp hperf'
    obtain ⟨rfl, rfl⟩ := Prod.mk.inj (Except.ok.inj hperf')
    simp only at hget
    rw [hdata, Run.ok_bind] at hget
    obtain ⟨rfl, rfl⟩ := Prod.mk.inj (Except.ok.inj hget)
    have hhit : Lib.Alone (performRef fr maxSize) (fun s => C.Op s.server)
        (call (.cacheGetLocked key)) s (some s.found.length)
        { s with entries := entries, found := s.found ++ [it'] } :=
      Alone.op (e := e) (h.op hok.1) (by simp only [performRef, hlook])
    have hfound : Lib.Alone (performRef fr maxSize) (fun s => C.Op s.server)
        (call (.cacheGetCopy s.found.length)) { s with entries := entries, found := s.found ++ [it'] }
        it' { s with entries := entries, found := s.found ++ [it'] } :=
      Alone.op (e := e) trivial (by simp [performRef])
    exact ⟨_, hhit.bind (hfound.bind .pure), hafter (s.found ++ [it'])⟩

/-- `CachePut` puts into the cache what it puts into the reference map. -/
theorem simulated_putItem (type : UInt16) (it : Item) :
    Simulated C fr maxSize (putItem type it) := by
  unfold putItem
  split
  · exact Simulates.pure
  refine Simulates.ofExcept.bind fun name => Simulates.ofExcept.bind fun key => ?_
  refine (simulated_call .time trivial).bind fun now => Simulates.op fun t e r t' s h hok hperf => ?_
  obtain ⟨hcond, hfits, hintact⟩ := hok
  obtain ⟨c, hput, hperf⟩ := Run.bind_eq_ok.mp hperf
  obtain ⟨rfl, rfl⟩ := Prod.mk.inj (Except.ok.inj hperf)
  obtain ⟨ps, hrep, hps⟩ := h.holds
  have hmax : t.cache.maxSize.toNat = maxSize := by rw [h.maxSize_eq, Int.toNat_natCast]
  have hspec := cachePut_spec hrep h.chain (by rw [h.maxSize_eq]; exact_mod_cast h.room) hfits it
    (it.ddl - now) t.now
  rw [if_neg fun hc => hintact (hrep.collapses_put_iff.mpr hc)] at hspec
  obtain ⟨c', ps', hput', hrep', hps', hm, hchain⟩ := hspec
  obtain rfl := Except.ok.inj (hput'.symm.trans hput)
  have hnow : s.server.now = t.now := by rw [h.server_eq]
  refine ⟨_, h.op hcond, rfl, by rw [h.server_eq], ⟨ps', hrep', ?_⟩, hm.trans h.maxSize_eq, h.room,
    hchain⟩
  rw [hps', hps, hmax, hnow]

theorem simulated_answerItem (msg : Message) (it : Item) :
    Simulated C fr maxSize (answerItem msg it) :=
  Simulates.ofExcept.bind fun _ => (simulated_call .time trivial).bind fun _ => Simulates.pure

theorem simulated_storeRR (it : Item) (rr : RR) : Simulated C fr maxSize (storeRR it rr) :=
  (simulated_call .time trivial).bind fun _ => Simulates.ofExcept

/-! ## The parts of the handler -/

theorem simulated_reply (parg : Arg) (msg : Message) : Simulated C fr maxSize (reply parg msg) := by
  refine Simulates.ofExcept.bind fun bytes => ?_
  split_ifs
  · exact Simulates.fail
  · exact simulated_call (.sendto _ _) trivial

theorem simulated_replyFromCache (parg : Arg) (msg : Message) (name : List UInt8) (qtype : UInt16) :
    Simulated C fr maxSize (replyFromCache parg msg name qtype) := by
  unfold replyFromCache
  split
  · refine Simulates.ofExcept.bind fun name => (simulated_getItem _ _).bind fun r => ?_
    rcases r with - | it
    · dsimp only
      split
      · refine (simulated_getItem _ _).bind fun r => ?_
        rcases r with - | it
        · exact Simulates.pure
        refine (simulated_getItem _ _).bind fun r => ?_
        rcases r with - | tit
        · exact Simulates.pure
        refine (simulated_answerItem _ _).bind fun msg => ?_
        refine (simulated_answerItem _ _).bind fun msg => ?_
        exact (simulated_reply _ _).bind fun _ => Simulates.pure
      · exact Simulates.pure
    · refine (simulated_answerItem _ _).bind fun msg => ?_
      exact (simulated_reply _ _).bind fun _ => Simulates.pure
  · exact Simulates.pure

theorem simulated_getRecord (domain : List UInt8) :
    Simulated C fr maxSize (getRecord fr domain) := by
  refine Simulates.ofExcept.bind fun r => ?_
  cases r with
  | none => exact Simulates.pure
  | some cur =>
    refine (simulated_call (.fseek _) trivial).bind fun _ => (simulated_call (.fscanf _ _) trivial).bind fun r => ?_
    cases r with
    | none => exact Simulates.fail
    | some ip => exact Simulates.pure

theorem simulated_replyFromFile (parg : Arg) (msg : Message) (name : List UInt8) (qtype : UInt16) :
    Simulated C fr maxSize (replyFromFile fr parg msg name qtype) := by
  unfold replyFromFile
  split_ifs
  · refine Simulates.ofExcept.bind fun name => (simulated_getRecord _).bind fun r => ?_
    cases r with
    | none => exact Simulates.pure
    | some ip =>
      dsimp only
      cases inet_pton ip with
      | none => exact Simulates.fail
      | some addr =>
        refine (simulated_storeRR _ _).bind fun tmp => (simulated_putItem _ _).bind fun _ => ?_
        refine (simulated_answerItem _ _).bind fun msg => (simulated_reply _ _).bind fun _ => ?_
        exact Simulates.pure
  · exact Simulates.pure

theorem simulated_collect (rrs : List RR) (items : Items) :
    Simulated C fr maxSize (collect rrs items) := by
  induction rrs generalizing items with
  | nil => exact Simulates.pure
  | cons rr rrs ih =>
    unfold collect
    split_ifs
    · exact (simulated_storeRR _ _).bind fun _ => ih _
    · exact (simulated_storeRR _ _).bind fun _ => ih _
    · exact (simulated_storeRR _ _).bind fun _ => ih _
    · exact ih _

theorem simulated_cacheRecords (d : Received) : Simulated C fr maxSize (cacheRecords d) := by
  refine Simulates.ofExcept.bind fun r => (simulated_collect _ _).bind fun items => ?_
  exact (simulated_putItem _ _).bind fun _ => (simulated_putItem _ _).bind fun _ =>
    simulated_putItem _ _

theorem simulated_relay (parg : Arg) (msg : Message) (qtype : UInt16) :
    Simulated C fr maxSize (relay parg msg qtype) := by
  refine (simulated_call .Socket trivial).bind fun _ => (simulated_call (.sendtoServer _) trivial).bind fun sent => ?_
  cases sent with
  | false => exact (simulated_call (.showRequest _) trivial).bind fun _ => simulated_reply _ _
  | true =>
    refine (simulated_call .recvfrom trivial).bind fun r => ?_
    cases r with
    | none => exact simulated_reply _ _
    | some d =>
      exact (simulated_call .close trivial).bind fun _ =>
        (simulated_call (.sendto _ _) trivial).bind fun _ => simulated_cacheRecords d

/-- A handler that runs alone does on the reference map what it does on the cache. -/
theorem simulated_handler (parg : Arg) : Simulated C fr maxSize (handler fr parg) := by
  refine Simulates.ofExcept.bind fun r => (simulated_call (.showRequest _) trivial).bind fun _ => ?_
  refine (simulated_replyFromCache _ _ _ _).bind fun replied => ?_
  cases replied with
  | true => exact Simulates.pure
  | false =>
    refine (simulated_replyFromFile _ _ _ _).bind fun replied => ?_
    cases replied with
    | true => exact Simulates.pure
    | false => exact simulated_relay _ _ _

/-! ## Runs -/

/-- The clock changes on both sides. -/
theorem Implements.setClock (h : Implements maxSize t s) (now : ℤ) :
    Implements maxSize (t.setClock now) (s.setClock now) where
  same := congrArg (Server.setClock now) h.same
  holds := h.holds
  maxSize_eq := h.maxSize_eq
  room := h.room
  chain := h.chain

/-- Handlers that run one after the other, and leave the cache a chain, do on the reference map what they
do on the cache: they send the same datagrams. -/
theorem serial_simulated (fr : FileReader) {maxSize : ℕ} (hmax : 1 ≤ maxSize)
    (hint : maxSize < 2 ^ 31) (now : ℤ) {pargs : List (ℤ × Arg)} {t' : Server}
    (h : Serial (perform fr) (Intact C) (handler fr) Server.setClock
      ⟨now, createCache maxSize, fr.fd.length, 0, [], []⟩ pargs t') :
    ∃ s', Serial (performRef fr maxSize) (fun s => C.Op s.server) (handler fr) RefServer.setClock
        ⟨⟨now, createCache 0, fr.fd.length, 0, [], []⟩, [], []⟩ pargs s' ∧
      Implements maxSize t' s' ∧ s'.server.replies = t'.replies := by
  have hinit : Implements maxSize ⟨now, createCache maxSize, fr.fd.length, 0, [], []⟩
      ⟨⟨now, createCache 0, fr.fd.length, 0, [], []⟩, [], []⟩ :=
    ⟨rfl, ⟨[], createCache_rep hint, rfl⟩, rfl, hmax, createCache_chain _⟩
  obtain ⟨s', hs', h'⟩ := h.simulated simulated_handler (fun x t s hts => hts.setClock x) hinit
  exact ⟨s', hs', h', by rw [h'.server_eq]⟩

end DnsRelayer
