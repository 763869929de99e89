import DnsRelayer.Lib.Chronicle
import DnsRelayer.Server.Expiry
import DnsRelayer.Server.InBounds
import DnsRelayer.Server.Reference

/-!
# What the chronicle of the server says of an item

The lifetime of an item goes through five readings of the clock. `addRR2Item` adds its own to the TTL of
the record; `putItem` and `CachePut` make a TTL of the item and a time of it, each with its own; `CacheGet`
compares them with a fourth, and `Item2Msg` takes a fifth from the deadline. All of them are in the
chronicle of the run, in order: a `Birth` has those by which an item came into the cache, a `Find` that of
the `CacheGet` which found it, and every item that is served from the cache has both (`Obtained`).

The lock is let go before the item is copied, so that another worker may put a new one in its place: then
it is the new one that is served, and it came into the cache after `CacheGet` made its test (`Got`).
-/

namespace DnsRelayer

open Lib
open scoped List

variable {ι : Type}

/-- The clock is not set back. -/
def Forward (s : Workers ι) : ServerAction ι → Prop
  | .outside now => s.shared.now ≤ now
  | _ => True

/-! ## The chronicle of the server -/

/-- A call of a worker, and the time. -/
abbrev ServerEvent (ι : Type) := Event ι Op Res ℤ

/-- The calls of the workers in a run of the server. -/
def chronicle [DecidableEq ι] (fr : FileReader) (cachesize now : ℤ) (as : List (ServerAction ι)) :
    List (ServerEvent ι) :=
  Pool.chronicle Server.now (perform fr) (handler fr) Server.setClock (serverInit fr cachesize now) as

/-- A call that brings a record: a response with the record, or the address of a line of the local file,
of which it is made. -/
def Brings : HandlerCall → RR → Prop
  | ⟨.recvfrom, some d⟩, rr => rr ∈ d.answers
  | ⟨.fscanf domain _, some ip⟩, rr =>
    ∃ addr, inet_pton (cstr ip) = some addr ∧ rr = fileRR domain addr
  | _, _ => False

/-- `addRR2Item` made the item of a record, at the time `t`. -/
def Item.MadeOf (it : Item) (rr : RR) (t : ℤ) : Prop :=
  ∃ it₀ : Item, it₀.Terminated ∧ addRR2Item it₀ rr t = .ok it

/-- How an item came into the cache: what brought its last record and when, the key, and the readings of
`addRR2Item` (for that record), of `putItem` and of `CachePut`. -/
structure Birth (ι : Type) where
  worker : ι
  source : HandlerCall
  arrival : ℤ
  rr : RR
  key : List UInt8
  added : ℤ
  put : ℤ
  saved : ℤ

namespace Birth

variable (b : Birth ι) (it : Item)

/-- The item was made so. -/
def Makes : Prop := it.MadeOf b.rr b.added ∧ Brings b.source b.rr

/-- What the worker called until it had made the item. -/
def making : List (ServerEvent ι) :=
  [⟨b.worker, b.source, b.arrival⟩, ⟨b.worker, ⟨.time, b.added⟩, b.added⟩]

/-- The `CachePut` of the item, with the TTL that `putItem` makes. -/
def putEvent : ServerEvent ι := ⟨b.worker, ⟨.cachePut b.key it (it.ddl - b.put), ()⟩, b.saved⟩

/-- What the worker called until the item was in the cache. -/
def events : List (ServerEvent ι) :=
  b.making ++ [⟨b.worker, ⟨.time, b.put⟩, b.put⟩, b.putEvent it]

end Birth

/-- How `CacheGet` found an item: the worker that called it, the key, the node, and its reading. -/
structure Find (ι : Type) where
  worker : ι
  key : List UInt8
  lkn : ℕ
  time : ℤ

/-- The section of `CacheGet` that found it. -/
def Find.event (f : Find ι) : ServerEvent ι := ⟨f.worker, ⟨.cacheGetLocked f.key, some f.lkn⟩, f.time⟩

/-- An item came into the cache before it was found there, and `CacheGet` did not find its time over; or it
came there only then, in place of another, before it was copied. What was called `after` comes after
both. -/
def Got (log : List (ServerEvent ι)) (b : Birth ι) (f : Find ι) (it : Item)
    (after : List (ServerEvent ι)) : Prop :=
  b.Makes it ∧ tableKey b.key = f.key ∧
    (b.events it ++ f.event :: after <+ log ∧ f.time - b.saved ≤ it.ddl - b.put ∨
      b.events it ++ after <+ log ∧ f.event :: b.putEvent it :: after <+ log)

/-- A worker got an item out of the cache, or made it of a line of the local file, before what it called
`after`. -/
def Obtained (log : List (ServerEvent ι)) (t : ι) (it : Item) (after : List (ServerEvent ι)) : Prop :=
  (∃ (b : Birth ι) (f : Find ι) (copied : ℤ), f.worker = t ∧
    Got log b f it (⟨t, ⟨.cacheGetCopy f.lkn, it⟩, copied⟩ :: after)) ∨
  ∃ (b : Birth ι) (domain ip : List UInt8) (cur : ℕ), b.worker = t ∧ b.Makes it ∧
    b.source = ⟨.fscanf domain cur, some ip⟩ ∧ b.making ++ after <+ log

/-- What `Item2Msg` and `sendto` called for an item of a reply. -/
def serving (t : ι) (now : ℤ) (sent : Sent) : List (ServerEvent ι) :=
  [⟨t, ⟨.time, now⟩, now⟩, ⟨t, ⟨.sendto sent.parg sent.reply, ()⟩, sent.time⟩]

/-- A reply that is built is made of items that its worker obtained. -/
def Explained (log : List (ServerEvent ι)) (sent : Sent) : Prop :=
  ∀ msg bytes, sent.reply = .built msg bytes → ∀ msg₀ q, Asks sent.parg msg₀ q →
    ∃ (t : ι) (served : List (Item × ℤ)), msg = servedReply msg₀ served ∧
      ∀ p ∈ served, Obtained log t p.1 (serving t p.2 sent)

variable {log log' : List (ServerEvent ι)} {ev : ServerEvent ι} {b : Birth ι} {f : Find ι} {t : ι}
  {now added : ℤ} {it it' : Item} {rr : RR} {after : List (ServerEvent ι)}

theorem Got.mono (h : Got log b f it after) (hle : log <+: log') : Got log' b f it after := by
  obtain ⟨hmakes, hkey, hlog⟩ := h
  refine ⟨hmakes, hkey, hlog.imp (And.imp_left fun h => h.trans hle.sublist) ?_⟩
  exact fun h => ⟨h.1.trans hle.sublist, h.2.trans hle.sublist⟩

/-- All of these were called. -/
theorem Got.subset (h : Got log b f it after) : b.events it ++ f.event :: after ⊆ log := by
  obtain ⟨-, -, ⟨hlog, -⟩ | ⟨hput, hfound⟩⟩ := h
  · exact hlog.subset
  · intro ev hev
    rcases List.mem_append.mp hev with hev | hev
    · exact hput.subset (List.mem_append_left _ hev)
    · rcases List.mem_cons.mp hev with rfl | hev
      · exact hfound.subset List.mem_cons_self
      · exact hput.subset (List.mem_append_right _ hev)

/-- The next call comes after the others. -/
theorem Got.snoc (h : Got log b f it after) (ev : ServerEvent ι) :
    Got (log ++ [ev]) b f it (after ++ [ev]) := by
  obtain ⟨hmakes, hkey, ⟨hlog, htest⟩ | ⟨hput, hfound⟩⟩ := h
  · refine ⟨hmakes, hkey, Or.inl ⟨?_, htest⟩⟩
    rw [← List.cons_append, ← List.append_assoc]
    exact hlog.append (List.Sublist.refl _)
  · refine ⟨hmakes, hkey, Or.inr ⟨?_, hfound.append (List.Sublist.refl _)⟩⟩
    rw [← List.append_assoc]
    exact hput.append (List.Sublist.refl _)

theorem Obtained.mono (h : Obtained log t it after) (hle : log <+: log') : Obtained log' t it after := by
  rcases h with ⟨b, f, copied, hf, hgot⟩ | ⟨b, domain, ip, cur, hb, hmakes, hsource, hlog⟩
  · exact Or.inl ⟨b, f, copied, hf, hgot.mono hle⟩
  · exact Or.inr ⟨b, domain, ip, cur, hb, hmakes, hsource, hlog.trans hle.sublist⟩

theorem Obtained.snoc (h : Obtained log t it after) (ev : ServerEvent ι) :
    Obtained (log ++ [ev]) t it (after ++ [ev]) := by
  rcases h with ⟨b, f, copied, hf, hgot⟩ | ⟨b, domain, ip, cur, hb, hmakes, hsource, hlog⟩
  · exact Or.inl ⟨b, f, copied, hf, hgot.snoc ev⟩
  · refine Or.inr ⟨b, domain, ip, cur, hb, hmakes, hsource, ?_⟩
    rw [← List.append_assoc]
    exact hlog.append (List.Sublist.refl _)

theorem Explained.mono {sent : Sent} (h : Explained log sent) (hle : log <+: log') :
    Explained log' sent := by
  intro msg bytes hreply msg₀ q hasks
  obtain ⟨t, served, hmsg, hall⟩ := h msg bytes hreply msg₀ q hasks
  exact ⟨t, served, hmsg, fun p hp => (hall p hp).mono hle⟩

/-! ## Items -/

/-- The strings of an item that `addRR2Item` made are terminated. -/
theorem Item.MadeOf.terminated (h : it.MadeOf rr added) : it.Terminated := by
  obtain ⟨it₀, hterm, hok⟩ := h
  simp only [addRR2Item] at hok
  split_ifs at hok
  · obtain rfl := Except.ok.inj hok
    exact hterm
  · obtain rfl := Except.ok.inj hok
    intro s hs
    rcases List.mem_or_eq_of_mem_set hs with hs | rfl
    · exact hterm s hs
    · exact length_strncpy_le _

/-- The deadline of an item that `addRR2Item` made. -/
theorem Item.MadeOf.ddl_eq (h : it.MadeOf rr added) : it.ddl = added + rr.TTL.toNat := by
  obtain ⟨it₀, -, hok⟩ := h
  rw [Policy.ddl_of_addRR2Item hok, add_comm]

/-- The TTL that `Item2Msg` sets is the time that is left exactly when there is some: the item was made
by then, so that it is not too much for an `uint32_t`. -/
theorem Item.MadeOf.TTL_iff (h : it.MadeOf rr added) (hle : added ≤ now) (name v : List UInt8) :
    ((it.record name now v).TTL.toNat : ℤ) = it.ddl - now ↔ now ≤ added + rr.TTL.toNat := by
  have hddl := h.ddl_eq
  have hTTL := rr.TTL.toNat_lt
  rw [Item.record_TTL]
  constructor
  · intro heq
    omega
  · intro hleft
    exact toUInt32_eq (by omega) (by omega)

/-! ## The discipline -/

/-- An item is in the cache under a key and until a deadline as the chronicle says. -/
def Stored (log : List (ServerEvent ι)) (key : List UInt8) (deadline : ℤ) (it : Item) : Prop :=
  ∃ b : Birth ι, b.Makes it ∧ tableKey b.key = key ∧ b.saved + (it.ddl - b.put) = deadline ∧
    b.events it <+ log

/-- It came there after the first chronicle. -/
def StoredSince (log log' : List (ServerEvent ι)) (key : List UInt8) (deadline : ℤ) (it : Item) : Prop :=
  ∃ (b : Birth ι) (since : List (ServerEvent ι)), b.Makes it ∧ tableKey b.key = key ∧
    b.saved + (it.ddl - b.put) = deadline ∧ b.events it <+ log' ∧ log' = log ++ since ∧
    b.putEvent it ∈ since

theorem Stored.mono {key : List UInt8} {deadline : ℤ} (h : Stored log key deadline it)
    (hle : log <+: log') : Stored log' key deadline it := by
  obtain ⟨b, hmakes, hkey, hdeadline, hlog⟩ := h
  exact ⟨b, hmakes, hkey, hdeadline, hlog.trans hle.sublist⟩

/-- The chronicle accounts for what is in the cache and for the replies, and its times go up to the
present. -/
structure Chronicled (x : Server × List (ServerEvent ι)) : Prop where
  cache : x.1.cache.Holds (Stored x.2)
  replies : ∀ sent ∈ x.1.replies, Explained x.2 sent
  ordered : x.2.Pairwise fun a b => a.mark ≤ b.mark
  past : ∀ ev ∈ x.2, ev.mark ≤ x.1.now

/-- The chronicle and the clock go on, and what is in the cache was there before or came since. -/
structure GoesOn (x y : Server × List (ServerEvent ι)) : Prop where
  log : x.2 <+: y.2
  clock : x.1.now ≤ y.1.now
  cache : x.1.cache.Follows (StoredSince x.2 y.2) y.1.cache

theorem GoesOn.refl (x : Server × List (ServerEvent ι)) : GoesOn x x :=
  ⟨List.prefix_refl _, le_rfl, .refl _⟩

theorem GoesOn.trans {x y z : Server × List (ServerEvent ι)} (h : GoesOn x y) (h' : GoesOn y z) :
    GoesOn x z := by
  refine ⟨h.log.trans h'.log, h.clock.trans h'.clock,
    (h.cache.mono fun _ _ _ hnew => ?_).trans (h'.cache.mono fun _ _ _ hnew => ?_)⟩
  · obtain ⟨b, since, hmakes, hkey, hdeadline, hlog, heq, hput⟩ := hnew
    obtain ⟨later, hlater⟩ := h'.log
    refine ⟨b, since ++ later, hmakes, hkey, hdeadline, hlog.trans h'.log.sublist, ?_,
      List.mem_append_left _ hput⟩
    rw [← hlater, heq, List.append_assoc]
  · obtain ⟨b, since, hmakes, hkey, hdeadline, hlog, heq, hput⟩ := hnew
    obtain ⟨earlier, hearlier⟩ := h.log
    refine ⟨b, earlier ++ since, hmakes, hkey, hdeadline, hlog, ?_, List.mem_append_right _ hput⟩
    rw [heq, ← hearlier, List.append_assoc]

variable (ι) in
/-- The handlers keep the chronicle. -/
def clockDiscipline : Discipline (Server × List (ServerEvent ι)) (ι × Op) Env where
  inv := Chronicled
  le := GoesOn
  ok _ _ _ := True
  mayFail := True
  refl := GoesOn.refl
  trans := GoesOn.trans

variable {s s' : Server}

/-- A call that leaves the cache as it is goes on. -/
theorem goesOn_snoc (hcache : s'.cache = s.cache) (hnow : s'.now = s.now) :
    GoesOn (s, log) (s', log ++ [ev]) :=
  ⟨List.prefix_append _ _, hnow.ge, by rw [hcache]; exact .refl _⟩

/-- The times of the chronicle after a call. -/
theorem Chronicled.times (h : Chronicled (s, log)) (hmark : ev.mark = s.now) :
    ((log ++ [ev]).Pairwise fun a b => a.mark ≤ b.mark) ∧ ∀ e ∈ log ++ [ev], e.mark ≤ s.now := by
  have hpast : ∀ e ∈ log, e.mark ≤ ev.mark := fun e he => hmark ▸ h.past e he
  refine ⟨List.pairwise_append.mpr ⟨h.ordered, List.pairwise_singleton _ _, by simpa using hpast⟩, ?_⟩
  intro e he
  rcases List.mem_append.mp he with he | he
  · exact h.past e he
  · obtain rfl := List.mem_singleton.mp he
    exact hmark.le

/-- The chronicle accounts for the cache and the replies after a call that leaves them as they are. -/
theorem Chronicled.snoc (h : Chronicled (s, log)) (hmark : ev.mark = s.now) (hcache : s'.cache = s.cache)
    (hreplies : s'.replies = s.replies) (hnow : s'.now = s.now) : Chronicled (s', log ++ [ev]) := by
  obtain ⟨hordered, hpast⟩ := h.times hmark
  refine ⟨?_, ?_, hordered, by rw [hnow]; exact hpast⟩
  · rw [hcache]
    exact h.cache.mono fun _ _ _ hstored => hstored.mono (List.prefix_append _ _)
  · rw [hreplies]
    exact fun sent hsent => (h.replies sent hsent).mono (List.prefix_append _ _)

/-! ## The operations -/

variable {fr : FileReader} {α : Type} {x : Server × List (ServerEvent ι)}

/-- A program of a handler, while the clock goes on. -/
abbrev Dates (fr : FileReader) (t : ι) (p : M α) (Q : α → Server × List (ServerEvent ι) → Prop)
    (x : Server × List (ServerEvent ι)) : Prop :=
  Tells Server.now (perform fr) (clockDiscipline ι) t p Q x

/-- A call was made after the chronicle was as in `x`, and is in it now. -/
def Noted (x : Server × List (ServerEvent ι)) (ev : ServerEvent ι)
    (y : Server × List (ServerEvent ι)) : Prop :=
  ∃ log, x.2 <+: log ∧ log ++ [ev] <+: y.2

/-- It comes after what was in the chronicle. -/
theorem Noted.sublist {y : Server × List (ServerEvent ι)} (h : Noted x ev y)
    {l : List (ServerEvent ι)} (hl : l <+ x.2) : l ++ [ev] <+ y.2 := by
  obtain ⟨log, hlog, hev⟩ := h
  exact ((hl.trans hlog.sublist).append (List.Sublist.refl [ev])).trans hev.sublist

theorem Noted.obtained {y : Server × List (ServerEvent ι)} (h : Noted x ev y)
    (hobtained : Obtained x.2 t it after) : Obtained y.2 t it (after ++ [ev]) := by
  obtain ⟨log, hlog, hev⟩ := h
  exact ((hobtained.mono hlog).snoc ev).mono hev

/-- An operation that leaves the cache, the replies and the clock as they are. -/
theorem dates_call {o : Op} (h : ∀ s₁ e r s₂, perform fr o e s₁ = .ok (r, s₂) →
    s₂.cache = s₁.cache ∧ s₂.replies = s₁.replies ∧ s₂.now = s₁.now) :
    Dates fr t (call o) (fun r y => ∃ now, Noted x ⟨t, ⟨o, r⟩, now⟩ y) x := by
  refine Tells.op trivial _ fun s₁ log e r s₂ hle hI hperf => ?_
  obtain ⟨hcache, hreplies, hnow⟩ := h s₁ e r s₂ hperf
  exact ⟨hI.snoc rfl hcache hreplies hnow, goesOn_snoc hcache hnow,
    fun y hley _ => ⟨_, log, hle.log, hley.log⟩⟩

theorem dates_aside {o : Op} (ho : o.Aside) :
    Dates fr t (call o) (fun r y => ∃ now, Noted x ⟨t, ⟨o, r⟩, now⟩ y) x := by
  refine dates_call fun s₁ e r s₂ hperf => ?_
  obtain ⟨hcache, hreplies, -, hnow⟩ := ho.same hperf
  exact ⟨hcache, hreplies, hnow⟩

theorem dates_recvfrom :
    Dates fr t (call .recvfrom) (fun r y => ∃ now, Noted x ⟨t, ⟨.recvfrom, r⟩, now⟩ y) x := by
  refine dates_call fun s₁ e r s₂ hperf => ?_
  obtain ⟨-, rfl⟩ := perform_recvfrom hperf
  exact ⟨rfl, rfl, rfl⟩

/-- What `time` returns is the time of its call. -/
theorem dates_time :
    Dates fr t (call .time) (fun (now : ℤ) y => Noted x ⟨t, ⟨.time, now⟩, now⟩ y) x := by
  refine Tells.op trivial _ fun s₁ log e r s₂ hle hI hperf => ?_
  obtain ⟨rfl, rfl⟩ := Prod.mk.inj (Except.ok.inj hperf)
  exact ⟨hI.snoc rfl rfl rfl rfl, goesOn_snoc rfl rfl, fun y hley _ => ⟨log, hle.log, hley.log⟩⟩

/-- A computation first, of which nothing is known but its value. -/
theorem dates_compute {β : Type} (c : Run β) {f : β → M α} {Q : α → Server × List (ServerEvent ι) → Prop}
    (hI : Chronicled x) (hf : ∀ b y, GoesOn x y → Chronicled y → c = .ok b → Dates fr t (f b) Q y) :
    Dates fr t (compute c >>= f) Q x :=
  have hc : Dates fr t (compute c) (fun b _ => c = .ok b) x :=
    Tells.ofExcept trivial fun _ hb _ _ _ => hb
  hc.bind hI hf

/-- A reply that the chronicle explains, once it is sent. -/
theorem dates_sendto (parg : Arg) (reply : Reply) (h : ∀ log time, x.2 <+: log →
      Explained (log ++ [⟨t, ⟨.sendto parg reply, ()⟩, time⟩]) ⟨time, parg, reply⟩) :
    Dates fr t (call (.sendto parg reply)) (fun _ _ => True) x := by
  refine Tells.op trivial _ fun s₁ log e r s₂ hle hI hperf => ?_
  obtain ⟨-, rfl⟩ := Prod.mk.inj (Except.ok.inj hperf)
  obtain ⟨hordered, hpast⟩ := @Chronicled.times _ _ ⟨t, ⟨.sendto parg reply, ()⟩, s₁.now⟩ _ hI rfl
  refine ⟨⟨hI.cache.mono fun _ _ _ hstored => hstored.mono (List.prefix_append _ _), ?_, hordered,
    hpast⟩, goesOn_snoc rfl rfl, fun _ _ _ => trivial⟩
  intro sent hsent
  rcases List.mem_cons.mp hsent with rfl | hsent
  · exact h log _ hle.log
  · exact (hI.replies sent hsent).mono (List.prefix_append _ _)

/-- A reply of items that were obtained. -/
theorem dates_reply (hI : Chronicled x) {parg : Arg} {msg₀ : Message} {q : Question}
    (hasks : Asks parg msg₀ q) {served : List (Item × ℤ)}
    (h : ∀ p ∈ served, Obtained x.2 t p.1 [⟨t, ⟨.time, p.2⟩, p.2⟩]) :
    Dates fr t (reply parg (servedReply msg₀ served)) (fun _ _ => True) x := by
  refine dates_compute _ hI fun bytes y hle _ _ => ?_
  show Tells _ _ _ _ (if _ then _ else _) _ _
  split_ifs
  · exact Tells.fail trivial
  refine dates_sendto parg _ fun log time hlog msg bytes' hreply msg₁ q₁ hasks₁ => ?_
  obtain ⟨rfl, -⟩ := Reply.built.inj hreply
  obtain ⟨rfl, -⟩ := hasks₁.unique hasks
  exact ⟨t, served, rfl, fun p hp => ((h p hp).mono (hle.log.trans hlog)).snoc _⟩

/-- What `CacheGet` found in its first section: whatever is in the node came into the cache before, or
since then. -/
def Finds (x : Server × List (ServerEvent ι)) (f : Find ι) : Prop :=
  f.event ∈ x.2 ∧ f.lkn < x.1.cache.heap.brk ∧
    ∀ ui, x.1.cache.LiveAt f.lkn ui → tableKey ui.key = f.key ∧ ∃ b, Got x.2 b f ui.data []

/-- It stays so, whatever others put into the cache. -/
theorem Finds.mono {y : Server × List (ServerEvent ι)} (h : Finds x f) (hle : GoesOn x y) :
    Finds y f := by
  obtain ⟨hmem, hlt, hlive⟩ := h
  refine ⟨hle.log.subset hmem, hlt.trans_le hle.cache.brk, fun ui' hui' => ?_⟩
  obtain ⟨ui, hui, hkey, hsame⟩ := hle.cache.live f.lkn ui' hlt hui'
  obtain ⟨hfkey, b, hgot⟩ := hlive ui hui
  refine ⟨hkey ▸ hfkey, ?_⟩
  rcases hsame with ⟨-, hdata⟩ | ⟨b', since, hmakes, hbkey, -, hlog, heq, hput⟩
  · exact ⟨b, hdata ▸ hgot.mono hle.log⟩
  · refine ⟨b', hmakes, hbkey.trans (hkey ▸ hfkey), Or.inr ⟨by rwa [List.append_nil], ?_⟩⟩
    -- The key was found before the new item came into the node.
    rw [heq]
    exact (List.singleton_sublist.mpr hmem).append (List.singleton_sublist.mpr hput)

/-- What `getItem` returns was obtained. -/
theorem dates_getItem (hI : Chronicled x) (name : List UInt8) (type : UInt16) :
    Dates fr t (getItem name type) (fun r y => ∀ it, r = some it → Obtained y.2 t it []) x := by
  refine dates_compute _ hI fun key x₁ _ hI₁ _ => ?_
  have hlocked : Dates fr t (call (.cacheGetLocked key))
      (fun r y => ∀ lkn, r = some lkn → ∃ f : Find ι, f.worker = t ∧ f.lkn = lkn ∧ Finds y f) x₁ := by
    refine Tells.op trivial _ fun s₁ log e r s₂ _ hI₁ hperf => ?_
    obtain ⟨⟨r', c⟩, hget, hperf⟩ := Run.bind_eq_ok.mp hperf
    obtain ⟨rfl, rfl⟩ := Prod.mk.inj (Except.ok.inj hperf)
    obtain ⟨hordered, hpast⟩ := @Chronicled.times _ _ ⟨t, ⟨.cacheGetLocked key, r'⟩, s₁.now⟩ _ hI₁ rfl
    obtain ⟨hholds, hfollows, hfound⟩ := hI₁.cache.getLocked hget
    refine ⟨⟨hholds.mono fun _ _ _ h => h.mono (List.prefix_append _ _),
      fun sent hsent => (hI₁.replies sent hsent).mono (List.prefix_append _ _), hordered, hpast⟩,
      ⟨List.prefix_append _ _, le_rfl, hfollows⟩, fun y hley _ lkn hr => ?_⟩
    subst hr
    obtain ⟨hlt, hlive⟩ := hfound lkn rfl
    let f : Find ι := ⟨t, key, lkn, s₁.now⟩
    refine ⟨f, rfl, rfl, Finds.mono ⟨List.mem_append_right _ (List.mem_singleton_self _), hlt,
      fun ui hui => ?_⟩ hley⟩
    obtain ⟨hkey, hnow⟩ := hlive ui hui
    obtain ⟨b, hmakes, hbkey, hdeadline, hlog⟩ := hholds.data lkn ui hui
    refine ⟨hkey, b, hmakes, hbkey.trans hkey, Or.inl ⟨hlog.append (List.Sublist.refl _), ?_⟩⟩
    show s₁.now - b.saved ≤ ui.data.ddl - b.put
    omega
  refine hlocked.bind hI₁ fun r x₂ _ hI₂ hr => ?_
  cases r with
  | none => exact Tells.pure fun _ _ _ it hit => by cases hit
  | some lkn =>
    obtain ⟨f, hf, rfl, hfinds⟩ := hr lkn rfl
    have hcopy : Dates fr t (call (.cacheGetCopy f.lkn)) (fun it y => Obtained y.2 t it []) x₂ := by
      refine Tells.op trivial _ fun s₁ log e it s₂ hle hI₃ hperf => ?_
      obtain ⟨it', hget, hperf⟩ := Run.bind_eq_ok.mp hperf
      obtain ⟨rfl, rfl⟩ := Prod.mk.inj (Except.ok.inj hperf)
      refine ⟨hI₃.snoc rfl rfl rfl rfl, goesOn_snoc rfl rfl, fun y hley _ => ?_⟩
      obtain ⟨ui, hui, rfl⟩ := Cache.liveAt_of_getCopy hget
      obtain ⟨-, b, hgot⟩ := (hfinds.mono hle).2.2 ui hui
      exact Or.inl ⟨b, f, _, hf, (hgot.snoc _).mono hley.log⟩
    refine hcopy.bind hI₂ fun it x₃ _ _ hit => Tells.pure fun y hle _ it' hit' => ?_
    obtain rfl := Option.some.inj hit'
    exact Obtained.mono hit hle.log

/-- The worker made the item, of what is in the chronicle. -/
def MadeBy (log : List (ServerEvent ι)) (t : ι) (it : Item) : Prop :=
  ∃ b : Birth ι, b.worker = t ∧ b.Makes it ∧ b.making <+ log

theorem MadeBy.mono (h : MadeBy log t it) (hle : log <+: log') : MadeBy log' t it := by
  obtain ⟨b, hb, hmakes, hlog⟩ := h
  exact ⟨b, hb, hmakes, hlog.trans hle.sublist⟩

/-- What `putItem` caches comes into the cache as the chronicle says. -/
theorem dates_putItem (hI : Chronicled x) (type : UInt16) (it : Item)
    (h : it.type ≠ 0 → MadeBy x.2 t it) : Dates fr t (putItem type it) (fun _ _ => True) x := by
  unfold putItem
  split_ifs with hzero
  · exact Tells.pure fun _ _ _ => trivial
  refine dates_compute _ hI fun name x₁ hle₁ hI₁ _ => dates_compute _ hI₁ fun key x₂ hle₂ hI₂ _ => ?_
  refine dates_time.bind hI₂ fun (now : ℤ) x₃ hle₃ hI₃ hnow => ?_
  refine Tells.op trivial _ fun s₁ log e r s₂ hle₄ hI₄ hperf => ?_
  obtain ⟨c, hput, hperf⟩ := Run.bind_eq_ok.mp hperf
  obtain ⟨-, rfl⟩ := Prod.mk.inj (Except.ok.inj hperf)
  obtain ⟨b, rfl, hmakes, hlog⟩ := h hzero
  -- The reading of `putItem` comes after those of `addRR2Item`, and `CachePut` now.
  let b' : Birth ι := { b with key := key, put := now, saved := s₁.now }
  have hevents : b'.events it <+ log ++ [b'.putEvent it] := by
    have hmade : b.making ++ [⟨b.worker, ⟨.time, now⟩, now⟩] <+ x₃.2 :=
      hnow.sublist (hlog.trans (hle₁.trans hle₂).log.sublist)
    have := (hmade.trans hle₄.log.sublist).append (List.Sublist.refl [b'.putEvent it])
    rwa [List.append_assoc] at this
  obtain ⟨hordered, hpast⟩ := @Chronicled.times _ _ (b'.putEvent it) _ hI₄ rfl
  have hkept : c.Holds (Stored (log ++ [b'.putEvent it])) ∧
      s₁.cache.Follows (StoredSince log (log ++ [b'.putEvent it])) c :=
    (hI₄.cache.mono fun _ _ _ hstored => hstored.mono (List.prefix_append _ _)).put
      ⟨b', hmakes, rfl, rfl, hevents⟩
      ⟨b', [b'.putEvent it], hmakes, rfl, rfl, hevents, rfl, List.mem_singleton_self _⟩ hput
  exact ⟨⟨hkept.1, fun sent hsent => (hI₄.replies sent hsent).mono (List.prefix_append _ _), hordered,
    hpast⟩, ⟨List.prefix_append _ _, le_rfl, hkept.2⟩, fun _ _ _ => trivial⟩

/-- `answerItem` adds an item at a time that it reads after it was obtained. -/
theorem dates_answerItem (hI : Chronicled x) (msg : Message) (hit : Obtained x.2 t it []) :
    Dates fr t (answerItem msg it) (fun m y => ∃ now, m = Item2Msg msg it it.name now ∧
      Obtained y.2 t it [⟨t, ⟨.time, now⟩, now⟩]) x := by
  refine dates_compute _ hI fun name x₁ hle₁ hI₁ hname => ?_
  obtain ⟨rfl, -⟩ := length_of_terminated hname
  refine dates_time.bind hI₁ fun now x₂ _ _ hnow => Tells.pure fun y hle _ => ?_
  exact ⟨now, rfl, (hnow.obtained (hit.mono hle₁.log)).mono hle.log⟩

/-- `storeRR` makes an item of a record that was brought. -/
theorem dates_storeRR (hI : Chronicled x) (hterm : it.Terminated) {c : HandlerCall} {arrival : ℤ}
    (hmem : ⟨t, c, arrival⟩ ∈ x.2) (hbrings : Brings c rr) :
    Dates fr t (storeRR it rr) (fun it' y => it'.Terminated ∧ ∃ b : Birth ι, b.worker = t ∧
      b.source = c ∧ b.Makes it' ∧ b.making <+ y.2) x := by
  refine dates_time.bind hI fun (now : ℤ) y _ _ hnow => ?_
  refine Tells.ofExcept trivial fun it' hok z hle _ => ?_
  have hmade : it'.MadeOf rr now := ⟨it, hterm, hok⟩
  exact ⟨hmade.terminated, ⟨t, c, arrival, rr, [], now, 0, 0⟩, rfl, rfl, ⟨hmade, hbrings⟩,
    (hnow.sublist (List.singleton_sublist.mpr hmem)).trans hle.log.sublist⟩

/-! ## The parts of the handler -/

variable {parg : Arg} {msg : Message} {q : Question}

theorem dates_replyFromCache (hI : Chronicled x) (hasks : Asks parg msg q) (name : List UInt8)
    (qtype : UInt16) : Dates fr t (replyFromCache parg msg name qtype) (fun _ _ => True) x := by
  have hdone : ∀ {b : Bool} {y : Server × List (ServerEvent ι)},
      Dates fr t (pure b : M Bool) (fun _ _ => True) y := Tells.pure fun _ _ _ => trivial
  -- Each item that is found was obtained, and is so at any later time.
  unfold replyFromCache
  split
  swap
  · exact hdone
  refine dates_compute _ hI fun name x₁ _ hI₁ _ => ?_
  refine (dates_getItem hI₁ name qtype).bind hI₁ fun r x₂ _ hI₂ hr => ?_
  cases r with
  | some it =>
    refine (dates_answerItem hI₂ msg (hr it rfl)).bind hI₂ fun m x₃ _ hI₃ hm => ?_
    obtain ⟨now, rfl, hserved⟩ := hm
    have hreply : Dates fr t (reply parg (servedReply msg [(it, now)])) (fun _ _ => True) x₃ :=
      dates_reply hI₃ hasks (by simpa using hserved)
    exact hreply.bind hI₃ fun _ _ _ _ _ => hdone
  | none =>
    dsimp only
    split
    swap
    · exact hdone
    refine (dates_getItem hI₂ name CNAME).bind hI₂ fun r x₃ _ hI₃ hr => ?_
    cases r with
    | none => exact hdone
    | some it =>
      refine (dates_getItem hI₃ (it.strVal.headD []) A).bind hI₃ fun r x₄ hle₄ hI₄ hr' => ?_
      cases r with
      | none => exact hdone
      | some tit =>
        refine (dates_answerItem hI₄ msg ((hr it rfl).mono hle₄.log)).bind hI₄
          fun m x₅ hle₅ hI₅ hm => ?_
        obtain ⟨now, rfl, hserved⟩ := hm
        refine (dates_answerItem hI₅ _ ((hr' tit rfl).mono hle₅.log)).bind hI₅
          fun m x₆ hle₆ hI₆ hm => ?_
        obtain ⟨now', rfl, hserved'⟩ := hm
        have hreply : Dates fr t (reply parg (servedReply msg [(it, now), (tit, now')]))
            (fun _ _ => True) x₆ :=
          dates_reply hI₆ hasks (by simpa using ⟨hserved.mono hle₆.log, hserved'⟩)
        exact hreply.bind hI₆ fun _ _ _ _ _ => hdone

/-- What a lookup in the local file returns was read there. -/
theorem dates_getRecord (hI : Chronicled x) (domain : List UInt8) :
    Dates fr t (getRecord fr domain) (fun r y => ∀ ip, r = some ip → ∃ cur w now, ip = cstr w ∧
      ⟨t, ⟨.fscanf domain cur, some w⟩, now⟩ ∈ y.2) x := by
  refine dates_compute _ hI fun r x₁ _ hI₁ _ => ?_
  cases r with
  | none => exact Tells.pure fun _ _ _ ip hip => by cases hip
  | some cur =>
    have hseek : (Op.fseek cur).Aside := trivial
    have hscan : (Op.fscanf domain cur).Aside := trivial
    refine (dates_aside hseek).bind hI₁ fun _ x₂ _ hI₂ _ => ?_
    refine (dates_aside hscan).bind hI₂ fun r x₃ _ _ hnoted => ?_
    cases r with
    | none => exact Tells.fail trivial
    | some w =>
      refine Tells.pure fun y hle _ ip hip => ?_
      obtain rfl := Option.some.inj hip
      obtain ⟨now, hnoted⟩ := hnoted
      have hmem := hnoted.sublist (List.nil_sublist _)
      exact ⟨cur, w, now, rfl, hle.log.subset (hmem.subset (List.mem_singleton_self _))⟩

theorem terminated_zeroItem : zeroItem.Terminated := fun s hs => by
  rw [List.eq_of_mem_replicate hs]
  decide

theorem dates_replyFromFile (hI : Chronicled x) (hasks : Asks parg msg q) (name : List UInt8)
    (qtype : UInt16) :
    Dates fr t (replyFromFile fr parg msg name qtype) (fun _ _ => True) x := by
  unfold replyFromFile
  split
  swap
  · exact Tells.pure fun _ _ _ => trivial
  refine dates_compute _ hI fun name x₁ _ hI₁ _ => ?_
  refine (dates_getRecord hI₁ name).bind hI₁ fun r x₂ _ hI₂ hr => ?_
  cases r with
  | none => exact Tells.pure fun _ _ _ => trivial
  | some ip =>
    dsimp only
    cases haddr : inet_pton ip with
    | none => exact Tells.fail trivial
    | some addr =>
      obtain ⟨cur, w, time, rfl, hmem⟩ := hr ip rfl
      refine (dates_storeRR hI₂ terminated_zeroItem hmem ⟨addr, haddr, rfl⟩).bind hI₂
        fun tmp x₃ _ hI₃ htmp => ?_
      obtain ⟨-, b, hb, hsource, hmakes, hmaking⟩ := htmp
      refine (dates_putItem hI₃ A tmp fun _ => ⟨b, hb, hmakes, hmaking⟩).bind hI₃
        fun _ x₄ hle₄ hI₄ _ => ?_
      have hfile : Obtained x₄.2 t tmp [] := by
        refine Or.inr ⟨b, name, w, cur, hb, hmakes, hsource, ?_⟩
        rw [List.append_nil]
        exact hmaking.trans hle₄.log.sublist
      refine (dates_answerItem hI₄ msg hfile).bind hI₄ fun m x₅ _ hI₅ hm => ?_
      obtain ⟨now, rfl, hserved⟩ := hm
      have hreply : Dates fr t (reply parg (servedReply msg [(tmp, now)])) (fun _ _ => True) x₅ :=
        dates_reply hI₅ hasks (by simpa using hserved)
      exact hreply.bind hI₅ fun _ _ _ _ _ => Tells.pure fun _ _ _ => trivial

/-- An item is empty, or its worker made it. -/
def EmptyOrMade (log : List (ServerEvent ι)) (t : ι) (it : Item) : Prop :=
  it.Terminated ∧ (it.type ≠ 0 → MadeBy log t it)

theorem EmptyOrMade.mono (h : EmptyOrMade log t it) (hle : log <+: log') : EmptyOrMade log' t it :=
  ⟨h.1, fun hne => (h.2 hne).mono hle⟩

/-- The items of a response are empty, or the worker made them. -/
structure Items.MadeBy (log : List (ServerEvent ι)) (t : ι) (items : Items) : Prop where
  Ait : EmptyOrMade log t items.Ait
  Nit : EmptyOrMade log t items.Nit
  Cit : EmptyOrMade log t items.Cit

theorem dates_collect (hI : Chronicled x) {c : HandlerCall} {arrival : ℤ}
    (hmem : ⟨t, c, arrival⟩ ∈ x.2) (rrs : List RR) (hrrs : ∀ rr ∈ rrs, Brings c rr) {items : Items}
    (h : items.MadeBy x.2 t) :
    Dates fr t (collect rrs items) (fun items' y => items'.MadeBy y.2 t) x := by
  induction rrs generalizing items x with
  | nil =>
    exact Tells.pure fun _ hle _ =>
      ⟨h.Ait.mono hle.log, h.Nit.mono hle.log, h.Cit.mono hle.log⟩
  | cons rr rrs ih =>
    -- Whatever item the record goes to, it is made by this worker of a record that was brought.
    have hstore : ∀ {it : Item}, it.Terminated →
        Dates fr t (storeRR it rr) (fun it' y => EmptyOrMade y.2 t it') x := fun hterm =>
      Safe.weaken (dates_storeRR hI hterm hmem (hrrs rr List.mem_cons_self)) fun _ _ _ hit' =>
        have ⟨hterm', b, hb, _, hmakes, hmaking⟩ := hit'
        ⟨hterm', fun _ => ⟨b, hb, hmakes, hmaking⟩⟩
    have hrest : ∀ rr ∈ rrs, Brings c rr := fun rr hrr => hrrs rr (List.mem_cons_of_mem _ hrr)
    unfold collect
    split_ifs
    · refine (hstore h.Ait.1).bind hI fun it' y hle hI' hit' => ?_
      exact ih hI' (hle.log.subset hmem) hrest ⟨hit', h.Nit.mono hle.log, h.Cit.mono hle.log⟩
    · refine (hstore h.Nit.1).bind hI fun it' y hle hI' hit' => ?_
      exact ih hI' (hle.log.subset hmem) hrest ⟨h.Ait.mono hle.log, hit', h.Cit.mono hle.log⟩
    · refine (hstore h.Cit.1).bind hI fun it' y hle hI' hit' => ?_
      exact ih hI' (hle.log.subset hmem) hrest ⟨h.Ait.mono hle.log, h.Nit.mono hle.log, hit'⟩
    · exact ih hI hmem hrest h

theorem dates_cacheRecords (hI : Chronicled x) {d : Received} {arrival : ℤ}
    (hmem : ⟨t, ⟨.recvfrom, some d⟩, arrival⟩ ∈ x.2) :
    Dates fr t (cacheRecords d) (fun _ _ => True) x := by
  refine dates_compute _ hI fun r x₁ hle₁ hI₁ hdecode => ?_
  obtain ⟨msg, n⟩ := r
  have hrrs : ∀ rr ∈ msg.resourse_record.ANSWER, Brings ⟨.recvfrom, some d⟩ rr := by
    rw [← answers_of_decode hdecode]
    exact fun rr hrr => hrr
  have hempty : EmptyOrMade x₁.2 t zeroItem := ⟨terminated_zeroItem, fun hne => absurd rfl hne⟩
  refine (dates_collect hI₁ (hle₁.log.subset hmem) _ hrrs ⟨hempty, hempty, hempty⟩).bind hI₁
    fun items x₂ _ hI₂ hitems => ?_
  refine (dates_putItem hI₂ _ _ hitems.Ait.2).bind hI₂ fun _ x₃ hle₃ hI₃ _ => ?_
  refine (dates_putItem hI₃ _ _ (hitems.Nit.mono hle₃.log).2).bind hI₃ fun _ x₄ hle₄ hI₄ _ => ?_
  exact dates_putItem hI₄ _ _ ((hitems.Cit.mono hle₃.log).mono hle₄.log).2

theorem dates_relay (hI : Chronicled x) (hasks : Asks parg msg q) (qtype : UInt16) :
    Dates fr t (relay parg msg qtype) (fun _ _ => True) x := by
  have hfailure : ∀ {y : Server × List (ServerEvent ι)}, Chronicled y →
      Dates fr t (replyFailure parg msg) (fun _ _ => True) y := fun hI =>
    dates_reply hI hasks fun p hp => absurd hp List.not_mem_nil
  have hSocket : Op.Socket.Aside := trivial
  have hsend : (Op.sendtoServer parg.buff.bytes).Aside := trivial
  have hclose : Op.close.Aside := trivial
  refine (dates_aside hSocket).bind hI fun _ x₁ _ hI₁ _ => ?_
  refine (dates_aside hsend).bind hI₁ fun sent x₂ _ hI₂ _ => ?_
  cases sent with
  | false =>
    have hshow : (Op.showRequest qtype).Aside := trivial
    exact (dates_aside hshow).bind hI₂ fun _ _ _ hI₃ _ => hfailure hI₃
  | true =>
    refine dates_recvfrom.bind hI₂ fun r x₃ _ hI₃ hnoted => ?_
    cases r with
    | none => exact hfailure hI₃
    | some d =>
      obtain ⟨arrival, hnoted⟩ := hnoted
      have hmem := (hnoted.sublist (List.nil_sublist _)).subset (List.mem_singleton_self _)
      refine (dates_aside hclose).bind hI₃ fun _ x₄ hle₄ hI₄ _ => ?_
      -- What is forwarded is not built.
      have hforward : Dates fr t (call (.sendto parg (.forwarded d.bytes))) (fun _ _ => True) x₄ :=
        dates_sendto parg _ fun _ _ _ _ _ hreply => by cases hreply
      exact hforward.bind hI₄ fun _ x₅ hle₅ hI₅ _ =>
        dates_cacheRecords hI₅ ((hle₄.trans hle₅).log.subset hmem)

/-- The handler keeps the chronicle. -/
theorem dates_handler (hI : Chronicled x) (parg : Arg) :
    Dates fr t (handler fr parg) (fun _ _ => True) x := by
  refine dates_compute _ hI fun r x₁ _ hI₁ hasks => ?_
  obtain ⟨msg, q⟩ := r
  have hshow : (Op.showRequest q.q_type).Aside := trivial
  refine (dates_aside hshow).bind hI₁ fun _ x₂ _ hI₂ _ => ?_
  refine (dates_replyFromCache hI₂ hasks _ _).bind hI₂ fun replied x₃ _ hI₃ _ => ?_
  cases replied with
  | true => exact Tells.pure fun _ _ _ => trivial
  | false =>
    refine (dates_replyFromFile hI₃ hasks _ _).bind hI₃ fun replied x₄ _ hI₄ _ => ?_
    cases replied with
    | true => exact Tells.pure fun _ _ _ => trivial
    | false => exact dates_relay hI₄ hasks _

/-! ## Runs -/

/-- In every run in which the clock is not set back, the chronicle accounts for what is in the cache and
for every reply. -/
theorem chronicled_of_forward [DecidableEq ι] {cachesize : ℤ} {as : List (ServerAction ι)}
    (has : Meets (serverStep fr) Forward (serverInit fr cachesize now) as) :
    ∀ pre, pre <+: as → ∀ s, exec (serverStep fr) (serverInit fr cachesize now) pre = .ok s →
      Chronicled (s.shared, chronicle fr cachesize now pre) := by
  have hinit : Chronicled ((⟨now, createCache cachesize, fr.fd.length, 0, [], []⟩ : Server),
      ([] : List (ServerEvent ι))) :=
    ⟨Cache.createCache_holds _, fun _ h => absurd h List.not_mem_nil, List.Pairwise.nil,
      fun _ h => absurd h List.not_mem_nil⟩
  have hchange : ∀ (s : Workers ι) (x : ℤ) (log : List (ServerEvent ι)), Forward s (.outside x) →
      Chronicled (s.shared, log) → Chronicled (s.shared.setClock x, log) ∧
        GoesOn (s.shared, log) (s.shared.setClock x, log) := fun s x log hx h =>
    ⟨⟨h.cache, h.replies, h.ordered, fun ev hev => (h.past ev hev).trans hx⟩,
      ⟨List.prefix_refl _, hx, .refl _⟩⟩
  have hD : ∀ s o e, (clockDiscipline ι).ok s o e := fun _ _ _ => trivial
  exact chronicle_invariant hD (fun t parg x hI => dates_handler hI parg) hchange hinit has

/-- In such a run, the strings of what is cached are terminated. -/
theorem cache_terminated [DecidableEq ι] {cachesize : ℤ} {as : List (ServerAction ι)}
    (has : Meets (serverStep fr) Forward (serverInit fr cachesize now) as) {s : Workers ι}
    (hs : exec (serverStep fr) (serverInit fr cachesize now) as = .ok s) {lkn : ℕ}
    (hcopy : cacheGetCopy s.shared.cache lkn = .ok it) : it.Terminated := by
  obtain ⟨ui, -, b, ⟨hmade, -⟩, -⟩ :=
    (chronicled_of_forward has as (List.prefix_refl as) s hs).cache.getCopy hcopy
  exact hmade.terminated

end DnsRelayer
