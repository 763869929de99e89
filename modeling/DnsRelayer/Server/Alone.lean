import DnsRelayer.Server.System
import DnsRelayer.Server.ItemSpec
import DnsRelayer.Cache.Runs

/-!
# A handler alone

What a handler does when no other comes in between, part by part: the items that it finds and puts in
the cache, the reply of an item, and the records that it takes from a response. `exists_run_of_alone`
makes a run of the server of it.
-/

namespace DnsRelayer

open Lib

/-- A program of the handler, by itself. -/
abbrev Conditions.Alone (C : Conditions) (fr : FileReader) {α : Type} (p : M α) (s : Server) (a : α)
    (s' : Server) : Prop :=
  Lib.Alone (perform fr) C.Op p s a s'

/-- Descriptors are there, packets can be sent, and no response comes. -/
def silent : Env := ⟨true, true, none, true⟩

/-- The same, and a response comes. -/
def answering (d : Received) : Env := ⟨true, true, some d, true⟩

/-- A datagram in a buffer of zeros. -/
def padded (bytes : List UInt8) (h : bytes.length ≤ BUFF_SIZE) : Received where
  bytes := bytes
  rest := List.replicate (BUFF_SIZE - bytes.length) 0
  length_eq := by
    rw [List.length_append, List.length_replicate]
    omega

/-- A query for the addresses of version 6 of the name `a`. -/
def queryAAAA : Arg :=
  ⟨padded [0, 1, 1, 0, 0, 1, 0, 0, 0, 0, 0, 0, 1, 97, 0, 0, 28, 0, 1] (by decide), 0⟩

/-- The loop over the answer section of a response, at a time. -/
def collectAt (now : ℤ) : List RR → Items → Run Items
  | [], items => return items
  | rr :: rrs, items => do
    if rr.type = A then
      let Ait ← addRR2Item items.Ait rr now
      collectAt now rrs { items with Ait := Ait }
    else if rr.type = NS then
      let Nit ← addRR2Item items.Nit rr now
      collectAt now rrs { items with Nit := Nit }
    else if rr.type = CNAME then
      let Cit ← addRR2Item items.Cit rr now
      collectAt now rrs { items with Cit := Cit }
    else collectAt now rrs items

namespace Conditions

/-- Anything may come from outside, at any time. -/
def anything : Conditions := ⟨fun _ => True, fun _ => True, fun _ _ _ => True, False⟩

variable {C : Conditions} {fr : FileReader} {s : Server} {parg : Arg} {msg : Message} {q : Question}

theorem alone_time : C.Alone fr (call .time) s s.now s := Alone.op (e := silent) trivial rfl

theorem alone_showRequest (q_type : UInt16) : C.Alone fr (call (.showRequest q_type)) s () s := by
  refine Alone.op (e := silent) trivial ?_
  simp [perform, silent]

/-- A reply is sent. -/
theorem alone_reply {bytes : List UInt8} (henc : encode msg = .ok bytes)
    (hle : bytes.length ≤ BUFF_SIZE) :
    C.Alone fr (reply parg msg) s ()
      { s with replies := ⟨s.now, parg, .built msg bytes⟩ :: s.replies } := by
  rw [reply_of_encode henc hle]
  exact Alone.op (e := silent) trivial rfl

/-! ## Items -/

theorem alone_keyOf {name key : List UInt8} {type : UInt16} (h : calcKey name type = some key) :
    C.Alone fr (compute (keyOf name type)) s key s := by
  refine Alone.ofExcept ?_
  rw [keyOf, h]

theorem alone_terminated {array : List UInt8} (h : array.length < STR_LEN) :
    C.Alone fr (compute (terminated array)) s array s := by
  refine Alone.ofExcept ?_
  rw [terminated, if_neg (Nat.not_le.mpr h)]

variable {l r ps : List (ℕ × Lib.Entry (List UInt8) Item)}
  {p : ℕ × Lib.Entry (List UInt8) Item}

/-- An item that is in the cache is found, and moved to the front. -/
theorem alone_getItem (h : s.cache.Rep (l ++ p :: r)) (hlen : 0 < s.cache.hTab.len)
    {name : List UInt8} {type : UInt16} (hkey : calcKey name type = some p.2.key)
    (hexp : ¬ p.2.Expired s.now) :
    ∃ c, C.Alone fr (getItem name type) s (some p.2.value) { s with cache := c } ∧
      c.Rep (p :: (l ++ r)) ∧ 0 < c.hTab.len := by
  have hsearch := h.search_of_mem hlen (p := p) (by simp)
  have hget : s.cache.heap.getData p.1 = .ok (SaveUnit.of p.2) := h.getData (by simp)
  obtain ⟨c, hmove, hrep, htab, -⟩ := moveToHead_spec h
  have hlive : ¬ s.now - (SaveUnit.of p.2).saveTime > (SaveUnit.of p.2).TTL := hexp
  have hlocked : cacheGetLocked s.cache p.2.key s.now = .ok (some p.1, c) := by
    simp only [cacheGetLocked, hsearch, Run.ok_bind, hget, if_neg hlive, hmove]
    rfl
  have hcopy : cacheGetCopy c p.1 = .ok p.2.value := by
    simp only [cacheGetCopy, hrep.getData (p := p) (by simp), Run.ok_bind]
    rfl
  refine ⟨c, ?_, hrep, htab ▸ hlen⟩
  -- Nothing comes in between the two sections.
  have hfind : C.Alone fr (call (.cacheGetLocked p.2.key)) s (some p.1) { s with cache := c } := by
    refine Alone.op (e := silent) trivial ?_
    simp only [perform, hlocked, Run.ok_bind]
    rfl
  have hread : C.Alone fr (call (.cacheGetCopy p.1)) { s with cache := c } p.2.value
      { s with cache := c } := by
    refine Alone.op (e := silent) trivial ?_
    simp only [perform, hcopy, Run.ok_bind]
    rfl
  exact (alone_keyOf hkey).bind (hfind.bind (hread.bind .pure))

/-- An item that is not in the cache is not found. -/
theorem alone_getItem_none (h : s.cache.Rep ps) (hlen : 0 < s.cache.hTab.len)
    {name key : List UInt8} {type : UInt16} (hkey : calcKey name type = some key)
    (hnone : key ∉ ps.map (·.2.key)) : C.Alone fr (getItem name type) s none s := by
  have hlocked : cacheGetLocked s.cache key s.now = .ok (none, s.cache) := by
    simp only [cacheGetLocked, h.search_of_notMem hlen hnone, Run.ok_bind]
    rfl
  have hfind : C.Alone fr (call (.cacheGetLocked key)) s none s := by
    refine Alone.op (e := silent) trivial ?_
    simp only [perform, hlocked, Run.ok_bind]
    rfl
  exact (alone_keyOf hkey).bind (hfind.bind .pure)

/-- An item without a type is not put into the cache. -/
theorem alone_putItem_zero {type : UInt16} {it : Item} (h : it.type = 0) :
    C.Alone fr (putItem type it) s () s := by
  rw [putItem, if_pos h]
  exact .pure

/-- An item is put into the cache under its own key. -/
theorem alone_putItem {type : UInt16} {it : Item} {key : List UInt8} {c : Cache Item}
    (htype : it.type ≠ 0) (hlen : it.name.length < STR_LEN)
    (hkey : calcKey it.name type = some key)
    (hput : cachePut s.cache key it (it.ddl - s.now) s.now = .ok c) :
    C.Alone fr (putItem type it) s () { s with cache := c } := by
  rw [putItem, if_neg htype]
  refine (alone_terminated hlen).bind ((alone_keyOf hkey).bind (alone_time.bind ?_))
  refine Alone.op (e := silent) trivial ?_
  simp only [perform, hput, Run.ok_bind]
  rfl

/-- An item is added to a reply. -/
theorem alone_answerItem {it : Item} (hlen : it.name.length < STR_LEN) :
    C.Alone fr (answerItem msg it) s (Item2Msg msg it it.name s.now) s :=
  (alone_terminated hlen).bind (alone_time.bind .pure)

theorem alone_storeRR {it it' : Item} {rr : RR} (h : addRR2Item it rr s.now = .ok it') :
    C.Alone fr (storeRR it rr) s it' s :=
  alone_time.bind (Alone.ofExcept h)

/-- The records of a response are put into the items. -/
theorem alone_collect {rrs : List RR} {items items' : Items}
    (h : collectAt s.now rrs items = .ok items') : C.Alone fr (collect rrs items) s items' s := by
  induction rrs generalizing items with
  | nil =>
    obtain rfl := Except.ok.inj h
    exact .pure
  | cons rr rrs ih =>
    unfold collectAt at h
    unfold collect
    split_ifs at h ⊢
    · obtain ⟨it, hit, h⟩ := Run.bind_eq_ok.mp h
      exact (alone_storeRR hit).bind (ih h)
    · obtain ⟨it, hit, h⟩ := Run.bind_eq_ok.mp h
      exact (alone_storeRR hit).bind (ih h)
    · obtain ⟨it, hit, h⟩ := Run.bind_eq_ok.mp h
      exact (alone_storeRR hit).bind (ih h)
    · exact ih h

/-! ## Handlers -/

/-- The server answers a query for records that are not cached, and the records that are cached of the
response are put into the cache. -/
theorem alone_relay (hasks : Asks parg msg q) (hc : ¬ Cached q.q_type) {d : Received}
    (hd : C.response d) {m : Message} {n : ℕ} (hdecode : decode (d.bytes ++ d.rest) = .ok (m, n))
    {items : Items} (hitems : collectAt s.now m.resourse_record.ANSWER
      ⟨zeroItem, zeroItem, zeroItem⟩ = .ok items) {s' : Server}
    (hput : C.Alone fr (do
        putItem items.Ait.type.toUInt16 items.Ait
        putItem items.Nit.type.toUInt16 items.Nit
        putItem items.Cit.type.toUInt16 items.Cit)
      { s with
        received := ⟨s.now, d⟩ :: s.received
        replies := ⟨s.now, parg, .forwarded d.bytes⟩ :: s.replies } () s') :
    C.Alone fr (handler fr parg) s () s' := by
  -- The operations in turn, with what comes from outside in each.
  have hopen : C.Alone fr (call .Socket) s () { s with sockets := s.sockets + 1 } :=
    Alone.op (e := silent) trivial rfl
  have hsend : ∀ t bytes, C.Alone fr (call (.sendtoServer bytes)) t true t := fun _ _ =>
    Alone.op (e := silent) trivial rfl
  have hwait : ∀ t, C.Alone fr (call .recvfrom) t (some d)
      { t with received := ⟨t.now, d⟩ :: t.received } := fun _ =>
    Alone.op (e := answering d) (fun d' hd' => Option.some.inj hd' ▸ hd) rfl
  have hclose : ∀ t, C.Alone fr (call .close) t () { t with sockets := t.sockets - 1 } := fun _ =>
    Alone.op (e := silent) trivial rfl
  have hforward : ∀ t reply, C.Alone fr (call (.sendto parg reply)) t ()
      { t with replies := ⟨t.now, parg, reply⟩ :: t.replies } := fun _ _ =>
    Alone.op (e := silent) trivial rfl
  have hcollect : C.Alone fr (collect m.resourse_record.ANSWER ⟨zeroItem, zeroItem, zeroItem⟩)
      { s with
        received := ⟨s.now, d⟩ :: s.received
        replies := ⟨s.now, parg, .forwarded d.bytes⟩ :: s.replies } items
      { s with
        received := ⟨s.now, d⟩ :: s.received
        replies := ⟨s.now, parg, .forwarded d.bytes⟩ :: s.replies } := alone_collect hitems
  rw [handler_of_not_cached hasks hc]
  refine (alone_showRequest _).bind (hopen.bind ((hsend _ _).bind ((hwait _).bind ?_)))
  refine (hclose _).bind ((hforward _ _).bind ((Alone.ofExcept hdecode).bind ?_))
  exact hcollect.bind hput

/-- A query is answered with an item that is in the cache. -/
theorem alone_hit (hasks : Asks parg msg q) (hc : Cached q.q_type)
    (hname : q.q_name.length < STR_LEN) (h : s.cache.Rep (l ++ p :: r))
    (hlen : 0 < s.cache.hTab.len) (hkey : calcKey q.q_name q.q_type = some p.2.key)
    (hexp : ¬ p.2.Expired s.now) (hit : p.2.value.name.length < STR_LEN) {bytes : List UInt8}
    (henc : encode (Item2Msg msg p.2.value p.2.value.name s.now) = .ok bytes)
    (hle : bytes.length ≤ BUFF_SIZE) :
    ∃ c, C.Alone fr (handler fr parg) s () { s with
        cache := c
        replies := ⟨s.now, parg, .built (Item2Msg msg p.2.value p.2.value.name s.now) bytes⟩ ::
          s.replies } ∧
      c.Rep (p :: (l ++ r)) ∧ 0 < c.hTab.len := by
  obtain ⟨c, hget, hrep, hpos⟩ := @alone_getItem C fr s _ _ _ h hlen _ _ hkey hexp
  refine ⟨c, ?_, hrep, hpos⟩
  have hcopy : strncpy q.q_name STR_LEN = q.q_name := strncpy_of_length_le hname.le
  refine (Alone.ofExcept hasks).bind ((alone_showRequest _).bind ?_)
  simp only [hcopy, replyFromCache, if_pos hc]
  refine Alone.bind (a := true) ?_ .pure
  refine (alone_terminated hname).bind (hget.bind ?_)
  exact (alone_answerItem hit).bind ((alone_reply henc hle).bind .pure)

/-- A query for an address that is not in the cache is answered from the local file. -/
theorem alone_file (hasks : Asks parg msg q) (hA : q.q_type = A)
    (hname : q.q_name.length < STR_LEN) (h : s.cache.Rep ps) (hlen : 0 < s.cache.hTab.len)
    {key key' : List UInt8} (hkey : calcKey q.q_name A = some key)
    (hkey' : calcKey q.q_name CNAME = some key') (hnone : key ∉ ps.map (·.2.key))
    (hnone' : key' ∉ ps.map (·.2.key)) {cur pos : ℕ} {ip addr : List UInt8} {tmp : Item}
    (hfind : file_reader_find fr q.q_name = .ok (some cur)) (hcur : C.scan q.q_name cur cur)
    (hscan : file_reader_scan fr HANDLER_IP_SIZE cur = .ok (some ip, pos))
    (haddr : inet_pton (cstr ip) = some addr)
    (htmp : addRR2Item zeroItem (fileRR q.q_name addr) s.now = .ok tmp)
    (htmpname : tmp.name = q.q_name) (htype : tmp.type ≠ 0) {c : Cache Item}
    (hput : cachePut s.cache key tmp (tmp.ddl - s.now) s.now = .ok c) {bytes : List UInt8}
    (henc : encode (Item2Msg msg tmp tmp.name s.now) = .ok bytes)
    (hle : bytes.length ≤ BUFF_SIZE) :
    C.Alone fr (handler fr parg) s () { s with
      cache := c
      pos := pos
      replies := ⟨s.now, parg, .built (Item2Msg msg tmp tmp.name s.now) bytes⟩ :: s.replies } := by
  have hcopy : strncpy q.q_name STR_LEN = q.q_name := strncpy_of_length_le hname.le
  have htmplen : tmp.name.length < STR_LEN := by rw [htmpname]; exact hname
  have hseek : C.Alone fr (call (.fseek cur)) s () { s with pos := cur } :=
    Alone.op (e := silent) trivial rfl
  have hread : C.Alone fr (call (.fscanf q.q_name cur)) { s with pos := cur } (some ip)
      { s with pos := pos } := by
    refine Alone.op (e := silent) hcur ?_
    simp only [perform, hscan, Run.ok_bind]
    rfl
  have hrecord : C.Alone fr (getRecord fr q.q_name) s (some (cstr ip)) { s with pos := pos } :=
    (Alone.ofExcept hfind).bind (hseek.bind (hread.bind .pure))
  have hstore : C.Alone fr (storeRR zeroItem (fileRR q.q_name addr)) { s with pos := pos } tmp
      { s with pos := pos } :=
    alone_storeRR htmp
  have hcached : C.Alone fr (putItem A tmp) { s with pos := pos } ()
      { s with cache := c, pos := pos } :=
    alone_putItem htype htmplen (by rw [htmpname]; exact hkey) hput
  -- The cache has neither an address nor an alias.
  have hcache : C.Alone fr (replyFromCache parg msg q.q_name A) s false s := by
    rw [replyFromCache, if_pos (show Cached A from Or.inl rfl)]
    refine (alone_terminated hname).bind ((alone_getItem_none h hlen hkey hnone).bind ?_)
    exact (alone_getItem_none h hlen hkey' hnone').bind .pure
  have hfile : C.Alone fr (replyFromFile fr parg msg q.q_name A) s true { s with
      cache := c
      pos := pos
      replies := ⟨s.now, parg, .built (Item2Msg msg tmp tmp.name s.now) bytes⟩ :: s.replies } := by
    rw [replyFromFile, if_pos rfl]
    refine (alone_terminated hname).bind (hrecord.bind ?_)
    simp only [haddr]
    exact hstore.bind (hcached.bind ((alone_answerItem htmplen).bind
      ((alone_reply henc hle).bind .pure)))
  refine (Alone.ofExcept hasks).bind ((alone_showRequest _).bind ?_)
  simp only [hcopy, hA]
  exact hcache.bind (hfile.bind .pure)

/-! ## Runs -/

/-- A handler alone is a run of the server. -/
theorem exists_run_of_alone {ι : Type} [DecidableEq ι] (t : ι) (hparg : C.request parg)
    {s' : Server} (h : C.Alone fr (handler fr parg) s () s') :
    ∃ as, Meets (serverStep fr) C.Step (⟨s, fun _ => none⟩ : Workers ι) as ∧
      exec (serverStep fr) ⟨s, fun _ => none⟩ as = .ok ⟨s', fun _ => none⟩ :=
  exec_alone (t := t) (fun _ => hparg) (fun _ _ h => h) silent h

/-- A response to a query for records that are not cached, of which an item is put into the empty cache,
and a second query, at another time, which is answered with the item. -/
theorem exists_run_of_learn_hit {ι : Type} [DecidableEq ι] (t : ι) {cachesize : ℕ}
    (hsize : 1 ≤ cachesize) (hint : cachesize < 2 ^ 31) {now now' : ℤ} {parg' : Arg} {msg' : Message}
    {q' : Question} (hparg : C.request parg) (hasks : Asks parg msg q) (hc : ¬ Cached q.q_type)
    {d : Received} (hd : C.response d) {m : Message} {n : ℕ}
    (hdecode : decode (d.bytes ++ d.rest) = .ok (m, n)) {items : Items}
    (hitems : collectAt now m.resourse_record.ANSWER ⟨zeroItem, zeroItem, zeroItem⟩ = .ok items)
    {it : Item} {key : List UInt8} (hkey : Fits key)
    (hput : ∀ (s : Server) (c : Cache Item),
      cachePut s.cache key it (it.ddl - s.now) s.now = .ok c → C.Alone fr (do
        putItem items.Ait.type.toUInt16 items.Ait
        putItem items.Nit.type.toUInt16 items.Nit
        putItem items.Cit.type.toUInt16 items.Cit) s () { s with cache := c })
    (hparg' : C.request parg') (hasks' : Asks parg' msg' q') (hc' : Cached q'.q_type)
    (hname' : q'.q_name.length < STR_LEN) (hkey' : calcKey q'.q_name q'.q_type = some key)
    (hlive : now' ≤ it.ddl) (hit : it.name.length < STR_LEN) {bytes : List UInt8}
    (henc : encode (Item2Msg msg' it it.name now') = .ok bytes) (hle : bytes.length ≤ BUFF_SIZE) :
    ∃ as s, Meets (serverStep fr) C.Step (serverInit fr cachesize now : Workers ι) as ∧
      exec (serverStep fr) (serverInit fr cachesize now : Workers ι) as = .ok s ∧
      s.shared.received = [⟨now, d⟩] ∧
      s.shared.replies = [⟨now', parg', .built (Item2Msg msg' it it.name now') bytes⟩,
        ⟨now, parg, .forwarded d.bytes⟩] := by
  have hnew : (createCache cachesize : Cache Item).Rep [] := createCache_rep hint
  have hpos : 0 < (createCache cachesize : Cache Item).hTab.len := createCache_chain _
  obtain ⟨c, nod, hok, hrep, -, hlen⟩ := cachePut_of_lt hnew hpos hkey (by simp)
    (show (([] : List (ℕ × Lib.Entry (List UInt8) Item)).length : ℤ) < (createCache cachesize :
      Cache Item).maxSize by simp only [createCache, List.length_nil]; omega) it (it.ddl - now) now
  have h₁ : C.Alone fr (handler fr parg) ⟨now, createCache cachesize, fr.fd.length, 0, [], []⟩ ()
      ⟨now, c, fr.fd.length, 0, [⟨now, d⟩], [⟨now, parg, .forwarded d.bytes⟩]⟩ :=
    alone_relay hasks hc hd hdecode hitems (hput _ c hok)
  obtain ⟨as, has, hexec⟩ := exists_run_of_alone t hparg h₁
  obtain ⟨c', h₂, -⟩ := @alone_hit C fr
    ⟨now', c, fr.fd.length, 0, [⟨now, d⟩], [⟨now, parg, .forwarded d.bytes⟩]⟩ parg' msg' q' [] []
    (nod, ⟨key, it, now, it.ddl - now⟩) hasks' hc' hname' hrep hlen hkey'
    (by simp only [Lib.Entry.Expired]; omega) hit bytes henc hle
  obtain ⟨bs, hbs, hexec'⟩ := exists_run_of_alone t hparg' h₂
  -- In between the clock changes.
  have hclock : exec (serverStep fr)
      (⟨⟨now, c, fr.fd.length, 0, [⟨now, d⟩], [⟨now, parg, .forwarded d.bytes⟩]⟩,
        fun _ => none⟩ : Workers ι) [.outside now'] =
      .ok ⟨⟨now', c, fr.fd.length, 0, [⟨now, d⟩], [⟨now, parg, .forwarded d.bytes⟩]⟩,
        fun _ => none⟩ := rfl
  refine ⟨as ++ ([.outside now'] ++ bs), _, ?_, exec_append hexec (exec_append hclock hexec'), rfl,
    rfl⟩
  refine meets_append has hexec (meets_append (meets_cons (fun _ _ => rfl) fun _ _ => meets_nil)
    hclock hbs)

end Conditions

/-! ## Two responses -/

/-- A run in which a response to `queryAAAA` is received at the time 0, of which there is one item to put
into the cache, and at another time a query is answered with this item. -/
theorem exists_run_of_item {C : Conditions} {parg : Arg} {d : Received} (hrequest : C.request queryAAAA)
    (hrequest' : C.request parg) (hresponse : C.response d) (fr : FileReader) {now : ℤ} (items : Items)
    {it : Item} {key : List UInt8} {answers : List RR}
    (hanswer : (decode (d.bytes ++ d.rest)).map
      (fun r => collectAt 0 r.1.resourse_record.ANSWER ⟨zeroItem, zeroItem, zeroItem⟩) =
      .ok (.ok items))
    (hone : [items.Ait, items.Nit, items.Cit].filter (·.type ≠ 0) = [it])
    (hcached : Cached it.type.toUInt16) (hkey : calcKey it.name it.type.toUInt16 = some key)
    (hfits : Fits key) (hlen : it.name.length < STR_LEN) (hlive : now ≤ it.ddl)
    (hserve : (request (parg.buff.bytes ++ parg.buff.rest)).map
      (fun r => (r.2.q_name, r.2.q_type, (Item2Msg r.1 it it.name now).resourse_record.ANSWER,
        (encode (Item2Msg r.1 it it.name now)).map (decide <| ·.length ≤ BUFF_SIZE))) =
      .ok (it.name, it.type.toUInt16, answers, .ok true)) :
    ∃ as s msg bytes,
      Meets (serverStep fr) C.Step (serverInit fr (10 : ℕ) 0 : Workers (Fin 1)) as ∧
      exec (serverStep fr) (serverInit fr (10 : ℕ) 0 : Workers (Fin 1)) as = .ok s ∧
      s.shared.received = [⟨0, d⟩] ∧
      ⟨now, parg, .built msg bytes⟩ ∈ s.shared.replies ∧
      msg.resourse_record.ANSWER = answers := by
  have hquery : (request (queryAAAA.buff.bytes ++ queryAAAA.buff.rest)).map (·.2.q_type) =
      .ok 28 := by
    decide +kernel
  obtain ⟨⟨msg, q⟩, hasks, hq⟩ := Run.map_eq_ok.mp hquery
  obtain ⟨⟨m, n⟩, hdecode, hitems⟩ := Run.map_eq_ok.mp hanswer
  obtain ⟨⟨msg', q'⟩, hasks', hserved⟩ := Run.map_eq_ok.mp hserve
  simp only [Prod.mk.injEq] at hserved
  obtain ⟨hname, htype, hanswers, henc⟩ := hserved
  obtain ⟨bytes, hbytes, hle⟩ := Run.map_eq_ok.mp henc
  -- Of the three items, two have no type.
  have hput : ∀ (s : Server) (c : Cache Item),
      cachePut s.cache key it (it.ddl - s.now) s.now = .ok c → C.Alone fr (do
        putItem items.Ait.type.toUInt16 items.Ait
        putItem items.Nit.type.toUInt16 items.Nit
        putItem items.Cit.type.toUInt16 items.Cit) s () { s with cache := c } := by
    intro s c hput
    have hthis : it.type ≠ 0 → C.Alone fr (putItem it.type.toUInt16 it) s () { s with cache := c } :=
      fun hne => Conditions.alone_putItem hne hlen hkey hput
    have hskip : ∀ {it : Item} {t : Server}, it.type = 0 →
        C.Alone fr (putItem it.type.toUInt16 it) t () t := Conditions.alone_putItem_zero
    by_cases hA : items.Ait.type = 0 <;> by_cases hN : items.Nit.type = 0 <;>
      by_cases hC : items.Cit.type = 0 <;>
      simp [hA, hN, hC] at hone
    · subst hone
      exact (hskip hA).bind ((hskip hN).bind (hthis hC))
    · subst hone
      exact (hskip hA).bind ((hthis hN).bind (hskip hC))
    · subst hone
      exact (hthis hA).bind ((hskip hN).bind (hskip hC))
  obtain ⟨as, s, has, hexec, hreceived, hreplies⟩ :=
    Conditions.exists_run_of_learn_hit (0 : Fin 1) (show 1 ≤ 10 by decide) (by decide) hrequest hasks
      (by rw [hq]; decide) hresponse hdecode hitems hfits hput hrequest' hasks'
      (by rw [htype]; exact hcached) (by rw [hname]; exact hlen) (by rw [hname, htype]; exact hkey)
      hlive hlen hbytes (of_decide_eq_true hle)
  refine ⟨as, s, _, bytes, has, hexec, hreceived, ?_, hanswers⟩
  rw [hreplies]
  exact List.mem_cons_self

/-- A response to `queryAAAA`: the addresses of `a` are 9.9.9.9, for 10 seconds, and 8.8.8.8, for
100. -/
def addresses : Received :=
  padded [0, 1, 129, 128, 0, 1, 0, 2, 0, 0, 0, 0, 1, 97, 0, 0, 28, 0, 1,
    192, 12, 0, 1, 0, 1, 0, 0, 0, 10, 0, 4, 9, 9, 9, 9,
    192, 12, 0, 1, 0, 1, 0, 0, 0, 100, 0, 4, 8, 8, 8, 8] (by decide)

/-- A query for the address of `a`. -/
def queryA : Arg :=
  ⟨padded [0, 2, 1, 0, 0, 1, 0, 0, 0, 0, 0, 0, 1, 97, 0, 0, 1, 0, 1] (by decide), 0⟩

/-- The record of an address of `a`. -/
def addressRR (TTL : UInt32) (addr : List UInt8) : RR :=
  ⟨[97], A, IN, TTL, 4, addr, .BINARY_TYPE, []⟩

/-- The item of the addresses, at the time 0. -/
def addressItem : Item :=
  { zeroItem with
    name := [97]
    type := 1
    num := 2
    ipv4 := [9, 9, 9, 9] :: [8, 8, 8, 8] :: List.replicate 8 [0, 0, 0, 0]
    ddl := 100 }

/-- The addresses are received at the time 0, and at the time 50 both are served. -/
theorem exists_run_of_addresses {C : Conditions} (hrequest : C.request queryAAAA)
    (hrequest' : C.request queryA) (hresponse : C.response addresses) (fr : FileReader) :
    ∃ as s msg bytes,
      Meets (serverStep fr) C.Step (serverInit fr (10 : ℕ) 0 : Workers (Fin 1)) as ∧
      exec (serverStep fr) (serverInit fr (10 : ℕ) 0 : Workers (Fin 1)) as = .ok s ∧
      s.shared.received = [⟨0, addresses⟩] ∧
      ⟨50, queryA, .built msg bytes⟩ ∈ s.shared.replies ∧
      msg.resourse_record.ANSWER =
        [addressItem.record [97] 50 [9, 9, 9, 9], addressItem.record [97] 50 [8, 8, 8, 8]] :=
  exists_run_of_item hrequest hrequest'
    hresponse fr ⟨addressItem, zeroItem, zeroItem⟩ (by decide +kernel) (by decide) (by decide)
    (show calcKey addressItem.name addressItem.type.toUInt16 = some [97, 58, 65] by decide)
    (by decide) (by decide) (by decide) (by decide +kernel)

end DnsRelayer
