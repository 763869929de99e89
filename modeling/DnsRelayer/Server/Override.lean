import DnsRelayer.Server.Records
import DnsRelayer.Message.Header
import DnsRelayer.Message.WellFormed

/-!
# Names of the local file

For a name that the local file lists, a query for its address is answered from the cache, and from the
file when the cache has nothing. What the cache has under the name is the address of the file, unless
a response had the name as the owner of the last of its addresses, or of its aliases: these are cached
under it (`Claimed`). So every reply is made of the address of the file as long as no response has
claimed the name (`overridePolicy`); what the client reads of it is in `file_overrides`.
`response_overrides` is a reply with the addresses of a response to a query for another type.
-/

namespace DnsRelayer

open Lib

/-- A response that was received is cached under the name, as its addresses or as its alias. -/
def Claimed (name : List UInt8) (rs : List Response) : Prop :=
  ∃ r ∈ rs, ∃ type, (type = A ∨ type = CNAME) ∧ ∃ last, r.datagram.last type = some last ∧
    last.name = name

/-- Anything may come from outside. A lookup finds the position where it left it. -/
def undisturbed : Conditions :=
  { Conditions.anything with scan := fun _ pos cur => pos = cur }

/-- The item has one address for the name. -/
structure Item.Gives (it : Item) (name addr : List UInt8) : Prop where
  name : it.name = name
  type : it.type.toUInt16 = A
  values : it.values = [addr]

/-- The policy for a name of the local file and its address. -/
def overridePolicy (name addr : List UInt8) : Policy where
  toConditions := undisturbed
  entry rs key _ it := Claimed name rs ∨ (calcKey name A = some key → it.Gives name addr) ∧
    calcKey name CNAME ≠ some key
  answer rs sent := Claimed name rs ∨ ∀ msg₀ q, Asks sent.parg msg₀ q → q.q_name = name →
    q.q_type = A → ∃ it now bytes, it.Gives name addr ∧
      sent.reply = .built (Item2Msg msg₀ it name now) bytes

variable {lines : List Line} {rs rs' : List Response} {name name' key addr ip : List UInt8}
  {type type' : UInt16} {it : Item}

theorem Claimed.mono (hsub : rs ⊆ rs') (h : Claimed name rs) : Claimed name rs' := by
  obtain ⟨r, hr, hlast⟩ := h
  exact ⟨r, hsub hr, hlast⟩

/-! ## Keys -/

/-- The types of which records are cached have different keys, and so do different names. -/
theorem calcKey_inj (htype : Cached type) (htype' : Cached type')
    (h : calcKey name type = some key) (h' : calcKey name' type' = some key) :
    name = name' ∧ type = type' := by
  have hcases : ∀ {n : List UInt8} {t : UInt16}, Cached t → calcKey n t = some key →
      t = A ∧ key = n ++ [58, 65] ∨ t = NS ∧ key = n ++ [58, 78, 83] ∨
      t = CNAME ∧ key = n ++ [58, 67, 78, 65, 77, 69] := by
    rintro n t (rfl | rfl | rfl) hk
    · exact Or.inl ⟨rfl, (Option.some.inj hk).symm⟩
    · exact Or.inr (Or.inl ⟨rfl, (Option.some.inj hk).symm⟩)
    · exact Or.inr (Or.inr ⟨rfl, (Option.some.inj hk).symm⟩)
  -- The last two bytes of a key say which type it is of.
  have hlast : ∀ {l t : List UInt8}, 2 ≤ t.length → (l ++ t).reverse.take 2 = t.reverse.take 2 := by
    intro l t ht
    rw [List.reverse_append, List.take_append_of_le_length (by simpa using ht)]
  rcases hcases htype h with ⟨rfl, rfl⟩ | ⟨rfl, rfl⟩ | ⟨rfl, rfl⟩ <;>
    rcases hcases htype' h' with ⟨rfl, hkey⟩ | ⟨rfl, hkey⟩ | ⟨rfl, hkey⟩
  all_goals first
    | exact ⟨List.append_cancel_right hkey, rfl⟩
    | exfalso
      have heq := congrArg (fun l : List UInt8 => l.reverse.take 2) hkey
      rw [hlast (by decide), hlast (by decide)] at heq
      exact absurd heq (by decide)

/-- What the table keeps of a key is the key of a name of at most 43 bytes only when it is the key. -/
theorem eq_of_tableKey (hlen : name.length ≤ 43) (htype : Cached type)
    (h : calcKey name type = some (tableKey key)) : calcKey name type = some key := by
  have hshort : (tableKey key).length < HASH_KEY_MAX_LEN := by
    have hlt : ∀ {k}, calcKey name type = some k → k.length < HASH_KEY_MAX_LEN := by
      intro k hk
      rcases htype with rfl | rfl | rfl <;> obtain rfl := Option.some.inj hk <;>
        simp [HASH_KEY_MAX_LEN] <;> omega
    exact hlt h
  rw [tableKey, strncpy, List.length_take] at hshort
  rw [h, tableKey, strncpy_of_length_le (by omega)]

/-! ## The local file -/

/-- A name that the file lists is found in its index. -/
theorem find_of_listed {fd : List UInt8} {fr : FileReader} (hfile : FileLines fd lines)
    (hfr : file_reader_alloc fd = .ok fr) (hshort : Short name) (hlisted : listed lines name = some ip) :
    file_reader_find fr name ≠ .ok none := by
  intro hnone
  rcases file_reader_alloc_cases (fun _ hk => hk.fits) hfile fun l _ => keeps_short l.domain with
    ⟨fr', hok, -, h⟩ | ⟨herr, -⟩
  · obtain rfl := Except.ok.inj (hok.symm.trans hfr)
    rw [file_reader_find, HashTab.search_of_placed h.len_pos h.indexed.placed hshort] at hnone
    rcases h.found name hshort with ⟨-, hnot⟩ | ⟨cur, ip', hsome, -⟩
    · rw [hlisted] at hnot
      cases hnot
    · rw [hsome] at hnone
      cases hnone
  · rw [herr] at hfr
    cases hfr

/-- No longer domain is cut to a name of fewer than 50 bytes. -/
theorem unshadowed_of_short (hshort : Short name) : Unshadowed lines name := by
  intro l _ hcut
  rw [Short, ← hcut, strncpy, List.length_take] at hshort
  rw [← hcut, strncpy_of_length_le (by omega)]

/-! ## The policy -/

/-- The item of an address of the file, for the name, gives the listed address. -/
theorem gives_of_reads {fd : List UInt8} {fr : FileReader} (hfile : FileLines fd lines)
    (hfr : file_reader_alloc fd = .ok fr) (hlen : name.length ≤ 43)
    (hlisted : listed lines name = some ip) (haddr : inet_pton (cstr ip) = some addr)
    {addr' : List UInt8} {now : ℤ} {tmp : Item} (hreads : (overridePolicy name addr).Reads fr name addr')
    (htmp : addRR2Item zeroItem (fileRR name addr') now = .ok tmp) : tmp.Gives name addr := by
  obtain ⟨cur, pos, ip', hfind, rfl, hreads, haddr'⟩ := hreads
  have hip := listed_of_reads hfile hfr hfind (unshadowed_of_short (hlen.trans_lt (by decide))) hreads
  obtain rfl := Option.some.inj (hip.symm.trans hlisted)
  obtain rfl := Option.some.inj (haddr'.symm.trans haddr)
  obtain ⟨hvalues, hname, htype⟩ := values_of_fileRR (hlen.trans_lt (by decide))
    (length_of_inet_pton haddr') htmp
  exact ⟨hname, htype, hvalues⟩

/-- The item of the records of a response is under no key of the name, or the response has claimed
that. -/
theorem claimed_or_apart (hlen : name.length ≤ 43) {time now : ℤ} {d : Received} {msg : Message}
    {n : ℕ} (hd : ⟨time, d⟩ ∈ rs) (hdecode : decode (d.bytes ++ d.rest) = .ok (msg, n))
    (hcached : Cached type)
    (hfilled : Filled type now (msg.resourse_record.ANSWER.filter (·.type = type)) it)
    (hne : it.type ≠ 0) (hitlen : it.name.length < STR_LEN) (hkey : calcKey it.name type = some key) :
    Claimed name rs ∨
      calcKey name A ≠ some (tableKey key) ∧ calcKey name CNAME ≠ some (tableKey key) := by
  have hA : Cached A := Or.inl rfl
  have hCNAME : Cached CNAME := Or.inr (Or.inr rfl)
  obtain ⟨-, htype, last, hlast, hname, -⟩ := hfilled.values_eq hne
  have hlastname : it.name = last.name := by
    rw [hname, strncpy, List.length_take] at hitlen
    rw [hname, strncpy_of_length_le (by omega)]
  rw [← answers_of_decode hdecode] at hlast
  -- An item under a key of the name is that of the name.
  have hclaims : ∀ type', (type' = A ∨ type' = CNAME) → Cached type' →
      calcKey name type' = some (tableKey key) → Claimed name rs := by
    intro type' hor hcached' hN
    obtain ⟨rfl, rfl⟩ := calcKey_inj hcached' hcached (eq_of_tableKey hlen hcached' hN) hkey
    exact ⟨⟨time, d⟩, hd, type', hor, last, hlast, hlastname.symm⟩
  by_cases hN : calcKey name A = some (tableKey key)
  · exact Or.inl (hclaims A (Or.inl rfl) hA hN)
  · by_cases hN' : calcKey name CNAME = some (tableKey key)
    · exact Or.inl (hclaims CNAME (Or.inr rfl) hCNAME hN')
    · exact Or.inr ⟨hN, hN'⟩

/-- The handler keeps to the policy. -/
theorem overridePolicy_lawful {fd : List UInt8} {fr : FileReader} (hfile : FileLines fd lines)
    (hfr : file_reader_alloc fd = .ok fr) (hlen : name.length ≤ 43)
    (hlisted : listed lines name = some ip) (haddr : inet_pton (cstr ip) = some addr) :
    (overridePolicy name addr).Lawful fr := by
  have hA : Cached A := Or.inl rfl
  have hCNAME : Cached CNAME := Or.inr (Or.inr rfl)
  have hfound : ∀ {q : Question}, (q.q_type = A → file_reader_find fr q.q_name = .ok none) →
      q.q_name = name → q.q_type ≠ A := by
    rintro q hnot rfl htype
    exact find_of_listed hfile hfr (hlen.trans_lt (by decide)) hlisted (hnot htype)
  refine {
    entry_mono := ?_
    answer_mono := fun hsub h => h.imp_left (Claimed.mono hsub)
    hit := ?_
    aliasHit := ?_
    fileEntry := ?_
    fileAnswer := ?_
    failure := ?_
    forward := ?_
    learn := ?_ }
  · exact fun hsub h => h.imp_left (Claimed.mono hsub)
  · rintro rs now now' parg msg q key it bytes - hasks - hkey ⟨t, hentry, -⟩ - - -
    refine hentry.imp_right fun hit msg₀ q₀ hasks₀ hname htype => ?_
    obtain ⟨rfl, rfl⟩ := hasks.unique hasks₀
    rw [hname, htype] at hkey
    have hg := hit.1 hkey
    exact ⟨it, now', bytes, hg, by rw [hg.name]⟩
  · rintro rs now now₁ now₂ parg msg q key key' it tit bytes - hasks - hkey ⟨t, hentry, -⟩ - - - - - -
    refine hentry.imp_right fun hnot msg₀ q₀ hasks₀ hname htype => ?_
    obtain ⟨rfl, rfl⟩ := hasks.unique hasks₀
    rw [hname] at hkey
    exact absurd hkey hnot.2
  -- The local file: under a key of the name there is only the item of the name.
  · rintro rs now t parg msg q key addr' tmp - - - hreads hqlen htmp hkey -
    obtain ⟨_, _, _, _, _, _, haddr'⟩ := id hreads
    obtain ⟨-, htmpname, -⟩ := values_of_fileRR hqlen (length_of_inet_pton haddr') htmp
    rw [htmpname] at hkey
    refine Or.inr ⟨fun hN => ?_, fun hN => ?_⟩
    · obtain ⟨hname, -⟩ := calcKey_inj hA hA (eq_of_tableKey hlen hA hN) hkey
      rw [← hname] at hreads htmp
      exact gives_of_reads hfile hfr hlen hlisted haddr hreads htmp
    · obtain ⟨-, hne⟩ := calcKey_inj hCNAME hA (eq_of_tableKey hlen hCNAME hN) hkey
      exact absurd hne (by decide)
  · rintro rs now now₁ now₂ parg msg q addr' tmp bytes - hasks - hreads - htmp - -
    refine Or.inr fun msg₀ q₀ hasks₀ hname _ => ?_
    obtain ⟨rfl, rfl⟩ := hasks.unique hasks₀
    rw [hname] at hreads htmp
    have hg := gives_of_reads hfile hfr hlen hlisted haddr hreads htmp
    exact ⟨tmp, now₂, bytes, hg, by rw [hg.name]⟩
  -- Asked for its address, the name is found in the file.
  · rintro rs now parg msg q bytes - hasks hnot -
    refine Or.inr fun msg₀ q₀ hasks₀ hname htype => ?_
    obtain ⟨rfl, rfl⟩ := hasks.unique hasks₀
    exact absurd htype (hfound hnot hname)
  · rintro rs time now parg msg q d - hasks hnot - -
    refine Or.inr fun msg₀ q₀ hasks₀ hname htype => ?_
    obtain ⟨rfl, rfl⟩ := hasks.unique hasks₀
    exact absurd htype (hfound hnot hname)
  · rintro rs time now t d msg n type key it hd - hdecode hcached hfilled hne hitlen hkey -
    refine (claimed_or_apart hlen hd hdecode hcached hfilled hne hitlen hkey).imp_right ?_
    exact fun hnot => ⟨fun h => absurd h hnot.1, hnot.2⟩

/-! ## Replies -/

/-- The item of one address blocks its name when the address is zero. -/
theorem Item.Gives.blocks_iff (h : it.Gives name addr) : it.Blocks ↔ addr = [0, 0, 0, 0] := by
  have hvalues := h.values
  rw [Item.values, if_pos h.type] at hvalues
  have hhead : it.ipv4.head? = some addr := by
    cases hipv4 : it.ipv4 with
    | nil =>
      rw [hipv4] at hvalues
      simp at hvalues
    | cons a l =>
      rw [hipv4] at hvalues
      cases hnum : it.num with
      | zero =>
        rw [hnum] at hvalues
        simp at hvalues
      | succ n =>
        rw [hnum, List.take_succ_cons] at hvalues
        rw [List.head?_cons, (List.cons.inj hvalues).1]
  rw [Item.Blocks, hhead, Option.some.injEq]
  exact and_iff_right h.type

/-- The message that a reply is begun with has its counts right. -/
theorem Asks.counted {parg : Arg} {msg : Message} {q : Question} (h : Asks parg msg q) :
    msg.Counted := by
  obtain ⟨⟨m, n⟩, hdecode, h⟩ := Run.bind_eq_ok.mp h
  have hcounted := decode_counted hdecode
  have hcounted' : (setFlag (setResp (releaseAdditionalRR m)) RA).Counted :=
    ⟨hcounted.q_count, hcounted.ANSWER, hcounted.AUTHORITY, rfl, hcounted.q_fit,
      hcounted.ANSWER_fit, hcounted.AUTHORITY_fit, Nat.zero_le _⟩
  dsimp only at h
  split at h
  · cases h
  · obtain ⟨rfl, -⟩ := Prod.mk.inj (Except.ok.inj h)
    exact hcounted'

/-! ## Two runs -/

/-- The item of the address of `a` in the file of two lines, at the time 0. -/
def fileItem : Item :=
  { zeroItem with
    name := [97]
    type := 1
    num := 1
    ipv4 := [1, 1, 1, 1] :: List.replicate 9 [0, 0, 0, 0]
    ddl := 600000 }

/-- The address of `a` is served from the file of two lines. -/
theorem exists_run_of_file {C : Conditions} (hrequest : C.request queryA)
    (hscan : ∀ domain cur, C.scan domain cur cur) {fr : FileReader}
    (hfr : file_reader_alloc twoLinesText = .ok fr) :
    ∃ as s msg bytes,
      Meets (serverStep fr) C.Step (serverInit fr (10 : ℕ) 0 : Workers (Fin 1)) as ∧
      exec (serverStep fr) (serverInit fr (10 : ℕ) 0 : Workers (Fin 1)) as = .ok s ∧
      s.shared.received = [] ∧ ⟨0, queryA, .built msg bytes⟩ ∈ s.shared.replies := by
  have hread : (file_reader_alloc twoLinesText >>= fun fr => file_reader_find fr [97] >>= fun r =>
      file_reader_scan fr HANDLER_IP_SIZE 0 >>= fun x => .ok (r, x.1)) =
      .ok (some 0, some [49, 46, 49, 46, 49, 46, 49]) := by
    decide +kernel
  have hserve : (request (queryA.buff.bytes ++ queryA.buff.rest)).map
      (fun r => (r.2.q_name, r.2.q_type,
        (encode (Item2Msg r.1 fileItem [97] 0)).map (decide <| ·.length ≤ BUFF_SIZE))) =
      .ok ([97], A, .ok true) := by
    decide +kernel
  rw [hfr, Run.ok_bind] at hread
  obtain ⟨r, hfind, hread⟩ := Run.bind_eq_ok.mp hread
  obtain ⟨⟨ip, pos⟩, hip, hread⟩ := Run.bind_eq_ok.mp hread
  obtain ⟨rfl, rfl⟩ := Prod.mk.inj (Except.ok.inj hread)
  obtain ⟨⟨msg₀, q⟩, hasks, hserved⟩ := Run.map_eq_ok.mp hserve
  simp only [Prod.mk.injEq] at hserved
  obtain ⟨hname, htype, henc⟩ := hserved
  obtain ⟨bytes, hbytes, hle⟩ := Run.map_eq_ok.mp henc
  have hnew : (createCache (10 : ℕ) : Cache Item).Rep [] := createCache_rep (by decide)
  have hpos : 0 < (createCache (10 : ℕ) : Cache Item).hTab.len := createCache_chain _
  obtain ⟨c, nod, hput, -⟩ := cachePut_of_lt hnew hpos (show Fits [97, 58, 65] by decide) (by simp)
    (by decide) fileItem (fileItem.ddl - 0) 0
  have halone := @Conditions.alone_file C fr ⟨0, createCache (10 : ℕ), fr.fd.length, 0, [], []⟩
    queryA msg₀ q [] hasks htype (by rw [hname]; decide) hnew hpos _ _
    (by rw [hname]; rfl) (by rw [hname]; rfl) (by simp) (by simp) 0 pos _ [1, 1, 1, 1] fileItem
    (by rw [hname]; exact hfind) (hscan _ _) hip (by decide) (by rw [hname]; rfl)
    (by rw [hname]; rfl) (by decide) c hput bytes hbytes (of_decide_eq_true hle)
  obtain ⟨as, has, hexec⟩ := Conditions.exists_run_of_alone (0 : Fin 1) hrequest halone
  exact ⟨as, _, _, bytes, has, hexec, rfl, List.mem_cons_self⟩

/-- The file lists 1.1.1.1 for `a`. A response to a query for the addresses of version 6 of `a` has
9.9.9.9 and 8.8.8.8 for it, and these are served. -/
theorem response_overrides : FileText twoLinesText twoLines ∧
    listed twoLines [97] = some [49, 46, 49, 46, 49, 46, 49] ∧
    inet_pton (cstr [49, 46, 49, 46, 49, 46, 49]) = some [1, 1, 1, 1] ∧
    ∃ fr, file_reader_alloc twoLinesText = .ok fr ∧
    ∃ (as : List (ServerAction (Fin 1))) (s : Workers (Fin 1)) (msg : Message) (bytes : List UInt8),
      exec (serverStep fr) (serverInit fr (10 : ℕ) 0) as = .ok s ∧
      ⟨50, queryA, .built msg bytes⟩ ∈ s.shared.replies ∧ encode msg = .ok bytes ∧
      (∃ msg₀ q, Asks queryA msg₀ q ∧ q.q_name = [97] ∧ q.q_type = A) ∧
      msg.resourse_record.ANSWER.map (·.data) = [[9, 9, 9, 9], [8, 8, 8, 8]] := by
  obtain ⟨fr, hfr, -⟩ := file_reader_alloc_spec twoLines_fileText
  obtain ⟨as, s, msg, bytes, -, hexec, -, hsent, hanswer⟩ :=
    @exists_run_of_addresses .anything trivial trivial trivial fr
  have hasked : (request (queryA.buff.bytes ++ queryA.buff.rest)).map
      (fun r => (r.2.q_name, r.2.q_type)) = .ok ([97], A) := by
    decide +kernel
  obtain ⟨⟨msg₀, q⟩, hasks, hq⟩ := Run.map_eq_ok.mp hasked
  obtain ⟨hname, htype⟩ := Prod.mk.inj hq
  refine ⟨twoLines_fileText, by decide, by decide, fr, hfr, as, s, msg, bytes, hexec, hsent,
    Policy.encode_of_built hexec hsent rfl, ⟨msg₀, q, hasks, hname, htype⟩, ?_⟩
  rw [hanswer]
  rfl

end DnsRelayer
