import DnsRelayer.Message.Builder
import DnsRelayer.Message.Size
import DnsRelayer.Server.OneReply
import DnsRelayer.Tool.Arg

/-!
# The client of `src/cli.c`

The client reads the address of a server and the name of a host, builds a query for the address of the host,
sends it, and shows the reply. `clientSend` is its part up to the query, `clientReceive` what it makes of a
reply.

The query for a host whose name the server can look up is a standard query, so that what is shown of the
server is true of it; and what the server then builds as a reply is read by the client as an answer to its
question, with the records that the server has (`client_understands`).
-/

namespace DnsRelayer

open Lib

/-- Size of the array `dnsIp`. -/
def DNS_IP_SIZE : ℕ := 51

/-- Size of the array `hostName`. -/
def HOST_NAME_SIZE : ℕ := 101

/-- OPCODE of a standard query. -/
def QUERY : UInt16 := 0

/-- `scanf` of a word into an array, which is used although nothing was read at the end of the input. -/
def scanWord (size : ℕ) (input : List UInt8) : Run (List UInt8 × List UInt8) :=
  match token isspace input with
  | none => .error .uninit
  | some (word, rest) => if word.length ≥ size then .error .overrun else .ok (word, rest)

/-- The query for the address of a host. -/
def hostQuery (hostName : List UInt8) : Message :=
  let msg := setQuery newMsg
  let msg := { msg with ID := 0x1234 }
  let msg := setOpcode msg QUERY
  let msg := setFlag msg RD
  let q := setQNAME ⟨[], 0, 0⟩ hostName
  let q := { q with q_type := A, q_class := IN }
  (addQuestion msg q).2

/-- `main` of the client up to its `sendto`: the address of the server and the query. -/
def clientSend (input : List UInt8) : Run (List UInt8 × List UInt8) := do
  let (dnsIp, input) ← scanWord DNS_IP_SIZE input
  let (hostName, _) ← scanWord HOST_NAME_SIZE input
  let buff ← encode (hostQuery hostName)
  match inet_pton dnsIp with
  | none => throw .exits
  | some servaddr => return (servaddr, buff)

/-- The message that the client makes of a reply. -/
def clientReceive (buff : List UInt8) : Run Message := (decode buff).map Prod.fst

/-- The question for the address of a host. -/
def hostQuestion (hostName : List UInt8) : Question := ⟨hostName, A, IN⟩

variable {hostName : List UInt8}

/-- The query for a host has one question. -/
theorem hostQuery_eq (hlen : hostName.length ≤ MAX_LEN) :
    hostQuery hostName = ⟨0x1234, 0x80, 1, ⟨0, 0, 0⟩, [hostQuestion hostName], ⟨[], [], []⟩⟩ := by
  have hname : (setQNAME ⟨[], 0, 0⟩ hostName).q_name = hostName := strncpy_of_length_le hlen
  have hquery : hostQuery hostName = ⟨0x1234, 0x80, 1, ⟨0, 0, 0⟩,
      [⟨(setQNAME ⟨[], 0, 0⟩ hostName).q_name, A, IN⟩], ⟨[], [], []⟩⟩ := rfl
  rw [hquery, hname]
  rfl

/-- The query for a host fits the buffer of the server, which reads it as it was meant. -/
theorem encode_hostQuery (hname : Named hostName) :
    ∃ bs, encode (hostQuery hostName) = .ok bs ∧ bs.length ≤ BUFF_SIZE ∧
      ∀ tail, ∃ m, decode (bs ++ tail) = .ok (m, bs.length) ∧ m.content = (hostQuery hostName).content := by
  have hlong := hname.length_le
  have hsize : MAX_LEN = 256 ∧ BUFF_SIZE = 1024 := ⟨rfl, rfl⟩
  have hquery := @hostQuery_eq hostName (by omega)
  have hcounted : (hostQuery hostName).Counted := by
    rw [hquery]
    exact ⟨rfl, rfl, rfl, rfl, Nat.le_add_left 1 31, Nat.zero_le _, Nat.zero_le _, Nat.zero_le _⟩
  have hentries : (hostQuery hostName).entries = [.ques (hostQuestion hostName)] := by
    rw [hquery]
    rfl
  have hnames : (hostQuery hostName).names = [hostName] := by
    rw [Message.names, hentries]
    rfl
  have htyped : ∀ x ∈ (hostQuery hostName).entries, x.Typed := by
    rw [hentries]
    exact fun x hx => List.mem_singleton.mp hx ▸ trivial
  obtain ⟨bs, hok, hwf⟩ := encode_spec hcounted htyped (by simpa [hnames] using hname.encodable)
  have hlen := encode_size hcounted htyped (by simpa [hnames] using hname.encodable.short)
    (by rw [hquery]) (by rw [hquery]) (by rw [hquery]) (by rw [hquery]; trivial) hok
  have hroom : roomFor (hostQuery hostName).resourse_record.ANSWER = 0 := by
    rw [hquery]
    rfl
  have hq : (hostQuestion hostName).q_name = hostName := rfl
  rw [hroom, hq] at hlen
  refine ⟨bs, hok, by omega, fun tail => ?_⟩
  obtain ⟨m, hcontent, hm⟩ := hwf (le_trans (by omega) BUFF_SIZE_le_POINTER_MAX)
  exact ⟨m, decode_of_wfMessage (hm.append tail), hcontent⟩

/-- **Client and server.** For a host whose name the server can look up, read from any input, the client sends a
query that fits the server's buffer, and that the server reads as a standard query with its ID and flags for the
address of the host. When the server has replied to that request as it should, with a message that it built, then
the client reads this as the answer to its question, with the records of the items that are served and the
response code for them. -/
theorem client_understands {input rest rest' dnsIp servaddr : List UInt8}
    (hip : token isspace input = some (dnsIp, rest)) (hfits : dnsIp.length < DNS_IP_SIZE)
    (haddr : inet_pton dnsIp = some servaddr) (hhost : token isspace rest = some (hostName, rest'))
    (hname : Named hostName) :
    ∃ bs, clientSend input = .ok (servaddr, bs) ∧ bs.length ≤ BUFF_SIZE ∧
      ∀ parg : Arg, parg.buff.bytes = bs →
        (∃ m n, decode (parg.buff.bytes ++ parg.buff.rest) = .ok (m, n) ∧ m.ID = 0x1234 ∧ m.qr = 0 ∧
          m.opcode = 0 ∧ m.rd = 1 ∧ m.ques = [hostQuestion hostName] ∧ Standard m (hostQuestion hostName)) ∧
        ∀ lines cs msg bytes, Replied lines parg cs →
          cs.flatMap HandlerCall.sent = [(parg, .built msg bytes)] →
          ∃ served : List (Item × ℤ),
            Served lines (hostQuestion hostName) (cs.flatMap HandlerCall.got) (served.map (·.1)) ∧
            ∀ tail, ∃ m, clientReceive (bytes ++ tail) = .ok m ∧ m.ID = 0x1234 ∧ m.qr = 1 ∧ m.opcode = 0 ∧
              m.rd = 1 ∧ m.ques = [hostQuestion hostName] ∧ m.rcode = servedRCODE (served.map (·.1)) ∧
              m.resourse_record.ANSWER.map RR.content = (servedRecords served).map RR.content := by
  have hlong := hname.length_le
  have hsize : MAX_LEN = 256 ∧ HOST_NAME_SIZE = 101 := ⟨rfl, rfl⟩
  have hquery := @hostQuery_eq hostName (by omega)
  obtain ⟨bs, hok, hlen, hdecode⟩ := encode_hostQuery hname
  have hsend : clientSend input = .ok (servaddr, bs) := by
    simp only [clientSend, scanWord, hip, hhost, if_neg (Nat.not_le.mpr hfits),
      if_neg (Nat.not_le.mpr (show hostName.length < HOST_NAME_SIZE by omega)), Run.ok_bind, hok, haddr]
    rfl
  refine ⟨bs, hsend, hlen, fun parg hparg => ?_⟩
  -- What the server reads of the request.
  obtain ⟨m, hm, hcontent⟩ := hdecode parg.buff.rest
  rw [← hparg] at hm
  rw [hquery] at hcontent
  have hID : m.ID = 0x1234 := congrArg Message.ID hcontent
  have hflag : m.flag = 0x80 := congrArg Message.flag hcontent
  have hques : m.ques = [hostQuestion hostName] := congrArg Message.ques hcontent
  have hstandard : Standard m (hostQuestion hostName) := by
    refine ⟨hques, (by decide : A.toNat < TYPENAME_SIZE),
      by rw [Message.rcode, Message.flags₁, hflag]; decide, ?_, ?_, hname⟩
    · exact List.map_eq_nil_iff.mp (congrArg (·.resourse_record.ANSWER) hcontent)
    · exact List.map_eq_nil_iff.mp (congrArg (·.resourse_record.AUTHORITY) hcontent)
  have hqr : m.qr = 0 := by
    rw [Message.qr, Message.flags₀, hflag]
    decide
  have hopcode : m.opcode = 0 := by
    rw [Message.opcode, Message.flags₀, hflag]
    decide
  have hrd : m.rd = 1 := by
    rw [Message.rd, Message.flags₀, hflag]
    decide
  refine ⟨⟨m, _, hm, hID, hqr, hopcode, hrd, hques, hstandard⟩, fun lines cs msg bytes hreplied hsent => ?_⟩
  obtain ⟨m₁, n₁, q, reply, hm₁, hq, hone, hmatch⟩ := hreplied
  obtain ⟨rfl, -⟩ := Prod.mk.inj (Except.ok.inj (hm.symm.trans hm₁))
  obtain rfl : hostQuestion hostName = q := by simpa [hques] using hq
  obtain rfl : .built msg bytes = reply := by simpa [hsent] using hone
  obtain ⟨-, served, hserved, -, hreads⟩ := hmatch
  refine ⟨served, hserved, fun tail => ?_⟩
  obtain ⟨m', hm', hanswers, hrcode, hrecords⟩ := hreads tail
  exact ⟨m', by rw [clientReceive, hm']; rfl, hanswers.ID.trans hID, hanswers.qr, hanswers.opcode.trans hopcode,
    hanswers.rd.trans hrd, hanswers.ques, hrcode, hrecords⟩

/-- The query of a client for the address of `a`. -/
def clientQuery : Arg :=
  ⟨padded [0x12, 0x34, 1, 0, 0, 1, 0, 0, 0, 0, 0, 0, 1, 97, 0, 0, 1, 0, 1] (by decide), 0⟩

/-- The server looks it up in its file. -/
def clientLookup : List (ServerAction Unit) :=
  .start () clientQuery :: List.replicate 11 (.run () silent)

theorem clientQuery_standard : StandardQuery clientQuery :=
  @standardQuery_letter clientQuery 97 (by decide) (by decide) (by decide +kernel)

/-- The server replies to it as it should, with the address of the file. -/
theorem clientLookup_replied : ∃ fr, file_reader_alloc twoLinesText = .ok fr ∧
    ∃ s : RefWorkers Unit, exec (refStep fr 10) (refInit fr 0) clientLookup = .ok s ∧
      ∃ i ∈ s.ended, i.job = clientQuery ∧ Replied twoLines i.job i.calls ∧
        exchange i = ⟨some [⟨[97], A, IN⟩], [], [[[1, 1, 1, 1]]]⟩ := by
  have hrun : (file_reader_alloc twoLinesText).map (fun fr =>
      (decide (Meets (refStep fr 10) (fun s => InPlace (fun r => r.server.pos) s.pool)
        (refInit fr 0 : RefWorkers Unit) clientLookup),
        (exec (refStep fr 10) (refInit fr 0 : RefWorkers Unit) clientLookup).map
          fun s => s.ended.map fun i => (i.job, exchange i))) =
      .ok (true, .ok [(clientQuery, ⟨some [⟨[97], A, IN⟩], [], [[[1, 1, 1, 1]]]⟩)]) := by
    decide +kernel
  obtain ⟨fr, hfr, hrun⟩ := Run.map_eq_ok.mp hrun
  obtain ⟨hinPlace, hrun⟩ := Prod.mk.inj hrun
  obtain ⟨s, hs, hended⟩ := Run.map_eq_ok.mp hrun
  obtain ⟨i, hi, hseen⟩ := List.map_eq_singleton_iff.mp hended
  obtain ⟨hjob, hseen⟩ := Prod.mk.inj hseen
  have hmeets := meets_standard (of_decide_eq_true hinPlace) fun a ha => by
    simp only [clientLookup, List.mem_cons, List.mem_replicate] at ha
    rcases ha with rfl | ⟨-, rfl⟩
    · exact Or.inl ⟨_, _, rfl, clientQuery_standard⟩
    · exact Or.inr ⟨_, rfl⟩
  have hlocal := localFile_of_alloc twoLines_fileText twoLines_dotted hfr
  obtain ⟨s', hs', hsound⟩ := exec_total (sound_refInit fr 10 0)
    (fun s a h ha => sound_refStep hlocal h ha) hmeets _ (List.prefix_refl _)
  obtain rfl := Except.ok.inj (hs'.symm.trans hs)
  exact ⟨fr, hfr, s', hs', i, by simp [hi], hjob, hsound.ended i (by simp [hi]), hseen⟩

/-- `client_understands` for a host of one letter, whose address the server has in its file. -/
theorem client_understands_letter : ∃ bs, clientSend (lit "10.0.2.3 a") = .ok ([10, 0, 2, 3], bs) ∧
    bs.length ≤ BUFF_SIZE ∧ clientQuery.buff.bytes = bs ∧
    ∃ fr, file_reader_alloc twoLinesText = .ok fr ∧
      ∃ s : RefWorkers Unit, exec (refStep fr 10) (refInit fr 0) clientLookup = .ok s ∧
        ∃ i ∈ s.ended, i.job = clientQuery ∧
          ∃ msg bytes, i.calls.flatMap HandlerCall.sent = [(clientQuery, .built msg bytes)] ∧
            ∀ tail, ∃ m, clientReceive (bytes ++ tail) = .ok m ∧ m.ID = 0x1234 ∧ m.qr = 1 ∧
              m.ques = [hostQuestion [97]] ∧
              m.resourse_record.ANSWER.map (·.content.data) = [[1, 1, 1, 1]] := by
  have hip : token isspace (lit "10.0.2.3 a") = some (lit "10.0.2.3", lit " a") := by decide +kernel
  have hhost : token isspace (lit " a") = some ([97], []) := by decide +kernel
  have haddr : inet_pton (lit "10.0.2.3") = some [10, 0, 2, 3] := by decide +kernel
  have hquery : clientSend (lit "10.0.2.3 a") = .ok ([10, 0, 2, 3], clientQuery.buff.bytes) := by
    decide +kernel
  obtain ⟨bs, hsend, hlen, hserves⟩ := client_understands hip (by decide) haddr hhost
    (named_letter (by decide) (by decide))
  obtain ⟨-, rfl⟩ := Prod.mk.inj (Except.ok.inj (hquery.symm.trans hsend))
  obtain ⟨fr, hfr, s, hs, ⟨job, cs⟩, hi, rfl, hreplied, hseen⟩ := clientLookup_replied
  obtain ⟨-, -, hdata⟩ := Exchange.mk.inj hseen
  obtain ⟨m₀, n, q, reply, -, -, hsent, -⟩ := id hreplied
  rw [hsent, List.map_singleton, List.singleton_inj] at hdata
  cases reply with
  | forwarded bytes => cases hdata
  | built msg bytes =>
    obtain ⟨served, -, hreceive⟩ := (hserves clientQuery rfl).2 _ _ _ _ hreplied hsent
    refine ⟨_, hsend, hlen, rfl, fr, hfr, s, hs, _, hi, rfl, msg, bytes, hsent, fun tail => ?_⟩
    obtain ⟨m, hm, hID, hqr, -, -, hques, -, hrecords⟩ := hreceive tail
    -- What is read of the records does not depend on what comes after the reply.
    obtain ⟨m', hm', -, -, -, -, -, -, hrecords'⟩ := hreceive []
    refine ⟨m, hm, hID, hqr, hques, ?_⟩
    obtain ⟨r, hdecode, rfl⟩ := Run.map_eq_ok.mp hm'
    rw [List.append_nil] at hdecode
    have hread : r.1.resourse_record.ANSWER.map (·.content.data) = [[1, 1, 1, 1]] := by
      simpa only [Reply.answerData, hdecode] using hdata
    have hsame := congrArg (List.map RR.data) (hrecords.trans hrecords'.symm)
    rw [List.map_map, List.map_map] at hsame
    exact hsame.trans hread

end DnsRelayer
