import DnsRelayer.Server.Policy
import DnsRelayer.Server.Alone

/-!
# Where the records of a reply come from

A record that the handler puts into a reply should be a record of a response that was received, or a
line of the local file: with the owner name, the type and the data that it has there (`HasSource`). The
items mix the records of one type under the name of the last of them, so that this is so when no
response is mixed up by that (`Regroups`), the position of the `FILE` is where the lookup left it, and
no longer domain of the file is cut to the name that is looked up (`replies_known`). A response with
two aliases is mixed up, and `alias_of_itself` is a reply with a record that no response had.
-/

namespace DnsRelayer

open Lib

/-- The owner name, the type and the data are those of a record in the answer section of a response
that was received, or of a line of the local file. -/
def HasSource (lines : List Line) (rs : List Response) (owner : List UInt8) (type : UInt16)
    (value : List UInt8) : Prop :=
  (∃ r ∈ rs, ∃ rr ∈ r.datagram.answers, Cached rr.type ∧ rr.name = owner ∧ rr.type = type ∧
    rr.value = value) ∨
  type = A ∧ ∃ l ∈ lines, l.domain = owner ∧ inet_pton (cstr l.ip) = some value

/-- The index keeps no longer domain than the name under this name. -/
def Unshadowed (lines : List Line) (name : List UInt8) : Prop :=
  ∀ l ∈ lines, strncpy l.domain HASH_KEY_MAX_LEN = name → l.domain = name

/-- Every value of an item is known under its name. -/
def Sources (lines : List Line) (rs : List Response) (it : Item) : Prop :=
  ∀ v ∈ it.values, v.length ≤ STR_LEN ∧ HasSource lines rs it.name it.type.toUInt16 v

variable {lines : List Line} {rs rs' : List Response}

theorem HasSource.mono (hsub : rs ⊆ rs') {owner value : List UInt8} {type : UInt16}
    (h : HasSource lines rs owner type value) : HasSource lines rs' owner type value :=
  h.imp_left fun ⟨r, hr, h⟩ => ⟨r, hsub hr, h⟩

/-- The records that are made of the values of an item are known. -/
theorem Sources.record {it : Item} (h : Sources lines rs it) (hlen : it.name.length < STR_LEN)
    (now : ℤ) {v : List UInt8} (hv : v ∈ it.values) :
    HasSource lines rs (it.record it.name now v).name (it.record it.name now v).type
      (it.record it.name now v).value := by
  obtain ⟨hvlen, hknown⟩ := h v hv
  have hname : strncpy it.name MAX_LEN = it.name :=
    strncpy_of_length_le (hlen.le.trans (by decide))
  by_cases hA : it.type.toUInt16 = A
  · simpa only [Item.record, if_pos hA, setRRData, setRRName, RR.value, hname] using hknown
  · have hvalue : strncpy v MAX_LEN = v := strncpy_of_length_le (hvlen.trans (by decide))
    simpa only [Item.record, if_neg hA, setRRNameData, setRRName, RR.value, hname, hvalue]
      using hknown

/-- A message that has known records has known records when those of an item are added. -/
theorem Sources.answers {it : Item} (h : Sources lines rs it) (hlen : it.name.length < STR_LEN)
    {msg : Message} (hmsg : ∀ rr ∈ msg.resourse_record.ANSWER, HasSource lines rs rr.name rr.type rr.value)
    (now : ℤ) : ∀ rr ∈ (Item2Msg msg it it.name now).resourse_record.ANSWER,
      HasSource lines rs rr.name rr.type rr.value := by
  intro rr hrr
  rcases mem_Item2Msg_answers hrr with hrr | ⟨v, hv, rfl⟩
  · exact hmsg rr hrr
  · exact h.record hlen now hv

/-- What is read in the local file, from the position of the line of a name that no longer one is kept
under, is listed there. -/
theorem listed_of_reads {fd : List UInt8} {fr : FileReader} (hfile : FileLines fd lines)
    (hfr : file_reader_alloc fd = .ok fr) {name ip : List UInt8} {cur : ℕ}
    (hfind : file_reader_find fr name = .ok (some cur)) (hname : Unshadowed lines name)
    (hreads : ReadsAt fr.fd cur ip) : listed lines name = some ip := by
  -- The names that no longer domain is cut to are kept whole.
  have hindex := @file_reader_alloc_cases (fun k => Fits k ∧ Unshadowed lines k) (fun _ hk => hk.1)
    fd lines hfile fun l hl hgood => hgood.2 l hl rfl ▸ rfl
  rcases hindex with ⟨fr', hok, hfd, hindexes⟩ | ⟨herr, -⟩
  · obtain rfl := Except.ok.inj (hok.symm.trans hfr)
    obtain ⟨ip', ⟨rest', hread'⟩, hlisted⟩ := hindexes.search (fun hk => ⟨hk, hname⟩) hfind
    obtain ⟨rest, hread⟩ := hreads
    rw [hfd, hread'] at hread
    obtain ⟨rfl, -⟩ := Prod.mk.inj (Option.some.inj hread)
    exact hlisted
  · rw [herr] at hfr
    cases hfr

end DnsRelayer
