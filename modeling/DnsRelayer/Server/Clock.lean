import DnsRelayer.Server.Chronicle

/-!
# The TTL that is served while the clock goes on

The test of `CacheGet` sees neither the time between `putItem` and `CachePut` nor that between itself and
`Item2Msg`. When the clock is never set back, the TTL that is left fits an `uint32_t` as long as it is not
negative, and `served_TTL_iff` says when that is so: when what the test does not see is no more than the
time that it finds left. `served_TTL_wrapped` is a run in which the clock ticks before `Item2Msg`.
-/

namespace DnsRelayer

open Lib
open scoped List

variable {ι : Type} {fr : FileReader} {now : ℤ} {it : Item} {log : List (ServerEvent ι)} {b : Birth ι}
  {f : Find ι} {after : List (ServerEvent ι)}

/-- The readings of the clock, in order. -/
theorem Got.times (h : Got log b f it after) (hordered : log.Pairwise fun a b => a.mark ≤ b.mark) :
    b.added ≤ b.put ∧ b.put ≤ b.saved ∧ ∀ ev ∈ after, b.saved ≤ ev.mark ∧ f.time ≤ ev.mark := by
  obtain ⟨-, -, ⟨hlog, -⟩ | ⟨hput, hfound⟩⟩ := h
  · have htimes := hordered.sublist hlog
    simp only [Birth.events, Birth.making, Birth.putEvent, Find.event, List.cons_append, List.nil_append,
      List.pairwise_cons, List.mem_cons, forall_eq_or_imp] at htimes
    obtain ⟨-, ⟨hadded, -⟩, ⟨hput, -⟩, ⟨-, hsaved⟩, hfound, -⟩ := htimes
    exact ⟨hadded, hput, fun ev hev => ⟨hsaved ev hev, hfound ev hev⟩⟩
  · have htimes := hordered.sublist hput
    have hlater := hordered.sublist hfound
    simp only [Birth.events, Birth.making, Birth.putEvent, List.cons_append, List.nil_append,
      List.pairwise_cons, List.mem_cons, forall_eq_or_imp] at htimes
    simp only [Find.event, List.pairwise_cons, List.mem_cons, forall_eq_or_imp] at hlater
    obtain ⟨-, ⟨hadded, -⟩, ⟨hput, -⟩, hsaved, -⟩ := htimes
    exact ⟨hadded, hput, fun ev hev => ⟨hsaved ev hev, hlater.1.2 ev hev⟩⟩

/-- In every run in which the clock is not set back, every reply that is built, and sent encoded, is made of
items that its worker found in the cache or made of a line of the local file, with the readings of the
clock that are in the chronicle. The TTL that `Item2Msg` sets for an item of the cache is the time that is
left exactly when what the test of `CacheGet` does not see, the time between `putItem` and `CachePut` and
that between `CacheGet` and `Item2Msg`, is no more than the time that it finds left, which is that of the
TTL of the record when `putItem` read the clock without the time since `CachePut`. -/
theorem served_TTL_iff [DecidableEq ι] (fr : FileReader) (cachesize now : ℤ)
    (as : List (ServerAction ι))
    (has : Meets (serverStep fr) Forward (serverInit fr cachesize now) as) :
    ∀ pre, pre <+: as → ∀ s, exec (serverStep fr) (serverInit fr cachesize now) pre = .ok s →
      ∀ sent ∈ s.shared.replies, ∀ msg bytes, sent.reply = .built msg bytes → encode msg = .ok bytes ∧
        ∀ msg₀ q, Asks sent.parg msg₀ q → ∃ (t : ι) (served : List (Item × ℤ)),
          msg = servedReply msg₀ served ∧ ∀ p ∈ served,
            (∃ (b : Birth ι) (f : Find ι) (copied : ℤ), f.worker = t ∧
              Got (chronicle fr cachesize now pre) b f p.1
                (⟨t, ⟨.cacheGetCopy f.lkn, p.1⟩, copied⟩ :: serving t p.2 sent) ∧
              b.added ≤ b.put ∧ b.put ≤ b.saved ∧ f.time ≤ p.2 ∧
              ∀ v, ((p.1.record p.1.name p.2 v).TTL.toNat : ℤ) = p.1.ddl - p.2 ↔
                (b.saved - b.put) + (p.2 - f.time) ≤
                  (b.added + b.rr.TTL.toNat - b.put) - (f.time - b.saved)) ∨
            ∃ (b : Birth ι) (domain ip : List UInt8) (cur : ℕ), b.worker = t ∧ b.Makes p.1 ∧
              b.source = ⟨.fscanf domain cur, some ip⟩ ∧
              b.making ++ serving t p.2 sent <+ chronicle fr cachesize now pre ∧
              ∀ v, ((p.1.record p.1.name p.2 v).TTL.toNat : ℤ) = p.1.ddl - p.2 ↔
                p.2 - b.added ≤ b.rr.TTL.toNat := by
  intro pre hpre s hs sent hsent msg bytes hreply
  refine ⟨Policy.encode_of_built hs hsent hreply, fun msg₀ q hasks => ?_⟩
  have hall := chronicled_of_forward has pre hpre s hs
  obtain ⟨t, served, hmsg, hserved⟩ := hall.replies sent hsent msg bytes hreply msg₀ q hasks
  refine ⟨t, served, hmsg, fun p hp => (hserved p hp).imp ?_ ?_⟩
  · rintro ⟨b, f, copied, hf, hgot⟩
    obtain ⟨hput, hsaved, hafter⟩ := hgot.times hall.ordered
    obtain ⟨hitem, hfound⟩ : b.saved ≤ p.2 ∧ f.time ≤ p.2 :=
      hafter ⟨t, ⟨.time, p.2⟩, p.2⟩ (by simp [serving])
    have hmade : p.1.MadeOf b.rr b.added := hgot.1.1
    have hTTL := hmade.TTL_iff (hput.trans (hsaved.trans hitem)) p.1.name
    refine ⟨b, f, copied, hf, hgot, hput, hsaved, hfound, fun v => (hTTL v).trans ?_⟩
    constructor <;> intro h <;> omega
  · rintro ⟨b, domain, ip, cur, hb, hmakes, hsource, hlog⟩
    have htimes := hall.ordered.sublist hlog
    simp only [Birth.making, serving, List.cons_append, List.nil_append, List.pairwise_cons,
      List.mem_cons, forall_eq_or_imp] at htimes
    have hTTL := hmakes.1.TTL_iff htimes.2.1.1 p.1.name
    refine ⟨b, domain, ip, cur, hb, hmakes, hsource, hlog, fun v => (hTTL v).trans ?_⟩
    constructor <;> intro h <;> omega

instance (s : Workers ι) : DecidablePred (Forward s)
  | .start _ _ => inferInstanceAs (Decidable True)
  | .run _ _ => inferInstanceAs (Decidable True)
  | .outside now => inferInstanceAs (Decidable (s.shared.now ≤ now))

/-- The addresses of `a` are received at the time 0, and found at the time 100, and then it is `late`. -/
def tickTo (late : ℤ) : List (ServerAction (Fin 1)) :=
  .start 0 queryAAAA :: List.replicate 11 (.run 0 (answering addresses)) ++
    .outside 100 :: .start 0 queryA :: List.replicate 3 (.run 0 silent) ++
    .outside late :: List.replicate 2 (.run 0 silent)

/-- The answer section of a reply that is built. -/
def Reply.answers : Reply → Option (List RR)
  | .built msg _ => some msg.resourse_record.ANSWER
  | .forwarded _ => none

/-- The addresses are served then. -/
theorem tickTo_serves {late : ℤ} (h : late = 100 ∨ late = 101) :
    ∃ (s : Workers (Fin 1)) (msg : Message) (bytes : List UInt8),
      exec (serverStep emptyReader) (serverInit emptyReader (10 : ℕ) 0) (tickTo late) = .ok s ∧
      ⟨late, queryA, .built msg bytes⟩ ∈ s.shared.replies ∧
      msg.resourse_record.ANSWER =
        [addressItem.record [97] late [9, 9, 9, 9], addressItem.record [97] late [8, 8, 8, 8]] := by
  have hrun : (exec (serverStep emptyReader) (serverInit emptyReader (10 : ℕ) 0) (tickTo late)).map
      (fun s => s.shared.replies.map fun sent => (sent.time, sent.parg, sent.reply.answers)) =
      .ok [(late, queryA, some [addressItem.record [97] late [9, 9, 9, 9],
        addressItem.record [97] late [8, 8, 8, 8]]), (0, queryAAAA, none)] := by
    rcases h with rfl | rfl <;> decide +kernel
  obtain ⟨s, hs, hreplies⟩ := Run.map_eq_ok.mp hrun
  obtain ⟨sent, rest, heq, hsent, -⟩ := List.map_eq_cons_iff.mp hreplies
  obtain ⟨time, parg, reply⟩ := sent
  obtain ⟨rfl, hsent⟩ := Prod.mk.inj hsent
  obtain ⟨rfl, hanswers⟩ := Prod.mk.inj hsent
  cases reply with
  | forwarded bytes => cases hanswers
  | built msg bytes =>
    refine ⟨s, msg, bytes, hs, ?_, Option.some.inj hanswers⟩
    rw [heq]
    exact List.mem_cons_self

theorem tickTo_forward {late : ℤ} (h : late = 100 ∨ late = 101) :
    Meets (serverStep emptyReader) Forward (serverInit emptyReader (10 : ℕ) 0) (tickTo late) := by
  rcases h with rfl | rfl <;> decide +kernel

/-- The readings of these runs: the item is put into the cache at the time 0, found at the time 100, and
served then. -/
def asTicked (late : ℤ) : ServerEvent (Fin 1) → Bool
  | ⟨_, ⟨.time, now⟩, _⟩ => now = 0 ∨ now = late
  | ⟨_, ⟨.cachePut _ _ _, _⟩, now⟩ => now = 0
  | ⟨_, ⟨.cacheGetLocked _, some _⟩, now⟩ => now = 100
  | ⟨_, ⟨.cacheGetCopy _, it⟩, _⟩ => it = addressItem
  | ⟨_, ⟨.fscanf _ _, _⟩, _⟩ => false
  | _ => true

theorem chronicle_tickTo {late : ℤ} (h : late = 100 ∨ late = 101) :
    ∀ ev ∈ chronicle emptyReader (10 : ℕ) 0 (tickTo late), asTicked late ev = true := by
  rcases h with rfl | rfl <;> decide +kernel

/-- `served_TTL_iff` for the addresses that are found at the time 100, when no time is left: served then
they have the TTL that is left, and served at the time 101 they have not. -/
theorem served_TTL_iff_ticks :
    (∃ (msg₀ : Message) (bytes : List UInt8) (served : List (Item × ℤ)) (s : Workers (Fin 1)),
      exec (serverStep emptyReader) (serverInit emptyReader (10 : ℕ) 0) (tickTo 100) = .ok s ∧
      ⟨100, queryA, .built (servedReply msg₀ served) bytes⟩ ∈ s.shared.replies ∧ served ≠ [] ∧
      ∀ p ∈ served, p = (addressItem, 100) ∧
        (∃ (b : Birth (Fin 1)) (f : Find (Fin 1)), b.Makes addressItem ∧ b.added = 0 ∧ b.rr.TTL = 100 ∧
          b.put = 0 ∧ b.saved = 0 ∧ f.time = 100) ∧
        ∀ v, ((addressItem.record addressItem.name 100 v).TTL.toNat : ℤ) = addressItem.ddl - 100) ∧
    ∃ (msg₀ : Message) (bytes : List UInt8) (served : List (Item × ℤ)) (s : Workers (Fin 1)),
      exec (serverStep emptyReader) (serverInit emptyReader (10 : ℕ) 0) (tickTo 101) = .ok s ∧
      ⟨101, queryA, .built (servedReply msg₀ served) bytes⟩ ∈ s.shared.replies ∧ served ≠ [] ∧
      ∀ p ∈ served, p = (addressItem, 101) ∧
        (∃ (b : Birth (Fin 1)) (f : Find (Fin 1)), b.Makes addressItem ∧ b.added = 0 ∧ b.rr.TTL = 100 ∧
          b.put = 0 ∧ b.saved = 0 ∧ f.time = 100) ∧
        ∀ v, ((addressItem.record addressItem.name 101 v).TTL.toNat : ℤ) ≠ addressItem.ddl - 101 := by
  have hitem : addressItem.ddl = 100 := rfl
  have hserves : ∀ late, late = 100 ∨ late = 101 →
      ∃ (msg₀ : Message) (bytes : List UInt8) (served : List (Item × ℤ)) (s : Workers (Fin 1)),
        exec (serverStep emptyReader) (serverInit emptyReader (10 : ℕ) 0) (tickTo late) = .ok s ∧
        ⟨late, queryA, .built (servedReply msg₀ served) bytes⟩ ∈ s.shared.replies ∧ served ≠ [] ∧
        ∀ p ∈ served, p = (addressItem, late) ∧
          (∃ (b : Birth (Fin 1)) (f : Find (Fin 1)), b.Makes addressItem ∧ b.added = 0 ∧ b.rr.TTL = 100 ∧
            b.put = 0 ∧ b.saved = 0 ∧ f.time = 100) ∧
          ∀ v, ((addressItem.record addressItem.name late v).TTL.toNat : ℤ) = addressItem.ddl - late ↔
            late = 100 := by
    intro late h
    obtain ⟨s, msg, bytes, hs, hsent, hanswers⟩ := tickTo_serves h
    obtain ⟨⟨msg₀, q⟩, hasks, hnone⟩ := Run.map_eq_ok.mp (show (request (queryA.buff.bytes ++
      queryA.buff.rest)).map (·.1.resourse_record.ANSWER) = .ok [] by decide +kernel)
    have hall := chronicle_tickTo h
    obtain ⟨-, hserved⟩ := served_TTL_iff _ _ 0 (tickTo late) (tickTo_forward h) (tickTo late)
      (List.prefix_refl _) s hs _ hsent msg bytes rfl
    obtain ⟨t, served, rfl, hserved⟩ := hserved msg₀ q hasks
    refine ⟨msg₀, bytes, served, s, hs, hsent, ?_, fun p hp => ?_⟩
    · -- A failure has no answers.
      rintro rfl
      have : msg₀.resourse_record.ANSWER = [] := hnone
      simp [servedReply, setRCODE, setResp, this] at hanswers
    rcases hserved p hp with ⟨b, f, copied, rfl, hgot, hput, hsaved, hfound, hTTL⟩ |
      ⟨b, domain, ip, cur, -, -, hsource, hlog, -⟩
    · -- The readings are those of the events.
      have hin := hgot.subset
      have hadd : b.added = 0 ∨ b.added = late := of_decide_eq_true
        (hall ⟨b.worker, ⟨.time, b.added⟩, b.added⟩ (hin (by simp [Birth.events, Birth.making])))
      have hputs : b.put = 0 ∨ b.put = late := of_decide_eq_true
        (hall ⟨b.worker, ⟨.time, b.put⟩, b.put⟩ (hin (by simp [Birth.events])))
      have hsave : b.saved = 0 := of_decide_eq_true
        (hall (b.putEvent p.1) (hin (by simp [Birth.events])))
      have hfind : f.time = 100 := of_decide_eq_true (hall f.event (hin (by simp)))
      have hcopy : p.1 = addressItem := of_decide_eq_true
        (hall ⟨f.worker, ⟨.cacheGetCopy f.lkn, p.1⟩, copied⟩ (hin (by simp)))
      have htime : p.2 = 0 ∨ p.2 = late := of_decide_eq_true
        (hall ⟨f.worker, ⟨.time, p.2⟩, p.2⟩ (hin (by simp [serving])))
      have hddl := hgot.1.1.ddl_eq
      rw [hcopy, hitem] at hddl
      obtain rfl : p = (addressItem, late) := Prod.ext hcopy (show p.2 = late by omega)
      have hnat : b.rr.TTL.toNat = 100 := by omega
      refine ⟨rfl, ⟨b, f, hgot.1, by omega, UInt32.toNat_inj.mp hnat, by omega, hsave, hfind⟩,
        fun v => (hTTL v).trans ?_⟩
      constructor <;> intro h <;> omega
    · have hread := hall ⟨b.worker, b.source, b.arrival⟩
        (hlog.subset (List.mem_append_left _ List.mem_cons_self))
      rw [hsource] at hread
      cases hread
  obtain ⟨msg₀, bytes, served, s, hs, hsent, hne, hserved⟩ := hserves 100 (Or.inl rfl)
  obtain ⟨msg₁, bytes', served', s', hs', hsent', hne', hserved'⟩ := hserves 101 (Or.inr rfl)
  refine ⟨⟨msg₀, bytes, served, s, hs, hsent, hne, fun p hp => ?_⟩,
    ⟨msg₁, bytes', served', s', hs', hsent', hne', fun p hp => ?_⟩⟩
  · obtain ⟨hp, hbirth, hTTL⟩ := hserved p hp
    exact ⟨hp, hbirth, fun v => (hTTL v).mpr rfl⟩
  · obtain ⟨hp, hbirth, hTTL⟩ := hserved' p hp
    exact ⟨hp, hbirth, fun v heq => absurd ((hTTL v).mp heq) (by decide)⟩

/-- The deadline of the addresses is 100, when `CacheGet` finds them; `Item2Msg` reads 101, and the TTL
that is served is one less than zero as an `uint32_t`. -/
theorem served_TTL_wrapped :
    Meets (serverStep emptyReader) Forward (serverInit emptyReader (10 : ℕ) 0) (tickTo 101) ∧
    ∃ (s : Workers (Fin 1)) (msg : Message) (bytes : List UInt8),
      exec (serverStep emptyReader) (serverInit emptyReader (10 : ℕ) 0) (tickTo 101) = .ok s ∧
      ⟨101, queryA, .built msg bytes⟩ ∈ s.shared.replies ∧
      ∃ rr ∈ msg.resourse_record.ANSWER, rr = addressItem.record [97] 101 [9, 9, 9, 9] ∧
        addressItem.ddl = 100 ∧ rr.TTL = 4294967295 ∧ (rr.TTL.toNat : ℤ) ≠ addressItem.ddl - 101 := by
  refine ⟨tickTo_forward (Or.inr rfl), ?_⟩
  obtain ⟨s, msg, bytes, hs, hsent, hanswer⟩ := tickTo_serves (Or.inr rfl)
  refine ⟨s, msg, bytes, hs, hsent, _, ?_, rfl, rfl, by decide, by decide⟩
  rw [hanswer]
  exact List.mem_cons_self

end DnsRelayer
