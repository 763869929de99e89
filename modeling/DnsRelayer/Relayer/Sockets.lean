import DnsRelayer.Relayer.Askers
import DnsRelayer.Lib.Ledger

/-!
# The sockets of the relayer

A handler opens a socket for its question to the server, and closes it when it has sent the answer on. When the
server does not answer in time it returns without: the socket stays open for good. So the sockets that are open
are, in any run, one for each wait in vain and one for each handler at work that has one to close
(`relayer_sockets`).
-/

namespace DnsRelayer.Relayer

open Lib

variable {ι : Type} [DecidableEq ι] [Fintype ι] {s s' : State ι} {a : Action ι} {as : List (Action ι)}

/-- Whether a handler has a socket open that it goes on to close, after an operation. -/
def socketAfter : (o : Op) → Res o → Bool → Option Bool
  | .Socket, _, false => some true
  | .sendtoServer _ _, _, true => some true
  | .recvfrom, response, true => some response.isSome
  | .sendto _ _, _, true => some true
  | .Close, _, true => some false
  | _, _, _ => none

/-- After these calls a handler has a socket open that it goes on to close. -/
def HasSocket (cs : List (Called Op Res)) : Prop := along socketAfter false cs = some true

instance (cs : List (Called Op Res)) : Decidable (HasSocket cs) := inferInstanceAs (Decidable (_ = _))

/-- A wait without an answer. -/
def Unanswered : Called Op Res → Prop
  | ⟨.recvfrom, response⟩ => response.isNone = true
  | _ => False

instance : DecidablePred Unanswered
  | ⟨.recvfrom, response⟩ => inferInstanceAs (Decidable (response.isNone = true))
  | ⟨.Socket, _⟩ | ⟨.sendtoServer _ _, _⟩ | ⟨.sendto _ _, _⟩ | ⟨.Close, _⟩ =>
    inferInstanceAs (Decidable False)

/-- The handler ends without a socket that it is to close. -/
theorem handler_tracks (pa : Arg) : Tracks socketAfter (handler pa) (fun _ b => b = false) false := by
  have haddr : inet_pton DNS_IP = some [192, 168, 43, 1] := by decide
  unfold handler
  refine (Tracks.ofExcept fun _ _ => rfl : Tracks socketAfter _ (fun _ b => b = false) false).bind ?_
  rintro buff - rfl
  split_ifs
  · exact Tracks.fail
  refine (Tracks.op Op.Socket fun _ => ⟨true, rfl, rfl⟩ : Tracks socketAfter (call Op.Socket)
    (fun _ b => b = true) false).bind ?_
  rintro - - rfl
  rw [haddr]
  refine (Tracks.op (Op.sendtoServer _ _) fun _ => ⟨true, rfl, rfl⟩ : Tracks socketAfter
    (call (.sendtoServer _ buff)) (fun _ b => b = true) true).bind ?_
  rintro (- | -) - rfl
  · exact Tracks.fail
  refine (Tracks.op Op.recvfrom fun d => ⟨d.isSome, rfl, rfl⟩ : Tracks socketAfter (call Op.recvfrom)
    (fun d b => b = d.isSome) true).bind ?_
  rintro (- | response) - rfl
  · rfl
  refine (Tracks.op (Op.sendto _ _) fun _ => ⟨true, rfl, rfl⟩ : Tracks socketAfter
    (call (.sendto pa.cliAddr response)) (fun _ b => b = true) true).bind ?_
  rintro - - rfl
  exact Tracks.op Op.Close fun _ => ⟨false, rfl, rfl⟩

/-- Operations change the number of open sockets as they change whether their handler has one to close, and a wait
in vain leaves it open. -/
theorem counts_sockets : Recorded.Counts perform socketAfter Unanswered id := by
  intro o e n r n' b b' hnext hle hperf
  cases o with
  | Socket =>
    cases b <;> cases hnext
    simp only [perform] at hperf
    split_ifs at hperf
    cases hperf
    rfl
  | sendtoServer | sendto =>
    cases b <;> cases hnext
    cases hperf
    rfl
  | recvfrom =>
    cases b <;> cases hnext
    cases hperf
    cases hr : e.response <;> simp [Unanswered]
  | Close =>
    cases b <;> cases hnext
    cases hperf
    rw [if_neg fun h : Unanswered ⟨.Close, ()⟩ => h]
    simp only [id, Bool.toNat_true, Bool.toNat_false] at hle ⊢
    omega

/-- **Sockets.** In every run of the relayer, whatever its threads do and in whatever order, the sockets that are
open are one for each wait for the server that was in vain, which are never closed, and one for each handler at
work that has opened its socket and goes on to close it. -/
theorem relayer_sockets (cliAddr₀ : SockAddr) (buff₀ : List UInt8)
    (hs : exec State.step (State.init cliAddr₀ buff₀) as = .ok s) :
    s.workers.pool.shared = s.workers.calls.countP Unanswered +
      (Finset.univ.filter fun t => HasSocket (s.workers.called t)).card := by
  have hmeets : Meets State.step (fun _ _ => True) (State.init cliAddr₀ buff₀ : State ι) as :=
    meets_of_forall fun _ _ _ => trivial
  have hbody : ∀ task : Task, Tracks socketAfter (handler task.arg) (fun _ b => b = false) false :=
    fun task => handler_tracks task.arg
  have hinit : (State.init cliAddr₀ buff₀ : State ι).workers.Kept (fun _ => True)
      (fun task => handler task.arg) socketAfter Unanswered id := by
    refine Recorded.init_kept ?_
    rfl
  have h := exec_invariant (I := fun s : State ι => s.workers.Kept (fun _ => True)
      (fun task => handler task.arg) socketAfter Unanswered id) hinit (fun s a s' h _ hs => by
    cases step_cases hs with
    | none | receive | queue => exact h
    | start leaves steps starts =>
      exact h.step counts_sockets hbody (fun _ _ => rfl) (fun _ _ _ => trivial) starts
    | run runs => exact h.step counts_sockets hbody (fun _ _ => rfl) (fun _ _ _ => trivial) runs)
    hmeets as (List.prefix_refl as) s hs
  exact h.ledger.eq h.finished hbody

/-- `askedA` arrives, and the server does not answer. -/
def askedInVain : List (Action Unit) :=
  .receive (some askedA) :: List.replicate 4 (.addTask none) ++
    .deque () :: List.replicate 4 (.dequeue () none) ++ List.replicate 4 (.run () ⟨true, true, none⟩)

/-- `relayer_sockets` for a request that the server does not answer. -/
theorem relayer_sockets_vain : ∃ s,
    exec State.step (State.init zeroAddr (List.replicate BUFF_SIZE 0)) askedInVain = .ok s ∧
    s.workers.ended.length = 1 ∧ s.workers.pool.shared = 1 ∧
    s.workers.pool.shared = s.workers.calls.countP Unanswered +
      (Finset.univ.filter fun t => HasSocket (s.workers.called t)).card := by
  obtain ⟨s, hs, hlast⟩ : ∃ s,
      exec State.step (State.init zeroAddr (List.replicate BUFF_SIZE 0)) askedInVain = .ok s ∧
      (decide (s.workers.ended.length = 1) && decide (s.workers.pool.shared = 1)) = true :=
    exec_reaches (by decide +kernel)
  simp only [Bool.and_eq_true, decide_eq_true_eq] at hlast
  exact ⟨s, hs, hlast.1, hlast.2, relayer_sockets zeroAddr _ hs⟩

end DnsRelayer.Relayer
