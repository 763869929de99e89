import DnsRelayer.Server.Process
import DnsRelayer.Tool.Arg

/-!
# From the command line to the replies

`main` of `src/server.c` reads its settings from the command line, makes the thread pool, the socket, the cache
and the reader of the local file, and gets to its loop (`mainStart`). What it needs of the system is whether
the file can be opened, and whether there is a socket for the port.

A complete command line gets it to the loop. From there on every query is answered, when the number of threads
is not negative; a negative one is not replaced, the pool then has no workers, and no query ever is
(`command_line_answers`).
-/

namespace DnsRelayer

open Lib

/-- `enum clog_level`. -/
inductive ClogLevel where
  | trace | debug | info | warn | error | fatal
  deriving DecidableEq

/-- What the system gives to `main`: the text of a file that can be opened, and whether `socket` and `bind`
to a port succeed. -/
structure Host where
  fopen : List UInt8 → Option (List UInt8)
  socket : Bool
  bind : ℕ → Bool

/-- What `main` has set up when it gets to its loop. -/
structure Config where
  poolsize : ℤ
  debugLev : ClogLevel
  port : ℕ
  cachesize : ℤ
  localReader : FileReader
  servaddr : List UInt8

/-- How `main` gets on: it shows the manual, returns for want of a setting, or gets to its loop. -/
inductive Startup where
  | help
  | returns
  | loop (c : Config)

/-- The number of threads: `10` when it is not set, and at most `150`. -/
def poolsizeOf (n : ℤ) : ℤ :=
  let poolsize := if n = 0 then 10 else n
  if poolsize > 150 then 150 else poolsize

/-- The port, a `uint16_t`, which is `53` when it is not set. -/
def portOf (n : ℤ) : ℕ :=
  let port := (n % 2 ^ 16).toNat
  if port = 0 then 53 else port

/-- The size of the cache, when it is not set to a positive number. -/
def cachesizeOf (n : ℤ) : ℤ := if n ≤ 0 then 1024 else n

/-- The level of the log. -/
def debugLevOf (arg : ArgTab) : Run ClogLevel := do
  if ← matchArg arg (lit "debug") (lit "trace") then return .trace
  else if ← matchArg arg (lit "debug") (lit "debug") then return .debug
  else if ← matchArg arg (lit "debug") (lit "info") then return .info
  else if ← matchArg arg (lit "debug") (lit "warn") then return .warn
  else if ← matchArg arg (lit "debug") (lit "error") then return .error
  else if ← matchArg arg (lit "debug") (lit "fatal") then return .fatal
  else return .info

/-- `main` up to its loop. -/
def mainStart (host : Host) (argv : List (List UInt8)) : Run Startup := do
  let argument ← newArg argv
  if ← matchArg argument (lit "--help") (lit "true") then return .help
  let poolsize := poolsizeOf (← getInt argument (lit "poolsize"))
  let debugLev ← debugLevOf argument
  if !host.socket then throw .exits
  let port := portOf (← getInt argument (lit "port"))
  if !host.bind port then throw .exits
  let cachesize := cachesizeOf (← getInt argument (lit "cachesize"))
  match ← getStr argument (lit "localfile") with
  | none => return .returns
  | some p =>
    match host.fopen p with
    | none => throw .exits
    | some fd =>
      let localReader ← file_reader_alloc fd
      match ← getStr argument (lit "dns") with
      | none => return .returns
      | some p =>
        match inet_pton p with
        | none => return .returns
        | some servaddr =>
          return .loop ⟨poolsize, debugLev, port, cachesize, localReader, servaddr⟩

/-- The settings and the system have all that `main` needs to get to its loop. -/
structure Complete (host : Host) (xs : List Setting) (fd servaddr : List UInt8) : Prop where
  noHelp : ¬ ∃ p ∈ lastValue xs (lit "--help"), lit "true" <+: p
  socket : host.socket = true
  bind : host.bind (portOf (lastInt xs (lit "port"))) = true
  localfile : ∃ p ∈ lastValue xs (lit "localfile"), host.fopen p = some fd
  dns : ∃ p ∈ lastValue xs (lit "dns"), inet_pton p = some servaddr

/-- What `main` sets up is what the settings say. -/
structure Config.Follows (c : Config) (xs : List Setting) (fd servaddr : List UInt8) : Prop where
  poolsize : c.poolsize = poolsizeOf (lastInt xs (lit "poolsize"))
  port : c.port = portOf (lastInt xs (lit "port"))
  cachesize : c.cachesize = cachesizeOf (lastInt xs (lit "cachesize"))
  localReader : file_reader_alloc fd = .ok c.localReader
  servaddr : c.servaddr = servaddr

variable {host : Host} {argv : List (List UInt8)} {fd servaddr : List UInt8} {fr : FileReader}

/-- Reading the level of the log does not fault. -/
theorem debugLevOf_ok {xs : List Setting} {ta : ArgTab} (h : ∀ key, Sees xs ta key) :
    ∃ l, debugLevOf ta = .ok l := by
  simp only [debugLevOf, (h _).starts, Run.ok_bind]
  split_ifs <;> exact ⟨_, rfl⟩

/-- A complete command line gets `main` to its loop, set up as it says. -/
theorem mainStart_of_complete (hargc : argv.length < 2 ^ 31) (hproper : ∀ s ∈ argv.drop 1, Proper s)
    (hcomplete : Complete host (settings argv) fd servaddr) (hfr : file_reader_alloc fd = .ok fr) :
    ∃ c, mainStart host argv = .ok (.loop c) ∧ c.Follows (settings argv) fd servaddr := by
  obtain ⟨ta, hta, hsees⟩ := newArg_sees hproper hargc
  obtain ⟨l, hl⟩ := debugLevOf_ok hsees
  obtain ⟨p, hp, hopen⟩ := hcomplete.localfile
  obtain ⟨d, hd, haddr⟩ := hcomplete.dns
  refine ⟨⟨_, l, _, _, fr, servaddr⟩, ?_, rfl, rfl, rfl, hfr, rfl⟩
  simp only [mainStart, hta, Run.ok_bind, (hsees _).starts, (hsees _).int, (hsees _).str, hl,
    decide_eq_false hcomplete.noHelp, hcomplete.socket, hcomplete.bind, Option.mem_def.mp hp, hopen, hfr,
    Option.mem_def.mp hd, haddr]
  rfl

/-- The size of the cache is a positive `int`. -/
theorem cachesizeOf_int {n : ℤ} (hn : n < 2 ^ 31) :
    ∃ maxSize : ℕ, cachesizeOf n = maxSize ∧ 1 ≤ maxSize ∧ maxSize < 2 ^ 31 := by
  refine ⟨(cachesizeOf n).toNat, ?_⟩
  unfold cachesizeOf
  split_ifs <;> omega

/-- The number of threads has the sign of its setting, and is positive when that is zero. -/
theorem poolsizeOf_pos_iff (n : ℤ) : 0 < poolsizeOf n ↔ 0 ≤ n := by
  unfold poolsizeOf
  dsimp only
  split_ifs <;> omega

/-! ## The loop -/

variable {ι : Type} [DecidableEq ι] [Fintype ι]

/-- A pool without workers does not reply. -/
theorem silent_step [IsEmpty ι] {s s' : Process ι} {a : ProcessAction ι} (hs : processStep fr s a = .ok s') :
    s'.workers.pool.shared.replies = s.workers.pool.shared.replies := by
  rcases ThreadPool.step_does hs with ⟨-, hsame⟩ | ⟨b, hb, hstep⟩
  · rw [hsame]
  · cases b with
    | start t parg => exact isEmptyElim t
    | run t e => exact isEmptyElim t
    | outside now =>
      rw [← Except.ok.inj hstep]
      rfl

/-- **From the command line to the replies.** A complete command line, of arguments that fit the arrays, with a
local file of well-formed lines with dotted addresses, gets `main` to its loop, set up as it says. With as many
workers as were set up, every query that is put into the queue is then replied to in every run that is calm and
holds up no thread for ever, unless the number of threads was set to a negative one. In that case no run ever
sends a reply. -/
theorem command_line_answers (hargc : argv.length < 2 ^ 31) (hproper : ∀ s ∈ argv.drop 1, Proper s)
    (hcomplete : Complete host (settings argv) fd servaddr) {lines : List Line} (hfile : FileText fd lines)
    (hdotted : ∀ l ∈ lines, ∃ addr, inet_pton (cstr l.ip) = some addr) :
    ∃ c, mainStart host argv = .ok (.loop c) ∧ c.Follows (settings argv) fd servaddr ∧
      (Fintype.card ι = c.poolsize.toNat → ∀ (ids : List ι) (now : ℤ),
        (0 ≤ lastInt (settings argv) (lit "poolsize") →
          ∀ r : Trace (processStep c.localReader : Process ι → ProcessAction ι → Run (Process ι)),
          r.state 0 = processInit ids c.localReader c.cachesize now →
          (∀ n, Calm (r.state n) (r.action n)) →
          r.Fair (ThreadPool.CanMove (handler c.localReader) (perform c.localReader) Server.setClock)
            (ThreadPool.moves (handler c.localReader) (perform c.localReader) Server.setClock) →
          ∀ n, ∃ m, n ≤ m ∧ (∀ i ∈ (r.state m).workers.ended, Replied lines i.job i.calls) ∧
            ((r.state n).q.enqueued : Multiset Arg) ≤ (r.state m).workers.ended.map (·.job) ∧
            ((r.state n).q.enqueued : Multiset Arg) ≤
              (r.state m).workers.pool.shared.replies.map Sent.parg) ∧
        (lastInt (settings argv) (lit "poolsize") < 0 → ∀ as s,
          exec (processStep c.localReader) (processInit ids c.localReader c.cachesize now) as = .ok s →
          s.workers.pool.shared.replies = [])) := by
  obtain ⟨fr, hfr, -, -⟩ := file_reader_alloc_spec hfile
  obtain ⟨c, hmain, hc⟩ := mainStart_of_complete hargc hproper hcomplete hfr
  have hsign := poolsizeOf_pos_iff (lastInt (settings argv) (lit "poolsize"))
  rw [← hc.poolsize] at hsign
  refine ⟨c, hmain, hc, fun hcard ids now => ⟨fun hpool r h0 hcalm hfair => ?_, fun hpool as s hs => ?_⟩⟩
  · obtain ⟨maxSize, hsize, hmax, hint⟩ := cachesizeOf_int (lastInt_lt (settings argv) (lit "cachesize"))
    have hworkers : Nonempty ι := by
      rw [← Fintype.card_pos_iff, hcard]
      omega
    have hinit : Serving c.localReader lines maxSize (r.state 0) := by
      rw [h0, hc.cachesize, hsize]
      exact Serving.init ids c.localReader lines hmax hint now
    exact Serving.answers h0 hcalm (Serving.always hfile hdotted hc.localReader hinit hcalm) hfair
  · have hworkers : IsEmpty ι := by
      rw [← Fintype.card_eq_zero_iff, hcard]
      omega
    have hmeets : Meets (processStep c.localReader) (fun _ _ => True)
        (processInit ids c.localReader c.cachesize now) as := meets_of_forall fun _ _ _ => trivial
    refine exec_invariant (I := fun s => s.workers.pool.shared.replies = []) rfl
      (fun s a s' h _ hs => (silent_step hs).trans h) hmeets as (List.prefix_refl as) s hs

/-- A command line for one worker. -/
def oneWorker : List (List UInt8) :=
  [lit "server", lit "poolsize=1", lit "cachesize=10", lit "localfile=hosts", lit "dns=10.0.2.3"]

/-- A system with the file that the command line names. -/
def hostsHost : Host where
  fopen p := if p = lit "hosts" then some twoLinesText else none
  socket := true
  bind _ := true

/-- `command_line_answers` for a query to the one worker. -/
theorem command_line_answers_one : ∃ c, mainStart hostsHost oneWorker = .ok (.loop c) ∧ c.port = 53 ∧
    ∃ (r : Trace (processStep c.localReader : Process Unit → ProcessAction Unit → Run (Process Unit)))
      (n m : ℕ), r.state 0 = processInit [()] c.localReader c.cachesize 0 ∧
      (r.state n).q.enqueued.length = 1 ∧
      ((r.state n).q.enqueued : Multiset Arg) ≤ (r.state m).workers.pool.shared.replies.map Sent.parg := by
  have hcomplete : Complete hostsHost (settings oneWorker) twoLinesText [10, 0, 2, 3] :=
    ⟨by decide +kernel, rfl, rfl, ⟨lit "hosts", by decide +kernel, rfl⟩,
      ⟨lit "10.0.2.3", by decide +kernel, by decide +kernel⟩⟩
  obtain ⟨c, hmain, hc, hloop⟩ := @command_line_answers hostsHost oneWorker twoLinesText [10, 0, 2, 3] Unit _ _
    (by decide) (by decide +kernel) hcomplete _ twoLines_fileText twoLines_dotted
  have hpool : c.poolsize = 1 := hc.poolsize.trans (by decide +kernel)
  have hcache : c.cachesize = (10 : ℕ) := hc.cachesize.trans (by decide +kernel)
  obtain ⟨fr, hfr, r, h0, hcalm, hfair, henqueued⟩ := oneQuery_trace
  obtain rfl := Except.ok.inj (hfr.symm.trans hc.localReader)
  rw [← hcache] at h0
  obtain ⟨hanswers, -⟩ := hloop (by rw [hpool]; rfl) [()] 0
  obtain ⟨m, -, -, -, hreplies⟩ := hanswers (by decide +kernel) r h0 hcalm hfair oneQuery.length
  exact ⟨c, hmain, hc.port.trans (by decide +kernel), r, oneQuery.length, m, h0, henqueued, hreplies⟩

end DnsRelayer
