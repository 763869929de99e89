import DnsRelayer.Server.Item
import DnsRelayer.Cache.Cache
import DnsRelayer.Tool.Lookups
import DnsRelayer.Lib.Pool

/-!
# The handler of `src/server.c`

A worker runs `handler` on a request. What it does on its own is computed in place, up to the next
operation on what the workers share or on the world: the sections of the cache under its lock, the
steps of a lookup in the local file, the clock, and the sockets. `perform` is what an operation does
to the shared state, with what comes from outside: the time, whether a packet could be sent, and
what the server answered.

Memory of a thread's own (`malloc` and `free` of messages and items) is not modelled, nor is what is
logged. `showRequest` reads a table of 50 names to log the type of a question; past it the program
goes on, or not, as the environment says.
-/

namespace DnsRelayer

open Lib

/-- The bytes of a buffer into which a datagram was received: the datagram, and what is in the buffer
after it. -/
structure Received where
  bytes : List UInt8
  rest : List UInt8
  length_eq : (bytes ++ rest).length = BUFF_SIZE
  deriving DecidableEq

/-- The struct `arg`: the buffer with a request of `n` bytes, and the address of the client. -/
structure Arg where
  buff : Received
  cliAddr : ℕ
  deriving DecidableEq

/-- What is sent to a client: a message that was built, as its bytes, or the bytes of another
datagram. -/
inductive Reply where
  | built (msg : Message) (bytes : List UInt8)
  | forwarded (bytes : List UInt8)
  deriving DecidableEq

/-- The operations of the handler. A `fscanf` has the domain of its lookup and the position where
its `fseek` went with it, which it does not use. -/
inductive Op where
  | showRequest (q_type : UInt16)
  | time
  | cacheGetLocked (key : List UInt8)
  | cacheGetCopy (lkn : ℕ)
  | cachePut (key : List UInt8) (it : Item) (TTL : ℤ)
  | fseek (cur : ℕ)
  | fscanf (domain : List UInt8) (cur : ℕ)
  | Socket
  | close
  | sendtoServer (bytes : List UInt8)
  | recvfrom
  | sendto (parg : Arg) (reply : Reply)

/-- The results of the operations. -/
@[reducible]
def Res : Op → Type
  | .time => ℤ
  | .cacheGetLocked _ => Option ℕ
  | .cacheGetCopy _ => Item
  | .fscanf _ _ => Option (List UInt8)
  | .sendtoServer _ => Bool
  | .recvfrom => Option Received
  | _ => Unit

/-- A program of the handler. -/
abbrev M := Prog Op Res Fault

/-- Call an operation. -/
def call (o : Op) : M (Res o) := Prog.op o

/-- Compute. -/
def compute {α : Type} (x : Run α) : M α := Prog.ofExcept x

/-! ## Items -/

/-- `getItem`. -/
def getItem (name : List UInt8) (type : UInt16) : M (Option Item) := do
  let key ← compute (keyOf name type)
  match ← call (.cacheGetLocked key) with
  | none => return none
  | some lkn => return some (← call (.cacheGetCopy lkn))

/-- `putItem`, of an item under its own name. An item without a type is not valid. -/
def putItem (type : UInt16) (it : Item) : M Unit := do
  if it.type = 0 then return
  else
    let name ← compute (terminated it.name)
    let key ← compute (keyOf name type)
    let now ← call .time
    call (.cachePut key it (it.ddl - now))

/-- `Item2Msg`, with the name of the item. -/
def answerItem (msg : Message) (it : Item) : M Message := do
  let name ← compute (terminated it.name)
  let now ← call .time
  return Item2Msg msg it name now

/-- `addRR2Item`. -/
def storeRR (it : Item) (rr : RR) : M Item := do
  let now ← call .time
  compute (addRR2Item it rr now)

/-! ## The handler -/

/-- Encode a message in the buffer of the handler, and send it to the client. -/
def reply (parg : Arg) (msg : Message) : M Unit := do
  let bytes ← compute (encode msg)
  if bytes.length > BUFF_SIZE then Prog.fail .overrun
  else call (.sendto parg (.built msg bytes))

/-- Reply with a server failure. -/
def replyFailure (parg : Arg) (msg : Message) : M Unit :=
  reply parg (setRCODE (setResp msg) SERVER_FAILURE)

/-- The reply is begun with what the request says, and answers its first question. -/
def request (buff : List UInt8) : Run (Message × Question) := do
  let (msg, _) ← decode buff
  let msg := setFlag (setResp (releaseAdditionalRR msg)) RA
  match msg.ques with
  | [] => throw .badPointer
  | q :: _ => return (msg, q)

/-- The types of which records are cached. -/
def Cached (type : UInt16) : Prop := type = A ∨ type = NS ∨ type = CNAME

instance (type : UInt16) : Decidable (Cached type) := inferInstanceAs (Decidable (_ ∨ _))

/-- The part of `handler` that looks in the cache, for the records of the question or for an alias
and the addresses of its target: whether it replied. -/
def replyFromCache (parg : Arg) (msg : Message) (name : List UInt8) (qtype : UInt16) : M Bool := do
  if Cached qtype then
    let name ← compute (terminated name)
    match ← getItem name qtype with
    | some it =>
      let msg ← answerItem msg it
      reply parg msg
      return true
    | none =>
      if qtype = A then
        match ← getItem name CNAME with
        | some it =>
          match ← getItem (it.strVal.headD []) A with
          | some tit =>
            let msg ← answerItem msg it
            let msg ← answerItem msg tit
            reply parg msg
            return true
          | none => return false
        | none => return false
      else return false
  else return false

/-- The call of `file_reader_get_a_record`, into the array `ip`. -/
def getRecord (fr : FileReader) (domain : List UInt8) :
    M (Option (List UInt8)) := do
  match ← compute (file_reader_find fr domain) with
  | none => return none
  | some cur =>
    call (.fseek cur)
    match ← call (.fscanf domain cur) with
    | some ip => return some (cstr ip)
    -- Nothing was read into the array.
    | none => Prog.fail .uninit

/-- The record that `handler` makes of an address in the local file. -/
def fileRR (name addr : List UInt8) : RR :=
  setRRData (setRRName { zeroRR with type := A, class_ := IN, TTL := 600000 } name) addr

/-- The part of `handler` that looks in the local file: whether it replied. -/
def replyFromFile (fr : FileReader) (parg : Arg) (msg : Message) (name : List UInt8)
    (qtype : UInt16) : M Bool := do
  if qtype = A then
    let name ← compute (terminated name)
    match ← getRecord fr name with
    | none => return false
    | some ip =>
      match inet_pton ip with
      -- Nothing was written to the address.
      | none => Prog.fail .uninit
      | some addr =>
        let tmp ← storeRR zeroItem (fileRR name addr)
        putItem A tmp
        let msg ← answerItem msg tmp
        reply parg msg
        return true
  else return false

/-- The items of a response, one for each type that is cached. -/
structure Items where
  Ait : Item
  Nit : Item
  Cit : Item
  deriving DecidableEq

/-- The loop of `handler` over the answer section of a response. -/
def collect : List RR → Items → M Items
  | [], items => return items
  | rr :: rrs, items => do
    if rr.type = A then
      let Ait ← storeRR items.Ait rr
      collect rrs { items with Ait := Ait }
    else if rr.type = NS then
      let Nit ← storeRR items.Nit rr
      collect rrs { items with Nit := Nit }
    else if rr.type = CNAME then
      let Cit ← storeRR items.Cit rr
      collect rrs { items with Cit := Cit }
    else collect rrs items

/-- The part of `handler` that asks the server, forwards its response and caches the records. The
socket is closed only when there is a response. -/
def relay (parg : Arg) (msg : Message) (qtype : UInt16) : M Unit := do
  call .Socket
  if ← call (.sendtoServer parg.buff.bytes) then
    match ← call .recvfrom with
    | none => replyFailure parg msg
    | some d =>
      call .close
      call (.sendto parg (.forwarded d.bytes))
      let (msg, _) ← compute (decode (d.bytes ++ d.rest))
      let items ← collect msg.resourse_record.ANSWER ⟨zeroItem, zeroItem, zeroItem⟩
      putItem items.Ait.type.toUInt16 items.Ait
      putItem items.Nit.type.toUInt16 items.Nit
      putItem items.Cit.type.toUInt16 items.Cit
  else
    call (.showRequest qtype)
    replyFailure parg msg

/-- The end of `relay`: the records of a response that was forwarded are cached. -/
def cacheRecords (d : Received) : M Unit := do
  let (msg, _) ← compute (decode (d.bytes ++ d.rest))
  let items ← collect msg.resourse_record.ANSWER ⟨zeroItem, zeroItem, zeroItem⟩
  putItem items.Ait.type.toUInt16 items.Ait
  putItem items.Nit.type.toUInt16 items.Nit
  putItem items.Cit.type.toUInt16 items.Cit

/-- `handler`. -/
def handler (fr : FileReader) (parg : Arg) : M Unit := do
  let (msg, q) ← compute (request (parg.buff.bytes ++ parg.buff.rest))
  call (.showRequest q.q_type)
  let name := strncpy q.q_name STR_LEN
  if ← replyFromCache parg msg name q.q_type then return
  else if ← replyFromFile fr parg msg name q.q_type then return
  else relay parg msg q.q_type

/-- A query for records that are not cached goes to the server. -/
theorem handler_of_not_cached {fr : FileReader} {parg : Arg} {msg : Message} {q : Question}
    (hreq : request (parg.buff.bytes ++ parg.buff.rest) = .ok (msg, q)) (hc : ¬ Cached q.q_type) :
    handler fr parg = (call (.showRequest q.q_type) >>= fun _ => relay parg msg q.q_type) := by
  rw [handler, hreq]
  refine congrArg (fun f => call (.showRequest q.q_type) >>= f) (funext fun _ => ?_)
  have hA : ¬ q.q_type = A := fun h => hc (Or.inl h)
  simp only [replyFromCache, replyFromFile, if_neg hc, if_neg hA]
  rfl

/-- A message whose encoding fits the buffer is sent. -/
theorem reply_of_encode {parg : Arg} {msg : Message} {bytes : List UInt8}
    (henc : encode msg = .ok bytes) (hle : bytes.length ≤ BUFF_SIZE) :
    reply parg msg = call (.sendto parg (.built msg bytes)) := by
  have hfits : ¬ bytes.length > BUFF_SIZE := Nat.not_lt.mpr hle
  rw [reply, henc]
  exact if_neg hfits

end DnsRelayer
