import DnsRelayer.Cache.HashSpec
import DnsRelayer.Cache.LinkList
import DnsRelayer.Cache.Concurrent
import DnsRelayer.Tool.Lookups
import DnsRelayer.Lib.Tokens
import DnsRelayer.Message.Decode
import DnsRelayer.Lib.Orbit
import DnsRelayer.Message.Names
import DnsRelayer.Message.Layout
import DnsRelayer.Message.Returns
import DnsRelayer.Message.Received
import DnsRelayer.Message.Encode
import DnsRelayer.Message.RoundTrip
import DnsRelayer.Message.Reencode
import DnsRelayer.Cache.Holds
import DnsRelayer.Lib.Pool
import DnsRelayer.Server.Item
import DnsRelayer.Server.Handler
import DnsRelayer.Server.System
import DnsRelayer.Lib.Linked
import DnsRelayer.Pool.Queue
import DnsRelayer.Pool.QueueSpec
import DnsRelayer.Pool.Fifo
import DnsRelayer.Pool.Shutdown
import DnsRelayer.Tool.Listed
import DnsRelayer.Server.Index
import DnsRelayer.Server.Sockets
import DnsRelayer.Server.ItemSpec
import DnsRelayer.Server.Policy
import DnsRelayer.Server.Records
import DnsRelayer.Server.Alone
import DnsRelayer.Server.Expiry
import DnsRelayer.Server.Override
import DnsRelayer.Message.Header
import DnsRelayer.Server.Calls
import DnsRelayer.Lib.Record
import DnsRelayer.Message.Size
import DnsRelayer.Server.Matching
import DnsRelayer.Server.Reference
import DnsRelayer.Server.OneReply
import DnsRelayer.Lib.Simulation
import DnsRelayer.Server.Simulation
import DnsRelayer.Cache.HashRuns
import DnsRelayer.Cache.Log
import DnsRelayer.Message.Rfc
import DnsRelayer.Message.Compression
import DnsRelayer.Message.Pointers
import DnsRelayer.Message.Session
import DnsRelayer.Lib.Wp
import DnsRelayer.Server.InBounds
import DnsRelayer.Lib.Chronicle
import DnsRelayer.Server.Chronicle
import DnsRelayer.Server.Clock
import DnsRelayer.Message.Footprint
import DnsRelayer.Server.ReplySize
import DnsRelayer.Relayer.System
import DnsRelayer.Relayer.Askers
import DnsRelayer.Relayer.Sockets
import DnsRelayer.Relayer.Relays
import DnsRelayer.Lib.Journal
import DnsRelayer.Message.Stores
import DnsRelayer.Message.Setters
import DnsRelayer.Cache.LinkListRuns
import DnsRelayer.Tool.Tail
import DnsRelayer.Lib.Tails
import DnsRelayer.Message.Greedy
import DnsRelayer.Lib.LruRuns
import DnsRelayer.Cache.Retention
import DnsRelayer.Message.Plain
import DnsRelayer.Server.Refinement
import DnsRelayer.Lib.Fair
import DnsRelayer.Pool.ThreadPool
import DnsRelayer.Pool.Tasks
import DnsRelayer.Pool.Progress
import DnsRelayer.Pool.Closing
import DnsRelayer.Server.Process
import DnsRelayer.Server.Main
import DnsRelayer.Message.Builder
import DnsRelayer.Client
