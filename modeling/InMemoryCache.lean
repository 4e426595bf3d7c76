import InMemoryCache.Lib.Outcome
import InMemoryCache.Lib.Table
import InMemoryCache.Lib.Domain
import InMemoryCache.Lib.Lease
import InMemoryCache.Lib.Decoder
import InMemoryCache.Lib.Reader
import InMemoryCache.Lib.Separator
import InMemoryCache.Lib.Run
import InMemoryCache.Lib.Ledger
import InMemoryCache.Lib.Journal
import InMemoryCache.Lib.Paging
import InMemoryCache.Lib.Wildcard
import InMemoryCache.Lib.Deque
import InMemoryCache.Lib.TwoPhase
import InMemoryCache.Lib.Least
import InMemoryCache.Lib.Loop
import InMemoryCache.Lib.Samples
import InMemoryCache.Lib.Affix
import InMemoryCache.Lib.Broadcast
import InMemoryCache.Lib.Sections
import InMemoryCache.Lib.Books
import InMemoryCache.Lib.Raise
import InMemoryCache.Basic
import InMemoryCache.Text
import InMemoryCache.Glob
import InMemoryCache.GlobLaws
import InMemoryCache.Latency
import InMemoryCache.Wire.Frame
import InMemoryCache.Wire.FrameLaws
import InMemoryCache.Wire.RoundTrip
import InMemoryCache.Wire.Connection
import InMemoryCache.Wire.Stack
import InMemoryCache.Store.Value
import InMemoryCache.Store.Cell
import InMemoryCache.Store.Db
import InMemoryCache.Store.Run
import InMemoryCache.Store.Accounting
import InMemoryCache.Store.Evict
import InMemoryCache.Store.Ledger
import InMemoryCache.Store.Lookups
import InMemoryCache.Store.Keyspace
import InMemoryCache.Store.Same
import InMemoryCache.Store.Refinement
import InMemoryCache.Store.Collections
import InMemoryCache.Store.Invariant
import InMemoryCache.Store.Scan
import InMemoryCache.Store.Sweep
import InMemoryCache.Store.Ttl
import InMemoryCache.Store.Delete
import InMemoryCache.Store.Get
import InMemoryCache.Store.Reserve
import InMemoryCache.Store.Limit
import InMemoryCache.Store.MemoryLimit
import InMemoryCache.Store.Threads
import InMemoryCache.Store.Interleaved
import InMemoryCache.Store.Overshoot
import InMemoryCache.Cmd.Parse
import InMemoryCache.Cmd.Apply
import InMemoryCache.Cmd.Effect
import InMemoryCache.Cmd.Reachable
import InMemoryCache.Cmd.Writes
import InMemoryCache.Cmd.Lists
import InMemoryCache.Cmd.Queues
import InMemoryCache.Cmd.Values
import InMemoryCache.Cmd.Replies
import InMemoryCache.Cmd.Encoding
import InMemoryCache.Aof.Load
import InMemoryCache.Aof.Recovery
import InMemoryCache.Aof.Rebuild
import InMemoryCache.Aof.Expiry
import InMemoryCache.Aof.Checked
import InMemoryCache.Aof.Writer
import InMemoryCache.Aof.Crash
import InMemoryCache.Server.Request
import InMemoryCache.Server.Session
import InMemoryCache.Server.Serial
import InMemoryCache.Server.Agreement
import InMemoryCache.Server.Concurrent
import InMemoryCache.Server.Restart
import InMemoryCache.Server.Shutdown
import InMemoryCache.Server.Subscriber
import InMemoryCache.Server.Confirmations
import InMemoryCache.Server.Delivery
import InMemoryCache.Server.Hub
import InMemoryCache.Server.Listeners
import InMemoryCache.Server.Clients
import InMemoryCache.Server.Sweeper
import InMemoryCache.Server.Simulate
