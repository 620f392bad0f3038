import FiberServer.Library.Transition
import FiberServer.Library.Tally
import FiberServer.Base.Config
import FiberServer.Library.OrderedSet
import FiberServer.Scheduler.Queue
import FiberServer.Scheduler.Run
import FiberServer.Scheduler.Step
import FiberServer.Scheduler.Conservation
import FiberServer.Scheduler.Counters
import FiberServer.Scheduler.Wakeup
import FiberServer.Scheduler.Stopping
import FiberServer.Scheduler.Ownership
import FiberServer.Scheduler.Exclusive
import FiberServer.IOManager.Accounting
import FiberServer.SociManager.Pool
import FiberServer.SociManager.Conservation
import FiberServer.SociManager.Waiters
import FiberServer.Chunk.FSUtil
import FiberServer.Chunk.ChunkManager
import FiberServer.Chunk.Merge
import FiberServer.Library.Blocks
import FiberServer.ByteArray.Nodes
import FiberServer.ByteArray.Flat
import FiberServer.ByteArray.Refinement
import FiberServer.Artifact.Metadata
import FiberServer.Library.Program
import FiberServer.Artifact.Mysqlop
import FiberServer.Artifact.Servlets
import FiberServer.Artifact.Store
import FiberServer.Artifact.Atomicity
import FiberServer.Artifact.Effects
import FiberServer.Artifact.References
import FiberServer.Artifact.Orphans
import FiberServer.Http.Query
import FiberServer.Http.HttpServer
import FiberServer.Artifact.Authorization
import FiberServer.Chunk.Confinement
import FiberServer.Chunk.Bookkeeping
import FiberServer.Artifact.Completion
import FiberServer.Http.HttpParser
import FiberServer.Http.HttpSession
import FiberServer.Http.Framing
import FiberServer.Artifact.Dangling
import FiberServer.Artifact.Clearing
import FiberServer.ByteArray.Typed
import FiberServer.ByteArray.RoundTrip
import FiberServer.IOManager.Table
import FiberServer.IOManager.Registrations
import FiberServer.Scheduler.Pinning
import FiberServer.Hook.DoIo
import FiberServer.Hook.Timeout
import FiberServer.Hook.Close
import FiberServer.Hook.FdManager
import FiberServer.Hook.Nonblock
import FiberServer.IOManager.Timers
import FiberServer.Scheduler.Suspension
import FiberServer.Scheduler.Statistics
import FiberServer.IOManager.TimerSet
import FiberServer.Db.Exact
import FiberServer.Db.Shutdown
import FiberServer.Base.Log
import FiberServer.Http.UploadRows
import FiberServer.Artifact.Sizes
import FiberServer.Library.Extract
import FiberServer.Scheduler.Dequeue
import FiberServer.IOManager.AddEvent
import FiberServer.IOManager.Expiry
import FiberServer.Base.LoggerManage
import FiberServer.Hook.Sleep
import FiberServer.IOManager.IdleWait
import FiberServer.Artifact.StorageNames
import FiberServer.Artifact.Numbers
import FiberServer.Artifact.ChunkPlan
import FiberServer.Http.Method
import FiberServer.Http.Response
import FiberServer.Http.Download
import FiberServer.Library.Posix
import FiberServer.Library.Interleaving
import FiberServer.Chunk.SysCalls
import FiberServer.Chunk.Remove
import FiberServer.Chunk.Replace
import FiberServer.Chunk.Clean
import FiberServer.Chunk.Parallel
import FiberServer.Library.Codes
import FiberServer.Base.UrlCoding
import FiberServer.Http.Params
import FiberServer.Library.Transfer
import FiberServer.Stream.FixSize
import FiberServer.ByteArray.Buffers
import FiberServer.Stream.SocketStream
import FiberServer.ByteArray.Positional
import FiberServer.ByteArray.File
import FiberServer.ByteArray.FailedRead
import FiberServer.Library.Yaml
import FiberServer.Base.LogPattern
import FiberServer.Base.LogYaml
import FiberServer.Base.ConfigYaml
import FiberServer.Base.LoggerFormatter
import FiberServer.ByteArray.Zigzag
import FiberServer.Library.Arithmetic
import FiberServer.Util.HexString
import FiberServer.Util.Base64
import FiberServer.Net.Address
import FiberServer.Net.Lookup
import FiberServer.Library.JsonString
import FiberServer.Util.JsonUtil
import FiberServer.Library.Ipv6Text
import FiberServer.Net.Ipv6Insert
import FiberServer.Http.ServletDispatch
import FiberServer.Http.Accessors
import FiberServer.Http.Cookies
import FiberServer.Http.HandleClient
import FiberServer.Library.Ones
import FiberServer.Net.Interfaces
import FiberServer.Library.Ipv4Text
import FiberServer.Net.ToString
import FiberServer.FastDFS.Manager
import FiberServer.Http.Listing
import FiberServer.Http.Tokens
import FiberServer.Net.TcpServer
import FiberServer.Hook.Wakeups
import FiberServer.Hook.Connect
