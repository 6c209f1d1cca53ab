import GalaLua.AMQ.Doors
import GalaLua.AMQ.Poolers
import GalaLua.AMQ.Sequences
import GalaLua.AMQ.Allocation
import GalaLua.AMQ.Atomic
import GalaLua.AMQ.Footprint
import GalaLua.GLR.Scheduling
import GalaLua.GLR.References
import GalaLua.GLR.Names
import GalaLua.GLR.Pids
import GalaLua.GLR.Locks
import GalaLua.GLR.Spawn
import GalaLua.GLR.Entries
import GalaLua.GLR.Interrupt
import GalaLua.Controllers.Interest
import GalaLua.Controllers.NodeSend
import GalaLua.Controllers.Handles
import GalaLua.Controllers.Routes
import GalaLua.Controllers.FastPath
import GalaLua.Controllers.Broken
import GalaLua.Frameworks.Queue
import GalaLua.Frameworks.Deque
import GalaLua.Frameworks.Calls
import GalaLua.Slog.ReadStream
import GalaLua.Slog.Indexes
import GalaLua.Runtime.CQueue
import GalaLua.Runtime.ReadBack
import GalaLua.Runtime.Nesting
import GalaLua.Runtime.ByteArray
import GalaLua.Runtime.Escape
import GalaLua.Frameworks.StaticFiles
import GalaLua.Frameworks.Bootstrap
import GalaLua.Http.Decoding
import GalaLua.Frameworks.StopAll
import GalaLua.Frameworks.Logger
import GalaLua.Frameworks.Pool
import GalaLua.GalaDB.Transactions
import GalaLua.GalaDB.Attributes
import GalaLua.GalaDB.Vectors
import GalaLua.GalaDB.Merging
import GalaLua.GalaDB.RoundTrip
import GalaLua.GalaDB.Mismatch
import GalaLua.GalaDB.Export
import GalaLua.GalaDB.Composition
import GalaLua.Http.Transport
import GalaLua.Http.Calendar
import GalaLua.Http.Chunked
import GalaLua.Frameworks.Contexts
import GalaLua.Frameworks.Supervisor
import GalaLua.Modules.LogLines
import GalaLua.Modules.AbsPath
import GalaLua.Modules.PathNames
import GalaLua.Modules.CommonPrefix
import GalaLua.Modules.Datetime
import GalaLua.LuaCodec.Gb2312
import GalaLua.LuaObject.RoundTrip
import GalaLua.LuaObject.Global
import GalaLua.Encryption.Rfc1321
import GalaLua.Encryption.Crypt
import GalaLua.Modules.Template
import GalaLua.Wrappers.Available
import GalaLua.Runtime.Segments
import GalaLua.Runtime.PQueueAllocation
import GalaLua.Runtime.PQueueMessages
import GalaLua.Runtime.PollSelector
import GalaLua.Runtime.EpollSelector
import GalaLua.Controllers.Output
import GalaLua.Controllers.Malformed
import GalaLua.Controllers.Clock
import GalaLua.Controllers.Requests
import GalaLua.Controllers.OnFly
