import Foxtails.Lib.Scan
import Foxtails.Lib.Libc
import Foxtails.Lib.Lines
import Foxtails.Lib.Strtok
import Foxtails.Lib.Object
import Foxtails.Lib.Path
import Foxtails.Lib.Ring
import Foxtails.Lib.Chain
import Foxtails.Lib.Malloc
import Foxtails.Lib.NextFit
import Foxtails.Lib.Longest
import Foxtails.Lib.Run
import Foxtails.Lib.Sync
import Foxtails.Log.Clog
import Foxtails.Log.Threads
import Foxtails.Cpool.Blocks
import Foxtails.Cpool.Shape
import Foxtails.Cpool.Marks
import Foxtails.Cpool.NoOverlap
import Foxtails.Cpool.Release
import Foxtails.Cpool.Footprint
import Foxtails.Cpool.Align
import Foxtails.Cpool.Strings
import Foxtails.Wire.Message
import Foxtails.Wire.Parse
import Foxtails.Wire.Grammar
import Foxtails.Wire.Checked
import Foxtails.Wire.Reads
import Foxtails.Wire.HeadText
import Foxtails.Wire.Boundary
import Foxtails.Wire.HeaderTable
import Foxtails.Wire.HeaderMap
import Foxtails.Wire.Recv
import Foxtails.Wire.ContentLength
import Foxtails.Wire.Growth
import Foxtails.Wire.Arrival
import Foxtails.Wire.RecvBuffer
import Foxtails.Wire.RoundTrip
import Foxtails.Wire.Send
import Foxtails.Wire.HeaderBuffer
import Foxtails.Wire.Reparse
import Foxtails.Serve.Connection
import Foxtails.Serve.Deliver
import Foxtails.Serve.Fetch
import Foxtails.Serve.Confine
import Foxtails.Serve.Mount
import Foxtails.Serve.Head
import Foxtails.Serve.Framing
import Foxtails.Serve.Relay
import Foxtails.Serve.StatusLine
import Foxtails.Serve.Reparse
import Foxtails.Serve.Relayed
import Foxtails.Serve.Hops
import Foxtails.Serve.KeepAlive
import Foxtails.Serve.Forward
import Foxtails.Config.Line
import Foxtails.Config.Get
import Foxtails.Config.Value
import Foxtails.Config.Format
import Foxtails.Config.Lookup
import Foxtails.Config.Sections
import Foxtails.Config.Startup
import Foxtails.Config.Memory
import Foxtails.Config.Behind
import Foxtails.Config.Newline
import Foxtails.Routing.Parse
import Foxtails.Routing.Table
import Foxtails.Routing.Memory
import Foxtails.Routing.Newline
import Foxtails.Routing.Methods
import Foxtails.Routing.Written
import Foxtails.Pool.Queue
import Foxtails.Pool.Fifo
import Foxtails.Pool.Threads
import Foxtails.Pool.Wakeup
import Foxtails.Pool.Callback
import Foxtails.Pool.WorkerLoop
import Foxtails.Pool.Progress
import Foxtails.Pool.Refine
import Foxtails.Server.Table
import Foxtails.Server.Slots
import Foxtails.Server.FreeList
import Foxtails.Server.Step
import Foxtails.Server.Removal
import Foxtails.Server.InFlight
import Foxtails.Server.Oldest
import Foxtails.Server.GiveBack
import Foxtails.Server.Orphan
import Foxtails.Server.Shutdown
import Foxtails.Server.Account
import Foxtails.Server.Ring
import Foxtails.Server.Sessions
import Foxtails.Server.Rest
import Foxtails.Server.Timeout
import Foxtails.Server.Turns
