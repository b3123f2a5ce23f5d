import Heimdall.Lib.System
import Heimdall.Lib.Exchange
import Heimdall.RoundRobin.Cursor
import Heimdall.RoundRobin.Fairness
import Heimdall.RoundRobin.Memory
import Heimdall.RoundRobin.Rounds
import Heimdall.Scheduler.Update
import Heimdall.Http.ChunkSize
import Heimdall.Http.ChunkLock
import Heimdall.Http.ContentLength
import Heimdall.Http.Framing
import Heimdall.Http.SimpleRequest
import Heimdall.Http.HeaderStream
import Heimdall.Http.Message
import Heimdall.Worker.Close
import Heimdall.Worker.Limit
import Heimdall.Worker.Sleep
import Heimdall.Pool.Dispatch
import Heimdall.Pool.Overtake
import Heimdall.Pool.Requests
import Heimdall.Pool.Usage
import Heimdall.Queue.Race
import Heimdall.Scheduler.StatusPage
import Heimdall.Scheduler.Reset
import Heimdall.Scheduler.DeleteServer
import Heimdall.Config.ServerFile
import Heimdall.Config.ConfigFile
import Heimdall.Pool.Semaphore
import Heimdall.Pool.FdLock
import Heimdall.Pool.Descriptors
import Heimdall.Worker.Descriptors
import Heimdall.Worker.RequestWork
import Heimdall.Worker.Lifetime
import Heimdall.Scheduler.Probe
import Heimdall.Pool.Layout
import Heimdall.Pool.SocketPath
import Heimdall.Pool.Progress
import Heimdall.Scheduler.Start
import Heimdall.Worker.AccessLog
import Heimdall.Worker.Delivery
import Heimdall.Worker.Order
