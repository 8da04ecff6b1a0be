import Processx.Connection.Chars
import Processx.Connection.ReadLines
import Processx.Connection.ReadLine
import Processx.Connection.LineLimits
import Processx.Connection.LineBounds
import Processx.Connection.Characters
import Processx.Connection.Ready
import Processx.Connection.Poll
import Processx.Connection.Raw
import Processx.Base64
import Processx.Unix.Connections
import Processx.Unix.Mask
import Processx.Unix.Wait
import Processx.Unix.FailedStart
import Processx.Unix.WaitPipes
import Processx.Unix.Signals
import Processx.Unix.KillResult
import Processx.Unix.Targets
import Processx.Unix.Startup
import Processx.Win.CommandLine
import Processx.Win.Landing
import Processx.Win.EndOfFile
import Processx.Win.Waiting
import Processx.Win.Calls
import Processx.Win.Lifecycle
import Processx.Supervisor.Children
import Processx.RunManage
import Processx.Unix.WaitNumbers
import Processx.Base64.Memory
import Processx.Base64.Standard
import Processx.Timeouts
import Processx.Supervisor.Sweep
import Processx.Supervisor.WinInput
import Processx.Supervisor.Commands
import Processx.RunManage.Pushback
import Processx.RunManage.Input
import Processx.RunManage.Leftover
import Processx.Supervisor.Shutdown
import Processx.Supervisor.Supervised
import Processx.Unix.ChildLists
import Processx.Win.ReadBytes
import Processx.Win.Handlers
import Processx.Win.Environment
import Processx.Connection.PollCount
import Processx.Win.Select
import Processx.Unix.Constructors
import Processx.Pipeline
import Processx.RunManage.PollInterval
import Processx.FullPath
import Processx.Unix.StartTime
import Processx.WriteFd
import Processx.Vector
import Processx.Connection.NewlineSearch
import Processx.Connection.Mixed
import Processx.Win.CommandBuffer
import Processx.Win.ReadBack
import Processx.Win.ExitStatus
import Processx.Win.PollSessions
