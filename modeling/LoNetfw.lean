import LoNetfw.Basis.StepSystem
import LoNetfw.Basis.Bytes
import LoNetfw.Basis.Binary32
import LoNetfw.Util.ByteArray
import LoNetfw.Util.NodeChain
import LoNetfw.Util.ByteArrayInv
import LoNetfw.Util.Codec
import LoNetfw.Util.Typed
import LoNetfw.Util.Calls
import LoNetfw.Util.FlatBuffer
import LoNetfw.Basis.OrderedSet
import LoNetfw.Scheduler.Timer
import LoNetfw.Util.WireFormat
import LoNetfw.Scheduler.TimerInv
import LoNetfw.Scheduler.TimerClock
import LoNetfw.Scheduler.EventRun
import LoNetfw.Scheduler.EventSection
import LoNetfw.Scheduler.EventDelivery
import LoNetfw.Scheduler.FdTable
import LoNetfw.Fiber.Fiber
import LoNetfw.Fiber.Switch
import LoNetfw.Scheduler.Workers
import LoNetfw.Scheduler.FiberExclusion
import LoNetfw.Scheduler.TaskRun
import LoNetfw.Scheduler.TaskSurvival
import LoNetfw.Scheduler.NotifyChannel
import LoNetfw.Hook.FdManager
import LoNetfw.Hook.NonBlock
import LoNetfw.Hook.Io
import LoNetfw.Hook.IoTimeout
import LoNetfw.Hook.FdReuse
import LoNetfw.Scheduler.CallbackAccounting
import LoNetfw.Scheduler.IoWorkers
import LoNetfw.Scheduler.IoCounters
import LoNetfw.Scheduler.Shutdown
import LoNetfw.Scheduler.Notification
import LoNetfw.Basis.Recognizer
import LoNetfw.Net.UriTable
import LoNetfw.Net.Uri
import LoNetfw.Net.UriGrammar
import LoNetfw.Net.UriFuture
import LoNetfw.Net.UriLabels
import LoNetfw.Net.UriSafety
import LoNetfw.Net.UriRun
import LoNetfw.Net.UriComponents
import LoNetfw.Net.IpLiteral
import LoNetfw.Net.HostService
import LoNetfw.Net.UriText
import LoNetfw.Net.IpAddress
import LoNetfw.Util.Reach
import LoNetfw.Util.Positional
import LoNetfw.Util.Stream
import LoNetfw.Config.ConfigData
import LoNetfw.Config.SetDataRun
import LoNetfw.Config.Load
import LoNetfw.Config.GlobalConfig
import LoNetfw.Util.LexicalCast
import LoNetfw.Config.LogCast
import LoNetfw.Scheduler.Affinity
import LoNetfw.Server.TcpServer
import LoNetfw.Util.FileIo
import LoNetfw.Basis.Front
import LoNetfw.Util.Readers
import LoNetfw.Util.AtomicReads
import LoNetfw.Basis.BitCount
import LoNetfw.Basis.BitPattern
import LoNetfw.Util.LossyKinds
import LoNetfw.Scheduler.TimerExpiry
import LoNetfw.Scheduler.TimerDeadlines
import LoNetfw.Basis.PrefixMask
import LoNetfw.Net.Address
import LoNetfw.Basis.ByteOrder
import LoNetfw.Net.AddressOrder
import LoNetfw.Net.Interfaces
import LoNetfw.Net.Ipv4Text
import LoNetfw.Net.Ipv6Address
import LoNetfw.Scheduler.IdleTimeout
import LoNetfw.Hook.Sleep
import LoNetfw.Hook.FdVector
import LoNetfw.Hook.FdBounds
import LoNetfw.Hook.FdCreation
import LoNetfw.Hook.UserMode
import LoNetfw.Net.Socket
import LoNetfw.Net.Ipv6Text
import LoNetfw.Net.UriStates
import LoNetfw.Net.UriFields
import LoNetfw.Net.UriPrint
import LoNetfw.Basis.Multimap
import LoNetfw.Basis.Occurrence
import LoNetfw.Util.Split
import LoNetfw.Util.FormatPieces
import LoNetfw.Util.FormatParser
import LoNetfw.Config.StringConfig
import LoNetfw.Config.Registry
import LoNetfw.Basis.LockOrder
import LoNetfw.Log.LockDiscipline
import LoNetfw.Util.VarintCode
import LoNetfw.Scheduler.TimedWorkers
import LoNetfw.Scheduler.TimerWakeup
import LoNetfw.Scheduler.EpollInterest
import LoNetfw.Scheduler.QueueOrder
import LoNetfw.Scheduler.Start
import LoNetfw.Util.Transfer
import LoNetfw.Hook.IoWait
import LoNetfw.Hook.SleepRun
import LoNetfw.Hook.SocketTimeout
import LoNetfw.Server.Draining
import LoNetfw.Log.LogFormatter
import LoNetfw.Log.FileLogAppender
import LoNetfw.Log.Delivery
import LoNetfw.Log.LoggerViews
