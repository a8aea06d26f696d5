import UnixEnv.Lib.Runs
import UnixEnv.Lib.Logs
import UnixEnv.Lib.Recorded
import UnixEnv.Lib.Chain
import UnixEnv.Lib.Interest
import UnixEnv.Lib.SlotTable
import UnixEnv.Lib.Ring
import UnixEnv.Lib.Mutex
import UnixEnv.Lib.Threads
import UnixEnv.Lib.Progress
import UnixEnv.Lib.Stack
import UnixEnv.Lib.Delimiter
import UnixEnv.Lib.Countdown
import UnixEnv.Lib.Probing
import UnixEnv.Lib.CString
import UnixEnv.Timer.TimerList
import UnixEnv.Timer.ListSpec
import UnixEnv.Timer.ListRuns
import UnixEnv.Timer.ListCalls
import UnixEnv.Timer.Server
import UnixEnv.Timer.ServerTimeout
import UnixEnv.Timer.ServerBinding
import UnixEnv.Timer.Heartbeat
import UnixEnv.Wheel.TimerWheel
import UnixEnv.Wheel.WheelRuns
import UnixEnv.Wheel.WheelCalls
import UnixEnv.Wheel.Storage
import UnixEnv.Multiplex.Calls
import UnixEnv.Multiplex.ClientLoop
import UnixEnv.Multiplex.PollServer
import UnixEnv.Multiplex.PollRuns
import UnixEnv.Multiplex.PollReads
import UnixEnv.Multiplex.SelectServer
import UnixEnv.Multiplex.SelectRuns
import UnixEnv.Multiplex.SelectReads
import UnixEnv.Epoll.Reactor
import UnixEnv.Epoll.ReactorRuns
import UnixEnv.Epoll.ReactorCalls
import UnixEnv.Epoll.ReactorEcho
import UnixEnv.Epoll.ReactorLoss
import UnixEnv.Epoll.ReactorLeaks
import UnixEnv.Epoll.EdgeServer
import UnixEnv.Epoll.LevelServer
import UnixEnv.Epoll.LevelServerRuns
import UnixEnv.Epoll.UpperServer
import UnixEnv.Epoll.UpperServerRuns
import UnixEnv.Epoll.UpperServerAnswers
import UnixEnv.SocketBase.Server
import UnixEnv.SocketBase.SendRecv
import UnixEnv.SocketBase.SendRecvRuns
import UnixEnv.ThreadPool.Pool
import UnixEnv.ThreadPool.Moves
import UnixEnv.ThreadPool.Locking
import UnixEnv.ThreadPool.Counters
import UnixEnv.ThreadPool.Queue
import UnixEnv.ThreadPool.Stranded
import UnixEnv.ThreadPool.Ownership
import UnixEnv.ThreadPool.Execution
import UnixEnv.ThreadPool.LateAdd
import UnixEnv.ThreadPool.Table
import UnixEnv.ThreadPool.Wakeup
import UnixEnv.ThreadPool.Callers
import UnixEnv.ThreadPool.Rest
import UnixEnv.ThreadPool.Shutdown
import UnixEnv.ThreadPool.Creation
import UnixEnv.Mutex.Counter
import UnixEnv.Semaphore.ReaderWriter
import UnixEnv.Semaphore.ReaderWriterBounds
import UnixEnv.Semaphore.ReaderWriterProgress
import UnixEnv.Semaphore.ProducerConsumer
import UnixEnv.Semaphore.ProducerConsumerProgress
import UnixEnv.Semaphore.Slock
import UnixEnv.CondVar.ProducerConsumer
import UnixEnv.CondVar.Progress
import UnixEnv.CondVar.Stack
import UnixEnv.MyThreadPool.Pool
import UnixEnv.MyThreadPool.Queue
import UnixEnv.MyThreadPool.Workers
import UnixEnv.MyThreadPool.Creation
import UnixEnv.MyThreadPool.Growth
import UnixEnv.MyThreadPool.LockDiscipline
import UnixEnv.MyThreadPool.Standstill
import UnixEnv.MyThreadPool.Finish
import UnixEnv.Cgi.Connection
import UnixEnv.Cgi.ConnectionRuns
import UnixEnv.Cgi.Request
