import CypheraKernel.Core.AccountedRuns
import CypheraKernel.Core.PidNamespace
import CypheraKernel.Core.WaitQueue
import CypheraKernel.Fs.Identity
import CypheraKernel.Fs.Inotify
import CypheraKernel.Ipc.EventFd
import CypheraKernel.Ipc.FutexWake
import CypheraKernel.Ipc.PiExclusion
import CypheraKernel.Ipc.Timers
import CypheraKernel.Mm.Poke
import CypheraKernel.Net.Epoll
import CypheraKernel.Net.Unix
import CypheraKernel.Sched.Replenish
import CypheraKernel.Security.CredRuns
import CypheraKernel.Security.IdMapInverse
import CypheraKernel.Signal.Inject
import CypheraKernel.Signal.Terminal
import CypheraKernel.Syscall.MapThreads
import CypheraKernel.Syscall.RemapData
import CypheraKernel.Syscall.UserHalf
import CypheraKernel.Trap.Dispatch
import CypheraKernel.Trap.UserString
import CypheraKernel.Vfs.Append
import CypheraKernel.Vfs.LinkWork
import CypheraKernel.Vfs.LockWaiters
import CypheraKernel.Vfs.MountFlags
import CypheraKernel.Vfs.OneMeaning
import CypheraKernel.Vfs.OpenFile
import CypheraKernel.Vfs.Pipe
import CypheraKernel.Wait.Reports
