import Ish.Asbestos.Crypto
import Ish.Kernel.Equiv.EventFd
import Ish.Memory.Equiv.FaultLock
import Ish.Fs.Equiv.Generic
import Ish.Fs.Equiv.Mount
import Ish.Fs.Equiv.Lock
import Ish.Asbestos.Equiv.FetchFault
import Ish.Kernel.Equiv.FutexWait
import Ish.Kernel.Equiv.WaitFor
import Ish.Fs.Equiv.Descriptor
import Ish.Fs.Equiv.FakeTree
import Ish.Fs.Equiv.FakeInode
import Ish.Fs.Equiv.BindMount
import Ish.Fs.Equiv.Open
import Ish.Kernel.Equiv.TimerFd
import Ish.Embed.Equiv.Protocol
import Ish.Embed.Equiv.Read
import Ish.Embed.Equiv.Session
import Ish.Embed.Equiv.Supervisor
import Ish.Fs.Equiv.AbstractSocket
import Ish.Kernel.Equiv.MessageQueue
import Ish.Kernel.Equiv.MessageOrder
import Ish.Kernel.Equiv.Semaphore
import Ish.Fs.Equiv.Dir
import Ish.Fs.Equiv.Pty
import Ish.Memory.Equiv.Brk
import Ish.Kernel.Equiv.UserCopy
import Ish.Memory.Equiv.Mremap
import Ish.Emu.Equiv.Pair
import Ish.Fs.Equiv.Fcntl
import Ish.Fs.Equiv.FdAccess
import Ish.Kernel.Equiv.Syscall
import Ish.Kernel.Equiv.Requeue
import Ish.Kernel.Equiv.Pid
import Ish.Kernel.Equiv.PosixTimer
import Ish.Fs.Equiv.PathFold
