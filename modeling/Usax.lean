import Usax.Common.Clock
import Usax.Common.Cmdline
import Usax.Common.FormatReads
import Usax.Kmalloc.Bounds
import Usax.Kmalloc.Roundtrip
import Usax.Kmalloc.Accelerator
import Usax.Kmalloc.Calls
import Usax.Mm.SystemMmap
import Usax.Fs.Slashes
import Usax.Fs.AbsPath
import Usax.Fs.RamfsAtomic
import Usax.Fs.RamfsContent
import Usax.Fs.IovLen
import Usax.Proc.Sessions
import Usax.Proc.SessionSignals
import Usax.Proc.NewPid
import Usax.Ringbuf.Deque
import Usax.Proc.PendingSignals
import Usax.Sync.Pollfd
import Usax.Sync.Timers
import Usax.Fat.NameBuf
import Usax.Fat.Compact
import Usax.Fat.Seek
import Usax.Tty.InputRuns
import Usax.Tty.ReadRuns
import Usax.Console.Term
import Usax.Console.Filter
import Usax.Bintree.Ptr
import Usax.Exec.Script
import Usax.Exec.PushArgs
import Usax.Tracing.TracedSyscalls
import Usax.Fs.EntryNames
import Usax.Proc.Kthread
import Usax.Bintree.Fibonacci
