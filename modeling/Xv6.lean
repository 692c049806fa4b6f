import Xv6.Log.Reservation
import Xv6.Log.Crash
import Xv6.Fs.Quota
import Xv6.Fs.Chunks
import Xv6.Sys.Links
import Xv6.Sys.Paths
import Xv6.Ide.Refine
import Xv6.Icache.Coherence
import Xv6.Dir.Linear
import Xv6.Proc.Calls
import Xv6.Proc.Reaping
import Xv6.Sched.Signal
import Xv6.Pipes.Wakeups
import Xv6.Console.Frames
import Xv6.Console.Split
import Xv6.Kernel.Counts
import Xv6.Sched.Clock
import Xv6.Sched.Sleeplock
import Xv6.User.Getprocs
import Xv6.User.Heap
import Xv6.User.History
import Xv6.Shell.Log
import Xv6.Shell.Terminate
import Xv6.Console.Completion
import Xv6.Mkfs.Agree
import Xv6.User.Memmove
import Xv6.Cpu.Mp
import Xv6.Vm.System
import Xv6.Bio.Ring
