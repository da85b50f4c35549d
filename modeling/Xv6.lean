import Xv6.Bio.Coherence
import Xv6.Bio.Lru
import Xv6.Console
import Xv6.Fs.Directory
import Xv6.Fs.Fault
import Xv6.Fs.Namex
import Xv6.Ftable.Calls
import Xv6.Log.Atomic
import Xv6.Log.Capacity
import Xv6.Log.Group
import Xv6.Mmr.Copy
import Xv6.Mmr.Family
import Xv6.Mmr.Listid
import Xv6.Mmr.RoundTrip
import Xv6.Pipe.Wakeup
import Xv6.Proc.Pid
import Xv6.Proc.Sbrk
import Xv6.Proc.Wait2
import Xv6.Sched.Deadlock
import Xv6.Sched.Kill
import Xv6.Sched.Timer
import Xv6.Tree.Wait
import Xv6.User.Grep
import Xv6.User.Lib
import Xv6.User.Printf
import Xv6.Virtio.Protocol
import Xv6.Vm.Ledger
import Xv6.Vm.Words
