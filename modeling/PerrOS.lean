import PerrOS.Ticket.Lock
import PerrOS.Stride.Share
import PerrOS.Stride.Past
import PerrOS.Stride.Fork
import PerrOS.Stride.Minimum
import PerrOS.Stride.Pinfo
import PerrOS.Lfs.Resolve
import PerrOS.Threadlib.Stacks
import PerrOS.Mem.Integrity
import PerrOS.Mem.Ownership
import PerrOS.Mem.Validation
import PerrOS.Mem.Placement
import PerrOS.Mem.Geometry
import PerrOS.Mem.Zeroing
import PerrOS.Mem.Negative
import PerrOS.Cond.Wakeup
import PerrOS.Cond.Fifo
import PerrOS.Vm.Guard
import PerrOS.Vm.Replace
import PerrOS.Fsck.Termination
import PerrOS.Fsck.Bounds
import PerrOS.Fsck.Dangling
import PerrOS.Fsck.Removal
import PerrOS.Fsck.Restore
import PerrOS.Ptable.Reaping
import PerrOS.Ptable.Sizes
import PerrOS.Ptable.Join
import PerrOS.Ptable.Clone
import PerrOS.Ptable.Unkilled
import PerrOS.Ptable.Growproc
import PerrOS.Ptable.TicketSleep
import PerrOS.Shell.CommandLine
import PerrOS.Lfs.Cat
import PerrOS.Vm.Read
import PerrOS.Vm.StackGrowth
import PerrOS.Vm.Forking
import PerrOS.Lfs.Resolved
import PerrOS.Shell.Session
import PerrOS.Shell.Mytee
import PerrOS.Pipes.Returns
import PerrOS.Bcache.Coherence
import PerrOS.Bcache.Recycling
import PerrOS.Files.References
import PerrOS.Fs.Paths
import PerrOS.Grep.Matcher
import PerrOS.Console.Returns
import PerrOS.User.Wc
