import Xv6.Pipes.Wakeup
import Xv6.Pipes.Records
import Xv6.Console.Lines
import Xv6.Log.Admission
import Xv6.Bio.Demand
import Xv6.Bcache.Chain
import Xv6.Vm.Bytewise
import Xv6.Vm.Translation
import Xv6.Vm.Args
import Xv6.Sched.Kill
import Xv6.Itable.Protocol
import Xv6.Fs.Bitmap
import Xv6.Fs.FileBytes
import Xv6.Virtio.Requests
import Xv6.Umalloc.Sbrk
import Xv6.Sh.Command
import Xv6.Grep.Lines
import Xv6.Names.Resolve
import Xv6.Names.DirMap
import Xv6.Find.Descriptors
import Xv6.Clock.Sleep
import Xv6.Intr.Processors
import Xv6.Primes.Runs
import Xv6.Mem.Move
import Xv6.Printf.Numbers
import Xv6.Xargs.Command
