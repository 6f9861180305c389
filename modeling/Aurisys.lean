import Aurisys.Heap.Room
import Aurisys.Heap.Stats
import Aurisys.Heap.Realloc
import Aurisys.Heap.Setup
import Aurisys.Kernel.Groups
import Aurisys.Kernel.NoTrace
import Aurisys.Kernel.GivesBack
import Aurisys.Kernel.Replace
import Aurisys.Kernel.PipeWait
import Aurisys.Kernel.Supervisor
import Aurisys.Kernel.Line
import Aurisys.Kernel.UserMode
import Aurisys.Kernel.Kill
import Aurisys.Kernel.Sleep
import Aurisys.Kernel.Args
import Aurisys.Fs.Dirs
import Aurisys.Fs.Normal
import Aurisys.Fs.Node
import Aurisys.Fs.Failed
import Aurisys.Fs.Alloc
import Aurisys.Fs.Splice
import Aurisys.Fs.Chdir
import Aurisys.Fs.Mount
import Aurisys.Fs.Bounds
import Aurisys.Fs.Formed
import Aurisys.Kernel.Elf
import Aurisys.Kernel.Seek
import Aurisys.Kernel.Status
import Aurisys.Kernel.ProcFs
import Aurisys.Kernel.Stranded
import Aurisys.User.Order
import Aurisys.Vfs.Open
import Aurisys.User.Break
import Aurisys.Sh.Edit
import Aurisys.Sh.Glob
import Aurisys.Kernel.Notes
import Aurisys.Sh.Quote
import Aurisys.Sh.Line
import Aurisys.Sh.Background
import Aurisys.Sh.Reap
import Aurisys.Fs.Remove
import Aurisys.Vfs.Append
import Aurisys.Kernel.Keyboard
import Aurisys.Sh.Keys
import Aurisys.Sh.Env
import Aurisys.Sh.Complete
import Aurisys.Sh.Session
import Aurisys.Sh.Launches
import Aurisys.Lib.Descriptors
import Aurisys.Apps.Ps
import Aurisys.Kernel.Print
import Aurisys.Kernel.DoneList
import Aurisys.User.Vec
import Aurisys.Kernel.Erase
import Aurisys.Kernel.Echo
import Aurisys.Kernel.Independent
import Aurisys.Kernel.Turns
import Aurisys.Apps.PsRow
import Aurisys.Fs.Calls
import Aurisys.User.Environ
import Aurisys.Kernel.Image
import Aurisys.Kernel.Window
