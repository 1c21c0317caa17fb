import UvaOs.Fs.Runs
import UvaOs.Fs.Mkfs
import UvaOs.Vm.Copy
import UvaOs.Vm.Growproc
import UvaOs.Files.Refs
import UvaOs.Sched.Sleeplock
import UvaOs.Sched.Credits
import UvaOs.Sys.Halts
import UvaOs.Vm.Fault
import UvaOs.Proc.Fork
import UvaOs.Procfs.Usercontent
import UvaOs.Ipc.Fifo
import UvaOs.Ipc.Loss
import UvaOs.Ipc.Incarnation
import UvaOs.Ipc.Alarm
import UvaOs.Ipc.Killed
import UvaOs.Io.Limits
import UvaOs.Io.Write
import UvaOs.Mkfs.Agree
import UvaOs.Vm.Pages
import UvaOs.Vm.Record
import UvaOs.Vm.Buffer
import UvaOs.Vm.Collide
import UvaOs.Bio.Transparent
import UvaOs.Bio.Extent
import UvaOs.Bio.Lru
import UvaOs.Fs.Dirlink
import UvaOs.Io.Shared
import UvaOs.Alloc.Blocks
import UvaOs.Fs.Enospc
import UvaOs.Fs.Torn
import UvaOs.Vm.Atomic
import UvaOs.Vm.Refine
import UvaOs.Ipc.Uptime
import UvaOs.Ipc.Deadline
import UvaOs.Ipc.Ids
import UvaOs.Usr.Blocks
import UvaOs.Usr.Accept
import UvaOs.Usr.Initrc
import UvaOs.Gfx.Safe
import UvaOs.Gfx.Kept
import UvaOs.Fat.Modes
import UvaOs.Fat.Offset
import UvaOs.Gfx.Rows
import UvaOs.Snd.Queue
