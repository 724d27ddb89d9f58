import Pintos.Vm.Paging
import Pintos.Vm.Shown
import Pintos.Vm.StackGrowth
import Pintos.Vm.Protection
import Pintos.Vm.Victim
import Pintos.Vm.Race
import Pintos.Userprog.Abnormal
import Pintos.Userprog.Exec
import Pintos.Syscall.Lock
import Pintos.Syscall.Descriptors
import Pintos.Filesys.DirRuns
import Pintos.Threads.RunQueue
import Pintos.Threads.Children
import Pintos.Threads.MonitorRuns
import Pintos.Devices.IntqRuns
import Pintos.Process.MapFails
import Pintos.Process.WriteProtect
import Pintos.Process.OpenCounts
import Pintos.Process.Segment
import Pintos.Process.Exit
import Pintos.Kernel.Arithmetic
import Pintos.Kernel.ListCalls
import Pintos.Threads.Realloc
import Pintos.Kernel.String
import Pintos.Kernel.Stdlib
import Pintos.Kernel.Console
import Pintos.Devices.Timer
import Pintos.Devices.Serial
