import Dbos.Kernel.Interrupts.Isr
import Dbos.Kernel.Process.Containers
import Dbos.Kernel.Process.KernelProcess
import Dbos.Kernel.Process.Death
import Dbos.Kernel.Process.Waiting
import Dbos.Kernel.Process.RoundRobin
import Dbos.Kernel.Process.TreeIntegrity
import Dbos.Kernel.Process.Nodes
import Dbos.Kernel.Vfs.MountMemory
import Dbos.Kernel.Vfs.Filesystems
import Dbos.Drivers.Tarfs.HeapUse
import Dbos.Drivers.Gtty.LineInput
import Dbos.Kernel.Memory.HeapSafety
import Dbos.Kernel.Memory.FrameAllocation
import Dbos.Kernel.Process.KernelSafety
import Dbos.Kernel.Process.Arguments
import Dbos.Kernel.Process.CloneUndone
import Dbos.Kernel.Memory.PageMap
import Dbos.Kernel.Process.Find
import Dbos.Kernel.Process.ElfLoops
import Dbos.Kernel.Util.Strdup
import Dbos.Libraries.UserHeap
import Dbos.Kernel.Process.Sbrk
import Dbos.Drivers.Tarfs.Read
import Dbos.Drivers.Devices.Transfers
import Dbos.Kernel.Process.Listing
import Dbos.Kernel.Util.QueueMemory
import Dbos.Kernel.Util.LinkedListCalls
import Dbos.Kernel.Process.Sleeping
import Dbos.Kernel.Process.CloneNames
import Dbos.Kernel.Process.BadBinary
import Dbos.Kernel.Process.UserBuffers
import Dbos.Kernel.Process.OldData
import Dbos.Drivers.Gtty.InputBounds
import Dbos.Drivers.Gtty.TextCursor
import Dbos.Kernel.Util.NumberText
import Dbos.Libraries.Snprintf
import Dbos.Libraries.Sscanf
import Dbos.Libraries.Strncmp
import Dbos.Libraries.Memmove
import Dbos.Kernel.Util.Strstr
import Dbos.Kernel.Mboot.CommandLines
import Dbos.Libraries.Libbmp
import Dbos.Drivers.Devices.Pci
import Dbos.Drivers.Devices.Keyboard
import Dbos.Userland.Calc.Buffers
import Dbos.Userland.Shell
import Dbos.Kernel.Util.Path
import Dbos.Drivers.Tarfs.SizeField
import Dbos.Kernel.Memory.BootData
