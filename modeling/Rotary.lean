import Rotary.Lib.Tiling
import Rotary.Lib.Division
import Rotary.Lib.Reading
import Rotary.Lib.NodeList
import Rotary.Lib.LinearList
import Rotary.Lib.ByteMem
import Rotary.Lib.Numeral
import Rotary.Core.Machine
import Rotary.Core.List
import Rotary.Core.NodeLists
import Rotary.Core.Lists
import Rotary.Core.LinearList
import Rotary.Core.String
import Rotary.Core.Strings
import Rotary.Core.Sprintf
import Rotary.Core.SprintfText
import Rotary.Core.SprintfReads
import Rotary.Core.SprintfDecimal
import Rotary.Core.Decimal
import Rotary.Core.FormatSize
import Rotary.Core.Logging
import Rotary.Core.Shell
import Rotary.Mm.PallocSpec
import Rotary.Mm.PallocInv
import Rotary.Mm.PallocRun
import Rotary.Mm.PageCalls
import Rotary.Mm.BootmemInv
import Rotary.Mm.MarkFree
import Rotary.Mm.Critical
import Rotary.Mm.BootAlloc
import Rotary.Mm.RegionTable
import Rotary.Arch.Multiboot
import Rotary.Arch.Uint64
import Rotary.Arch.Ptable
import Rotary.Arch.Paging
import Rotary.Sched.Task
import Rotary.Sched.TaskInv
import Rotary.Mm.Slab
import Rotary.Mm.SlabInv
import Rotary.Mm.SlabSpec
import Rotary.Mm.SlabRun
import Rotary.Mm.SlabOwner
import Rotary.Mm.Kmalloc
import Rotary.Mm.HeapFrame
import Rotary.Mm.ClearFreed
import Rotary.Drivers.Tty
import Rotary.Drivers.TtyRun
import Rotary.Mm.Ptable
import Rotary.Mm.Vm
import Rotary.Sched.Select
import Rotary.Sched.Lifecycle
import Rotary.Sched.RoundRobin
import Rotary.Mm.FreeRace
import Rotary.Sched.Preempt
import Rotary.Sched.PreemptInv
import Rotary.Sched.InterruptedLink
import Rotary.Lib.X86
import Rotary.Arch.ContextSwitch
import Rotary.Lib.Ledger
import Rotary.Mm.KernelMemory
import Rotary.Sched.Resources
import Rotary.Mm.CopyRange
import Rotary.Mm.Spaces
import Rotary.Mm.UnmapFree
import Rotary.Mm.CopyLoops
import Rotary.Mm.CopyShare
import Rotary.Mm.CopyPages
import Rotary.Mm.DemandPaging
import Rotary.Sched.CreateFails
import Rotary.Sched.Purge
import Rotary.Fs.FsType
import Rotary.Lib.Typewriter
import Rotary.Arch.Vga
import Rotary.Arch.VgaText
import Rotary.Drivers.Keyboard
import Rotary.Core.ShellScreen
import Rotary.Lib.X86Tables
import Rotary.Lib.X86Interrupt
import Rotary.Arch.Descriptors
import Rotary.Arch.Isr
import Rotary.Arch.Syscall
import Rotary.Arch.UserTasks
import Rotary.Lib.SpinLock
import Rotary.Lib.OpenTraversal
import Rotary.Fs.FsTypeLock
import Rotary.Mm.UserAccess
import Rotary.Lib.Uart
import Rotary.Drivers.Serial
import Rotary.Lib.Pic8259
import Rotary.Arch.Interrupts
