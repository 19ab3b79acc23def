import Ossim.Library.Steps
import Ossim.Sched.Queue
import Ossim.Sched.Basic
import Ossim.Library.Cover
import Ossim.Library.Sum
import Ossim.Library.Translation
import Ossim.Mm.Access
import Ossim.Mm.Frames
import Ossim.Mm.PagedHeap
import Ossim.Mm.Regions
import Ossim.Os.Basic
import Ossim.Os.Completion
import Ossim.Sched.SlotPolicy
import Ossim.Timer.Basic
import Ossim.Timer.LockStep
import Ossim.Mm.DemandPaging
import Ossim.Mm.Isolation
import Ossim.Mm.Coalescing
import Ossim.Mm.Leaks
import Ossim.Mm.PageFault
import Ossim.Mm.Protection
import Ossim.Mm.Shortage
import Ossim.Os.Idle
import Ossim.Sched.Bypass
import Ossim.Syscall.Killall
import Ossim.Cpu.Read
import Ossim.Library.Fifo
import Ossim.Mm.Release
import Ossim.Os.Quantum
import Ossim.Os.RunningList
import Ossim.Sched.Fifo
import Ossim.Sched.WorkConserving
import Ossim.Cpu.RegionTable
import Ossim.Mm.AddressSpace
import Ossim.Mm.AnySize
import Ossim.Mm.FrameNumbers
import Ossim.Library.Nodes
import Ossim.Mm.Devices
import Ossim.Mm.FreeFrames
import Ossim.Mm.GrownPages
import Ossim.Mm.InitMm
import Ossim.Mm.Lookup
import Ossim.Syscall.ProcName
import Ossim.Library.Interleaving
import Ossim.Library.Scan
import Ossim.Mm.Alone
import Ossim.Mm.Arrays
import Ossim.Os.Deadline
import Ossim.Kernel.Basic
import Ossim.Kernel.Memory
import Ossim.Timer.Threads
import Ossim.Timer.Progress
import Ossim.Timer.Termination
import Ossim.Loader.Load
import Ossim.Loader.Config
