import SimpleOs.Lib.CInt
import SimpleOs.Lib.Run
import SimpleOs.Lib.Ledger
import SimpleOs.Lib.Loop
import SimpleOs.Lib.Cover
import SimpleOs.Lib.View
import SimpleOs.Lib.LinkedList
import SimpleOs.Mm.System
import SimpleOs.Mm.MapRange
import SimpleOs.Mm.AreaList
import SimpleOs.Mm.DeviceModes
import SimpleOs.Mm.PageList
import SimpleOs.Mm.Regions
import SimpleOs.Mm.HeapExtent
import SimpleOs.Mm.AllocReport
import SimpleOs.Mm.FreedAccess
import SimpleOs.Mm.AllocArith
import SimpleOs.Mm.ReplacementQueue
import SimpleOs.Mm.FrameLedger
import SimpleOs.Mm.Formatting
import SimpleOs.Mm.Release
import SimpleOs.Mm.OldContents
import SimpleOs.Mm.FrameAliasing
import SimpleOs.Mm.FrameConservation
import SimpleOs.Mm.Cells
import SimpleOs.Mm.ReadYourWrites
import SimpleOs.Mm.Isolation
import SimpleOs.Mm.PageFault
import SimpleOs.Mm.Exhaustion
import SimpleOs.Mm.PteCodec
import SimpleOs.Mm.FrameCopy
import SimpleOs.Sched.QueueArray
import SimpleOs.Sched.Places
import SimpleOs.Sched.Quota
import SimpleOs.Sched.RoundRobin
import SimpleOs.Sched.RunningList
import SimpleOs.Timer.LockStep
import SimpleOs.Timer.Wakeup
import SimpleOs.Os.ExactlyOnce
import SimpleOs.Os.Stopping
import SimpleOs.Os.Idle
import SimpleOs.Os.TimeSlice
import SimpleOs.Syscall.KillallExact
import SimpleOs.Syscall.RegionOperand
import SimpleOs.Syscall.HeapGrowth
import SimpleOs.Syscall.NameExtraction
import SimpleOs.Cpu.Loader
import SimpleOs.Cpu.Program
import SimpleOs.Cpu.Run
import SimpleOs.Cpu.ReadDelivery
import SimpleOs.Cpu.LoadedArgs
import SimpleOs.Syscall.NameMatch
import SimpleOs.Syscall.MemmapHonest
import SimpleOs.Lib.Refinement
import SimpleOs.Syscall.KillallFrame
import SimpleOs.Os.Origin
import SimpleOs.Os.Slots
import SimpleOs.Os.Completion
import SimpleOs.Timer.Rank
import SimpleOs.Sim.System
import SimpleOs.Sim.Coupling
import SimpleOs.Sim.Progress
import SimpleOs.Sim.Refinement
import SimpleOs.Sim.Memory
import SimpleOs.Sim.Reads
import SimpleOs.Sim.Safety
import SimpleOs.Sim.StartTime
import SimpleOs.Sim.Completion
import SimpleOs.Lib.Words
import SimpleOs.Os.Config
import SimpleOs.Sim.Boot
import SimpleOs.Lib.StableQueue
import SimpleOs.Sched.ReadyQueue
import SimpleOs.Os.Waiting
import SimpleOs.Sim.Waiting
import SimpleOs.Lib.Interleaving
import SimpleOs.Mm.Resident
import SimpleOs.Sim.Alone
