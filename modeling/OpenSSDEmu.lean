import OpenSSDEmu.Core.LTS
import OpenSSDEmu.Core.Fair
import OpenSSDEmu.Core.Lock
import OpenSSDEmu.Core.Links
import OpenSSDEmu.Core.Loops
import OpenSSDEmu.Core.Atomic
import OpenSSDEmu.Core.Bitmap
import OpenSSDEmu.Core.Memory
import OpenSSDEmu.Core.Bytes
import OpenSSDEmu.Core.Flow
import OpenSSDEmu.Core.Fifo
import OpenSSDEmu.Core.Stdio
import OpenSSDEmu.L1Encoding.FlashLog
import OpenSSDEmu.L1Encoding.LogScan
import OpenSSDEmu.L2Machine.Shmem
import OpenSSDEmu.L2Machine.TaskQueue
import OpenSSDEmu.L2Machine.Hcl
import OpenSSDEmu.L2Machine.HostDma
import OpenSSDEmu.L2Machine.Fcl
import OpenSSDEmu.L2Machine.Allocators
import OpenSSDEmu.L2Machine.SpinLock
import OpenSSDEmu.L2Machine.SqEntry
import OpenSSDEmu.L2Machine.TwoCores
import OpenSSDEmu.L2Machine.SpinProgress
import OpenSSDEmu.L2Machine.L2p
import OpenSSDEmu.L2Machine.List
import OpenSSDEmu.L2Machine.Pool
import OpenSSDEmu.L3Buffer.Buffer
import OpenSSDEmu.L3Buffer.Cache
import OpenSSDEmu.L3Buffer.FifoMap
import OpenSSDEmu.L3Buffer.Commands
import OpenSSDEmu.L4Pipeline.Handlers
import OpenSSDEmu.L4Pipeline.TaskQueues
import OpenSSDEmu.L4Pipeline.Request
import OpenSSDEmu.L4Pipeline.Jobs
import OpenSSDEmu.L4Pipeline.Order
import OpenSSDEmu.L4Pipeline.System
import OpenSSDEmu.L4Pipeline.Backend
import OpenSSDEmu.L4Pipeline.EmuIo
import OpenSSDEmu.L4Pipeline.Desk
import OpenSSDEmu.L4Pipeline.Slots
import OpenSSDEmu.L4Pipeline.Refine
import OpenSSDEmu.L4Pipeline.Calls
import OpenSSDEmu.L4Pipeline.Rounds
import OpenSSDEmu.L4Pipeline.Drain
import OpenSSDEmu.L4Pipeline.Acceptance
import OpenSSDEmu.L4Pipeline.Protocol
import OpenSSDEmu.L4Pipeline.Lines
import OpenSSDEmu.L4Pipeline.Storage
import OpenSSDEmu.L4Pipeline.Placement
import OpenSSDEmu.L4Pipeline.Fairness
import OpenSSDEmu.L4Pipeline.Liveness
import OpenSSDEmu.L4Pipeline.Waiting
import OpenSSDEmu.L4Pipeline.Mapped
import OpenSSDEmu.Bugs.LeakedCommand
import OpenSSDEmu.Bugs.OrphanedLock
import OpenSSDEmu.Bugs.PartialPage
import OpenSSDEmu.Bugs.ReusedSlot
import OpenSSDEmu.Bugs.SharedNode
import OpenSSDEmu.Bugs.StuckRelease
import OpenSSDEmu.Bugs.StolenBuffer
import OpenSSDEmu.Bugs.BackwardScan
import OpenSSDEmu.Bugs.BlankPage
import OpenSSDEmu.Bugs.EndlessScan
import OpenSSDEmu.Bugs.EraseInit
import OpenSSDEmu.Bugs.MalformedCommand
