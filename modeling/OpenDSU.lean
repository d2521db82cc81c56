import OpenDSU.Lib.Machine
import OpenDSU.Lib.Shell
import OpenDSU.Lib.Walk
import OpenDSU.Lib.Compact
import OpenDSU.Lib.Loop
import OpenDSU.Lib.CompactLoop
import OpenDSU.Lib.SemTable
import OpenDSU.Lib.Rename
import OpenDSU.Lib.Places
import OpenDSU.Lib.Linked
import OpenDSU.Lib.Keyed
import OpenDSU.State
import OpenDSU.Status
import OpenDSU.Port
import OpenDSU.Requests
import OpenDSU.Semaphore
import OpenDSU.Kernel
import OpenDSU.Core
import OpenDSU.Select
import OpenDSU.Poll
import OpenDSU.Epoll
import OpenDSU.Process
import OpenDSU.Wait
import OpenDSU.Workers
import OpenDSU.Serve
import OpenDSU.Registry
import OpenDSU.Ledger
import OpenDSU.Io
import OpenDSU.Exchange
import OpenDSU.Message
import OpenDSU.Dup
import OpenDSU.Flags
import OpenDSU.Accept
import OpenDSU.Decision
import OpenDSU.PollBuffer
import OpenDSU.Net
import OpenDSU.Loops
import OpenDSU.Launcher
import OpenDSU.Memory
import OpenDSU.MemoryProcess
import OpenDSU.Theorems.KernelStep
import OpenDSU.Theorems.Effects
import OpenDSU.Theorems.Calls
import OpenDSU.Theorems.Names
import OpenDSU.Theorems.Termination
import OpenDSU.Theorems.DescriptorLock
import OpenDSU.Theorems.PollArray
import OpenDSU.Theorems.PollFilter
import OpenDSU.Theorems.PollBounds
import OpenDSU.Theorems.SelectBounds
import OpenDSU.Theorems.PollRevents
import OpenDSU.Theorems.PollServe
import OpenDSU.Theorems.EpollFilter
import OpenDSU.Theorems.EpollData
import OpenDSU.Theorems.EventFilter
import OpenDSU.Theorems.Numbers
import OpenDSU.Theorems.Visits
import OpenDSU.Theorems.HandlersAgree
import OpenDSU.Theorems.ExactLists
import OpenDSU.Theorems.Tracking
import OpenDSU.Theorems.Orphans
import OpenDSU.Theorems.Renaming
import OpenDSU.Theorems.DupContract
import OpenDSU.Theorems.Handover
import OpenDSU.Theorems.Untouched
import OpenDSU.Theorems.Cached
import OpenDSU.Theorems.AcceptRace
import OpenDSU.Theorems.BindAtomic
import OpenDSU.Theorems.SelectTransparent
import OpenDSU.Theorems.SelectFailed
import OpenDSU.Theorems.PortStep
import OpenDSU.Theorems.NetStep
import OpenDSU.Theorems.Semaphores
import OpenDSU.Theorems.Transfer
import OpenDSU.Theorems.Listener
import OpenDSU.Theorems.Generation
import OpenDSU.Theorems.WaitStep
import OpenDSU.Theorems.Exclusive
import OpenDSU.Theorems.Reports
import OpenDSU.Theorems.WorkerCount
import OpenDSU.Theorems.InFull
import OpenDSU.Theorems.Interest
import OpenDSU.Theorems.EpollTransparent
import OpenDSU.Theorems.EpollRefused
import OpenDSU.Theorems.SelectDecides
import OpenDSU.Theorems.SameDecision
import OpenDSU.Theorems.EpollInstances
import OpenDSU.Theorems.Besides
import OpenDSU.Theorems.Turns
import OpenDSU.Theorems.RegistryRefines
import OpenDSU.Theorems.RegistryCalls
import OpenDSU.Theorems.PollCount
import OpenDSU.Theorems.PollReports
import OpenDSU.Theorems.PollPlaces
import OpenDSU.Theorems.EpollCount
import OpenDSU.Theorems.RealTimeout
import OpenDSU.Theorems.Identity
import OpenDSU.Theorems.MessageFormat
import OpenDSU.Theorems.Command
import OpenDSU.Theorems.CommandLine
import OpenDSU.Theorems.MemoryLayout
import OpenDSU.Theorems.MemoryPasses
import OpenDSU.Theorems.MemoryCallbacks
import OpenDSU.Theorems.MemoryRefines
import OpenDSU.Theorems.MemoryRuns
import OpenDSU.Theorems.Settles
import OpenDSU.Theorems.RequestStep
import OpenDSU.Theorems.RequestSafety
import OpenDSU.Theorems.RequestRefines
import OpenDSU.Theorems.Stranded
import OpenDSU.Theorems.Entering
import OpenDSU.Theorems.Retiring
import OpenDSU.Theorems.Updated
import OpenDSU.Theorems.LostLock
import OpenDSU.Theorems.Meant
import OpenDSU.Theorems.ServeRefines
import OpenDSU.Theorems.BindRefines
