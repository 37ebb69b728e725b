import RebornOS.ByteStore
import RebornOS.LabeledRun
import RebornOS.WordBits
import RebornOS.Heap
import RebornOS.HeapBlocks
import RebornOS.HeapRefinement
import RebornOS.HeapCallSequences
import RebornOS.HeapNesting
import RebornOS.FiniteCount
import RebornOS.Pmm
import RebornOS.PmmInit
import RebornOS.PmmRuns
import RebornOS.RadixForest
import RebornOS.PageWalk
import RebornOS.Vmm
import RebornOS.Fallible
import RebornOS.VmmTables
import RebornOS.VmmSpaces
import RebornOS.VmmSteps
import RebornOS.VmmMapPage
import RebornOS.VmmCreate
import RebornOS.VmmRuns
import RebornOS.VmmCheckRange
import RebornOS.ElfLoader
import RebornOS.UserMemory
import RebornOS.UserIsolation
import RebornOS.PagedSpace
import RebornOS.UserView
import RebornOS.SystemRuns
import RebornOS.ArgvRoundTrip
import RebornOS.UserHeap
import RebornOS.SbrkFailure
import RebornOS.LowMemory
import RebornOS.Scheduler
import RebornOS.SchedulerInvariant
import RebornOS.SchedulerRuns
import RebornOS.SchedulerStacks
import RebornOS.SchedulerStackRuns
import RebornOS.SchedulerContexts
import RebornOS.SchedulerBypass
import RebornOS.StackMachine
import RebornOS.ContextSwitch
import RebornOS.Process
import RebornOS.ProcessSteps
import RebornOS.ProcessCensus
import RebornOS.ProcessExit
import RebornOS.ProcessFrames
import RebornOS.ProcessDelivery
import RebornOS.HandOff
import RebornOS.Smp
import RebornOS.SmpMailbox
import RebornOS.SmpIdentity
import RebornOS.SmpBounds
import RebornOS.TableChain
import RebornOS.Fat16
import RebornOS.Fat16Names
import RebornOS.Fat16Layout
import RebornOS.Fat16Clusters
import RebornOS.Fat16Directory
import RebornOS.Fat16Write
import RebornOS.Fat16Tree
import RebornOS.Fat16RoundTrip
import RebornOS.Fat16Frame
import RebornOS.Fat16WellFormed
import RebornOS.Fat16Paths
import RebornOS.Fat16Preservation
import RebornOS.Fat16Mirror
import RebornOS.Fat16Crash
import RebornOS.Fat16CrashIsolation
import RebornOS.Fat16Overwrite
import RebornOS.BootMemory
import RebornOS.ElfSegments
import RebornOS.ElfFaithful
import RebornOS.Traced
import RebornOS.ElfReads
import RebornOS.UserRegions
import RebornOS.ListBlocks
import RebornOS.Fat16Listing
import RebornOS.Fat16RootUpdate
import RebornOS.Fat16Resolution
import RebornOS.Fat16DirectoryLoss
import RebornOS.Vfs
import RebornOS.Fat16Access
import RebornOS.Fat16Freeing
import RebornOS.Fat16Allocation
import RebornOS.Fat16Termination
import RebornOS.Fat16Bounds
import RebornOS.StackGrowth
import RebornOS.UserStrings
import RebornOS.Acpi
import RebornOS.RingQueue
import RebornOS.E1000
import RebornOS.Mouse
import RebornOS.ConsoleLock
import RebornOS.Fat16ShortNames
import RebornOS.Keyboard
import RebornOS.Shell
import RebornOS.AcpiMadt
import RebornOS.OnesComplement
import RebornOS.Net
import RebornOS.VfsStore
import RebornOS.InterruptFrames
