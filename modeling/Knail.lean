import Knail.AllocationChains
import Knail.AtaTransfers
import Knail.Bitmaps
import Knail.ByteWords
import Knail.ClonedSpaces
import Knail.CreatedNames
import Knail.CriticalSections
import Knail.DescriptorCopies
import Knail.DescriptorOwnership
import Knail.DescriptorReplacement
import Knail.Descriptors
import Knail.DirectoryTree
import Knail.DirectoryWalks
import Knail.ElfBounds
import Knail.ElfImages
import Knail.ElfLoading
import Knail.EndlessDirectories
import Knail.ExitStatus
import Knail.FailedCreation
import Knail.Fat32
import Knail.FatChains
import Knail.FatDirectories
import Knail.FatFiles
import Knail.FatReads
import Knail.FatTables
import Knail.FaultyDevices
import Knail.FileAccess
import Knail.FollowedLinks
import Knail.FrameAllocator
import Knail.FreeFrames
import Knail.HandedClusters
import Knail.HeapBlocks
import Knail.HeapFailures
import Knail.HeapIntegrity
import Knail.HeapLock
import Knail.HeapMerging
import Knail.HeapPages
import Knail.HeapRealloc
import Knail.HeapRequests
import Knail.Hierarchies
import Knail.IdentityAccess
import Knail.IrqStubs
import Knail.KernelEntry
import Knail.KernelHeap
import Knail.KernelIsolation
import Knail.KernelTypes
import Knail.Keyboard
import Knail.LineEditing
import Knail.LinkedPaths
import Knail.LowPages
import Knail.MemoryMap
import Knail.MountGeometry
import Knail.Mutex
import Knail.MutexWaiters
import Knail.NamespaceShape
import Knail.NamespaceTree
import Knail.NewEntries
import Knail.OpenCalls
import Knail.OrphanedClusters
import Knail.PageLeaves
import Knail.PageMaps
import Knail.PageTableForest
import Knail.PageTableTranslation
import Knail.PageTables
import Knail.PageUnmapping
import Knail.PathBuffers
import Knail.PathWalks
import Knail.PciScan
import Knail.PciTree
import Knail.PipeLifetime
import Knail.Pipes
import Knail.PreemptionCount
import Knail.ProcessFork
import Knail.ProcessSpawn
import Knail.RadixTables
import Knail.RamBuffers
import Knail.RamFiles
import Knail.ReferenceCounts
import Knail.Rings
import Knail.RoundRobin
import Knail.Scancodes
import Knail.Scheduler
import Knail.SchedulerFrames
import Knail.SchedulerRing
import Knail.SchedulerShape
import Knail.ShellLine
import Knail.ShortNames
import Knail.SlotTables
import Knail.SpaceCopies
import Knail.SpaceLedger
import Knail.SpaceRelease
import Knail.SpawnConfinement
import Knail.SpawnLedger
import Knail.SpawnMemory
import Knail.SpawnSuccess
import Knail.StackArguments
import Knail.StackCode
import Knail.StackResidue
import Knail.SwapgsParity
import Knail.SyscallReturn
import Knail.Terminals
import Knail.TidyVolumes
import Knail.Tilings
import Knail.Traces
import Knail.Transitions
import Knail.TreeChanges
import Knail.TtyInput
import Knail.TypedLines
import Knail.UnlinkedFiles
import Knail.UpperHalf
import Knail.UserAccess
import Knail.UserPages
import Knail.UserStacks
import Knail.VfsFiles
import Knail.VfsNodes
import Knail.Vga
import Knail.VgaCells
import Knail.VgaTerminal
import Knail.VolumeIntegrity
import Knail.VolumeTree
import Knail.WordBits
import Knail.WorkingDirectory
