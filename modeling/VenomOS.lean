import VenomOS.Heap
import VenomOS.BlockTiling
import VenomOS.HeapBlocks
import VenomOS.HeapTiling
import VenomOS.HeapLive
import VenomOS.AtomicDisk
import VenomOS.FileSystem
import VenomOS.FileSystemLayout
import VenomOS.FileSystemAlloc
import VenomOS.FileSystemInvariant
import VenomOS.FileSystemSteps
import VenomOS.FileSystemDisk
import VenomOS.FileSystemRuns
import VenomOS.FileSystemMap
import VenomOS.RadixTable
import VenomOS.Pmm
import VenomOS.PmmInit
import VenomOS.Paging
import VenomOS.PagingEntries
import VenomOS.PagingTables
import VenomOS.PagingMap
import VenomOS.PagingCreate
import VenomOS.PagingForest
import VenomOS.PagingRuns
import VenomOS.SiblingForest
import VenomOS.Task
import VenomOS.TaskFamily
import VenomOS.TaskLife
import VenomOS.TaskExit
import VenomOS.TaskRuns
import VenomOS.TaskHistory
import VenomOS.TaskPids
import VenomOS.TaskTurns
import VenomOS.TaskReports
import VenomOS.FileSystemBoot
import VenomOS.Custody
import VenomOS.TaskCleanup
import VenomOS.TaskWakeups
import VenomOS.PagingDestroy
import VenomOS.HeapRuns
import VenomOS.FileSystemFailure
import VenomOS.PagingGrove
import VenomOS.UserCopy
import VenomOS.Syscall
import VenomOS.PagingLifetime
import VenomOS.PagingIsolation
import VenomOS.PagingImage
import VenomOS.Loader
import VenomOS.Keyboard
import VenomOS.TaskSleep
import VenomOS.InitialStack
import VenomOS.Fat32
import VenomOS.Fat32Mount
import VenomOS.Fat32Names
import VenomOS.Fat32Walk
import VenomOS.Fat32Disk
import VenomOS.Fat32Read
import VenomOS.Fat32List
import VenomOS.PagingWx
import VenomOS.ProcessRun
import VenomOS.Congruential
import VenomOS.Snake
import VenomOS.ProcessWindow
import VenomOS.Blocks
import VenomOS.Mkfat32
import VenomOS.Mkfat32Names
import VenomOS.Mkfat32Tree
import VenomOS.Mkfat32Build
import VenomOS.ByteFields
import VenomOS.Mkfat32Image
import VenomOS.Mkfat32Lookup
import VenomOS.Mkfat32ReadBack
import VenomOS.StackMachine
import VenomOS.Processor
import VenomOS.ContextSwitch
import VenomOS.InterruptEntry
import VenomOS.Interaction
import VenomOS.Ata
import VenomOS.KeyboardRing
