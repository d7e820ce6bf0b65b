import UCore.Mm.Page
import UCore.Lib.Transition
import UCore.Lib.Extent
import UCore.Mm.PmmManager
import UCore.Mm.FreeList
import UCore.Mm.FitSystem
import UCore.Mm.FirstFit
import UCore.Mm.BestFit
import UCore.Lib.Dyadic
import UCore.Mm.Buddy
import UCore.Mm.BuddyLists
import UCore.Mm.BuddySystem
import UCore.Mm.BuddySafety
import UCore.Mm.BuddyCoalescing
import UCore.Libs.SkewHeap
import UCore.Schedule.Sched
import UCore.Schedule.Stride
import UCore.Schedule.StrideDispatch
import UCore.Schedule.StrideOrder
import UCore.Schedule.StrideFairness
import UCore.Schedule.RoundRobin
import UCore.Sync.Sem
import UCore.Sync.SemSystem
import UCore.Sync.SemSafety
import UCore.Lib.Bytes
import UCore.Lib.Program
import UCore.Fs.Sfs
import UCore.Fs.SfsInode
import UCore.Fs.SfsIo
import UCore.Fs.SfsSpace
import UCore.Fs.SfsSlots
import UCore.Fs.SfsBmap
import UCore.Fs.SfsFreemap
import UCore.Fs.SfsContent
import UCore.Lib.Tally
import UCore.Sync.Monitor
import UCore.Sync.MonitorSafety
import UCore.Sync.HoareMonitor
import UCore.Fs.InodeRef
import UCore.Fs.InodeLifetime
import UCore.Fs.InodeSafety
import UCore.Lib.Chain
import UCore.Libs.Hash
import UCore.Lib.DeltaList
import UCore.Schedule.Timer
import UCore.Schedule.TimerRuns
import UCore.Process.Pid
import UCore.Process.Proc
import UCore.Process.RunQueue
import UCore.Process.FamilyTree
import UCore.Process.Kinship
import UCore.Process.ProcInvariant
import UCore.Process.ProcSafety
import UCore.Lib.Radix
import UCore.Mm.PageTable
import UCore.Mm.PageTableWalk
import UCore.Mm.PageRef
import UCore.Process.ProcRuns
import UCore.Fs.SfsResize
import UCore.Fs.SfsSizes
import UCore.Fs.SfsSync
import UCore.Fs.SfsFlags
import UCore.Fs.SfsByteFile
import UCore.Fs.SfsDurable
import UCore.Vfs.Inode
import UCore.Vfs.Lookup
import UCore.Vfs.File
import UCore.Lib.Outcome
import UCore.Fs.SfsIdentity
import UCore.Vfs.Counts
import UCore.Vfs.PathCounts
import UCore.Vfs.Holders
import UCore.Vfs.FileCounts
import UCore.Vfs.Structures
import UCore.Vfs.Boot
import UCore.Vfs.OpenFiles
import UCore.Fs.SfsLimits
import UCore.Mm.FirstFitCoalescing
import UCore.Fs.SfsZeroFill
import UCore.Mm.UserMem
import UCore.Vfs.UserIo
import UCore.Fs.SfsTransfer
import UCore.Vfs.IoAccounting
import UCore.Vfs.Append
import UCore.Driver.Keyboard
import UCore.Driver.KeyboardQueues
import UCore.Lib.Walk
import UCore.Mm.Slob
import UCore.Mm.SlobHeap
import UCore.Mm.KmallocSafety
import UCore.Mm.KmallocRuns
import UCore.Process.InitMain
import UCore.Schedule.ShortestJob
import UCore.Libs.SkewHeapLinks
import UCore.Libs.SkewHeapRuns
import UCore.Mm.Vma
import UCore.Mm.VmaRuns
import UCore.Mm.UserMemCheck
import UCore.Mm.CopyString
import UCore.Process.ExecArgs
import UCore.Driver.Dtb
import UCore.Driver.DeviceTree
import UCore.Sync.Philosophers
import UCore.Sync.PhilosophersSema
import UCore.Sync.PhilosophersCondvar
import UCore.Sync.PhilosophersSafety
import UCore.Tools.Mksfs
import UCore.Tools.MksfsFreemap
import UCore.Tools.MksfsLayout
import UCore.Tools.MksfsAppend
import UCore.Tools.MksfsTree
import UCore.Tools.MksfsImage
import UCore.Libs.Printfmt
import UCore.Libs.PrintfmtText
import UCore.Libs.Vsnprintf
import UCore.Libs.Strtol
import UCore.User.Gettoken
import UCore.Mm.PageInit
import UCore.Mm.KernelTable
import UCore.Mm.PhysicalSetup
import UCore.Mm.PageCounts
import UCore.Mm.CopyRange
import UCore.Mm.PageRuns
import UCore.Mm.DupMmap
import UCore.Mm.ExitRange
import UCore.Mm.ExitMmap
import UCore.Mm.AddressSpaces
import UCore.Mm.AddressSpaceRuns
import UCore.Mm.AddressSpaceSafety
import UCore.Process.LoadIcode
import UCore.Process.IcodeRead
import UCore.Process.LoadSegment
import UCore.Process.LoadImage
import UCore.Process.ApprovedMapped
