import Mcsos.Lib.Bytes
import Mcsos.Lib.Bitmap
import Mcsos.Lib.Loop
import Mcsos.Lib.BlockList
import Mcsos.Lib.Overlay
import Mcsos.Lib.Prog
import Mcsos.Lib.ProgSpec
import Mcsos.Lib.WriteLog
import Mcsos.Lib.CStr
import Mcsos.Lib.Threads
import Mcsos.Lib.Serial
import Mcsos.Lib.Word64
import Mcsos.Lib.X86
import Mcsos.Lib.LinkedQueue
import Mcsos.Lib.Moves
import Mcsos.Klib.Memory
import Mcsos.Mm.Pmm
import Mcsos.Mm.PmmMarking
import Mcsos.Mm.PmmInit
import Mcsos.Mm.PmmRuns
import Mcsos.Mm.PmmReserved
import Mcsos.Mm.PmmReserveRange
import Mcsos.Mm.Kmem
import Mcsos.Mm.KmemHeap
import Mcsos.Mm.KmemInv
import Mcsos.Mm.KmemRuns
import Mcsos.Mm.KmemRoom
import Mcsos.Mm.KmemCoalesced
import Mcsos.Mm.KmemFree
import Mcsos.Mm.KmemObjectRuns
import Mcsos.Mm.Vmm
import Mcsos.Mm.VmmEntry
import Mcsos.Mm.VmmTree
import Mcsos.Mm.VmmRuns
import Mcsos.Mm.VmmFrames
import Mcsos.Mm.VmmRights
import Mcsos.Mm.KernelMemory
import Mcsos.Mm.VmmLater
import Mcsos.Mm.KernelSpace
import Mcsos.Mm.KernelRuns
import Mcsos.Mm.KernelMap
import Mcsos.Block.Blk
import Mcsos.Block.Bcache
import Mcsos.Block.BcacheInv
import Mcsos.Block.BcacheRuns
import Mcsos.Block.BcacheFlush
import Mcsos.Block.BcacheArray
import Mcsos.Block.Ramblk
import Mcsos.Mcsfs1j.Journal
import Mcsos.Mcsfs1j.JournalCommit
import Mcsos.Mcsfs1j.JournalRecover
import Mcsos.Mcsfs1j.JournalRuns
import Mcsos.Mcsfs1j.JournalReplay
import Mcsos.Mcsfs1j.JournalRedirect
import Mcsos.Mcsfs1j.Fs
import Mcsos.Mcsfs1j.Image
import Mcsos.Mcsfs1j.ImageWrites
import Mcsos.Mcsfs1j.FsSpec
import Mcsos.Mcsfs1j.FsWrite
import Mcsos.Mcsfs1j.FsFormat
import Mcsos.Mcsfs1j.FsRuns
import Mcsos.Mcsfs1j.FsAccount
import Mcsos.Mcsfs1j.FsReadImage
import Mcsos.Mcsfs1j.FsSizes
import Mcsos.Mcsfs1j.JournalSeq
import Mcsos.Mcsfs1j.FsckRead
import Mcsos.Mcsfs1.Mcsfs1
import Mcsos.Mcsfs1.Device
import Mcsos.Mcsfs1.Layout
import Mcsos.Mcsfs1.Owner
import Mcsos.Mcsfs1.Steps
import Mcsos.Mcsfs1.Create
import Mcsos.Mcsfs1.Unlink
import Mcsos.Mcsfs1.Write
import Mcsos.Mcsfs1.Fsck
import Mcsos.Mcsfs1.Format
import Mcsos.Mcsfs1.Calls
import Mcsos.Mcsfs1.Accounts
import Mcsos.Mcsfs1.Lookup
import Mcsos.Mcsfs1.Names
import Mcsos.Mcsfs1.DeviceSteps
import Mcsos.Mcsfs1.Duplicates
import Mcsos.Mcsfs1.ReadImage
import Mcsos.Mcsfs1.FsckImage
import Mcsos.Mcsfs1.FsckKept
import Mcsos.Mcsfs1.Failed
import Mcsos.Mcsfs1.RoundTrip
import Mcsos.Mcsfs1.StoreRuns
import Mcsos.Sync.Lockdep
import Mcsos.Sync.HeldStack
import Mcsos.Sync.LockOrder
import Mcsos.Sync.Mutex
import Mcsos.Sync.Spinlock
import Mcsos.Sched.Thread
import Mcsos.Arch.Isr
import Mcsos.Arch.Trap
import Mcsos.Sched.ContextSwitch
import Mcsos.Sched.Resume
import Mcsos.Sched.ReadyQueue
import Mcsos.Sched.Validate
import Mcsos.Sched.Enqueue
import Mcsos.Sched.RoundRobin
import Mcsos.Sched.SchedRuns
import Mcsos.User.ElfLoader
import Mcsos.User.ElfPlan
import Mcsos.User.ElfWx
import Mcsos.User.ElfEntry
import Mcsos.User.ElfReset
import Mcsos.Syscall.Syscall
import Mcsos.Syscall.Int80
import Mcsos.Syscall.UserRange
import Mcsos.Syscall.Disclosure
import Mcsos.Vfs.Ramfs
import Mcsos.Vfs.Fd
import Mcsos.Vfs.FdCalls
import Mcsos.Vfs.RamfsRuns
import Mcsos.Vfs.FdDiscipline
import Mcsos.Vfs.RamfsRead
import Mcsos.Vfs.RamfsExtents
import Mcsos.Vfs.RamfsNames
import Mcsos.Vfs.RamfsPaths
import Mcsos.Vfs.FileStoreRuns
import Mcsos.Mcsfs1j.FsStoreRuns
