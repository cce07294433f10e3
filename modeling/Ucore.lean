import Ucore.Lib.Dyadic
import Ucore.Lib.RedBlack
import Ucore.Mm.Page
import Ucore.Mm.Buddy
import Ucore.Mm.BuddyInv
import Ucore.Mm.BuddySpec
import Ucore.Mm.BuddyRun
import Ucore.Rb.RbTree
import Ucore.Rb.Rep
import Ucore.Rb.Insert
import Ucore.Rb.Delete
import Ucore.Rb.Walk
import Ucore.Rb.Contract
import Ucore.Mm.Layout
import Ucore.Mm.Vmm
import Ucore.Mm.VmmInv
import Ucore.Mm.VmmRun
import Ucore.Mm.Shmem
import Ucore.Mm.ShmemRun
import Ucore.Lib.Count
import Ucore.Mm.Swap
import Ucore.Mm.Pmm
import Ucore.Mm.SwapInv
import Ucore.Mm.SwapSpec
import Ucore.Mm.PmmInv
import Ucore.Mm.PmmSpec
import Ucore.Mm.PmmRange
import Ucore.Mm.SwapRun
import Ucore.Mm.SwapLoad
import Ucore.Mm.UserMem
import Ucore.Mm.CopyString
import Ucore.Mm.FindVma
import Ucore.Mm.PageMap
import Ucore.Mm.Wrap
import Ucore.Mm.UnmappedArea
import Ucore.Mm.Resolve
import Ucore.Mm.PteWrite
import Ucore.Proc.LoadIcode
import Ucore.Proc.LoadElf
import Ucore.Mm.Faults
import Ucore.Mm.FaultsRun
import Ucore.Vfs.File
import Ucore.Vfs.FileStep
import Ucore.Vfs.FileInv
import Ucore.Vfs.FileRun
import Ucore.Vfs.FileTable
import Ucore.Vfs.Files
import Ucore.Sync.Sem
import Ucore.Sched.Timer
import Ucore.Sync.Wait
import Ucore.Dev.Stdin
import Ucore.Sched.Mlfq
import Ucore.Sched.MlfqInv
import Ucore.Lib.Chain
import Ucore.Lib.Circular
import Ucore.Proc.Table
import Ucore.Proc.Pid
import Ucore.Proc.PidRun
import Ucore.Proc.TableInv
import Ucore.Proc.TableExit
import Ucore.Proc.TableWait
import Ucore.Proc.TableFork
import Ucore.Proc.TableRun
import Ucore.Proc.Tree
import Ucore.Proc.Waiting
import Ucore.Sync.Usem
import Ucore.Sync.Event
import Ucore.Sync.Mbox
import Ucore.Sync.MboxInv
import Ucore.Sync.MboxWake
import Ucore.Sync.Segments
import Ucore.Lib.Place
import Ucore.Sync.MboxMsg
import Ucore.Sync.MboxIds
import Ucore.Sync.MboxRestore
import Ucore.Sync.MboxTimer
import Ucore.Lib.Ring
import Ucore.Pipe.PipeState
import Ucore.Pipe.PipeInv
import Ucore.Pipe.PipeFifo
import Ucore.Pipe.PipeSlots
import Ucore.Pipe.PipeWake
import Ucore.Lib.Tokens
import Ucore.Pipe.PipeTable
import Ucore.Pipe.PipeTableInv
import Ucore.Pipe.PipeTableStep
import Ucore.Pipe.PipeTableRun
import Ucore.Sfs.Locks
import Ucore.Sfs.LockOrder
import Ucore.Sfs.Cache
import Ucore.Sfs.CacheInv
import Ucore.Lib.Bytes
import Ucore.Lib.Op
import Ucore.Lib.Track
import Ucore.Sfs.Disk
import Ucore.Sfs.Bmap
import Ucore.Sfs.Io
import Ucore.Sfs.BmapInv
import Ucore.Sfs.BmapSpec
import Ucore.Sfs.Extent
import Ucore.Sfs.IoSpec
import Ucore.Sfs.Dirent
import Ucore.Sfs.Fs
import Ucore.Sfs.Space
import Ucore.Sfs.FileIo
import Ucore.Sfs.DirentSpec
import Ucore.Sfs.Refine
import Ucore.Sfs.FsSpec
import Ucore.Sfs.Resize
import Ucore.Sfs.Reclaim
import Ucore.Sfs.Tree
import Ucore.Sfs.Act
import Ucore.Sfs.ActSound
import Ucore.Sfs.Path
import Ucore.Sfs.PathSpec
import Ucore.Sfs.ActSpec
import Ucore.Sfs.ActExec
import Ucore.Sfs.FileSpec
import Ucore.Sfs.SyncSpec
import Ucore.Sfs.Mount
import Ucore.Sfs.Call
import Ucore.Sfs.CallRun
import Ucore.Sfs.RunFacts
import Ucore.Sfs.Getdirentry
import Ucore.Vfs.Lookup
import Ucore.Vfs.PathOps
import Ucore.Vfs.PathRefs
import Ucore.Sfs.Namefile
import Ucore.Sfs.Getcwd
import Ucore.Dev.Disk0
import Ucore.Dev.SfsIo
import Ucore.Lib.SortedLoop
import Ucore.Lib.Blocks
import Ucore.User.Malloc
import Ucore.User.MallocInv
import Ucore.User.MallocStep
import Ucore.User.MallocRun
import Ucore.User.MallocRoom
import Ucore.User.MallocLap
import Ucore.Lib.Lease
import Ucore.Fork.Objects
import Ucore.Fork.CopySem
import Ucore.Fork.CopyFs
import Ucore.Fork.DoFork
import Ucore.Fork.LentPages
import Ucore.Fork.ReturnPages
import Ucore.Fork.CopyVmas
import Ucore.Fork.CopyMm
import Ucore.Fork.NoTrace
import Ucore.Lib.Words
import Ucore.Sfs.Bitmap
import Ucore.Mm.SwapAlloc
import Ucore.Libs.Strtol
import Ucore.Debug.Kdebug
import Ucore.Libs.PrintfmtInt
import Ucore.Mm.ShmTableRun
