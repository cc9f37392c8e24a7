import Pintos.Lib.Bytes
import Pintos.Lib.Forest
import Pintos.Lib.Slots
import Pintos.Lib.Rooted
import Pintos.Lib.Ordered
import Pintos.Lib.Program
import Pintos.Lib.NaturalSort
import Pintos.Lib.Tally
import Pintos.FileSys.Device
import Pintos.FileSys.Inode
import Pintos.FileSys.BlockTree
import Pintos.FileSys.Transfer
import Pintos.FileSys.Release
import Pintos.FileSys.OpenInodes
import Pintos.FileSys.InodeCalls
import Pintos.FileSys.CallFrames
import Pintos.FileSys.ByteFile
import Pintos.FileSys.Directory
import Pintos.FileSys.DirMap
import Pintos.FileSys.DirUpdate
import Pintos.FileSys.DirCalls
import Pintos.FileSys.Format
import Pintos.FileSys.Openers
import Pintos.FileSys.Ownership
import Pintos.FileSys.Remount
import Pintos.FileSys.DirRuns
import Pintos.FileSys.Path
import Pintos.FileSys.NextPart
import Pintos.FileSys.Create
import Pintos.FileSys.NameTree
import Pintos.FileSys.SysCalls
import Pintos.FileSys.FileCalls
import Pintos.FileSys.BadDescriptors
import Pintos.FileSys.CallTrees
import Pintos.FileSys.WorkingDirs
import Pintos.FileSys.OpenCounts
import Pintos.FileSys.Span
import Pintos.FileSys.Extents
import Pintos.FileSys.DenyWrites
import Pintos.FileSys.OpenRace
import Pintos.Threads.Kernel
import Pintos.Threads.Machine
import Pintos.Threads.Semaphores
import Pintos.Threads.Donate
import Pintos.Threads.Queue
import Pintos.Threads.Strict
import Pintos.Threads.Locking
import Pintos.Threads.Plans
import Pintos.Threads.Locks
import Pintos.Threads.Exact
import Pintos.Threads.Handover
import Pintos.Threads.Exclusive
import Pintos.Threads.BasePriority
import Pintos.Threads.Propagation
import Pintos.Threads.Alarm
import Pintos.Threads.Conditions
import Pintos.UserProg.FileLock
import Pintos.UserProg.Files
import Pintos.UserProg.PageTransfer
import Pintos.UserProg.Strtok
import Pintos.UserProg.SetupStack
import Pintos.UserProg.ExecName
import Pintos.UserProg.LoadSegment
import Pintos.UserProg.Children
import Pintos.UserProg.ChildPage
import Pintos.UserProg.Statuses
import Pintos.Vm.Machine
import Pintos.Vm.Steps
import Pintos.Vm.Hands
import Pintos.Vm.Links
import Pintos.Vm.SwapSlots
import Pintos.Vm.Contents
import Pintos.Vm.Filling
import Pintos.Vm.FreshPages
import Pintos.Vm.LostWrites
import Pintos.Vm.DemandLoading
import Pintos.Vm.Eviction
import Pintos.Vm.Swap
import Pintos.Vm.RoundTrip
import Pintos.Vm.SysCalls
import Pintos.Vm.Paired
import Pintos.Vm.LockBalance
import Pintos.Vm.PageForAddr
import Pintos.Vm.UserMemory
import Pintos.Vm.ConsoleWrite
import Pintos.Lib.HeapSort
import Pintos.Support.Sort
import Pintos.Lib.Bits
import Pintos.Lib.Chains
import Pintos.Support.Hash
import Pintos.Vm.PageTable
import Pintos.Paging.Entry
import Pintos.Paging.PageDir
import Pintos.Paging.Spaces
import Pintos.Paging.Refinement
import Pintos.Paging.Runs
import Pintos.Support.Bitmap
import Pintos.Memory.Pool
import Pintos.Memory.PoolRuns
import Pintos.Memory.Malloc
import Pintos.Memory.Arenas
import Pintos.Memory.Blocks
import Pintos.Memory.MallocCalls
import Pintos.Memory.MallocRuns
import Pintos.Support.Arithmetic
import Pintos.Lib.Linked
import Pintos.Support.List
import Pintos.Support.Sequences
import Pintos.Support.ListCalls
import Pintos.Lib.RunCounts
import Pintos.Support.ListSort
import Pintos.Support.ListRuns
import Pintos.Devices.IntQueue
import Pintos.Devices.Serial
