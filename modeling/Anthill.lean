import Anthill.Aging
import Anthill.ArgStack
import Anthill.Buddy
import Anthill.Bytes
import Anthill.CString
import Anthill.Channel
import Anthill.ChildExit
import Anthill.ClientLib
import Anthill.Copying
import Anthill.CowAdequacy
import Anthill.CowFault
import Anthill.DataAbort
import Anthill.Descriptor
import Anthill.Digits
import Anthill.Dirent
import Anthill.Elf
import Anthill.ElfImage
import Anthill.ElfLoad
import Anthill.ExecArgs
import Anthill.Fcall
import Anthill.FcallBounds
import Anthill.FcallParse
import Anthill.FcallWire
import Anthill.Fifo
import Anthill.FileContract
import Anthill.FileSessions
import Anthill.FileTable
import Anthill.FindEmpty
import Anthill.FirstFit
import Anthill.FlushOrder
import Anthill.ForkFailure
import Anthill.ForkIsolation
import Anthill.Formatter
import Anthill.Heap
import Anthill.HeapBlocks
import Anthill.HeapFree
import Anthill.HeapMalloc
import Anthill.HeapRuns
import Anthill.HeapSearch
import Anthill.IoFormat
import Anthill.KernelAllocator
import Anthill.KernelFrees
import Anthill.KernelPages
import Anthill.KernelPool
import Anthill.KernelReclaim
import Anthill.KernelTree
import Anthill.LeafEntries
import Anthill.Linked
import Anthill.Lockstep
import Anthill.Machine
import Anthill.MallocReturns
import Anthill.MapFailure
import Anthill.MapInsert
import Anthill.MapPage
import Anthill.MapRange
import Anthill.Message
import Anthill.MessageWire
import Anthill.Mmap
import Anthill.MmapFailure
import Anthill.MmapPromise
import Anthill.MmuSetup
import Anthill.Mqueue
import Anthill.MqueueDelivery
import Anthill.MqueueFifo
import Anthill.MqueueLifetime
import Anthill.MqueueNames
import Anthill.MqueueRing
import Anthill.MqueueShort
import Anthill.MqueueWake
import Anthill.Msgbuf
import Anthill.MsgbufAttribution
import Anthill.MsgbufAwake
import Anthill.MsgbufClose
import Anthill.MsgbufCreate
import Anthill.MsgbufDisconnect
import Anthill.MsgbufEnds
import Anthill.MsgbufFifo
import Anthill.MsgbufForeign
import Anthill.MsgbufHistory
import Anthill.MsgbufNames
import Anthill.MsgbufQueue
import Anthill.MsgbufRegistry
import Anthill.MsgbufReply
import Anthill.MsgbufRuns
import Anthill.MsgbufSlots
import Anthill.MsgbufStale
import Anthill.MsgbufTasks
import Anthill.MsgbufTolerates
import Anthill.MsgbufUndo
import Anthill.MsgbufView
import Anthill.MsgbufWorld
import Anthill.Munmap
import Anthill.PageOwnership
import Anthill.Paged
import Anthill.PathSplit
import Anthill.Pmm
import Anthill.PmmRuns
import Anthill.PreemptCount
import Anthill.Pstrings
import Anthill.Radix
import Anthill.RdAnswers
import Anthill.RdArchive
import Anthill.RdFind
import Anthill.RdLookup
import Anthill.RdReadDir
import Anthill.RdReadFile
import Anthill.RdRuns
import Anthill.RdServer
import Anthill.RdSessions
import Anthill.RdStat
import Anthill.ReallocKeeps
import Anthill.RecursiveWindow
import Anthill.RecycledPages
import Anthill.Rendering
import Anthill.RingSessions
import Anthill.Rpc
import Anthill.Run
import Anthill.Scan
import Anthill.Schedule
import Anthill.ScheduleFair
import Anthill.Serial
import Anthill.SerialServer
import Anthill.Shell
import Anthill.Slots
import Anthill.SoftCopy
import Anthill.SoftCopyMarks
import Anthill.Spans
import Anthill.Stdio
import Anthill.StreamRead
import Anthill.StreamWrite
import Anthill.StringCopy
import Anthill.Strtok
import Anthill.Strtox
import Anthill.SysMsgbuf
import Anthill.Task
import Anthill.TaskBlock
import Anthill.TaskExec
import Anthill.TaskExit
import Anthill.TaskFamily
import Anthill.Teardown
import Anthill.TeardownFrees
import Anthill.UnmapList
import Anthill.UnmapPage
import Anthill.UserPages
import Anthill.Ustar
import Anthill.VfsAnswers
import Anthill.VfsClient
import Anthill.VfsContract
import Anthill.VfsEnvelope
import Anthill.VfsFirst
import Anthill.VfsInit
import Anthill.VfsListing
import Anthill.VfsMsg
import Anthill.VfsRuns
import Anthill.VfsServer
import Anthill.VfsSessions
import Anthill.Vnode
import Anthill.VnodeDir
import Anthill.VnodeExpand
import Anthill.VnodeFids
import Anthill.VnodeForward
import Anthill.VnodeGrowth
import Anthill.VnodeRemove
import Anthill.VnodeScan
import Anthill.VnodeStays
import Anthill.VnodeTrees
import Anthill.VnodeWalk
import Anthill.VnodeWrap
import Anthill.Vsnprintf
import Anthill.WriteProtection
