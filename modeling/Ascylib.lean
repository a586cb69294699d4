import Ascylib.ArrayMapOptik
import Ascylib.Xorshf96
import Ascylib.Concur.Tickets
import Ascylib.OptikTicket
import Ascylib.RandLevel
import Ascylib.HarrisContract
import Ascylib.HarrisSolo
import Ascylib.HerlihyLFSolo
import Ascylib.HerlihyLBLocks
import Ascylib.LinkedListCoupling
import Ascylib.LinkedListLazy
import Ascylib.LinkedListOptik
import Ascylib.SkiplistOptikLevels
import Ascylib.LinkedListOptikGL
import Ascylib.LinkedListPugh
import Ascylib.PughPointers
import Ascylib.PughStrong
import Ascylib.ListLocks
import Ascylib.ListReclaim
import Ascylib.OptikLock
import Ascylib.QueueMSLF
import Ascylib.LockInit
import Ascylib.LockLeak
import Ascylib.StackTreiber
import Ascylib.HerlihyLFReclaim
import Ascylib.HerlihyLFLinks
import Ascylib.SkiplistFraser
import Ascylib.FraserReclaim
import Ascylib.FraserSolo
import Ascylib.ChmRehashAlone
import Ascylib.ChmRelease
import Ascylib.LlArray
import Ascylib.LinkedListCopy
import Ascylib.LlBlocks
import Ascylib.Hashtable
import Ascylib.ArrayMapTable
import Ascylib.SkiplistSeq
import Ascylib.OptikTicketQueue
import Ascylib.TicketLock
import Ascylib.McsLock
import Ascylib.HashtableLinearizable
import Ascylib.OptikSeparate
import Ascylib.Barrier
import Ascylib.HashtableJavaSeq
import Ascylib.StackLockLinearizable
import Ascylib.StackQueueLockFree
import Ascylib.HarrisLockFree
import Ascylib.QueueReclaim
import Ascylib.FraserLockFree
import Ascylib.ArrayMapLinearizable
