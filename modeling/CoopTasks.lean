import CoopTasks.Advance
import CoopTasks.Alone
import CoopTasks.Append
import CoopTasks.Chain
import CoopTasks.Contention
import CoopTasks.Endless
import CoopTasks.Future
import CoopTasks.Linearize
import CoopTasks.ListAccount
import CoopTasks.ListAlone
import CoopTasks.ListAloneEnds
import CoopTasks.ListAloneSteps
import CoopTasks.ListCalls
import CoopTasks.ListChain
import CoopTasks.ListClean
import CoopTasks.ListCopy
import CoopTasks.ListCreate
import CoopTasks.ListDelete
import CoopTasks.ListDump
import CoopTasks.ListHistory
import CoopTasks.ListKeys
import CoopTasks.ListLinear
import CoopTasks.ListLink
import CoopTasks.ListLinkInv
import CoopTasks.ListLinkSafe
import CoopTasks.ListLinkSteps
import CoopTasks.ListMachine
import CoopTasks.ListMap
import CoopTasks.ListMoments
import CoopTasks.ListPool
import CoopTasks.ListPoolRun
import CoopTasks.ListProgress
import CoopTasks.ListReaders
import CoopTasks.ListRefines
import CoopTasks.ListRemoval
import CoopTasks.ListReuse
import CoopTasks.ListSees
import CoopTasks.ListSentinels
import CoopTasks.ListSequential
import CoopTasks.ListShadow
import CoopTasks.ListShadowSteps
import CoopTasks.ListTable
import CoopTasks.ListTurns
import CoopTasks.ListUnlinked
import CoopTasks.ListValues
import CoopTasks.LockFreeList
import CoopTasks.Machine
import CoopTasks.Placement
import CoopTasks.Pool
import CoopTasks.PoolAlone
import CoopTasks.PoolContains
import CoopTasks.PoolCount
import CoopTasks.PoolCreate
import CoopTasks.PoolFifo
import CoopTasks.PoolInv
import CoopTasks.PoolLayout
import CoopTasks.PoolLinear
import CoopTasks.PoolOwnership
import CoopTasks.PoolProgress
import CoopTasks.Progress
import CoopTasks.Queue
import CoopTasks.QueueAlone
import CoopTasks.QueueCreate
import CoopTasks.QueueFifo
import CoopTasks.QueueHistory
import CoopTasks.QueueInv
import CoopTasks.QueueLinear
import CoopTasks.QueueLossless
import CoopTasks.QueueProgress
import CoopTasks.ReadersWriters
import CoopTasks.SizeT
import CoopTasks.Sizes
import CoopTasks.ThreadNames
import CoopTasks.ThreadPool
import CoopTasks.ThreadPoolClosed
import CoopTasks.ThreadPoolClosing
import CoopTasks.ThreadPoolCreate
import CoopTasks.ThreadPoolDestroy
import CoopTasks.ThreadPoolDrain
import CoopTasks.ThreadPoolGone
import CoopTasks.ThreadPoolInv
import CoopTasks.ThreadPoolJobs
import CoopTasks.ThreadPoolQueues
import CoopTasks.Threads
import CoopTasks.ThreadsBalance
import CoopTasks.ThreadsFail
import CoopTasks.ThreadsInv
import CoopTasks.ThreadsRegistry
import CoopTasks.ThreadsResume
import CoopTasks.ThreadsStart
import CoopTasks.ThreadsSuspend
