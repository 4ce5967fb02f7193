import DecomposeRedis.RoseTree
import DecomposeRedis.Runs
import DecomposeRedis.RaxNode
import DecomposeRedis.RaxWalk
import DecomposeRedis.RaxRemove
import DecomposeRedis.RaxInsert
import DecomposeRedis.RaxEdit
import DecomposeRedis.RaxInsertSpec
import DecomposeRedis.RaxMerge
import DecomposeRedis.RaxRemoveSpec
import DecomposeRedis.RaxRefine
import DecomposeRedis.RaxFree
import DecomposeRedis.RaxCanonical
import DecomposeRedis.RaxCompact
import DecomposeRedis.RaxOom
import DecomposeRedis.Transducer
import DecomposeRedis.Sds
import DecomposeRedis.SdsArgs
import DecomposeRedis.QueryBuffer
import DecomposeRedis.RequestStream
import DecomposeRedis.QueryRefine
import DecomposeRedis.QueryReads
import DecomposeRedis.QueryCodec
import DecomposeRedis.QueryThreads
import DecomposeRedis.Jobs
import DecomposeRedis.QueryBatch
import DecomposeRedis.QueryReplicate
import DecomposeRedis.ClientPause
import DecomposeRedis.NodeList
import DecomposeRedis.ClientRegistry
import DecomposeRedis.Holes
import DecomposeRedis.ReplyBuffer
import DecomposeRedis.ReplyAccounting
import DecomposeRedis.ReplyText
import DecomposeRedis.ReplyOrder
import DecomposeRedis.OutputLimit
import DecomposeRedis.Resp
import DecomposeRedis.ReplyValues
import DecomposeRedis.ClientCommands
import DecomposeRedis.FlagQueue
import DecomposeRedis.ClientQueues
import DecomposeRedis.QueueActs
import DecomposeRedis.QueueWrites
import DecomposeRedis.QueueLoop
import DecomposeRedis.QueueSteps
import DecomposeRedis.CloseAfterReply
import DecomposeRedis.EventTable
import DecomposeRedis.EventTableSpec
import DecomposeRedis.Evport
import DecomposeRedis.Dispatch
import DecomposeRedis.LinkedList
import DecomposeRedis.TimeEvents
import DecomposeRedis.TimeEventsSpec
import DecomposeRedis.TimerSleep
import DecomposeRedis.ListMemory
import DecomposeRedis.ListMemorySpec
import DecomposeRedis.SdsHeader
import DecomposeRedis.SdsHeaderSpec
import DecomposeRedis.ClusterCreate
import DecomposeRedis.ClusterCreateSpec
import DecomposeRedis.Dialogue
import DecomposeRedis.ClusterManager
import DecomposeRedis.ClusterCheckSpec
import DecomposeRedis.SlotMigration
import DecomposeRedis.Reshard
import DecomposeRedis.ReshardSpec
import DecomposeRedis.RebalanceSpec
import DecomposeRedis.HelloState
import DecomposeRedis.AsyncFree
import DecomposeRedis.ClientKill
import DecomposeRedis.RaxKeys
import DecomposeRedis.RaxScans
import DecomposeRedis.RdbTransfer
import DecomposeRedis.RdbTransferSpec
import DecomposeRedis.ConfigMemory
import DecomposeRedis.SdsEdges
import DecomposeRedis.SdsPrint
import DecomposeRedis.SdsSplit
import DecomposeRedis.DeleteNode
import DecomposeRedis.Zmalloc
