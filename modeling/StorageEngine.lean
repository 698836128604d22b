import StorageEngine.BitMask
import StorageEngine.SlotStore
import StorageEngine.Directory
import StorageEngine.FiniteMap
import StorageEngine.DashTable.Bucket
import StorageEngine.DashTable.StashRefs
import StorageEngine.DashTable.Segment
import StorageEngine.DashTable.SegmentSteps
import StorageEngine.DashTable.SegmentInvariant
import StorageEngine.DashTable.SegmentOps
import StorageEngine.DashTable.SegmentSplit
import StorageEngine.DashTable.SegmentRuns
import StorageEngine.DashTable.SplitRoom
import StorageEngine.DashTable.Table
import StorageEngine.DashTable.TableInvariant
import StorageEngine.DashTable.TableGrowth
import StorageEngine.DashTable.TableInsert
import StorageEngine.DashTable.TableErase
import StorageEngine.DashTable.TableRuns
import StorageEngine.DashTable.TableMap
import StorageEngine.DashTable.Traverse
import StorageEngine.DashTable.Scan
import StorageEngine.Net.TcpBuffer
import StorageEngine.Redis.RespBuf
import StorageEngine.Network.ReadLoop
import StorageEngine.StepMachine
import StorageEngine.Network.WriteLoop
import StorageEngine.Redis.ReplyBuilder
import StorageEngine.Command.CommandRegistry
import StorageEngine.Network.Session
import StorageEngine.KeyedQueues
import StorageEngine.Sharding.EngineShardSet
import StorageEngine.Sharding.DbSlice
import StorageEngine.Command.Transaction
import StorageEngine.Command.StringFamily
import StorageEngine.Command.GenericFamily
import StorageEngine.Sharding.ShardQueues
import StorageEngine.WhileLoop
import StorageEngine.Command.CmdArgParser
import StorageEngine.Command.Invoke
import StorageEngine.Net.TaskQueue
import StorageEngine.Net.TcpQueue
import StorageEngine.DashTable.CompactObj
import StorageEngine.Redis.RespArray
import StorageEngine.DashTable.SegmentMap
import StorageEngine.DashTable.TableTermination
import StorageEngine.Redis.RespNumbers
import StorageEngine.Network.ReadRoom
import StorageEngine.Redis.ReplyDecoder
import StorageEngine.Command.Expiry
import StorageEngine.DashTable.CompactKey
import StorageEngine.Sharding.IteratorT
import StorageEngine.Sharding.ExpireIfNeeded
import StorageEngine.DashTable.InsertRoom
import StorageEngine.Sharding.AddOrFind
import StorageEngine.DashTable.BucketSwap
import StorageEngine.Net.TcpMutators
import StorageEngine.Command.CmdArgCursor
import StorageEngine.Net.ThreadEvent
import StorageEngine.Net.EventCount
import StorageEngine.Net.UringProactor
import StorageEngine.DashTable.Iteration
import StorageEngine.DashTable.TraverseErase
import StorageEngine.Sharding.ExpireAll
import StorageEngine.Report
import StorageEngine.DashTable.SegmentIds
import StorageEngine.DashTable.SplitReports
import StorageEngine.DashTable.MoveNotices
import StorageEngine.DashTable.Alike
import StorageEngine.DashTable.Parametric
import StorageEngine.DashTable.ValueWrite
import StorageEngine.Command.PrimeStore
import StorageEngine.Network.Dictionary
import StorageEngine.Net.BoundedQueue
import StorageEngine.Net.UringLoop
import StorageEngine.LinkedChain
import StorageEngine.FifoLock
import StorageEngine.Net.AsyncMutex
import StorageEngine.DashTable.SegmentMemory
import StorageEngine.Sharding.RunBlocking
import StorageEngine.FifoQueue
import StorageEngine.Net.IntrusiveQueue
import StorageEngine.Ring
import StorageEngine.Net.ProducerConsumerQueue
import StorageEngine.Net.AsyncScope
import StorageEngine.Net.SpinLoops
