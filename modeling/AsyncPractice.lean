import AsyncPractice.RedlockExclusion
import AsyncPractice.SagaOrchestrator
import AsyncPractice.VectorClockCausal
import AsyncPractice.SequenceNumberBufferOrder
import AsyncPractice.Lamport
import AsyncPractice.SingleflightLoads
import AsyncPractice.OptimisticConcurrencySerial
import AsyncPractice.CheckpointRecovery
import AsyncPractice.TwoPhaseCommit
import AsyncPractice.ExactlyOnceMessageBus
import AsyncPractice.PBFTConsensus
import AsyncPractice.ProofOfWorkMempool
import AsyncPractice.ProofOfWorkTampering
import AsyncPractice.RaftNode
import AsyncPractice.FencingLock
import AsyncPractice.CompensatingSaga
import AsyncPractice.DistributedTimeSeriesRouting
import AsyncPractice.WindowedTimeSeriesWindows
import AsyncPractice.ColumnarStorageConcurrent
import AsyncPractice.ColumnarStorageStats
import AsyncPractice.ColumnarStorageCompaction
import AsyncPractice.WideColumnStoreScan
import AsyncPractice.CompressedTimeSeries
import AsyncPractice.ContentAddressableRefCounts
import AsyncPractice.ObjectStorageUsage
import AsyncPractice.MessageBusDeadlock
import AsyncPractice.CircuitBreakerEventBus
import AsyncPractice.S3StorageMetrics
import AsyncPractice.S3StorageAssembly
import AsyncPractice.S3StorageListing
import AsyncPractice.PartitionedGraphTraversal
import AsyncPractice.HotKeyCache
import AsyncPractice.ConsistentCache
import AsyncPractice.LogRingBuffer
import AsyncPractice.BufferedLoggerShutdown
import AsyncPractice.WatermarkProcessor
import AsyncPractice.WindowManager
import AsyncPractice.OrderProjections
import AsyncPractice.EventSourcing
import AsyncPractice.SecureCounter
import AsyncPractice.TokenLimiter
import AsyncPractice.EventBusExampleBreaker
import AsyncPractice.CouchbaseCas
import AsyncPractice.BusExampleDeadLetters
import AsyncPractice.LoggingExample
import AsyncPractice.HBaseTable
import AsyncPractice.ErasureCoderDistance
import AsyncPractice.LockManager
import AsyncPractice.RaftVoting
import AsyncPractice.CycleDetection
import AsyncPractice.LockFreeGraphDFS
import AsyncPractice.LockFreeGraphBFSDeadlock
import AsyncPractice.TaskScheduler
import AsyncPractice.SagaExecutor
import AsyncPractice.BoundedEventBus
import AsyncPractice.SlidingWindowLimiter
import AsyncPractice.EventStoreSnapshots
import AsyncPractice.Example12CircuitBreaker
import AsyncPractice.DistributedColumnarTables
import AsyncPractice.FaultTolerantMessageBusOutcomes
import AsyncPractice.OptimisticConcurrencyUpdates
import AsyncPractice.ProgressTracker
