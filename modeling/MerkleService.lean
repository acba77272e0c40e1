import MerkleService.LTS.Basic
import MerkleService.LTS.Mealy
import MerkleService.LTS.Linearizable
import MerkleService.Data.List
import MerkleService.Data.Lines
import MerkleService.Data.Hex
import MerkleService.Data.FilePath
import MerkleService.Data.MerkleTree
import MerkleService.Data.RingMap
import MerkleService.Data.ExpiringTable
import MerkleService.Data.Recency
import MerkleService.Data.LogMap
import MerkleService.Data.Handover
import MerkleService.Data.JsObject
import MerkleService.Data.Json
import MerkleService.Data.JsonPrint
import MerkleService.Data.JsonStruct
import MerkleService.Data.Rfc3339
import MerkleService.Kafka.Consumer
import MerkleService.Kafka.Startup
import MerkleService.Kafka.Messages
import MerkleService.Kafka.Codec
import MerkleService.P2P.Relay
import MerkleService.Store.SeenCounter
import MerkleService.Store.SqlSeenCounter
import MerkleService.Store.SqlExpiry
import MerkleService.Store.Sweeping
import MerkleService.Store.Closing
import MerkleService.Store.Blob
import MerkleService.Store.BlobHeights
import MerkleService.Store.Accumulator
import MerkleService.Store.Backends
import MerkleService.Store.StumpRef
import MerkleService.Store.FileSteps
import MerkleService.Store.BlobLinearizable
import MerkleService.Store.ConcurrentBlob
import MerkleService.Store.SingleFlight
import MerkleService.Store.Migrate
import MerkleService.Store.FileBlob
import MerkleService.Stump.Builder
import MerkleService.Stump.Proof
import MerkleService.Stump.Dashboard
import MerkleService.Stump.Codec
import MerkleService.Stump.Merge
import MerkleService.Datahub.Client
import MerkleService.Datahub.Fetch
import MerkleService.Cache.Bucket
import MerkleService.Cache.Chunks
import MerkleService.Cache.Refinement
import MerkleService.Cache.BoundedMap
import MerkleService.Cache.Preallocated
import MerkleService.Cache.Trimming
import MerkleService.Cache.RegistrationCache
import MerkleService.Cache.OnDemand
import MerkleService.Cache.ChunkAccounting
import MerkleService.Cache.SameAnswers
import MerkleService.Cache.Cleaning
import MerkleService.Cache.Sizes
import MerkleService.Cache.Appending
import MerkleService.Cache.DedupCache
import MerkleService.Cache.DedupList
import MerkleService.Subtree.Registrations
import MerkleService.Subtree.Processor
import MerkleService.Subtree.Retry
import MerkleService.Subtree.Outage
import MerkleService.Subtree.Batching
import MerkleService.Subtree.Storage
import MerkleService.Api.Watch
import MerkleService.Block.Dispatch
import MerkleService.Block.SubtreeWorker
import MerkleService.Block.BlockProcessed
import MerkleService.Block.Redelivery
import MerkleService.Block.FaultFree
import MerkleService.Block.SubtreeProcessor
import MerkleService.Block.Subscribers
import MerkleService.Block.Pruning
import MerkleService.Store.Agreement
import MerkleService.Callback.StumpGate
import MerkleService.Callback.Delivery
import MerkleService.Callback.DedupKey
import MerkleService.Callback.Ordering
import MerkleService.Callback.GateCount
import MerkleService.Callback.Conservation
import MerkleService.Callback.RetryBudget
import MerkleService.Callback.Shutdown
import MerkleService.Callback.Wedge
import MerkleService.Callback.AtMostOnce
import MerkleService.Callback.Posting
import MerkleService.Api.Broadcast
import MerkleService.Api.WatchTool
import MerkleService.Stump.Soundness
