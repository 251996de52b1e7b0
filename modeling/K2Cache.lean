import K2Cache.Lib.OrdMap
import K2Cache.Lib.Stream
import K2Cache.Lib.Patch
import K2Cache.Lib.Act
import K2Cache.Lib.Machine
import K2Cache.Lib.Search
import K2Cache.Lib.Bitmap
import K2Cache.Lib.LowerBound
import K2Cache.Spec.Tree
import K2Cache.Spec.Files
import K2Cache.Spec.Updates
import K2Cache.Spec.Logger
import K2Cache.Spec.Index
import K2Cache.Spec.Manager
import K2Cache.Spec.Builder
import K2Cache.Spec.PointTree
import K2Cache.Spec.K2TreeMixed
import K2Cache.Spec.NodeIds
import K2Cache.Spec.Updater
import K2Cache.Spec.Bgp
import K2Cache.Spec.BgpProcessor
import K2Cache.Proof.Blocks
import K2Cache.Proof.Serialize
import K2Cache.Proof.LogFile
import K2Cache.Proof.Compact
import K2Cache.Proof.LogRun
import K2Cache.Proof.IndexMerge
import K2Cache.Proof.IndexFile
import K2Cache.Proof.IndexSync
import K2Cache.Proof.Replay
import K2Cache.Proof.PredicateLock
import K2Cache.Proof.MemoryBudget
import K2Cache.Proof.Refine
import K2Cache.Proof.Restart
import K2Cache.Proof.Builder
import K2Cache.Proof.Frame
import K2Cache.Proof.BulkLoad
import K2Cache.Proof.SoundIndex
import K2Cache.Proof.SharedSource
import K2Cache.Proof.SoundFetch
import K2Cache.Proof.FullSync
import K2Cache.Proof.PlainIndex
import K2Cache.Proof.SyncRun
import K2Cache.Proof.NodeIds
import K2Cache.Proof.Sessions
import K2Cache.Proof.Commits
import K2Cache.Proof.BgpLevels
import K2Cache.Proof.BgpRun
import K2Cache.Proof.BgpRows
import K2Cache.Proof.FreshIds
import K2Cache.Proof.Expiry
import K2Cache.Proof.BgpReset
import K2Cache.Lib.Paging
import K2Cache.Spec.PredicateLock
import K2Cache.Spec.SharedSource
import K2Cache.Spec.Streamers
import K2Cache.Proof.ExactMatch
import K2Cache.Proof.CachedStream
import K2Cache.Proof.RepeatedVars
import K2Cache.Spec.BgpStreamer
import K2Cache.Proof.BgpStream
import K2Cache.Proof.VarLists
import K2Cache.Proof.OnePattern
import K2Cache.Proof.Deletes
import K2Cache.Spec.Replacement
import K2Cache.Proof.Replacement
import K2Cache.Proof.Evictions
import K2Cache.Spec.ServerTask
import K2Cache.Proof.ServerIds
import K2Cache.Spec.FullyIndexedCache
import K2Cache.Spec.MemoryBudget
import K2Cache.Proof.CompactTwice
import K2Cache.Proof.LoggedFiles
import K2Cache.Proof.Decode
import K2Cache.Proof.RecoverAgain
import K2Cache.Lib.Emits
import K2Cache.Lib.Trail
import K2Cache.Proof.StoredGraph
import K2Cache.Proof.BuiltIndex
import K2Cache.Spec.PathSearch
import K2Cache.Proof.PathSearch
import K2Cache.Proof.Unresolved
import K2Cache.Spec.Socket
import K2Cache.Proof.Socket
import K2Cache.Spec.MemoryManager
import K2Cache.Proof.MemoryManager
import K2Cache.Proof.ScannerEnd
import K2Cache.Proof.Segments
import K2Cache.Lib.SearchTree
import K2Cache.Proof.SetOrder
import K2Cache.Spec.SegmentReader
import K2Cache.Proof.SegmentReader
import K2Cache.Spec.K2TreeCopy
import K2Cache.Proof.K2TreeCopy
import K2Cache.Lib.SparsePerm
import K2Cache.Spec.FisherYates
import K2Cache.Proof.FisherYates
import K2Cache.Spec.ReplacementWorker
import K2Cache.Proof.ReplacementWorker
import K2Cache.Proof.StopPoints
import K2Cache.Lib.Erase
import K2Cache.Spec.FicManager
import K2Cache.Proof.LogMerger
import K2Cache.Proof.FicMerge
import K2Cache.Proof.LoadAll
import K2Cache.Proof.FicRun
import K2Cache.Lib.TaskQueue
import K2Cache.Spec.WorkerPool
import K2Cache.Lib.KMerge
import K2Cache.Spec.ExternalSort
import K2Cache.Proof.WorkerPool
import K2Cache.Lib.BinaryHeap
import K2Cache.Proof.ParallelSort
import K2Cache.Proof.MergePass
import K2Cache.Proof.SplitFile
import K2Cache.Proof.ExternalSort
import K2Cache.Proof.SortThenBuild
import K2Cache.Spec.ServerWorker
import K2Cache.Proof.ServerWorker
import K2Cache.Proof.Lifetime
import K2Cache.Spec.BgpQuery
import K2Cache.Proof.BgpQuery
import K2Cache.Proof.Transparent
import K2Cache.Spec.NodeIdsBuild
import K2Cache.Proof.NodeIdsBuild
import K2Cache.Proof.RealRows
import K2Cache.Proof.DatasetQuery
import K2Cache.Proof.MessageRun
import K2Cache.Proof.MessageQuery
