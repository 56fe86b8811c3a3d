import Brindle.Lib.Outcome
import Brindle.Lib.Buffer
import Brindle.Lib.Reach
import Brindle.Lib.Run
import Brindle.Lib.Lockstep
import Brindle.Lib.Rewind
import Brindle.Lib.Tiling
import Brindle.Lib.Greedy
import Brindle.Lib.Text
import Brindle.Lib.RankFusion
import Brindle.Lib.Renumber
import Brindle.Lib.Reader
import Brindle.Lib.Usize
import Brindle.Lib.Sized
import Brindle.Lib.Bytes
import Brindle.Lib.Ieee754
import Brindle.Lib.Rounding
import Brindle.Lib.FloatOrder
import Brindle.Lib.Signs
import Brindle.Lib.SquareRoot
import Brindle.Float
import Brindle.Exact
import Brindle.Fusion
import Brindle.Hybrid
import Brindle.Distance
import Brindle.Operators
import Brindle.Filter
import Brindle.Attrs
import Brindle.Pushdown
import Brindle.Hnsw.Graph
import Brindle.Hnsw.Slots
import Brindle.Hnsw.Layout
import Brindle.Hnsw.Relink
import Brindle.Hnsw.Search
import Brindle.Hnsw.SearchSpec
import Brindle.Hnsw.Insert
import Brindle.Hnsw.Congr
import Brindle.Hnsw.InsertSpec
import Brindle.Hnsw.Selection
import Brindle.Hnsw.WellFormed
import Brindle.Hnsw.Capacity
import Brindle.Hnsw.Codec
import Brindle.Hnsw.Sources
import Brindle.Hnsw.Longer
import Brindle.Hnsw.Untrusted
import Brindle.Hnsw.CodecSpec
import Brindle.Hnsw.DecodeSpec
import Brindle.Hnsw.Tiled
import Brindle.Hnsw.Runs
import Brindle.Hnsw.Accepted
import Brindle.Hnsw.Findable
import Brindle.Hnsw.Frame
import Brindle.Hnsw.Configured
import Brindle.Hnsw.Drawn
import Brindle.Hnsw.Guarded
import Brindle.Hnsw.Canonical
import Brindle.Hnsw.Atomic
import Brindle.Hnsw.Sized
import Brindle.Hnsw.BuildBeam
import Brindle.Hnsw.Oblivious
import Brindle.Hnsw.Generator
import Brindle.Hnsw.Readable
import Brindle.Options
import Brindle.Hnsw.Twins
import Brindle.Hnsw.Transparent
import Brindle.Hnsw.RoundTrip
import Brindle.Hnsw.Moves
import Brindle.Hnsw.Trace
import Brindle.Hnsw.Once
import Brindle.Hnsw.Answers
import Brindle.Hnsw.Cost
import Brindle.Hnsw.FullBudget
import Brindle.Hnsw.Tombstones
import Brindle.Hnsw.Discards
import Brindle.Hnsw.FullBeam
import Brindle.Hnsw.Probe
import Brindle.Hnsw.Inert
import Brindle.PgVector
import Brindle.VectorDatum
import Brindle.HybridSearch
import Brindle.Storage.Rows
import Brindle.Hnsw.Compaction
import Brindle.Hnsw.Numeric
import Brindle.Storage.ImageSpec
import Brindle.Storage.Shared
import Brindle.Storage.Levels
import Brindle.Storage.Boundary
import Brindle.Storage.Ledger
import Brindle.Storage.Slot
import Brindle.Storage.Steps
import Brindle.Storage.Calls
import Brindle.Storage.Transaction
import Brindle.Storage.StagedRows
import Brindle.Storage.Discarded
import Brindle.Storage.Payload
import Brindle.Storage.Reserved
import Brindle.Storage.Pages
import Brindle.Storage.PageWalk
import Brindle.Storage.Cache
import Brindle.Storage.Ceiling
import Brindle.Lib.Nest
import Brindle.Lib.Stash
import Brindle.Hnsw.Paced
import Brindle.Storage.PayloadSpec
import Brindle.Storage.GuardedPayload
import Brindle.Storage.PrefixFree
import Brindle.Storage.Copies
import Brindle.Storage.Cluster
import Brindle.Storage.ClusterSpec
import Brindle.Storage.Batching
import Brindle.Storage.Unordered
import Brindle.Storage.Vacuum
import Brindle.Storage.Scan
import Brindle.Storage.Executor
import Brindle.Storage.Ordering
import Brindle.Storage.Wrapped
import Brindle.Storage.Savepoints
