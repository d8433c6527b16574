import Qdrant.Wal.Cluster
import Qdrant.Wal.Interleave
import Qdrant.Wal.AppliedSeq
import Qdrant.Wal.IndexRefinement
import Qdrant.Flush.CopyOnWrite
import Qdrant.Shard.NewestCopy
import Qdrant.Shard.Rollback
import Qdrant.Shard.Deduplication
import Qdrant.Consensus.CommittedLog
import Qdrant.Consensus.AppliedOnce
import Qdrant.Gridstore.Recovery
import Qdrant.Hnsw.GraphLinksRoundTrip
import Qdrant.Wal.ClockRun
import Qdrant.Wal.OpenAnyBytes
import Qdrant.Replica.ClockSet
import Qdrant.Consensus.WalRefinement
import Qdrant.Replica.QueueProxy
import Qdrant.Mirage.Layer0
import Qdrant.Segment.PayloadIndex
import Qdrant.Segment.OptimizedFilter
import Qdrant.Segment.GeoIndex
import Qdrant.Segment.FullTextIndex
import Qdrant.Segment.BufferedFlags
import Qdrant.Hnsw.Connectivity
import Qdrant.Hnsw.SearchEntry
import Qdrant.Common.DeltaPack
import Qdrant.Segment.IdTracker
import Qdrant.Segment.JsonPathText
import Qdrant.Hnsw.LinksContainer
