import Akar.WritePermit
import Akar.CommittedOnly
import Akar.Recovery
import Akar.SecondReplay
import Akar.Drain
import Akar.FailedStatement
import Akar.LocalWal
import Akar.FlushHonesty
import Akar.GroupCommitLiveness
import Akar.PinBalance
import Akar.PageCache
import Akar.ArtRange
import Akar.PrunedScan
import Akar.SpillInvisible
import Akar.ValueRoundTrip
import Akar.ChunkRoundTrip
import Akar.FreeSpaceRuns
import Akar.RoaringBitmap
import Akar.PlanCache
import Akar.SchemaStatements
import Akar.OnDiskHashIndex
import Akar.ConcurrentUndo
import Akar.CommitStamps
import Akar.ArtCodec
import Akar.ArtNodeMap
import Akar.OrderByCorrect
import Akar.HashJoin
import Akar.StatementLog
import Akar.KeyMirrorRuns
import Akar.WriteSet
import Akar.RecursiveExtend
import Akar.TrailSearch
import Akar.GraphSource
import Akar.LegacyVector
import Akar.ArrowArray
import Akar.UnionQuery
import Akar.Unwind
import Akar.JoinSpill
import Akar.AggregateMerge
import Akar.LimitPushDown
import Akar.AggKeyDependency
import Akar.ArtRangeScan
import Akar.Sequence
import Akar.UnwindCountPasses
import Akar.Csr
