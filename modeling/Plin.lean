import Plin.Properties.LeafRun
import Plin.Properties.Snapshot
import Plin.Properties.BTreeInsertOnly
import Plin.Properties.SmoLock
import Plin.Properties.BlockLock
import Plin.Properties.EdgeStream
import Plin.Properties.HotUpdate
import Plin.Properties.SplitLost
import Plin.Properties.SplitRace
import Plin.Properties.EndToEnd
import Plin.Properties.PlaceNodes
import Plin.Properties.InnerSearch
import Plin.Properties.ParamCodec
import Plin.Properties.TopologyRoundtrip
import Plin.Properties.Orphan
import Plin.Properties.InnerCapacity
import Plin.Properties.ReadYourWrites
import Plin.Index.RangeQuery
import Plin.Properties.Routing
import Plin.Properties.PredictPos
import Plin.Properties.RdmaFrame
import Plin.Properties.RemoteRead
import Plin.Properties.OverflowCount
import Plin.Properties.PredictRange
import Plin.Properties.ZeroDivision
import Plin.Properties.FarKey
import Plin.Properties.BTreeAbsent
import Plin.Properties.EndPath
import Plin.Properties.RangeQuery
import Plin.Properties.SplitReach
import Plin.Properties.HotPositions
import Plin.Properties.Benchmark
import Plin.Properties.SegmentationLoop
import Plin.Properties.TopologyComment
import Plin.Properties.TopologyFault
import Plin.Properties.TopologyStyle
import Plin.Properties.ExactLoad
import Plin.Properties.BlockReads
import Plin.Properties.ChainContents
import Plin.Properties.ChainReaders
import Plin.Properties.RdmaLink
import Plin.Properties.EndStream
import Plin.Properties.Destroy
