import DistLabs.Runs
import DistLabs.Balance
import DistLabs.GoMaps
import DistLabs.ShardCfg
import DistLabs.ShardRebalance
import DistLabs.ShardHistory
import DistLabs.KvModel
import DistLabs.RaftAgreement
import DistLabs.Labrpc
import DistLabs.LabrpcDelivery
import DistLabs.Daemons
import DistLabs.Durability
import DistLabs.Demux
import DistLabs.DemuxCalls
import DistLabs.DemuxMatching
import DistLabs.RaftReplay
import DistLabs.ServerGrp
import DistLabs.Connections
import DistLabs.Partitions
import DistLabs.Versioned
import DistLabs.KvTest
import DistLabs.KvPuts
import DistLabs.KvAppends
import DistLabs.KvServer
import DistLabs.ShardOrder
import DistLabs.Grouping
import DistLabs.KvRetry
import DistLabs.MapReduce
import DistLabs.MrApps
import DistLabs.Clients
import DistLabs.AnnotationTiles
import DistLabs.AnnotationChecks
import DistLabs.LabrpcTraffic
import DistLabs.Checkpoint
import DistLabs.Framing
import DistLabs.Transport
import DistLabs.DepthFirst
import DistLabs.Labgob
import DistLabs.LabgobCapital
import DistLabs.LabgobDefault
import DistLabs.Fairness
import DistLabs.KvHistory
import DistLabs.LabrpcCalls
import DistLabs.LabrpcLiveness
import DistLabs.Groups
import DistLabs.KvSpawn
import DistLabs.LabrpcReliable
import DistLabs.RaftLeaders
import DistLabs.RaftOne
import DistLabs.RaftReports
import DistLabs.ShardCtrlers
import DistLabs.DemuxLiveness
import DistLabs.MrTest
