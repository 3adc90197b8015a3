import Volant.Storage.GroupCommitLive
import Volant.Broker.CommitAtomic
import Volant.Broker.ProducerIds
import Volant.Broker.MessageOrder
import Volant.Broker.Isolation
import Volant.Broker.OffsetMap
import Volant.Cluster.CommittedPrefix
import Volant.Cluster.AcksAll
import Volant.Cluster.RaftSafety
import Volant.Kafka.Hostile
import Volant.Kafka.Faithful
import Volant.Kafka.FetchSession
import Volant.Kafka.FetchSessionIds
import Volant.Cluster.Watermarks
import Volant.Cluster.AssignmentAgreement
import Volant.Cluster.LeaderEpoch
import Volant.Storage.CompactionCrash
import Volant.Storage.FailedAppends
import Volant.Client.Sequences
import Volant.Broker.InFlight
import Volant.Broker.Progress
import Volant.Storage.ByteLimit
import Volant.Broker.ScramStore
