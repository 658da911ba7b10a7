import DistributedME.Node.ReceiveLoops
import DistributedME.Node.Texts
import DistributedME.Cluster.Shutdown
import DistributedME.RicartAgrawala.Tokens
import DistributedME.RicartAgrawala.Progress
import DistributedME.RicartAgrawala.Service
import DistributedME.Node.SelfMessages
import DistributedME.Maekawa.Waiting
import DistributedME.Maekawa.Cost
import DistributedME.Node.Sending
import DistributedME.Maekawa.Alone
import DistributedME.Maekawa.Requester
import DistributedME.Library.Causality
import DistributedME.Node.Clocks
import DistributedME.Node.Connecting
import DistributedME.Cluster.Exchanges
import DistributedME.Library.Log
import DistributedME.Cluster.Replicas
import DistributedME.Node.Scanning
import DistributedME.Node.ConfigFile
import DistributedME.Node.Barrier
import DistributedME.Node.InputFile
import DistributedME.Program.Stranded
