import Piupiu.Lib.Atomic
import Piupiu.Lib.RotatingQueue
import Piupiu.Lib.IStream
import Piupiu.Lib.History
import Piupiu.Lib.GrowSet
import Piupiu.Packet
import Piupiu.Datagram
import Piupiu.SessionManager
import Piupiu.ProfileManager
import Piupiu.ProfileFile
import Piupiu.Reload
import Piupiu.ConfirmationBuffer
import Piupiu.ReplicaManager
import Piupiu.Server
import Piupiu.Store
import Piupiu.Steps
import Piupiu.Runs
import Piupiu.Connect
import Piupiu.ConcurrentConnects
import Piupiu.Acknowledgements
import Piupiu.Provenance
import Piupiu.Cluster
import Piupiu.DirectConnects
import Piupiu.Persistence
import Piupiu.Attribution
import Piupiu.Notifications
import Piupiu.NotificationOrder
import Piupiu.WaitingTurns
import Piupiu.FollowGraph
import Piupiu.SessionViews
import Piupiu.UnsetSessions
import Piupiu.SessionReplication
import Piupiu.Convergence
import Piupiu.Client
import Piupiu.Console
import Piupiu.PayloadBounds
import Piupiu.BroadcastNumbers
import Piupiu.Disconnect
import Piupiu.Lib.Batches
import Piupiu.ReorderBuffer
import Piupiu.Confirmations
import Piupiu.ConnectedUsers
import Piupiu.TornFile
import Piupiu.PeersArgument
import Piupiu.Lib.Words
import Piupiu.CommandGrammar
import Piupiu.DrawMessages
import Piupiu.InputLines
import Piupiu.Lib.Loops
import Piupiu.LoadingEnds
import Piupiu.Lib.Simulation
import Piupiu.Microblog
import Piupiu.Abstraction
import Piupiu.Asides
import Piupiu.Linearization
import Piupiu.Genuine
import Piupiu.Acceptance
import Piupiu.Terminal
import Piupiu.Lib.Threads
import Piupiu.Parallel
import Piupiu.World
import Piupiu.Lib.LittleEndian
import Piupiu.Wire
import Piupiu.Lib.SingleWrite
import Piupiu.CrashRecovery
import Piupiu.Launch
import Piupiu.Delivery
import Piupiu.Transport
