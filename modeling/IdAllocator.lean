import IdAllocator.Data
import IdAllocator.Server
import IdAllocator.Inversion
import IdAllocator.CommittedPrefix
import IdAllocator.Lib.Consensus
import IdAllocator.Lib.ConsensusCommit
import IdAllocator.Cluster
import IdAllocator.Simulation
import IdAllocator.SimulationVotes
import IdAllocator.SimulationLog
import IdAllocator.SimulationFollower
import IdAllocator.ClusterSafety
import IdAllocator.VoteDurability
import IdAllocator.Lib.Codec
import IdAllocator.Lib.OrderedStore
import IdAllocator.PersistedLog
import IdAllocator.LogFrame
import IdAllocator.TicketService
import IdAllocator.Wire
import IdAllocator.IssuedTickets
import IdAllocator.FailedApplies
import IdAllocator.RequestLock
import IdAllocator.Replication
import IdAllocator.Roles
import IdAllocator.LeaderBounds
import IdAllocator.Assertions
import IdAllocator.VotingGate
import IdAllocator.LogCallbacks
import IdAllocator.OneVote
import IdAllocator.TruncatedStore
import IdAllocator.Membership
import IdAllocator.StateSchema
import IdAllocator.LogArray
import IdAllocator.EntryMerge
import IdAllocator.EntryIntake
import IdAllocator.UnknownPeers
import IdAllocator.Resend
import IdAllocator.CatchUp
import IdAllocator.NonvotingPeers
import IdAllocator.Lib.Records
import IdAllocator.PeerLinks
import IdAllocator.NodeArray
import IdAllocator.PeerAddress
import IdAllocator.Dict
import IdAllocator.JumpConsistent
import IdAllocator.DictCounts
import IdAllocator.LogLookup
import IdAllocator.NodeFlags
import IdAllocator.LogCompaction
import IdAllocator.Lib.Getopt
import IdAllocator.Options
import IdAllocator.Lib.ByteMemory
import IdAllocator.Lib.Framing
import IdAllocator.PeerMessages
import IdAllocator.PeerStream
import IdAllocator.CanCommit
import IdAllocator.ParseAddr
import IdAllocator.Usage
import IdAllocator.Multiplex
import IdAllocator.MultiplexFinish
import IdAllocator.ElectionTimer
