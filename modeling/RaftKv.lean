import RaftKv.Reach
import RaftKv.Consensus.Completeness
import RaftKv.Cluster
import RaftKv.Codec
import RaftKv.Refine.Invariant
import RaftKv.Refine.Election
import RaftKv.Refine.Replication
import RaftKv.Refine.Step
import RaftKv.Safety
import RaftKv.Vote
import RaftKv.Threads
import RaftKv.Exchange
import RaftKv.Replicas
import RaftKv.Store
import RaftKv.Table
import RaftKv.Config
import RaftKv.Bounds
import RaftKv.Lines
import RaftKv.Commands
import RaftKv.Connection
import RaftKv.Tally
import RaftKv.Contacts
import RaftKv.Gossip
import RaftKv.Membership
import RaftKv.Discovery
import RaftKv.Departure
import RaftKv.Consensus.Agreement
import RaftKv.Repair
import RaftKv.Rounds
import RaftKv.Redelivery
import RaftKv.Submission
import RaftKv.Forward
import RaftKv.Parser
import RaftKv.Interleave
import RaftKv.Abreast
import RaftKv.Window
import RaftKv.Applying
import RaftKv.CommitRule
import RaftKv.Terms
import RaftKv.Roles
import RaftKv.PeerMap
import RaftKv.PoolRuns
import RaftKv.ServerRuns
import RaftKv.Leaders
import RaftKv.Durability
import RaftKv.Convergence
import RaftKv.Transport
import RaftKv.Dialogue
import RaftKv.Arguments
import RaftKv.Stability
