import Mathlib.Data.Int.Order.Basic
import RaftKv.Stdio

/-! The data of a node: `include/raft_kv.hpp`.  An array with its counter is the list of the
entries in use, `uint32_t` is `ℕ`, wrapped where the code can pass the top of the range, and
`int32_t` is `ℤ`. -/

namespace RaftKv

open Stdio

def raftMaxPeers : ℕ := 16
def raftMaxKey : ℕ := 64
def raftMaxValue : ℕ := 256
def raftMaxLog : ℕ := 4096
def raftMaxLine : ℕ := 1024

inductive RaftRole
  | follower
  | candidate
  | leader
  deriving DecidableEq

inductive KvOp
  | none
  | set
  | del
  deriving DecidableEq

structure KvItem where
  key : Text
  value : Text
  used : Bool
  deriving DecidableEq

/-- The item that `memset` leaves. -/
def KvItem.zero : KvItem := ⟨[], [], false⟩

structure KvStore where
  items : List KvItem
  count : ℕ
  length_items : items.length = raftMaxLog
  deriving DecidableEq

/-- The store that `raft_node_init` leaves. -/
def KvStore.zero : KvStore := ⟨List.replicate raftMaxLog KvItem.zero, 0, List.length_replicate⟩

structure RaftLogEntry where
  index : ℕ
  term : ℕ
  op : KvOp
  key : Text
  value : Text
  deriving DecidableEq

structure Peer where
  id : ℕ
  host : Text
  port : ℕ
  nextIndex : ℤ
  matchIndex : ℤ
  deriving DecidableEq

/-- The calls of `log_event` that mark a step of the protocol, with their arguments.  `applied`
also has the log position, counted from 1, and the whole entry. -/
inductive Event
  | startsElection (term : ℕ)
  | voteRequest (candidateId term result : ℕ)
  | becomesLeader (term : ℕ)
  | committedThrough (index : ℕ)
  | applied (slot : ℕ) (entry : RaftLogEntry)
  deriving DecidableEq

structure RaftNode where
  id : ℕ
  host : Text
  port : ℕ
  peers : List Peer
  role : RaftRole
  currentTerm : ℕ
  votedFor : ℤ
  leaderId : ℤ
  votesReceived : ℕ
  log : List RaftLogEntry
  commitIndex : ℕ
  lastApplied : ℕ
  store : KvStore
  lastLeaderContactMs : ℕ
  electionTimeoutMs : ℕ
  eventLog : List Event

structure RaftConfig where
  id : ℕ
  host : Text
  port : ℕ
  peers : List Peer

namespace RaftNode

def peerCount (node : RaftNode) : ℕ := node.peers.length

def logCount (node : RaftNode) : ℕ := node.log.length

/-- `log_event`, whether or not the log file could be opened. -/
def logEvent (node : RaftNode) (e : Event) : RaftNode :=
  { node with eventLog := node.eventLog ++ [e] }

end RaftNode

/-- The conversion to `int32_t`. -/
def toInt32 (z : ℤ) : ℤ := z.bmod (2 ^ 32)

theorem toInt32_of_lt {n : ℕ} (h : n < 2 ^ 31) : toInt32 n = n := by
  unfold toInt32
  rw [Int.bmod_eq_of_le (by omega) (by omega)]

end RaftKv
