import RaftKv.Common
import RaftKv.Framing

/-! The lines of the protocol, the critical sections of the node's threads, and the sending
functions of `src/network.cpp`.  A thread of the program runs one section under `node->mutex` after
another; the sections it still has to enter are its `todo`. -/

namespace RaftKv

open Stdio

/-- A line that a `snprintf` call writes, by its arguments.  `rv`, `rvr`, `ae`, `aer` and `cl` are
the lines `RV`, `RVR`, `AE`, `AER` and `CL`. -/
inductive Line
  | rv (term candidateId lastIndex lastTerm : ℕ)
  | rvr (term voterId granted : ℕ)
  | ae (term leaderId prevIndex prevTerm leaderCommit : ℕ) (entry : Option RaftLogEntry)
  | aer (term peerId success matchIndex : ℕ)
  | join (id : ℕ) (host : Text) (port : ℕ)
  | peer (id : ℕ) (host : Text) (port : ℕ)
  | leave (id : ℕ)
  | cl (sourceId : ℕ) (op : KvOp) (key value : Text)
  deriving DecidableEq

/-- A line on its way to the node that listens at an address. -/
structure Packet where
  host : Text
  port : ℕ
  line : Line
  deriving DecidableEq

/-- A critical section, or a step between two of them, with the local values it uses. -/
inductive Section
  | tickerLoop (lastHeartbeat : ℕ)
  | tickerMark
  | startElection
  | broadcastAppend
  | sendAppendToPeer (peerId : ℕ)
  | handleRequestVote (term candidateId lastIndex lastTerm : ℕ)
  | handleRequestVoteResponse (term voterId granted : ℕ)
  | handleAppendEntries (term leaderId prevIndex prevTerm leaderCommit hasEntry : ℕ)
      (incoming : RaftLogEntry)
  | handleAppendResponse (term peerId success matchIndex : ℕ)
  | raftSubmitCommand (op : KvOp) (key value : Text)
  | handleClientForward (sourceId : ℕ) (op : KvOp) (key value : Text)
  /-- the test of `peer_count` in `raft_submit_command` -/
  | submitPeerless
  /-- the commit without peers in `raft_submit_command` -/
  | submitCommit
  | handleJoin (peerId : ℕ) (host : Text) (port : ℕ)
  | sendPeerCatalog (host : Text) (port : ℕ)
  | handlePeerAnnounce (peerId : ℕ) (host : Text) (port : ℕ)
  | announcePeerToKnownNodes (peerId : ℕ) (host : Text) (port exceptId : ℕ)
  | handleLeave (peerId : ℕ)
  | announceLeaveToKnownNodes (peerId : ℕ)
  | requestClusterJoin
  | requestClusterLeave
  deriving DecidableEq

/-- What a section does: the node after it, the packets it sends, the sections its thread enters
next, and the value that `raft_submit_command` returns in it. -/
structure Effect where
  node : RaftNode
  sends : List Packet := []
  todo : List Section := []
  ret : Option ℤ := none

/-- What a section reads of the outside: the clock, and whether a connection for a forwarded
command can be made. -/
structure Env where
  now : ℕ
  connects : Bool

/-! ### Lines -/

/-- The bytes that `snprintf` writes for a line. -/
def Line.wire : Line → Text
  | .rv term candidateId lastIndex lastTerm =>
    snprintf raftMaxLine "RV %u %u %u %u\n" [.u term, .u candidateId, .u lastIndex, .u lastTerm]
  | .rvr term voterId granted =>
    snprintf raftMaxLine "RVR %u %u %d\n" [.u term, .u voterId, .u granted]
  | .ae term leaderId prevIndex prevTerm leaderCommit (some entry) =>
    snprintf raftMaxLine "AE %u %u %u %u %u 1 %u %u %s %s %s\n"
      [.u term, .u leaderId, .u prevIndex, .u prevTerm, .u leaderCommit, .u entry.index,
        .u entry.term, .s (opName entry.op), .s entry.key,
        .s (if entry.value = [] then bytes "-" else entry.value)]
  | .ae term leaderId prevIndex prevTerm leaderCommit none =>
    snprintf raftMaxLine "AE %u %u %u %u %u 0 0 0 NONE - -\n"
      [.u term, .u leaderId, .u prevIndex, .u prevTerm, .u leaderCommit]
  | .aer term peerId success matchIndex =>
    snprintf raftMaxLine "AER %u %u %d %u\n" [.u term, .u peerId, .u success, .u matchIndex]
  | .join id host port => snprintf raftMaxLine "JOIN %u %s %u\n" [.u id, .s host, .u port]
  | .peer id host port => snprintf raftMaxLine "PEER %u %s %u\n" [.u id, .s host, .u port]
  | .leave id => snprintf raftMaxLine "LEAVE %u\n" [.u id]
  | .cl sourceId op key value =>
    snprintf raftMaxLine "CL %u %s %s %s\n"
      [.u sourceId, .s (opName op), .s key, .s (if value = [] then bytes "-" else value)]

/-- The first line that the receiver's pool gets of the bytes. -/
def received (wire : Text) : Option Text := (framed wire).head?

/-- The parsing in `raft_handle_line`: the handler call that a line leads to. -/
def raftHandleLine (line : Text) : Option Section :=
  match sscanf (format "%7s".toList) line with
  | [.s type] =>
    if type = bytes "RV" then
      match sscanf (format "RV %u %u %u %u".toList) line with
      | [.u term, .u id, .u a, .u b] => some (.handleRequestVote term id a b)
      | _ => none
    else if type = bytes "RVR" then
      match sscanf (format "RVR %u %u %u".toList) line with
      | [.u term, .u id, .u a] => some (.handleRequestVoteResponse term id a)
      | _ => none
    else if type = bytes "AE" then
      match sscanf (format "AE %u %u %u %u %u %u %u %u %15s %63s %255s".toList) line with
      | [.u term, .u id, .u a, .u b, .u c, .u d, .u index, .u entryTerm, .s opText, .s key,
          .s value] =>
        some (.handleAppendEntries term id a b c d
          { index, term := entryTerm, op := opFromName opText
            key := copyText raftMaxKey (if key = bytes "-" then [] else key)
            value := copyText raftMaxValue (if value = bytes "-" then [] else value) })
      | _ => none
    else if type = bytes "AER" then
      match sscanf (format "AER %u %u %u %u".toList) line with
      | [.u term, .u id, .u a, .u b] => some (.handleAppendResponse term id a b)
      | _ => none
    else if type = bytes "JOIN" then
      match sscanf (format "JOIN %u %63s %u".toList) line with
      | [.u id, .s host, .u a] => if a ≤ 65535 then some (.handleJoin id host a) else none
      | _ => none
    else if type = bytes "PEER" then
      match sscanf (format "PEER %u %63s %u".toList) line with
      | [.u id, .s host, .u a] => if a ≤ 65535 then some (.handlePeerAnnounce id host a) else none
      | _ => none
    else if type = bytes "LEAVE" then
      match sscanf (format "LEAVE %u".toList) line with
      | [.u id] => some (.handleLeave id)
      | _ => none
    else if type = bytes "CL" then
      match sscanf (format "CL %u %15s %63s %255s".toList) line with
      | [.u id, .s opText, .s key] => some (.handleClientForward id (opFromName opText) key [])
      | [.u id, .s opText, .s key, .s value] =>
        some (.handleClientForward id (opFromName opText) key
          (if value = bytes "-" then [] else value))
      | _ => none
    else none
  | _ => none

/-- The handler calls of `raft_handle_line`: the tag, the arguments that the format of the tag has
read, and the section of the handler. -/
inductive HandlerCall : Text → List Arg → Section → Prop
  | rv (term id a b : ℕ) : HandlerCall (bytes "RV") [.u term, .u id, .u a, .u b]
      (.handleRequestVote term id a b)
  | rvr (term id a : ℕ) : HandlerCall (bytes "RVR") [.u term, .u id, .u a]
      (.handleRequestVoteResponse term id a)
  | ae (term id a b c d index entryTerm : ℕ) (opText key value : Text) :
      HandlerCall (bytes "AE") [.u term, .u id, .u a, .u b, .u c, .u d, .u index, .u entryTerm,
        .s opText, .s key, .s value] (.handleAppendEntries term id a b c d
          { index, term := entryTerm, op := opFromName opText
            key := copyText raftMaxKey (if key = bytes "-" then [] else key)
            value := copyText raftMaxValue (if value = bytes "-" then [] else value) })
  | aer (term id a b : ℕ) : HandlerCall (bytes "AER") [.u term, .u id, .u a, .u b]
      (.handleAppendResponse term id a b)
  | join (id a : ℕ) (host : Text) : HandlerCall (bytes "JOIN") [.u id, .s host, .u a]
      (.handleJoin id host a)
  | peer (id a : ℕ) (host : Text) : HandlerCall (bytes "PEER") [.u id, .s host, .u a]
      (.handlePeerAnnounce id host a)
  | leave (id : ℕ) : HandlerCall (bytes "LEAVE") [.u id] (.handleLeave id)
  | clKey (id : ℕ) (opText key : Text) : HandlerCall (bytes "CL") [.u id, .s opText, .s key]
      (.handleClientForward id (opFromName opText) key [])
  | cl (id : ℕ) (opText key value : Text) :
      HandlerCall (bytes "CL") [.u id, .s opText, .s key, .s value]
      (.handleClientForward id (opFromName opText) key (if value = bytes "-" then [] else value))

theorem handlerCall {line : Text} {sec : Section} (h : raftHandleLine line = some sec) :
    ∃ tag fmt args, sscanf (format "%7s".toList) line = [.s tag] ∧ sscanf fmt line = args ∧
      HandlerCall tag args sec := by
  revert h
  fun_cases raftHandleLine line
  all_goals
    intro h
    cases h
  -- In each case that is left the first argument of the line is a number.
  all_goals
    have hargs := ‹sscanf _ line = .u _ :: _›
    exact ⟨_, _, _, ‹sscanf _ line = [.s _]›, hargs, by constructor⟩

/-- The handler calls that the receiver makes for what is sent: a text with a newline in one of its
fields is more than one line to it. -/
def Line.handlers (line : Line) : List Section := (framed line.wire).filterMap raftHandleLine

/-- The handler call for the first line of what is sent. -/
def Line.handler (line : Line) : Option Section := (received line.wire).bind raftHandleLine

/-! ### Sending -/

/-- `send_to_peer`: nothing is sent to an unknown peer. -/
def sendToPeer (node : RaftNode) (peerId : ℕ) (line : Line) : List Packet :=
  match findPeer node peerId with
  | some peer => [⟨peer.host, peer.port, line⟩]
  | none => []

/-- One line to every peer that `except` does not name. -/
def sendToAll (node : RaftNode) (except : List ℕ) (line : Line) : List Packet :=
  (node.peers.filter fun p => p.id ∉ except).map fun p => ⟨p.host, p.port, line⟩

/-- The `next_index` that `build_append_locked` stores and uses. -/
def nextIndexLocked (node : RaftNode) (peer : Peer) : ℤ :=
  if peer.nextIndex ≤ 0 then toInt32 node.logCount + 1 else peer.nextIndex

/-- The term of the entry at a position counted from 1, 0 for position 0. -/
def termAt (node : RaftNode) (index : ℕ) : Option ℕ :=
  if index = 0 then some 0 else node.log[index - 1]?.map (·.term)

/-- `none` when a position outside the log is read. -/
def buildAppendLocked (node : RaftNode) (peer : Peer) : Option Line := do
  let nextIndex := (nextIndexLocked node peer).toNat
  let nextIndex := if nextIndex = 0 then 1 else nextIndex
  if nextIndex ≤ node.logCount then
    let entry ← node.log[nextIndex - 1]?
    let prevIndex := (entry.index + 2 ^ 32 - 1) % 2 ^ 32
    let prevTerm ← termAt node prevIndex
    some (.ae node.currentTerm node.id prevIndex prevTerm node.commitIndex (some entry))
  else
    let prevTerm ← termAt node node.logCount
    some (.ae node.currentTerm node.id node.logCount prevTerm node.commitIndex none)

def sendAppendToPeer (node : RaftNode) (peerId : ℕ) : Option Effect :=
  match findPeer node peerId with
  | none => some { node }
  | some peer => do
    let line ← buildAppendLocked node peer
    let assign (p : Peer) : Peer := { p with nextIndex := nextIndexLocked node p }
    some { node := { node with peers := modifyPeer assign peerId node.peers }
           sends := [⟨peer.host, peer.port, line⟩] }

def broadcastAppend (node : RaftNode) : Effect :=
  { node, todo := node.peers.map fun p => .sendAppendToPeer p.id }

end RaftKv
