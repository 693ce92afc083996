import RaftKv.Network

/-! The handlers of `src/raft_core.cpp`, one definition for each critical section, and `exec`,
which runs a section of any kind. -/

namespace RaftKv

open Stdio

def becomeFollowerLocked (now : ℕ) (node : RaftNode) (term : ℕ) (leaderId : ℤ) : RaftNode :=
  let node :=
    if node.currentTerm < term then { node with currentTerm := term, votedFor := -1 } else node
  { node with
    role := .follower
    leaderId
    votesReceived := 0
    lastLeaderContactMs := now
    electionTimeoutMs := randomElectionTimeout node now }

/-- One round of the loop of `apply_committed_locked`. -/
def applyEntry (node : RaftNode) (entry : RaftLogEntry) : RaftNode :=
  let node :=
    if entry.op = .set ∨ entry.op = .del then
      let node := { node with store := (kvApply node.store entry.op entry.key entry.value).2 }
      node.logEvent (.applied (node.lastApplied + 1) entry)
    else node
  { node with lastApplied := node.lastApplied + 1 }

def applyLoop : ℕ → RaftNode → Option RaftNode
  | 0, node => some node
  | k + 1, node => do
    let entry ← node.log[node.lastApplied]?
    applyLoop k (applyEntry node entry)

/-- `none` when a position outside the log is read. -/
def applyCommittedLocked (node : RaftNode) : Option RaftNode :=
  applyLoop (node.commitIndex - node.lastApplied) node

/-- The index of the new entry, or `-1` when the log is full. -/
def appendEntryLocked (node : RaftNode) (op : KvOp) (key value : Text) : ℤ × RaftNode :=
  if raftMaxLog ≤ node.logCount then (-1, node)
  else
    let entry : RaftLogEntry :=
      { index := node.logCount + 1, term := node.currentTerm, op
        key := copyText raftMaxKey key, value := copyText raftMaxValue value }
    (entry.index, { node with log := node.log ++ [entry] })

/-- `1` and the peers whose `match_index` has reached `index`. -/
def matchCount (node : RaftNode) (index : ℕ) : ℤ :=
  1 + (node.peers.countP fun p => toInt32 index ≤ p.matchIndex : ℕ)

/-- The loop of `recompute_commit_locked` from `index` down: the index it commits. -/
def commitScan (node : RaftNode) : ℕ → Option ℕ
  | 0 => none
  | k + 1 =>
    if k + 1 ≤ node.commitIndex then none
    else if (node.log[k]?.map (·.term)) ≠ some node.currentTerm then commitScan node k
    else if majorityCount node ≤ matchCount node (k + 1) then some (k + 1)
    else commitScan node k

def recomputeCommitLocked (node : RaftNode) : Option RaftNode :=
  if node.role ≠ .leader then some node
  else match commitScan node node.logCount with
    | some index =>
      let node := { node with commitIndex := index }
      applyCommittedLocked (node.logEvent (.committedThrough index))
    | none => some node

def becomeLeaderLocked (node : RaftNode) : RaftNode :=
  let reset (p : Peer) : Peer := { p with nextIndex := toInt32 node.logCount + 1, matchIndex := 0 }
  let node :=
    { node with role := .leader, leaderId := toInt32 node.id, peers := node.peers.map reset }
  node.logEvent (.becomesLeader node.currentTerm)

def startElection (now : ℕ) (node : RaftNode) : Effect :=
  let node :=
    { node with
      role := .candidate
      currentTerm := (node.currentTerm + 1) % 2 ^ 32
      votedFor := toInt32 node.id
      votesReceived := 1
      leaderId := -1
      lastLeaderContactMs := now
      electionTimeoutMs := randomElectionTimeout node now }
  -- The event is logged after the section.
  let event := Event.startsElection node.currentTerm
  if majorityCount node ≤ toInt32 node.votesReceived then
    { node := (becomeLeaderLocked node).logEvent event, todo := [.broadcastAppend] }
  else
    { node := node.logEvent event
      sends := sendToAll node []
        (.rv node.currentTerm node.id (lastLogIndexLocked node) (lastLogTermLocked node)) }

def announcePeerToKnownNodes (node : RaftNode) (peerId : ℕ) (host : Text) (port exceptId : ℕ) :
    Effect :=
  { node, sends := sendToAll node [exceptId, peerId] (.peer peerId host port) }

def sendPeerCatalog (node : RaftNode) (host : Text) (port : ℕ) : Effect :=
  { node
    sends := ⟨host, port, .peer node.id node.host node.port⟩ ::
      node.peers.map fun p => ⟨host, port, .peer p.id p.host p.port⟩ }

def requestClusterJoin (node : RaftNode) : Effect :=
  { node, sends := sendToAll node [] (.join node.id node.host node.port) }

def announceLeaveToKnownNodes (node : RaftNode) (peerId : ℕ) : Effect :=
  { node, sends := sendToAll node [peerId] (.leave peerId) }

def requestClusterLeave (node : RaftNode) : Effect :=
  { node, sends := sendToAll node [] (.leave node.id) }

def handleJoin (node : RaftNode) (peerId : ℕ) (host : Text) (port : ℕ) : Effect :=
  let (addResult, node) := addPeerLocked node peerId host port
  { node
    todo := (if 0 < addResult then [.announcePeerToKnownNodes peerId host port peerId] else []) ++
      [.sendPeerCatalog host port] }

def handlePeerAnnounce (node : RaftNode) (peerId : ℕ) (host : Text) (port : ℕ) : Effect :=
  let (addResult, node) := addPeerLocked node peerId host port
  { node
    todo := if 0 < addResult then
      [.announcePeerToKnownNodes peerId host port peerId, .sendAppendToPeer peerId] else [] }

def handleLeave (node : RaftNode) (peerId : ℕ) : Effect :=
  let (removeResult, node) := removePeerLocked node peerId
  { node, todo := if 0 < removeResult then [.announceLeaveToKnownNodes peerId] else [] }

/-- The test of `handle_request_vote` that the vote is free and the candidate's log is up to
date. -/
def grantsVote (node : RaftNode) (term candidateId lastIndex lastTerm : ℕ) : Bool :=
  term = node.currentTerm && (node.votedFor < 0 || node.votedFor = toInt32 candidateId) &&
    (lastLogTermLocked node < lastTerm ||
      (lastTerm = lastLogTermLocked node && lastLogIndexLocked node ≤ lastIndex))

def handleRequestVote (now : ℕ) (node : RaftNode) (term candidateId lastIndex lastTerm : ℕ) :
    Effect :=
  let node := if node.currentTerm < term then becomeFollowerLocked now node term (-1) else node
  let grant := grantsVote node term candidateId lastIndex lastTerm
  let node :=
    if grant then { node with votedFor := toInt32 candidateId, lastLeaderContactMs := now }
    else node
  let node := node.logEvent (.voteRequest candidateId term grant.toNat)
  { node, sends := sendToPeer node candidateId (.rvr node.currentTerm node.id grant.toNat) }

def handleRequestVoteResponse (now : ℕ) (node : RaftNode) (term granted : ℕ) : Effect :=
  if node.currentTerm < term then { node := becomeFollowerLocked now node term (-1) }
  else if node.role = .candidate ∧ term = node.currentTerm ∧ granted ≠ 0 then
    let node := { node with votesReceived := (node.votesReceived + 1) % 2 ^ 32 }
    if majorityCount node ≤ toInt32 node.votesReceived then
      { node := becomeLeaderLocked node, todo := [.broadcastAppend] }
    else { node }
  else { node }

/-- The log after an entry whose preceding position has been checked: a conflicting suffix is cut
off, and the entry is appended when it comes next and the log is not full. -/
def storeEntry (log : List RaftLogEntry) (incoming : RaftLogEntry) :
    Option (List RaftLogEntry) := do
  let log ←
    if incoming.index ≤ log.length then do
      -- `log[incoming->index - 1u]`, which for index 0 is outside the array
      let entry ← if incoming.index = 0 then none else log[incoming.index - 1]?
      some (if entry.term ≠ incoming.term then log.take (incoming.index - 1) else log)
    else some log
  some (if incoming.index = log.length + 1 ∧ log.length < raftMaxLog then log ++ [incoming]
    else log)

/-- The check of `handle_append_entries` against the entry before the new one. -/
def prevMatches (node : RaftNode) (prevIndex prevTerm : ℕ) : Bool :=
  prevIndex = 0 || (prevIndex ≤ node.logCount &&
    node.log[prevIndex - 1]?.map (·.term) = some prevTerm)

/-- `none` when a position outside the log is read. -/
def handleAppendEntries (now : ℕ) (node : RaftNode) (term leaderId prevIndex prevTerm leaderCommit
    hasEntry : ℕ) (incoming : RaftLogEntry) : Option Effect := do
  let node :=
    if node.currentTerm ≤ term then becomeFollowerLocked now node term (toInt32 leaderId) else node
  if term = node.currentTerm ∧ prevMatches node prevIndex prevTerm then
    let log ← if hasEntry ≠ 0 then storeEntry node.log incoming else some node.log
    let node := { node with log }
    let node ←
      if node.commitIndex < leaderCommit then
        applyCommittedLocked { node with commitIndex := min leaderCommit node.logCount }
      else some node
    some { node, sends := sendToPeer node leaderId (.aer node.currentTerm node.id 1 node.logCount) }
  else
    some { node, sends := sendToPeer node leaderId (.aer node.currentTerm node.id 0 0) }

def handleAppendResponse (now : ℕ) (node : RaftNode) (term peerId success matchIndex : ℕ) :
    Option Effect :=
  if node.currentTerm < term then some { node := becomeFollowerLocked now node term (-1) }
  else if node.role = .leader ∧ term = node.currentTerm ∧ (findPeer node peerId).isSome then
    if success ≠ 0 then do
      let assign (p : Peer) : Peer :=
        { p with matchIndex := toInt32 matchIndex, nextIndex := toInt32 (toInt32 matchIndex + 1) }
      let node ← recomputeCommitLocked { node with peers := modifyPeer assign peerId node.peers }
      some { node }
    else
      let assign (p : Peer) : Peer :=
        { p with nextIndex := if 1 < p.nextIndex then p.nextIndex - 1 else p.nextIndex }
      some { node := { node with peers := modifyPeer assign peerId node.peers }
             todo := [.sendAppendToPeer peerId] }
  else some { node }

/-- `raft_submit_command` up to the end of its first section.  A NULL value is the empty text. -/
def raftSubmitCommand (env : Env) (node : RaftNode) (op : KvOp) (key value : Text) : Effect :=
  if (op ≠ .set ∧ op ≠ .del) ∨ !isValidToken key raftMaxKey then { node, ret := some (-1) }
  else if op = .set ∧ !isValidToken value raftMaxValue then { node, ret := some (-1) }
  else if node.role = .leader then
    { node := (appendEntryLocked node op key value).2, todo := [.broadcastAppend, .submitPeerless] }
  else if 0 ≤ node.leaderId ∧ (findPeer node node.leaderId.toNat).isSome ∧ env.connects then
    { node, sends := sendToPeer node node.leaderId.toNat (.cl node.id op key value), ret := some 0 }
  else { node, ret := some (-2) }

def submitPeerless (node : RaftNode) : Effect :=
  if node.peerCount = 0 then { node, todo := [.submitCommit] } else { node, ret := some 0 }

def submitCommit (node : RaftNode) : Option Effect := do
  let node ← applyCommittedLocked { node with commitIndex := node.logCount }
  some { node, ret := some 0 }

/-- One round of `ticker_loop` up to the election or the broadcast. -/
def tickerLoop (now : ℕ) (node : RaftNode) (lastHeartbeat : ℕ) : Effect :=
  let elapsed := (now + 2 ^ 64 - node.lastLeaderContactMs) % 2 ^ 64
  if node.role ≠ .leader ∧ node.electionTimeoutMs < elapsed then
    { node, todo := [.startElection, .tickerLoop lastHeartbeat] }
  else if node.role = .leader ∧ 250 < (now + 2 ^ 64 - lastHeartbeat) % 2 ^ 64 then
    { node, todo := [.broadcastAppend, .tickerMark] }
  else { node, todo := [.tickerLoop lastHeartbeat] }

/-- Runs one section; `none` when it reads outside an array. -/
def exec (env : Env) (sec : Section) (node : RaftNode) : Option Effect :=
  match sec with
  | .tickerLoop lastHeartbeat => some (tickerLoop env.now node lastHeartbeat)
  | .tickerMark => some { node, todo := [.tickerLoop env.now] }
  | .startElection => some (startElection env.now node)
  | .broadcastAppend => some (broadcastAppend node)
  | .sendAppendToPeer peerId => sendAppendToPeer node peerId
  | .handleRequestVote term candidateId lastIndex lastTerm =>
    some (handleRequestVote env.now node term candidateId lastIndex lastTerm)
  | .handleRequestVoteResponse term _ granted =>
    some (handleRequestVoteResponse env.now node term granted)
  | .handleAppendEntries term leaderId prevIndex prevTerm leaderCommit hasEntry incoming =>
    handleAppendEntries env.now node term leaderId prevIndex prevTerm leaderCommit hasEntry incoming
  | .handleAppendResponse term peerId success matchIndex =>
    handleAppendResponse env.now node term peerId success matchIndex
  | .raftSubmitCommand op key value => some (raftSubmitCommand env node op key value)
  | .handleClientForward _ op key value =>
    some { raftSubmitCommand env node op key value with ret := none }
  | .submitPeerless => some (submitPeerless node)
  | .submitCommit => submitCommit node
  | .handleJoin peerId host port => some (handleJoin node peerId host port)
  | .sendPeerCatalog host port => some (sendPeerCatalog node host port)
  | .handlePeerAnnounce peerId host port => some (handlePeerAnnounce node peerId host port)
  | .announcePeerToKnownNodes peerId host port exceptId =>
    some (announcePeerToKnownNodes node peerId host port exceptId)
  | .handleLeave peerId => some (handleLeave node peerId)
  | .announceLeaveToKnownNodes peerId => some (announceLeaveToKnownNodes node peerId)
  | .requestClusterJoin => some (requestClusterJoin node)
  | .requestClusterLeave => some (requestClusterLeave node)

/-- `raft_node_init` at time `now`. -/
def raftNodeInit (now : ℕ) (config : RaftConfig) : RaftNode :=
  let node : RaftNode :=
    { id := config.id, host := copyText 64 config.host, port := config.port, peers := config.peers
      role := .follower, currentTerm := 0, votedFor := -1, leaderId := -1, votesReceived := 0
      log := [], commitIndex := 0, lastApplied := 0, store := KvStore.zero
      lastLeaderContactMs := now, electionTimeoutMs := 0, eventLog := [] }
  { node with electionTimeoutMs := randomElectionTimeout node now }

end RaftKv
