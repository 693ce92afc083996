import RaftKv.Shape

/-! What a section makes of a node that leads after it: the term, the log, the commit index, and the
peers with what the leader knows of them.  `exec_reign`: a section is one of a few such changes, and
every invariant of leaders is shown once for each. -/

namespace RaftKv

open Stdio

attribute [local irreducible] toInt32

/-- The term, the log, the commit index and the peers of a node. -/
def RaftNode.standing (x : RaftNode) : ℕ × List RaftLogEntry × ℕ × List Peer :=
  (x.currentTerm, x.log, x.commitIndex, x.peers)

/-- What `become_leader_locked` makes of a peer. -/
def Peer.reset (logCount : ℕ) (p : Peer) : Peer :=
  { p with nextIndex := toInt32 logCount + 1, matchIndex := 0 }

/-- The peer after a reply that succeeds. -/
def Peer.matched (m : ℕ) (p : Peer) : Peer :=
  { p with matchIndex := toInt32 m, nextIndex := toInt32 (toInt32 m + 1) }

/-- The peer after a reply that fails. -/
def Peer.backed (p : Peer) : Peer :=
  { p with nextIndex := if 1 < p.nextIndex then p.nextIndex - 1 else p.nextIndex }

/-- The standing of a node that leads after a section. -/
inductive Reign (x : RaftNode) : Section → ℕ × List RaftLogEntry × ℕ × List Peer → Prop
  | keeps (sec : Section) (lead : x.role = .leader) : Reign x sec x.standing
  | stands : Reign x .startElection
      ((x.currentTerm + 1) % 2 ^ 32, x.log, x.commitIndex, x.peers.map (Peer.reset x.logCount))
  | wins {t v granted : ℕ} (stood : x.role = .candidate) :
      Reign x (.handleRequestVoteResponse t v granted)
        (x.currentTerm, x.log, x.commitIndex, x.peers.map (Peer.reset x.logCount))
  | sends {id : ℕ} (lead : x.role = .leader) :
      Reign x (.sendAppendToPeer id) (x.currentTerm, x.log, x.commitIndex,
        modifyPeer (fun p => { p with nextIndex := nextIndexLocked x p }) id x.peers)
  | takes {id success m : ℕ} (lead : x.role = .leader) (known : (findPeer x id).isSome)
      (succeeds : success ≠ 0) {y : RaftNode} (taken : y =
        { x with peers := modifyPeer (Peer.matched m) id x.peers }) :
      Reign x (.handleAppendResponse x.currentTerm id success m)
        (x.currentTerm, x.log, (commitScan y x.logCount).getD x.commitIndex, y.peers)
  | backs {id m : ℕ} (lead : x.role = .leader) (known : (findPeer x id).isSome) :
      Reign x (.handleAppendResponse x.currentTerm id 0 m)
        (x.currentTerm, x.log, x.commitIndex, modifyPeer Peer.backed id x.peers)
  | appends {sec : Section} {op : KvOp} {key value : Text}
      (submits : sec = .raftSubmitCommand op key value ∨
        ∃ source, sec = .handleClientForward source op key value)
      (checked : Checked op key value) (lead : x.role = .leader) (room : x.logCount < raftMaxLog) :
      Reign x sec (x.currentTerm, x.log ++ [⟨x.logCount + 1, x.currentTerm, op,
        copyText raftMaxKey key, copyText raftMaxValue value⟩], x.commitIndex, x.peers)
  | commits (lead : x.role = .leader) :
      Reign x .submitCommit (x.currentTerm, x.log, x.logCount, x.peers)
  | admits {sec : Section} {id port : ℕ} {host : Text} {r : ℤ} {y : RaftNode}
      (joins : sec = .handleJoin id host port ∨ sec = .handlePeerAnnounce id host port)
      (lead : x.role = .leader) (admission : Admission x id host port r y) :
      Reign x sec (x.currentTerm, x.log, x.commitIndex, y.peers)
  | removes {id : ℕ} {r : ℤ} {y : RaftNode} (lead : x.role = .leader)
      (removal : Removal x id r y) :
      Reign x (.handleLeave id) (x.currentTerm, x.log, x.commitIndex, y.peers)

variable {x y : RaftNode} {env : Env} {sec : Section} {e : Effect}

/-! ### The parts of a section -/

theorem standing_eq {t c : ℕ} {log : List RaftLogEntry} {ps : List Peer} :
    y.standing = (t, log, c, ps) ↔
      y.currentTerm = t ∧ y.log = log ∧ y.commitIndex = c ∧ y.peers = ps := by
  simp [RaftNode.standing]

theorem standing_applyCommittedLocked (h : applyCommittedLocked x = some y) :
    y.standing = x.standing ∧ y.role = x.role := by
  rw [(applyCommittedLocked_eq h).1]
  exact ⟨rfl, rfl⟩

/-- A leader recomputes its commit index. -/
theorem standing_recomputeCommitLocked (h : recomputeCommitLocked x = some y)
    (lead : x.role = .leader) : y.standing =
      (x.currentTerm, x.log, (commitScan x x.logCount).getD x.commitIndex, x.peers) := by
  unfold recomputeCommitLocked at h
  rw [if_neg (not_not.mpr lead)] at h
  split at h
  · rename_i index hscan
    rw [hscan, (standing_applyCommittedLocked h).1]
    rfl
  · rename_i hscan
    rw [hscan, ← Option.some.inj h]
    rfl

theorem standing_candidate (now : ℕ) (x : RaftNode) : (candidate now x).standing =
    ((x.currentTerm + 1) % 2 ^ 32, x.log, x.commitIndex, x.peers) := by
  unfold candidate
  generalize toInt32 x.id = v, randomElectionTimeout x now = r
  rfl

theorem standing_becomeLeaderLocked {t c : ℕ} {log : List RaftLogEntry} {ps : List Peer}
    (h : x.standing = (t, log, c, ps)) :
    (becomeLeaderLocked x).standing = (t, log, c, ps.map (Peer.reset log.length)) := by
  obtain ⟨rfl, rfl, rfl, rfl⟩ := standing_eq.mp h
  rfl

theorem reign_startElection {now : ℕ} (lead : (startElection now x).node.role = .leader) :
    Reign x .startElection (startElection now x).node.standing := by
  rw [startElection_eq] at lead ⊢
  split at lead
  · rename_i alone
    rw [if_pos alone]
    have hstanding := standing_becomeLeaderLocked (standing_candidate now x)
    exact hstanding ▸ .stands
  · cases lead

theorem reign_handleRequestVote {now t c li lt : ℕ}
    (lead : (handleRequestVote now x t c li lt).node.role = .leader) :
    Reign x (.handleRequestVote t c li lt) (handleRequestVote now x t c li lt).node.standing := by
  generalize hx : (if x.currentTerm < t then becomeFollowerLocked now x t (-1) else x) = x1
  obtain ⟨v, c', e, hnode⟩ := @handleRequestVote_node now t c li lt x x1 hx
  rw [hnode] at lead ⊢
  split at hx
  · subst hx
    cases (becomeFollowerLocked_fields now x t (-1)).1.symm.trans lead
  · subst hx
    exact .keeps _ lead

theorem reign_handleRequestVoteResponse {now t v granted : ℕ}
    (he : handleRequestVoteResponse now x t granted = e) (lead : e.node.role = .leader) :
    Reign x (.handleRequestVoteResponse t v granted) e.node.standing := by
  cases voteResponse he with
  | observes => cases (becomeFollowerLocked_fields now x t (-1)).1.symm.trans lead
  | ignores => exact .keeps _ lead
  | counts h => cases h.1.symm.trans lead
  | wins h =>
    rw [@standing_becomeLeaderLocked { x with
      votesReceived := (x.votesReceived + 1) % 2 ^ 32 } _ _ _ _ rfl]
    exact .wins h.1

theorem reign_handleAppendEntries {now t l p pt lc has : ℕ} {d : RaftLogEntry}
    (he : handleAppendEntries now x t l p pt lc has d = some e) (lead : e.node.role = .leader) :
    Reign x (.handleAppendEntries t l p pt lc has d) e.node.standing := by
  rcases Nat.lt_or_ge t x.currentTerm with older | accepts
  · have hx : (if x.currentTerm ≤ t then becomeFollowerLocked now x t (toInt32 l) else x) = x :=
      if_neg (not_le.mpr older)
    rcases handleAppendEntries_cases hx he with ⟨hterm, -⟩ | ⟨-, rfl⟩
    · exact absurd hterm older.ne
    · exact .keeps _ lead
  · cases (handleAppendEntries_seat he accepts).2.symm.trans lead

theorem reign_handleAppendResponse {now t id success m : ℕ}
    (he : handleAppendResponse now x t id success m = some e) (lead : e.node.role = .leader) :
    Reign x (.handleAppendResponse t id success m) e.node.standing := by
  cases appendResponse he with
  | observes => cases (becomeFollowerLocked_fields now x t (-1)).1.symm.trans lead
  | ignores => exact .keeps _ lead
  | takes h succeeds z recomputed =>
    obtain ⟨hlead, rfl, known⟩ := h
    rw [standing_recomputeCommitLocked recomputed hlead]
    exact .takes hlead known succeeds rfl
  | backs h fails =>
    obtain ⟨hlead, rfl, known⟩ := h
    subst fails
    exact .backs hlead known

theorem reign_sendAppendToPeer {id : ℕ} (he : sendAppendToPeer x id = some e)
    (lead : e.node.role = .leader) : Reign x (.sendAppendToPeer id) e.node.standing := by
  cases transmission he with
  | unknown => exact .keeps _ lead
  | sends => exact .sends lead

theorem reign_raftSubmitCommand {op : KvOp} {key value : Text}
    (submits : sec = .raftSubmitCommand op key value ∨
      ∃ source, sec = .handleClientForward source op key value)
    (lead : (raftSubmitCommand env x op key value).node.role = .leader) :
    Reign x sec (raftSubmitCommand env x op key value).node.standing := by
  generalize he : raftSubmitCommand env x op key value = e at lead
  cases submission he with
  | refused | forwards => exact .keeps _ lead
  | leads checked hlead =>
    unfold appendEntryLocked
    split
    · exact .keeps _ hlead
    · rename_i room
      exact .appends submits checked hlead (not_le.mp room)

theorem reign_admission {id port : ℕ} {host : Text} {r : ℤ}
    (joins : sec = .handleJoin id host port ∨ sec = .handlePeerAnnounce id host port)
    (ha : Admission x id host port r y) (lead : y.role = .leader) : Reign x sec y.standing := by
  obtain ⟨hstanding, hrole⟩ : y.standing = (x.currentTerm, x.log, x.commitIndex, y.peers) ∧
      y.role = x.role := by
    cases ha <;> exact ⟨rfl, rfl⟩
  rw [hstanding]
  exact .admits joins (hrole.symm.trans lead) ha

theorem reign_removal {id : ℕ} {r : ℤ} (hr : Removal x id r y) (lead : y.role = .leader) :
    Reign x (.handleLeave id) y.standing := by
  obtain ⟨hstanding, hrole⟩ : y.standing = (x.currentTerm, x.log, x.commitIndex, y.peers) ∧
      y.role = x.role := by
    cases hr <;> exact ⟨rfl, rfl⟩
  rw [hstanding]
  exact .removes (hrole.symm.trans lead) hr

/-- Every section that leaves a leader. -/
theorem exec_reign (he : exec env sec x = some e) (lead : e.node.role = .leader) :
    Reign x sec e.node.standing := by
  cases sec with
  | startElection =>
    obtain rfl := Option.some.inj he
    exact reign_startElection lead
  | handleRequestVote t c li lt =>
    obtain rfl := Option.some.inj he
    exact reign_handleRequestVote lead
  | handleRequestVoteResponse t v granted =>
    exact reign_handleRequestVoteResponse (Option.some.inj he) lead
  | handleAppendEntries t l p pt lc has d => exact reign_handleAppendEntries he lead
  | handleAppendResponse t id success m => exact reign_handleAppendResponse he lead
  | sendAppendToPeer id => exact reign_sendAppendToPeer he lead
  | raftSubmitCommand op key value =>
    obtain rfl := Option.some.inj he
    exact reign_raftSubmitCommand (Or.inl rfl) lead
  | handleClientForward source op key value =>
    obtain rfl := Option.some.inj he
    exact reign_raftSubmitCommand (Or.inr ⟨source, rfl⟩) lead
  | submitCommit =>
    obtain ⟨z, hz, he⟩ := Option.bind_eq_some_iff.mp he
    obtain rfl := Option.some.inj he
    obtain ⟨hstanding, hrole⟩ := standing_applyCommittedLocked hz
    dsimp only at lead ⊢
    rw [hstanding]
    exact .commits (hrole.symm.trans lead)
  | handleJoin id host port =>
    obtain rfl := Option.some.inj he
    exact reign_admission (Or.inl rfl) (admission x id host port) lead
  | handlePeerAnnounce id host port =>
    obtain rfl := Option.some.inj he
    exact reign_admission (Or.inr rfl) (admission x id host port) lead
  | handleLeave id =>
    obtain rfl := Option.some.inj he
    exact reign_removal (removal x id) lead
  | tickerLoop lastHeartbeat =>
    obtain rfl := Option.some.inj he
    have hnode := node_tickerLoop env.now x lastHeartbeat
    rw [hnode] at lead ⊢
    exact .keeps _ lead
  | submitPeerless =>
    obtain rfl := Option.some.inj he
    rw [node_submitPeerless] at lead ⊢
    exact .keeps _ lead
  | tickerMark | broadcastAppend | sendPeerCatalog _ _ | announcePeerToKnownNodes _ _ _ _
  | announceLeaveToKnownNodes _ | requestClusterJoin | requestClusterLeave =>
    obtain rfl := Option.some.inj he
    exact .keeps _ lead

end RaftKv
