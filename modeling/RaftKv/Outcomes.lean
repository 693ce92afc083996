import RaftKv.Codec
import RaftKv.Replay

/-! The outcomes of the handlers that have several: for each handler the effects that it can have,
and what it has found when it has them.  `exec_follows`: what a thread enters after a section. -/

namespace RaftKv

open Stdio

attribute [local irreducible] toInt32

variable {env : Env} {sec next : Section} {x : RaftNode} {e : Effect}

/-- The tests of a command with which `raft_submit_command` starts. -/
structure Checked (op : KvOp) (key value : Text) : Prop where
  key : ¬((op ≠ .set ∧ op ≠ .del) ∨ !isValidToken key raftMaxKey)
  value : ¬(op = .set ∧ !isValidToken value raftMaxValue)

theorem newline_of_checked {op : KvOp} {key value : Text} (h : Checked op key value)
    (hdel : op = .del → 10 ∉ value) : 10 ∉ key ∧ 10 ∉ value := by
  have hkey := h.key
  have hvalue := h.value
  rw [Bool.not_eq_true', not_or, Bool.not_eq_false] at hkey
  rw [Bool.not_eq_true', not_and, Bool.not_eq_false] at hvalue
  refine ⟨newline_of_isValidToken hkey.2, ?_⟩
  cases op with
  | none => exact absurd ⟨by decide, by decide⟩ hkey.1
  | set => exact newline_of_isValidToken (hvalue rfl)
  | del => exact hdel rfl

/-- The outcomes of `raft_submit_command`, in its first section. -/
inductive Submission (env : Env) (x : RaftNode) (op : KvOp) (key value : Text) : Effect → Prop
  | refused {r : ℤ} (fails : r ≠ 0) : Submission env x op key value { node := x, ret := some r }
  | leads (checked : Checked op key value) (lead : x.role = .leader) :
      Submission env x op key value
        { node := (appendEntryLocked x op key value).2
          todo := [.broadcastAppend, .submitPeerless] }
  | forwards (checked : Checked op key value) (follows : x.role ≠ .leader)
      (target : 0 ≤ x.leaderId ∧ (findPeer x x.leaderId.toNat).isSome ∧ env.connects) :
      Submission env x op key value
        { node := x
          sends := sendToPeer x x.leaderId.toNat (.cl x.id op key value)
          ret := some 0 }

theorem submission {op : KvOp} {key value : Text}
    (he : raftSubmitCommand env x op key value = e) : Submission env x op key value e := by
  subst he
  unfold raftSubmitCommand
  split
  · exact .refused (by decide)
  · rename_i hkey
    split
    · exact .refused (by decide)
    · rename_i hvalue
      split
      · rename_i lead
        exact .leads ⟨hkey, hvalue⟩ lead
      · rename_i follows
        split
        · rename_i target
          exact .forwards ⟨hkey, hvalue⟩ follows target
        · exact .refused (by decide)

theorem raftSubmitCommand_leader {op : KvOp} {key value : Text} (checked : Checked op key value)
    (lead : x.role = .leader) : raftSubmitCommand env x op key value =
      { node := (appendEntryLocked x op key value).2
        todo := [.broadcastAppend, .submitPeerless] } := by
  unfold raftSubmitCommand
  rw [if_neg checked.key, if_neg checked.value, if_pos lead]

theorem raftSubmitCommand_unchecked {op : KvOp} {key value : Text}
    (h : ¬Checked op key value) : raftSubmitCommand env x op key value =
      { node := x, ret := some (-1) } := by
  unfold raftSubmitCommand
  split
  · rfl
  · rename_i hkey
    split
    · rfl
    · rename_i hvalue
      exact absurd ⟨hkey, hvalue⟩ h

/-- The outcomes of `handle_request_vote_response`. -/
inductive VoteResponse (now : ℕ) (x : RaftNode) (term granted : ℕ) : Effect → Prop
  | observes (newer : x.currentTerm < term) :
      VoteResponse now x term granted { node := becomeFollowerLocked now x term (-1) }
  | ignores (h : ¬(x.role = .candidate ∧ term = x.currentTerm ∧ granted ≠ 0)) :
      VoteResponse now x term granted { node := x }
  | counts (h : x.role = .candidate ∧ term = x.currentTerm ∧ granted ≠ 0)
      (few : ¬majorityCount x ≤ toInt32 ((x.votesReceived + 1) % 2 ^ 32 : ℕ)) :
      VoteResponse now x term granted
        { node := { x with votesReceived := (x.votesReceived + 1) % 2 ^ 32 } }
  | wins (h : x.role = .candidate ∧ term = x.currentTerm ∧ granted ≠ 0)
      (enough : majorityCount x ≤ toInt32 ((x.votesReceived + 1) % 2 ^ 32 : ℕ)) :
      VoteResponse now x term granted
        { node := becomeLeaderLocked { x with votesReceived := (x.votesReceived + 1) % 2 ^ 32 }
          todo := [.broadcastAppend] }

theorem voteResponse {now t granted : ℕ} (he : handleRequestVoteResponse now x t granted = e) :
    VoteResponse now x t granted e := by
  subst he
  simp only [handleRequestVoteResponse]
  split
  · rename_i newer
    exact .observes newer
  · split
    · rename_i h
      split
      · rename_i enough
        exact .wins h enough
      · rename_i few
        exact .counts h few
    · rename_i h
      exact .ignores h

/-- The outcomes of `handle_append_response`. -/
inductive AppendResponse (now : ℕ) (x : RaftNode) (term id success m : ℕ) : Effect → Prop
  | observes (newer : x.currentTerm < term) :
      AppendResponse now x term id success m { node := becomeFollowerLocked now x term (-1) }
  | ignores (h : ¬(x.role = .leader ∧ term = x.currentTerm ∧ (findPeer x id).isSome)) :
      AppendResponse now x term id success m { node := x }
  | takes (h : x.role = .leader ∧ term = x.currentTerm ∧ (findPeer x id).isSome)
      (succeeds : success ≠ 0) (y : RaftNode)
      (recomputed : recomputeCommitLocked { x with
        peers := modifyPeer (fun p => { p with
          matchIndex := toInt32 m, nextIndex := toInt32 (toInt32 m + 1) }) id x.peers } = some y) :
      AppendResponse now x term id success m { node := y }
  | backs (h : x.role = .leader ∧ term = x.currentTerm ∧ (findPeer x id).isSome)
      (fails : success = 0) :
      AppendResponse now x term id success m
        { node := { x with
            peers := modifyPeer (fun p => { p with
              nextIndex := if 1 < p.nextIndex then p.nextIndex - 1 else p.nextIndex }) id x.peers }
          todo := [.sendAppendToPeer id] }

theorem appendResponse {now t id success m : ℕ}
    (he : handleAppendResponse now x t id success m = some e) :
    AppendResponse now x t id success m e := by
  unfold handleAppendResponse at he
  split at he
  · rename_i newer
    obtain rfl := Option.some.inj he
    exact .observes newer
  · split at he
    · rename_i h
      split at he
      · rename_i succeeds
        obtain ⟨y, hy, he⟩ := Option.bind_eq_some_iff.mp he
        obtain rfl := Option.some.inj he
        exact .takes h succeeds y hy
      · rename_i fails
        obtain rfl := Option.some.inj he
        exact .backs h (not_not.mp fails)
    · rename_i h
      obtain rfl := Option.some.inj he
      exact .ignores h

/-- The outcomes of `send_append_to_peer`. -/
inductive Transmission (x : RaftNode) (id : ℕ) : Effect → Prop
  | unknown (absent : findPeer x id = none) : Transmission x id { node := x }
  | sends (peer : Peer) (line : Line) (found : findPeer x id = some peer)
      (built : buildAppendLocked x peer = some line) :
      Transmission x id
        { node := { x with
            peers := modifyPeer (fun p => { p with nextIndex := nextIndexLocked x p }) id x.peers }
          sends := [⟨peer.host, peer.port, line⟩] }

theorem transmission {id : ℕ} (he : sendAppendToPeer x id = some e) : Transmission x id e := by
  unfold sendAppendToPeer at he
  split at he
  · rename_i absent
    obtain rfl := Option.some.inj he
    exact .unknown absent
  · rename_i peer found
    obtain ⟨line, built, he⟩ := Option.bind_eq_some_iff.mp he
    obtain rfl := Option.some.inj he
    exact .sends peer line found built

/-- The outcomes of a round of `ticker_loop`. -/
inductive TickerRound (now : ℕ) (x : RaftNode) (lastHeartbeat : ℕ) : Effect → Prop
  | stands (h : x.role ≠ .leader ∧
        x.electionTimeoutMs < (now + 2 ^ 64 - x.lastLeaderContactMs) % 2 ^ 64) :
      TickerRound now x lastHeartbeat
        { node := x, todo := [.startElection, .tickerLoop lastHeartbeat] }
  | beats (h : x.role = .leader ∧ 250 < (now + 2 ^ 64 - lastHeartbeat) % 2 ^ 64) :
      TickerRound now x lastHeartbeat { node := x, todo := [.broadcastAppend, .tickerMark] }
  | waits : TickerRound now x lastHeartbeat { node := x, todo := [.tickerLoop lastHeartbeat] }

theorem tickerRound {now lastHeartbeat : ℕ} (he : tickerLoop now x lastHeartbeat = e) :
    TickerRound now x lastHeartbeat e := by
  subst he
  simp only [tickerLoop]
  split
  · rename_i h
    exact .stands h
  · split
    · rename_i h
      exact .beats h
    · exact .waits

/-! ### The sections a thread enters next -/

/-- The sections that a thread enters after a section. -/
def Section.follows : Section → Section → Bool
  | .tickerLoop lastHeartbeat, next => next = .startElection ∨ next = .tickerLoop lastHeartbeat ∨
      next = .broadcastAppend ∨ next = .tickerMark
  | .tickerMark, .tickerLoop _ | .startElection, .broadcastAppend
  | .handleRequestVoteResponse .., .broadcastAppend | .broadcastAppend, .sendAppendToPeer _
  | .handleAppendResponse .., .sendAppendToPeer _ | .submitPeerless, .submitCommit => true
  | .raftSubmitCommand .., next | .handleClientForward .., next =>
    next = .broadcastAppend ∨ next = .submitPeerless
  | .handleJoin id host port, next => next = .announcePeerToKnownNodes id host port id ∨
      next = .sendPeerCatalog host port
  | .handlePeerAnnounce id host port, next => next = .announcePeerToKnownNodes id host port id ∨
      next = .sendAppendToPeer id
  | .handleLeave id, next => next = .announceLeaveToKnownNodes id
  | _, _ => false

theorem follows_raftSubmitCommand {op : KvOp} {key value : Text}
    (hn : next ∈ (raftSubmitCommand env x op key value).todo) :
    next = .broadcastAppend ∨ next = .submitPeerless := by
  generalize he : raftSubmitCommand env x op key value = e at hn
  cases submission he with
  | refused | forwards => cases hn
  | leads => simpa using hn

theorem exec_follows (he : exec env sec x = some e) (hn : next ∈ e.todo) :
    sec.follows next = true := by
  cases sec with
  | tickerLoop lastHeartbeat =>
    apply decide_eq_true
    cases tickerRound (Option.some.inj he) with
    | stands =>
      simp only [List.mem_cons, List.not_mem_nil, or_false] at hn
      exact hn.imp_right Or.inl
    | beats =>
      simp only [List.mem_cons, List.not_mem_nil, or_false] at hn
      exact Or.inr (Or.inr hn)
    | waits => exact Or.inr (Or.inl (List.mem_singleton.mp hn))
  | startElection =>
    obtain rfl := Option.some.inj he
    rw [startElection_eq] at hn
    split at hn
    · rw [List.mem_singleton.mp hn]
      rfl
    · cases hn
  | handleRequestVoteResponse t v granted =>
    cases voteResponse (Option.some.inj he) with
    | observes | ignores | counts => cases hn
    | wins =>
      rw [List.mem_singleton.mp hn]
      rfl
  | handleAppendEntries t l p pt lc has d =>
    rcases handleAppendEntries_cases rfl he with ⟨-, -, log, y, -, -, rfl⟩ | ⟨-, rfl⟩
    · cases hn
    · cases hn
  | handleAppendResponse t p success m =>
    cases appendResponse he with
    | observes | ignores | takes => cases hn
    | backs =>
      rw [List.mem_singleton.mp hn]
      rfl
  | sendAppendToPeer id =>
    cases transmission he with
    | unknown | sends => cases hn
  | broadcastAppend =>
    obtain rfl := Option.some.inj he
    obtain ⟨p, -, rfl⟩ := List.mem_map.mp hn
    rfl
  | raftSubmitCommand op key value | handleClientForward source op key value =>
    obtain rfl := Option.some.inj he
    exact decide_eq_true (follows_raftSubmitCommand hn)
  | submitPeerless =>
    obtain rfl := Option.some.inj he
    unfold submitPeerless at hn
    split at hn
    · rw [List.mem_singleton.mp hn]
      rfl
    · cases hn
  | submitCommit =>
    obtain ⟨y, -, he⟩ := Option.bind_eq_some_iff.mp he
    obtain rfl := Option.some.inj he
    cases hn
  | handleJoin id host port =>
    obtain rfl := Option.some.inj he
    apply decide_eq_true
    simp only [handleJoin, List.mem_append, List.mem_singleton] at hn
    split at hn
    · exact hn.imp_left List.mem_singleton.mp
    · exact Or.inr (hn.resolve_left List.not_mem_nil)
  | handlePeerAnnounce id host port =>
    obtain rfl := Option.some.inj he
    apply decide_eq_true
    simp only [handlePeerAnnounce] at hn
    split at hn
    · simpa using hn
    · cases hn
  | handleLeave id =>
    obtain rfl := Option.some.inj he
    apply decide_eq_true
    simp only [handleLeave] at hn
    split at hn
    · exact List.mem_singleton.mp hn
    · cases hn
  | tickerMark =>
    obtain rfl := Option.some.inj he
    rw [List.mem_singleton.mp hn]
    rfl
  | handleRequestVote _ _ _ _ | sendPeerCatalog _ _ | announcePeerToKnownNodes _ _ _ _
  | announceLeaveToKnownNodes _ | requestClusterJoin | requestClusterLeave =>
    obtain rfl := Option.some.inj he
    cases hn

/-- The sections that no line leads to: those of the ticker, of a client submission and of the
requests to join and to leave, and those that follow another section. -/
def Section.inner : Section → Bool
  | .handleRequestVote .. | .handleRequestVoteResponse .. | .handleAppendEntries ..
  | .handleAppendResponse .. | .handleClientForward .. | .handleJoin .. | .handlePeerAnnounce ..
  | .handleLeave _ => false
  | _ => true

/-- No handler of a line follows a section. -/
theorem Section.inner_of_follows (h : sec.follows next = true) :
    next.inner = true := by
  cases next with
  | handleRequestVote | handleRequestVoteResponse | handleAppendEntries | handleAppendResponse
  | handleClientForward | handleJoin | handlePeerAnnounce | handleLeave =>
    cases sec <;> simp [Section.follows] at h
  | _ => rfl

end RaftKv
