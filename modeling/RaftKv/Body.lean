import RaftKv.Sections

/-! What a section does to the body of its node, which is its own address, its peer table, its log,
and its commit index.  The handlers of membership lines are in `Table.lean`; no other code changes
who is in the table, or where.  The log is kept, or a leader appends a command, or an `AE` section
stores an entry. -/

namespace RaftKv

open Stdio

attribute [local irreducible] toInt32

/-- What a node tells others about a peer. -/
def Peer.contact (p : Peer) : ℕ × Text × ℕ := (p.id, p.host, p.port)

namespace RaftNode

def table (x : RaftNode) : List (ℕ × Text × ℕ) := x.peers.map Peer.contact

/-- The node's own address, and its table. -/
def card (x : RaftNode) : (ℕ × Text × ℕ) × List (ℕ × Text × ℕ) := ((x.id, x.host, x.port), x.table)

def body (x : RaftNode) : ((ℕ × Text × ℕ) × List (ℕ × Text × ℕ)) × List RaftLogEntry × ℕ :=
  (x.card, x.log, x.commitIndex)

theorem ids_eq (x : RaftNode) : (x.peers.map fun p => p.id) = x.table.map fun c => c.1 := by
  rw [table, List.map_map]
  rfl

theorem length_table (x : RaftNode) : x.table.length = x.peerCount := List.length_map _

end RaftNode

/-- The sections that call `add_peer_locked` or `remove_peer_locked`. -/
def Section.changesTable : Section → Bool
  | .handleJoin .. | .handlePeerAnnounce .. | .handleLeave _ => true
  | _ => false

/-- What becomes of the log: a leader appends a command, or a follower stores an entry. -/
inductive LogTurn (x : RaftNode) : Section → List RaftLogEntry → Prop
  | keep (sec : Section) : LogTurn x sec x.log
  | append {sec : Section} {op : KvOp} {key value : Text}
      (submits : sec = .raftSubmitCommand op key value ∨
        ∃ source, sec = .handleClientForward source op key value)
      (lead : x.role = .leader) (room : x.logCount < raftMaxLog) (checked : Checked op key value) :
      LogTurn x sec (x.log ++ [⟨x.logCount + 1, x.currentTerm, op, copyText raftMaxKey key,
        copyText raftMaxValue value⟩])
  | store {t l p pt lc has : ℕ} {d : RaftLogEntry} {log : List RaftLogEntry}
      (term : x.currentTerm ≤ t) (prev : prevMatches x p pt = true) (entry : has ≠ 0)
      (stored : storeEntry x.log d = some log) :
      LogTurn x (.handleAppendEntries t l p pt lc has d) log

variable {x y : RaftNode} {env : Env} {sec : Section} {e : Effect}

/-! ### Sections that keep the body -/

theorem body_becomeFollowerLocked (now : ℕ) (x : RaftNode) (t : ℕ) (l : ℤ) :
    (becomeFollowerLocked now x t l).body = x.body := by
  rcases Nat.lt_or_ge x.currentTerm t with hlt | hle
  · rw [becomeFollowerLocked_of_lt hlt]
    rfl
  · rw [becomeFollowerLocked_of_le hle]
    rfl

theorem body_applyCommittedLocked (h : applyCommittedLocked x = some y) : y.body = x.body := by
  rw [(applyCommittedLocked_eq h).1]
  rfl

theorem map_contact_modifyPeer (a b : Peer → ℤ) (id : ℕ) (ps : List Peer) :
    (modifyPeer (fun p => { p with nextIndex := a p, matchIndex := b p }) id ps).map Peer.contact =
      ps.map Peer.contact :=
  map_modifyPeer fun _ _ _ => rfl

theorem body_modifyPeer {a b : Peer → ℤ} {id : ℕ}
    (hy : y = { x with
      peers := modifyPeer (fun p => { p with nextIndex := a p, matchIndex := b p }) id x.peers }) :
    y.body = x.body := by
  have htable : y.table = x.table := by
    rw [hy, RaftNode.table, RaftNode.table]
    exact map_contact_modifyPeer a b id x.peers
  rw [RaftNode.body, RaftNode.card, htable, hy]
  rfl

theorem body_becomeLeaderLocked (x : RaftNode) : (becomeLeaderLocked x).body = x.body := by
  have htable : (becomeLeaderLocked x).table = x.table := by
    rw [RaftNode.table, RaftNode.table]
    simp only [becomeLeaderLocked, RaftNode.logEvent, List.map_map]
    rfl
  rw [RaftNode.body, RaftNode.card, htable]
  rfl

theorem body_candidate (now : ℕ) (x : RaftNode) : (candidate now x).body = x.body := by
  unfold candidate
  generalize toInt32 x.id = v, (x.currentTerm + 1) % 2 ^ 32 = t, randomElectionTimeout x now = r
  rfl

theorem body_startElection (now : ℕ) (x : RaftNode) : (startElection now x).node.body = x.body := by
  rw [startElection_eq]
  split
  · exact (body_becomeLeaderLocked _).trans (body_candidate now x)
  · exact body_candidate now x

theorem body_handleRequestVote (now : ℕ) (x : RaftNode) (t c li lt : ℕ) :
    (handleRequestVote now x t c li lt).node.body = x.body := by
  generalize hx : (if x.currentTerm < t then becomeFollowerLocked now x t (-1) else x) = x1
  have hbody : x1.body = x.body := by
    rw [← hx]
    split
    · exact body_becomeFollowerLocked now x t (-1)
    · rfl
  obtain ⟨v, c', e, hnode⟩ := @handleRequestVote_node now t c li lt x x1 hx
  rw [hnode]
  exact hbody

theorem body_handleRequestVoteResponse (now : ℕ) (x : RaftNode) (t granted : ℕ) :
    (handleRequestVoteResponse now x t granted).node.body = x.body := by
  generalize he : handleRequestVoteResponse now x t granted = e
  cases voteResponse he with
  | observes => exact body_becomeFollowerLocked now x t (-1)
  | ignores | counts => rfl
  | wins => exact body_becomeLeaderLocked _

theorem body_sendAppendToPeer {id : ℕ} (he : sendAppendToPeer x id = some e) :
    e.node.body = x.body := by
  cases transmission he with
  | unknown => rfl
  | sends => exact body_modifyPeer rfl

theorem node_tickerLoop (now : ℕ) (x : RaftNode) (lastHeartbeat : ℕ) :
    (tickerLoop now x lastHeartbeat).node = x := by
  generalize he : tickerLoop now x lastHeartbeat = e
  cases tickerRound he with
  | stands | beats | waits => rfl

theorem node_submitPeerless (x : RaftNode) : (submitPeerless x).node = x := by
  unfold submitPeerless
  split <;> rfl

/-! ### The log and the commit index -/

theorem body_recomputeCommitLocked {z : RaftNode} (h : recomputeCommitLocked z = some y)
    (hbody : z.body = x.body) :
    ∃ c, y.body = (x.card, x.log, c) ∧ (c = x.commitIndex ∨ c ≤ x.logCount) := by
  obtain ⟨c, a, store, events, rfl, hc⟩ := recomputeCommitLocked_shape h
  obtain ⟨hcard, hrest⟩ := Prod.mk.inj hbody
  obtain ⟨hlog, hcommit⟩ := Prod.mk.inj hrest
  refine ⟨c, ?_, ?_⟩
  · rw [← hcard, ← hlog]
    rfl
  · rwa [← hcommit, RaftNode.logCount, ← hlog]

theorem body_handleAppendResponse {now t p success m : ℕ}
    (he : handleAppendResponse now x t p success m = some e) :
    ∃ c, e.node.body = (x.card, x.log, c) ∧ (c = x.commitIndex ∨ c ≤ x.logCount) := by
  have kept : e.node.body = x.body →
      ∃ c, e.node.body = (x.card, x.log, c) ∧ (c = x.commitIndex ∨ c ≤ x.logCount) :=
    fun h => ⟨x.commitIndex, h, Or.inl rfl⟩
  cases appendResponse he with
  | observes => exact kept (body_becomeFollowerLocked now x t (-1))
  | ignores => exact kept rfl
  | takes h succeeds z recomputed =>
    exact body_recomputeCommitLocked recomputed (body_modifyPeer rfl)
  | backs => exact kept (body_modifyPeer rfl)

theorem body_handleAppendEntries {now t l p pt lc has : ℕ} {d : RaftLogEntry}
    (he : handleAppendEntries now x t l p pt lc has d = some e) :
    ∃ log c, e.node.body = (x.card, log, c) ∧
      LogTurn x (.handleAppendEntries t l p pt lc has d) log ∧
      (c = x.commitIndex ∨ c ≤ log.length) := by
  generalize hx : (if x.currentTerm ≤ t then becomeFollowerLocked now x t (toInt32 l)
    else x) = x1
  have hbody : x1.body = x.body := by
    rw [← hx]
    split
    · exact body_becomeFollowerLocked now x t (toInt32 l)
    · rfl
  obtain ⟨hcard, hrest⟩ := Prod.mk.inj hbody
  obtain ⟨hlog, hcommit⟩ := Prod.mk.inj hrest
  obtain ⟨-, -, -, -, hterm⟩ := acknowledged_fields hx
  rcases handleAppendEntries_cases hx he with ⟨h1, h2, log, z, hstore, happ, rfl⟩ | ⟨-, rfl⟩
  · have hturn : LogTurn x (.handleAppendEntries t l p pt lc has d) log := by
      rw [hlog] at hstore
      rw [prevMatches_congr hlog] at h2
      by_cases hhas : has = 0
      · rw [if_pos hhas, Option.elim_none] at hstore
        rw [← Option.some.inj hstore]
        exact .keep _
      · rw [if_neg hhas, Option.elim_some] at hstore
        exact .store (hterm.mp h1) h2 hhas hstore
    split at happ
    · refine ⟨log, min lc log.length, ?_, hturn, Or.inr (min_le_right _ _)⟩
      exact (body_applyCommittedLocked happ).trans
        (congrArg (fun k => (k, log, min lc log.length)) hcard)
    · refine ⟨log, x.commitIndex, ?_, hturn, Or.inl rfl⟩
      rw [← Option.some.inj happ]
      exact (congrArg (fun k => (k, log, x1.commitIndex)) hcard).trans
        (congrArg (fun c => (x.card, log, c)) hcommit)
  · exact ⟨x.log, x.commitIndex, hbody, .keep _, Or.inl rfl⟩

theorem body_raftSubmitCommand {op : KvOp} {key value : Text}
    (submits : sec = .raftSubmitCommand op key value ∨
      ∃ source, sec = .handleClientForward source op key value) :
    ∃ log, (raftSubmitCommand env x op key value).node.body = (x.card, log, x.commitIndex) ∧
      LogTurn x sec log := by
  generalize he : raftSubmitCommand env x op key value = e
  cases submission he with
  | refused | forwards => exact ⟨x.log, rfl, .keep _⟩
  | leads checked lead =>
    unfold appendEntryLocked
    split
    · exact ⟨x.log, rfl, .keep _⟩
    · rename_i room
      exact ⟨_, rfl, .append submits lead (by omega) checked⟩

theorem body_submitCommit (he : submitCommit x = some e) :
    e.node.body = (x.card, x.log, x.logCount) := by
  obtain ⟨z, hz, he⟩ := Option.bind_eq_some_iff.mp he
  rw [← Option.some.inj he]
  exact body_applyCommittedLocked hz

/-- A section that is no handler of a membership line keeps the table, and commits within the log
that it leaves. -/
theorem exec_body (he : exec env sec x = some e) (h : sec.changesTable = false) :
    ∃ log c, e.node.body = (x.card, log, c) ∧ LogTurn x sec log ∧
      (c = x.commitIndex ∨ c ≤ log.length) := by
  have kept : e.node.body = x.body → ∃ log c, e.node.body = (x.card, log, c) ∧
      LogTurn x sec log ∧ (c = x.commitIndex ∨ c ≤ log.length) :=
    fun h => ⟨x.log, x.commitIndex, h, .keep sec, Or.inl rfl⟩
  cases sec with
  | startElection =>
    obtain rfl := Option.some.inj he
    exact kept (body_startElection env.now x)
  | handleRequestVote t c li lt =>
    obtain rfl := Option.some.inj he
    exact kept (body_handleRequestVote env.now x t c li lt)
  | handleRequestVoteResponse t v granted =>
    obtain rfl := Option.some.inj he
    exact kept (body_handleRequestVoteResponse env.now x t granted)
  | handleAppendEntries t l p pt lc has d => exact body_handleAppendEntries he
  | handleAppendResponse t p success m =>
    obtain ⟨c, hbody, hc⟩ := body_handleAppendResponse he
    exact ⟨x.log, c, hbody, .keep _, hc⟩
  | sendAppendToPeer id => exact kept (body_sendAppendToPeer he)
  | raftSubmitCommand op key value =>
    obtain rfl := Option.some.inj he
    obtain ⟨log, hbody, hturn⟩ := @body_raftSubmitCommand x env _ op key value (Or.inl rfl)
    exact ⟨log, x.commitIndex, hbody, hturn, Or.inl rfl⟩
  | handleClientForward source op key value =>
    obtain rfl := Option.some.inj he
    obtain ⟨log, hbody, hturn⟩ :=
      @body_raftSubmitCommand x env _ op key value (Or.inr ⟨source, rfl⟩)
    exact ⟨log, x.commitIndex, hbody, hturn, Or.inl rfl⟩
  | tickerLoop lastHeartbeat =>
    obtain rfl := Option.some.inj he
    exact kept (congrArg RaftNode.body (node_tickerLoop env.now x lastHeartbeat))
  | submitPeerless =>
    obtain rfl := Option.some.inj he
    exact kept (congrArg RaftNode.body (node_submitPeerless x))
  | submitCommit => exact ⟨x.log, x.logCount, body_submitCommit he, .keep _, Or.inr le_rfl⟩
  | handleJoin _ _ _ | handlePeerAnnounce _ _ _ | handleLeave _ => cases h
  | tickerMark | broadcastAppend | sendPeerCatalog _ _ | announcePeerToKnownNodes _ _ _ _
  | announceLeaveToKnownNodes _ | requestClusterJoin | requestClusterLeave =>
    obtain rfl := Option.some.inj he
    exact kept rfl

/-- Only the handlers of membership lines change the table. -/
theorem exec_card (he : exec env sec x = some e) (h : sec.changesTable = false) :
    e.node.card = x.card := by
  obtain ⟨log, c, hbody, -⟩ := exec_body he h
  exact congrArg Prod.fst hbody

end RaftKv
