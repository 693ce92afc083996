import RaftKv.Outcomes

/-! What a section can do.  `exec_turn`: what becomes of the seat of its node, which is the role,
the term, the vote, and the votes cast so far.  `exec_sends`: the lines it sends.  `exec_todo`: when
its thread goes on to replicate. -/

namespace RaftKv

open Stdio

attribute [local irreducible] toInt32

structure Seat where
  id : ℕ
  role : RaftRole
  term : ℕ
  vote : ℤ
  /-- the term and the candidate of every vote, in order -/
  casts : List (ℕ × ℕ)

/-- The vote that node `id` casts when it logs an event: one that it grants, or its own. -/
def Event.cast (id : ℕ) : Event → Option (ℕ × ℕ)
  | .voteRequest candidateId term 1 => some (term, candidateId)
  | .startsElection term => some (term, id)
  | _ => none

namespace RaftNode

def casts (node : RaftNode) : List (ℕ × ℕ) := node.eventLog.filterMap (Event.cast node.id)

def seat (node : RaftNode) : Seat :=
  ⟨node.id, node.role, node.currentTerm, node.votedFor, node.casts⟩

end RaftNode

/-- The term of the line that a section handles. -/
def Section.term : Section → Option ℕ
  | .handleRequestVote term .. | .handleRequestVoteResponse term .. | .handleAppendEntries term ..
  | .handleAppendResponse term .. => some term
  | _ => none

/-- The vote of `x` is free for candidate `c` in term `t`. -/
def VoteFree (x : RaftNode) (t c : ℕ) : Prop :=
  x.currentTerm < t ∨ (x.currentTerm = t ∧ (x.votedFor < 0 ∨ x.votedFor = toInt32 c))

/-- A log that ends at `lastIndex` with term `lastTerm` is up to date for `x`. -/
def UpToDateFor (x : RaftNode) (lastIndex lastTerm : ℕ) : Prop :=
  lastLogTermLocked x < lastTerm ∨
    (lastTerm = lastLogTermLocked x ∧ lastLogIndexLocked x ≤ lastIndex)

/-- The seat of a node after a section. -/
inductive Turn (x : RaftNode) : Section → Seat → Prop
  | stay (sec : Section) : Turn x sec x.seat
  | follow {sec : Section} {t : ℕ} (term : sec.term = some t) (newer : x.currentTerm < t) :
      Turn x sec ⟨x.id, .follower, t, -1, x.casts⟩
  | yield {l p pt lc has : ℕ} {d : RaftLogEntry} :
      Turn x (.handleAppendEntries x.currentTerm l p pt lc has d)
        ⟨x.id, .follower, x.currentTerm, x.votedFor, x.casts⟩
  | grant {t c li lt : ℕ} (free : VoteFree x t c) (upToDate : UpToDateFor x li lt) :
      Turn x (.handleRequestVote t c li lt)
        ⟨x.id, if x.currentTerm < t then .follower else x.role, t, toInt32 c,
          x.casts ++ [(t, c)]⟩
  | stand {t : ℕ} (next : t = (x.currentTerm + 1) % 2 ^ 32) :
      Turn x .startElection
        ⟨x.id, if majorityCount x ≤ 1 then .leader else .candidate, t, toInt32 x.id,
          x.casts ++ [(t, x.id)]⟩
  | win {t v granted : ℕ} :
      Turn x (.handleRequestVoteResponse t v granted)
        ⟨x.id, .leader, x.currentTerm, x.votedFor, x.casts⟩
  | reopen {p : ℕ} (known : (findPeer x p).isSome) (voted : x.votedFor = toInt32 p) :
      Turn x (.handleLeave p) ⟨x.id, x.role, x.currentTerm, -1, x.casts⟩

/-- A term that does not wrap does not go down. -/
theorem Turn.term_le {x : RaftNode} {sec : Section} {y : Seat} (turn : Turn x sec y)
    (below : x.currentTerm < 2 ^ 32 - 1) : x.currentTerm ≤ y.term := by
  cases turn with
  | stay | yield | win | reopen => exact le_rfl
  | follow term newer => exact newer.le
  | grant free upToDate =>
    rcases free with hlt | ⟨heq, -⟩
    · exact hlt.le
    · exact heq.le
  | @stand t next =>
    change x.currentTerm ≤ t
    omega

/-! ### The parts of a section -/

@[simp] theorem Event.cast_granted (id c t : ℕ) :
    (Event.voteRequest c t 1).cast id = some (t, c) := rfl

@[simp] theorem Event.cast_refused (id c t : ℕ) : (Event.voteRequest c t 0).cast id = none := rfl

theorem seat_logEvent (x : RaftNode) (e : Event) :
    (x.logEvent e).seat =
      ⟨x.id, x.role, x.currentTerm, x.votedFor, x.casts ++ (e.cast x.id).toList⟩ := by
  cases h : e.cast x.id <;> simp [RaftNode.seat, RaftNode.casts, RaftNode.logEvent, h]

theorem seat_logEvent_of_none {x : RaftNode} {e : Event} (h : e.cast x.id = none) :
    (x.logEvent e).seat = x.seat := by
  rw [seat_logEvent, h, Option.toList_none, List.append_nil]
  rfl

theorem seat_becomeFollowerLocked (now : ℕ) (x : RaftNode) (t : ℕ) (l : ℤ) :
    (becomeFollowerLocked now x t l).seat =
      if x.currentTerm < t then ⟨x.id, .follower, t, -1, x.casts⟩
      else ⟨x.id, .follower, x.currentTerm, x.votedFor, x.casts⟩ := by
  split
  · rename_i hlt
    rw [becomeFollowerLocked_of_lt hlt]
    rfl
  · rename_i hle
    rw [becomeFollowerLocked_of_le (Nat.not_lt.mp hle)]
    rfl

theorem filterMap_cast_appliedFrom (id slot : ℕ) (es : List RaftLogEntry) :
    (appliedFrom slot es).filterMap (Event.cast id) = [] := by
  induction es generalizing slot with
  | nil => rfl
  | cons e es ih =>
    rw [appliedFrom, List.filterMap_append, ih, List.append_nil]
    split <;> rfl

theorem seat_replayed (x : RaftNode) (es : List RaftLogEntry) : (x.replayed es).seat = x.seat := by
  simp [RaftNode.seat, RaftNode.casts, RaftNode.replayed, filterMap_cast_appliedFrom]

theorem seat_applyCommittedLocked {x y : RaftNode} (h : applyCommittedLocked x = some y) :
    y.seat = x.seat := by
  rw [(applyCommittedLocked_eq h).1, seat_replayed]

theorem seat_recomputeCommitLocked {x y : RaftNode} (h : recomputeCommitLocked x = some y) :
    y.seat = x.seat := by
  unfold recomputeCommitLocked at h
  split at h
  · obtain rfl := Option.some.inj h
    rfl
  · split at h
    · rw [seat_applyCommittedLocked h, seat_logEvent_of_none rfl]
      rfl
    · obtain rfl := Option.some.inj h
      rfl

theorem seat_becomeLeaderLocked (x : RaftNode) :
    (becomeLeaderLocked x).seat = ⟨x.id, .leader, x.currentTerm, x.votedFor, x.casts⟩ := by
  unfold becomeLeaderLocked
  rw [seat_logEvent_of_none rfl]
  rfl

theorem seat_addPeerLocked (x : RaftNode) (id : ℕ) (host : Text) (port : ℕ) :
    (addPeerLocked x id host port).2.seat = x.seat := by
  unfold addPeerLocked
  split
  · rfl
  · split
    · rfl
    · split <;> rfl

theorem turn_removePeerLocked (x : RaftNode) (id : ℕ) :
    Turn x (.handleLeave id) (removePeerLocked x id).2.seat := by
  unfold removePeerLocked
  split
  · exact .stay _
  · split
    · rename_i known
      by_cases hv : x.votedFor = toInt32 id
      · simp only [hv, if_true]
        split <;> exact .reopen known hv
      · simp only [hv, if_false]
        split <;> exact .stay _
    · exact .stay _

theorem seat_raftSubmitCommand (env : Env) (x : RaftNode) (op : KvOp) (key value : Text) :
    (raftSubmitCommand env x op key value).node.seat = x.seat := by
  generalize he : raftSubmitCommand env x op key value = e
  cases submission he with
  | refused | forwards => rfl
  | leads =>
    unfold appendEntryLocked
    split <;> rfl

/-! ### The sections -/

theorem turn_startElection (now : ℕ) (x : RaftNode) :
    Turn x .startElection (startElection now x).node.seat := by
  have logged : ∀ {y : RaftNode} {r : RaftRole} {t : ℕ},
      y.seat = ⟨x.id, r, t, toInt32 x.id, x.casts⟩ →
      (y.logEvent (.startsElection t)).seat =
        ⟨x.id, r, t, toInt32 x.id, x.casts ++ [(t, x.id)]⟩ := by
    intro y r t hy
    obtain ⟨h1, h2, h3, h4, h5⟩ := Seat.mk.inj hy
    rw [seat_logEvent, h1, h2, h3, h4, h5]
    rfl
  have hstand := Turn.stand (x := x) rfl
  have hone : toInt32 (1 : ℕ) = 1 := toInt32_of_lt (by norm_num)
  rw [startElection_eq, hone]
  split
  · rename_i hmaj
    rw [@logged _ _ ((x.currentTerm + 1) % 2 ^ 32) (seat_becomeLeaderLocked (candidate now x))]
    rwa [if_pos hmaj] at hstand
  · rename_i hmaj
    rw [@logged (candidate now x) _ ((x.currentTerm + 1) % 2 ^ 32) rfl]
    rwa [if_neg hmaj] at hstand

/-- The seat after `become_follower_locked`, where it is called for a newer term only. -/
theorem turn_observe {now t : ℕ} {x y : RaftNode} {l : ℤ} {sec : Section}
    (term : sec.term = some t)
    (hy : (if x.currentTerm < t then becomeFollowerLocked now x t l else x) = y) :
    Turn x sec y.seat := by
  subst hy
  split
  · rename_i hlt
    rw [seat_becomeFollowerLocked, if_pos hlt]
    exact .follow term hlt
  · exact .stay sec

theorem seat_grant (x : RaftNode) (v : ℤ) (now c t : ℕ) :
    (RaftNode.logEvent { x with votedFor := v, lastLeaderContactMs := now }
      (.voteRequest c t 1)).seat = ⟨x.id, x.role, x.currentTerm, v, x.casts ++ [(t, c)]⟩ := by
  rw [seat_logEvent, Event.cast_granted]
  rfl

theorem turn_handleRequestVote (now : ℕ) (x : RaftNode) (t c li lt : ℕ) :
    Turn x (.handleRequestVote t c li lt) (handleRequestVote now x t c li lt).node.seat := by
  generalize hx : (if x.currentTerm < t then becomeFollowerLocked now x t (-1) else x) = x1
  rw [handleRequestVote_eq hx]
  split
  · rename_i hgrant
    simp only [grantsVote, Bool.and_eq_true, Bool.or_eq_true, decide_eq_true_eq] at hgrant
    obtain ⟨⟨hterm, hfree⟩, hlast⟩ := hgrant
    have hlog : x1.log = x.log := by
      rw [← hx]
      split
      · exact (becomeFollowerLocked_fields now x t (-1)).2.2
      · rfl
    have upToDate : UpToDateFor x li lt := by
      simpa only [UpToDateFor, lastLogTermLocked, lastLogIndexLocked, RaftNode.logCount, hlog]
        using hlast
    have hseat : x1.id = x.id ∧ x1.role = (if x.currentTerm < t then .follower else x.role) ∧
        x1.casts = x.casts ∧ VoteFree x t c := by
      split at hx
      · rename_i hlt
        have h := seat_becomeFollowerLocked now x t (-1)
        rw [hx, if_pos hlt] at h
        obtain ⟨h1, h2, -, -, h5⟩ := Seat.mk.inj h
        exact ⟨h1, by rw [if_pos hlt, h2], h5, Or.inl hlt⟩
      · rename_i hlt
        subst hx
        exact ⟨rfl, by rw [if_neg hlt], rfl, Or.inr ⟨hterm.symm, hfree⟩⟩
    obtain ⟨hid, hrole, hcasts, free⟩ := hseat
    rw [seat_grant, hid, hrole, hcasts, ← hterm]
    exact .grant free upToDate
  · rw [seat_logEvent_of_none (Event.cast_refused _ _ _)]
    exact turn_observe rfl hx

theorem turn_handleRequestVoteResponse (now : ℕ) (x : RaftNode) (t v granted : ℕ) :
    Turn x (.handleRequestVoteResponse t v granted)
      (handleRequestVoteResponse now x t granted).node.seat := by
  generalize he : handleRequestVoteResponse now x t granted = e
  cases voteResponse he with
  | observes newer =>
    rw [seat_becomeFollowerLocked, if_pos newer]
    exact .follow rfl newer
  | ignores | counts => exact .stay _
  | wins =>
    rw [seat_becomeLeaderLocked]
    exact .win

theorem turn_handleAppendEntries {now t l p pt lc has : ℕ} {x : RaftNode} {d : RaftLogEntry}
    {e : Effect} (he : handleAppendEntries now x t l p pt lc has d = some e) :
    Turn x (.handleAppendEntries t l p pt lc has d) e.node.seat := by
  generalize hx : (if x.currentTerm ≤ t then becomeFollowerLocked now x t (toInt32 l)
    else x) = x1
  have hturn : Turn x (.handleAppendEntries t l p pt lc has d) x1.seat := by
    rw [← hx]
    split
    · rename_i hle
      rw [seat_becomeFollowerLocked]
      split
      · rename_i hlt
        exact .follow rfl hlt
      · rename_i hge
        obtain rfl : x.currentTerm = t := by omega
        exact .yield
    · exact .stay _
  rcases handleAppendEntries_cases hx he with ⟨-, -, log, x2, -, happ, rfl⟩ | ⟨-, rfl⟩
  · have hseat : x2.seat = x1.seat := by
      split at happ
      · rw [seat_applyCommittedLocked happ]
        rfl
      · obtain rfl := Option.some.inj happ
        rfl
    rw [hseat]
    exact hturn
  · exact hturn

theorem turn_handleAppendResponse {now t p success m : ℕ} {x : RaftNode} {e : Effect}
    (he : handleAppendResponse now x t p success m = some e) :
    Turn x (.handleAppendResponse t p success m) e.node.seat := by
  cases appendResponse he with
  | observes newer =>
    rw [seat_becomeFollowerLocked, if_pos newer]
    exact .follow rfl newer
  | ignores | backs => exact .stay _
  | takes h succeeds y recomputed =>
    rw [seat_recomputeCommitLocked recomputed]
    exact .stay _

theorem seat_sendAppendToPeer {x : RaftNode} {id : ℕ} {e : Effect}
    (he : sendAppendToPeer x id = some e) : e.node.seat = x.seat := by
  cases transmission he with
  | unknown | sends => rfl

theorem seat_tickerLoop (now : ℕ) (x : RaftNode) (lastHeartbeat : ℕ) :
    (tickerLoop now x lastHeartbeat).node.seat = x.seat := by
  generalize he : tickerLoop now x lastHeartbeat = e
  cases tickerRound he with
  | stands | beats | waits => rfl

/-- Every section makes a turn. -/
theorem exec_turn {env : Env} {sec : Section} {x : RaftNode} {e : Effect}
    (he : exec env sec x = some e) : Turn x sec e.node.seat := by
  have quiet : e.node.seat = x.seat → Turn x sec e.node.seat := by
    intro h
    rw [h]
    exact .stay sec
  cases sec with
  | startElection =>
    obtain rfl := Option.some.inj he
    exact turn_startElection env.now x
  | handleRequestVote t c li lt =>
    obtain rfl := Option.some.inj he
    exact turn_handleRequestVote env.now x t c li lt
  | handleRequestVoteResponse t v granted =>
    obtain rfl := Option.some.inj he
    exact turn_handleRequestVoteResponse env.now x t v granted
  | handleAppendEntries t l p pt lc has d => exact turn_handleAppendEntries he
  | handleAppendResponse t p success m => exact turn_handleAppendResponse he
  | handleLeave p =>
    obtain rfl := Option.some.inj he
    exact turn_removePeerLocked x p
  | sendAppendToPeer id => exact quiet (seat_sendAppendToPeer he)
  | tickerLoop lastHeartbeat =>
    obtain rfl := Option.some.inj he
    exact quiet (seat_tickerLoop env.now x lastHeartbeat)
  | raftSubmitCommand op key value =>
    obtain rfl := Option.some.inj he
    exact quiet (seat_raftSubmitCommand env x op key value)
  | handleClientForward source op key value =>
    obtain rfl := Option.some.inj he
    exact quiet (seat_raftSubmitCommand env x op key value)
  | submitPeerless =>
    obtain rfl := Option.some.inj he
    apply quiet
    unfold submitPeerless
    split <;> rfl
  | submitCommit =>
    obtain ⟨y, hy, he⟩ := Option.bind_eq_some_iff.mp he
    obtain rfl := Option.some.inj he
    apply quiet
    rw [seat_applyCommittedLocked hy]
    rfl
  | handleJoin id host port =>
    obtain rfl := Option.some.inj he
    exact quiet (seat_addPeerLocked x id host port)
  | handlePeerAnnounce id host port =>
    obtain rfl := Option.some.inj he
    exact quiet (seat_addPeerLocked x id host port)
  | tickerMark | broadcastAppend | sendPeerCatalog _ _ | announcePeerToKnownNodes _ _ _ _
  | announceLeaveToKnownNodes _ | requestClusterJoin | requestClusterLeave =>
    obtain rfl := Option.some.inj he
    exact quiet rfl

/-! ### The lines it sends -/

/-- Whether a section sends lines of this kind. -/
def Section.sends : Section → Line → Bool
  | .startElection, .rv .. | .handleRequestVote .., .rvr .. | .sendAppendToPeer _, .ae ..
  | .handleAppendEntries .., .aer .. | .raftSubmitCommand .., .cl ..
  | .handleClientForward .., .cl .. | .sendPeerCatalog .., .peer ..
  | .announcePeerToKnownNodes .., .peer .. | .announceLeaveToKnownNodes _, .leave _
  | .requestClusterJoin, .join .. | .requestClusterLeave, .leave _ => true
  | _, _ => false

theorem line_sendToPeer {x : RaftNode} {id : ℕ} {line : Line} {p : Packet}
    (hp : p ∈ sendToPeer x id line) : p.line = line := by
  unfold sendToPeer at hp
  split at hp
  · rw [List.mem_singleton.mp hp]
  · cases hp

theorem line_sendToAll {x : RaftNode} {except : List ℕ} {line : Line} {p : Packet}
    (hp : p ∈ sendToAll x except line) : p.line = line := by
  obtain ⟨peer, -, rfl⟩ := List.mem_map.mp hp
  rfl

theorem buildAppendLocked_ae {x : RaftNode} {peer : Peer} {line : Line}
    (h : buildAppendLocked x peer = some line) :
    ∃ p pt entry, line = .ae x.currentTerm x.id p pt x.commitIndex entry ∧
      ∀ d ∈ entry, d ∈ x.log := by
  simp only [buildAppendLocked] at h
  generalize (if (nextIndexLocked x peer).toNat = 0 then 1
    else (nextIndexLocked x peer).toNat) = k at h
  split at h
  · obtain ⟨d, hd, h⟩ := Option.bind_eq_some_iff.mp h
    obtain ⟨pt, -, h⟩ := Option.bind_eq_some_iff.mp h
    refine ⟨_, pt, some d, (Option.some.inj h).symm, fun d' hd' => ?_⟩
    obtain rfl := Option.some.inj hd'
    exact List.mem_of_getElem? hd
  · obtain ⟨pt, -, h⟩ := Option.bind_eq_some_iff.mp h
    exact ⟨_, pt, none, (Option.some.inj h).symm, fun d hd => by cases hd⟩

theorem sendAppendToPeer_sends {x : RaftNode} {id : ℕ} {e : Effect} {p : Packet}
    (he : sendAppendToPeer x id = some e) (hp : p ∈ e.sends) :
    ∃ pi pt entry, p.line = .ae x.currentTerm x.id pi pt x.commitIndex entry ∧
      ∀ d ∈ entry, d ∈ x.log := by
  cases transmission he with
  | unknown => cases hp
  | sends peer line found built =>
    rw [List.mem_singleton.mp hp]
    exact buildAppendLocked_ae built

theorem raftSubmitCommand_sends {env : Env} {x : RaftNode} {op : KvOp} {key value : Text}
    {p : Packet} (hp : p ∈ (raftSubmitCommand env x op key value).sends) :
    p.line = .cl x.id op key value ∧ Checked op key value := by
  generalize he : raftSubmitCommand env x op key value = e at hp
  cases submission he with
  | refused | leads => cases hp
  | forwards checked => exact ⟨line_sendToPeer hp, checked⟩

theorem handleAppendEntries_sends {now t l pi pt lc has : ℕ} {x : RaftNode} {d : RaftLogEntry}
    {e : Effect} {p : Packet} (he : handleAppendEntries now x t l pi pt lc has d = some e)
    (hp : p ∈ e.sends) : ∃ success m, p.line = .aer e.node.currentTerm e.node.id success m := by
  rcases handleAppendEntries_cases rfl he with ⟨-, -, log, y, -, -, rfl⟩ | ⟨-, rfl⟩
  · exact ⟨_, _, line_sendToPeer hp⟩
  · exact ⟨_, _, line_sendToPeer hp⟩

theorem handleAppendResponse_sends {now t id success m : ℕ} {x : RaftNode} {e : Effect}
    (he : handleAppendResponse now x t id success m = some e) : e.sends = [] := by
  cases appendResponse he with
  | observes | ignores | takes | backs => rfl

theorem handleRequestVote_sends {now t c li lt : ℕ} {x : RaftNode} {p : Packet}
    (hp : p ∈ (handleRequestVote now x t c li lt).sends) :
    ∃ u v granted, p.line = .rvr u v granted ∧
      (granted ≠ 0 → (u, c) ∈ (handleRequestVote now x t c li lt).node.casts) := by
  generalize hx : (if x.currentTerm < t then becomeFollowerLocked now x t (-1) else x) = x1
  rw [handleRequestVote_eq hx] at hp ⊢
  split at hp
  · rename_i hgrant
    refine ⟨_, _, _, line_sendToPeer hp, fun _ => ?_⟩
    simp only [grantsVote, Bool.and_eq_true, decide_eq_true_eq] at hgrant
    have hseat := seat_grant x1 (toInt32 c) now c t
    obtain ⟨-, -, hterm, -, hcasts⟩ := Seat.mk.inj hseat
    rw [if_pos (by simpa [grantsVote] using hgrant)]
    dsimp only
    rw [hcasts, hterm, ← hgrant.1.1]
    simp
  · exact ⟨_, _, _, line_sendToPeer hp, fun h => absurd rfl h⟩

/-- A section sends lines of its own kind. -/
theorem exec_sends {env : Env} {sec : Section} {x : RaftNode} {e : Effect} {p : Packet}
    (he : exec env sec x = some e) (hp : p ∈ e.sends) : sec.sends p.line = true := by
  have silent : e.sends = [] → sec.sends p.line = true := by
    intro h
    rw [h] at hp
    cases hp
  cases sec with
  | startElection =>
    obtain rfl := Option.some.inj he
    rw [startElection_eq] at hp
    split at hp
    · cases hp
    · rw [line_sendToAll hp]
      rfl
  | handleRequestVote t c li lt =>
    obtain rfl := Option.some.inj he
    obtain ⟨_, _, _, hline, -⟩ := handleRequestVote_sends hp
    rw [hline]
    rfl
  | handleRequestVoteResponse t v granted =>
    apply silent
    cases voteResponse (Option.some.inj he) with
    | observes | ignores | counts | wins => rfl
  | handleAppendEntries t l pi pt lc has d =>
    obtain ⟨_, _, hline⟩ := handleAppendEntries_sends he hp
    rw [hline]
    rfl
  | handleAppendResponse t id success m =>
    exact silent (handleAppendResponse_sends he)
  | sendAppendToPeer id =>
    obtain ⟨_, _, _, hline, -⟩ := sendAppendToPeer_sends he hp
    rw [hline]
    rfl
  | raftSubmitCommand op key value =>
    obtain rfl := Option.some.inj he
    rw [(raftSubmitCommand_sends hp).1]
    rfl
  | handleClientForward source op key value =>
    obtain rfl := Option.some.inj he
    rw [(raftSubmitCommand_sends hp).1]
    rfl
  | tickerLoop lastHeartbeat =>
    apply silent
    cases tickerRound (Option.some.inj he) with
    | stands | beats | waits => rfl
  | submitPeerless =>
    obtain rfl := Option.some.inj he
    apply silent
    unfold submitPeerless
    split <;> rfl
  | submitCommit =>
    obtain ⟨y, -, he⟩ := Option.bind_eq_some_iff.mp he
    obtain rfl := Option.some.inj he
    exact silent rfl
  | sendPeerCatalog host port =>
    obtain rfl := Option.some.inj he
    rcases List.mem_cons.mp hp with rfl | hp
    · rfl
    · obtain ⟨peer, -, rfl⟩ := List.mem_map.mp hp
      rfl
  | announcePeerToKnownNodes id host port except =>
    obtain rfl := Option.some.inj he
    rw [line_sendToAll hp]
    rfl
  | announceLeaveToKnownNodes id =>
    obtain rfl := Option.some.inj he
    rw [line_sendToAll hp]
    rfl
  | requestClusterJoin =>
    obtain rfl := Option.some.inj he
    rw [line_sendToAll hp]
    rfl
  | requestClusterLeave =>
    obtain rfl := Option.some.inj he
    rw [line_sendToAll hp]
    rfl
  | tickerMark | broadcastAppend | handleJoin _ _ _ | handlePeerAnnounce _ _ _ | handleLeave _ =>
    obtain rfl := Option.some.inj he
    exact silent rfl

/-! ### The sections its thread enters next -/

/-- Whether a section is part of sending the log to peers. -/
def Section.replicates : Section → Bool
  | .broadcastAppend | .sendAppendToPeer _ => true
  | _ => false

/-- A `PEER` line tells of a peer that `add_peer_locked` adds. -/
def discovers (x : RaftNode) : Section → Bool
  | .handlePeerAnnounce peerId host port => 0 < (addPeerLocked x peerId host port).1
  | _ => false

theorem raftSubmitCommand_todo {env : Env} {x : RaftNode} {op : KvOp} {key value : Text}
    {next : Section} (hn : next ∈ (raftSubmitCommand env x op key value).todo) :
    (raftSubmitCommand env x op key value).node.role = .leader := by
  refine (congrArg Seat.role (seat_raftSubmitCommand env x op key value)).trans ?_
  generalize he : raftSubmitCommand env x op key value = e at hn
  cases submission he with
  | refused | forwards => cases hn
  | leads checked lead => exact lead

/-- A thread goes on to replicate after the node was seen to be a leader, or goes on with a
broadcast, or has discovered a peer. -/
theorem exec_todo {env : Env} {sec next : Section} {x : RaftNode} {e : Effect}
    (he : exec env sec x = some e) (hn : next ∈ e.todo) (hr : next.replicates = true) :
    e.node.role = .leader ∨
      ((sec = .broadcastAppend ∨ discovers x sec = true) ∧ e.node.role = x.role) := by
  have hfollows := exec_follows he hn
  cases sec with
  | startElection =>
    obtain rfl := Option.some.inj he
    rw [startElection_eq] at hn ⊢
    split at hn
    · rename_i hmaj
      rw [if_pos hmaj]
      exact Or.inl rfl
    · cases hn
  | handleRequestVoteResponse t v granted =>
    cases voteResponse (Option.some.inj he) with
    | observes | ignores | counts => cases hn
    | wins => exact Or.inl rfl
  | handleAppendResponse t id success m =>
    cases appendResponse he with
    | observes | ignores | takes => cases hn
    | backs h => exact Or.inl h.1
  | raftSubmitCommand op key value =>
    obtain rfl := Option.some.inj he
    exact Or.inl (raftSubmitCommand_todo hn)
  | handleClientForward source op key value =>
    obtain rfl := Option.some.inj he
    exact Or.inl (raftSubmitCommand_todo hn)
  | tickerLoop lastHeartbeat =>
    cases tickerRound (Option.some.inj he) with
    | stands =>
      obtain rfl | rfl : next = .startElection ∨ next = .tickerLoop lastHeartbeat := by
        simpa using hn
      · cases hr
      · cases hr
    | beats h => exact Or.inl h.1
    | waits =>
      obtain rfl : next = .tickerLoop lastHeartbeat := by simpa using hn
      cases hr
  | handlePeerAnnounce id host port =>
    obtain rfl := Option.some.inj he
    simp only [handlePeerAnnounce] at hn ⊢
    split at hn
    · rename_i hnew
      exact Or.inr ⟨Or.inr (decide_eq_true hnew),
        congrArg Seat.role (seat_addPeerLocked x id host port)⟩
    · cases hn
  | broadcastAppend =>
    obtain rfl := Option.some.inj he
    exact Or.inr ⟨Or.inl rfl, rfl⟩
  | tickerMark | submitPeerless =>
    cases next with
    | broadcastAppend | sendAppendToPeer => cases hfollows
    | _ => cases hr
  | handleJoin id host port =>
    rcases of_decide_eq_true hfollows with rfl | rfl <;> cases hr
  | handleLeave id =>
    obtain rfl := of_decide_eq_true hfollows
    cases hr
  | handleAppendEntries | sendAppendToPeer | submitCommit | handleRequestVote | sendPeerCatalog
  | announcePeerToKnownNodes | announceLeaveToKnownNodes | requestClusterJoin
  | requestClusterLeave => cases hfollows

end RaftKv
