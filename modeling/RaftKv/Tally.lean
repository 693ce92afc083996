import RaftKv.Table

/-! The majority behind a leader.  `votes_received` counts the votes of a candidate without the
voters.  It is the number of peers in the table that granted the vote, and one, as long as every
vote counted is the first of a peer in the table, and no peer that voted leaves. -/

namespace RaftKv

open Runs Stdio

attribute [local irreducible] toInt32

/-- A node, with the term and the voter of every `RVR` line it got that grants a vote. -/
structure Tally where
  node : RaftNode
  grants : List (ℕ × ℕ)

/-- The vote that a line grants. -/
def Section.grant : Section → Option (ℕ × ℕ)
  | .handleRequestVoteResponse term voterId granted =>
    if granted ≠ 0 then some (term, voterId) else none
  | _ => none

def Tally.step (s : Tally) (a : Env × Section) : Option Tally :=
  (s.node.step a).map fun node => ⟨node, s.grants ++ a.2.grant.toList⟩

/-- The peers in the table that granted a vote in the current term. -/
def Tally.granters (s : Tally) : Finset ℕ :=
  (s.node.table.map fun c => c.1).toFinset.filter fun id => (s.node.currentTerm, id) ∈ s.grants

/-- The peers that granted a vote, and the node itself, are a majority. -/
def Tally.HasMajority (s : Tally) : Prop := majorityCount s.node ≤ 1 + s.granters.card

instance (s : Tally) : Decidable s.HasMajority := inferInstanceAs (Decidable (_ ≤ _))

/-- The node becomes leader in the term that it has in `y`. -/
def BecomesLeader (x y : RaftNode) : Prop :=
  y.role = .leader ∧ ¬(x.role = .leader ∧ y.currentTerm = x.currentTerm)

instance (x y : RaftNode) : Decidable (BecomesLeader x y) := inferInstanceAs (Decidable (_ ∧ _))

/-- A vote that a candidate counts comes from a peer in the table, and is its first in the term.  No
peer leaves a candidate after it granted the vote. -/
def Tally.Fair (s : Tally) : Section → Prop
  | .handleRequestVoteResponse term voterId granted =>
    s.node.role = .candidate → term = s.node.currentTerm → granted ≠ 0 →
      (findPeer s.node voterId).isSome ∧ (term, voterId) ∉ s.grants
  | .handleLeave id =>
    s.node.role = .candidate → (findPeer s.node id).isSome → (s.node.currentTerm, id) ∉ s.grants
  | _ => True

instance (s : Tally) : (sec : Section) → Decidable (s.Fair sec)
  | .handleRequestVoteResponse .. => inferInstanceAs (Decidable (_ → _ → _ → _))
  | .handleLeave _ => inferInstanceAs (Decidable (_ → _ → _))
  | .tickerLoop _ | .tickerMark | .startElection | .broadcastAppend | .sendAppendToPeer _
  | .handleRequestVote .. | .handleAppendEntries .. | .handleAppendResponse ..
  | .raftSubmitCommand .. | .handleClientForward .. | .submitPeerless | .submitCommit
  | .handleJoin .. | .sendPeerCatalog .. | .handlePeerAnnounce .. | .announcePeerToKnownNodes ..
  | .announceLeaveToKnownNodes _ | .requestClusterJoin | .requestClusterLeave => .isTrue trivial

/-! ### The count -/

/-- The role, and the votes counted in it. -/
def RaftNode.office (x : RaftNode) : RaftRole × ℕ := (x.role, x.votesReceived)

section Office

variable {x y : RaftNode} {env : Env} {sec : Section} {e : Effect}

theorem office_applyCommittedLocked (h : applyCommittedLocked x = some y) :
    y.office = x.office := by
  rw [(applyCommittedLocked_eq h).1]
  rfl

theorem office_recomputeCommitLocked (h : recomputeCommitLocked x = some y) :
    y.office = x.office := by
  obtain ⟨c, a, store, events, rfl, -⟩ := recomputeCommitLocked_shape h
  rfl

theorem office_addPeerLocked {id port : ℕ} {host : Text} {r : ℤ}
    (ha : Admission x id host port r y) : y.office = x.office := by
  cases ha <;> rfl

theorem office_removePeerLocked {id : ℕ} {r : ℤ} (hr : Removal x id r y) :
    y.office = x.office := by
  cases hr <;> rfl

theorem office_handleRequestVote (now : ℕ) (x : RaftNode) (t c li lt : ℕ) :
    (handleRequestVote now x t c li lt).node.role = .follower ∨
      (handleRequestVote now x t c li lt).node.office = x.office := by
  generalize hx : (if x.currentTerm < t then becomeFollowerLocked now x t (-1) else x) = x1
  obtain ⟨v, c', e, hnode⟩ := @handleRequestVote_node now t c li lt x x1 hx
  rw [hnode]
  split at hx
  · left
    rw [← hx]
    exact (becomeFollowerLocked_fields now x t (-1)).1
  · right
    rw [← hx]
    rfl

theorem office_handleAppendEntries {now t l p pt lc has : ℕ} {d : RaftLogEntry}
    (he : handleAppendEntries now x t l p pt lc has d = some e) :
    e.node.role = .follower ∨ e.node.office = x.office := by
  generalize hx : (if x.currentTerm ≤ t then becomeFollowerLocked now x t (toInt32 l)
    else x) = x1
  have hturn : x1.role = .follower ∨ x1.office = x.office := by
    rw [← hx]
    split
    · exact Or.inl (becomeFollowerLocked_fields now x t (toInt32 l)).1
    · exact Or.inr rfl
  rcases handleAppendEntries_cases hx he with ⟨-, -, log, z, -, happ, rfl⟩ | ⟨-, rfl⟩
  · have hz : z.office = x1.office := by
      split at happ
      · exact (office_applyCommittedLocked happ).trans rfl
      · rw [← Option.some.inj happ]
        rfl
    rcases hturn with hrole | hoffice
    · exact Or.inl ((Prod.mk.inj hz).1.trans hrole)
    · exact Or.inr (hz.trans hoffice)
  · exact hturn

theorem office_handleAppendResponse {now t p success m : ℕ}
    (he : handleAppendResponse now x t p success m = some e) :
    e.node.role = .follower ∨ e.node.office = x.office := by
  cases appendResponse he with
  | observes => exact Or.inl (becomeFollowerLocked_fields now x t (-1)).1
  | ignores | backs => exact Or.inr rfl
  | takes h succeeds z recomputed =>
    exact Or.inr ((office_recomputeCommitLocked recomputed).trans rfl)

theorem office_raftSubmitCommand (env : Env) (x : RaftNode) (op : KvOp) (key value : Text) :
    (raftSubmitCommand env x op key value).node.office = x.office := by
  generalize he : raftSubmitCommand env x op key value = e
  cases submission he with
  | refused | forwards => rfl
  | leads =>
    unfold appendEntryLocked
    split <;> rfl

theorem office_sendAppendToPeer {id : ℕ} (he : sendAppendToPeer x id = some e) :
    e.node.office = x.office := by
  cases transmission he with
  | unknown | sends => rfl

/-- Only an election and the votes in it change the count of a node that does not step down. -/
theorem exec_office (he : exec env sec x = some e) (start : sec ≠ .startElection)
    (vote : ∀ t v granted, sec ≠ .handleRequestVoteResponse t v granted) :
    e.node.role = .follower ∨ e.node.office = x.office := by
  cases sec with
  | startElection => exact absurd rfl start
  | handleRequestVoteResponse t v granted => exact absurd rfl (vote t v granted)
  | handleRequestVote t c li lt =>
    obtain rfl := Option.some.inj he
    exact office_handleRequestVote env.now x t c li lt
  | handleAppendEntries t l p pt lc has d => exact office_handleAppendEntries he
  | handleAppendResponse t p success m => exact office_handleAppendResponse he
  | sendAppendToPeer id => exact Or.inr (office_sendAppendToPeer he)
  | raftSubmitCommand op key value | handleClientForward source op key value =>
    obtain rfl := Option.some.inj he
    exact Or.inr (office_raftSubmitCommand env x op key value)
  | tickerLoop lastHeartbeat =>
    obtain rfl := Option.some.inj he
    exact Or.inr (congrArg RaftNode.office (node_tickerLoop env.now x lastHeartbeat))
  | submitPeerless =>
    obtain rfl := Option.some.inj he
    exact Or.inr (congrArg RaftNode.office (node_submitPeerless x))
  | submitCommit =>
    obtain ⟨z, hz, he⟩ := Option.bind_eq_some_iff.mp he
    rw [← Option.some.inj he]
    exact Or.inr ((office_applyCommittedLocked hz).trans rfl)
  | handleJoin id host port | handlePeerAnnounce id host port =>
    obtain rfl := Option.some.inj he
    exact Or.inr (office_addPeerLocked (admission x id host port))
  | handleLeave id =>
    obtain rfl := Option.some.inj he
    exact Or.inr (office_removePeerLocked (removal x id))
  | tickerMark | broadcastAppend | sendPeerCatalog _ _ | announcePeerToKnownNodes _ _ _ _
  | announceLeaveToKnownNodes _ | requestClusterJoin | requestClusterLeave =>
    obtain rfl := Option.some.inj he
    exact Or.inr rfl

/-- A section that is no part of an election keeps the role and the term of a node that does not
step down. -/
theorem Turn.keeps {z : Seat} (turn : Turn x sec z) (start : sec ≠ .startElection)
    (vote : ∀ t v granted, sec ≠ .handleRequestVoteResponse t v granted) :
    z.role = .follower ∨ (z.role = x.role ∧ z.term = x.currentTerm) := by
  cases turn with
  | stay => exact Or.inr ⟨rfl, rfl⟩
  | follow term newer => exact Or.inl rfl
  | yield => exact Or.inl rfl
  | grant free upToDate =>
    rcases free with hlt | ⟨heq, -⟩
    · exact Or.inl (if_pos hlt)
    · exact Or.inr ⟨if_neg (by omega), heq.symm⟩
  | stand next => exact absurd rfl start
  | win => exact absurd rfl (vote _ _ _)
  | reopen known voted => exact Or.inr ⟨rfl, rfl⟩

end Office

/-! ### Who is in the table -/

section Table

variable {x y : RaftNode} {env : Env} {sec : Section} {e : Effect} {q : ℕ}

theorem Admission.mem_ids {id port : ℕ} {host : Text} {r : ℤ} (ha : Admission x id host port r y)
    (hq : q ∈ x.table.map fun c => c.1) : q ∈ y.table.map fun c => c.1 := by
  cases ha with
  | refused bad => exact hq
  | full new room => exact hq
  | known good old =>
    rw [← RaftNode.ids_eq] at hq ⊢
    let assign (p : Peer) : Peer := { p with host := copyText 64 host, port }
    have hids := @map_id_modifyPeer assign (fun _ => rfl) id x.peers
    exact hids ▸ hq
  | added good new room =>
    rw [table_append, List.map_append]
    exact List.mem_append_left _ hq

theorem Removal.mem_ids {id : ℕ} {r : ℤ} (hr : Removal x id r y) (hne : q ≠ id)
    (hq : q ∈ x.table.map fun c => c.1) : q ∈ y.table.map fun c => c.1 := by
  cases hr with
  | refused bad => exact hq
  | unknown absent => exact hq
  | removed good old v l c =>
    rw [← RaftNode.ids_eq] at hq ⊢
    obtain ⟨p, hp, rfl⟩ := List.mem_map.mp hq
    exact List.mem_map_of_mem ((List.mem_eraseP_of_neg (by simpa using hne)).mpr hp)

/-- Only the line that a peer leaves takes it out of the table. -/
theorem exec_ids (he : exec env sec x = some e) (stays : sec ≠ .handleLeave q)
    (hq : q ∈ x.table.map fun c => c.1) : q ∈ e.node.table.map fun c => c.1 := by
  by_cases hsec : sec.changesTable = true
  · cases sec with
    | handleJoin id host port | handlePeerAnnounce id host port =>
      obtain rfl := Option.some.inj he
      exact (admission x id host port).mem_ids hq
    | handleLeave id =>
      obtain rfl := Option.some.inj he
      exact (removal x id).mem_ids (fun h => stays (h ▸ rfl)) hq
    | _ => cases hsec
  · have hcard := exec_card he (Bool.not_eq_true _ ▸ hsec)
    have htable : e.node.table = x.table := (Prod.mk.inj hcard).2
    rwa [htable]

end Table

/-! ### The invariant -/

/-- A candidate has counted no more votes than its own and those of peers in the table. -/
def Tally.Backed (s : Tally) : Prop :=
  s.node.role = .candidate → s.node.votesReceived ≤ 1 + s.granters.card

variable {s s' : Tally} {a : Env × Section}

theorem Tally.mem_granters {id : ℕ} : id ∈ s.granters ↔
    id ∈ (s.node.table.map fun c => c.1) ∧ (s.node.currentTerm, id) ∈ s.grants := by
  rw [granters, Finset.mem_filter, List.mem_toFinset]

theorem Tally.step_cases (h : s.step a = some s') : ∃ e, exec a.1 a.2 s.node = some e ∧
    s' = ⟨e.node, s.grants ++ a.2.grant.toList⟩ := by
  obtain ⟨x, hx, rfl⟩ := Option.map_eq_some_iff.mp h
  obtain ⟨e, he, rfl⟩ := Option.map_eq_some_iff.mp hx
  exact ⟨e, he, rfl⟩

/-- In the same term, a peer that granted its vote is lost only when it leaves. -/
theorem Tally.granters_subset (h : s.step a = some s')
    (hterm : s'.node.currentTerm = s.node.currentTerm)
    (stays : ∀ id ∈ s.granters, a.2 ≠ .handleLeave id) : s.granters ⊆ s'.granters := by
  obtain ⟨e, he, rfl⟩ := step_cases h
  intro id hid
  obtain ⟨hmem, hgrant⟩ := mem_granters.mp hid
  refine mem_granters.mpr ⟨exec_ids he (stays id hid) hmem, ?_⟩
  rw [hterm]
  exact List.mem_append_left _ hgrant

theorem toInt32_le (n : ℕ) : toInt32 n ≤ n := by
  by_cases h : n < 2 ^ 31
  · exact (toInt32_of_lt h).le
  · have := Int.bmod_lt (x := n) (m := 2 ^ 32) (by norm_num)
    unfold toInt32
    omega

theorem majorityCount_congr {x y : RaftNode} (h : y.card = x.card) :
    majorityCount y = majorityCount x := by
  have htable : y.table = x.table := (Prod.mk.inj h).2
  rw [majorityCount, majorityCount, ← RaftNode.length_table, ← RaftNode.length_table, htable]

/-- A vote that is counted adds its voter. -/
theorem Tally.granters_vote {t v granted : ℕ} (h : s.step a = some s')
    (hsec : a.2 = .handleRequestVoteResponse t v granted)
    (hcounted : s.node.role = .candidate ∧ t = s.node.currentTerm ∧ granted ≠ 0)
    (hterm : s'.node.currentTerm = s.node.currentTerm) (fair : s.Fair a.2) :
    s.granters.card + 1 ≤ s'.granters.card := by
  obtain ⟨hcand, rfl, hgranted⟩ := hcounted
  rw [hsec] at fair
  obtain ⟨hpeer, hnew⟩ := fair hcand rfl hgranted
  have hsub := granters_subset h hterm fun id _ => by simp [hsec]
  obtain ⟨e, he, rfl⟩ := step_cases h
  have hv : v ∉ s.granters := fun hv => hnew (mem_granters.mp hv).2
  have hv' : v ∈ (⟨e.node, s.grants ++ a.2.grant.toList⟩ : Tally).granters := by
    obtain ⟨c, hc, hcv⟩ := findPeer_isSome.mp hpeer
    refine mem_granters.mpr ⟨exec_ids he (by simp [hsec]) (List.mem_map.mpr ⟨c, hc, hcv⟩), ?_⟩
    rw [hterm, hsec]
    simp [Section.grant, hgranted]
  have := Finset.card_le_card (Finset.insert_subset hv' hsub)
  rwa [Finset.card_insert_of_notMem hv] at this

theorem Tally.Backed.stand (hstep : s.step a = some s') (hsec : a.2 = .startElection) :
    s'.Backed ∧ (BecomesLeader s.node s'.node → s'.HasMajority) := by
  obtain ⟨e, he, rfl⟩ := step_cases hstep
  rw [hsec] at he
  have hcard := exec_card he rfl
  obtain rfl := Option.some.inj he
  have hmajority := majorityCount_congr hcard
  unfold HasMajority Backed
  rw [hmajority]
  rw [startElection_eq]
  split
  · rename_i enough
    have hone := toInt32_le 1
    refine ⟨nofun, fun _ => ?_⟩
    omega
  · exact ⟨fun _ => Nat.le_add_right _ _, fun hlead => nomatch hlead.1⟩

theorem Tally.Backed.poll (h : s.Backed) (hstep : s.step a = some s') (fair : s.Fair a.2)
    {t v granted : ℕ} (hsec : a.2 = .handleRequestVoteResponse t v granted) :
    s'.Backed ∧ (BecomesLeader s.node s'.node → s'.HasMajority) := by
  have hgranters := fun hcounted hterm => granters_vote hstep hsec hcounted hterm fair
  have hsub := fun hterm => granters_subset hstep hterm fun id _ => by simp [hsec]
  obtain ⟨e, he, rfl⟩ := step_cases hstep
  rw [hsec] at he
  have hmajority := majorityCount_congr (exec_card he rfl)
  unfold HasMajority Backed
  rw [hmajority]
  cases voteResponse (Option.some.inj he) with
  | observes newer =>
    have hrole := (becomeFollowerLocked_fields a.1.now s.node t (-1)).1
    refine ⟨fun hcand => ?_, fun hlead => ?_⟩
    · exact absurd (hrole.symm.trans hcand) (by decide)
    · exact absurd (hrole.symm.trans hlead.1) (by decide)
  | ignores =>
    exact ⟨fun hcand => (h hcand).trans (Nat.add_le_add_left (Finset.card_le_card (hsub rfl)) 1),
      fun hlead => absurd ⟨hlead.1, rfl⟩ hlead.2⟩
  | counts hcounted few =>
    have hbefore := h hcounted.1
    have hmore := hgranters hcounted rfl
    refine ⟨fun _ => ?_, fun hlead => absurd (hcounted.1.symm.trans hlead.1) (by decide)⟩
    have := Nat.mod_le (s.node.votesReceived + 1) (2 ^ 32)
    dsimp only at *
    omega
  | wins hcounted enough =>
    have hbefore := h hcounted.1
    have hmore := hgranters hcounted rfl
    refine ⟨nofun, fun _ => ?_⟩
    have hvotes := toInt32_le ((s.node.votesReceived + 1) % 2 ^ 32)
    have := Nat.mod_le (s.node.votesReceived + 1) (2 ^ 32)
    omega

theorem Tally.Backed.rest (h : s.Backed) (hstep : s.step a = some s') (fair : s.Fair a.2)
    (start : a.2 ≠ .startElection)
    (vote : ∀ t v granted, a.2 ≠ .handleRequestVoteResponse t v granted) :
    s'.Backed ∧ ¬BecomesLeader s.node s'.node := by
  have hsub := fun hterm stays => granters_subset hstep hterm stays
  obtain ⟨e, he, rfl⟩ := step_cases hstep
  have hkeeps := (exec_turn he).keeps start vote
  have hoffice := exec_office he start vote
  constructor
  · intro hcand
    have hne : e.node.role ≠ .follower := fun hrole => absurd (hrole.symm.trans hcand) (by decide)
    obtain ⟨hrole, hvotes⟩ := Prod.mk.inj (hoffice.resolve_left hne)
    obtain ⟨-, hterm⟩ := hkeeps.resolve_left hne
    have hbefore := h (hrole.symm.trans hcand)
    have hcard := Finset.card_le_card (hsub hterm fun id hid hleave => ?_)
    · dsimp only at *
      omega
    · rw [hleave] at fair
      obtain ⟨hmem, hgrant⟩ := mem_granters.mp hid
      obtain ⟨c, hc, hcid⟩ := List.mem_map.mp hmem
      exact fair (hrole.symm.trans hcand) (findPeer_isSome.mpr ⟨c, hc, hcid⟩) hgrant
  · rintro ⟨hlead, hnew⟩
    rcases hkeeps with hrole | ⟨hrole, hterm⟩
    · exact absurd (hrole.symm.trans hlead) (by decide)
    · exact hnew ⟨hrole.symm.trans hlead, hterm⟩

/-- A section keeps the invariant, and a node that becomes leader in it has a majority. -/
theorem Tally.Backed.step (h : s.Backed) (hstep : s.step a = some s') (fair : s.Fair a.2) :
    s'.Backed ∧ (BecomesLeader s.node s'.node → s'.HasMajority) := by
  by_cases start : a.2 = .startElection
  · exact stand hstep start
  by_cases vote : ∃ t v granted, a.2 = .handleRequestVoteResponse t v granted
  · obtain ⟨t, v, granted, hsec⟩ := vote
    exact h.poll hstep fair hsec
  · have := h.rest hstep fair start fun t v granted hsec => vote ⟨t, v, granted, hsec⟩
    exact ⟨this.1, fun hlead => absurd hlead this.2⟩

/-! ### Runs of one node -/

/-- Whenever the node becomes leader, it has a majority, when the run is fair. -/
theorem real_majority {now : ℕ} {config : RaftConfig}
    (run : Reach Tally.step (fun s a => s.Fair a.2) ⟨raftNodeInit now config, []⟩ s)
    (fair : s.Fair a.2) (hstep : s.step a = some s')
    (becomes : BecomesLeader s.node s'.node) : s'.HasMajority := by
  have h : s.Backed := by
    refine run.invariant nofun ?_
    intro s a s' _ h fair hstep
    exact (h.step hstep fair).1
  exact (h.step hstep fair).2 becomes

/-- Node 1 of five. -/
def fiveConfig : RaftConfig where
  id := 1
  host := bytes "127.0.0.1"
  port := 9001
  peers := [2, 3, 4, 5].map trioPeer

/-- The node stands, gets the votes of nodes 2 and 3, and becomes leader. -/
theorem real_majority_five :
    ∃ s s' : Tally, s.step (still, .handleRequestVoteResponse 1 3 1) = some s' ∧
      BecomesLeader s.node s'.node ∧ s'.HasMajority := by
  have hrun : (runList Tally.step (fun s a => decide (s.Fair a.2))
      ⟨raftNodeInit 0 fiveConfig, []⟩ ((still, .startElection) :: calls ["RVR 1 2 1"])).any
      (fun s : Tally => s.Fair (.handleRequestVoteResponse 1 3 1) ∧
        (s.step (still, .handleRequestVoteResponse 1 3 1)).any
          fun s' : Tally => BecomesLeader s.node s'.node) = true := by
    decide +kernel
  obtain ⟨s, run, hs⟩ := exists_reach (fun s a => of_decide_eq_true) hrun
  obtain ⟨fair, hnext⟩ := of_decide_eq_true hs
  obtain ⟨s', hstep, hlead⟩ := (Option.any_eq_true _ _).mp hnext
  have becomes := of_decide_eq_true hlead
  exact ⟨s, s', hstep, becomes, real_majority run fair hstep becomes⟩

/-- The vote of node 2 comes twice, and the node becomes leader with two votes of five. -/
theorem minority_leader : ¬∀ (now : ℕ) (config : RaftConfig) (s s' : Tally) (a : Env × Section),
    Reach Tally.step (fun _ a => a.2.Enterable) ⟨raftNodeInit now config, []⟩ s →
    a.2.Enterable → s.step a = some s' → BecomesLeader s.node s'.node → s'.HasMajority := by
  intro h
  have hline : raftHandleLine (bytes "RVR 1 2 1") = some (.handleRequestVoteResponse 1 2 1) := by
    decide +kernel
  have hrun : (runList Tally.step (fun _ a => a.2.inner ||
        raftHandleLine (bytes "RVR 1 2 1") = some a.2)
      ⟨raftNodeInit 0 fiveConfig, []⟩ ((still, .startElection) :: calls ["RVR 1 2 1"])).any
      (fun s : Tally => (s.step (still, .handleRequestVoteResponse 1 2 1)).any
        fun s' : Tally => BecomesLeader s.node s'.node ∧ ¬s'.HasMajority) = true := by
    decide +kernel
  have hok : ∀ (_ : Tally) (a : Env × Section), (a.2.inner ||
      raftHandleLine (bytes "RVR 1 2 1") = some a.2) = true → a.2.Enterable := by
    intro s a ha
    rcases Bool.or_eq_true_iff.mp ha with hinner | hcall
    · exact Or.inr hinner
    · exact Or.inl ⟨_, of_decide_eq_true hcall⟩
  obtain ⟨s, run, hs⟩ := exists_reach hok hrun
  obtain ⟨s', hstep, hlead⟩ := (Option.any_eq_true _ _).mp hs
  obtain ⟨becomes, hminority⟩ := of_decide_eq_true hlead
  exact hminority (h 0 fiveConfig s s' _ run (Or.inl ⟨_, hline⟩) hstep becomes)

end RaftKv
