import RaftKv.LogTurn
import RaftKv.Threads

/-! What other threads do between two sections of one thread.  `raft_submit_command` tests the role
in one section and the peer count in the next, and commits in a third.  The ticker tests the role
and the clock in one section, and `start_election` is the next. -/

namespace RaftKv

open Function Runs Stdio

attribute [local irreducible] toInt32

/-- In a run of the cluster each node runs its sections one after the other. -/
theorem Cluster.node_run {n : ℕ} {s s' : Cluster n} {ok : Cluster n → Action n → Prop}
    {okNode : RaftNode → Env × Section → Prop} (i : Fin n)
    (hok : ∀ s a sec, ok s a → s.entered a = some (i, sec) → okNode (s.node i) (a.env, sec))
    (run : Reach Cluster.step ok s s') : Reach RaftNode.step okNode (s.node i) (s'.node i) := by
  induction run with
  | refl => exact .refl
  | @tail s1 s2 a _ ha hstep ih =>
    rcases Cluster.step_drops hstep with ⟨_, _, _, -, rfl, -⟩ |
      ⟨j, sec, rest, threads, net, e, hent, -, he, rfl⟩
    · exact ih
    · by_cases hj : j = i
      · subst hj
        refine ih.tail (hok s1 a sec ha hent) ?_
        simp only [RaftNode.step, he, Option.map_some, update_self]
      · simpa only [update_of_ne (Ne.symm hj)] using ih

/-! ### The commit without peers -/

/-- The section leaves a leader its role and its term. -/
def Undisturbed (x : RaftNode) (a : Env × Section) : Prop :=
  deposes x a.2 = false ∧ a.2 ≠ .startElection

/-- The section adds a peer to the table. -/
def admits (x : RaftNode) : Section → Bool
  | .handleJoin peerId host port | .handlePeerAnnounce peerId host port =>
    0 < (addPeerLocked x peerId host port).1
  | _ => false

/-- A call of `raft_submit_command` that is accepted at `x`, finds no peers at `y`, and comes to
its commit at `z`, with sections of other threads in between. -/
structure FastPath (ok₁ ok₂ : RaftNode → Env × Section → Prop) (x y z : RaftNode) : Prop where
  submits : ∃ env op key value,
    (raftSubmitCommand env x op key value).todo = [.broadcastAppend, .submitPeerless] ∧
    Reach RaftNode.step ok₁ (raftSubmitCommand env x op key value).node y
  tests : (submitPeerless y).todo = [.submitCommit]
  continues : Reach RaftNode.step ok₂ y z

/-- The node leads alone in term `t`, and a commit up to the end of its log is the one that
`recompute_commit_locked` makes. -/
structure SoleLeader (t : ℕ) (z : RaftNode) : Prop where
  role : z.role = .leader
  term : z.currentTerm = t
  alone : z.peers = []
  allowed : z.commitIndex < z.logCount → commitScan z z.logCount = some z.logCount

/-- The node leads in term `t`, and its log ends with an entry of the term. -/
structure Leading (t : ℕ) (x : RaftNode) : Prop where
  role : x.role = .leader
  term : x.currentTerm = t
  last : ∀ d ∈ x.log.getLast?, d.term = t

variable {x y z : RaftNode} {a : Env × Section} {t : ℕ} {e : Effect}

theorem Turn.undisturbed {env : Env} {sec : Section} {s : Seat} (turn : Turn x sec s)
    (lead : x.role = .leader) (h : Undisturbed x (env, sec)) :
    s.role = .leader ∧ s.term = x.currentTerm := by
  refine ⟨turn.leads lead h.1, ?_⟩
  cases turn with
  | stay | yield | win | reopen => rfl
  | stand => exact absurd rfl h.2
  | grant free upToDate =>
    rcases free with hlt | ⟨heq, -⟩
    · exact absurd hlt (of_decide_eq_false h.1)
    · exact heq.symm
  | follow term newer =>
    cases sec with
    | handleRequestVote u _ _ _ | handleRequestVoteResponse u _ _ | handleAppendResponse u _ _ _ =>
      obtain rfl := Option.some.inj term
      exact absurd newer (of_decide_eq_false h.1)
    | handleAppendEntries u _ _ _ _ _ _ =>
      obtain rfl := Option.some.inj term
      exact absurd newer.le (of_decide_eq_false h.1)
    | _ => cases term

theorem Leading.step (h : Leading t x) (ha : Undisturbed x a) (hstep : x.step a = some y) :
    Leading t y := by
  obtain ⟨env, sec⟩ := a
  obtain ⟨e, he, rfl⟩ := Option.map_eq_some_iff.mp hstep
  obtain ⟨hrole, hterm⟩ := (exec_turn he).undisturbed h.role ha
  refine ⟨hrole, hterm.trans h.term, ?_⟩
  have hlog := (exec_log he).1
  generalize e.node.log = log at hlog
  cases hlog with
  | keep => exact h.last
  | append =>
    intro d hd
    rw [List.getLast?_concat, Option.mem_some_iff] at hd
    rw [← hd]
    exact h.term
  | store term => exact absurd term (of_decide_eq_false ha.1)

theorem peers_admission {id port : ℕ} {host : Text} {r : ℤ} (h : x.peers = [])
    (hadd : Admission x id host port r y) (hr : decide (0 < r) = false) : y.peers = [] := by
  cases hadd with
  | refused | full => exact h
  | known => simp [h, modifyPeer]
  | added => exact absurd Int.one_pos (of_decide_eq_false hr)

theorem peers_removal {id : ℕ} {r : ℤ} (h : x.peers = []) (hremove : Removal x id r y) :
    y.peers = [] := by
  cases hremove with
  | refused | unknown => exact h
  | removed => simp [h]

/-- A node without peers stays without them until it adds one. -/
theorem peers_step (h : x.peers = []) (ha : admits x a.2 = false) (hstep : x.step a = some y) :
    y.peers = [] := by
  obtain ⟨env, sec⟩ := a
  obtain ⟨e, he, rfl⟩ := Option.map_eq_some_iff.mp hstep
  by_cases hsec : sec.changesTable = true
  · cases sec with
    | handleJoin id host port | handlePeerAnnounce id host port =>
      obtain rfl := Option.some.inj he
      exact peers_admission h (admission x id host port) ha
    | handleLeave id =>
      obtain rfl := Option.some.inj he
      exact peers_removal h (removal x id)
    | _ => cases hsec
  · have htable := congrArg Prod.snd (exec_card he (Bool.not_eq_true _ ▸ hsec))
    have hnone : e.node.table = [] := htable.trans (by simp [RaftNode.card, RaftNode.table, h])
    exact List.map_eq_nil_iff.mp hnone

/-- A leader without peers is a majority, and commits its whole log. -/
theorem Leading.allowed (h : Leading t z) (alone : z.peers = [])
    (behind : z.commitIndex < z.logCount) : commitScan z z.logCount = some z.logCount := by
  obtain ⟨k, hk⟩ := Nat.exists_eq_succ_of_ne_zero (Nat.ne_zero_of_lt behind)
  have hne : z.log ≠ [] := by
    intro hnil
    rw [RaftNode.logCount, hnil] at hk
    cases hk
  have hlast : z.log[k]?.map (·.term) = some z.currentTerm := by
    have hget : z.log[k]? = some (z.log.getLast hne) := by
      have hlength : z.log.length = k + 1 := hk
      rw [← List.getLast?_eq_some_getLast hne, List.getLast?_eq_getElem?, hlength,
        Nat.add_sub_cancel]
    rw [hget, Option.map_some, h.last _ (List.getLast?_eq_some_getLast hne), h.term]
  have hmajority : majorityCount z ≤ matchCount z (k + 1) := by
    simp [majorityCount, matchCount, RaftNode.peerCount, alone]
  rw [hk, commitScan, if_neg (by omega), if_neg (not_not.mpr hlast), if_pos hmajority]

/-- What a leader has appended ends its log, unless its array is full. -/
theorem leading_submitted {env : Env} {op : KvOp} {key value : Text}
    (room : raftMaxLog ≤ x.logCount → ∀ d ∈ x.log.getLast?, d.term = x.currentTerm)
    (submits : (raftSubmitCommand env x op key value).todo = [.broadcastAppend, .submitPeerless]) :
    Leading x.currentTerm (raftSubmitCommand env x op key value).node := by
  generalize he : raftSubmitCommand env x op key value = e at submits
  cases submission he with
  | refused | forwards => cases submits
  | leads checked lead =>
    unfold appendEntryLocked
    split
    · rename_i full
      exact ⟨lead, rfl, room full⟩
    · refine ⟨lead, rfl, fun d hd => ?_⟩
      rw [List.getLast?_concat, Option.mem_some_iff] at hd
      rw [← hd]

/-- The fast path commits as a sole leader, in the term of its entry and what the majority rule
allows, when no other thread ends the leadership on the way, or adds a peer behind the test. -/
theorem fast_path_sole_leader
    (path : FastPath Undisturbed (fun x a => Undisturbed x a ∧ admits x a.2 = false) x y z)
    (room : raftMaxLog ≤ x.logCount → ∀ d ∈ x.log.getLast?, d.term = x.currentTerm) :
    SoleLeader x.currentTerm z := by
  obtain ⟨env, op, key, value, submits, before⟩ := path.submits
  have hy : Leading x.currentTerm y :=
    before.invariant (leading_submitted room submits) fun _ _ _ _ h ha hstep => h.step ha hstep
  have alone : y.peers = [] := by
    have tests := path.tests
    unfold submitPeerless at tests
    split at tests
    · rename_i hnone
      exact List.length_eq_zero_iff.mp hnone
    · cases tests
  obtain ⟨hz, hpeers⟩ : Leading x.currentTerm z ∧ z.peers = [] := by
    refine path.continues.invariant (P := fun z => Leading x.currentTerm z ∧ z.peers = [])
      ⟨hy, alone⟩ ?_
    rintro z a z' - ⟨h, hnone⟩ ⟨ha, hadmits⟩ hstep
    exact ⟨h.step ha hstep, peers_step hnone hadmits hstep⟩
  exact ⟨hz.role, hz.term, hpeers, hz.allowed hpeers⟩

/-- A node that is started without peers, and is elected. -/
def loneConfig : RaftConfig := { trioConfig node1 with peers := [] }

def lone : RaftNode := (startElection 0 (raftNodeInit 0 loneConfig)).node

/-- The node after it has appended a command. -/
def loneSubmitted : RaftNode := (raftSubmitCommand still lone .set (bytes "k") (bytes "a")).node

theorem reach_lone {ok : RaftNode → Env × Section → Prop}
    (h : ok (raftNodeInit 0 loneConfig) (still, .startElection)) :
    Reach RaftNode.step ok (raftNodeInit 0 loneConfig) lone :=
  Reach.refl.tail h rfl

/-- The command is accepted, and there are no peers at the test. -/
theorem lone_path {ok₁ ok₂ : RaftNode → Env × Section → Prop} {z : RaftNode}
    (run : Reach RaftNode.step ok₂ loneSubmitted z) : FastPath ok₁ ok₂ lone loneSubmitted z where
  submits := ⟨still, .set, bytes "k", bytes "a", by decide +kernel, .refl⟩
  tests := by decide +kernel
  continues := run

/-- Another candidate asks for a vote in between, and gets none. -/
theorem fast_path_sole_leader_lone :
    SoleLeader lone.currentTerm (handleRequestVote 0 loneSubmitted 1 2 0 0).node := by
  refine fast_path_sole_leader (lone_path ?_) fun full => absurd full (by decide +kernel)
  exact Reach.refl.tail (a := (still, .handleRequestVote 1 2 0 0))
    ⟨⟨by decide +kernel, nofun⟩, rfl⟩ rfl

/-- A node joins between the test of the peer count and the commit. -/
theorem fast_path_joined : ¬∀ (now : ℕ) (config : RaftConfig) (x y z : RaftNode),
    Reach RaftNode.step (fun _ a => a.2.Enterable) (raftNodeInit now config) x →
    FastPath (fun _ a => a.2.Enterable) (fun _ a => a.2.Enterable) x y z →
    SoleLeader x.currentTerm z := by
  intro h
  have hjoin : raftHandleLine (bytes "JOIN 2 127.0.0.1 9002") =
      some (.handleJoin 2 (bytes "127.0.0.1") 9002) := by
    decide +kernel
  have run : Reach RaftNode.step (fun _ a => a.2.Enterable) loneSubmitted
      (handleJoin loneSubmitted 2 (bytes "127.0.0.1") 9002).node :=
    Reach.refl.tail (a := (still, .handleJoin 2 (bytes "127.0.0.1") 9002)) (Or.inl ⟨_, hjoin⟩) rfl
  have joined := h 0 loneConfig lone loneSubmitted _ (reach_lone (Or.inr rfl)) (lone_path run)
  exact absurd joined.alone (by decide +kernel)

/-! ### The election after the test of the timeout -/

/-- The section, which leads from `x` to `y`, accepts an `AE` line or grants a vote. -/
def hears (x y : RaftNode) : Section → Bool
  | .handleAppendEntries term .. => x.currentTerm ≤ term
  | .handleRequestVote .. => x.casts ≠ y.casts
  | _ => false

/-- A node, and whether it has accepted an `AE` line or granted a vote on the way. -/
def RaftNode.watch (s : RaftNode × Bool) (a : Env × Section) : Option (RaftNode × Bool) :=
  (exec a.1 a.2 s.1).map fun e => (e.node, s.2 || hears s.1 e.node a.2)

/-- An election starts at a node that is no leader and has heard of nothing that speaks
against it. -/
structure Warranted (s : RaftNode × Bool) : Prop where
  role : s.1.role ≠ .leader
  silence : s.2 = false

/-- The answer to a vote request completes a majority. -/
def wins (x : RaftNode) : Section → Bool
  | .handleRequestVoteResponse term _ granted =>
    x.role = .candidate ∧ term = x.currentTerm ∧ granted ≠ 0 ∧
      majorityCount x ≤ toInt32 ((x.votesReceived + 1) % 2 ^ 32 : ℕ)
  | _ => false

/-- A section that neither speaks against an election nor ends one: an `AE` line is of an older
term, a vote request is refused, and an answer completes no majority.  Only the ticker starts
elections. -/
def Quiet (x : RaftNode) : Section → Prop
  | .handleAppendEntries term .. => term < x.currentTerm
  | .handleRequestVote term candidateId lastIndex lastTerm =>
    ¬(VoteFree x term candidateId ∧ UpToDateFor x lastIndex lastTerm)
  | .startElection => False
  | sec => wins x sec = false

/-- An answer that completes no majority makes no leader. -/
theorem role_voteResponse {now term voter granted : ℕ} (hrole : x.role ≠ .leader)
    (h : wins x (.handleRequestVoteResponse term voter granted) = false)
    (he : handleRequestVoteResponse now x term granted = e) : e.node.role ≠ .leader := by
  cases voteResponse he with
  | observes =>
    rw [(becomeFollowerLocked_fields now x term (-1)).1]
    exact RaftRole.noConfusion
  | ignores | counts => exact hrole
  | wins hcand enough =>
    exact absurd ⟨hcand.1, hcand.2.1, hcand.2.2, enough⟩ (of_decide_eq_false h)

/-- Only an election, or the answer that completes a majority, makes a leader. -/
theorem Quiet.role {env : Env} {sec : Section} (h : Quiet x sec) (he : exec env sec x = some e)
    (hrole : x.role ≠ .leader) : e.node.role ≠ .leader := by
  have turn := exec_turn he
  rw [← show e.node.seat.role = e.node.role from rfl]
  generalize hs : e.node.seat = s at turn
  cases turn with
  | stay | reopen => exact hrole
  | follow | yield => exact RaftRole.noConfusion
  | grant free upToDate => exact absurd ⟨free, upToDate⟩ h
  | stand => exact h.elim
  | win => exact absurd (congrArg Seat.role hs) (role_voteResponse hrole h (Option.some.inj he))

theorem Quiet.hears {env : Env} {sec : Section} (h : Quiet x sec) (he : exec env sec x = some e) :
    hears x e.node sec = false := by
  have turn := exec_turn he
  cases sec with
  | handleAppendEntries term _ _ _ _ _ _ => exact decide_eq_false (not_le.mpr h)
  | handleRequestVote term candidateId lastIndex lastTerm =>
    apply decide_eq_false
    have hcasts : e.node.seat.casts = e.node.casts := rfl
    rw [← hcasts, not_not]
    generalize e.node.seat = s at turn
    cases turn with
    | stay | follow => rfl
    | grant free upToDate => exact absurd ⟨free, upToDate⟩ h
  | _ => rfl

/-- The election that the ticker starts is warranted when what happens since its test is quiet. -/
theorem election_warranted {now lastHeartbeat : ℕ} {s : RaftNode × Bool}
    (expired : (tickerLoop now x lastHeartbeat).todo = [.startElection, .tickerLoop lastHeartbeat])
    (run : Reach RaftNode.watch (fun s a => Quiet s.1 a.2) (x, false) s) : Warranted s := by
  have hrole : x.role ≠ .leader := by
    generalize he : tickerLoop now x lastHeartbeat = e at expired
    cases tickerRound he with
    | stands h => exact h.1
    | beats | waits => cases expired
  refine run.invariant ⟨hrole, rfl⟩ ?_
  rintro ⟨y, heard⟩ ⟨env, sec⟩ s' - ⟨hrole, hsilence⟩ hquiet hstep
  obtain ⟨e, he, rfl⟩ := Option.map_eq_some_iff.mp hstep
  refine ⟨hquiet.role he hrole, ?_⟩
  rw [Bool.or_eq_false_iff]
  exact ⟨hsilence, hquiet.hears he⟩

/-- Node 1 of the three, which stands for election. -/
def trioCandidate : RaftNode := (startElection 0 (raftNodeInit 0 (trioConfig node1))).node

/-- A heartbeat of the term before arrives in between. -/
theorem election_warranted_trio : ∃ s, Reach RaftNode.watch (fun s a => Quiet s.1 a.2)
    (trioCandidate, false) s ∧ Warranted s := by
  have expired : (tickerLoop 5000 trioCandidate 0).todo = [.startElection, .tickerLoop 0] := by
    decide +kernel
  have late : Quiet trioCandidate (.handleAppendEntries 0 2 0 0 0 0 ⟨0, 0, .none, [], []⟩) :=
    show 0 < trioCandidate.currentTerm by decide +kernel
  obtain ⟨s, hs⟩ : ∃ s, RaftNode.watch (trioCandidate, false)
      (still, .handleAppendEntries 0 2 0 0 0 0 ⟨0, 0, .none, [], []⟩) = some s :=
    Option.isSome_iff_exists.mp (by decide +kernel)
  exact ⟨s, Reach.refl.tail late hs, election_warranted expired (Reach.refl.tail late hs)⟩

/-- A candidate becomes leader between the test of its timeout and the next election. -/
theorem election_deposes_leader : ¬∀ (now now' last : ℕ) (config : RaftConfig) (x : RaftNode)
    (s : RaftNode × Bool),
    Reach RaftNode.step (fun _ a => a.2.Enterable) (raftNodeInit now config) x →
    (tickerLoop now' x last).todo = [.startElection, .tickerLoop last] →
    Reach RaftNode.watch (fun _ a => a.2.Enterable ∧ a.2 ≠ .startElection) (x, false) s →
    Warranted s := by
  intro h
  have hvote : raftHandleLine (bytes "RVR 1 2 1") = some (.handleRequestVoteResponse 1 2 1) := by
    decide +kernel
  have run : Reach RaftNode.watch (fun _ a => a.2.Enterable ∧ a.2 ≠ .startElection)
      (trioCandidate, false) ((handleRequestVoteResponse 0 trioCandidate 1 1).node, false) :=
    Reach.refl.tail (a := (still, .handleRequestVoteResponse 1 2 1)) ⟨Or.inl ⟨_, hvote⟩, nofun⟩ rfl
  have hwarranted := h 0 5000 0 (trioConfig node1) trioCandidate _
    (Reach.refl.tail (a := (still, .startElection)) (Or.inr rfl) rfl) (by decide +kernel) run
  exact absurd hwarranted.role (by decide +kernel)

end RaftKv
