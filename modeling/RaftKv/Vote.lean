import RaftKv.Cluster
import RaftKv.Sections

/-! One vote a term, for a node by itself: its threads run any sections, on any lines, in any
order.  The vote of a term stays as long as `int32_t` holds the ids, the term does not wrap, and no
`LEAVE` takes the vote back. -/

namespace RaftKv

open Runs Stdio

/-- A thread of the node runs a section. -/
def RaftNode.step (x : RaftNode) (a : Env × Section) : Option RaftNode :=
  (exec a.1 a.2 x).map (·.node)

/-- In a term the node votes for one candidate. -/
def OneVote (x : RaftNode) : Prop := ∀ t c d, (t, c) ∈ x.casts → (t, d) ∈ x.casts → c = d

instance (x : RaftNode) (t c : ℕ) : Decidable (VoteFree x t c) := by
  unfold VoteFree
  infer_instance

instance (x : RaftNode) (li lt : ℕ) : Decidable (UpToDateFor x li lt) := by
  unfold UpToDateFor
  infer_instance

/-- A vote that the section casts can be stored: the candidate has an id below `2^31`, and the term
of an election is a new one. -/
def stored (x : RaftNode) : Section → Bool
  | .handleRequestVote t c li lt => VoteFree x t c → UpToDateFor x li lt → c < 2 ^ 31
  | .startElection => x.id < 2 ^ 31 ∧ x.currentTerm < 2 ^ 32 - 1
  | _ => true

/-- The section does not remove the peer that has the vote. -/
def remembered (x : RaftNode) : Section → Bool
  | .handleLeave p => (findPeer x p).isSome → x.votedFor ≠ toInt32 p
  | _ => true

def Section.isLeave : Section → Bool
  | .handleLeave _ => true
  | _ => false

/-- The ids in the line that a section handles are in `1 .. 2^31 - 1`. -/
def Section.smallIds : Section → Bool
  | .handleRequestVote _ id _ _ | .handleJoin id _ _ | .handlePeerAnnounce id _ _
  | .handleLeave id => 1 ≤ id ∧ id < 2 ^ 31
  | _ => true

/-! ### The invariant -/

/-- The votes cast are of terms up to the current one, where the stored vote is the only one. -/
structure Ballots (s : Seat) : Prop where
  past : ∀ t c, (t, c) ∈ s.casts → t ≤ s.term
  current : ∀ c, (s.term, c) ∈ s.casts → s.vote = c
  one : ∀ t c d, (t, c) ∈ s.casts → (t, d) ∈ s.casts → c = d

variable {x : RaftNode} {sec : Section} {y : Seat}

/-- One more vote, in a later term or again for the stored candidate. -/
theorem Ballots.concat (h : Ballots x.seat) {role : RaftRole} {t c : ℕ} {v : ℤ} (hv : v = c)
    (free : x.currentTerm < t ∨ (x.currentTerm = t ∧ (x.votedFor < 0 ∨ x.votedFor = c))) :
    Ballots ⟨x.id, role, t, v, x.casts ++ [(t, c)]⟩ := by
  have same : ∀ d, (t, d) ∈ x.casts → d = c := by
    intro d hd
    have hle : t ≤ x.currentTerm := h.past t d hd
    rcases free with hlt | ⟨rfl, hneg | heq⟩
    · omega
    · have hd' : x.votedFor = d := h.current d hd
      omega
    · have hd' : x.votedFor = d := h.current d hd
      omega
  have hterm : x.currentTerm ≤ t := by omega
  constructor
  · intro u d hd
    rcases List.mem_append.mp hd with hd | hd
    · exact (h.past u d hd).trans hterm
    · obtain ⟨rfl, rfl⟩ : u = t ∧ d = c := by simpa using hd
      exact le_rfl
  · intro d hd
    rcases List.mem_append.mp hd with hd | hd
    · rw [same d hd]
      exact hv
    · obtain rfl : d = c := by simpa using hd
      exact hv
  · intro u d e hd he
    rcases List.mem_append.mp hd with h1 | h1
    · rcases List.mem_append.mp he with h2 | h2
      · exact h.one u d e h1 h2
      · obtain ⟨rfl, rfl⟩ : u = t ∧ e = c := by simpa using h2
        exact same d h1
    · obtain ⟨rfl, rfl⟩ : u = t ∧ d = c := by simpa using h1
      rcases List.mem_append.mp he with h2 | h2
      · exact (same e h2).symm
      · obtain rfl : e = d := by simpa using h2
        rfl

theorem Ballots.turn (h : Ballots x.seat) (turn : Turn x sec y) (hstored : stored x sec = true)
    (hremembered : remembered x sec = true) : Ballots y := by
  cases turn with
  | stay => exact h
  | follow term newer =>
    refine ⟨fun u c hc => (h.past u c hc).trans newer.le, fun c hc => ?_, h.one⟩
    have hle : _ ≤ x.currentTerm := h.past _ c hc
    simp only at hle
    omega
  | yield => exact ⟨h.past, h.current, h.one⟩
  | grant free upToDate =>
    have hc := toInt32_of_lt (of_decide_eq_true hstored free upToDate)
    apply h.concat hc
    rwa [VoteFree, hc] at free
  | stand next =>
    obtain ⟨hid, hterm⟩ := of_decide_eq_true hstored
    refine h.concat (toInt32_of_lt hid) (Or.inl ?_)
    omega
  | win => exact ⟨h.past, h.current, h.one⟩
  | reopen known voted => exact absurd voted (of_decide_eq_true hremembered known)

theorem ballots_init (now : ℕ) (config : RaftConfig) : Ballots (raftNodeInit now config).seat := by
  have hnone : (raftNodeInit now config).seat.casts = [] := rfl
  constructor <;> simp [hnone]

theorem Turn.id_eq (turn : Turn x sec y) : y.id = x.id := by
  cases turn <;> rfl

/-- The invariant of every run, and the node's id. -/
theorem ballots_run {now : ℕ} {config : RaftConfig} {ok : RaftNode → Env × Section → Prop}
    (hok : ∀ x a, x.id = config.id → ok x a → stored x a.2 = true ∧ remembered x a.2 = true)
    (run : Reach RaftNode.step ok (raftNodeInit now config) x) :
    x.id = config.id ∧ Ballots x.seat := by
  refine run.invariant (P := fun x => x.id = config.id ∧ Ballots x.seat)
    ⟨rfl, ballots_init now config⟩ ?_
  rintro x a x' - ⟨hid, h⟩ ha hstep
  obtain ⟨e, he, rfl⟩ := Option.map_eq_some_iff.mp hstep
  have turn := exec_turn he
  obtain ⟨hstored, hremembered⟩ := hok x a hid ha
  exact ⟨turn.id_eq.trans hid, h.turn turn hstored hremembered⟩

/-! ### Any ids, and no departures -/

/-- One vote a term, in a run without `LEAVE` lines. -/
theorem one_vote {now : ℕ} {config : RaftConfig}
    (run : Reach RaftNode.step (fun x a => a.2.isLeave = false ∧ stored x a.2 = true)
      (raftNodeInit now config) x) : OneVote x := by
  refine (ballots_run (fun x a _ ha => ⟨ha.2, ?_⟩) run).2.one
  have hleave := ha.1
  unfold remembered
  split
  · rename_i heq
    rw [heq] at hleave
    cases hleave
  · rfl

/-- The handler calls for some lines that node 1 of the three gets. -/
def calls (lines : List String) : List (Env × Section) :=
  (lines.filterMap fun line => raftHandleLine (bytes line)).map fun sec => (still, sec)

/-- The node votes for node 2, and again for node 2, and then not for node 3. -/
theorem one_vote_trio :
    ∃ x, Reach RaftNode.step (fun x a => a.2.isLeave = false ∧ stored x a.2 = true)
      (raftNodeInit 0 (trioConfig 0)) x ∧ (5, 2) ∈ x.casts ∧ OneVote x := by
  have hrun : (runList RaftNode.step (fun x a => decide (a.2.isLeave = false ∧ stored x a.2 = true))
      (raftNodeInit 0 (trioConfig 0)) (calls ["RV 5 2 0 0", "RV 5 2 0 0", "RV 5 3 0 0"])).any
      (fun x => (5, 2) ∈ x.casts) = true := by
    decide +kernel
  obtain ⟨x, run, hcast⟩ := exists_reach (fun x a => of_decide_eq_true) hrun
  exact ⟨x, run, of_decide_eq_true hcast, one_vote run⟩

/-- Node 1 with two peers, one of which has the id `2^31 + 2`. -/
def farConfig : RaftConfig :=
  { trioConfig node1 with peers := [⟨2147483650, bytes "127.0.0.1", 9002, 1, 0⟩, trioPeer 3] }

/-- The node votes for peer `2^31 + 2`, and in the same term for peer 3. -/
theorem two_votes : ¬∀ (now : ℕ) (config : RaftConfig), 1 ≤ config.id → config.id < 2 ^ 32 →
    ∀ x, Reach RaftNode.step (fun _ a => a.2.isLeave = false) (raftNodeInit now config) x →
    OneVote x := by
  intro h
  have hrun : (runList RaftNode.step (fun _ a => !a.2.isLeave) (raftNodeInit 0 farConfig)
      (calls ["RV 5 2147483650 0 0", "RV 5 3 0 0"])).any
      (fun x => (5, 2147483650) ∈ x.casts ∧ (5, 3) ∈ x.casts) = true := by
    decide +kernel
  obtain ⟨x, run, hcasts⟩ := exists_reach (fun x a ha => by simpa using ha) hrun
  obtain ⟨h1, h2⟩ := of_decide_eq_true hcasts
  exact absurd (h 0 _ (by decide) (by decide) x run 5 _ _ h1 h2) (by decide)

/-! ### Departures, and ids below `2^31` -/

/-- One vote a term, when the peer that has the vote does not leave. -/
theorem vote_remembered {now : ℕ} {config : RaftConfig} (hid : config.id < 2 ^ 31)
    (run : Reach RaftNode.step (fun x a => a.2.smallIds = true ∧ remembered x a.2 = true ∧
      (a.2 = .startElection → x.currentTerm < 2 ^ 32 - 1)) (raftNodeInit now config) x) :
    OneVote x := by
  refine (ballots_run (fun x a hx ha => ⟨?_, ha.2.1⟩) run).2.one
  obtain ⟨small, -, below⟩ := ha
  unfold stored
  split
  · rename_i heq
    rw [heq] at small
    exact decide_eq_true fun _ _ => (of_decide_eq_true small).2
  · rename_i heq
    exact decide_eq_true ⟨hx ▸ hid, below heq⟩
  · rfl

/-- The node votes for node 2, node 3 leaves, and the node does not vote for node 3. -/
theorem vote_remembered_trio : ∃ x, Reach RaftNode.step (fun x a => a.2.smallIds = true ∧
      remembered x a.2 = true ∧ (a.2 = .startElection → x.currentTerm < 2 ^ 32 - 1))
    (raftNodeInit 0 (trioConfig 0)) x ∧ (1, 2) ∈ x.casts ∧ x.peerCount = 1 ∧ OneVote x := by
  have hrun : (runList RaftNode.step (fun x a => decide (a.2.smallIds = true ∧
      remembered x a.2 = true ∧ (a.2 = .startElection → x.currentTerm < 2 ^ 32 - 1)))
      (raftNodeInit 0 (trioConfig 0)) (calls ["RV 1 2 0 0", "LEAVE 3", "RV 1 3 0 0"])).any
      (fun x => (1, 2) ∈ x.casts ∧ x.peerCount = 1) = true := by
    decide +kernel
  obtain ⟨x, run, hx⟩ := exists_reach (fun x a => of_decide_eq_true) hrun
  obtain ⟨h1, h2⟩ := of_decide_eq_true hx
  exact ⟨x, run, h1, h2, vote_remembered (by decide) run⟩

/-- The node votes for node 2, node 2 leaves, and the node votes for node 3 in the same term. -/
theorem vote_reopened : ¬∀ (now : ℕ) (config : RaftConfig), 1 ≤ config.id → config.id < 2 ^ 31 →
    ∀ x, Reach RaftNode.step (fun _ a => a.2.smallIds = true) (raftNodeInit now config) x →
    OneVote x := by
  intro h
  have hrun : (runList RaftNode.step (fun _ a => a.2.smallIds)
      (raftNodeInit 0 (trioConfig 0)) (calls ["RV 1 2 0 0", "LEAVE 2", "RV 1 3 0 0"])).any
      (fun x => (1, 2) ∈ x.casts ∧ (1, 3) ∈ x.casts) = true := by
    decide +kernel
  obtain ⟨x, run, hcasts⟩ := exists_reach (fun x a ha => ha) hrun
  obtain ⟨h1, h2⟩ := of_decide_eq_true hcasts
  exact absurd (h 0 _ (by decide) (by decide) x run 1 2 3 h1 h2) (by decide)

end RaftKv
