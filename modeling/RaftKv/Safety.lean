import RaftKv.Refine.Step

/-! What holds in every run of a cluster with fixed complete tables in which no value of a deletion
has a newline in it: one leader a term, matching logs, and, while the steps are guarded, one applied
entry a position, complete leaders, and committed entries that stay. -/

namespace RaftKv

open Consensus Consensus.Ledger Runs Stdio

/-- Fixed tables, no wrapped term and no newline in the value of a deletion, and every step
guarded. -/
def Steady {n : ℕ} (s : Cluster n) (a : Action n) : Prop := Admitted s a ∧ Guarded s a

instance {n : ℕ} (s : Cluster n) (a : Action n) : Decidable (Steady s a) := by
  unfold Steady
  infer_instance

/-! ### Three nodes -/

theorem fixedTables_trio : FixedTables trio.node where
  id_pos := by decide
  id_lt := by decide
  id_inj := by decide
  addr_inj := by decide
  room := by decide
  nodup := by decide
  complete i id := by
    have listed : ∀ i : Fin 3, ∀ id ∈ (trio.node i).peers.map fun p => p.id,
        ∃ j, j ≠ i ∧ (trio.node j).id = id := by decide
    have all : ∀ i j : Fin 3, j ≠ i →
        (trio.node j).id ∈ (trio.node i).peers.map fun p => p.id := by decide
    constructor
    · exact listed i id
    · rintro ⟨j, hj, rfl⟩
      exact all i j hj
  address := by decide

/-- After `trioCommit`, node 2 is elected. -/
def trioSucceed : List (Action 3) :=
  [.enter node2 still .startElection, .deliver 0 node1 still, .deliver 0 node2 still]

section Fixed

variable {n : ℕ} {now : Fin n → ℕ} {config : Fin n → RaftConfig} {s s' : Cluster n}

/-! ### Whatever the nodes send -/

/-- The history behind a run with fixed tables. -/
theorem exists_history (tables : FixedTables (Cluster.start now config).node)
    (run : Reach Cluster.step Admitted (Cluster.start now config) s) :
    ∃ R g, Sim False R termView g s := by
  obtain ⟨R, h⟩ := sim_start tables False termView
  obtain ⟨g, -, hg⟩ := h.reach run fun s a ha =>
    ⟨ha, Action.clean_of_fixed ha.1, False.elim⟩
  exact ⟨R, g, hg⟩

/-- Election safety: one node becomes leader in a term. -/
theorem election_safety (tables : FixedTables (Cluster.start now config).node)
    (run : Reach Cluster.step Admitted (Cluster.start now config) s) {t : ℕ} {i j : Fin n}
    (hi : Event.becomesLeader t ∈ (s.node i).eventLog)
    (hj : Event.becomesLeader t ∈ (s.node j).eventLog) : i = j := by
  obtain ⟨R, g, h⟩ := exists_history tables run
  have h1 := (h.nodes i).led t hi
  have h2 := (h.nodes j).led t hj
  exact Option.some.inj (h1.symm.trans h2)

theorem election_safety_trio : ∃ s, Reach Cluster.step Admitted trio s ∧
    Event.becomesLeader 1 ∈ (s.node 0).eventLog ∧
    ∀ j, Event.becomesLeader 1 ∈ (s.node j).eventLog → 0 = j := by
  have hrun : (runList Cluster.step (fun s a => decide (Admitted s a)) trio trioCommit).any
      (fun s => Event.becomesLeader 1 ∈ (s.node 0).eventLog) = true := by decide +kernel
  obtain ⟨s, run, hled⟩ := exists_reach (fun s a => of_decide_eq_true) hrun
  have hled := of_decide_eq_true hled
  exact ⟨s, run, hled, fun j hj => election_safety fixedTables_trio run hled hj⟩

/-- Log matching: logs with entries of one term at one position have the same terms up to it. -/
theorem log_matching (tables : FixedTables (Cluster.start now config).node)
    (run : Reach Cluster.step Admitted (Cluster.start now config) s) {i j : Fin n} {k : ℕ}
    {e f : RaftLogEntry} (he : (s.node i).log[k]? = some e) (hf : (s.node j).log[k]? = some f)
    (hterm : e.term = f.term) :
    ∀ m ≤ k, (s.node i).log[m]?.map (·.term) = (s.node j).log[m]?.map (·.term) := by
  obtain ⟨R, g, h⟩ := exists_history tables run
  have h1 : (g.log i)[k]? = some e.term := by rw [(h.nodes i).getElem?_log, he]; rfl
  have h2 : (g.log j)[k]? = some f.term := by rw [(h.nodes j).getElem?_log, hf]; rfl
  have htake := (h.matching.logs i).take_eq (h.matching.logs j) h1 h2 hterm
  intro m hm
  have hget := congrArg (fun l => l[m]?) htake
  simp only [List.getElem?_take, if_pos (Nat.lt_succ_of_le hm)] at hget
  rwa [(h.nodes i).getElem?_log, (h.nodes j).getElem?_log] at hget

theorem log_matching_trio : ∃ s, Reach Cluster.step Admitted trio s ∧
    ∃ e f, (s.node 0).log[0]? = some e ∧ (s.node 1).log[0]? = some f ∧
    ∀ m ≤ 0, (s.node 0).log[m]?.map (·.term) = (s.node 1).log[m]?.map (·.term) := by
  let e : RaftLogEntry := ⟨1, 1, .set, bytes "k", bytes "a"⟩
  have hrun : (runList Cluster.step (fun s a => decide (Admitted s a)) trio trioCommit).any
      (fun s => (s.node 0).log[0]? = some e ∧ (s.node 1).log[0]? = some e) = true := by
    decide +kernel
  obtain ⟨s, run, hlog⟩ := exists_reach (fun s a => of_decide_eq_true) hrun
  obtain ⟨h0, h1⟩ := of_decide_eq_true hlog
  exact ⟨s, run, e, e, h0, h1, log_matching fixedTables_trio run h0 h1 rfl⟩

end Fixed

/-- Node 1 leads in term 1 and deletes a key with a value that ends in an `RVR` line of term 3.  The
value is on its way to node 2.  Nodes 1 and 2 stand in term 3, node 3 votes for node 1, and node 2
takes the second line of the value for a vote. -/
def trioRival : List (Action 3) :=
  [.enter node1 still .startElection, .deliver 0 node2 still, .deliver 0 node1 still,
    .enter node1 still (.raftSubmitCommand .del (bytes "k") (bytes "x\nRVR 3 9 1")),
    .enter node1 still (.sendAppendToPeer 2), .enter node1 still .startElection,
    .enter node1 still .startElection, .deliver 1 node3 still, .deliver 0 node1 still,
    .enter node2 still .startElection, .enter node2 still .startElection, .deliver 7 node2 still 1]

/-- Nodes 1 and 2 become leaders in term 3. -/
theorem election_unsafe : ¬∀ (n : ℕ) (now : Fin n → ℕ) (config : Fin n → RaftConfig),
    FixedTables (Cluster.start now config).node →
    ∀ s, Reach Cluster.step (fun s a => a.starts = true ∧ TermsBelow s)
      (Cluster.start now config) s →
    ∀ t i j, Event.becomesLeader t ∈ (s.node i).eventLog →
    Event.becomesLeader t ∈ (s.node j).eventLog → i = j := by
  intro h
  have hrun : (runList Cluster.step (fun s a => decide (a.starts = true ∧ TermsBelow s)) trio
      trioRival).any (fun s => Event.becomesLeader 3 ∈ (s.node 0).eventLog ∧
        Event.becomesLeader 3 ∈ (s.node 1).eventLog) = true := by
    decide +kernel
  obtain ⟨s, run, hled⟩ := exists_reach (fun s a => of_decide_eq_true) hrun
  obtain ⟨h0, h1⟩ := of_decide_eq_true hled
  exact absurd (h 3 _ _ fixedTables_trio s run 3 0 1 h0 h1) (by decide)

/-- Both leaders take commands, node 1 behind an entry of term 1. -/
def trioDiverge : List (Action 3) :=
  [.enter node1 still (.raftSubmitCommand .set (bytes "k") (bytes "a")),
    .enter node2 still (.raftSubmitCommand .set (bytes "k") (bytes "b")),
    .enter node2 still (.raftSubmitCommand .set (bytes "k") (bytes "c"))]

/-- Nodes 1 and 2 have entries of term 3 at position 2, and entries of different terms before
them. -/
theorem logs_mismatch : ¬∀ (n : ℕ) (now : Fin n → ℕ) (config : Fin n → RaftConfig),
    FixedTables (Cluster.start now config).node →
    ∀ s : Cluster n, Reach Cluster.step (fun s a => a.starts = true ∧ TermsBelow s)
      (Cluster.start now config) s →
    ∀ (i j : Fin n) (k : ℕ) (e f : RaftLogEntry), (s.node i).log[k]? = some e →
    (s.node j).log[k]? = some f → e.term = f.term →
    ∀ m ≤ k, (s.node i).log[m]?.map (·.term) = (s.node j).log[m]?.map (·.term) := by
  intro h
  let c : RaftLogEntry := ⟨2, 3, .set, bytes "k", bytes "a"⟩
  let d : RaftLogEntry := ⟨2, 3, .set, bytes "k", bytes "c"⟩
  have hrun : (runList Cluster.step (fun s a => decide (a.starts = true ∧ TermsBelow s)) trio
      (trioRival ++ trioDiverge)).any (fun s => (s.node 0).log[1]? = some c ∧
        (s.node 1).log[1]? = some d ∧
        (s.node 0).log[0]?.map (·.term) ≠ (s.node 1).log[0]?.map (·.term)) = true := by
    decide +kernel
  obtain ⟨s, run, hs⟩ := exists_reach (fun s a => of_decide_eq_true) hrun
  obtain ⟨hc, hd, hne⟩ := of_decide_eq_true hs
  exact hne (h 3 _ _ fixedTables_trio s run 0 1 1 c d hc hd rfl 0 (Nat.zero_le 1))

section Fixed

variable {n : ℕ} {now : Fin n → ℕ} {config : Fin n → RaftConfig} {s s' : Cluster n}

/-! ### While the steps are guarded -/

/-- The history behind a steady run, which the run goes on with. -/
theorem exists_steady_history (tables : FixedTables (Cluster.start now config).node)
    (run : Reach Cluster.step Steady (Cluster.start now config) s) :
    ∃ R g, Sim True R termView g s := by
  obtain ⟨R, h⟩ := sim_start tables True termView
  obtain ⟨g, -, hg⟩ := h.reach run fun s a ha =>
    ⟨ha.1, Action.clean_of_fixed ha.1.1, fun _ => ha.2⟩
  exact ⟨R, g, hg⟩

/-- Entries that two nodes have applied at one position have one term. -/
def StateMachineSafe (s : Cluster n) : Prop :=
  ∀ i j k e f, Event.applied k e ∈ (s.node i).eventLog → Event.applied k f ∈ (s.node j).eventLog →
    e.term = f.term

/-- A node's applied entry is in its committed log. -/
theorem NodeSim.getElem?_committed {α : Type} {R : Roster n} {V : View α}
    {g : Ledger (Fin n) α} {i : Fin n} {x : RaftNode} (h : NodeSim True R V g i x) {k : ℕ}
    {e : RaftLogEntry} (he : Event.applied k e ∈ x.eventLog) :
    ((g.log i).take x.commitIndex)[k - 1]? = some (V.view e) := by
  have hs := h.safe trivial
  obtain ⟨h1, h2⟩ := hs.slots k e he
  obtain ⟨-, h3, -⟩ := h.entries k e he
  have h4 := hs.applied_le
  rw [List.getElem?_take, if_pos (by omega), h.getElem?_log, h2, Option.map_some]

/-- State machine safety. -/
theorem state_machine_safety (tables : FixedTables (Cluster.start now config).node)
    (run : Reach Cluster.step Steady (Cluster.start now config) s) : StateMachineSafe s := by
  intro i j k e f hi hj
  obtain ⟨R, g, h⟩ := exists_steady_history tables run
  have h1 := (h.nodes i).getElem?_committed hi
  have h2 := (h.nodes j).getElem?_committed hj
  have agree : ∀ {p q : List ℕ} {a b : ℕ}, p <+: q → p[k - 1]? = some a → q[k - 1]? = some b →
      a = b := by
    rintro p q a b ⟨r, rfl⟩ ha hb
    rw [List.getElem?_append_left (List.getElem?_eq_some_iff.mp ha).1, ha] at hb
    exact Option.some.inj hb
  rcases (h.complete trivial).settled_comparable h.matching Majority.meet
    ((h.nodes i).safe trivial).settled ((h.nodes j).safe trivial).settled with hp | hp
  · exact agree hp h1 h2
  · exact (agree hp h2 h1).symm

/-- Both nodes of the majority apply the command. -/
theorem state_machine_safety_trio : ∃ s, Reach Cluster.step Steady trio s ∧
    (∃ e, Event.applied 1 e ∈ (s.node 0).eventLog ∧ Event.applied 1 e ∈ (s.node 1).eventLog) ∧
    StateMachineSafe s := by
  let e : RaftLogEntry := ⟨1, 1, .set, bytes "k", bytes "a"⟩
  have hrun : (runList Cluster.step (fun s a => decide (Steady s a)) trio trioCommit).any
      (fun s => Event.applied 1 e ∈ (s.node 0).eventLog ∧
        Event.applied 1 e ∈ (s.node 1).eventLog) = true := by
    decide +kernel
  obtain ⟨s, run, happ⟩ := exists_reach (fun s a => of_decide_eq_true) hrun
  exact ⟨s, run, ⟨e, of_decide_eq_true happ⟩, state_machine_safety fixedTables_trio run⟩

end Fixed

/-- Nodes 1 and 2 lead in terms 1 and 2, each with an entry of its own.  Node 1 answers a heartbeat
of node 2 with the length of its own log, and node 2 commits an entry that no other node has. -/
def trioStale : List (Action 3) :=
  [.enter node1 still .startElection, .deliver 0 node2 still, .deliver 0 node1 still,
    .enter node1 still (.raftSubmitCommand .set (bytes "k") (bytes "a")),
    .enter node2 still .startElection, .deliver 1 node3 still, .deliver 0 node2 still,
    .enter node2 still (.sendAppendToPeer 1), .deliver 0 node1 still,
    .enter node2 still (.raftSubmitCommand .set (bytes "k") (bytes "b")), .deliver 0 node2 still]

/-- Then node 1 is elected without the entry. -/
def trioUsurp : List (Action 3) :=
  [.enter node1 still .startElection, .deliver 1 node3 still, .deliver 0 node1 still]

/-- Then node 1 offers its log to node 2. -/
def trioOffer : List (Action 3) :=
  [.enter node1 still (.raftSubmitCommand .set (bytes "k") (bytes "c")),
    .enter node1 still (.sendAppendToPeer 2), .deliver 0 node2 still, .deliver 0 node1 still,
    .enter node1 still (.sendAppendToPeer 2)]

/-- Then node 2 overwrites its committed entry, and node 1 commits and applies its log. -/
def trioOverwrite : List (Action 3) :=
  [.deliver 0 node2 still, .deliver 0 node1 still, .enter node1 still (.sendAppendToPeer 2),
    .deliver 0 node2 still, .deliver 0 node1 still]

/-- Node 2 has applied its own entry at position 1, and node 1 another. -/
theorem state_machine_unsafe : ¬∀ (n : ℕ) (now : Fin n → ℕ) (config : Fin n → RaftConfig),
    FixedTables (Cluster.start now config).node →
    ∀ s, Reach Cluster.step Admitted (Cluster.start now config) s → StateMachineSafe s := by
  intro h
  let a : RaftLogEntry := ⟨1, 1, .set, bytes "k", bytes "a"⟩
  let b : RaftLogEntry := ⟨1, 2, .set, bytes "k", bytes "b"⟩
  have hrun : (runList Cluster.step (fun s a => decide (Admitted s a)) trio
      (trioStale ++ trioUsurp ++ trioOffer ++ trioOverwrite)).any
      (fun s => Event.applied 1 a ∈ (s.node 0).eventLog ∧
        Event.applied 1 b ∈ (s.node 1).eventLog) = true := by
    decide +kernel
  obtain ⟨s, run, happ⟩ := exists_reach (fun s a => of_decide_eq_true) hrun
  obtain ⟨h0, h1⟩ := of_decide_eq_true happ
  have := h 3 _ _ fixedTables_trio s run 0 1 1 a b h0 h1
  exact absurd this (by decide)

section Fixed

variable {n : ℕ} {now : Fin n → ℕ} {config : Fin n → RaftConfig} {s s' : Cluster n}

/-- Leader completeness: what a node, a leader or another, has committed when the cluster is in
state `s` is in the log of every leader of a later term. -/
theorem leader_completeness (tables : FixedTables (Cluster.start now config).node)
    (run : Reach Cluster.step Steady (Cluster.start now config) s)
    (run' : Reach Cluster.step Steady s s') {i j : Fin n} (hj : (s'.node j).role = .leader)
    (later : (s.node i).currentTerm < (s'.node j).currentTerm) :
    ∀ k < (s.node i).commitIndex,
      (s'.node j).log[k]?.map (·.term) = (s.node i).log[k]?.map (·.term) := by
  obtain ⟨R, g, h⟩ := exists_steady_history tables run
  obtain ⟨g', e, h'⟩ := h.reach run' fun s a ha =>
    ⟨ha.1, Action.clean_of_fixed ha.1.1, fun _ => ha.2⟩
  have hset := (((h.nodes i).safe trivial).settled).extend e
  obtain ⟨hled, hlead⟩ := (h'.nodes j).leads hj
  have hle : g.term i ≤ (s'.node j).currentTerm := by
    rw [(h.nodes i).term]
    exact later.le
  obtain ⟨r, hr⟩ := (h'.complete trivial).settled_lead h'.matching Majority.meet hset hle
    (by simp [hled])
  rw [hlead] at hr
  intro k hk
  have hlen : k < ((g.log i).take (s.node i).commitIndex).length := by
    have := ((h.nodes i).safe trivial).commit_le
    rw [List.length_take, (h.nodes i).log, List.length_map]
    omega
  have hget := congrArg (fun l => l[k]?) hr
  simp only [List.getElem?_append_left hlen, List.getElem?_take, if_pos hk] at hget
  rw [(h.nodes i).getElem?_log, (h'.nodes j).getElem?_log] at hget
  exact hget.symm

/-- Node 2 is elected with the entry that node 1 has committed. -/
theorem leader_completeness_trio : ∃ s s', Reach Cluster.step Steady trio s ∧
    Reach Cluster.step Steady s s' ∧ (s.node 0).role = .leader ∧ (s.node 0).commitIndex = 1 ∧
    (s'.node 1).role = .leader ∧ (s.node 0).currentTerm < (s'.node 1).currentTerm ∧
    ∀ k < (s.node 0).commitIndex,
      (s'.node 1).log[k]?.map (·.term) = (s.node 0).log[k]?.map (·.term) := by
  have hrun : (runList Cluster.step (fun s a => decide (Steady s a)) trio trioCommit).any
      (fun s => decide ((s.node 0).role = .leader ∧ (s.node 0).commitIndex = 1) &&
        (runList Cluster.step (fun s a => decide (Steady s a)) s trioSucceed).any fun s' =>
          (s'.node 1).role = .leader ∧ (s.node 0).currentTerm < (s'.node 1).currentTerm) =
        true := by
    decide +kernel
  obtain ⟨s, run, hs⟩ := exists_reach (fun s a => of_decide_eq_true) hrun
  obtain ⟨hlead, hrun'⟩ := Bool.and_eq_true_iff.mp hs
  obtain ⟨s', run', hs'⟩ := exists_reach (fun s a => of_decide_eq_true) hrun'
  obtain ⟨h1, h2⟩ := of_decide_eq_true hlead
  obtain ⟨h3, h4⟩ := of_decide_eq_true hs'
  exact ⟨s, s', run, run', h1, h2, h3, h4,
    leader_completeness fixedTables_trio run run' h3 h4⟩

/-- Node 1 is elected without the entry that node 2 has committed. -/
theorem leader_incomplete : ¬∀ (n : ℕ) (now : Fin n → ℕ) (config : Fin n → RaftConfig),
    FixedTables (Cluster.start now config).node →
    ∀ s s', Reach Cluster.step Admitted (Cluster.start now config) s →
    Reach Cluster.step Admitted s s' → ∀ i j N, (s.node i).role = .leader →
    Event.committedThrough N ∈ (s.node i).eventLog → (s.node i).commitIndex = N →
    (s'.node j).role = .leader → (s.node i).currentTerm < (s'.node j).currentTerm →
    ∀ k < N, (s'.node j).log[k]?.map (·.term) = (s.node i).log[k]?.map (·.term) := by
  intro h
  have hrun : (runList Cluster.step (fun s a => decide (Admitted s a)) trio trioStale).any
      (fun s => decide ((s.node 1).role = .leader ∧
          Event.committedThrough 1 ∈ (s.node 1).eventLog ∧ (s.node 1).commitIndex = 1) &&
        (runList Cluster.step (fun s a => decide (Admitted s a)) s trioUsurp).any fun s' =>
          (s'.node 0).role = .leader ∧ (s.node 1).currentTerm < (s'.node 0).currentTerm ∧
          (s'.node 0).log[0]?.map (·.term) ≠ (s.node 1).log[0]?.map (·.term)) = true := by
    decide +kernel
  obtain ⟨s, run, hs⟩ := exists_reach (fun s a => of_decide_eq_true) hrun
  obtain ⟨hlead, hrun'⟩ := Bool.and_eq_true_iff.mp hs
  obtain ⟨s', run', hs'⟩ := exists_reach (fun s a => of_decide_eq_true) hrun'
  obtain ⟨h1, h2, h3⟩ := of_decide_eq_true hlead
  obtain ⟨h4, h5, h6⟩ := of_decide_eq_true hs'
  exact h6 (h 3 _ _ fixedTables_trio s s' run run' 1 0 1 h1 h2 h3 h4 h5 0 zero_lt_one)

/-- Committed entries are permanent, and the store is their replay. -/
theorem committed_permanent (tables : FixedTables (Cluster.start now config).node)
    (run : Reach Cluster.step Steady (Cluster.start now config) s) (i : Fin n) :
    (s.node i).lastApplied ≤ (s.node i).commitIndex ∧
    (s.node i).commitIndex ≤ (s.node i).logCount ∧
    (s.node i).store = replay KvStore.zero ((s.node i).log.take (s.node i).lastApplied) ∧
    ∀ a s', Steady s a → s.step a = some s' → Keeps (s.node i) (s'.node i) := by
  obtain ⟨R, g, h⟩ := exists_steady_history tables run
  have hs := (h.nodes i).safe trivial
  refine ⟨hs.applied_le, hs.commit_le, hs.store, fun a s' ha hstep => ?_⟩
  obtain ⟨-, -, -, hkeep⟩ := h.step hstep ha.1 (Action.clean_of_fixed ha.1.1) fun _ => ha.2
  exact hkeep trivial i

theorem committed_permanent_trio : ∃ s, Reach Cluster.step Steady trio s ∧
    (s.node 1).commitIndex = 1 ∧
    (s.node 1).store = replay KvStore.zero ((s.node 1).log.take (s.node 1).lastApplied) := by
  have hrun : (runList Cluster.step (fun s a => decide (Steady s a)) trio trioCommit).any
      (fun s => (s.node 1).commitIndex = 1) = true := by
    decide +kernel
  obtain ⟨s, run, hc⟩ := exists_reach (fun s a => of_decide_eq_true) hrun
  exact ⟨s, run, of_decide_eq_true hc, (committed_permanent fixedTables_trio run 1).2.2.1⟩

/-- Node 2 overwrites its committed entry. -/
theorem committed_overwritten : ¬∀ (n : ℕ) (now : Fin n → ℕ) (config : Fin n → RaftConfig),
    FixedTables (Cluster.start now config).node →
    ∀ s, Reach Cluster.step (fun _ a => a.fixed = true) (Cluster.start now config) s →
    ∀ (a : Action n) s', a.fixed = true → s.step a = some s' →
    ∀ i, Keeps (s.node i) (s'.node i) := by
  intro h
  have hrun : (runList Cluster.step (fun _ a => a.fixed) trio
      (trioStale ++ trioUsurp ++ trioOffer)).any
      (fun s => (s.step (.deliver 0 1 still)).any fun s' =>
        (s'.node 1).log.take (s.node 1).commitIndex ≠
          (s.node 1).log.take (s.node 1).commitIndex) = true := by
    decide +kernel
  obtain ⟨s, run, hs⟩ := exists_reach (fun s a => id) hrun
  obtain ⟨s', hstep, hne⟩ := (Option.any_eq_true _ _).mp hs
  exact of_decide_eq_true hne
    (h 3 _ _ fixedTables_trio s run (.deliver 0 1 still) s' rfl hstep 1).log

end Fixed

end RaftKv
