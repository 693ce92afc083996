import RaftKv.History
import RaftKv.Interleave
import RaftKv.Terms
import RaftKv.Window

/-! Where a command is kept.  A leader only appends to its log, its match indexes say what the peers
of its term have, and a majority keeps what some node has committed. -/

namespace RaftKv

open Consensus Consensus.Ledger Function Runs Stdio

attribute [local irreducible] toInt32

/-! ### The log of a leader -/

section Reign

variable {x y z : RaftNode} {env : Env} {sec : Section} {e : Effect}

/-- A section that leaves its node a leader only adds to the log. -/
theorem Reign.log_grows (reign : Reign x sec y.standing) : x.log <+: y.log := by
  generalize hst : y.standing = st at reign
  cases reign with
  | keeps =>
    obtain ⟨-, hlog, -⟩ := standing_eq.mp hst
    rw [hlog]
  | stands | wins | sends | takes | backs | commits | admits | removes =>
    obtain ⟨-, hlog, -⟩ := standing_eq.mp hst
    rw [hlog]
  | appends =>
    obtain ⟨-, hlog, -⟩ := standing_eq.mp hst
    rw [hlog]
    exact List.prefix_append _ _

/-- What becomes of a node that leads in term `t` with a log. -/
def Kept (t : ℕ) (log : List RaftLogEntry) (x : RaftNode) : Prop :=
  t < x.currentTerm ∨ (x.currentTerm = t ∧ x.role = .follower) ∨
    (x.currentTerm = t ∧ x.role = .leader ∧ log <+: x.log)

theorem Kept.exec {t : ℕ} {log : List RaftLogEntry} (h : Kept t log x)
    (he : exec env sec x = some e) (up : x.currentTerm ≤ e.node.currentTerm) :
    Kept t log e.node := by
  rcases h with later | hrest
  · exact Or.inl (later.trans_le up)
  obtain ⟨hterm, stood⟩ : x.currentTerm = t ∧ x.role ≠ .candidate := by
    rcases hrest with ⟨hterm, hrole⟩ | ⟨hterm, hrole, -⟩
    · exact ⟨hterm, by rw [hrole]; exact RaftRole.noConfusion⟩
    · exact ⟨hterm, by rw [hrole]; exact RaftRole.noConfusion⟩
  rcases up.lt_or_eq with newer | same
  · exact Or.inl (hterm ▸ newer)
  right
  by_cases lead : e.node.role = .leader
  · have reign := exec_reign he lead
    rcases hrest with ⟨-, hrole⟩ | ⟨-, -, hlog⟩
    · exact absurd hrole (reign.led same.symm)
    · exact Or.inr ⟨same.symm.trans hterm, lead, hlog.trans reign.log_grows⟩
  · exact Or.inl ⟨same.symm.trans hterm, (exec_turn he).falls stood same.symm lead⟩

/-- Leader append-only: between two states in which a node leads in one term, with no election in
the last term between them, it has only added to its log, whatever lines it has read, from
whomever. -/
theorem leader_append_only (fits : x.currentTerm < 2 ^ 32) (lead : x.role = .leader)
    (run : Reach RaftNode.step Advancing x y) (lead' : y.role = .leader)
    (same : y.currentTerm = x.currentTerm) : x.log <+: y.log := by
  have kept : y.currentTerm < 2 ^ 32 ∧ Kept x.currentTerm x.log y := by
    refine run.invariant (P := fun y => y.currentTerm < 2 ^ 32 ∧ Kept x.currentTerm x.log y)
      ⟨fits, Or.inr (Or.inr ⟨rfl, lead, List.prefix_rfl⟩)⟩ ?_
    rintro y a z - ⟨hy, h⟩ ⟨enters, ha⟩ hstep
    obtain ⟨e, he, rfl⟩ := Option.map_eq_some_iff.mp hstep
    have turn := exec_termTurn he
    exact ⟨turn.lt hy enters.fits, h.exec he ((turn.rises_iff hy).mpr ha).1⟩
  rcases kept.2 with later | ⟨-, hrole⟩ | ⟨-, -, hlog⟩
  · omega
  · exact absurd (lead'.symm.trans hrole) RaftRole.noConfusion
  · exact hlog

/-- A lone leader that has a command takes another. -/
theorem leader_append_only_lone : ∃ y, Reach RaftNode.step Advancing loneSubmitted y ∧
    loneSubmitted.log.length = 1 ∧ y.log.length = 2 ∧ loneSubmitted.log <+: y.log := by
  let sec : Section := .raftSubmitCommand .set (bytes "k") (bytes "b")
  have hrun : (loneSubmitted.step (still, sec)).any (fun y => y.role = .leader ∧
      y.currentTerm = loneSubmitted.currentTerm ∧ y.log.length = 2) = true := by
    decide +kernel
  obtain ⟨y, hstep, hy⟩ := (Option.any_eq_true _ _).mp hrun
  obtain ⟨lead, same, hlen⟩ := of_decide_eq_true hy
  have run : Reach RaftNode.step Advancing loneSubmitted y :=
    .tail (a := (still, sec)) .refl ⟨Or.inr rfl, rfl⟩ hstep
  exact ⟨y, run, by decide +kernel, hlen,
    leader_append_only (by decide +kernel) (by decide +kernel) run lead same⟩

end Reign

/-! ### The logs of the others -/

section Fixed

variable {n : ℕ} {now : Fin n → ℕ} {config : Fin n → RaftConfig} {s s' : Cluster n}
  {R : Roster n} {g : Ledger (Fin n) RaftLogEntry} {i j : Fin n}

theorem Sim.log_eq (h : Sim True R plainView g s) (i : Fin n) : g.log i = (s.node i).log := by
  rw [(h.nodes i).log]
  exact List.map_id _

/-- What a leader counts for a peer is in the log of the peer, unless that has a later term. -/
theorem Sim.matched_log (h : Sim True R plainView g s) (lead : (s.node i).role = .leader) {p : Peer}
    (hp : p ∈ (s.node i).peers) (hid : p.id = (s.node j).id)
    (older : (s.node j).currentTerm ≤ (s.node i).currentTerm) :
    p.matchIndex.toNat ≤ (s.node i).logCount ∧
      (s.node i).log.take p.matchIndex.toNat <+: (s.node j).log := by
  rcases Nat.eq_zero_or_pos p.matchIndex.toNat with hzero | hpos
  · rw [hzero]
    exact ⟨Nat.zero_le _, List.nil_prefix⟩
  have hheld := ((h.nodes i).safe trivial).matched lead j p hp (hid.trans (h.lists j).id) _ hpos
    (Int.toNat_of_nonneg (by omega)).le
  obtain ⟨-, hlead⟩ := (h.nodes i).leads lead
  have hlength := ((h.complete trivial).heldTerm j _ _ hheld).2
  have hpre := (h.complete trivial).held_stays hheld fun w hw hwj _ => by
    rw [(h.nodes j).term] at hwj
    omega
  rw [hlead, h.log_eq] at hlength hpre
  rw [h.log_eq] at hpre
  exact ⟨hlength, hpre⟩

/-- In a steady run with plain commands, a leader's match index of a peer is within its log, and the
peer's log begins with the entries up to it, as long as the peer has not gone to a later term. -/
theorem match_index_truthful (tables : FixedTables (Cluster.start now config).node)
    (run : Reach Cluster.step SteadyPlain (Cluster.start now config) s)
    (lead : (s.node i).role = .leader) {p : Peer} (hp : p ∈ (s.node i).peers)
    (hid : p.id = (s.node j).id) (older : (s.node j).currentTerm ≤ (s.node i).currentTerm) :
    p.matchIndex.toNat ≤ (s.node i).logCount ∧
      (s.node i).log.take p.matchIndex.toNat <+: (s.node j).log := by
  obtain ⟨R, h0⟩ := sim_start tables True plainView
  obtain ⟨g, h, -⟩ := h0.reach_keeps run
  exact h.matched_log lead hp hid older

/-- Node 1 counts one entry for node 2. -/
theorem match_index_truthful_trio : ∃ s, Reach Cluster.step SteadyPlain trio s ∧
    ∃ p ∈ (s.node 0).peers, p.id = (s.node 1).id ∧ p.matchIndex = 1 ∧
      (s.node 0).log.take p.matchIndex.toNat <+: (s.node 1).log := by
  have hrun : (runList Cluster.step (fun s a => decide (SteadyPlain s a)) trio trioCommit).any
      (fun s => ∃ p ∈ (s.node 0).peers, (s.node 0).role = .leader ∧ p.id = (s.node 1).id ∧
        p.matchIndex = 1 ∧ (s.node 1).currentTerm ≤ (s.node 0).currentTerm) = true := by
    decide +kernel
  obtain ⟨s, run, hs⟩ := exists_reach (fun s a => of_decide_eq_true) hrun
  obtain ⟨p, hp, lead, hid, hmatch, older⟩ := of_decide_eq_true hs
  exact ⟨s, run, p, hp, hid, hmatch,
    (match_index_truthful fixedTables_trio run lead hp hid older).2⟩

/-- In a steady run with plain commands, what some node has committed is at all later times in the
logs of a majority. -/
theorem committed_stored (tables : FixedTables (Cluster.start now config).node)
    (run : Reach Cluster.step SteadyPlain (Cluster.start now config) s)
    (run' : Reach Cluster.step SteadyPlain s s') (i : Fin n) :
    ∃ Q : Finset (Fin n), n < 2 * Q.card ∧
      ∀ j ∈ Q, (s.node i).log.take (s.node i).commitIndex <+: (s'.node j).log := by
  obtain ⟨R, h0⟩ := sim_start tables True plainView
  obtain ⟨g, h, -⟩ := h0.reach_keeps run
  obtain ⟨g', e, h'⟩ := h.reach run' fun s a ha => ha.ok
  by_cases hnone : (s.node i).log.take (s.node i).commitIndex = []
  · refine ⟨Finset.univ, ?_, fun j _ => hnone ▸ List.nil_prefix⟩
    have := i.pos
    rw [Finset.card_univ, Fintype.card_fin]
    omega
  · have settled := ((h.nodes i).safe trivial).settled.extend e
    rw [h.log_eq] at settled
    obtain ⟨Q, hQ, hlogs⟩ := (h'.complete trivial).settled_quorum h'.matching Majority.meet settled
      hnone
    refine ⟨Q, ?_, fun j hj => ?_⟩
    · rwa [Majority, Fintype.card_fin] at hQ
    · rw [← h'.log_eq]
      exact hlogs j hj

/-- The entry that node 1 commits is with a majority when node 2 has been elected. -/
theorem committed_stored_trio : ∃ s s', Reach Cluster.step SteadyPlain trio s ∧
    Reach Cluster.step SteadyPlain s s' ∧ (s.node 0).commitIndex = 1 ∧
    (s'.node 1).role = .leader ∧ ∃ Q : Finset (Fin 3), 3 < 2 * Q.card ∧
      ∀ j ∈ Q, (s.node 0).log.take (s.node 0).commitIndex <+: (s'.node j).log := by
  have hrun : (runList Cluster.step (fun s a => decide (SteadyPlain s a)) trio trioCommit).any
      (fun s => decide ((s.node 0).commitIndex = 1) &&
        (runList Cluster.step (fun s a => decide (SteadyPlain s a)) s trioSucceed).any fun s' =>
          (s'.node 1).role = .leader) = true := by
    decide +kernel
  obtain ⟨s, run, hs⟩ := exists_reach (fun s a => of_decide_eq_true) hrun
  obtain ⟨hcommit, hrun'⟩ := Bool.and_eq_true_iff.mp hs
  obtain ⟨s', run', hs'⟩ := exists_reach (fun s a => of_decide_eq_true) hrun'
  exact ⟨s, s', run, run', of_decide_eq_true hcommit, of_decide_eq_true hs',
    committed_stored fixedTables_trio run run' 0⟩

end Fixed

end RaftKv
