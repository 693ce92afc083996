import Mathlib.Order.Bounds.Basic
import RaftKv.Exchange

/-! The commit rule.  `recompute_commit_locked` looks down from the end of the log for an index that
it can commit, and so finds the greatest one. -/

namespace RaftKv

open Stdio

attribute [local irreducible] toInt32

variable {x y : RaftNode}

/-- The leader can commit index `N`: it is not committed yet, its entry is of the current term, and
the leader and the peers that have reported it are more than half of the cluster. -/
structure Committable (x : RaftNode) (N : ℕ) : Prop where
  new : x.commitIndex < N
  within : N ≤ x.logCount
  current : x.log[N - 1]?.map (·.term) = some x.currentTerm
  majority : x.peerCount + 1 < 2 * (1 + x.peers.countP fun p => (N : ℤ) ≤ p.matchIndex)

instance (x : RaftNode) (N : ℕ) : Decidable (Committable x N) :=
  decidable_of_iff (_ ∧ _ ∧ _ ∧ _)
    ⟨fun h => ⟨h.1, h.2.1, h.2.2.1, h.2.2.2⟩, fun h => ⟨h.new, h.within, h.current, h.majority⟩⟩

/-- `majority_count` is more than half of the cluster, for even and odd sizes. -/
theorem majorityCount_le_iff {N : ℕ} (hN : N ≤ raftMaxLog) :
    majorityCount x ≤ matchCount x N ↔
      x.peerCount + 1 < 2 * (1 + x.peers.countP fun p => (N : ℤ) ≤ p.matchIndex) := by
  have hlt : N < 2 ^ 31 := by
    simp only [raftMaxLog] at hN
    omega
  rw [majorityCount, matchCount, toInt32_of_lt hlt]
  omega

/-- The search from index `m` down. -/
theorem commitScan_greatest {m : ℕ} (hm : m ≤ x.logCount) (room : x.logCount ≤ raftMaxLog) :
    (∃ N, commitScan x m = some N ∧ IsGreatest {N | Committable x N ∧ N ≤ m} N) ∨
      (commitScan x m = none ∧ ∀ N, Committable x N → m < N) := by
  induction m with
  | zero => exact Or.inr ⟨rfl, fun N h => (Nat.zero_le _).trans_lt h.new⟩
  | succ m ih =>
    -- the loop goes on when the index cannot be committed
    have skip : ¬Committable x (m + 1) →
        (∃ N, commitScan x m = some N ∧ IsGreatest {N | Committable x N ∧ N ≤ m + 1} N) ∨
          (commitScan x m = none ∧ ∀ N, Committable x N → m + 1 < N) := by
      intro hno
      rcases ih (by omega) with ⟨N, hscan, ⟨hN, hle⟩, hmax⟩ | ⟨hscan, hall⟩
      · refine Or.inl ⟨N, hscan, ⟨hN, by omega⟩, fun k ⟨hk, hkm⟩ => ?_⟩
        have hne : k ≠ m + 1 := by
          rintro rfl
          exact hno hk
        exact hmax ⟨hk, by omega⟩
      · refine Or.inr ⟨hscan, fun N hN => ?_⟩
        have hlt := hall N hN
        have hne : N ≠ m + 1 := by
          rintro rfl
          exact hno hN
        omega
    rw [commitScan]
    split
    · rename_i hold
      refine Or.inr ⟨rfl, fun N hN => ?_⟩
      have := hN.new
      omega
    · rename_i hnew
      split
      · rename_i hterm
        exact skip fun h => hterm h.current
      · rename_i hterm
        split
        · rename_i hmaj
          have hmajority := (majorityCount_le_iff (hm.trans room)).mp hmaj
          refine Or.inl ⟨m + 1, rfl, ⟨⟨by omega, hm, not_not.mp hterm, hmajority⟩, le_rfl⟩, ?_⟩
          exact fun k hk => hk.2
        · rename_i hfew
          exact skip fun h => hfew ((majorityCount_le_iff (hm.trans room)).mpr h.majority)

/-- `recompute_commit_locked` commits the greatest index that the leader can commit, and applies the
entries up to it, or it changes nothing. -/
theorem commit_rule (lead : x.role = .leader) (applied : x.lastApplied ≤ x.commitIndex)
    (room : x.logCount ≤ raftMaxLog) : ∃ y, recomputeCommitLocked x = some y ∧
      ((∃ N, IsGreatest {N | Committable x N} N ∧ y.commitIndex = N ∧ y.lastApplied = N ∧
          y.store = replay x.store ((x.log.take N).drop x.lastApplied)) ∨
        ((∀ N, ¬Committable x N) ∧ y.commitIndex = x.commitIndex ∧
          y.lastApplied = x.lastApplied ∧ y.store = x.store)) ∧
      y.log = x.log ∧ y.currentTerm = x.currentTerm ∧ y.votedFor = x.votedFor ∧
      y.votesReceived = x.votesReceived ∧ y.peers = x.peers := by
  rw [recomputeCommitLocked, if_neg (not_not.mpr lead)]
  rcases commitScan_greatest le_rfl room with ⟨N, hscan, ⟨hN, -⟩, hmax⟩ | ⟨hscan, hnone⟩
  · rw [hscan]
    obtain ⟨y, hy⟩ := Option.isSome_iff_exists.mp
      (@applyCommittedLocked_isSome (({ x with commitIndex := N }).logEvent (.committedThrough N))
        hN.within)
    obtain ⟨rfl, hlength⟩ := applyCommittedLocked_eq hy
    refine ⟨_, hy, Or.inl ⟨N, ⟨hN, fun k hk => hmax ⟨hk, hk.within⟩⟩, rfl, ?_, rfl⟩,
      rfl, rfl, rfl, rfl, rfl⟩
    have hnew := hN.new
    rw [RaftNode.replayed]
    dsimp only
    rw [hlength]
    simp only [RaftNode.logEvent]
    omega
  · rw [hscan]
    exact ⟨x, rfl, Or.inr ⟨fun N hN => absurd hN.within (not_le.mpr (hnone N hN)), rfl, rfl, rfl⟩,
      rfl, rfl, rfl, rfl, rfl⟩

/-- Node 1 of the three leads with two entries, of which node 2 has reported the first. -/
def trioReported : RaftNode :=
  { trioNode node1 .leader 1
      [⟨1, 1, .set, bytes "k", bytes "a"⟩, ⟨2, 1, .set, bytes "k", bytes "b"⟩]
    with peers := [{ trioPeer 2 with matchIndex := 1 }, trioPeer 3] }

theorem commit_rule_trio : ∃ y, recomputeCommitLocked trioReported = some y ∧ y.commitIndex = 1 ∧
    y.lastApplied = 1 := by
  have first : Committable trioReported 1 := by decide
  obtain ⟨y, hy, hcases, -⟩ := @commit_rule trioReported rfl le_rfl (by decide)
  rcases hcases with ⟨N, ⟨hN, hmax⟩, hcommit, happlied, -⟩ | ⟨hnone, -⟩
  · have hle : 1 ≤ N := hmax first
    have hlast : N ≤ 2 := hN.within
    have hsecond : N ≠ 2 := by
      rintro rfl
      exact absurd hN (by decide)
    obtain rfl : N = 1 := by omega
    exact ⟨y, hy, hcommit, happlied⟩
  · exact absurd first (hnone 1)

end RaftKv
