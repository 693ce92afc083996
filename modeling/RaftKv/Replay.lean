import RaftKv.RaftCore

/-! What the shared steps of the handlers do to the log and the store: `apply_committed_locked`
replays entries into the store, `storeEntry` keeps the log or ends it with the incoming entry, and
`recompute_commit_locked` commits an entry of the current term that a majority has reported.  The
branches of the vote, `AE` and `build_append_locked` code are given by equations and inversions. -/

namespace RaftKv

open Stdio

/-! ### Applying -/

/-- The store after `kv_apply` of the entries in order. -/
def replay (store : KvStore) (entries : List RaftLogEntry) : KvStore :=
  entries.foldl (fun store e => (kvApply store e.op e.key e.value).2) store

theorem replay_append (store : KvStore) (es fs : List RaftLogEntry) :
    replay store (es ++ fs) = replay (replay store es) fs := List.foldl_append

/-- The events of applying entries, the first of them at position `slot + 1`. -/
def appliedFrom (slot : ℕ) : List RaftLogEntry → List Event
  | [] => []
  | e :: es =>
    (if e.op = .set ∨ e.op = .del then [.applied (slot + 1) e] else []) ++ appliedFrom (slot + 1) es

def Event.entry : Event → Option RaftLogEntry
  | .applied _ e => some e
  | _ => none

/-- The entries that the node has applied, in order. -/
def RaftNode.applied (node : RaftNode) : List RaftLogEntry := node.eventLog.filterMap Event.entry

def RaftNode.replayed (node : RaftNode) (es : List RaftLogEntry) : RaftNode :=
  { node with
    lastApplied := node.lastApplied + es.length
    store := replay node.store es
    eventLog := node.eventLog ++ appliedFrom node.lastApplied es }

theorem kvApply_none (store : KvStore) (key value : Text) :
    (kvApply store .none key value).2 = store := by
  unfold kvApply
  split
  · rfl
  · simp

theorem applyEntry_eq (node : RaftNode) (e : RaftLogEntry) :
    applyEntry node e = node.replayed [e] := by
  unfold applyEntry RaftNode.replayed RaftNode.logEvent
  by_cases h : e.op = .set ∨ e.op = .del
  · simp [h, appliedFrom, replay]
  · have hop : e.op = .none := by
      cases hop : e.op <;> simp [hop] at h ⊢
    simp [hop, appliedFrom, replay, kvApply_none]

theorem replayed_replayed (node : RaftNode) (e : RaftLogEntry) (es : List RaftLogEntry) :
    (node.replayed [e]).replayed es = node.replayed (e :: es) := by
  simp only [RaftNode.replayed, List.length_cons, List.length_nil, appliedFrom, List.append_nil,
    List.append_assoc]
  congr 1
  omega

theorem applyLoop_eq {k : ℕ} {node node' : RaftNode} (h : applyLoop k node = some node') :
    node' = node.replayed ((node.log.drop node.lastApplied).take k) ∧
      ((node.log.drop node.lastApplied).take k).length = k := by
  induction k generalizing node with
  | zero =>
    obtain rfl : node = node' := by simpa [applyLoop] using h
    simp [RaftNode.replayed, replay, appliedFrom]
  | succ k ih =>
    obtain ⟨e, he, hrest⟩ := Option.bind_eq_some_iff.mp h
    obtain ⟨hlt, rfl⟩ := List.getElem?_eq_some_iff.mp he
    rw [applyEntry_eq] at hrest
    obtain ⟨h1, h2⟩ := ih hrest
    rw [List.drop_eq_getElem_cons hlt, List.take_succ_cons, ← replayed_replayed]
    exact ⟨h1, by simpa [RaftNode.replayed] using h2⟩

/-- `apply_committed_locked` replays the entries between `last_applied` and `commit_index`. -/
theorem applyCommittedLocked_eq {node node' : RaftNode}
    (h : applyCommittedLocked node = some node') :
    node' = node.replayed ((node.log.take node.commitIndex).drop node.lastApplied) ∧
      ((node.log.take node.commitIndex).drop node.lastApplied).length =
        node.commitIndex - node.lastApplied := by
  rw [List.drop_take]
  exact applyLoop_eq h

theorem applyLoop_isSome {k : ℕ} {node : RaftNode}
    (h : k = 0 ∨ node.lastApplied + k ≤ node.logCount) : (applyLoop k node).isSome := by
  induction k generalizing node with
  | zero => rfl
  | succ k ih =>
    have hlt : node.lastApplied < node.log.length := by
      simp only [RaftNode.logCount] at h
      omega
    rw [applyLoop, List.getElem?_eq_getElem hlt, Option.bind_eq_bind, Option.bind_some]
    apply ih
    rw [applyEntry_eq]
    simp only [RaftNode.replayed, RaftNode.logCount, List.length_singleton] at h ⊢
    omega

/-- Committed entries in the log can be applied without reading outside it. -/
theorem applyCommittedLocked_isSome {node : RaftNode} (h : node.commitIndex ≤ node.logCount) :
    (applyCommittedLocked node).isSome := by
  apply applyLoop_isSome
  omega

theorem mem_appliedFrom {slot k : ℕ} {e : RaftLogEntry} {es : List RaftLogEntry}
    (h : Event.applied k e ∈ appliedFrom slot es) : slot < k ∧ es[k - slot - 1]? = some e := by
  induction es generalizing slot with
  | nil => simp [appliedFrom] at h
  | cons d es ih =>
    rw [appliedFrom, List.mem_append] at h
    rcases h with h | h
    · split at h
      · obtain ⟨rfl, rfl⟩ : k = slot + 1 ∧ e = d := by simpa using h
        simp
      · simp at h
    · obtain ⟨h1, h2⟩ := ih h
      refine ⟨by omega, ?_⟩
      rw [show k - slot - 1 = (k - (slot + 1) - 1) + 1 by omega, List.getElem?_cons_succ, h2]

theorem becomesLeader_notMem_appliedFrom (slot t : ℕ) (es : List RaftLogEntry) :
    Event.becomesLeader t ∉ appliedFrom slot es := by
  induction es generalizing slot with
  | nil => simp [appliedFrom]
  | cons e es ih =>
    rw [appliedFrom, List.mem_append, not_or]
    refine ⟨?_, ih (slot + 1)⟩
    split <;> simp

theorem replay_appliedFrom (store : KvStore) (slot : ℕ) (es : List RaftLogEntry) :
    replay store ((appliedFrom slot es).filterMap Event.entry) = replay store es := by
  induction es generalizing slot store with
  | nil => rfl
  | cons e es ih =>
    rw [appliedFrom, List.filterMap_append, replay_append, ih _ (slot + 1),
      ← List.singleton_append (x := e), replay_append]
    congr 1
    by_cases h : e.op = .set ∨ e.op = .del
    · simp [h, Event.entry]
    · have hop : e.op = .none := by
        cases hop : e.op <;> simp [hop] at h ⊢
      simp [hop, replay, kvApply_none]

/-! ### Storing an entry -/

/-- Every entry carries its position, counted from 1. -/
def Indexed (log : List RaftLogEntry) : Prop := ∀ k e, log[k]? = some e → e.index = k + 1

theorem Indexed.take {log : List RaftLogEntry} (h : Indexed log) (n : ℕ) :
    Indexed (log.take n) := by
  intro k e he
  rw [List.getElem?_take] at he
  split at he
  · exact h k e he
  · cases he

theorem Indexed.concat {log : List RaftLogEntry} {e : RaftLogEntry} (h : Indexed log)
    (he : e.index = log.length + 1) : Indexed (log ++ [e]) := by
  intro k d hd
  rcases Nat.lt_trichotomy k log.length with hk | rfl | hk
  · rw [List.getElem?_append_left hk] at hd
    exact h k d hd
  · obtain rfl : e = d := by simpa using hd
    exact he
  · rw [List.getElem?_eq_none (by simp; omega)] at hd
    cases hd

/-- An entry that comes right after a position of the log is already there by its term, or the log
ends with it. -/
theorem storeEntry_cases {log log' : List RaftLogEntry} {e : RaftLogEntry} {prev : ℕ}
    (h : storeEntry log e = some log') (index : e.index = prev + 1) (reach : prev ≤ log.length)
    (room : prev < raftMaxLog) :
    (∃ old, log[prev]? = some old ∧ old.term = e.term ∧ log' = log) ∨
    ((∀ old, log[prev]? = some old → old.term ≠ e.term) ∧ log' = log.take prev ++ [e]) := by
  unfold storeEntry at h
  rw [index] at h
  by_cases hlt : prev < log.length
  · have hget : log[prev]? = some log[prev] := List.getElem?_eq_getElem hlt
    simp only [Nat.succ_le_of_lt hlt, if_true, Nat.add_sub_cancel, Nat.add_one_ne_zero, if_false,
      hget, Option.bind_eq_bind, Option.bind_some] at h
    by_cases hterm : log[prev].term = e.term
    · refine Or.inl ⟨log[prev], hget, hterm, ?_⟩
      simp only [hterm, ne_eq, not_true_eq_false, if_false, Nat.add_right_cancel_iff] at h
      rw [if_neg (by omega)] at h
      exact (Option.some.inj h).symm
    · refine Or.inr ⟨fun old hold => ?_, ?_⟩
      · rw [← Option.some.inj (hget.symm.trans hold)]
        exact hterm
      · simp only [hterm, ne_eq, not_false_eq_true, if_true, List.length_take,
          Nat.min_eq_left hlt.le, true_and, room] at h
        exact (Option.some.inj h).symm
  · have heq : prev = log.length := by omega
    subst heq
    refine Or.inr ⟨fun old hold => ?_, ?_⟩
    · rw [List.getElem?_eq_none le_rfl] at hold
      cases hold
    · simp only [Nat.not_succ_le_self, if_false, Option.bind_eq_bind, Option.bind_some, true_and,
        room, if_true] at h
      rw [List.take_length]
      exact (Option.some.inj h).symm

/-- An entry behind the log that does not fit there is not stored. -/
theorem storeEntry_beyond {log log' : List RaftLogEntry} {d : RaftLogEntry}
    (h : storeEntry log d = some log') (beyond : log.length < d.index)
    (unfit : ¬(d.index = log.length + 1 ∧ log.length < raftMaxLog)) : log' = log := by
  unfold storeEntry at h
  rw [if_neg (not_le.mpr beyond), Option.bind_eq_bind, Option.bind_some] at h
  dsimp only at h
  rw [if_neg unfit] at h
  exact (Option.some.inj h).symm

/-- A full log takes no entry after its last one. -/
theorem storeEntry_full {log log' : List RaftLogEntry} {d : RaftLogEntry}
    (h : storeEntry log d = some log') (index : d.index = log.length + 1)
    (full : raftMaxLog ≤ log.length) : log' = log :=
  storeEntry_beyond h (by omega) (by omega)

/-- An entry that is in the log afterwards was in it, or is the new one. -/
theorem mem_storeEntry {log log' : List RaftLogEntry} {d c : RaftLogEntry}
    (h : storeEntry log d = some log') (hc : c ∈ log') : c ∈ log ∨ c = d := by
  have put : ∀ {cut : List RaftLogEntry} {p : Prop} [Decidable p], cut ⊆ log →
      c ∈ (if p then cut ++ [d] else cut) → c ∈ log ∨ c = d := by
    intro cut p _ hsub hc
    split at hc
    · exact (List.mem_append.mp hc).imp (fun hc => hsub hc) List.mem_singleton.mp
    · exact Or.inl (hsub hc)
  unfold storeEntry at h
  by_cases hle : d.index ≤ log.length
  · by_cases hzero : d.index = 0
    · simp [hzero] at h
    · have hget := List.getElem?_eq_getElem (l := log) (i := d.index - 1) (by omega)
      simp only [hle, if_true, hzero, if_false, hget, Option.bind_eq_bind, Option.bind_some] at h
      rw [← Option.some.inj h] at hc
      refine put ?_ hc
      split
      · exact List.take_subset _ _
      · exact List.Subset.refl _
  · simp only [hle, if_false, Option.bind_eq_bind, Option.bind_some] at h
    rw [← Option.some.inj h] at hc
    exact put (List.Subset.refl _) hc

/-! ### The entry before -/

theorem termAt_cases {x : RaftNode} {k pt : ℕ} (h : termAt x k = some pt) :
    (k = 0 ∧ pt = 0) ∨ (0 < k ∧ x.log[k - 1]?.map (·.term) = some pt) := by
  unfold termAt at h
  split at h
  · rename_i hk
    exact Or.inl ⟨hk, (Option.some.inj h).symm⟩
  · rename_i hk
    exact Or.inr ⟨by omega, h⟩

theorem termAt_lt {x : RaftNode} {k pt bound : ℕ} (hterms : ∀ e ∈ x.log, e.term < bound)
    (hbound : 0 < bound) (h : termAt x k = some pt) : pt < bound := by
  rcases termAt_cases h with ⟨-, rfl⟩ | ⟨-, hget⟩
  · exact hbound
  · obtain ⟨e, he, rfl⟩ := Option.map_eq_some_iff.mp hget
    exact hterms e (List.mem_of_getElem? he)

theorem prevMatches_cases {x : RaftNode} {p pt : ℕ} (h : prevMatches x p pt = true) :
    p = 0 ∨ (0 < p ∧ p ≤ x.log.length ∧ x.log[p - 1]?.map (·.term) = some pt) := by
  simp only [prevMatches, Bool.or_eq_true, Bool.and_eq_true, decide_eq_true_eq] at h
  rcases h with h | ⟨hle, hterm⟩
  · exact Or.inl h
  · rcases Nat.eq_zero_or_pos p with h0 | hpos
    · exact Or.inl h0
    · exact Or.inr ⟨hpos, hle, hterm⟩

theorem prevMatches_le {x : RaftNode} {p pt : ℕ} (h : prevMatches x p pt = true) :
    p ≤ x.log.length := by
  rcases prevMatches_cases h with rfl | ⟨-, hle, -⟩
  · exact Nat.zero_le _
  · exact hle

theorem prevMatches_congr {x y : RaftNode} (h : x.log = y.log) (p pt : ℕ) :
    prevMatches x p pt = prevMatches y p pt := by
  rw [prevMatches, prevMatches, RaftNode.logCount, RaftNode.logCount, h]

/-! ### Committing -/

/-- A commit found by `recompute_commit_locked` is new, in the log, of the current term, and
reported by a majority. -/
theorem commitScan_spec {node : RaftNode} {k index : ℕ} (h : commitScan node k = some index) :
    node.commitIndex < index ∧ index ≤ k ∧
      node.log[index - 1]?.map (·.term) = some node.currentTerm ∧
      majorityCount node ≤ matchCount node index := by
  induction k with
  | zero => cases h
  | succ k ih =>
    rw [commitScan] at h
    split at h
    · cases h
    · rename_i hnew
      split at h
      · obtain ⟨h1, h2, h3⟩ := ih h
        exact ⟨h1, by omega, h3⟩
      · rename_i hterm
        split at h
        · rename_i hmaj
          obtain rfl := Option.some.inj h
          exact ⟨by omega, le_rfl, not_not.mp hterm, hmaj⟩
        · obtain ⟨h1, h2, h3⟩ := ih h
          exact ⟨h1, by omega, h3⟩

/-- `recompute_commit_locked` changes the commit index, and what follows from applying entries. -/
theorem recomputeCommitLocked_shape {x y : RaftNode} (h : recomputeCommitLocked x = some y) :
    ∃ c a store events, y = { x with
        commitIndex := c, lastApplied := a, store := store, eventLog := events } ∧
      (c = x.commitIndex ∨ c ≤ x.logCount) := by
  unfold recomputeCommitLocked at h
  split at h
  · exact ⟨_, _, _, _, (Option.some.inj h).symm, Or.inl rfl⟩
  · split at h
    · rename_i index hscan
      exact ⟨index, _, _, _, (applyCommittedLocked_eq h).1, Or.inr (commitScan_spec hscan).2.1⟩
    · exact ⟨_, _, _, _, (Option.some.inj h).symm, Or.inl rfl⟩

/-! ### Stepping down -/

theorem becomeFollowerLocked_of_lt {now term : ℕ} {node : RaftNode} {leaderId : ℤ}
    (h : node.currentTerm < term) :
    becomeFollowerLocked now node term leaderId =
      { node with
        currentTerm := term, votedFor := -1, role := .follower, leaderId, votesReceived := 0
        lastLeaderContactMs := now, electionTimeoutMs := randomElectionTimeout node now } := by
  unfold becomeFollowerLocked
  rw [if_pos h]
  rfl

theorem becomeFollowerLocked_of_le {now term : ℕ} {node : RaftNode} {leaderId : ℤ}
    (h : term ≤ node.currentTerm) :
    becomeFollowerLocked now node term leaderId =
      { node with
        role := .follower, leaderId, votesReceived := 0
        lastLeaderContactMs := now, electionTimeoutMs := randomElectionTimeout node now } := by
  unfold becomeFollowerLocked
  rw [if_neg (Nat.not_lt.mpr h)]

theorem becomeFollowerLocked_fields (now : ℕ) (node : RaftNode) (term : ℕ) (leaderId : ℤ) :
    (becomeFollowerLocked now node term leaderId).role = .follower ∧
      (becomeFollowerLocked now node term leaderId).commitIndex = node.commitIndex ∧
      (becomeFollowerLocked now node term leaderId).log = node.log := by
  rcases Nat.lt_or_ge node.currentTerm term with hlt | hle
  · rw [becomeFollowerLocked_of_lt hlt]
    exact ⟨rfl, rfl, rfl⟩
  · rw [becomeFollowerLocked_of_le hle]
    exact ⟨rfl, rfl, rfl⟩

/-! ### Elections -/

/-- The node that `start_election` makes a candidate. -/
def candidate (now : ℕ) (x : RaftNode) : RaftNode :=
  { x with
    role := .candidate, currentTerm := (x.currentTerm + 1) % 2 ^ 32, votedFor := toInt32 x.id
    votesReceived := 1, leaderId := -1, lastLeaderContactMs := now
    electionTimeoutMs := randomElectionTimeout x now }

theorem startElection_eq (now : ℕ) (x : RaftNode) :
    startElection now x =
      if majorityCount x ≤ toInt32 (1 : ℕ) then
        { node := (becomeLeaderLocked (candidate now x)).logEvent
            (.startsElection ((x.currentTerm + 1) % 2 ^ 32))
          todo := [.broadcastAppend] }
      else
        { node := (candidate now x).logEvent (.startsElection ((x.currentTerm + 1) % 2 ^ 32))
          sends := sendToAll x [] (.rv ((x.currentTerm + 1) % 2 ^ 32) x.id (lastLogIndexLocked x)
            (lastLogTermLocked x)) } := rfl

theorem handleRequestVote_eq {now t id li lt : ℕ} {x x1 : RaftNode}
    (hx : (if x.currentTerm < t then becomeFollowerLocked now x t (-1) else x) = x1) :
    handleRequestVote now x t id li lt =
      if grantsVote x1 t id li lt = true then
        let x2 := RaftNode.logEvent
          { x1 with votedFor := toInt32 id, lastLeaderContactMs := now } (.voteRequest id t 1)
        { node := x2, sends := sendToPeer x2 id (.rvr x2.currentTerm x2.id 1) }
      else
        let x2 := x1.logEvent (.voteRequest id t 0)
        { node := x2, sends := sendToPeer x2 id (.rvr x2.currentTerm x2.id 0) } := by
  simp only [handleRequestVote, hx]
  cases grantsVote x1 t id li lt with
  | true => simp only [if_true, Bool.toNat_true]
  | false => simp only [Bool.false_eq_true, if_false, Bool.toNat_false]

/-- A vote request changes the vote and the time of the last contact, and logs an event. -/
theorem handleRequestVote_node {now t id li lt : ℕ} {x x1 : RaftNode}
    (hx : (if x.currentTerm < t then becomeFollowerLocked now x t (-1) else x) = x1) :
    ∃ v c e, (handleRequestVote now x t id li lt).node =
      RaftNode.logEvent { x1 with votedFor := v, lastLeaderContactMs := c } e := by
  rw [handleRequestVote_eq hx]
  split
  · exact ⟨_, _, _, rfl⟩
  · exact ⟨x1.votedFor, x1.lastLeaderContactMs, _, rfl⟩

/-! ### Entries -/

/-- The end of an `AE` section that succeeds, when it leaves `log` as the log. -/
def acceptLog (x : RaftNode) (leaderId leaderCommit : ℕ) (log : List RaftLogEntry) :
    Option Effect :=
  (if x.commitIndex < leaderCommit then
    applyCommittedLocked { x with log, commitIndex := min leaderCommit log.length }
    else some { x with log }).map fun y =>
      { node := y, sends := sendToPeer y leaderId (.aer y.currentTerm y.id 1 y.logCount) }

theorem handleAppendEntries_eq {now t l p pt lc has : ℕ} {x y : RaftNode} {d : RaftLogEntry}
    (hy : (if x.currentTerm ≤ t then becomeFollowerLocked now x t (toInt32 l) else x) = y) :
    handleAppendEntries now x t l p pt lc has d =
      if t = y.currentTerm ∧ prevMatches y p pt = true then
        ((if has = 0 then none else some d).elim (some y.log) (storeEntry y.log)).bind
          (acceptLog y l lc)
      else some { node := y, sends := sendToPeer y l (.aer y.currentTerm y.id 0 0) } := by
  simp only [handleAppendEntries, hy]
  split
  · by_cases hz : has = 0
    · simp only [hz, ne_eq, not_true_eq_false, if_false, if_true, Option.elim_none,
        Option.bind_eq_bind, Option.bind_some, acceptLog]
      split <;> simp [Option.map_eq_bind, RaftNode.logCount]
    · simp only [hz, ne_eq, not_false_eq_true, if_true, if_false, Option.elim_some,
        Option.bind_eq_bind]
      congr 1
      funext log
      simp only [acceptLog]
      split <;> simp [Option.map_eq_bind, RaftNode.logCount]
  · rfl

/-- The two outcomes of `handle_append_entries`: with success, the log takes the entry, if there is
one, and the commit index follows the leader's. -/
theorem handleAppendEntries_cases {now term leaderId prevIndex prevTerm leaderCommit hasEntry : ℕ}
    {node node1 : RaftNode} {incoming : RaftLogEntry} {e : Effect}
    (h1 : (if node.currentTerm ≤ term then becomeFollowerLocked now node term (toInt32 leaderId)
      else node) = node1)
    (he : handleAppendEntries now node term leaderId prevIndex prevTerm leaderCommit hasEntry
      incoming = some e) :
    (term = node1.currentTerm ∧ prevMatches node1 prevIndex prevTerm = true ∧ ∃ log node2,
      (if hasEntry = 0 then none else some incoming).elim (some node1.log)
        (storeEntry node1.log) = some log ∧
      (if node1.commitIndex < leaderCommit then
        applyCommittedLocked { node1 with log, commitIndex := min leaderCommit log.length }
        else some { node1 with log }) = some node2 ∧
      e = { node := node2
            sends :=
              sendToPeer node2 leaderId (.aer node2.currentTerm node2.id 1 node2.logCount) }) ∨
    (¬(term = node1.currentTerm ∧ prevMatches node1 prevIndex prevTerm = true) ∧
      e = { node := node1
            sends := sendToPeer node1 leaderId (.aer node1.currentTerm node1.id 0 0) }) := by
  rw [handleAppendEntries_eq h1] at he
  split at he
  · rename_i hcond
    obtain ⟨log, hlog, he⟩ := Option.bind_eq_some_iff.mp he
    obtain ⟨node2, happ, he⟩ := Option.map_eq_some_iff.mp he
    exact Or.inl ⟨hcond.1, hcond.2, log, node2, hlog, happ, he.symm⟩
  · rename_i hcond
    exact Or.inr ⟨hcond, (Option.some.inj he).symm⟩

/-- What an `AE` section finds after `become_follower_locked`, which it calls for its own term and
newer ones. -/
theorem acknowledged_fields {now t : ℕ} {x y : RaftNode} {l : ℤ}
    (hy : (if x.currentTerm ≤ t then becomeFollowerLocked now x t l else x) = y) :
    y.log = x.log ∧ y.peers = x.peers ∧ y.commitIndex = x.commitIndex ∧
      y.lastApplied = x.lastApplied ∧ (t = y.currentTerm ↔ x.currentTerm ≤ t) := by
  subst hy
  split
  · rename_i hle
    rcases hle.lt_or_eq with hlt | rfl
    · rw [becomeFollowerLocked_of_lt hlt]
      exact ⟨rfl, rfl, rfl, rfl, by simp [hle]⟩
    · rw [becomeFollowerLocked_of_le le_rfl]
      exact ⟨rfl, rfl, rfl, rfl, by simp⟩
  · rename_i hle
    exact ⟨rfl, rfl, rfl, rfl, by omega⟩

/-- An entry is stored without reading outside the log exactly when its index is not 0. -/
theorem storeEntry_isSome {log : List RaftLogEntry} {e : RaftLogEntry} :
    (storeEntry log e).isSome ↔ e.index ≠ 0 := by
  unfold storeEntry
  by_cases hzero : e.index = 0
  · simp [hzero]
  · by_cases hle : e.index ≤ log.length
    · have hlt : e.index - 1 < log.length := by omega
      simp [hzero, hle, List.getElem?_eq_getElem hlt]
    · simp [hzero, hle]

/-- `handle_append_entries` reads outside the log exactly when it accepts an entry of index 0. -/
theorem handleAppendEntries_isSome {now t l p pt lc has : ℕ} {x : RaftNode} {d : RaftLogEntry} :
    (handleAppendEntries now x t l p pt lc has d).isSome ↔
      (x.currentTerm ≤ t → prevMatches x p pt = true → has ≠ 0 → d.index ≠ 0) := by
  generalize hx : (if x.currentTerm ≤ t then becomeFollowerLocked now x t (toInt32 l)
    else x) = y
  obtain ⟨hlog, -, -, -, hterm⟩ := acknowledged_fields hx
  have accepts : ∀ log, (acceptLog y l lc log).isSome = true := by
    intro log
    rw [acceptLog, Option.isSome_map]
    split
    · exact applyCommittedLocked_isSome (min_le_right _ _)
    · rfl
  rw [handleAppendEntries_eq hx, prevMatches_congr hlog]
  split
  · rename_i haccept
    by_cases hz : has = 0
    · rw [if_pos hz]
      exact ⟨fun _ _ _ h => absurd hz h, fun _ => accepts y.log⟩
    · rw [if_neg hz, Option.elim_some]
      constructor
      · intro h _ _ _
        obtain ⟨e, he⟩ := Option.isSome_iff_exists.mp h
        obtain ⟨log, hstore, -⟩ := Option.bind_eq_some_iff.mp he
        exact storeEntry_isSome.mp (Option.isSome_of_eq_some hstore)
      · intro h
        obtain ⟨log, hstore⟩ := Option.isSome_iff_exists.mp
          ((@storeEntry_isSome y.log _).mpr (h (hterm.mp haccept.1) haccept.2 hz))
        rw [hstore]
        exact accepts log
  · rename_i hrefuse
    exact ⟨fun _ h1 h2 => absurd ⟨hterm.mpr h1, h2⟩ hrefuse, fun _ => rfl⟩

/-! ### Building an AE line -/

/-- `build_append_locked` writes the entry at the peer's next index, or a heartbeat at the end of
the log. -/
theorem buildAppendLocked_cases {node : RaftNode} {peer : Peer} {line : Line}
    (indexed : Indexed node.log) (room : node.log.length ≤ raftMaxLog)
    (h : buildAppendLocked node peer = some line) :
    ∃ prev pt entry, line = .ae node.currentTerm node.id prev pt node.commitIndex entry ∧
      termAt node prev = some pt ∧
      ((∃ e, entry = some e ∧ node.log[prev]? = some e ∧ e.index = prev + 1) ∨
        (entry = none ∧ prev = node.log.length)) := by
  simp only [buildAppendLocked] at h
  generalize hk : (if (nextIndexLocked node peer).toNat = 0 then 1
    else (nextIndexLocked node peer).toNat) = k at h
  have hpos : 1 ≤ k := by
    subst hk
    split <;> omega
  split at h
  · obtain ⟨e, he, h⟩ := Option.bind_eq_some_iff.mp h
    obtain ⟨pt, hpt, h⟩ := Option.bind_eq_some_iff.mp h
    have hlt := (List.getElem?_eq_some_iff.mp he).1
    have hindex := indexed _ _ he
    have hprev : (e.index + 2 ^ 32 - 1) % 2 ^ 32 = k - 1 := by
      simp only [raftMaxLog] at room
      omega
    rw [hprev] at hpt h
    exact ⟨k - 1, pt, some e, (Option.some.inj h).symm, hpt, Or.inl ⟨e, rfl, he, hindex⟩⟩
  · obtain ⟨pt, hpt, h⟩ := Option.bind_eq_some_iff.mp h
    exact ⟨node.logCount, pt, none, (Option.some.inj h).symm, hpt, Or.inr ⟨rfl, rfl⟩⟩

end RaftKv
