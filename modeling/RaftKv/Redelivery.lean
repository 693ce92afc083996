import RaftKv.Exchange

/-! An `AE` line that is handled twice in a row.  The second time the entry is there and the commit
index has moved, so that other branches are taken, which leave all but the clocks as they are. -/

namespace RaftKv

open Stdio

attribute [local irreducible] toInt32

variable {x y : RaftNode} {log log' : List RaftLogEntry} {d : RaftLogEntry} {p : ℕ}

/-- An entry that is there by its term is not stored again. -/
theorem storeEntry_present {old : RaftLogEntry} (index : d.index = p + 1) (room : p < raftMaxLog)
    (hold : log[p]? = some old) (hterm : old.term = d.term) : storeEntry log d = some log := by
  have reach := (List.getElem?_eq_some_iff.mp hold).1.le
  obtain ⟨log', h⟩ := Option.isSome_iff_exists.mp
    ((@storeEntry_isSome log d).mpr (index ▸ Nat.succ_ne_zero p))
  rcases storeEntry_cases h index reach room with ⟨-, -, -, rfl⟩ | ⟨hdiff, -⟩
  · exact h
  · exact absurd hterm (hdiff old hold)

/-- What is stored is there when it comes again, behind the same entries. -/
theorem storeEntry_again (index : d.index = p + 1) (reach : p ≤ log.length)
    (room : log.length ≤ raftMaxLog) (h : storeEntry log d = some log') :
    storeEntry log' d = some log' ∧ p ≤ log'.length ∧ ∀ k < p, log'[k]? = log[k]? := by
  rcases Nat.lt_or_ge p raftMaxLog with hlt | hfull
  · rcases storeEntry_cases h index reach hlt with ⟨-, -, -, rfl⟩ | ⟨-, rfl⟩
    · exact ⟨h, reach, fun k _ => rfl⟩
    · have hlen : (log.take p).length = p := by
        rw [List.length_take]
        omega
      have hlast : (log.take p ++ [d])[p]? = some d := by
        rw [List.getElem?_append_right hlen.le, hlen, Nat.sub_self]
        rfl
      refine ⟨storeEntry_present index hlt hlast rfl, by simp [hlen], fun k hk => ?_⟩
      rw [List.getElem?_append_left (by omega), List.getElem?_take, if_pos hk]
  · have hlast : log.length = p := by omega
    obtain rfl := storeEntry_full h (hlast ▸ index) (hlast ▸ hfull)
    exact ⟨h, reach, fun k _ => rfl⟩

/-- The check before the new entry looks only at entries before it. -/
theorem prevMatches_of_initial {pt : ℕ} (h : prevMatches x p pt = true) (reach : p ≤ y.log.length)
    (before : ∀ k < p, y.log[k]? = x.log[k]?) : prevMatches y p pt = true := by
  rcases prevMatches_cases h with rfl | ⟨hpos, -, hterm⟩
  · simp [prevMatches]
  · simp only [prevMatches, Bool.or_eq_true, Bool.and_eq_true, decide_eq_true_eq]
    exact Or.inr ⟨reach, by rw [before (p - 1) (by omega), hterm]⟩

/-- A follower that hears again from its leader in its term keeps all but its clocks. -/
theorem becomeFollowerLocked_again {l : ℤ} (follows : x.role = .follower) (leader : x.leaderId = l)
    (votes : x.votesReceived = 0) (now : ℕ) :
    becomeFollowerLocked now x x.currentTerm l = { x with
      lastLeaderContactMs := now, electionTimeoutMs := randomElectionTimeout x now } := by
  rw [becomeFollowerLocked_of_le le_rfl, ← follows, ← leader, ← votes]

/-- What follows from an `AE` line's term is in place when the line comes again. -/
theorem acknowledged_again {now t : ℕ} {l : ℤ} (now' : ℕ)
    (hx : (if x.currentTerm ≤ t then becomeFollowerLocked now x t l else x) = y) {z : RaftNode}
    (seat : z.role = y.role ∧ z.leaderId = y.leaderId ∧ z.votesReceived = y.votesReceived ∧
      z.currentTerm = y.currentTerm) :
    ∃ w, (if z.currentTerm ≤ t then becomeFollowerLocked now' z t l else z) = w ∧
      w = { z with
        lastLeaderContactMs := w.lastLeaderContactMs
        electionTimeoutMs := w.electionTimeoutMs } := by
  obtain ⟨hrole, hleader, hvotes, hterm⟩ := seat
  refine ⟨_, rfl, ?_⟩
  split at hx
  · rename_i hle
    have hy : y.role = .follower ∧ y.leaderId = l ∧ y.votesReceived = 0 ∧ y.currentTerm = t := by
      rcases hle.lt_or_eq with hlt | heq
      · rw [← hx, becomeFollowerLocked_of_lt hlt]
        exact ⟨rfl, rfl, rfl, rfl⟩
      · rw [← hx, becomeFollowerLocked_of_le heq.ge]
        exact ⟨rfl, rfl, rfl, heq⟩
    obtain ⟨h1, h2, h3, rfl⟩ := hy
    rw [if_pos hterm.le, ← hterm,
      becomeFollowerLocked_again (hrole.trans h1) (hleader.trans h2) (hvotes.trans h3)]
  · rename_i hgt
    rw [if_neg (by rw [hterm, ← hx]; exact hgt)]

theorem applyCommittedLocked_done (h : x.commitIndex ≤ x.lastApplied) :
    applyCommittedLocked x = some x := by
  rw [applyCommittedLocked, Nat.sub_eq_zero_of_le h]
  rfl

theorem acceptLog_fields {e : Effect} {l lc : ℕ} (h : acceptLog y l lc log = some e) :
    e.node.log = log ∧ e.node.role = y.role ∧ e.node.leaderId = y.leaderId ∧
      e.node.votesReceived = y.votesReceived ∧ e.node.currentTerm = y.currentTerm := by
  obtain ⟨y', happ, rfl⟩ := Option.map_eq_some_iff.mp h
  split at happ
  · rw [(applyCommittedLocked_eq happ).1]
    exact ⟨rfl, rfl, rfl, rfl, rfl⟩
  · rw [← Option.some.inj happ]
    exact ⟨rfl, rfl, rfl, rfl, rfl⟩

/-- The commit index follows the leader's once, and the entries up to it are applied once. -/
theorem acceptLog_again {z : RaftNode} {e : Effect} {l lc a b : ℕ}
    (h : acceptLog y l lc log = some e) (hz : z = { e.node with
      lastLeaderContactMs := a, electionTimeoutMs := b }) :
    acceptLog z l lc log = some { node := z, sends := e.sends } := by
  obtain ⟨y', happ, rfl⟩ := Option.map_eq_some_iff.mp h
  subst hz
  by_cases hlt : y.commitIndex < lc
  · rw [if_pos hlt] at happ
    obtain ⟨heq, hlen⟩ := applyCommittedLocked_eq happ
    dsimp only at hlen
    have hcommit : y'.log = log ∧ y'.commitIndex = min lc log.length ∧
        y'.commitIndex ≤ y'.lastApplied := by
      rw [heq]
      simp only [RaftNode.replayed, hlen, true_and]
      omega
    obtain ⟨hlog, hmin, hdone⟩ := hcommit
    have hsame : (if y'.commitIndex < lc then applyCommittedLocked { y' with
          log, commitIndex := min lc log.length, lastLeaderContactMs := a, electionTimeoutMs := b }
        else some { y' with log, lastLeaderContactMs := a, electionTimeoutMs := b }) =
        some { y' with lastLeaderContactMs := a, electionTimeoutMs := b } := by
      rw [← hmin, ← hlog]
      split
      · exact applyCommittedLocked_done hdone
      · rfl
    exact congrArg (Option.map _) hsame
  · rw [if_neg hlt] at happ
    obtain rfl := Option.some.inj happ
    unfold acceptLog
    rw [if_neg hlt]
    rfl

/-- An accepted line is accepted again with the log that it has left. -/
theorem stored_again {has pt : ℕ} (hindex : has ≠ 0 → d.index = p + 1)
    (room : x.log.length ≤ raftMaxLog) (hprev : prevMatches x p pt = true)
    (h : (if has = 0 then none else some d).elim (some x.log) (storeEntry x.log) = some log)
    (hlog : y.log = log) : prevMatches y p pt = true ∧
      (if has = 0 then none else some d).elim (some y.log) (storeEntry y.log) = some log := by
  rw [hlog]
  by_cases hz : has = 0
  · rw [if_pos hz, Option.elim_none] at h ⊢
    obtain rfl := Option.some.inj h
    exact ⟨prevMatches_congr hlog p pt ▸ hprev, rfl⟩
  · rw [if_neg hz, Option.elim_some] at h ⊢
    obtain ⟨hagain, hreach, hbefore⟩ :=
      storeEntry_again (hindex hz) (prevMatches_le hprev) room h
    exact ⟨prevMatches_of_initial hprev (hlog ▸ hreach) (hlog ▸ hbefore), hagain⟩

/-- An `AE` line with an entry right behind the one that it checks, or with none, leaves the node as
it was after the first time, but for its clocks, and is answered in the same way. -/
theorem append_entries_idempotent (room : x.logCount ≤ raftMaxLog) {t l p pt lc has : ℕ}
    {d : RaftLogEntry} (hp : p < 2 ^ 32) (next : has = 0 ∨ d.index = (p + 1) % 2 ^ 32)
    (now now' : ℕ) :
    ∃ e e', handleAppendEntries now x t l p pt lc has d = some e ∧
      handleAppendEntries now' e.node t l p pt lc has d = some e' ∧
      e'.node = { e.node with
        lastLeaderContactMs := e'.node.lastLeaderContactMs
        electionTimeoutMs := e'.node.electionTimeoutMs } ∧
      e'.sends = e.sends := by
  have hindex : prevMatches x p pt = true → has ≠ 0 → d.index = p + 1 := by
    intro hprev hhas
    have := prevMatches_le hprev
    have := next.resolve_left hhas
    simp only [RaftNode.logCount, raftMaxLog] at room
    omega
  obtain ⟨e, he⟩ := Option.isSome_iff_exists.mp
    ((@handleAppendEntries_isSome now t l p pt lc has x d).mpr fun _ hprev hhas => by
      rw [hindex hprev hhas]
      exact Nat.succ_ne_zero p)
  generalize hx : (if x.currentTerm ≤ t then becomeFollowerLocked now x t (toInt32 l)
    else x) = y
  obtain ⟨hlog, -⟩ := acknowledged_fields hx
  have hfirst := he
  rw [handleAppendEntries_eq hx] at hfirst
  split at hfirst
  · rename_i haccept
    obtain ⟨log, hstore, hend⟩ := Option.bind_eq_some_iff.mp hfirst
    obtain ⟨hnew, hseat⟩ := acceptLog_fields hend
    obtain ⟨w, hw, hclocks⟩ := acknowledged_again now' hx hseat
    obtain ⟨hprev, hagain⟩ := @stored_again y w log d p has pt
      (hindex (prevMatches_congr hlog p pt ▸ haccept.2)) (hlog ▸ room) haccept.2 hstore
      (by rw [hclocks, hnew])
    have hterm : t = w.currentTerm := by
      rw [hclocks, hseat.2.2.2]
      exact haccept.1
    refine ⟨e, { node := w, sends := e.sends }, he, ?_, hclocks, rfl⟩
    rw [handleAppendEntries_eq hw, if_pos ⟨hterm, hprev⟩, hagain]
    exact acceptLog_again hend hclocks
  · rename_i hrefuse
    obtain rfl := Option.some.inj hfirst
    obtain ⟨w, hw, hclocks⟩ := acknowledged_again now' hx ⟨rfl, rfl, rfl, rfl⟩
    have hsame : w.currentTerm = y.currentTerm ∧ w.log = y.log ∧ w.peers = y.peers ∧
        w.id = y.id := by
      rw [hclocks]
      exact ⟨rfl, rfl, rfl, rfl⟩
    refine ⟨_, { node := w, sends := _ }, he, ?_, hclocks, rfl⟩
    rw [handleAppendEntries_eq hw, if_neg (by rwa [hsame.1, prevMatches_congr hsame.2.1]),
      sendToPeer, sendToPeer, findPeer, findPeer, hsame.1, hsame.2.2.1, hsame.2.2.2]

/-- Node 2 gets its first entry, committed, from node 1 in a new term, and gets it again later. -/
theorem append_entries_idempotent_trio : ∃ e e',
    handleAppendEntries 0 (trioNode 1 .candidate 1 []) 2 1 0 0 5 1
      ⟨1, 2, .set, bytes "k", bytes "a"⟩ = some e ∧
    handleAppendEntries 9 e.node 2 1 0 0 5 1 ⟨1, 2, .set, bytes "k", bytes "a"⟩ = some e' ∧
    e'.sends = e.sends := by
  obtain ⟨e, e', he, he', -, hsends⟩ := @append_entries_idempotent (trioNode 1 .candidate 1 [])
    (Nat.zero_le _) 2 1 0 0 5 1 ⟨1, 2, .set, bytes "k", bytes "a"⟩ (by norm_num) (Or.inr rfl) 0 9
  exact ⟨e, e', he, he', hsends⟩

end RaftKv
