import RaftKv.Consensus.Agreement
import RaftKv.Exchange

/-! How a leader's `AE` lines repair the log of a follower.  A line that a leader has built from its
log, now or when the log was shorter, never shortens what the follower's log has in common with it,
in the terms of the entries. -/

namespace RaftKv

open Consensus Stdio

/-- The value of `success` in `handle_append_entries`. -/
def accepts (x : RaftNode) (term prevIndex prevTerm : ℕ) : Bool :=
  x.currentTerm ≤ term && prevMatches x prevIndex prevTerm

variable {leader follower x : RaftNode} {peer : Peer} {line : Line} {sec : Section} {env : Env}
  {e : Effect} {log m m' : List RaftLogEntry}

/-- What an `AE` section leaves, and its reply. -/
theorem handleAppendEntries_reply {now t l p pt lc has : ℕ} {d : RaftLogEntry}
    (he : handleAppendEntries now x t l p pt lc has d = some e) :
    (e.node.id = x.id ∧ e.node.peers = x.peers ∧ e.node.currentTerm = max x.currentTerm t) ∧
    ((accepts x t p pt = true ∧
      (if has = 0 then none else some d).elim (some x.log) (storeEntry x.log) = some e.node.log ∧
      e.sends = sendToPeer x l (.aer e.node.currentTerm e.node.id 1 e.node.logCount)) ∨
    (accepts x t p pt = false ∧ e.node.log = x.log ∧
      e.sends = sendToPeer x l (.aer e.node.currentTerm e.node.id 0 0))) := by
  generalize hx : (if x.currentTerm ≤ t then becomeFollowerLocked now x t (toInt32 l)
    else x) = x1
  obtain ⟨hlog, hpeers, -, -, hterm⟩ := acknowledged_fields hx
  have hfields : x1.id = x.id ∧ x1.currentTerm = max x.currentTerm t := by
    rw [← hx]
    split
    · rename_i hle
      rcases hle.lt_or_eq with hlt | heq
      · rw [becomeFollowerLocked_of_lt hlt]
        exact ⟨rfl, (max_eq_right hle).symm⟩
      · rw [becomeFollowerLocked_of_le heq.ge]
        exact ⟨rfl, (max_eq_left heq.ge).symm⟩
    · rename_i hlt
      exact ⟨rfl, (max_eq_left (Nat.le_of_not_le hlt)).symm⟩
  have hsend : ∀ y : RaftNode, y.peers = x.peers → ∀ line,
      sendToPeer y l line = sendToPeer x l line := by
    intro y hy line
    rw [sendToPeer, sendToPeer, findPeer, findPeer, hy]
  have haccept : accepts x t p pt = true ↔
      t = x1.currentTerm ∧ prevMatches x1 p pt = true := by
    rw [accepts, Bool.and_eq_true, decide_eq_true_eq, hterm, prevMatches_congr hlog]
  rcases handleAppendEntries_cases hx he with ⟨h1, h2, log, y, hstore, happ, rfl⟩ | ⟨hno, rfl⟩
  · have hy : y.log = log ∧ y.peers = x1.peers ∧ y.id = x1.id ∧
        y.currentTerm = x1.currentTerm := by
      split at happ
      · rw [(applyCommittedLocked_eq happ).1]
        exact ⟨rfl, rfl, rfl, rfl⟩
      · obtain rfl := Option.some.inj happ
        exact ⟨rfl, rfl, rfl, rfl⟩
    obtain ⟨hylog, hypeers, hyid, hyterm⟩ := hy
    rw [hlog] at hstore
    refine ⟨⟨hyid.trans hfields.1, hypeers.trans hpeers, hyterm.trans hfields.2⟩, Or.inl ?_⟩
    exact ⟨haccept.mpr ⟨h1, h2⟩, by rw [hylog]; exact hstore, hsend y (hypeers.trans hpeers) _⟩
  · refine ⟨⟨hfields.1, hpeers, hfields.2⟩, Or.inr ⟨?_, hlog, hsend x1 hpeers _⟩⟩
    rwa [← haccept, Bool.not_eq_true] at hno

/-- Logs that match have one term at a position only behind equal terms. -/
theorem LogsMatch.lt_agreement (h : LogsMatch log m) {k : ℕ} {c d : RaftLogEntry}
    (hc : log[k]? = some c) (hd : m[k]? = some d) (hterm : c.term = d.term) :
    k < agreement (·.term) log m := by
  have hlt := (List.getElem?_eq_some_iff.mp hc).1
  exact le_agreement_iff.mpr ⟨hlt, fun j hj => h k c d hc hd hterm j (by omega)⟩

theorem logsMatch_of_agreement (h : m.length ≤ agreement (·.term) log m) : LogsMatch log m := by
  intro k c d _ hd _ j hj
  have hlt := (List.getElem?_eq_some_iff.mp hd).1
  exact terms_of_lt_agreement (by omega)

/-- The check before the new entry succeeds exactly within the common prefix. -/
theorem LogsMatch.prevMatches_iff (h : LogsMatch log x.log) {p pt : ℕ}
    (hpt : p = 0 ∨ (0 < p ∧ log[p - 1]?.map (·.term) = some pt)) :
    prevMatches x p pt = true ↔ p ≤ agreement (·.term) log x.log := by
  rcases hpt with rfl | ⟨hpos, hpt⟩
  · simp [prevMatches]
  · constructor
    · intro hprev
      obtain ⟨c, hc, hct⟩ := Option.map_eq_some_iff.mp hpt
      rcases prevMatches_cases hprev with h0 | ⟨-, -, hterm⟩
      · omega
      · obtain ⟨d, hd, hdt⟩ := Option.map_eq_some_iff.mp hterm
        have := h.lt_agreement hc hd (hct.trans hdt.symm)
        omega
    · intro hle
      have hlen := hle.trans (agreement_le_right log x.log)
      have hterm := @terms_of_lt_agreement _ (·.term) log x.log (p - 1) (by omega)
      simp only [prevMatches, Bool.or_eq_true, Bool.and_eq_true, decide_eq_true_eq]
      exact Or.inr ⟨hlen, hterm.symm.trans hpt⟩

/-- An entry that comes right after a common prefix is already there, or ends the log and is then in
the common prefix. -/
theorem agreement_storeEntry {c d : RaftLogEntry} {p : ℕ}
    (agrees : p ≤ agreement (·.term) log m) (hget : log[p]? = some c) (hterm : d.term = c.term)
    (index : d.index = p + 1) (room : p < raftMaxLog) (h : storeEntry m d = some m') :
    (m' = m ∧ p < agreement (·.term) log m) ∨
    (agreement (·.term) log m = p ∧ agreement (·.term) log m' = p + 1 ∧ m'.length = p + 1) := by
  have hlt := (List.getElem?_eq_some_iff.mp hget).1
  have reach := agrees.trans (agreement_le_right log m)
  have before : ∀ j < p, log[j]?.map (·.term) = m[j]?.map (·.term) :=
    (le_agreement_iff.mp agrees).2
  have head : log[p]?.map (·.term) = some d.term := by rw [hget, hterm]; rfl
  rcases storeEntry_cases h index reach room with ⟨old, hold, hsame, rfl⟩ | ⟨hdiff, rfl⟩
  · left
    refine ⟨rfl, le_agreement_iff.mpr ⟨hlt, fun j hj => ?_⟩⟩
    rcases Nat.lt_succ_iff_lt_or_eq.mp hj with hlt | rfl
    · exact before j hlt
    · rw [head, hold, ← hsame]
      rfl
  · right
    have hlen : (m.take p ++ [d]).length = p + 1 := by simp [reach]
    have hnew := terms_of_replaced reach (fun j hj => (before j hj).symm) head
    have hge : p + 1 ≤ agreement (·.term) log (m.take p ++ [d]) :=
      le_agreement_iff.mpr ⟨hlt, fun j hj => (hnew j (by omega)).symm⟩
    have hle := @agreement_le_right _ (·.term) log (m.take p ++ [d])
    refine ⟨agreement_eq_of_ne agrees fun hsame => ?_, by omega, hlen⟩
    rw [head] at hsame
    obtain ⟨old, hold, heq⟩ := Option.map_eq_some_iff.mp hsame.symm
    exact hdiff old hold heq

/-- What the log before the new entry is, in a longer log of the leader. -/
theorem termAt_of_initial {p pt : ℕ} (earlier : leader.log <+: log)
    (hpt : termAt leader p = some pt) :
    p = 0 ∨ (0 < p ∧ log[p - 1]?.map (·.term) = some pt) := by
  rcases termAt_cases hpt with ⟨rfl, -⟩ | ⟨hpos, hterm⟩
  · exact Or.inl rfl
  · obtain ⟨suffix, rfl⟩ := earlier
    obtain ⟨c, hc, -⟩ := Option.map_eq_some_iff.mp hterm
    refine Or.inr ⟨hpos, ?_⟩
    rw [List.getElem?_append_left (List.getElem?_eq_some_iff.mp hc).1]
    exact hterm

/-- The handling of a line that a leader has built, from the log that it has later: the line is
refused and the follower's log kept, or it is accepted, and the common prefix grows at least to the
end of what the line covers. -/
theorem agreement_never_shrinks (ranged : Ranged leader) (earlier : leader.log <+: log)
    (matched : LogsMatch log follower.log) (built : buildAppendLocked leader peer = some line)
    (parsed : line.handler = some sec) :
    ∃ p pt entry e m, line = .ae leader.currentTerm leader.id p pt leader.commitIndex entry ∧
      exec env sec follower = some e ∧
      e.sends = sendToPeer follower leader.id (.aer e.node.currentTerm e.node.id
        (accepts follower leader.currentTerm p pt).toNat m) ∧
      agreement (·.term) log follower.log ≤ agreement (·.term) log e.node.log ∧
      LogsMatch log e.node.log ∧
      (accepts follower leader.currentTerm p pt = true →
        p + entry.toList.length ≤ agreement (·.term) log e.node.log) ∧
      (accepts follower leader.currentTerm p pt = false → e.node.log = follower.log) := by
  obtain ⟨p, pt, entry, d, rfl, rfl, hpt, hentry⟩ := ranged.built_handler built parsed
  have hsome : (exec env (.handleAppendEntries leader.currentTerm leader.id p pt
      leader.commitIndex entry.toList.length d) follower).isSome := by
    refine handleAppendEntries_isSome.mpr fun _ _ hhas => ?_
    cases entry with
    | none => exact absurd rfl hhas
    | some c =>
      rw [(hentry c rfl).2.1]
      exact Nat.succ_ne_zero p
  obtain ⟨e, he⟩ := Option.isSome_iff_exists.mp hsome
  have hprev := matched.prevMatches_iff (termAt_of_initial earlier hpt)
  obtain ⟨-, ⟨haccept, hstore, hsends⟩ | ⟨hrefuse, hlog, hsends⟩⟩ :=
    handleAppendEntries_reply he
  · have hin : p ≤ agreement (·.term) log follower.log := by
      rw [accepts, Bool.and_eq_true] at haccept
      exact hprev.mp haccept.2
    refine ⟨p, pt, entry, e, _, rfl, he, by rw [haccept]; exact hsends, ?_⟩
    cases entry with
    | none =>
      obtain hlog : follower.log = e.node.log := Option.some.inj hstore
      rw [← hlog]
      exact ⟨le_rfl, matched, fun _ => hin, fun _ => rfl⟩
    | some c =>
      obtain ⟨hget, hindex, hterm⟩ := hentry c rfl
      have hplt := (List.getElem?_eq_some_iff.mp hget).1
      have room := ranged.room
      have hget' : log[p]? = some c := by
        obtain ⟨suffix, rfl⟩ := earlier
        rw [List.getElem?_append_left hplt, hget]
      rcases agreement_storeEntry hin hget' hterm hindex (by omega) hstore with
        ⟨hlog, hlt⟩ | ⟨hfirst, hnew, hlen⟩
      · rw [hlog]
        exact ⟨le_rfl, matched, fun _ => hlt, fun _ => rfl⟩
      · refine ⟨by omega, logsMatch_of_agreement (by omega), fun _ => hnew.ge, fun h => ?_⟩
        rw [haccept] at h
        cases h
  · refine ⟨p, pt, entry, e, _, rfl, he, by rw [hrefuse]; exact hsends, ?_⟩
    rw [hlog]
    refine ⟨le_rfl, matched, fun h => ?_, fun _ => rfl⟩
    rw [hrefuse] at h
    cases h

/-- A line that node 1 has built when it had one entry comes to node 2 when both have two. -/
theorem agreement_never_shrinks_trio : ∃ e,
    exec still (.handleAppendEntries 1 1 0 0 0 1 ⟨1, 1, .set, bytes "k", bytes "a"⟩)
      (trioNode 1 .follower 1 [⟨1, 1, .set, bytes "k", bytes "a"⟩,
        ⟨2, 1, .set, bytes "k", bytes "b"⟩]) = some e ∧
    2 ≤ agreement (·.term) [⟨1, 1, .set, bytes "k", bytes "a"⟩,
      ⟨2, 1, .set, bytes "k", bytes "b"⟩] e.node.log := by
  let a : RaftLogEntry := ⟨1, 1, .set, bytes "k", bytes "a"⟩
  let b : RaftLogEntry := ⟨2, 1, .set, bytes "k", bytes "b"⟩
  have ranged : Ranged (trioNode 0 .leader 1 [a]) := by
    apply ranged_trioNode (by norm_num) (by decide) (by decide)
    exact @Indexed.concat [] a (fun k c hc => by cases hc) rfl
  have built : buildAppendLocked (trioNode 0 .leader 1 [a]) (trioPeer 2) =
      some (.ae 1 1 0 0 0 (some a)) := by decide +kernel
  have parsed : (Line.ae 1 1 0 0 0 (some a)).handler =
      some (.handleAppendEntries 1 1 0 0 0 1 a) := by decide +kernel
  obtain ⟨_, _, _, e, _, -, he, -, hle, -⟩ := @agreement_never_shrinks _
    (trioNode 1 .follower 1 [a, b]) _ _ _ still [a, b] ranged ⟨[b], rfl⟩
    (logsMatch_of_agreement (by decide)) built parsed
  exact ⟨e, he, hle⟩

end RaftKv
