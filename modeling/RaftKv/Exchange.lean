import RaftKv.Cluster
import RaftKv.Codec
import RaftKv.Sections

/-! One exchange of an `AE` line and its `AER` reply.  The reply tells the length of the follower's
log, which is more than the line has checked when the log goes on behind the checked entries. -/

namespace RaftKv

open Stdio

/-- Logs with entries of one term at one position have the same terms up to it. -/
def LogsMatch (l m : List RaftLogEntry) : Prop :=
  ∀ (k : ℕ) (d e : RaftLogEntry), l[k]? = some d → m[k]? = some e → d.term = e.term →
    ∀ j ≤ k, l[j]?.map (·.term) = m[j]?.map (·.term)

/-- The numbers of a node are `uint32_t` values, and its log is in the array, each entry at its
index. -/
structure Ranged (x : RaftNode) : Prop where
  id : x.id < 2 ^ 32
  term : x.currentTerm < 2 ^ 32
  commit : x.commitIndex < 2 ^ 32
  room : x.log.length ≤ raftMaxLog
  terms : ∀ e ∈ x.log, e.term < 2 ^ 32
  indexed : Indexed x.log

theorem Ranged.congr {x y : RaftNode} (h : Ranged x) (hid : y.id = x.id)
    (hterm : y.currentTerm = x.currentTerm) (hlog : y.log = x.log)
    (hcommit : y.commitIndex < 2 ^ 32) : Ranged y where
  id := hid ▸ h.id
  term := hterm ▸ h.term
  commit := hcommit
  room := hlog ▸ h.room
  terms := hlog ▸ h.terms
  indexed := hlog ▸ h.indexed

/-- Where the reply has success and match index `m`, the leader's log has `m` entries, and the
follower's log has entries of the same terms there. -/
def Truthful (leader : RaftNode) (e : Effect) : Prop :=
  ∀ p ∈ e.sends, ∀ t id success m, p.line = .aer t id success m → success ≠ 0 →
    m ≤ leader.logCount ∧
      ∀ k < m, e.node.log[k]?.map (·.term) = leader.log[k]?.map (·.term)

/-- If the follower can answer, accepts the line, and keeps its log as it is, then the leader's log
goes on behind the checked entries with the same terms as the follower's. -/
def Covered (leader follower : RaftNode) : Line → Prop
  | .ae term leaderId prevIndex prevTerm _ entry =>
    (findPeer follower leaderId).isSome → follower.currentTerm ≤ term →
    prevMatches follower prevIndex prevTerm = true →
    (∀ d ∈ entry, follower.log[prevIndex]?.map (·.term) = some d.term) →
    ∀ k < follower.logCount, prevIndex + entry.toList.length ≤ k →
      follower.log[k]?.map (·.term) = leader.log[k]?.map (·.term)
  | _ => True

variable {leader follower : RaftNode} {peer : Peer} {line : Line} {sec : Section} {env : Env}
  {e : Effect}

/-- The line that `build_append_locked` writes, with numbers that fit. -/
theorem Ranged.built_cases (h : Ranged leader) (built : buildAppendLocked leader peer = some line) :
    ∃ p pt, termAt leader p = some pt ∧
      ((∃ d, line = .ae leader.currentTerm leader.id p pt leader.commitIndex (some d) ∧
        leader.log[p]? = some d ∧ d.index = p + 1 ∧
        Fits [leader.currentTerm, leader.id, p, pt, leader.commitIndex, 1, d.index, d.term]) ∨
      (line = .ae leader.currentTerm leader.id p pt leader.commitIndex none ∧
        p = leader.logCount ∧
        Fits [leader.currentTerm, leader.id, p, pt, leader.commitIndex])) := by
  obtain ⟨p, pt, entry, rfl, hpt, hentry⟩ := buildAppendLocked_cases h.indexed h.room built
  have hid := h.id
  have hterm := h.term
  have hcommit := h.commit
  have room := h.room
  have hptlt := termAt_lt h.terms (by norm_num) hpt
  simp only [raftMaxLog] at room
  refine ⟨p, pt, hpt, ?_⟩
  rcases hentry with ⟨d, rfl, hget, hindex⟩ | ⟨rfl, rfl⟩
  · have hlt := (List.getElem?_eq_some_iff.mp hget).1
    have hd := h.terms d (List.mem_of_getElem? hget)
    refine Or.inl ⟨d, rfl, hget, hindex, ?_⟩
    intro n hn
    simp only [List.mem_cons, List.not_mem_nil, or_false] at hn
    omega
  · refine Or.inr ⟨rfl, rfl, ?_⟩
    intro n hn
    simp only [List.mem_cons, List.not_mem_nil, or_false] at hn
    omega

/-- What the receiver makes of a line that `build_append_locked` wrote. -/
theorem Ranged.built_handler (h : Ranged leader) (built : buildAppendLocked leader peer = some line)
    (parsed : line.handler = some sec) :
    ∃ p pt entry incoming, line = .ae leader.currentTerm leader.id p pt leader.commitIndex entry ∧
      sec = .handleAppendEntries leader.currentTerm leader.id p pt leader.commitIndex
        entry.toList.length incoming ∧
      termAt leader p = some pt ∧
      ∀ d ∈ entry, leader.log[p]? = some d ∧ incoming.index = p + 1 ∧ incoming.term = d.term := by
  obtain ⟨p, pt, hpt, ⟨d, rfl, hget, hindex, fits⟩ | ⟨rfl, rfl, fits⟩⟩ := h.built_cases built
  · rcases Line.handler_ae_some fits with hnone | ⟨d', hsome, hindex', hterm'⟩
    · rw [hnone] at parsed
      cases parsed
    · refine ⟨p, pt, some d, d', rfl, Option.some.inj (parsed.symm.trans hsome), hpt, ?_⟩
      intro c hc
      obtain rfl := Option.some.inj hc
      exact ⟨hget, hindex'.trans hindex, hterm'⟩
  · rw [Line.handler_ae_none fits] at parsed
    exact ⟨_, pt, none, noEntry, rfl, (Option.some.inj parsed).symm, hpt, by simp⟩

/-- The check before the new entry makes the logs equal up to it, in their terms. -/
theorem LogsMatch.checked (h : LogsMatch leader.log follower.log) {p pt : ℕ}
    (hpt : termAt leader p = some pt) (hprev : prevMatches follower p pt = true) :
    ∀ k < p, follower.log[k]?.map (·.term) = leader.log[k]?.map (·.term) := by
  intro k hk
  rcases termAt_cases hpt with ⟨rfl, -⟩ | ⟨-, hlead⟩
  · omega
  · rcases prevMatches_cases hprev with rfl | ⟨-, -, hfollow⟩
    · omega
    · obtain ⟨d, hd, hdt⟩ := Option.map_eq_some_iff.mp hlead
      obtain ⟨c, hc, hct⟩ := Option.map_eq_some_iff.mp hfollow
      exact (h (p - 1) d c hd hc (hdt.trans hct.symm) k (by omega)).symm

/-- Equal terms at all positions of a log mean that the other log is as long. -/
theorem length_le_of_terms {l m : List RaftLogEntry}
    (h : ∀ k < l.length, l[k]?.map (·.term) = m[k]?.map (·.term)) : l.length ≤ m.length := by
  by_contra hlt
  have hk := h m.length (by omega)
  rw [List.getElem?_eq_none le_rfl, List.getElem?_eq_getElem (by omega)] at hk
  cases hk

/-- When an `AE` section succeeds: the log it leaves, and the reply. -/
theorem handleAppendEntries_accepts {now t l p pt lc has : ℕ} {x : RaftNode} {d : RaftLogEntry}
    (he : handleAppendEntries now x t l p pt lc has d = some e) :
    (x.currentTerm ≤ t ∧ prevMatches x p pt = true ∧ ∃ u id,
      (if has = 0 then none else some d).elim (some x.log) (storeEntry x.log) = some e.node.log ∧
      e.sends = sendToPeer x l (.aer u id 1 e.node.logCount)) ∨
    (¬(x.currentTerm ≤ t ∧ prevMatches x p pt = true) ∧
      ∃ u id, e.sends = sendToPeer x l (.aer u id 0 0)) := by
  generalize hx : (if x.currentTerm ≤ t then becomeFollowerLocked now x t (toInt32 l)
    else x) = x1
  obtain ⟨hlog, hpeers, -, -, hterm⟩ := acknowledged_fields hx
  have hprev := prevMatches_congr hlog p pt
  have hsend : ∀ y : RaftNode, y.peers = x.peers → ∀ line,
      sendToPeer y l line = sendToPeer x l line := by
    intro y hy line
    rw [sendToPeer, sendToPeer, findPeer, findPeer, hy]
  rcases handleAppendEntries_cases hx he with ⟨h1, h2, log, y, hstore, happ, rfl⟩ | ⟨hno, rfl⟩
  · have hy : y.log = log ∧ y.peers = x.peers := by
      split at happ
      · rw [(applyCommittedLocked_eq happ).1]
        exact ⟨rfl, hpeers⟩
      · obtain rfl := Option.some.inj happ
        exact ⟨rfl, hpeers⟩
    rw [hlog] at hstore
    rw [hprev] at h2
    exact Or.inl ⟨hterm.mp h1, h2, _, _, by rw [hy.1]; exact hstore, hsend y hy.2 _⟩
  · rw [hterm, hprev] at hno
    exact Or.inr ⟨hno, _, _, hsend x1 hpeers _⟩

theorem truthful_of_refusal {l u id : ℕ}
    (hsends : e.sends = sendToPeer follower l (.aer u id 0 0)) : Truthful leader e := by
  intro q hq t id' success m hline hsuc
  rw [hsends] at hq
  have heq := (line_sendToPeer hq).symm.trans hline
  exact absurd (Line.aer.inj heq).2.2.1.symm hsuc

/-- The reply to a peer tells the truth when the logs agree as far as the follower's goes. -/
theorem truthful_iff_of_success {l u id : ℕ}
    (hsends : e.sends = sendToPeer follower l (.aer u id 1 e.node.logCount)) :
    Truthful leader e ↔ ((findPeer follower l).isSome →
      ∀ k < e.node.logCount, e.node.log[k]?.map (·.term) = leader.log[k]?.map (·.term)) := by
  constructor
  · intro h hpeer
    obtain ⟨peer, hpeer⟩ := Option.isSome_iff_exists.mp hpeer
    have hsend : e.sends = [⟨peer.host, peer.port, .aer u id 1 e.node.logCount⟩] := by
      rw [hsends, sendToPeer, hpeer]
    exact (h _ (by rw [hsend]; exact List.mem_cons_self) u id 1 _ rfl one_ne_zero).2
  · intro h q hq t id' success m hline _
    rw [hsends] at hq
    have heq := (line_sendToPeer hq).symm.trans hline
    obtain ⟨-, -, -, rfl⟩ := Line.aer.inj heq
    have hpeer : (findPeer follower l).isSome := by
      unfold sendToPeer at hq
      split at hq
      · rename_i hfound
        rw [hfound]
        rfl
      · cases hq
    exact ⟨length_le_of_terms (h hpeer), h hpeer⟩

/-- A follower that keeps its log, checked up to the end of the line's entry. -/
theorem covered_iff_of_kept {t l p pt lc : ℕ} {entry : Option RaftLogEntry}
    (hle : follower.currentTerm ≤ t) (hprev : prevMatches follower p pt = true)
    (checked : ∀ k < p + entry.toList.length,
      follower.log[k]?.map (·.term) = leader.log[k]?.map (·.term))
    (present : ∀ d ∈ entry, follower.log[p]?.map (·.term) = some d.term) :
    ((findPeer follower l).isSome → ∀ k < follower.logCount,
        follower.log[k]?.map (·.term) = leader.log[k]?.map (·.term)) ↔
      Covered leader follower (.ae t l p pt lc entry) := by
  constructor
  · intro h hpeer _ _ _ k hk _
    exact h hpeer k hk
  · intro h hpeer k hk
    rcases Nat.lt_or_ge k (p + entry.toList.length) with hlt | hge
    · exact checked k hlt
    · exact h hpeer hle hprev present k hk hge

/-- The terms of a log that is cut at position `p` and ended with an entry. -/
theorem terms_of_replaced {l m : List RaftLogEntry} {d : RaftLogEntry} {p : ℕ}
    (reach : p ≤ m.length)
    (before : ∀ k < p, m[k]?.map (·.term) = l[k]?.map (·.term))
    (head : l[p]?.map (·.term) = some d.term) :
    ∀ k < (m.take p ++ [d]).length,
      (m.take p ++ [d])[k]?.map (·.term) = l[k]?.map (·.term) := by
  intro k hk
  have hlen : (m.take p).length = p := by
    rw [List.length_take]
    omega
  rw [List.length_append, hlen] at hk
  rcases Nat.lt_succ_iff_lt_or_eq.mp hk with hlt | rfl
  · rw [List.getElem?_append_left (by omega), List.getElem?_take, if_pos hlt]
    exact before k hlt
  · rw [List.getElem?_append_right (by omega), hlen, Nat.sub_self, head]
    rfl

/-- A success reply is truthful exactly when the line covers the follower's log. -/
theorem success_truthful_iff (ranged : Ranged leader) (matched : LogsMatch leader.log follower.log)
    (built : buildAppendLocked leader peer = some line) (parsed : line.handler = some sec)
    (handled : exec env sec follower = some e) :
    Truthful leader e ↔ Covered leader follower line := by
  obtain ⟨p, pt, entry, d, rfl, rfl, hpt, hentry⟩ := ranged.built_handler built parsed
  rcases handleAppendEntries_accepts handled with
    ⟨hle, hprev, u, id, hstore, hsends⟩ | ⟨hno, u, id, hsends⟩
  · have before := matched.checked hpt hprev
    rw [truthful_iff_of_success hsends, RaftNode.logCount]
    cases entry with
    | none =>
      have hlog : follower.log = e.node.log := Option.some.inj hstore
      rw [← hlog]
      exact covered_iff_of_kept hle hprev before (by simp)
    | some d' =>
      obtain ⟨hget, hindex, hterm⟩ := hentry d' rfl
      have hplt := (List.getElem?_eq_some_iff.mp hget).1
      have room := ranged.room
      have reach := prevMatches_le hprev
      have head : leader.log[p]?.map (·.term) = some d.term := by rw [hget, hterm]; rfl
      rcases storeEntry_cases hstore hindex reach (by omega) with
        ⟨old, hold, hsame, hlog⟩ | ⟨hdiff, hlog⟩
      · -- the entry is already there
        have there : follower.log[p]?.map (·.term) = some d.term := by rw [hold, ← hsame]; rfl
        rw [hlog]
        refine covered_iff_of_kept hle hprev (fun k hk => ?_) ?_
        · rcases Nat.lt_succ_iff_lt_or_eq.mp hk with hlt | rfl
          · exact before k hlt
          · rw [there, head]
        · intro c hc
          obtain rfl := Option.some.inj hc
          rw [there, hterm]
      · -- the entry ends the log
        constructor
        · intro _ _ _ _ present
          obtain ⟨old, hold, hsame⟩ := Option.map_eq_some_iff.mp (present d' rfl)
          exact absurd (hsame.trans hterm.symm) (hdiff old hold)
        · intro _ _
          rw [hlog]
          exact terms_of_replaced reach before head
  · constructor
    · intro _ _ h1 h2
      exact absurd ⟨h1, h2⟩ hno
    · intro _
      exact truthful_of_refusal hsends

/-- A node of the three in a term and with a log. -/
def trioNode (i : Fin 3) (role : RaftRole) (term : ℕ) (log : List RaftLogEntry) : RaftNode :=
  { raftNodeInit 0 (trioConfig i) with role, currentTerm := term, log }

theorem ranged_trioNode {i : Fin 3} {role : RaftRole} {term : ℕ} {log : List RaftLogEntry}
    (hterm : term < 2 ^ 32) (room : log.length ≤ raftMaxLog) (terms : ∀ e ∈ log, e.term < 2 ^ 32)
    (indexed : Indexed log) : Ranged (trioNode i role term log) where
  id := by
    have := i.isLt
    simp only [trioNode, raftNodeInit, trioConfig]
    omega
  term := hterm
  commit := by simp [trioNode, raftNodeInit]
  room := room
  terms := terms
  indexed := indexed

/-- Node 1 replicates its entry to node 2, whose log is empty. -/
theorem success_truthful_iff_trio : ∃ line sec e,
    buildAppendLocked (trioNode 0 .leader 1 [⟨1, 1, .set, bytes "k", bytes "a"⟩])
      ⟨2, bytes "127.0.0.1", 9002, 1, 0⟩ = some line ∧
    line.handler = some sec ∧ exec still sec (trioNode 1 .follower 1 []) = some e ∧
    Truthful (trioNode 0 .leader 1 [⟨1, 1, .set, bytes "k", bytes "a"⟩]) e := by
  let leader := trioNode 0 .leader 1 [⟨1, 1, .set, bytes "k", bytes "a"⟩]
  let follower := trioNode 1 .follower 1 []
  have hrun : (buildAppendLocked leader ⟨2, bytes "127.0.0.1", 9002, 1, 0⟩).any (fun line =>
      line.handler.any fun sec => (exec still sec follower).isSome) = true := by decide +kernel
  obtain ⟨line, built, hrun⟩ := (Option.any_eq_true _ _).mp hrun
  obtain ⟨sec, parsed, hrun⟩ := (Option.any_eq_true _ _).mp hrun
  obtain ⟨e, handled⟩ := Option.isSome_iff_exists.mp hrun
  refine ⟨line, sec, e, built, parsed, handled, ?_⟩
  have ranged : Ranged leader := by
    apply ranged_trioNode (by norm_num) (by decide) (by decide)
    intro k d hd
    obtain ⟨rfl, rfl⟩ : k = 0 ∧ d = ⟨1, 1, .set, bytes "k", bytes "a"⟩ := by
      cases k with
      | zero => exact ⟨rfl, (Option.some.inj hd).symm⟩
      | succ k => cases hd
    rfl
  have matched : LogsMatch leader.log follower.log := by
    intro k d e _ he
    cases he
  apply (success_truthful_iff ranged matched built parsed handled).mpr
  unfold Covered
  split
  · intro _ _ _ _ k hk
    cases hk
  · trivial

/-- Node 2, which leads with an empty log, is told by node 1 of an entry that it does not have. -/
theorem success_untruthful : ¬∀ (leader follower : RaftNode) (peer : Peer) (line : Line)
    (sec : Section) (env : Env) (e : Effect), Ranged leader →
    LogsMatch leader.log follower.log → buildAppendLocked leader peer = some line →
    line.handler = some sec → exec env sec follower = some e → Truthful leader e := by
  intro h
  let leader := trioNode 1 .leader 2 []
  let follower := trioNode 0 .leader 1 [⟨1, 1, .set, bytes "k", bytes "a"⟩]
  let peer : Peer := ⟨1, bytes "127.0.0.1", 9001, 1, 0⟩
  have hrun : (buildAppendLocked leader peer).any (fun line => line.handler.any fun sec =>
      (exec still sec follower).any fun e => e.sends.any fun p => p.line = .aer 2 1 1 1) =
        true := by
    decide +kernel
  obtain ⟨line, built, hrun⟩ := (Option.any_eq_true _ _).mp hrun
  obtain ⟨sec, parsed, hrun⟩ := (Option.any_eq_true _ _).mp hrun
  obtain ⟨e, handled, hrun⟩ := (Option.any_eq_true _ _).mp hrun
  obtain ⟨p, hp, hline⟩ := List.any_eq_true.mp hrun
  have ranged : Ranged leader :=
    ranged_trioNode (by norm_num) (Nat.zero_le _) (by simp) (fun k d hd => by cases hd)
  have matched : LogsMatch leader.log follower.log := by
    intro k d e hd
    cases hd
  have := (h leader follower peer line sec still e ranged matched built parsed handled p hp 2 1 1 1
    (of_decide_eq_true hline) one_ne_zero).1
  exact absurd this (by decide)

/-! ### What the follower commits -/

/-- If the follower accepts the line and keeps its log as it is, then the leader's commit index, cut
to the follower's log, is no further than what is committed or checked. -/
def Verified (x : RaftNode) (term prevIndex prevTerm leaderCommit hasEntry : ℕ)
    (incoming : RaftLogEntry) : Prop :=
  x.currentTerm ≤ term → prevMatches x prevIndex prevTerm = true →
  (hasEntry ≠ 0 → x.log[prevIndex]?.map (·.term) = some incoming.term) →
  min leaderCommit x.logCount ≤
    max x.commitIndex (prevIndex + if hasEntry = 0 then 0 else 1)

theorem handleAppendEntries_commit {now t l p pt lc has : ℕ} {x : RaftNode} {d : RaftLogEntry}
    (he : handleAppendEntries now x t l p pt lc has d = some e) :
    (x.currentTerm ≤ t ∧ prevMatches x p pt = true ∧ e.node.commitIndex =
      if x.commitIndex < lc then min lc e.node.logCount else x.commitIndex) ∨
    (¬(x.currentTerm ≤ t ∧ prevMatches x p pt = true) ∧ e.node.commitIndex = x.commitIndex) := by
  generalize hx : (if x.currentTerm ≤ t then becomeFollowerLocked now x t (toInt32 l)
    else x) = x1
  obtain ⟨hlog, -, hcommit, -, hterm⟩ := acknowledged_fields hx
  have hprev := prevMatches_congr hlog p pt
  rcases handleAppendEntries_cases hx he with ⟨h1, h2, log, y, -, happ, rfl⟩ | ⟨hno, rfl⟩
  · refine Or.inl ⟨hterm.mp h1, by rwa [← hprev], ?_⟩
    rw [hcommit] at happ
    split at happ
    · rename_i hlt
      rw [(applyCommittedLocked_eq happ).1, if_pos hlt]
      rfl
    · rename_i hge
      obtain rfl := Option.some.inj happ
      rw [if_neg hge]
  · rw [hterm, hprev] at hno
    exact Or.inr ⟨hno, hcommit⟩

/-- How long the log is after an `AE` section that succeeds: as before, when it is kept, or else as
far as the line has checked. -/
theorem accepted_length {x : RaftNode} {p has : ℕ} {d : RaftLogEntry} {log : List RaftLogEntry}
    (room : x.logCount ≤ raftMaxLog) (next : has = 0 ∨ d.index = p + 1) (reach : p ≤ x.log.length)
    (hstore : (if has = 0 then none else some d).elim (some x.log) (storeEntry x.log) = some log) :
    ((has ≠ 0 → x.log[p]?.map (·.term) = some d.term) ∧ log.length = x.log.length) ∨
    (has ≠ 0 ∧ x.log[p]?.map (·.term) ≠ some d.term ∧ log.length ≤ p + 1) := by
  by_cases hz : has = 0
  · rw [if_pos hz] at hstore
    rw [Option.some.inj hstore]
    exact Or.inl ⟨fun h => absurd hz h, rfl⟩
  · have hindex := next.resolve_left hz
    rw [if_neg hz, Option.elim_some] at hstore
    rcases reach.lt_or_eq with hlt | rfl
    · simp only [RaftNode.logCount] at room
      rcases storeEntry_cases hstore hindex reach (by omega) with
        ⟨old, hold, hsame, rfl⟩ | ⟨hdiff, rfl⟩
      · exact Or.inl ⟨fun _ => by rw [hold, ← hsame]; rfl, rfl⟩
      · refine Or.inr ⟨hz, fun hmap => ?_, by simp [reach]⟩
        obtain ⟨old, hold, hsame⟩ := Option.map_eq_some_iff.mp hmap
        exact hdiff old hold hsame
    · refine Or.inr ⟨hz, by simp, ?_⟩
      rcases Nat.lt_or_ge x.log.length raftMaxLog with hlt | hfull
      · rcases storeEntry_cases hstore hindex le_rfl hlt with ⟨_, _, _, rfl⟩ | ⟨-, rfl⟩
        · omega
        · simp
      · rw [storeEntry_full hstore hindex hfull]
        omega

/-- An `AE` section of a line as nodes write them gives a result, and the commit index in it is
within the checked entries exactly when the line is verified. -/
theorem commit_verified_iff {x : RaftNode} (committed : x.commitIndex ≤ x.logCount)
    (room : x.logCount ≤ raftMaxLog) {t l p pt lc has : ℕ} {d : RaftLogEntry}
    (next : has = 0 ∨ d.index = p + 1) (now : ℕ) :
    ∃ e, handleAppendEntries now x t l p pt lc has d = some e ∧
      (e.node.commitIndex ≤ max x.commitIndex (min lc (p + if has = 0 then 0 else 1)) ↔
        Verified x t p pt lc has d) := by
  have hsome : (handleAppendEntries now x t l p pt lc has d).isSome := by
    rw [handleAppendEntries_isSome]
    intro _ _ hhas
    rw [next.resolve_left hhas]
    exact Nat.succ_ne_zero p
  obtain ⟨e, he⟩ := Option.isSome_iff_exists.mp hsome
  refine ⟨e, he, ?_⟩
  rcases handleAppendEntries_accepts he with ⟨hle, hprev, u, id, hstore, -⟩ | ⟨hno, -⟩
  · rcases handleAppendEntries_commit he with ⟨-, -, hcommit⟩ | ⟨hno, -⟩
    · rw [hcommit]
      rcases accepted_length room next (prevMatches_le hprev) hstore with
        ⟨hkept, hlen⟩ | ⟨hhas, hdiff, hlen⟩
      · -- the log is kept
        have hsame : e.node.logCount = x.logCount := hlen
        rw [hsame]
        constructor
        · intro h _ _ _
          split at h <;> omega
        · intro h
          have hmin := h hle hprev hkept
          split <;> omega
      · constructor
        · intro _ _ _ hkept
          exact absurd (hkept hhas) hdiff
        · intro _
          rw [if_neg hhas]
          simp only [RaftNode.logCount]
          split <;> omega
    · exact absurd ⟨hle, hprev⟩ hno
  · rcases handleAppendEntries_commit he with ⟨hle, hprev, -⟩ | ⟨-, hcommit⟩
    · exact absurd ⟨hle, hprev⟩ hno
    · rw [hcommit]
      exact ⟨fun _ h1 h2 => absurd ⟨h1, h2⟩ hno, fun _ => le_max_left _ _⟩

/-- Node 2 gets an entry that node 1 has committed, and commits it. -/
theorem commit_verified_iff_trio : ∃ e,
    handleAppendEntries 0 (trioNode 1 .follower 1 []) 1 1 0 0 1 1
      ⟨1, 1, .set, bytes "k", bytes "a"⟩ = some e ∧ e.node.commitIndex ≤ 1 := by
  obtain ⟨e, he, hiff⟩ := @commit_verified_iff (trioNode 1 .follower 1 []) le_rfl (Nat.zero_le _)
    1 1 0 0 1 1 ⟨1, 1, .set, bytes "k", bytes "a"⟩ (Or.inr rfl) 0
  exact ⟨e, he, hiff.mpr fun _ _ h => absurd (h one_ne_zero) (by decide)⟩

/-- Node 1 has the entry that node 2 sends it, and another one of term 1 behind it, which it commits
in the place of the second entry that node 2 has committed. -/
theorem commit_unverified : ¬∀ (x : RaftNode), x.lastApplied ≤ x.commitIndex →
    x.commitIndex ≤ x.logCount → x.logCount ≤ raftMaxLog →
    ∀ (now t l p pt lc has : ℕ) (d : RaftLogEntry), has = 0 ∨ d.index = p + 1 →
    ∀ e, handleAppendEntries now x t l p pt lc has d = some e →
    e.node.commitIndex ≤ max x.commitIndex (min lc (p + if has = 0 then 0 else 1)) := by
  intro h
  let d : RaftLogEntry := ⟨1, 1, .set, bytes "k", bytes "a"⟩
  let x := trioNode 0 .follower 1 [d, ⟨2, 1, .set, bytes "k", bytes "b"⟩]
  have hrun : (handleAppendEntries 0 x 3 2 0 0 2 1 d).any (fun e => e.node.commitIndex = 2) =
      true := by
    decide +kernel
  obtain ⟨e, he, hcommit⟩ := (Option.any_eq_true _ _).mp hrun
  have hle := h x le_rfl (Nat.zero_le _) (by decide) 0 3 2 0 0 2 1 d (Or.inr rfl) e he
  rw [of_decide_eq_true hcommit] at hle
  exact absurd hle (by decide)

end RaftKv
