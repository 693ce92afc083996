import RaftKv.Abreast
import RaftKv.Durability
import RaftKv.Progress
import RaftKv.Rounds
import RaftKv.Window

/-! A cluster with fixed tables can converge.  From every state of a steady run with room for a
term and an entry, a node that is electable is elected, takes a command, and brings its log across
to all others, which apply it. -/

namespace RaftKv

open Consensus Consensus.Ledger Function Runs Stdio

attribute [local irreducible] toInt32

variable {n : ℕ} {R : Roster n} {s s' : Cluster n} {i j k : Fin n} {t next : ℕ}
  {es : List RaftLogEntry} {x y : RaftNode} {e : Effect} {peer : Peer}

/-! ### The leader's record of a follower -/

theorem find_modifyPeer_ne {f : Peer → Peer} (hf : ∀ p, (f p).id = p.id) {id id' : ℕ}
    (hne : id' ≠ id) (ps : List Peer) :
    (modifyPeer f id ps).find? (fun p => p.id = id') = ps.find? fun p => p.id = id' := by
  induction ps with
  | nil => rfl
  | cons p ps ih =>
    rw [modifyPeer]
    by_cases hp : p.id = id
    · have hno : ¬p.id = id' := fun h => hne (h.symm.trans hp)
      rw [if_pos hp, List.find?_cons_of_neg (by simpa [hf] using hno),
        List.find?_cons_of_neg (by simpa using hno)]
    · rw [if_neg hp]
      by_cases hp' : p.id = id'
      · rw [List.find?_cons_of_pos (by simpa using hp'),
          List.find?_cons_of_pos (by simpa using hp')]
      · rw [List.find?_cons_of_neg (by simpa using hp'),
          List.find?_cons_of_neg (by simpa using hp'), ih]

/-- What the leader makes of an answer of its term. -/
theorem answer_standing {now id success m : ℕ} (lead : x.role = .leader)
    (known : (findPeer x id).isSome)
    (he : handleAppendResponse now x x.currentTerm id success m = some e) :
    e.node.role = .leader ∧ e.node.currentTerm = x.currentTerm ∧ e.node.log = x.log ∧
      ((success ≠ 0 ∧ e.node.peers = modifyPeer (Peer.matched m) id x.peers ∧
        ∃ z : RaftNode, z.currentTerm = x.currentTerm ∧ z.log = x.log ∧ z.peers = e.node.peers ∧
          e.node.commitIndex = (commitScan z x.logCount).getD z.commitIndex) ∨
      (success = 0 ∧ e.node.peers = modifyPeer Peer.backed id x.peers)) := by
  cases appendResponse he with
  | observes newer => exact absurd newer (lt_irrefl _)
  | ignores other => exact absurd ⟨lead, rfl, known⟩ other
  | takes h succeeds y recomputed =>
    have hstanding := standing_recomputeCommitLocked recomputed lead
    obtain ⟨c, a, store, events, rfl, -⟩ := recomputeCommitLocked_shape recomputed
    obtain ⟨-, -, hcommit, -⟩ := standing_eq.mp hstanding
    exact ⟨lead, rfl, rfl, Or.inl ⟨succeeds, rfl,
      { x with peers := modifyPeer (Peer.matched m) id x.peers }, rfl, rfl, rfl, hcommit⟩⟩
  | backs h fails => exact ⟨lead, rfl, rfl, Or.inr ⟨fails, rfl⟩⟩

/-! ### A round in the cluster -/

/-- In a steady history with plain commands, a node leads in term `t` with a log that ends with an
entry of the term, and no node has come to a later term. -/
structure Reigns (R : Roster n) (i : Fin n) (t : ℕ) (es : List RaftLogEntry) (s : Cluster n) :
    Prop where
  sim : ∃ g, Sim True R plainView g s
  role : (s.node i).role = .leader
  term : (s.node i).currentTerm = t
  log : (s.node i).log = es
  terms : ∀ k, (s.node k).currentTerm ≤ t
  bound : t < 2 ^ 32 - 1
  fresh : es[es.length - 1]?.map (·.term) = some t
  ahead : ∀ p ∈ (s.node i).peers, 0 < p.nextIndex

theorem Reigns.below (h : Reigns R i t es s) : TermsBelow s := fun k =>
  (h.terms k).trans_lt h.bound

theorem Reigns.pos (h : Reigns R i t es s) : 0 < es.length := by
  by_contra hzero
  have hfresh := h.fresh
  rw [List.getElem?_eq_none (by omega)] at hfresh
  cases hfresh

theorem Sim.logsMatch {g : Ledger (Fin n) RaftLogEntry} (h : Sim True R plainView g s)
    (i j : Fin n) : LogsMatch (s.node i).log (s.node j).log := by
  intro k d e hd he hterm m hm
  rw [← h.log_eq] at hd he
  have htake := (h.matching.logs i).take_eq (h.matching.logs j) hd he hterm
  have hget := congrArg (fun l => (l[m]?).map (·.term)) htake
  simpa only [List.getElem?_take, if_pos (Nat.lt_succ_of_le hm), h.log_eq] using hget

/-- A leader and another member of the roster are in the middle of a repair. -/
theorem Reigns.repairing (h : Reigns R i t es s) (hne : j ≠ i)
    (found : findPeer (s.node i) (R.id j) = some peer) (pos : 0 < peer.nextIndex) :
    Repairing (s.node i) (s.node j) := by
  obtain ⟨g, hs⟩ := h.sim
  have hnode := hs.nodes i
  have ids : ∀ k, (s.node k).id < 2 ^ 32 := by
    intro k
    have := R.id_lt k
    rw [(hs.lists k).id]
    omega
  have hcommit := hnode.commit
  have sends := (hs.lists j).sendToPeer_member hne.symm (.leave 0)
  simp only [raftMaxLog] at hcommit
  refine
    { leader :=
        { id := ids i, term := hnode.bound, commit := by omega, room := hnode.room
          terms := fun d hd => (hnode.term_le hs.matching hd).trans_lt hnode.bound
          indexed := hnode.indexed }
      role := h.role
      texts := fun d hd => ?_
      alone := fun d hd => ?_
      follower := ids j
      room := (hs.nodes j).room
      term := h.term ▸ h.terms j
      listed := ⟨peer, by rw [(hs.lists j).id]; exact found, pos⟩
      known := ?_
      matched := hs.logsMatch i j }
  · have hplain : PlainCommand d.op d.key d.value := hnode.clean d hd
    have hkey := (isToken_of_isValidToken hplain.valid_key).fits
    refine ⟨Nat.lt_succ_of_le hkey, ?_⟩
    rcases hplain.isToken_value with hnil | hvalue
    · rw [hnil]
      decide
    · exact Nat.lt_succ_of_le hvalue.fits
  · have hplain : PlainCommand d.op d.key d.value := hnode.clean d hd
    exact RaftLogEntry.alone_of_valid hplain.toValidCommand
  · rw [(hs.lists i).id]
    by_contra hnone
    rw [sendToPeer, Option.not_isSome_iff_eq_none.mp hnone] at sends
    cases sends

/-- The line at `next` leaves no entry of the follower that it has not checked. -/
theorem Reigns.vouched (h : Reigns R i t es s) {pt lc : ℕ} {d : RaftLogEntry}
    (clear : next ≤ es.length → agreement (·.term) es (s.node j).log < next)
    (level : es.length < next → (s.node j).log.length ≤ es.length)
    (hentry : ∀ c ∈ es[next - 1]?, d.index = next ∧ d.term = c.term) (pos : 0 < next) :
    Vouched s j (.handleAppendEntries t (R.id i) (min (next - 1) es.length) pt lc
      (if next ≤ es.length then 1 else 0) d) := by
  obtain ⟨g, hs⟩ := h.sim
  have matched : LogsMatch es (s.node j).log := h.log ▸ hs.logsMatch i j
  intro _ _ same _ _ m hm beyond
  rcases Nat.lt_or_ge es.length next with hlt | hle
  · simp only [Nat.not_le_of_lt hlt, if_false, if_true] at beyond
    have := level hlt
    simp only [RaftNode.logCount] at hm
    omega
  · simp only [hle, if_true, one_ne_zero, if_false] at beyond
    have hget : es[next - 1]? = some es[next - 1] := List.getElem?_eq_getElem (by omega)
    obtain ⟨hindex, hterm⟩ := hentry _ hget
    simp only [RaftNode.logCount] at hm
    have hold : (s.node j).log[next - 1]? = some (s.node j).log[next - 1] :=
      List.getElem?_eq_getElem (by omega)
    have heq := same (by rw [if_pos hle]; exact one_ne_zero) (s.node j).log[next - 1]
      (by rw [hindex]; exact hold)
    have := matched.lt_agreement hget hold (hterm.symm.trans heq.symm)
    have := clear hle
    omega

/-- What a round of the leader with a follower leaves behind. -/
structure Rounded (R : Roster n) (i j : Fin n) (t : ℕ) (es : List RaftLogEntry) (next : ℕ)
    (success m : ℕ) (s s' : Cluster n) : Prop where
  run : Reach Cluster.step SteadyPlain s s'
  reigns : Reigns R i t es s'
  others : ∀ k, k ≠ i → k ≠ j → s'.node k = s.node k
  round : Round (·.term) es (carriedAt es) (next, (s.node j).log)
    (if success = 0 then next - 1 else m + 1, (s'.node j).log)
  room : m ≤ raftMaxLog
  commits : min (next - 1) es.length ≤ agreement (·.term) es (s.node j).log →
    (s'.node j).commitIndex = if (s.node j).commitIndex < (s.node i).commitIndex then
      min (s.node i).commitIndex (s'.node j).logCount else (s.node j).commitIndex
  answered : (success ≠ 0 ∧
      (s'.node i).peers = modifyPeer (Peer.matched m) (R.id j) (s.node i).peers ∧
      ∃ z : RaftNode, z.currentTerm = t ∧ z.log = es ∧ z.peers = (s'.node i).peers ∧
        (s'.node i).commitIndex = (commitScan z es.length).getD z.commitIndex) ∨
    (success = 0 ∧ (s'.node i).peers = modifyPeer Peer.backed (R.id j) (s.node i).peers)

/-- The follower `j` has handled a line of the leader, and its answer is on its way. -/
structure Replied (R : Roster n) (i j : Fin n) (t : ℕ) (es : List RaftLogEntry) (next : ℕ)
    (success m : ℕ) (s s' : Cluster n) : Prop where
  run : Reach Cluster.step SteadyPlain s s'
  reigns : Reigns R i t es s'
  others : ∀ k, k ≠ j → s'.node k = s.node k
  round : Round (·.term) es (carriedAt es) (next, (s.node j).log)
    (if success = 0 then next - 1 else m + 1, (s'.node j).log)
  flag : success ≤ 1
  room : m ≤ raftMaxLog
  commits : min (next - 1) es.length ≤ agreement (·.term) es (s.node j).log →
    (s'.node j).commitIndex = if (s.node j).commitIndex < (s.node i).commitIndex then
      min (s.node i).commitIndex (s'.node j).logCount else (s.node j).commitIndex
  sent : R.packet i (.aer t (R.id j) success m) ∈ s'.net

theorem Reigns.reply (h : Reigns R i t es s) (hne : j ≠ i)
    (found : findPeer (s.node i) (R.id j) = some peer) (hnext : peer.nextIndex = (next : ℤ))
    (pos : 0 < next) (clear : next ≤ es.length → agreement (·.term) es (s.node j).log < next)
    (level : es.length < next → (s.node j).log.length ≤ es.length) {line : Line}
    (built : buildAppendLocked (s.node i) peer = some line) (sent : R.packet j line ∈ s.net) :
    ∃ success m s', Replied R i j t es next success m s s' := by
  obtain ⟨g, hs⟩ := h.sim
  have repairing := h.repairing hne found (by omega)
  -- The follower reads the line.
  rcases repairing.read hnext pos built with ⟨-, hno, -⟩ | ⟨reads, pt, d, hpt, parsed, hentry⟩
  · refine absurd (fun c hc => RaftLogEntry.carried_of_valid ?_) hno
    have hplain : PlainCommand c.op c.key c.value :=
      (hs.nodes i).clean c (List.mem_of_getElem? hc)
    exact hplain.toValidCommand
  have hsec : Section.handleAppendEntries (s.node i).currentTerm (s.node i).id
      (min (next - 1) (s.node i).logCount) pt (s.node i).commitIndex
      (if next ≤ (s.node i).log.length then 1 else 0) d =
      .handleAppendEntries t (R.id i) (min (next - 1) es.length) pt (s.node i).commitIndex
        (if next ≤ es.length then 1 else 0) d := by
    simp only [h.term, (hs.lists i).id, RaftNode.logCount, h.log]
  have hsome : (exec still (.handleAppendEntries (s.node i).currentTerm (s.node i).id
      (min (next - 1) (s.node i).logCount) pt (s.node i).commitIndex
      (if next ≤ (s.node i).log.length then 1 else 0) d) (s.node j)).isSome := by
    refine handleAppendEntries_isSome.mpr fun _ _ hhas => ?_
    split at hhas
    · rw [(hentry _ (List.getElem?_eq_getElem (by omega))).1]
      exact pos.ne'
    · exact absurd rfl hhas
  -- It handles the line.
  obtain ⟨e, he⟩ := Option.isSome_iff_exists.mp hsome
  obtain ⟨-, hterm, -, -, success, m, hsends, hsuccess, hm, -, hround⟩ :=
    repairing.handled pos reads hpt hentry he
  have hcommits := handleAppendEntries_commit he
  have hprev := repairing.matched.prevMatches_iff (termAt_of_initial List.prefix_rfl hpt)
  rw [hsec] at parsed he
  rw [h.log] at hentry
  obtain ⟨k, s', step, entered, nodes, sent', -⟩ := Cluster.exists_deliver still sent
    ⟨(hs.lists j).host.symm, (hs.lists j).port.symm⟩ parsed he
  have steady : SteadyPlain s (.deliver k j still) :=
    steadyPlain_of_quiet (.deliver k j still) rfl h.below trivial entered rfl
      (h.vouched clear level hentry pos)
  have hsim := steady.sim step h.sim
  have hid : e.node.id = R.id j := by
    obtain ⟨g', hs'⟩ := hsim
    have := (hs'.lists j).id
    rwa [nodes, update_self] at this
  have leader : s'.node i = s.node i := by
    rw [nodes, update_of_ne hne.symm]
  have follower : s'.node j = e.node := by
    rw [nodes, update_self]
  have terms : ∀ k, (s'.node k).currentTerm ≤ t := by
    intro k
    by_cases hk : k = j
    · rw [hk, follower, hterm, h.term]
    · rw [nodes, update_of_ne hk]
      exact h.terms k
  refine ⟨success, m, s',
    { run := Reach.refl.tail steady step
      reigns := ⟨hsim, leader ▸ h.role, leader ▸ h.term, leader ▸ h.log, terms, h.bound, h.fresh,
        leader ▸ h.ahead⟩
      others := fun k hk => by rw [nodes, update_of_ne hk]
      round := by rw [follower, ← h.log]; exact hround
      flag := hsuccess
      room := hm
      commits := fun agrees => ?_
      sent := sent' _ ?_ }⟩
  · rw [follower]
    rcases hcommits with ⟨-, -, hcommit⟩ | ⟨hno, -⟩
    · exact hcommit
    · refine absurd ⟨h.term ▸ h.terms j, hprev.mpr ?_⟩ hno
      rw [RaftNode.logCount, h.log]
      exact agrees
  · rw [hsends, (hs.lists i).id, (hs.lists j).sendToPeer_member hne.symm, hterm, h.term, hid]
    exact List.mem_singleton.mpr rfl

/-- The leader handles the answer. -/
theorem Replied.rounded {success m : ℕ} {s₁ : Cluster n}
    (h : Replied R i j t es next success m s s₁) (hne : j ≠ i)
    (found : findPeer (s.node i) (R.id j) = some peer) :
    ∃ s', Rounded R i j t es next success m s s' := by
  have reigns := h.reigns
  obtain ⟨g, hs⟩ := reigns.sim
  have leader : s₁.node i = s.node i := h.others i hne.symm
  have fits : Fits [t, R.id j, success, m] := by
    have hid := R.id_lt j
    have hbound := reigns.bound
    have hflag := h.flag
    have hroom := h.room
    simp only [raftMaxLog] at hroom
    intro k hk
    simp only [List.mem_cons, List.not_mem_nil, or_false] at hk
    omega
  have known : (findPeer (s₁.node i) (R.id j)).isSome := by
    rw [leader, found]
    rfl
  obtain ⟨e, he⟩ := Option.isSome_iff_exists.mp
    ((@exec_isSome_iff (s₁.node i) still (.handleAppendResponse t (R.id j) success m)
      ⟨(hs.nodes i).room, (hs.nodes i).indexed⟩).mpr trivial)
  obtain ⟨k, s', step, entered, nodes, -, -⟩ := Cluster.exists_deliver still h.sent
    ⟨(hs.lists i).host.symm, (hs.lists i).port.symm⟩
    (Line.Unbroken.handlers_singleton trivial (Line.handler_aer fits)) he
  have steady : SteadyPlain s₁ (.deliver k i still) :=
    steadyPlain_of_quiet (.deliver k i still) rfl reigns.below trivial entered rfl trivial
  rw [← reigns.term] at he
  obtain ⟨hrole, hterm, hlog, hanswer⟩ := answer_standing reigns.role known he
  have hnode : s'.node i = e.node := by
    rw [nodes, update_self]
  have follower : s'.node j = s₁.node j := by
    rw [nodes, update_of_ne hne]
  have terms : ∀ k, (s'.node k).currentTerm ≤ t := by
    intro k
    by_cases hk : k = i
    · rw [hk, hnode, hterm, reigns.term]
    · rw [nodes, update_of_ne hk]
      exact reigns.terms k
  have ahead : ∀ p ∈ (s'.node i).peers, 0 < p.nextIndex := by
    intro p hp
    rw [hnode] at hp
    rcases hanswer with ⟨-, hpeers, -⟩ | ⟨-, hpeers⟩ <;> rw [hpeers] at hp <;>
      rcases mem_modifyPeer hp with hp | ⟨q, hq, -, rfl⟩
    · exact reigns.ahead p hp
    · have := (@matched_eq m q h.room).2
      omega
    · exact reigns.ahead p hp
    · have := reigns.ahead q hq
      rw [Peer.backed]
      dsimp only
      split <;> omega
  refine ⟨s',
    { run := h.run.tail steady step
      reigns := ⟨steady.sim step reigns.sim, hnode ▸ hrole, hnode ▸ hterm.trans reigns.term,
        hnode ▸ hlog.trans reigns.log, terms, reigns.bound, reigns.fresh, ahead⟩
      others := fun k hi hj => by rw [nodes, update_of_ne hi, h.others k hj]
      round := by rw [follower]; exact h.round
      room := h.room
      commits := by rw [follower]; exact h.commits
      answered := ?_ }⟩
  rw [hnode, ← leader]
  rcases hanswer with ⟨succeeds, hpeers, z, hz, hzlog, hzpeers, hcommit⟩ | hfails
  · rw [RaftNode.logCount, reigns.log] at hcommit
    exact Or.inl ⟨succeeds, hpeers, z, hz.trans reigns.term, hzlog.trans reigns.log, hzpeers,
      hcommit⟩
  · exact Or.inr hfails

/-! ### The heartbeats -/

/-- The thread that ran last goes on. -/
theorem Cluster.resume {env : Env} {sec : Section} {rest : List Section}
    {threads : List (Fin n × List Section)} (hthreads : s.threads = (i, sec :: rest) :: threads)
    (he : exec env sec (s.node i) = some e) :
    s.step (.resume 0 env) =
        some ⟨update s.node i e.node, (i, e.todo ++ rest) :: threads, e.sends ++ s.net⟩ ∧
      s.entered (.resume 0 env) = some (i, sec) := by
  simp only [Cluster.step, Cluster.entered, Cluster.run, hthreads, he, List.getElem?_cons_zero,
    List.eraseIdx_cons_zero, Option.map_some, and_self]

/-- A thread that is left with lines to the peers `ids`, none of which changes its node, sends them
all. -/
theorem exists_sends {ids : List ℕ} {rest : List Section}
    {threads : List (Fin n × List Section)} (lead : (s.node i).role = .leader)
    (below : TermsBelow s)
    (keeps : ∀ id ∈ ids, ∃ sends, exec still (.sendAppendToPeer id) (s.node i) =
      some { node := s.node i, sends := sends })
    (hthreads : s.threads = (i, ids.map .sendAppendToPeer ++ rest) :: threads) :
    ∃ s', Reach Cluster.step SteadyPlain s s' ∧ s'.node = s.node ∧ (∀ q ∈ s.net, q ∈ s'.net) ∧
      ∀ id ∈ ids, ∀ e, exec still (.sendAppendToPeer id) (s.node i) = some e →
        ∀ q ∈ e.sends, q ∈ s'.net := by
  induction ids generalizing s with
  | nil => exact ⟨s, .refl, rfl, fun _ hq => hq, fun _ hid => absurd hid List.not_mem_nil⟩
  | cons id ids ih =>
    obtain ⟨sends, he⟩ := keeps id List.mem_cons_self
    let s₁ : Cluster n :=
      ⟨s.node, (i, ids.map .sendAppendToPeer ++ rest) :: threads, sends ++ s.net⟩
    obtain ⟨step, entered⟩ := Cluster.resume (hthreads.trans (by rw [List.map_cons]; rfl)) he
    rw [update_eq_self] at step
    have steady : SteadyPlain s (.resume 0 still) :=
      steadyPlain_of_entered (.resume 0 still) rfl below trivial entered (fun _ => lead) trivial
    obtain ⟨s₂, run, nodes, stay, sent⟩ := @ih s₁ lead below
      (fun k hk => keeps k (List.mem_cons_of_mem id hk)) rfl
    refine ⟨s₂, (Reach.refl.tail steady step).trans run, nodes,
      fun q hq => stay q (List.mem_append_right sends hq), fun k hk e hke q hq => ?_⟩
    rcases List.mem_cons.mp hk with rfl | hk
    · obtain rfl := Option.some.inj (he.symm.trans hke)
      exact stay q (List.mem_append_left s.net hq)
    · exact sent k hk e hke q hq

/-- When its ticker comes to the next heartbeat, the leader sends every peer its line. -/
theorem Reigns.broadcast (h : Reigns R i t es s) :
    ∃ s', Reach Cluster.step SteadyPlain s s' ∧ s'.node = s.node ∧ Reigns R i t es s' ∧
      ∀ j, j ≠ i → ∀ p, findPeer (s.node i) (R.id j) = some p →
        ∃ line, buildAppendLocked (s.node i) p = some line ∧ R.packet j line ∈ s'.net := by
  obtain ⟨g, hs⟩ := h.sim
  have built : ∀ p, ∃ line, buildAppendLocked (s.node i) p = some line := fun p =>
    Option.isSome_iff_exists.mp
      (buildAppendLocked_isSome ⟨(hs.nodes i).room, (hs.nodes i).indexed⟩ p)
  -- The ticker finds the heartbeat due, and comes to the loop over the peers.
  let ids := (s.node i).peers.map fun p => p.id
  let s₁ : Cluster n := ⟨s.node, (i, [.broadcastAppend, .tickerMark]) :: s.threads, s.net⟩
  let s₂ : Cluster n :=
    ⟨s.node, (i, ids.map .sendAppendToPeer ++ [.tickerMark]) :: s.threads, s.net⟩
  have due : tickerLoop 251 (s.node i) 0 =
      { node := s.node i, todo := [.broadcastAppend, .tickerMark] } := by
    rw [tickerLoop, if_neg fun follows => follows.1 h.role, if_pos ⟨h.role, by decide⟩]
  have step₁ : s.step (.enter i ⟨251, false⟩ (.tickerLoop 0)) = some s₁ := by
    simp only [Cluster.step, Cluster.run, exec, due, Option.map_some, update_eq_self,
      List.append_nil, List.nil_append]
    rfl
  have step₂ : s₁.step (.resume 0 still) = some s₂ := by
    have he : exec still .broadcastAppend (s.node i) =
        some { node := s.node i, todo := ids.map .sendAppendToPeer } := by
      rw [exec, broadcastAppend, List.map_map]
      rfl
    rw [(Cluster.resume (s := s₁) rfl he).1, update_eq_self]
    rfl
  have run₂ : Reach Cluster.step SteadyPlain s s₂ :=
    (Reach.refl.tail (steadyPlain_of_quiet (.enter i ⟨251, false⟩ (.tickerLoop 0)) rfl h.below
      trivial rfl rfl trivial) step₁).tail
      (steadyPlain_of_quiet (.resume 0 still) rfl h.below trivial rfl rfl trivial) step₂
  have keeps : ∀ id ∈ ids, ∃ sends, exec still (.sendAppendToPeer id) (s₂.node i) =
      some { node := s₂.node i, sends := sends } := by
    intro id _
    rcases hfound : findPeer (s.node i) id with _ | p
    · exact ⟨[], by simp only [exec, sendAppendToPeer, s₂, hfound]⟩
    · obtain ⟨line, hline⟩ := built p
      exact ⟨_, sendAppendToPeer_known hfound (h.ahead p (List.mem_of_find?_eq_some hfound)) hline⟩
  obtain ⟨s₃, run₃, nodes₃, -, sent₃⟩ :=
    exists_sends (s := s₂) h.role h.below keeps rfl
  have run := run₂.trans run₃
  refine ⟨s₃, run, nodes₃, ?_, fun j hne p found => ?_⟩
  · obtain ⟨g₃, h₃, -⟩ := hs.reach_keeps run
    exact ⟨⟨g₃, h₃⟩, nodes₃ ▸ h.role, nodes₃ ▸ h.term, nodes₃ ▸ h.log, nodes₃ ▸ h.terms, h.bound,
      h.fresh, nodes₃ ▸ h.ahead⟩
  · obtain ⟨line, hline⟩ := built p
    have hmem := List.mem_of_find?_eq_some found
    have hid : p.id = R.id j := by simpa using List.find?_some found
    obtain ⟨k, -, hk, hhost, hport⟩ := Roster.mem_peers (hs.lists i) hmem
    obtain rfl := R.id_inj j k (hid.symm.trans hk)
    refine ⟨line, hline, ?_⟩
    have hsent := sent₃ (R.id j) (hid ▸ List.mem_map_of_mem hmem) _
      (sendAppendToPeer_known found (h.ahead p hmem) hline) _ (List.mem_singleton.mpr rfl)
    rwa [hhost, hport] at hsent

theorem Reigns.round (h : Reigns R i t es s) (hne : j ≠ i)
    (found : findPeer (s.node i) (R.id j) = some peer) (hnext : peer.nextIndex = (next : ℤ))
    (pos : 0 < next) (clear : next ≤ es.length → agreement (·.term) es (s.node j).log < next)
    (level : es.length < next → (s.node j).log.length ≤ es.length) :
    ∃ success m s', Rounded R i j t es next success m s s' := by
  obtain ⟨s₁, run₁, nodes₁, h₁, sent⟩ := h.broadcast
  obtain ⟨line, built, hline⟩ := sent j hne peer found
  rw [← nodes₁] at found clear level built
  obtain ⟨success, m, s₂, replied⟩ := h₁.reply hne found hnext pos clear level built hline
  obtain ⟨s₃, rounded⟩ := replied.rounded hne found
  obtain ⟨run, reigns, others, round, room, commits, answered⟩ := rounded
  rw [nodes₁] at others round commits answered
  exact ⟨success, m, s₃, run₁.trans run, reigns, others, round, room, commits, answered⟩

/-! ### A follower that catches up -/

theorem Reigns.carried (h : Reigns R i t es s) (m : ℕ) : carriedAt es m := by
  obtain ⟨g, hs⟩ := h.sim
  intro d hd
  have hplain : PlainCommand d.op d.key d.value :=
    (hs.nodes i).clean d (h.log ▸ List.mem_of_getElem? hd)
  exact RaftLogEntry.carried_of_valid hplain.toValidCommand

/-- A log that agrees with the leader's up to the end of both is the leader's. -/
theorem Reigns.log_eq_of_agreement (h : Reigns R i t es s)
    (agrees : agreement (·.term) es (s.node j).log = es.length)
    (ends : (s.node j).log.length = es.length) : (s.node j).log = es := by
  obtain ⟨g, hs⟩ := h.sim
  have hpos := h.pos
  obtain ⟨c, hc⟩ : ∃ c, es[es.length - 1]? = some c := ⟨_, List.getElem?_eq_getElem (by omega)⟩
  obtain ⟨d, hd⟩ : ∃ d, (s.node j).log[es.length - 1]? = some d :=
    ⟨_, List.getElem?_eq_getElem (by omega)⟩
  have hterm := @terms_of_lt_agreement _ (·.term) es (s.node j).log (es.length - 1) (by omega)
  rw [hc, hd] at hterm
  have htake := (hs.matching.logs i).take_eq (hs.matching.logs j)
    ((congrArg (·[es.length - 1]?) ((hs.log_eq i).trans h.log)).trans hc)
    ((congrArg (·[es.length - 1]?) (hs.log_eq j)).trans hd) (Option.some.inj hterm)
  rw [hs.log_eq, hs.log_eq, h.log, Nat.sub_add_cancel hpos, List.take_length, ← ends,
    List.take_length] at htake
  exact htake.symm

theorem Peer.backed_id (p : Peer) : p.backed.id = p.id := by
  unfold Peer.backed
  rfl

/-- The leader's record of the follower after a round. -/
theorem Rounded.record {success m : ℕ} (h : Rounded R i j t es next success m s s')
    (found : findPeer (s.node i) (R.id j) = some peer) (hnext : peer.nextIndex = (next : ℤ))
    (back : success = 0 → 1 < next) :
    ∃ p, findPeer (s'.node i) (R.id j) = some p ∧
      p.nextIndex = ((if success = 0 then next - 1 else m + 1 : ℕ) : ℤ) ∧
      (success ≠ 0 → p.matchIndex = m) := by
  rcases h.answered with ⟨succeeds, hpeers, -⟩ | ⟨fails, hpeers⟩
  · obtain ⟨hmatch, hmatched⟩ := @matched_eq m peer h.room
    refine ⟨peer.matched m, ?_, ?_, fun _ => hmatch⟩
    · rw [findPeer, hpeers, find_modifyPeer (Peer.matched_id m)]
      exact congrArg (Option.map _) found
    · rw [if_neg succeeds, hmatched, Nat.cast_succ]
  · refine ⟨peer.backed, ?_, ?_, fun succeeds => absurd fails succeeds⟩
    · rw [findPeer, hpeers, find_modifyPeer Peer.backed_id]
      exact congrArg (Option.map _) found
    · have := back fails
      rw [if_pos fails, Peer.backed, hnext]
      dsimp only
      rw [if_pos (by omega)]
      omega

theorem Rounded.record_ne {success m : ℕ} (h : Rounded R i j t es next success m s s')
    (hne : k ≠ j) : findPeer (s'.node i) (R.id k) = findPeer (s.node i) (R.id k) := by
  have hid : R.id k ≠ R.id j := fun heq => hne (R.id_inj k j heq)
  rcases h.answered with ⟨-, hpeers, -⟩ | ⟨-, hpeers⟩ <;> rw [findPeer, hpeers]
  · exact find_modifyPeer_ne (Peer.matched_id m) hid _
  · exact find_modifyPeer_ne Peer.backed_id hid _

/-- The follower has the leader's log, and the leader knows it. -/
structure Level (R : Roster n) (i j : Fin n) (es : List RaftLogEntry) (s : Cluster n) : Prop where
  log : (s.node j).log = es
  record : ∃ p, findPeer (s.node i) (R.id j) = some p ∧ p.nextIndex = (es.length + 1 : ℕ) ∧
    p.matchIndex = es.length

/-- A leader that knows all nodes to have its log commits all of it when it counts. -/
theorem Reigns.counts (h : Reigns R i t es s) {z : RaftNode} (hterm : z.currentTerm = t)
    (hlog : z.log = es) (hpeers : z.peers = (s.node i).peers)
    (hcommit : (s.node i).commitIndex = (commitScan z es.length).getD z.commitIndex)
    (all : ∀ k, k ≠ i → Level R i k es s) : (s.node i).commitIndex = es.length := by
  obtain ⟨g, hs⟩ := h.sim
  have lists := hs.lists i
  have room : es.length ≤ raftMaxLog := h.log ▸ (hs.nodes i).room
  have within : (s.node i).commitIndex ≤ es.length := h.log ▸ ((hs.nodes i).safe trivial).commit_le
  have reached : ∀ p ∈ (s.node i).peers, p.matchIndex = es.length := by
    intro p hp
    obtain ⟨k, hk, hid, -⟩ := Roster.mem_peers lists hp
    obtain ⟨q, found, -, hmatch⟩ := (all k hk).record
    have hq : q.id = R.id k := by simpa using List.find?_some found
    rwa [List.inj_on_of_nodup_map lists.ids_nodup (List.mem_of_find?_eq_some found) hp
      (hq.trans hid.symm)] at hmatch
  refine le_antisymm within (not_lt.mp fun hlt => ?_)
  have hpos := h.pos
  have few := @commitScan_last z es.length (es.length - 1) (by omega) (by omega)
    (by rw [hlog, hterm]; exact h.fresh)
  have hmajority : majorityCount z = (n / 2 : ℕ) + 1 := by
    rw [majorityCount, RaftNode.peerCount, hpeers, Roster.length_peers lists]
  have hall : matchCount z (es.length - 1 + 1) = 1 + ((s.node i).peers.length : ℤ) := by
    simp only [raftMaxLog] at room
    rw [matchCount, hpeers, Nat.sub_add_cancel hpos, toInt32_of_lt (by omega),
      List.countP_eq_length.mpr fun p hp => by simp [reached p hp]]
  have hlength := Roster.length_peers lists
  omega

/-- What a repair of the log of node `j` leaves behind. -/
structure Caught (R : Roster n) (i j : Fin n) (t : ℕ) (es : List RaftLogEntry)
    (s s' : Cluster n) : Prop where
  run : Reach Cluster.step SteadyPlain s s'
  reigns : Reigns R i t es s'
  others : ∀ k, k ≠ i → k ≠ j → s'.node k = s.node k
  records : ∀ k, k ≠ j → findPeer (s'.node i) (R.id k) = findPeer (s.node i) (R.id k)
  level : Level R i j es s'
  commits : (∀ k, k ≠ i → Level R i k es s') → (s'.node i).commitIndex = es.length

/-- A follower whose log agrees with the leader's up to an entry that the leader has not come to
gets the leader's log: refusals take the leader back to the entry, and each line from there on
brings one more across. -/
theorem Reigns.catchUp (h : Reigns R i t es s) (hne : j ≠ i)
    (found : findPeer (s.node i) (R.id j) = some peer) (hnext : peer.nextIndex = (next : ℤ))
    (pos : 0 < next) (within : next ≤ es.length)
    (behind : agreement (·.term) es (s.node j).log < next) : ∃ s', Caught R i j t es s s' := by
  induction hrank : roundRank (·.term) es (next, (s.node j).log) using WellFoundedLT.induction
    generalizing s next peer with
  | ind r ih =>
    subst hrank
    obtain ⟨success, m, s₁, h₁⟩ :=
      h.round hne found hnext pos (fun _ => behind) (fun hlt => by omega)
    have falls := h₁.round.rank_lt ⟨fun k _ _ => h.carried k, fun _ => h.carried _⟩
      (show agreement (·.term) es (s.node j).log < es.length by omega)
    have further : ∀ {next' : ℕ}, (if success = 0 then next - 1 else m + 1) = next' → 0 < next' →
        next' ≤ es.length → (success = 0 → 1 < next) →
        agreement (·.term) es (s₁.node j).log < next' → ∃ s', Caught R i j t es s s' := by
      intro next' hnext' pos' within' back behind'
      obtain ⟨p, found', hp, -⟩ := h₁.record found hnext back
      rw [hnext'] at hp falls
      obtain ⟨s₂, h₂⟩ := ih _ falls h₁.reigns found' hp pos' within' behind' rfl
      exact ⟨s₂,
        { run := h₁.run.trans h₂.run, reigns := h₂.reigns
          others := fun k hi hj => (h₂.others k hi hj).trans (h₁.others k hi hj)
          records := fun k hk => (h₂.records k hk).trans (h₁.record_ne hk)
          level := h₂.level, commits := h₂.commits }⟩
    have hround := h₁.round
    generalize hplace : (if success = 0 then next - 1 else m + 1) = place at hround
    generalize hlog₁ : (s₁.node j).log = log₁ at hround
    cases hround with
    | unread _ not_carried => exact absurd (h.carried next) not_carried
    | refused reads beyond =>
      exact further hplace (by omega) (by omega) (fun _ => by omega) (by rw [hlog₁]; omega)
    | present reads agrees => omega
    | stored _ reads first agrees ends =>
      have succeeds : success ≠ 0 := fun fails => by
        rw [if_pos fails] at hplace
        omega
      rcases Nat.lt_or_ge next es.length with hlt | hge
      · exact further hplace (by omega) hlt (fun fails => absurd fails succeeds)
          (by rw [hlog₁, agrees]; omega)
      · obtain ⟨p, found', hp, hmatch⟩ :=
          h₁.record found hnext fun fails => absurd fails succeeds
        have hlength : next = es.length := by omega
        rw [if_neg succeeds] at hplace hp
        have level : Level R i j es s₁ :=
          { log := h₁.reigns.log_eq_of_agreement (by rw [hlog₁, agrees, hlength])
              (by rw [hlog₁, ends, hlength])
            record := ⟨p, found', by rw [hp, hplace, hlength],
              by rw [hmatch succeeds]; omega⟩ }
        refine ⟨s₁, h₁.run, h₁.reigns, h₁.others, fun k hk => h₁.record_ne hk, level, fun all => ?_⟩
        obtain ⟨-, -, z, hz, hzlog, hzpeers, hcommit⟩ := h₁.answered.resolve_right fun fails =>
          absurd fails.1 succeeds
        exact h₁.reigns.counts hz hzlog hzpeers hcommit all

/-- The leader has not come to the place up to which its log and that of node `j` agree, but it has
a record of node `j` and an entry to go back from. -/
structure Behind (R : Roster n) (i j : Fin n) (es : List RaftLogEntry) (s : Cluster n) : Prop where
  record : ∃ p, ∃ next : ℕ, findPeer (s.node i) (R.id j) = some p ∧ p.nextIndex = next ∧
    0 < next ∧ next ≤ es.length ∧ agreement (·.term) es (s.node j).log < next

theorem Level.congr (h : Level R i k es s) (hnode : s'.node k = s.node k)
    (hrecord : findPeer (s'.node i) (R.id k) = findPeer (s.node i) (R.id k)) :
    Level R i k es s' := by
  obtain ⟨hlog, hrec⟩ := h
  rw [← hnode] at hlog
  rw [← hrecord] at hrec
  exact ⟨hlog, hrec⟩

/-- One follower after another gets the leader's log, and with the last of them the leader commits
it. -/
theorem Reigns.catchUpAll {rest : List (Fin n)} (h : Reigns R i t es s) (hrest : rest ≠ [])
    (nodup : rest.Nodup) (hi : i ∉ rest) (behind : ∀ k ∈ rest, Behind R i k es s)
    (level : ∀ k, k ≠ i → k ∉ rest → Level R i k es s) :
    ∃ s', Reach Cluster.step SteadyPlain s s' ∧ Reigns R i t es s' ∧
      (∀ k, k ≠ i → Level R i k es s') ∧ (s'.node i).commitIndex = es.length := by
  induction rest generalizing s with
  | nil => exact absurd rfl hrest
  | cons j rest ih =>
    obtain ⟨fresh, nodup⟩ := List.nodup_cons.mp nodup
    have hne : j ≠ i := fun heq => hi (heq ▸ List.mem_cons_self)
    obtain ⟨p, next, found, hnext, pos, within, hbehind⟩ := (behind j List.mem_cons_self).record
    obtain ⟨s₁, caught⟩ := h.catchUp hne found hnext pos within hbehind
    have level₁ : ∀ k, k ≠ i → k ∉ rest → Level R i k es s₁ := by
      intro k hk hout
      by_cases hkj : k = j
      · exact hkj ▸ caught.level
      · exact (level k hk fun hin => (List.mem_cons.mp hin).elim hkj hout).congr
          (caught.others k hk hkj) (caught.records k hkj)
    by_cases hnil : rest = []
    · subst hnil
      have all : ∀ k, k ≠ i → Level R i k es s₁ := fun k hk => level₁ k hk List.not_mem_nil
      exact ⟨s₁, caught.run, caught.reigns, all, caught.commits all⟩
    · have hi' : i ∉ rest := fun hin => hi (List.mem_cons_of_mem j hin)
      have behind₁ : ∀ k ∈ rest, Behind R i k es s₁ := by
        intro k hk
        have hkj : k ≠ j := fun heq => fresh (heq ▸ hk)
        have hki : k ≠ i := fun heq => hi' (heq ▸ hk)
        obtain ⟨p, next, hrecord⟩ := (behind k (List.mem_cons_of_mem j hk)).record
        refine ⟨p, next, ?_⟩
        rwa [caught.records k hkj, caught.others k hki hkj]
      obtain ⟨s₂, run, hs₂⟩ := ih caught.reigns hnil nodup hi' behind₁ level₁
      exact ⟨s₂, caught.run.trans run, hs₂⟩

/-! ### The leader's commit index reaches the followers -/

/-- A heartbeat to a follower that has the leader's log hands the commit index on. -/
theorem Reigns.heartbeat (h : Reigns R i t es s) (hne : j ≠ i) (level : Level R i j es s)
    (hcommit : (s.node i).commitIndex = es.length) :
    ∃ s', Reach Cluster.step SteadyPlain s s' ∧ Reigns R i t es s' ∧
      (∀ k, k ≠ i → k ≠ j → s'.node k = s.node k) ∧
      (∀ k, k ≠ j → findPeer (s'.node i) (R.id k) = findPeer (s.node i) (R.id k)) ∧
      Level R i j es s' ∧ (s'.node i).commitIndex = es.length ∧
      (s'.node j).commitIndex = es.length := by
  obtain ⟨hlog, p, found, hnext, hmatch⟩ := level
  obtain ⟨success, m, s₁, h₁⟩ := h.round hne found hnext (Nat.succ_pos _)
    (fun hle => absurd hle (Nat.not_succ_le_self _)) (fun _ => hlog ▸ le_rfl)
  have agrees : agreement (·.term) es (s.node j).log = es.length := by
    rw [hlog]
    exact le_antisymm (agreement_le_left es es) (le_agreement_iff.mpr ⟨le_rfl, fun _ _ => rfl⟩)
  obtain ⟨g, hs⟩ := h.sim
  obtain ⟨g₁, hs₁⟩ := h₁.reigns.sim
  obtain ⟨hplace, hlog₁⟩ : (if success = 0 then es.length + 1 - 1 else m + 1) = es.length + 1 ∧
      (s₁.node j).log = es := by
    have hround := h₁.round
    generalize hplace : (if success = 0 then es.length + 1 - 1 else m + 1) = place at hround
    generalize hlog₁ : (s₁.node j).log = log₁ at hround
    cases hround with
    | unread within => omega
    | refused reads beyond => omega
    | present => exact ⟨by rw [hlog], hlog⟩
    | stored within => omega
  have succeeds : success ≠ 0 := fun fails => by
    rw [if_pos fails] at hplace
    omega
  obtain ⟨q, found₁, hq, hmatch₁⟩ := h₁.record found hnext fun fails => absurd fails succeeds
  rw [if_neg succeeds] at hplace hq
  obtain ⟨-, -, keeps⟩ := hs.reach_keeps h₁.run
  refine ⟨s₁, h₁.run, h₁.reigns, h₁.others, fun k hk => h₁.record_ne hk,
    ⟨hlog₁, q, found₁, by rw [hq, hplace], by rw [hmatch₁ succeeds]; omega⟩, ?_, ?_⟩
  · have hle := ((hs₁.nodes i).safe trivial).commit_le
    rw [h₁.reigns.log] at hle
    have := (keeps i).commit
    omega
  · have hcommits := h₁.commits (by omega)
    have hle := ((hs.nodes j).safe trivial).commit_le
    rw [hcommit, RaftNode.logCount, hlog₁, Nat.min_self] at hcommits
    rw [hlog] at hle
    rw [hcommits]
    split <;> omega

theorem Reigns.heartbeatAll {rest : List (Fin n)} (h : Reigns R i t es s) (hi : i ∉ rest)
    (level : ∀ k, k ≠ i → Level R i k es s) (hcommit : (s.node i).commitIndex = es.length)
    (committed : ∀ k, k ∉ rest → (s.node k).commitIndex = es.length) :
    ∃ s', Reach Cluster.step SteadyPlain s s' ∧ Reigns R i t es s' ∧
      (∀ k, k ≠ i → Level R i k es s') ∧ ∀ k, (s'.node k).commitIndex = es.length := by
  induction rest generalizing s with
  | nil => exact ⟨s, .refl, h, level, fun k => committed k List.not_mem_nil⟩
  | cons j rest ih =>
    have hne : j ≠ i := fun heq => hi (heq ▸ List.mem_cons_self)
    obtain ⟨s₁, run₁, h₁, others, records, levelj, hcommit₁, committedj⟩ :=
      h.heartbeat hne (level j hne) hcommit
    have level₁ : ∀ k, k ≠ i → Level R i k es s₁ := by
      intro k hk
      by_cases hkj : k = j
      · exact hkj ▸ levelj
      · exact (level k hk).congr (others k hk hkj) (records k hkj)
    have committed₁ : ∀ k, k ∉ rest → (s₁.node k).commitIndex = es.length := by
      intro k hk
      by_cases hkj : k = j
      · exact hkj ▸ committedj
      by_cases hki : k = i
      · exact hki ▸ hcommit₁
      · rw [others k hki hkj]
        exact committed k fun hin => (List.mem_cons.mp hin).elim hkj hk
    obtain ⟨s₂, run₂, hs₂⟩ :=
      ih h₁ (fun hin => hi (List.mem_cons_of_mem j hin)) level₁ hcommit₁ committed₁
    exact ⟨s₂, run₁.trans run₂, hs₂⟩

/-! ### A command that reaches every node -/

theorem PlainCommand.checked {op : KvOp} {key value : Text} (h : PlainCommand op key value) :
    Checked op key value := by
  have hop := h.op_ne
  have hkey := h.valid_key
  constructor
  · rintro (⟨hset, hdel⟩ | hinvalid)
    · cases op <;> contradiction
    · rw [hkey] at hinvalid
      cases hinvalid
  · rintro ⟨hset, hinvalid⟩
    rw [h.valid_value.resolve_left (h.set_ne hset)] at hinvalid
    cases hinvalid

theorem PlainCommand.fixed {op : KvOp} {key value : Text} (h : PlainCommand op key value) :
    (Section.raftSubmitCommand op key value).fixed = true := by
  have hvalue : 10 ∉ value := h.toValidCommand.unbroken.2
  simp only [Section.fixed, hvalue, not_false_eq_true, implies_true, decide_true]

/-- A leader that has just been elected takes a command. -/
theorem exists_reigns {op : KvOp} {key value : Text} (hsim : ∃ g, Sim True R plainView g s)
    (lead : (s.node i).role = .leader) (probing : Probing (s.node i))
    (terms : ∀ k, (s.node k).currentTerm ≤ (s.node i).currentTerm)
    (bound : (s.node i).currentTerm < 2 ^ 32 - 1) (space : (s.node i).logCount < raftMaxLog)
    (plain : PlainCommand op key value) :
    ∃ s', Reach Cluster.step SteadyPlain s s' ∧
      Reigns R i (s.node i).currentTerm ((s.node i).log ++
        [⟨(s.node i).logCount + 1, (s.node i).currentTerm, op, key, value⟩]) s' ∧
      (∀ k, k ≠ i → s'.node k = s.node k) ∧ (s'.node i).peers = (s.node i).peers ∧
      s'.threads = (i, [.broadcastAppend, .submitPeerless]) :: s.threads := by
  have below : TermsBelow s := fun k => (terms k).trans_lt bound
  have happend : (appendEntryLocked (s.node i) op key value).2 = { s.node i with
      log := (s.node i).log ++
        [⟨(s.node i).logCount + 1, (s.node i).currentTerm, op, key, value⟩] } := by
    rw [appendEntryLocked, if_neg (by omega), plain.copyText_eq.1, plain.copyText_eq.2]
  let s' : Cluster n := ⟨update s.node i { s.node i with log := (s.node i).log ++
      [⟨(s.node i).logCount + 1, (s.node i).currentTerm, op, key, value⟩] },
    (i, [.broadcastAppend, .submitPeerless]) :: s.threads, s.net⟩
  have step : s.step (.enter i still (.raftSubmitCommand op key value)) = some s' := by
    rw [Cluster.step, Cluster.run, exec, raftSubmitCommand_leader plain.checked lead, happend]
    rfl
  have steady : SteadyPlain s (.enter i still (.raftSubmitCommand op key value)) :=
    steadyPlain_of_quiet (.enter i still (.raftSubmitCommand op key value)) plain.fixed below
      (fun _ _ => plain) rfl rfl trivial
  have node : s'.node i = { s.node i with log := (s.node i).log ++
      [⟨(s.node i).logCount + 1, (s.node i).currentTerm, op, key, value⟩] } := update_self ..
  have others : ∀ k, k ≠ i → s'.node k = s.node k := fun k hk => update_of_ne hk ..
  refine ⟨s', Reach.refl.tail steady step,
    { sim := steady.sim step hsim, role := by rw [node]; exact lead, term := by rw [node]
      log := by rw [node], terms := fun k => ?_, bound := bound, fresh := by simp
      ahead := fun p hp => ?_ }, others, by rw [node], rfl⟩
  · by_cases hk : k = i
    · rw [hk, node]
    · rw [others k hk]
      exact terms k
  · rw [node] at hp
    have := probing p hp
    omega

/-- A node without peers commits its command itself. -/
theorem Reigns.alone {threads : List (Fin n × List Section)} (h : Reigns R i t es s)
    (hpeers : (s.node i).peers = [])
    (hthreads : s.threads = (i, [.broadcastAppend, .submitPeerless]) :: threads) :
    ∃ s', Reach Cluster.step SteadyPlain s s' ∧ Reigns R i t es s' ∧
      (s'.node i).commitIndex = es.length := by
  obtain ⟨g, hs⟩ := h.sim
  obtain ⟨z, hz⟩ := Option.isSome_iff_exists.mp
    (@applyCommittedLocked_isSome { s.node i with commitIndex := (s.node i).logCount } le_rfl)
  have hcommit : exec still .submitCommit (s.node i) = some { node := z, ret := some 0 } := by
    simp only [exec, submitCommit, hz, Option.bind_eq_bind, Option.bind_some]
  have htest : exec still .submitPeerless (s.node i) =
      some { node := s.node i, todo := [.submitCommit] } :=
    congrArg some (if_pos (by rw [RaftNode.peerCount, hpeers]; rfl))
  have hnone : exec still .broadcastAppend (s.node i) = some { node := s.node i } := by
    rw [exec, broadcastAppend, hpeers]
    rfl
  obtain ⟨role, term, log, peers, commit⟩ : z.role = (s.node i).role ∧
      z.currentTerm = (s.node i).currentTerm ∧ z.log = (s.node i).log ∧
      z.peers = (s.node i).peers ∧ z.commitIndex = (s.node i).logCount := by
    rw [(applyCommittedLocked_eq hz).1]
    exact ⟨rfl, rfl, rfl, rfl, rfl⟩
  let s₁ : Cluster n := ⟨s.node, (i, [.submitPeerless]) :: threads, s.net⟩
  let s₂ : Cluster n := ⟨s.node, (i, [.submitCommit]) :: threads, s.net⟩
  obtain ⟨step₁, entered₁⟩ := Cluster.resume hthreads hnone
  obtain ⟨step₂, entered₂⟩ := Cluster.resume (s := s₁) rfl htest
  obtain ⟨step₃, entered₃⟩ := Cluster.resume (s := s₂) rfl hcommit
  rw [update_eq_self] at step₁ step₂
  have quiet := fun {s' : Cluster n} (hnode : s'.node = s.node) {sec : Section}
      (entered : s'.entered (.resume 0 still) = some (i, sec)) (builds : sec.builds = false) =>
    steadyPlain_of_quiet (s := s') (.resume 0 still) rfl (fun k => hnode ▸ h.below k) trivial
      entered builds
  have run := ((Reach.refl.tail (quiet rfl entered₁ rfl trivial) step₁).tail
    (quiet rfl entered₂ rfl trivial) step₂).tail (quiet rfl entered₃ rfl trivial) step₃
  obtain ⟨g₃, hs₃, -⟩ := hs.reach_keeps run
  generalize hs' : (⟨update s.node i z, _, _⟩ : Cluster n) = s' at run hs₃
  have node : s'.node i = z := by
    rw [← hs']
    exact update_self ..
  have terms : ∀ k, (s'.node k).currentTerm ≤ t := by
    intro k
    by_cases hk : k = i
    · rw [hk, node, term]
      exact h.terms i
    · rw [← hs']
      dsimp only
      rw [update_of_ne hk]
      exact h.terms k
  refine ⟨s', run, ⟨⟨g₃, hs₃⟩, node ▸ role.trans h.role, node ▸ term.trans h.term,
    node ▸ log.trans h.log, terms, h.bound, h.fresh, ?_⟩, ?_⟩
  · rw [node, peers]
    exact h.ahead
  · rw [node, commit, RaftNode.logCount, h.log]

/-- The leader of a command that no other node has had so far brings it to all nodes. -/
theorem Reigns.everywhere (h : Reigns R i t es s)
    (records : ∀ p ∈ (s.node i).peers, p.nextIndex = (es.length : ℤ))
    (older : ∀ k, k ≠ i → ∀ d ∈ (s.node k).log, d.term < t)
    {threads : List (Fin n × List Section)}
    (hthreads : s.threads = (i, [.broadcastAppend, .submitPeerless]) :: threads) :
    ∃ s', Reach Cluster.step SteadyPlain s s' ∧
      ∀ k, (s'.node k).log = es ∧ (s'.node k).commitIndex = es.length := by
  obtain ⟨g, hs⟩ := h.sim
  have lists := hs.lists i
  by_cases hnone : R.order i = []
  · have hpeers : (s.node i).peers = [] := by
      have := lists.peers
      rw [hnone] at this
      exact List.map_eq_nil_iff.mp this
    obtain ⟨s', run, h', hcommit⟩ := h.alone hpeers hthreads
    refine ⟨s', run, fun k => ?_⟩
    by_cases hk : k = i
    · rw [hk]
      exact ⟨h'.log, hcommit⟩
    · have hmem := (R.mem_order i k).mpr hk
      rw [hnone] at hmem
      cases hmem
  · have hi : i ∉ R.order i := fun hmem => (R.mem_order i i).mp hmem rfl
    have behind : ∀ k ∈ R.order i, Behind R i k es s := by
      intro k hk
      have hne := (R.mem_order i k).mp hk
      obtain ⟨q, found⟩ := lists.listed hne
      refine ⟨q, es.length, found, records q (List.mem_of_find?_eq_some found), h.pos, le_rfl, ?_⟩
      by_contra hge
      have hpos := h.pos
      have hterm := @terms_of_lt_agreement _ (·.term) es (s.node k).log (es.length - 1) (by omega)
      rw [h.fresh] at hterm
      obtain ⟨d, hd, hdt⟩ := Option.map_eq_some_iff.mp hterm.symm
      exact absurd hdt (older k hne d (List.mem_of_getElem? hd)).ne
    have level : ∀ k, k ≠ i → k ∉ R.order i → Level R i k es s := fun k hk hout =>
      absurd ((R.mem_order i k).mpr hk) hout
    obtain ⟨s₁, run₁, h₁, level₁, hcommit₁⟩ := h.catchUpAll hnone (R.nodup i) hi behind level
    obtain ⟨s₂, run₂, h₂, level₂, hcommit₂⟩ := h₁.heartbeatAll hi level₁ hcommit₁ fun k hk => by
      rw [not_not.mp fun hne => hk ((R.mem_order i k).mpr hne), hcommit₁]
    refine ⟨s₂, run₁.trans run₂, fun k => ⟨?_, hcommit₂ k⟩⟩
    by_cases hk : k = i
    · rw [hk]
      exact h₂.log
    · exact (level₂ k hk).log

/-- From every state of a steady run with plain commands that has terms left, a node that is
electable and has room for an entry can take a command to all nodes: the cluster can go on so that
every node has the log of that node and the command behind it, has applied all of it, and is read
accordingly. -/
theorem convergence_possible {now : Fin n → ℕ} {config : Fin n → RaftConfig} {op : KvOp}
    {key value : Text} (tables : FixedTables (Cluster.start now config).node)
    (run : Reach Cluster.step SteadyPlain (Cluster.start now config) s)
    (terms : ∀ k, (s.node k).currentTerm + 1 < 2 ^ 32 - 1) (best : Electable s i)
    (space : (s.node i).logCount < raftMaxLog) (plain : PlainCommand op key value) :
    ∃ s' t, Reach Cluster.step SteadyPlain s s' ∧ (∀ k, (s.node k).currentTerm < t) ∧
      ∀ k, (s'.node k).log =
          (s.node i).log ++ [⟨(s.node i).logCount + 1, t, op, key, value⟩] ∧
        (s'.node k).lastApplied = (s.node i).logCount + 1 ∧
        ∀ word outSize, isValidToken word raftMaxKey = true → raftMaxValue ≤ outSize →
          kvGet (s'.node k).store word outSize = (contents ((s.node i).log ++
            [⟨(s.node i).logCount + 1, t, op, key, value⟩]) word).elim (.error (-1)) .ok := by
  obtain ⟨R, h0⟩ := sim_start tables True plainView
  obtain ⟨g, h, -⟩ := h0.reach_keeps run
  -- The node is elected, and takes the command.
  obtain ⟨s₁, electing, lead, probing, ⟨m, hm⟩, newer, older, logs⟩ := h.exists_elected best terms
  have run₁ : Reach Cluster.step SteadyPlain s s₁ := electing.mono fun _ _ h => h.1
  obtain ⟨g₁, h₁, -⟩ := h.reach_keeps run₁
  have hcount : (s₁.node i).logCount = (s.node i).logCount := congrArg List.length (logs i)
  obtain ⟨s₂, run₂, reigns, others, peers, threads⟩ := exists_reigns ⟨g₁, h₁⟩ lead probing older
    (by rw [hm]; exact terms m) (hcount ▸ space) plain
  rw [logs i, hcount] at reigns
  -- It brings its log to the others.
  obtain ⟨s₃, run₃, all⟩ := reigns.everywhere
    (fun p hp => by
      rw [peers] at hp
      rw [probing p hp, hcount, List.length_append]
      rfl)
    (fun k hk d hd => by
      rw [others k hk, logs k] at hd
      exact ((h.nodes k).term_le h.matching hd).trans_lt (newer k)) threads
  have whole := run₁.trans (run₂.trans run₃)
  obtain ⟨g₃, h₃, -⟩ := h.reach_keeps whole
  refine ⟨s₃, (s₁.node i).currentTerm, whole, newer, fun k => ?_⟩
  obtain ⟨hlog, hcommit⟩ := all k
  have safe := (h₃.nodes k).safe trivial
  have applied : (s₃.node k).lastApplied = (s₃.node k).commitIndex :=
    le_antisymm safe.applied_le (storeInv_of_reach (run.trans whole) k).done
  refine ⟨hlog, by rw [applied, hcommit, List.length_append]; rfl,
    fun word outSize hword hsize => ?_⟩
  rw [safe.store, applied, hcommit, hlog, List.take_length]
  refine kvGet_replay ?_ (fun d hd => ?_) hword hsize
  · rw [← hlog]
    exact (h₃.nodes k).room
  · rw [← hlog] at hd
    exact (h₃.nodes k).clean d hd

/-- Node 2 takes the command of node 1, which has not heard of node 3, to all three nodes, with one
of its own behind it. -/
theorem convergence_possible_trio : ∃ s s' t, Reach Cluster.step SteadyPlain trio s ∧
    (s.node node3).log = [] ∧ Reach Cluster.step SteadyPlain s s' ∧
    ∀ k, (s'.node k).log = [⟨1, 1, .set, bytes "k", bytes "a"⟩, ⟨2, t, .del, bytes "k", []⟩] ∧
      (s'.node k).lastApplied = 2 ∧
      kvGet (s'.node k).store (bytes "k") raftMaxValue = .error (-1) := by
  have hrun : (runList Cluster.step (fun s a => decide (SteadyPlain s a)) trio trioCommit).any
      (fun s => (s.node node3).log = [] ∧ (∀ i, (s.node i).currentTerm + 1 < 2 ^ 32 - 1) ∧
        (s.node node2).log = [⟨1, 1, .set, bytes "k", bytes "a"⟩] ∧
        ∀ j, lastLogTermLocked (s.node j) < lastLogTermLocked (s.node node2) ∨
          (lastLogTermLocked (s.node node2) = lastLogTermLocked (s.node j) ∧
            lastLogIndexLocked (s.node j) ≤ (s.node node2).logCount)) = true := by
    decide +kernel
  obtain ⟨s, run, hs⟩ := exists_reach (fun s a => of_decide_eq_true) hrun
  obtain ⟨empty, room, hlog, best⟩ := of_decide_eq_true hs
  have hcount : (s.node node2).logCount = 1 := congrArg List.length hlog
  obtain ⟨s', t, run', -, all⟩ := @convergence_possible 3 s node2 _ _ .del (bytes "k") []
    fixedTables_trio run room best (by rw [hcount]; decide) (by decide)
  rw [hlog, hcount] at all
  refine ⟨s, s', t, run, empty, run', fun k => ?_⟩
  obtain ⟨hlogk, happlied, hreads⟩ := all k
  refine ⟨hlogk, happlied, (hreads (bytes "k") raftMaxValue (by decide) le_rfl).trans ?_⟩
  simp [contents, RaftLogEntry.write]

end RaftKv
