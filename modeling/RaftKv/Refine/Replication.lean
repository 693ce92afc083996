import RaftKv.Refine.Election

/-! Replication continues the history: a leader appends what it is asked to, offers a prefix of its
log, and commits what a majority has reported; a follower takes over what it is offered, and every
node applies what it has committed. -/

namespace RaftKv

open Consensus Consensus.Ledger Function Stdio

variable {n : ℕ} {α : Type} {P : Prop} {R : Roster n} {V : View α} {g g' : Ledger (Fin n) α}
  {i j : Fin n} {x x' : RaftNode} {s : Cluster n} {rest : List Section}

attribute [local irreducible] toInt32

theorem NodeSim.getElem?_log (h : NodeSim P R V g i x) (k : ℕ) :
    (g.log i)[k]? = x.log[k]?.map V.view := by
  rw [h.log, List.getElem?_map]

/-- An entry of a log is where its leader has put it. -/
theorem NodeSim.lead_of_log (h : NodeSim P R V g i x) (m : Matching V.term Majority g) {k : ℕ}
    {e : RaftLogEntry} (he : x.log[k]? = some e) : (g.lead e.term)[k]? = some (V.view e) := by
  have hk : (g.log i)[k]? = some (V.view e) := by rw [h.getElem?_log, he, Option.map_some]
  have hpre := (m.logs i).take_lead hk
  rw [V.term_view] at hpre
  obtain ⟨s, hs⟩ := hpre
  have hlt : k < ((g.log i).take (k + 1)).length := by
    have := (List.getElem?_eq_some_iff.mp hk).1
    rw [List.length_take]
    omega
  rw [← hs, List.getElem?_append_left hlt, List.getElem?_take, if_pos (Nat.lt_succ_self k), hk]

theorem NodeSim.term_le (h : NodeSim P R V g i x) (m : Matching V.term Majority g)
    {e : RaftLogEntry} (he : e ∈ x.log) : e.term ≤ x.currentTerm := by
  have := m.terms i (V.view e) (by rw [h.log]; exact List.mem_map_of_mem he)
  rwa [V.term_view, h.term] at this

/-! ### Applying and committing -/

theorem NodeSim.apply (h : NodeSim P R V g i x) (m : Matching V.term Majority g)
    (happ : applyCommittedLocked x = some x') : NodeSim P R V g i x' := by
  obtain ⟨rfl, hlen⟩ := applyCommittedLocked_eq happ
  generalize hes : (x.log.take x.commitIndex).drop x.lastApplied = es at hlen
  have hget : ∀ k e, Event.applied k e ∈ appliedFrom x.lastApplied es →
      1 ≤ k ∧ k ≤ x.lastApplied + es.length ∧ x.log[k - 1]? = some e := by
    intro k e hk
    obtain ⟨h1, h2⟩ := mem_appliedFrom hk
    have h3 := (List.getElem?_eq_some_iff.mp h2).1
    rw [← hes, List.getElem?_drop, List.getElem?_take] at h2
    refine ⟨by omega, by omega, ?_⟩
    rw [show x.lastApplied + (k - x.lastApplied - 1) = k - 1 by omega] at h2
    split at h2
    · exact h2
    · cases h2
  refine { h with led := fun t ht => ?_, entries := fun k e he => ?_, store := ?_, safe := ?_ }
  · rcases List.mem_append.mp ht with ht | ht
    · exact h.led t ht
    · exact absurd ht (becomesLeader_notMem_appliedFrom _ _ _)
  · rcases List.mem_append.mp he with he | he
    · exact h.entries k e he
    · obtain ⟨h1, -, h3⟩ := hget k e he
      refine ⟨?_, h1, h.lead_of_log m h3⟩
      have := h.indexed _ _ h3
      omega
  · have happlied : (x.replayed es).applied =
        x.applied ++ (appliedFrom x.lastApplied es).filterMap Event.entry := List.filterMap_append
    rw [happlied, replay_append, replay_appliedFrom, ← h.store]
    rfl
  · intro hP
    have hs := h.safe hP
    have hle := hs.applied_le
    refine { hs with applied_le := ?_, store := ?_, slots := fun k e he => ?_ }
    · simp only [RaftNode.replayed]
      omega
    · have htake : x.log.take (x.lastApplied + es.length) = x.log.take x.lastApplied ++ es := by
        rw [hlen, Nat.add_sub_cancel' hle, ← hes]
        conv_lhs => rw [← List.take_append_drop x.lastApplied (x.log.take x.commitIndex)]
        rw [List.take_take, Nat.min_eq_left hle]
      simp only [RaftNode.replayed]
      rw [htake, replay_append, ← hs.store]
    · rcases List.mem_append.mp he with he | he
      · obtain ⟨h1, h2⟩ := hs.slots k e he
        exact ⟨h1.trans (Nat.le_add_right _ _), h2⟩
      · exact (hget k e he).2

theorem NodeSim.commitTo (h : NodeSim P R V g i x) {c : ℕ} (room : c ≤ raftMaxLog)
    (safe : P → x.commitIndex ≤ c ∧ c ≤ x.log.length ∧
      Settled Majority V.term g (g.term i) ((g.log i).take c)) :
    NodeSim P R V g i { x with commitIndex := c } := by
  refine { h with commit := room, safe := fun hP => ?_ }
  have hs := h.safe hP
  obtain ⟨h1, h2, h3⟩ := safe hP
  exact { hs with commit_le := h2, settled := h3, applied_le := hs.applied_le.trans h1 }

theorem applyCommittedLocked_keeps (happ : applyCommittedLocked x = some x') :
    x'.commitIndex = x.commitIndex ∧ x'.log = x.log ∧ x'.role = x.role ∧
      x'.currentTerm = x.currentTerm ∧ x'.votesReceived = x.votesReceived := by
  obtain ⟨rfl, -⟩ := applyCommittedLocked_eq happ
  exact ⟨rfl, rfl, rfl, rfl, rfl⟩

theorem Roster.Lists.apply (h : R.Lists i x) (happ : applyCommittedLocked x = some x') :
    R.Lists i x' := by
  obtain ⟨rfl, -⟩ := applyCommittedLocked_eq happ
  exact { h with }

/-- The members that `match_count` counts. -/
theorem exists_quorum (hl : R.Lists i x) {index : ℕ} (hindex : index ≤ raftMaxLog)
    (hmaj : majorityCount x ≤ matchCount x index) :
    ∃ Q : Finset (Fin n), Majority Q ∧
      ∀ j ∈ Q, j = i ∨ ∃ p ∈ x.peers, p.id = R.id j ∧ (index : ℤ) ≤ p.matchIndex := by
  classical
  let hit (p : Peer) : Bool := (index : ℤ) ≤ p.matchIndex
  let Q : Finset (Fin n) := {j | j = i ∨ ∃ p ∈ x.peers, p.id = R.id j ∧ (index : ℤ) ≤ p.matchIndex}
  have hids : (x.peers.map fun p => p.id) = (R.order i).map R.id := by
    have := congrArg (List.map fun a : ℕ × Text × ℕ => a.1) hl.peers
    simpa only [List.map_map, Function.comp_def] using this
  have hnodup : ((x.peers.filter hit).map fun p => p.id).Nodup := by
    apply List.Nodup.sublist (List.filter_sublist.map _)
    rw [hids]
    exact (R.nodup i).map fun a b hab => R.id_inj a b hab
  have hself : R.id i ∉ ((x.peers.filter hit).map fun p => p.id).toFinset := by
    simp only [List.mem_toFinset, List.mem_map, not_exists, not_and]
    intro p hp hid
    obtain ⟨j, hj, hpj, -⟩ := Roster.mem_peers hl (List.mem_of_mem_filter hp)
    exact hj (R.id_inj j i (hpj.symm.trans hid))
  have hsub : insert (R.id i) ((x.peers.filter hit).map fun p => p.id).toFinset ⊆ Q.image R.id := by
    intro k hk
    rcases Finset.mem_insert.mp hk with rfl | hk
    · exact Finset.mem_image_of_mem _ (by simp [Q])
    · obtain ⟨p, hp, rfl⟩ := List.mem_map.mp (List.mem_toFinset.mp hk)
      obtain ⟨hmem, hle⟩ := List.mem_filter.mp hp
      obtain ⟨j, -, hpj, -⟩ := Roster.mem_peers hl hmem
      rw [hpj]
      apply Finset.mem_image_of_mem
      simp only [Q, Finset.mem_filter, Finset.mem_univ, true_and]
      exact Or.inr ⟨p, hmem, hpj, by simpa [hit] using hle⟩
  have hcard := (Finset.card_le_card hsub).trans Finset.card_image_le
  rw [Finset.card_insert_of_notMem hself, List.toFinset_card_of_nodup hnodup, List.length_map,
    ← List.countP_eq_length_filter] at hcard
  rw [Roster.majorityCount_eq hl, matchCount,
    toInt32_of_lt (by simp only [raftMaxLog] at hindex; omega)] at hmaj
  refine ⟨Q, majority_of_count ?_, fun j hj => by simpa [Q] using hj⟩
  have hsame : (x.peers.countP fun p => decide ((index : ℤ) ≤ p.matchIndex)) =
      x.peers.countP hit := rfl
  rw [hsame] at hmaj
  omega

/-- What `recompute_commit_locked` commits is settled. -/
theorem NodeSim.committed (h : NodeSim P R V g i x) (hl : R.Lists i x)
    (c : Complete V.term Majority g) (hP : P) (hr : x.role = .leader) {index : ℕ}
    (hscan : commitScan x x.logCount = some index) :
    Settled Majority V.term g (g.term i) ((g.log i).take index) := by
  obtain ⟨hnew, hlen, hterm, hmaj⟩ := commitScan_spec hscan
  obtain ⟨hled, hlead⟩ := h.leads hr
  obtain ⟨e, he, hcur⟩ := Option.map_eq_some_iff.mp hterm
  have hget : (g.log i)[index - 1]? = some (V.view e) := by
    rw [h.getElem?_log, he, Option.map_some]
  have htake : (g.log i).take index = (g.log i).take (index - 1) ++ [V.view e] := by
    rw [← take_succ_eq_concat hget, Nat.sub_add_cancel (by omega)]
  have hpart : (g.log i).take (index - 1) ++ [V.view e] <+: g.lead x.currentTerm := by
    rw [hlead, ← htake]
    exact List.take_prefix _ _
  have hlength : ((g.log i).take (index - 1)).length + 1 = index := by
    have h1 : x.logCount = (g.log i).length := by rw [h.log, List.length_map]; rfl
    rw [List.length_take]
    omega
  have hroom : index ≤ raftMaxLog := hlen.trans h.room
  obtain ⟨Q, hQ, hcount⟩ := exists_quorum hl hroom hmaj
  have hcom : Committed Majority V.term g x.currentTerm index := by
    refine ⟨_, V.view e, hpart, hlength, by rw [V.term_view, hcur], Q, hQ, fun j hj => ?_⟩
    rcases hcount j hj with rfl | ⟨p, hp, hid, hmatch⟩
    · have := c.own _ _ hled _ _ hpart (by rw [V.term_view, hcur])
      rwa [hlength] at this
    · exact (h.safe hP).matched hr j p hp hid index (by omega) hmatch
  have := hcom.settled
  rwa [hlead, ← h.term] at this

/-- `recompute_commit_locked` on a node of the history. -/
theorem NodeSim.recompute (h : NodeSim P R V g i x) (hl : R.Lists i x)
    (m : Matching V.term Majority g) (c : P → Complete V.term Majority g)
    (hrec : recomputeCommitLocked x = some x') :
    NodeSim P R V g i x' ∧ R.Lists i x' ∧ x'.role = x.role ∧ x.commitIndex ≤ x'.commitIndex ∧
      x'.log = x.log := by
  unfold recomputeCommitLocked at hrec
  split at hrec
  · obtain rfl := Option.some.inj hrec
    exact ⟨h, hl, rfl, le_rfl, rfl⟩
  · rename_i hr
    rw [not_not] at hr
    split at hrec
    · rename_i index hscan
      obtain ⟨hnew, hlen, -⟩ := commitScan_spec hscan
      have hnode := (h.commitTo (c := index) (hlen.trans h.room) fun hP =>
        ⟨hnew.le, hlen, h.committed hl (c hP) hP hr hscan⟩).logEvent
          (e := .committedThrough index) (by simp) (by simp)
      obtain ⟨h1, h2, h3, -⟩ := applyCommittedLocked_keeps hrec
      have hl' : R.Lists i (RaftNode.logEvent { x with commitIndex := index }
          (.committedThrough index)) := { hl with }
      refine ⟨hnode.apply m hrec, hl'.apply hrec, h3, ?_, h2⟩
      rw [h1]
      exact hnew.le
    · obtain rfl := Option.some.inj hrec
      exact ⟨h, hl, rfl, le_rfl, rfl⟩

/-! ### Appending and offering -/

theorem Sim.appendEntry (h : Sim P R V g s) (hr : (s.node i).role = .leader) {op : KvOp}
    {key value : Text} (hc : V.clean op key value) {todo : List Section}
    (htodo : ∀ sec ∈ todo ++ rest, sec.Waiting n) :
    Simulated P R V g i s rest
      { node := (appendEntryLocked (s.node i) op key value).2, todo } := by
  have hx := h.nodes i
  have hl := h.lists i
  obtain ⟨hled, hlead⟩ := hx.leads hr
  unfold appendEntryLocked
  split
  · exact ⟨g, .refl, h.update_quiet (h.grows .refl) hl hx rfl (h.votes i) (by simp) (by simp) htodo,
      fun _ => .of_eq rfl rfl⟩
  · rename_i hroom
    generalize he : (RaftLogEntry.mk ((s.node i).logCount + 1) (s.node i).currentTerm op
      (copyText raftMaxKey key) (copyText raftMaxValue value)) = e
    have hindex : e.index = (s.node i).log.length + 1 := by rw [← he]; rfl
    have hterm : V.term (V.view e) = g.term i := by rw [V.term_view, hx.term, ← he]
    have st : Steps V.term Majority P i g (g.append i (V.view e)) :=
      .single (.append (V.view e) (by rwa [hx.term]) (by rw [hx.term, hlead]) hterm)
    have gr := h.grows st
    have hnode : NodeSim P R V (g.append i (V.view e)) i
        { s.node i with log := (s.node i).log ++ [e] } := by
      refine { hx with
        indexed := hx.indexed.concat hindex
        room := ?_
        clean := fun d hd => ?_
        log := by simp [hx.log]
        leads := fun _ => ⟨hled, by rw [append_lead_self hx.term, append_log_self]⟩
        runs := fun hc => ?_
        entries := fun k d hd => ?_
        safe := fun hP => ?_ }
      · simp only [List.length_append, List.length_singleton, RaftNode.logCount] at hroom ⊢
        omega
      · rcases List.mem_append.mp hd with hd | hd
        · exact hx.clean d hd
        · obtain rfl := List.mem_singleton.mp hd
          rw [← he]
          exact V.cut hc
      · exact absurd (hr.symm.trans hc) (by simp)
      · obtain ⟨h1, h2, h3⟩ := hx.entries k d hd
        exact ⟨h1, h2, lead_getElem? gr.continues h3⟩
      · have hs := hx.safe hP
        have hla := hs.applied_le.trans hs.commit_le
        refine { hs with
          commit_le := ?_, settled := ?_, store := ?_, slots := fun k d hd => ?_
          matched := fun hr j p hp hid N h1 h2 =>
            gr.continues.held j _ (hs.matched hr j p hp hid N h1 h2) }
        · have := hs.commit_le
          simp only [List.length_append]
          omega
        · rw [append_log_self, List.take_append_of_le_length (by
            rw [hx.log, List.length_map]; exact hs.commit_le)]
          exact hs.settled.extend gr.continues
        · dsimp only
          rw [List.take_append_of_le_length hla]
          exact hs.store
        · obtain ⟨h1, h2⟩ := hs.slots k d hd
          exact ⟨h1, by rw [List.getElem?_append_left (List.getElem?_eq_some_iff.mp h2).1, h2]⟩
    refine ⟨_, st, ?_, fun hP => ⟨le_rfl, ?_⟩⟩
    · exact h.update_quiet gr { hl with } hnode rfl (fun hc => absurd (hr.symm.trans hc) (by simp))
        (by simp) (by simp) htodo
    · exact List.take_append_of_le_length (hx.safe hP).commit_le

theorem NodeSim.termAt_eq (h : NodeSim P R V g i x) {k pt : ℕ} (hpt : termAt x k = some pt)
    (hk : 0 < k) : (g.log i)[k - 1]?.map V.term = some pt := by
  rcases termAt_cases hpt with ⟨rfl, -⟩ | ⟨-, hget⟩
  · omega
  · rw [h.getElem?_log, Option.map_map, ← hget]
    exact congrArg (fun f => x.log[k - 1]?.map f) (funext V.term_view)

/-- `build_append_locked` offers a prefix of the node's log. -/
theorem NodeSim.buildAppend (h : NodeSim P R V g i x) (m : Matching V.term Majority g)
    {peer : Peer} {line : Line} (hb : buildAppendLocked x peer = some line) :
    ∃ prev pt entry w, line = .ae x.currentTerm x.id prev pt x.commitIndex entry ∧
      Appends V g x.currentTerm prev pt entry w ∧ w <+: g.log i ∧ prev ≤ raftMaxLog ∧
      pt < 2 ^ 32 := by
  have hterms : ∀ a ∈ g.log i, V.term a ≤ x.currentTerm := h.term ▸ m.terms i
  have hlen : (g.log i).length = x.log.length := by rw [h.log, List.length_map]
  have hroom := h.room
  obtain ⟨prev, pt, entry, rfl, hpt, hentry⟩ := buildAppendLocked_cases h.indexed hroom hb
  have hptlt : pt < 2 ^ 32 :=
    termAt_lt (fun e he => (h.term_le m he).trans_lt h.bound) (by norm_num) hpt
  rcases hentry with ⟨e, rfl, he, hindex⟩ | ⟨rfl, rfl⟩
  · have hlt := (List.getElem?_eq_some_iff.mp he).1
    refine ⟨prev, pt, some e, (g.log i).take (prev + 1), rfl, ?_, List.take_prefix _ _, by omega,
      hptlt⟩
    refine ⟨(m.logs i).sub (List.take_prefix _ _), fun a ha => hterms a (List.mem_of_mem_take ha),
      ?_, ?_, fun hp => ?_, fun d hd => ?_⟩
    · simp only [List.length_take, Option.toList_some, List.length_singleton]
      omega
    · rw [List.length_take]
      omega
    · rw [List.getElem?_take, if_pos (by omega)]
      exact h.termAt_eq hpt hp
    · obtain rfl := Option.some.inj hd
      refine ⟨hindex, ?_, h.clean e (List.mem_of_getElem? he)⟩
      rw [List.getElem?_take, if_pos (Nat.lt_succ_self prev), h.getElem?_log, he, Option.map_some]
  · refine ⟨_, pt, none, g.log i, rfl, ?_, List.prefix_rfl, hroom, hptlt⟩
    refine ⟨m.logs i, hterms, by simp [hlen], hlen ▸ hroom, h.termAt_eq hpt, ?_⟩
    intro e he
    cases he

theorem NodeSim.modifyPeers (h : NodeSim P R V g i x) {f : Peer → Peer} (id : ℕ)
    (hid : ∀ p, (f p).id = p.id)
    (hf : P → x.role = .leader → ∀ p ∈ x.peers, p.id = id → ∀ j, p.id = R.id j → ∀ N : ℕ, 1 ≤ N →
      (N : ℤ) ≤ (f p).matchIndex → N ∈ g.held j x.currentTerm) :
    NodeSim P R V g i { x with peers := modifyPeer f id x.peers } := by
  refine { h with safe := fun hP => { h.safe hP with matched := fun hr j p hp hpj N h1 h2 => ?_ } }
  rcases mem_modifyPeer hp with hp | ⟨q, hq, hqid, rfl⟩
  · exact (h.safe hP).matched hr j p hp hpj N h1 h2
  · exact hf hP hr q hq hqid j ((hid q).symm.trans hpj) N h1 h2

theorem Sim.sendAppendToPeer (h : Sim P R V g s) {peerId : ℕ} {e : Effect}
    (hr : P → (s.node i).role = .leader)
    (he : sendAppendToPeer (s.node i) peerId = some e) (hrest : ∀ sec ∈ rest, sec.Waiting n) :
    Simulated P R V g i s rest e := by
  have hx := h.nodes i
  have hl := h.lists i
  cases transmission he with
  | unknown => exact h.stay hrest
  | sends peer line found built =>
    obtain ⟨-, j, hj, -, -, hhost, hport⟩ := Roster.findPeer_some hl found
    obtain ⟨prev, pt, entry, w, rfl, hw, hsub, hprev, hpt⟩ := hx.buildAppend h.matching built
    refine ⟨g, .refl, ?_, fun _ => .of_eq rfl rfl⟩
    refine h.update_quiet (h.grows .refl) (hl.modify peerId fun p => ⟨rfl, rfl, rfl⟩)
      (hx.modifyPeers peerId (fun p => rfl) fun hP hr p hp _ j hpj N h1 h2 =>
        (hx.safe hP).matched hr j p hp hpj N h1 h2) rfl (h.votes i) ?_ ?_ hrest
    · intro p hp
      obtain rfl := List.mem_singleton.mp hp
      simp [Line.grants, Line.asks]
    · intro p hp
      obtain rfl := List.mem_singleton.mp hp
      refine ⟨j, _, by rw [Roster.packet, hhost, hport], ?_⟩
      refine ⟨?_, i, w, hl.id, hw, fun hP => ?_⟩
      · have h1 := R.id_lt i
        have h2 := hl.id
        have h3 := hx.bound
        have h4 := hx.commit
        simp only [raftMaxLog] at hprev h4
        intro k hk
        simp only [List.mem_cons, List.not_mem_nil, or_false] at hk
        omega
      · obtain ⟨hled, hlead⟩ := hx.leads (hr hP)
        have hs := hx.safe hP
        have hset := hs.settled
        rw [hx.term] at hset
        refine ⟨hled, hj, hlead ▸ hsub, ?_, by rwa [hlead], ?_⟩
        · rw [hlead, hx.log, List.length_map]
          exact hs.commit_le
        · rw [hlead]
          exact List.take_prefix _ _

/-! ### Taking over entries -/

/-- A log that passes the check of the preceding entry agrees with the offered log up to there. -/
theorem NodeSim.shared (h : NodeSim P R V g i x) (m : Matching V.term Majority g) {t prev pt : ℕ}
    {entry : Option RaftLogEntry} {w : List α} (hw : Appends V g t prev pt entry w)
    (hprev : prevMatches x prev pt = true) :
    prev ≤ x.log.length ∧ w.take prev = (g.log i).take prev := by
  rcases prevMatches_cases hprev with rfl | ⟨hpos, hle, hterm⟩
  · simp
  · obtain ⟨a, ha, hat⟩ := Option.map_eq_some_iff.mp (hw.before hpos)
    obtain ⟨e, he, het⟩ := Option.map_eq_some_iff.mp hterm
    have hb : (g.log i)[prev - 1]? = some (V.view e) := by
      rw [h.getElem?_log, he, Option.map_some]
    have := hw.rooted.take_eq (m.logs i) ha hb (by rw [V.term_view]; omega)
    rw [Nat.sub_add_cancel hpos] at this
    exact ⟨hle, this⟩

theorem Appends.eq_concat {t prev pt : ℕ} {e : RaftLogEntry} {w : List α}
    (hw : Appends V g t prev pt (some e) w) : w = w.take prev ++ [V.view e] := by
  have hlen : w.length = prev + 1 := hw.length
  rw [← take_succ_eq_concat (hw.last e rfl).2.1, ← hlen, List.take_length]

/-- What becomes of the log: it starts with the offered log already, or the offered log takes its
place. -/
theorem NodeSim.takeOver (h : NodeSim P R V g i x) (m : Matching V.term Majority g)
    {t prev pt : ℕ} {entry : Option RaftLogEntry} {w : List α} {log : List RaftLogEntry}
    (hw : Appends V g t prev pt entry w) (hprev : prevMatches x prev pt = true)
    (hlog : entry.elim (some x.log) (storeEntry x.log) = some log) :
    (log = x.log ∧ w <+: g.log i ∧ ∀ e ∈ entry, ∀ old, x.log[prev]? = some old →
      old.term = e.term) ∨
    (∃ e, entry = some e ∧ prev ≤ x.log.length ∧ log = x.log.take prev ++ [e] ∧
      log.map V.view = w ∧ ¬w <+: g.log i) := by
  obtain ⟨hle, hshare⟩ := h.shared m hw hprev
  cases entry with
  | none =>
    have hlen : w.length = prev := hw.length
    refine Or.inl ⟨(Option.some.inj hlog).symm, ?_, by simp⟩
    rw [← List.take_length (l := w), hlen, hshare]
    exact List.take_prefix _ _
  | some e =>
    obtain ⟨hindex, hget, -⟩ := hw.last e rfl
    have hlen : w.length = prev + 1 := hw.length
    have hroom := hw.room
    rcases storeEntry_cases hlog hindex hle (by omega) with ⟨old, hold, hterm, rfl⟩ | ⟨hdiff, rfl⟩
    · refine Or.inl ⟨rfl, ?_, fun d hd old' hold' => ?_⟩
      · have hb : (g.log i)[prev]? = some (V.view old) := by
          rw [h.getElem?_log, hold, Option.map_some]
        have heq := hw.rooted.take_eq (m.logs i) hget hb
          (by rw [V.term_view, V.term_view, hterm])
        rw [← hlen, List.take_length] at heq
        rw [heq]
        exact List.take_prefix _ _
      · obtain rfl := Option.some.inj hd
        rwa [← Option.some.inj (hold.symm.trans hold')]
    · refine Or.inr ⟨e, rfl, hle, rfl, ?_, fun hsub => ?_⟩
      · rw [List.map_append, List.map_take, ← h.log, ← hshare]
        exact hw.eq_concat.symm
      · obtain ⟨s, hs⟩ := hsub
        have hb : (g.log i)[prev]? = some (V.view e) := by
          rw [← hs, List.getElem?_append_left (by omega), hget]
        rw [h.getElem?_log] at hb
        obtain ⟨old, hold, hview⟩ := Option.map_eq_some_iff.mp hb
        exact hdiff old hold (by rw [← V.term_view old, hview, V.term_view])

/-- The same, in the history. -/
theorem NodeSim.map_takeOver (h : NodeSim P R V g i x) (m : Matching V.term Majority g)
    {t prev pt : ℕ} {entry : Option RaftLogEntry} {w : List α} {log : List RaftLogEntry}
    (hw : Appends V g t prev pt entry w) (hprev : prevMatches x prev pt = true)
    (hlog : entry.elim (some x.log) (storeEntry x.log) = some log) :
    log.map V.view = merge (g.log i) w := by
  rcases h.takeOver m hw hprev hlog with ⟨rfl, hsub, -⟩ | ⟨e, -, -, -, hmap, hno⟩
  · rw [merge_eq_left hsub, h.log]
  · rw [merge_eq_right hno, hmap]

/-- A prefix of the log whose view stays is kept entry by entry. -/
theorem NodeSim.take_takeOver (h : NodeSim P R V g i x) (m : Matching V.term Majority g)
    {t prev pt c : ℕ} {entry : Option RaftLogEntry} {w : List α} {log : List RaftLogEntry}
    (hw : Appends V g t prev pt entry w) (hprev : prevMatches x prev pt = true)
    (hlog : entry.elim (some x.log) (storeEntry x.log) = some log) (hc : c ≤ x.log.length)
    (hstay : (g.log i).take c <+: merge (g.log i) w) :
    c ≤ log.length ∧ log.take c = x.log.take c := by
  have hlen : ((g.log i).take c).length = c := by
    rw [List.length_take, h.log, List.length_map]
    omega
  rcases h.takeOver m hw hprev hlog with ⟨rfl, -, -⟩ | ⟨e, rfl, hle, rfl, hmap, hno⟩
  · exact ⟨hc, rfl⟩
  · rw [merge_eq_right hno] at hstay
    have hlong : w.length = prev + 1 := hw.length
    have hshort := hstay.length_le
    have hne : c ≠ prev + 1 := by
      intro hcp
      apply hno
      rw [← hstay.eq_of_length (by omega)]
      exact List.take_prefix _ _
    have hcp : c ≤ prev := by omega
    constructor
    · rw [List.length_append, List.length_take, List.length_singleton]
      omega
    · rw [List.take_append_of_le_length (by rw [List.length_take]; omega), List.take_take,
        Nat.min_eq_left hcp]

/-- A follower that takes over a log. -/
theorem NodeSim.adopt (h : NodeSim P R V g i x) (m : Matching V.term Majority g)
    (hr : x.role = .follower) {t prev pt : ℕ} {entry : Option RaftLogEntry} {w : List α}
    {log : List RaftLogEntry} (hw : Appends V g t prev pt entry w)
    (hprev : prevMatches x prev pt = true)
    (hlog : entry.elim (some x.log) (storeEntry x.log) = some log)
    (hstay : P → (g.log i).take x.commitIndex <+: merge (g.log i) w) :
    NodeSim P R V (g.adopt i w) i { x with log := log } := by
  have hmap := h.map_takeOver m hw hprev hlog
  have hlength : log.length = (merge (g.log i) w).length := by rw [← hmap, List.length_map]
  have hcases := h.takeOver m hw hprev hlog
  refine { h with
    indexed := ?_
    room := ?_
    clean := ?_
    log := by rw [adopt_log_self, hmap]
    leads := fun hc => absurd (hr.symm.trans hc) (by simp)
    runs := fun hc => absurd (hr.symm.trans hc) (by simp)
    safe := fun hP => ?_ }
  · rcases hcases with ⟨rfl, -⟩ | ⟨e, rfl, hle, rfl, -⟩
    · exact h.indexed
    · apply (h.indexed.take prev).concat
      rw [(hw.last e rfl).1, List.length_take]
      omega
  · dsimp only
    rw [hlength]
    rcases merge_eq_or (g.log i) w with heq | heq
    · rw [heq, h.log, List.length_map]
      exact h.room
    · rw [heq]
      exact hw.room
  · rcases hcases with ⟨rfl, -⟩ | ⟨e, rfl, -, rfl, -⟩
    · exact h.clean
    · intro d hd
      rcases List.mem_append.mp hd with hd | hd
      · exact h.clean d (List.mem_of_mem_take hd)
      · obtain rfl := List.mem_singleton.mp hd
        exact (hw.last d rfl).2.2
  · have hs := h.safe hP
    obtain ⟨hle, htake⟩ := h.take_takeOver m hw hprev hlog hs.commit_le (hstay hP)
    have hview : (merge (g.log i) w).take x.commitIndex = (g.log i).take x.commitIndex := by
      rw [← hmap, h.log, ← List.map_take, htake, List.map_take]
    refine { hs with
      commit_le := hle, settled := ?_, store := ?_, slots := fun k d hd => ?_
      matched := fun hc => absurd (hr.symm.trans hc) (by simp) }
    · rw [adopt_log_self, hview]
      exact hs.settled
    · have h1 := congrArg (List.take x.lastApplied) htake
      rw [List.take_take, List.take_take, Nat.min_eq_left hs.applied_le] at h1
      dsimp only
      rw [h1]
      exact hs.store
    · obtain ⟨h1, h2⟩ := hs.slots k d hd
      obtain ⟨-, h3, -⟩ := h.entries k d hd
      have h4 := hs.applied_le
      refine ⟨h1, ?_⟩
      have h5 := congrArg (fun l => l[k - 1]?) htake
      simp only [List.getElem?_take] at h5
      rw [if_pos (by omega), if_pos (by omega)] at h5
      exact h5.trans h2

theorem NodeSim.hold (h : NodeSim P R V g i x) (m : Matching V.term Majority g) {k : ℕ}
    (st : Step V.term Majority P i g (g.hold i k)) : NodeSim P R V (g.hold i k) i x := by
  have e := st.extends m
  refine { h with runs := fun hr => { h.runs hr with }, safe := fun hP => ?_ }
  have hs := h.safe hP
  exact { hs with
    settled := hs.settled.extend e
    matched := fun hr j p hp hid N h1 h2 => e.held j _ (hs.matched hr j p hp hid N h1 h2) }

/-- The log that a follower ends up with agrees with its leader's, as far as the line is vouched
for. -/
theorem Sim.agree (h : Sim P R V g s) {l : Fin n} {t lc : ℕ} {w : List α}
    {log : List RaftLogEntry} {kept : Prop} (hx : g.log i = x.log.map V.view)
    (hb : Backed V g i l t lc w)
    (hcase : (log = x.log ∧ w <+: g.log i ∧ kept) ∨ log.map V.view = w)
    (vouch : kept → ∀ k, w.length ≤ k → k < x.log.length →
      ((s.node l).role = .leader ∧ (s.node l).currentTerm = t) ∨ k < lc →
      x.log[k]?.map (·.term) = (s.node l).log[k]?.map (·.term))
    {k : ℕ} (hk : k < log.length)
    (hcond : ((s.node l).role = .leader ∧ (s.node l).currentTerm = t) ∨ k < lc) :
    (log.map V.view).take (k + 1) = (g.lead t).take (k + 1) := by
  have ofPrefix : ∀ {u v : List α} {c : ℕ}, u <+: v → c ≤ u.length → u.take c = v.take c := by
    rintro u v c ⟨r, rfl⟩ hc
    rw [List.take_append_of_le_length hc]
  rcases hcase with ⟨rfl, hsub, hkept⟩ | rfl
  · rw [← hx]
    rcases Nat.lt_or_ge k w.length with hkw | hkw
    · rw [← ofPrefix hsub hkw, ofPrefix hb.part hkw]
    · -- past the checked entries, the leader's entry at `k` has the same term
      have hterm := vouch hkept k hkw hk hcond
      have hnode := h.nodes l
      obtain ⟨a, ha⟩ : ∃ a, x.log[k]? = some a := ⟨_, List.getElem?_eq_getElem hk⟩
      rw [ha] at hterm
      obtain ⟨b, hb', hab⟩ := Option.map_eq_some_iff.mp hterm.symm
      have h1 : (g.log i)[k]? = some (V.view a) := by rw [hx, List.getElem?_map, ha]; rfl
      have h2 : (g.log l)[k]? = some (V.view b) := by rw [hnode.getElem?_log, hb']; rfl
      have heq := (h.matching.logs i).take_eq (h.matching.logs l) h1 h2
        (by rw [V.term_view, V.term_view]; exact hab.symm)
      rw [heq]
      rcases hcond with ⟨hr, rfl⟩ | hlc
      · rw [(hnode.leads hr).2]
      · have hreach := hb.reach
        have hlen : ((g.lead t).take lc).length = lc := by rw [List.length_take]; omega
        have h3 := @ofPrefix _ _ (k + 1) hb.stays (by omega)
        rw [List.take_take, Nat.min_eq_left (by omega)] at h3
        exact h3.symm
  · rw [ofPrefix hb.part (by simpa using hk)]

/-- A follower commits what its leader has, up to the leader's commit index. -/
theorem NodeSim.followCommit (h : NodeSim P R V g i x) (m : Matching V.term Majority g)
    (hl : R.Lists i x) {lc : ℕ} {lead : List α}
    (agree : P → ∀ k, k < x.log.length → k < lc → (g.log i).take (k + 1) = lead.take (k + 1))
    (settled : P → Settled Majority V.term g (g.term i) (lead.take lc))
    (happ : (if x.commitIndex < lc then
      applyCommittedLocked { x with commitIndex := min lc x.log.length } else some x) = some x') :
    NodeSim P R V g i x' ∧ R.Lists i x' ∧ x'.role = x.role ∧ x'.log = x.log ∧
      (P → x.commitIndex ≤ x'.commitIndex) := by
  split at happ
  · rename_i hlt
    have hroom := h.room
    have hle : P → x.commitIndex ≤ min lc x.log.length := by
      intro hP
      have := (h.safe hP).commit_le
      omega
    have hto := h.commitTo (c := min lc x.log.length) (by omega) fun hP => by
      refine ⟨hle hP, Nat.min_le_right _ _, ?_⟩
      rcases Nat.eq_zero_or_pos (min lc x.log.length) with hz | hpos
      · rw [hz, List.take_zero]
        exact Or.inl rfl
      · have heq := agree hP (min lc x.log.length - 1) (by omega) (by omega)
        rw [Nat.sub_add_cancel hpos] at heq
        rw [heq]
        exact (settled hP).sub (List.take_prefix_take_left (by omega))
    obtain ⟨h1, h2, h3, -⟩ := applyCommittedLocked_keeps happ
    have hl' : R.Lists i { x with commitIndex := min lc x.log.length } := { hl with }
    exact ⟨hto.apply m happ, hl'.apply happ, h3, h2, fun hP => h1.symm ▸ hle hP⟩
  · obtain rfl := Option.some.inj happ
    exact ⟨h, hl, rfl, rfl, fun _ => le_rfl⟩

/-- A follower that takes over what it is offered. -/
theorem Sim.accept (h : Sim P R V g s) {t prev pt lc : ℕ} {entry : Option RaftLogEntry}
    {l : Fin n} {w : List α} {log : List RaftLogEntry} (hx : NodeSim P R V (g.advance i t) i x)
    (hl : R.Lists i x) (le : g.term i ≤ t) (hr : x.role = .follower)
    (hcommit : x.commitIndex = (s.node i).commitIndex) (hsame : x.log = (s.node i).log)
    (hw : Appends V g t prev pt entry w) (hb : P → Backed V g i l t lc w)
    (hprev : prevMatches x prev pt = true)
    (hlog : entry.elim (some x.log) (storeEntry x.log) = some log)
    (vouch : P → (∀ e ∈ entry, ∀ old, x.log[prev]? = some old → old.term = e.term) →
      ∀ k, w.length ≤ k → k < x.log.length →
      ((s.node l).role = .leader ∧ (s.node l).currentTerm = t) ∨ k < lc →
      x.log[k]?.map (·.term) = (s.node l).log[k]?.map (·.term))
    (happ : (if x.commitIndex < lc then
      applyCommittedLocked { x with log, commitIndex := min lc log.length }
      else some { x with log }) = some x') (hrest : ∀ sec ∈ rest, sec.Waiting n) :
    Simulated P R V g i s rest
      { node := x'
        sends := sendToPeer x' (R.id l) (.aer x'.currentTerm x'.id 1 x'.logCount) } := by
  have st1 : Steps V.term Majority P i g (g.advance i t) := steps_advance le
  have gr1 := h.grows st1
  have hterm : x.currentTerm = t := by rw [← hx.term, advance_term_self]
  have hw1 : Appends V (g.advance i t) t prev pt entry w := hw.extend gr1.continues
  have step2 : Step V.term Majority P i (g.advance i t) ((g.advance i t).adopt i w) := by
    refine .adopt w hw1.rooted ?_ fun hP => ?_
    · rw [advance_term_self]
      exact hw.terms
    · rw [advance_term_self]
      exact ⟨by simp [(hb hP).leader], (hb hP).part⟩
  have st2 := st1.tail step2
  have gr2 := h.grows st2
  have hmap := hx.map_takeOver gr1.matching hw1 hprev hlog
  have hstay : P → ((g.advance i t).log i).take x.commitIndex <+:
      merge ((g.advance i t).log i) w := by
    intro hP
    have := (gr1.complete hP).stays_step gr1.matching Majority.meet (eq_true hP ▸ step2)
      (hx.safe hP).settled le_rfl (List.take_prefix _ _)
    rwa [adopt_log_self] at this
  have hadopt := hx.adopt gr1.matching hr hw1 hprev hlog hstay
  have hcase := (hx.takeOver gr1.matching hw1 hprev hlog).imp id fun ⟨_, _, _, _, h1, _⟩ => h1
  have agree : P → ∀ k, k < log.length →
      ((s.node l).role = .leader ∧ (s.node l).currentTerm = t) ∨ k < lc →
      (log.map V.view).take (k + 1) = (g.lead t).take (k + 1) := fun hP k hk hcond =>
    h.agree hx.log (hb hP) hcase (vouch hP) hk hcond
  have hroom : log.length ≤ raftMaxLog := hadopt.room
  have hlists' : R.Lists i { x with log } := { hl with }
  have agree' : P → ∀ k, k < log.length → k < lc →
      (((g.advance i t).adopt i w).log i).take (k + 1) = (g.lead t).take (k + 1) := by
    intro hP k hk hlc
    rw [adopt_log_self, ← hmap]
    exact agree hP k hk (Or.inr hlc)
  obtain ⟨hnode, hlists, hrole', hlog', hcommit'⟩ := hadopt.followCommit gr2.matching hlists' agree'
    (fun hP => by
      rw [adopt_term, advance_term_self]
      exact (hb hP).settled.extend gr2.continues) happ
  have hrole : x'.role = .follower := hrole'.trans hr
  have hcur : x'.currentTerm = t := by rw [← hnode.term, adopt_term, advance_term_self]
  have keeps : P → Keeps (s.node i) x' := by
    intro hP
    refine ⟨hcommit ▸ hcommit' hP, ?_⟩
    rw [← hcommit, ← hsame, hlog']
    exact (hx.take_takeOver gr1.matching hw1 hprev hlog (hx.safe hP).commit_le (hstay hP)).2
  have hfits : Fits [x'.currentTerm, x'.id, 1] := fits_reply hlists hnode.bound le_rfl
  have idle : x'.role ≠ .candidate := by
    rw [hrole]
    simp
  have hcount : x'.logCount ≤ raftMaxLog := by
    rw [RaftNode.logCount, hlog']
    exact hroom
  by_cases hpart : log.map V.view <+: g.lead t
  · -- what is reported is held
    have hlen : log.length = (log.map V.view).length := (List.length_map _).symm
    have step3 : Step V.term Majority P i ((g.advance i t).adopt i w)
        (((g.advance i t).adopt i w).hold i log.length) := by
      refine .hold log.length ?_ ?_
      · rw [adopt_term, advance_term_self, hlen]
        exact hpart.length_le
      · rw [adopt_term, advance_term_self, adopt_log_self, ← hmap, hlen]
        obtain ⟨r, hr⟩ := hpart
        rw [adopt_lead, advance_lead, ← hr, List.take_append_of_le_length le_rfl, List.take_length]
    have st3 := st2.tail step3
    refine h.reply st3 rfl (hnode.hold gr2.matching step3) hlists (fun hc => absurd hc idle) keeps
      hrest (fun t => ⟨rfl, fun id => rfl⟩)
      ⟨hfits, hcount, i, hlists.id, fun _ _ => Or.inr ?_⟩
    intro N _ hN
    rw [hcur]
    rw [RaftNode.logCount, hlog'] at hN
    exact mem_hold_self (by simp) hN
  · refine h.reply st2 rfl hnode hlists (fun hc => absurd hc idle) keeps hrest
      (fun t => ⟨rfl, fun id => rfl⟩) ⟨hfits, hcount, i, hlists.id, fun hP _ => Or.inl ?_⟩
    rw [hcur]
    refine lt_of_lt_of_le ?_ (gr2.continues.term l)
    rw [(h.nodes l).term]
    rcases ((h.nodes l).safe hP).reign t (hb hP).leader with hlt | ⟨rfl, hlead⟩
    · exact hlt
    · refine absurd ?_ hpart
      rcases Nat.eq_zero_or_pos log.length with hz | hpos
      · rw [List.length_eq_zero_iff.mp hz]
        exact List.nil_prefix
      · have heq := agree hP (log.length - 1) (by omega) (Or.inl ⟨hlead, rfl⟩)
        rw [Nat.sub_add_cancel hpos, List.take_of_length_le (by simp)] at heq
        rw [heq]
        exact List.take_prefix _ _

theorem Sim.handleAppendEntries (h : Sim P R V g s) (now : ℕ) {t prev pt lc has : ℕ}
    {incoming : RaftLogEntry} {l : Fin n} {w : List α} {e : Effect} (bound : t < 2 ^ 32)
    (hw : Appends V g t prev pt (if has = 0 then none else some incoming) w)
    (hb : P → Backed V g i l t lc w)
    (hv : P → Vouched s i (.handleAppendEntries t (R.id l) prev pt lc has incoming))
    (he : handleAppendEntries now (s.node i) t (R.id l) prev pt lc has incoming = some e)
    (hrest : ∀ sec ∈ rest, sec.Waiting n) : Simulated P R V g i s rest e := by
  have hx := h.nodes i
  have hl := h.lists i
  have reject : ∀ {x : RaftNode} {g1 : Ledger (Fin n) α}, Steps V.term Majority P i g g1 →
      g1.vote = g.vote → NodeSim P R V g1 i x → R.Lists i x → Keeps (s.node i) x →
      (x.role = .candidate → x = s.node i) → Simulated P R V g i s rest
        { node := x, sends := sendToPeer x (R.id l) (.aer x.currentTerm x.id 0 0) } := by
    intro x g1 st hvote node hl keeps hrole
    refine h.reply st hvote node hl (fun hr => ?_) (fun _ => keeps) hrest
      (fun t => ⟨rfl, fun id => rfl⟩)
      ⟨fits_reply hl node.bound zero_le_one, Nat.zero_le _, i, hl.id,
        fun _ hne => absurd rfl hne⟩
    have heq := hrole hr
    subst heq
    exact h.votes i hr
  generalize hx1eq : (if (s.node i).currentTerm ≤ t then
    becomeFollowerLocked now (s.node i) t (toInt32 (R.id l)) else s.node i) = x1
  have hout := handleAppendEntries_cases hx1eq he
  by_cases hle : (s.node i).currentTerm ≤ t
  · rw [if_pos hle] at hx1eq
    have other : P → g.leader t ≠ some i := by
      intro hP hled
      exact (hb hP).other (Option.some.inj (hled.symm.trans (hb hP).leader))
    have hx1 : NodeSim P R V (g.advance i t) i
        (becomeFollowerLocked now (s.node i) t (toInt32 (R.id l))) :=
      hx.follow h.matching _ hle bound other
    have hl1 := hl.follow now t (toInt32 (R.id l))
    have keeps := Keeps.follow (s.node i) now t (toInt32 (R.id l))
    obtain ⟨hrole, hcommit, hlog⟩ := becomeFollowerLocked_fields now (s.node i) t (toInt32 (R.id l))
    rw [hx1eq] at hx1 hl1 keeps hrole hcommit hlog
    have le : g.term i ≤ t := hx.term ▸ hle
    rcases hout with ⟨-, hprev, log, x', hstore, happ, rfl⟩ | ⟨-, rfl⟩
    · refine h.accept hx1 hl1 le hrole hcommit hlog hw hb hprev hstore
        (fun hP hkept k h1 h2 h3 => ?_) happ hrest
      have hprev' : prevMatches (s.node i) prev pt = true := prevMatches_congr hlog prev pt ▸ hprev
      rw [hlog] at hkept h2 ⊢
      refine hv hP hle hprev' (fun hne old hold => ?_) l (h.lists l).id k h2 ?_ h3
      · rw [if_neg hne] at hw hkept
        rw [(hw.last incoming rfl).1, Nat.add_sub_cancel] at hold
        exact hkept incoming rfl old hold
      · have := hw.length
        by_cases hz : has = 0 <;> simp [hz] at this ⊢ <;> omega
    · exact reject (steps_advance le) rfl hx1 hl1 keeps
        fun hr => absurd (hrole.symm.trans hr) (by simp)
  · rw [if_neg hle] at hx1eq
    subst hx1eq
    rcases hout with ⟨rfl, -⟩ | ⟨-, rfl⟩
    · exact absurd le_rfl hle
    · exact reject .refl rfl hx hl (.of_eq rfl rfl) fun _ => rfl

/-! ### Replies and commands -/

theorem Sim.handleAppendResponse (h : Sim P R V g s) (now : ℕ) {t success k : ℕ} {f : Fin n}
    {e : Effect} (bound : t < 2 ^ 32) (room : k ≤ raftMaxLog)
    (told : P → success ≠ 0 → t < g.term i ∨ ∀ N, 1 ≤ N → N ≤ k → N ∈ g.held f t)
    (he : handleAppendResponse now (s.node i) t (R.id f) success k = some e)
    (hrest : ∀ sec ∈ rest, sec.Waiting n) : Simulated P R V g i s rest e := by
  have hx := h.nodes i
  have hl := h.lists i
  cases appendResponse he with
  | observes newer => exact h.stepDown newer bound hrest
  | ignores => exact h.stay hrest
  | takes hcond succeeds x' recomputed =>
    obtain ⟨hr, rfl, -⟩ := hcond
    have hint : toInt32 (k : ℤ) = k := toInt32_of_lt (by simp only [raftMaxLog] at room; omega)
    rw [hint] at recomputed
    have hnode := hx.modifyPeers (f := fun p =>
      { p with matchIndex := k, nextIndex := toInt32 (k + 1) }) (R.id f) (fun p => rfl)
      fun hP _ p _ hpf j hpj N h1 h2 => by
        have hjf : j = f := R.id_inj j f (hpj.symm.trans hpf)
        subst hjf
        have hN : N ≤ k := Int.ofNat_le.mp h2
        rcases told hP succeeds with hlt | hheld
        · rw [hx.term] at hlt
          exact absurd hlt (lt_irrefl _)
        · exact hheld N h1 hN
    obtain ⟨h1, h2, h3, h4, h5⟩ := hnode.recompute (hl.modify (R.id f) fun p => ⟨rfl, rfl, rfl⟩)
      h.matching h.complete recomputed
    refine ⟨g, .refl, ?_, fun _ => ⟨h4, by rw [h5]⟩⟩
    refine h.update_quiet (h.grows .refl) h2 h1 rfl (fun hc => ?_) (by simp) (by simp) hrest
    rw [h3] at hc
    exact absurd (hr.symm.trans hc) (by simp)
  | backs hcond =>
    refine ⟨g, .refl, ?_, fun _ => .of_eq rfl rfl⟩
    refine h.update_quiet (h.grows .refl) (hl.modify (R.id f) fun p => ⟨rfl, rfl, rfl⟩)
      (hx.modifyPeers (R.id f) (fun p => rfl) fun hP _ p hp _ j hpj N h1 h2 =>
        (hx.safe hP).matched hcond.1 j p hp hpj N h1 h2) rfl (h.votes i) (by simp) (by simp) ?_
    intro sec hsec
    rcases List.mem_cons.mp hsec with rfl | hsec
    · trivial
    · exact hrest sec hsec

theorem Sim.raftSubmitCommand (h : Sim P R V g s) (env : Env) {op : KvOp} {key value : Text}
    (hc : V.Accepts op key value) (hrest : ∀ sec ∈ rest, sec.Waiting n) :
    Simulated P R V g i s rest (raftSubmitCommand env (s.node i) op key value) := by
  have hl := h.lists i
  generalize he : RaftKv.raftSubmitCommand env (s.node i) op key value = e
  cases submission he with
  | refused => exact h.stay hrest
  | leads checked lead =>
    apply h.appendEntry lead (hc checked.key checked.value)
    intro sec hsec
    rcases List.mem_append.mp hsec with hsec | hsec
    · simp only [List.mem_cons, List.not_mem_nil, or_false] at hsec
      rcases hsec with rfl | rfl <;> trivial
    · exact hrest sec hsec
  | forwards checked =>
    refine ⟨g, .refl, ?_, fun _ => .of_eq rfl rfl⟩
    have hsend : ∀ p ∈ sendToPeer (s.node i) (s.node i).leaderId.toNat
        (.cl (s.node i).id op key value),
        ∃ j, p = R.packet j (.cl (s.node i).id op key value) := by
      intro p hp
      rcases Roster.sendToPeer_eq hl (s.node i).leaderId.toNat
        (.cl (s.node i).id op key value) with h1 | ⟨j, -, -, h1⟩
      · rw [h1] at hp
        cases hp
      · rw [h1] at hp
        exact ⟨j, List.mem_singleton.mp hp⟩
    refine h.update_quiet (h.grows .refl) hl (h.nodes i) rfl (h.votes i) (fun p hp t => ?_)
      (fun p hp => ?_) hrest
    · obtain ⟨j, rfl⟩ := hsend p hp
      exact ⟨rfl, fun id => rfl⟩
    · obtain ⟨j, rfl⟩ := hsend p hp
      have h2 := R.id_lt i
      have h3 := hl.id
      exact ⟨j, _, rfl, by omega, hc checked.key checked.value⟩

theorem Sim.submitPeerless (h : Sim P R V g s) (hrest : ∀ sec ∈ rest, sec.Waiting n) :
    Simulated P R V g i s rest (submitPeerless (s.node i)) := by
  unfold RaftKv.submitPeerless
  split
  · rename_i hz
    refine ⟨g, .refl, ?_, fun _ => .of_eq rfl rfl⟩
    refine h.update_quiet (h.grows .refl) (h.lists i) (h.nodes i) rfl (h.votes i) (by simp)
      (by simp) fun sec hsec => ?_
    rcases List.mem_cons.mp hsec with rfl | hsec
    · have := Roster.length_peers (h.lists i)
      simp only [RaftNode.peerCount] at hz
      simp only [Section.Waiting]
      omega
    · exact hrest sec hsec
  · exact h.stay hrest

/-- In a cluster of one node, its whole log is settled. -/
theorem settled_alone (m : Matching V.term Majority g) (c : Complete V.term Majority g)
    (hn : n = 1) :
    Settled Majority V.term g (g.term i) (g.log i) := by
  rcases List.eq_nil_or_concat (g.log i) with hnil | ⟨q, a, hqa⟩
  · rw [hnil]
    exact Or.inl rfl
  · rw [List.concat_eq_append] at hqa
    have hroot := m.logs i q a (hqa ▸ List.prefix_rfl)
    have hled : g.leader (V.term a) ≠ none := by
      intro hnone
      rw [m.unled _ hnone] at hroot
      simp at hroot
    obtain ⟨d, hd⟩ := Option.ne_none_iff_exists'.mp hled
    have hown := c.own _ d hd q a hroot rfl
    have hcom : Committed Majority V.term g (V.term a) (q.length + 1) := by
      refine ⟨q, a, hroot, rfl, rfl, {d}, majority_of_count ?_, fun j hj => ?_⟩
      · rw [Finset.card_singleton]
        omega
      · obtain rfl := Finset.mem_singleton.mp hj
        exact hown
    have hle : V.term a ≤ g.term i := m.terms i a (by rw [hqa]; simp)
    apply (hcom.settled.later hle).sub
    obtain ⟨r, hr⟩ := hroot
    rw [hqa, ← hr, List.take_append_of_le_length (by simp), List.take_of_length_le (by simp)]

theorem Sim.submitCommit (h : Sim P R V g s) (hn : n = 1) {e : Effect}
    (he : submitCommit (s.node i) = some e) (hrest : ∀ sec ∈ rest, sec.Waiting n) :
    Simulated P R V g i s rest e := by
  have hx := h.nodes i
  obtain ⟨x', happ, he⟩ := Option.bind_eq_some_iff.mp he
  obtain rfl := Option.some.inj he
  have hnode := hx.commitTo (c := (s.node i).logCount) hx.room fun hP => by
    refine ⟨(hx.safe hP).commit_le, le_rfl, ?_⟩
    rw [List.take_of_length_le (by rw [hx.log, List.length_map]; rfl)]
    exact settled_alone h.matching (h.complete hP) hn
  obtain ⟨h1, h2, h3, h4, h5⟩ := applyCommittedLocked_keeps happ
  have hl' : R.Lists i { s.node i with commitIndex := (s.node i).logCount } := { h.lists i with }
  refine ⟨g, .refl, ?_, fun hP => ⟨?_, by rw [h2]⟩⟩
  · refine h.update_quiet (h.grows .refl) (hl'.apply happ) (hnode.apply h.matching happ) rfl
      (fun hc => ?_) (by simp) (by simp) hrest
    rw [h4, h5]
    rw [h3] at hc
    exact h.votes i hc
  · rw [h1]
    exact (hx.safe hP).commit_le

end RaftKv
