import RaftKv.Refine.Invariant

/-! Elections continue the history: a node that steps down advances its term, one that starts an
election votes for itself, a granted request casts a vote, and a candidate that has counted a
majority is elected. -/

namespace RaftKv

open Consensus Consensus.Ledger Function Stdio

variable {n : ℕ} {α : Type} {P : Prop} {R : Roster n} {V : View α} {g g' : Ledger (Fin n) α}
  {i : Fin n} {x : RaftNode} {s : Cluster n} {rest : List Section}

attribute [local irreducible] toInt32

theorem lastLogTermLocked_eq (h : NodeSim P R V g i x) :
    lastLogTermLocked x = Consensus.lastTerm V.term (g.log i) := by
  rw [lastLogTermLocked, Consensus.lastTerm, h.log, List.getLast?_map, Option.map_map]
  congr 1
  exact congrArg (fun f => x.log.getLast?.map f) (funext fun e => (V.term_view e).symm)

theorem lastLogIndexLocked_eq (h : NodeSim P R V g i x) :
    lastLogIndexLocked x = (g.log i).length := by
  rw [h.log, List.length_map]
  rfl

theorem toInt32_id (R : Roster n) (i : Fin n) : toInt32 (R.id i) = R.id i :=
  toInt32_of_lt (R.id_lt i)

/-! ### Stepping down -/

theorem vote_none_of_lt (m : Matching V.term Majority g) {t : ℕ} (h : g.term i < t) :
    g.vote i t = none := by
  cases hv : g.vote i t with
  | none => rfl
  | some c =>
    have := m.voted i t c hv
    omega

theorem leader_ne_of_lt (m : Matching V.term Majority g) {t : ℕ} (h : g.term i < t) :
    g.leader t ≠ some i := by
  intro hl
  have := m.led t i hl
  omega

/-- A node follows in a term that is not behind its own, in which it does not lead. -/
theorem NodeSim.follow (h : NodeSim P R V g i x) (m : Matching V.term Majority g) {now t : ℕ}
    (l : ℤ) (le : x.currentTerm ≤ t) (bound : t < 2 ^ 32) (other : P → g.leader t ≠ some i) :
    NodeSim P R V (g.advance i t) i (becomeFollowerLocked now x t l) := by
  rcases le.lt_or_eq with hlt | rfl
  · rw [becomeFollowerLocked_of_lt hlt]
    refine { h with
      term := advance_term_self, bound := bound
      vote := Or.inl ⟨rfl, vote_none_of_lt m (h.term.trans_lt hlt)⟩
      leads := fun hr => by cases hr
      runs := fun hr => by cases hr
      safe := fun hP => ?_ }
    have hs := h.safe hP
    refine { hs with
      settled := ?_, reign := fun u hu => Or.inl ?_, matched := fun hr => by cases hr }
    · rw [advance_term_self]
      exact hs.settled.later (h.term ▸ hlt.le)
    · have := hs.reign u hu
      simp only
      omega
  · rw [becomeFollowerLocked_of_le le_rfl]
    refine { h with
      term := advance_term_self
      leads := fun hr => by cases hr
      runs := fun hr => by cases hr
      safe := fun hP => ?_ }
    have hs := h.safe hP
    refine { hs with
      settled := ?_, reign := fun u hu => Or.inl ?_, matched := fun hr => by cases hr }
    · rw [advance_term_self]
      exact hs.settled.later h.term.le
    · rcases hs.reign u hu with h1 | ⟨rfl, -⟩
      · exact h1
      · exact absurd hu (other hP)

theorem Roster.Lists.follow (h : R.Lists i x) (now t : ℕ) (l : ℤ) :
    R.Lists i (becomeFollowerLocked now x t l) := by
  rcases Nat.lt_or_ge x.currentTerm t with hlt | hle
  · rw [becomeFollowerLocked_of_lt hlt]
    exact { h with }
  · rw [becomeFollowerLocked_of_le hle]
    exact { h with }

theorem Keeps.follow (x : RaftNode) (now t : ℕ) (l : ℤ) :
    Keeps x (becomeFollowerLocked now x t l) := by
  rcases Nat.lt_or_ge x.currentTerm t with hlt | hle
  · rw [becomeFollowerLocked_of_lt hlt]
    exact .of_eq rfl rfl
  · rw [becomeFollowerLocked_of_le hle]
    exact .of_eq rfl rfl

theorem steps_advance {t : ℕ} (h : g.term i ≤ t) :
    Steps V.term Majority P i g (g.advance i t) := .single (.advance t h)

/-- A node that sees a later term steps down. -/
theorem Sim.stepDown (h : Sim P R V g s) {now t : ℕ} (hlt : (s.node i).currentTerm < t)
    (bound : t < 2 ^ 32) (hrest : ∀ sec ∈ rest, sec.Waiting n) :
    Simulated P R V g i s rest { node := becomeFollowerLocked now (s.node i) t (-1) } := by
  have hx := h.nodes i
  have hterm : g.term i < t := hx.term ▸ hlt
  have st : Steps V.term Majority P i g (g.advance i t) := steps_advance hterm.le
  refine ⟨_, st, ?_, fun _ => .follow _ now t (-1)⟩
  refine h.update_quiet (h.grows st) ((h.lists i).follow now t (-1))
    (hx.follow h.matching (-1) hlt.le bound fun _ => leader_ne_of_lt h.matching hterm) rfl ?_
    (by simp) (by simp) hrest
  rw [becomeFollowerLocked_of_lt hlt]
  intro hr
  cases hr

/-! ### Winning -/

theorem majority_of_count {Q : Finset (Fin n)} (h : n / 2 + 1 ≤ Q.card) : Majority Q := by
  unfold Majority
  rw [Fintype.card_fin]
  omega

/-- A candidate with a majority of the votes is elected. -/
theorem NodeSim.elect (h : NodeSim P R V g i x) (m : Matching V.term Majority g)
    (hr : x.role = .candidate) (votes : n / 2 + 1 ≤ (voters g i x.currentTerm).card)
    (up : ∀ j, g.vote j x.currentTerm = some i →
      UpToDate V.term (g.ballot i x.currentTerm) (g.ballot j x.currentTerm)) :
    Steps V.term Majority P i g (g.elect i) ∧ (g.elect i).vote = g.vote ∧
      NodeSim P R V (g.elect i) i (becomeLeaderLocked x) := by
  obtain ⟨hopen, hvote, hballot, holder⟩ := h.runs hr
  have hmaj := majority_of_count votes
  have hmem : ∀ j ∈ voters g i x.currentTerm, g.vote j x.currentTerm = some i := by
    intro j hj
    simpa [voters] using hj
  have hnone : g.leader x.currentTerm = none := by
    cases hl : g.leader x.currentTerm with
    | none => rfl
    | some d =>
      obtain rfl := m.leader_unique Majority.meet hmaj hmem hl
      exact absurd hl hopen
  have st : Step V.term Majority P i g (g.elect i) := by
    refine .elect (voters g i x.currentTerm) hmaj ?_ ?_ ?_
    · rwa [h.term]
    · rwa [h.term]
    · intro j hj
      rw [h.term, ← hballot]
      exact ⟨hmem j hj, up j (hmem j hj)⟩
  have e := st.extends m
  have hled : (g.elect i).leader x.currentTerm = some i := elect_leader_self h.term
  have hlead : (g.elect i).lead x.currentTerm = g.log i := elect_lead_self h.term
  refine ⟨.single st, rfl, ?_⟩
  refine { h with
    leads := fun _ => ⟨hled, hlead⟩
    runs := fun hc => by cases hc
    led := fun t ht => ?_
    entries := fun k d hd => ?_
    store := ?_
    safe := fun hP => ?_ }
  · rcases (by simpa [becomeLeaderLocked, RaftNode.logEvent] using ht :
      Event.becomesLeader t ∈ x.eventLog ∨ t = x.currentTerm) with ht | rfl
    · exact (e.leader t i (h.led t ht)).1
    · exact hled
  · obtain ⟨h1, h2, h3⟩ := h.entries k d
      (by simpa [becomeLeaderLocked, RaftNode.logEvent] using hd)
    exact ⟨h1, h2, lead_getElem? e h3⟩
  · have happ : (becomeLeaderLocked x).applied = x.applied :=
      List.filterMap_append.trans (List.append_nil _)
    rw [happ]
    exact h.store
  · have hs := h.safe hP
    refine { hs with
      settled := hs.settled.extend e, slots := fun k d hd => ?_, reign := fun t ht => ?_
      matched := fun _ j p hp _ N h1 h2 => ?_ }
    · exact hs.slots k d (by simpa [becomeLeaderLocked, RaftNode.logEvent] using hd)
    · by_cases heq : t = x.currentTerm
      · exact Or.inr ⟨heq, rfl⟩
      · have hold : g.leader t = some i := by simpa [Ledger.elect, h.term, heq] using ht
        rcases hs.reign t hold with h1 | ⟨h1, -⟩
        · exact Or.inl h1
        · exact absurd h1 heq
    · obtain ⟨q, -, rfl⟩ := List.mem_map.mp hp
      have h3 : (N : ℤ) ≤ 0 := h2
      omega

theorem Roster.Lists.becomeLeader (h : R.Lists i x) : R.Lists i (becomeLeaderLocked x) := by
  have := h.map (f := fun p => { p with nextIndex := toInt32 x.logCount + 1, matchIndex := 0 })
    fun p => ⟨rfl, rfl, rfl⟩
  exact { this with }

/-! ### Starting an election -/

theorem voters_mono (e : Extends g g') (c : Fin n) (t : ℕ) : voters g c t ⊆ voters g' c t := by
  intro j hj
  simp only [voters, Finset.mem_filter, Finset.mem_univ, true_and] at hj ⊢
  exact (e.vote j t c hj).1

theorem Sim.votes_of_extends (h : Sim P R V g s) (e : Extends g g') {k : Fin n}
    (hk : (s.node k).role = .candidate) :
    (s.node k).votesReceived + grants R s.net k (s.node k).currentTerm ≤
      (voters g' k (s.node k).currentTerm).card :=
  (h.votes k hk).trans (Finset.card_le_card (voters_mono e k _))

/-- Nothing asks for a vote in a term that the candidate has not reached. -/
theorem Sim.asks_eq_zero (h : Sim P R V g s) {c : Fin n} {t : ℕ} (hlt : g.term c < t) (j : Fin n) :
    asks R s.net j c t = 0 := by
  simp only [asks, List.countP_eq_zero, Bool.and_eq_true, not_and]
  intro p hp _ hask
  obtain ⟨k, line, rfl, hline⟩ := h.lines p hp
  cases line with
  | rv t' c' li lt =>
    obtain ⟨-, d, hd, hvote, -⟩ := hline
    obtain ⟨rfl, hc⟩ : t' = t ∧ c' = R.id c := by simpa [Roster.packet, Line.asks] using hask
    obtain rfl := R.id_inj d c (hd.symm.trans hc)
    have := h.matching.voted d t' d hvote
    omega
  | _ => simp [Roster.packet, Line.asks] at hask

/-- Nothing grants a vote in a term that the candidate has not reached. -/
theorem Sim.grants_eq_zero (h : Sim P R V g s) {c : Fin n} {t : ℕ} (hlt : g.term c < t) :
    grants R s.net c t = 0 := by
  simp only [grants, List.countP_eq_zero, Bool.and_eq_true, not_and]
  intro p hp hto hgrant
  obtain ⟨k, line, rfl, hline⟩ := h.lines p hp
  rw [Roster.isTo_packet, decide_eq_true_eq] at hto
  subst hto
  cases line with
  | rvr t' v granted =>
    obtain ⟨rfl, hg⟩ : t' = t ∧ granted ≠ 0 := by simpa [Roster.packet, Line.grants] using hgrant
    have := hline.2 hg
    omega
  | _ => simp [Roster.packet, Line.grants] at hgrant

theorem asks_toAll (line : Line) (j c : Fin n) (t : ℕ) :
    asks R ((R.order i).map fun k => R.packet k line) j c t ≤
      if j ≠ i ∧ line.asks (R.id c) t = true then 1 else 0 := by
  have hcount : asks R ((R.order i).map fun k => R.packet k line) j c t ≤ (R.order i).count j := by
    rw [asks, List.countP_map, List.count]
    apply List.countP_mono_left
    intro k _ hk
    simp only [Function.comp, Roster.isTo_packet, Bool.and_eq_true, decide_eq_true_eq] at hk
    simp [hk.1]
  split
  · exact hcount.trans (List.nodup_iff_count_le_one.mp (R.nodup i) j)
  · rename_i hno
    by_cases hj : j = i
    · have : (R.order i).count j = 0 := List.count_eq_zero.mpr (by simp [R.mem_order, hj])
      omega
    · have hline : line.asks (R.id c) t = false := by
        simpa [hj] using hno
      simp [asks, Function.comp_def, Roster.packet, hline]

theorem grants_toAll {line : Line} (silent : ∀ t, line.grants t = false) (k : Fin n) (t : ℕ) :
    grants R ((R.order i).map fun j => R.packet j line) k t = 0 := by
  simp [grants, Function.comp_def, Roster.packet, silent]

/-- The requests of a new candidate are the first in their term. -/
theorem Sim.asked_toAll (h : Sim P R V g s) {T lastIndex lastTerm : ℕ} (hlt : g.term i < T)
    (fresh : ∀ j, j ≠ i → g'.vote j T ≠ some i)
    (asked : ∀ j c t, asks R s.net j c t ≤ if g'.vote j t = some c then 0 else 1)
    (j c : Fin n) (t : ℕ) :
    asks R (((R.order i).map fun k => R.packet k (.rv T (R.id i) lastIndex lastTerm)) ++ s.net)
      j c t ≤ if g'.vote j t = some c then 0 else 1 := by
  have hall := @asks_toAll n R i (.rv T (R.id i) lastIndex lastTerm) j c t
  have hnet := asked j c t
  rw [asks_append]
  by_cases hct : c = i ∧ t = T
  · obtain ⟨rfl, rfl⟩ := hct
    have hz := h.asks_eq_zero hlt j
    by_cases hj : j = c
    · rw [if_neg fun hne => hne.1 hj] at hall
      omega
    · rw [if_neg (fresh j hj)]
      split at hall <;> omega
  · have hline : (Line.rv T (R.id i) lastIndex lastTerm).asks (R.id c) t = false := by
      simp only [Line.asks, Bool.and_eq_false_iff, decide_eq_false_iff_not]
      by_contra hc
      push Not at hc
      exact hct ⟨(R.id_inj i c hc.2).symm, hc.1.symm⟩
    rw [hline] at hall
    simp only [Bool.false_eq_true, and_false, if_false] at hall
    omega

/-- What a candidate says of its log. -/
theorem NodeSim.request (h : NodeSim P R V g i x) (m : Matching V.term Majority g) {T : ℕ}
    (bound : T < 2 ^ 32) (j : Fin n) :
    LineSim P R V ((g.advance i T).cast i i) j
      (.rv T (R.id i) (lastLogIndexLocked x) (lastLogTermLocked x)) := by
  refine ⟨?_, i, rfl, by simp, ?_, ?_⟩
  · have h1 := R.id_lt i
    have h2 : lastLogIndexLocked x ≤ raftMaxLog := h.room
    have h3 : lastLogTermLocked x < 2 ^ 32 := by
      rw [lastLogTermLocked_eq h, Consensus.lastTerm]
      cases hlast : (g.log i).getLast? with
      | none => norm_num
      | some a =>
        have hterm := m.terms i a (List.mem_of_getLast? hlast)
        have hx := h.bound
        simp only [Option.map_some, Option.getD_some]
        rw [h.term] at hterm
        omega
    simp only [raftMaxLog] at h2
    intro k hk
    simp only [List.mem_cons, List.not_mem_nil, or_false] at hk
    omega
  · rw [lastLogIndexLocked_eq h]
    simp
  · rw [lastLogTermLocked_eq h]
    simp

theorem NodeSim.candidate (h : NodeSim P R V g i x) (l : R.Lists i x)
    (m : Matching V.term Majority g) (now : ℕ) (bound : x.currentTerm < 2 ^ 32 - 1) :
    NodeSim P R V ((g.advance i (x.currentTerm + 1)).cast i i) i (RaftKv.candidate now x) := by
  have hmod : (x.currentTerm + 1) % 2 ^ 32 = x.currentTerm + 1 := Nat.mod_eq_of_lt (by omega)
  have hlt : g.term i < x.currentTerm + 1 := by rw [h.term]; omega
  have hvoted : toInt32 x.id = R.id i := by rw [l.id, toInt32_id]
  rw [RaftKv.candidate, hmod, hvoted]
  refine { h with
    term := by simp
    bound := by simp only; omega
    vote := Or.inr ⟨i, rfl, by simp⟩
    leads := fun hr => by cases hr
    runs := fun _ => ⟨leader_ne_of_lt m hlt, by simp, by simp, ?_⟩
    safe := fun hP => ?_ }
  · intro a ha
    have := m.terms i a ha
    simp only
    omega
  · have hs := h.safe hP
    refine { hs with
      settled := ?_, reign := fun t ht => Or.inl ?_, matched := fun hr => by cases hr }
    · have heq : ((g.advance i (x.currentTerm + 1)).cast i i).term i = x.currentTerm + 1 := by
        simp
      rw [heq]
      exact hs.settled.later hlt.le
    · have := m.led t i ht
      simp only
      omega

theorem Sim.startElection (h : Sim P R V g s) (now : ℕ)
    (bound : (s.node i).currentTerm < 2 ^ 32 - 1) (hrest : ∀ sec ∈ rest, sec.Waiting n) :
    Simulated P R V g i s rest (startElection now (s.node i)) := by
  have hx := h.nodes i
  have hl := h.lists i
  generalize hT : (s.node i).currentTerm + 1 = T
  have hlt : g.term i < T := by rw [hx.term]; omega
  have hmod : ((s.node i).currentTerm + 1) % 2 ^ 32 = T := by
    rw [hT]
    exact Nat.mod_eq_of_lt (by omega)
  have hnone : ∀ j, g.vote j T ≠ some i := by
    intro j hv
    have h1 := (h.ballots j T i hv).1
    rw [vote_none_of_lt h.matching hlt] at h1
    cases h1
  have st : Steps V.term Majority P i g ((g.advance i T).cast i i) := by
    refine (steps_advance hlt.le).tail (.cast i ?_)
    rw [advance_term_self]
    exact vote_none_of_lt h.matching hlt
  have gr := h.grows st
  have hnode : NodeSim P R V ((g.advance i T).cast i i) i (candidate now (s.node i)) := by
    have := hx.candidate hl h.matching now bound
    rwa [hT] at this
  have hcl : R.Lists i (candidate now (s.node i)) := { hl with }
  have hcand : (candidate now (s.node i)).currentTerm = T := hmod
  -- the one new vote
  have hcast : ∀ j t c, ((g.advance i T).cast i i).vote j t = some c → g.vote j t = some c ∨
      (j = i ∧ t = T ∧ c = i) := by
    intro j t c hv
    simpa using cast_vote_cases hv
  have hballots : ∀ t c, ((g.advance i T).cast i i).vote i t = some c → g.vote i t = none →
      ((g.advance i T).cast i i).vote c t = some c ∧
        UpToDate V.term (((g.advance i T).cast i i).ballot c t)
          (((g.advance i T).cast i i).ballot i t) := by
    intro t c hv hn
    rcases hcast i t c hv with h1 | ⟨-, rfl, rfl⟩
    · rw [hn] at h1
      cases h1
    · exact ⟨hv, upToDate_refl _ _⟩
  have hself : i ∈ voters ((g.advance i T).cast i i) i T := by simp [voters]
  have hasked : ∀ j c t, asks R s.net j c t ≤
      if ((g.advance i T).cast i i).vote j t = some c then 0 else 1 := by
    intro j c t
    split
    · rename_i hv
      rcases hcast j t c hv with h1 | ⟨-, rfl, rfl⟩
      · have := h.asked j c t
        rwa [if_pos h1] at this
      · exact (h.asks_eq_zero hlt j).le
    · exact (h.asked j c t).trans (by split <;> omega)
  rw [startElection_eq]
  split
  · rename_i hmaj
    rw [Roster.majorityCount_eq hl, toInt32_of_lt (by norm_num)] at hmaj
    obtain ⟨st', hsame, hlead⟩ := hnode.elect gr.matching rfl
      (by rw [hcand]; have := Finset.card_pos.mpr ⟨i, hself⟩; omega)
      (by
        rw [hcand]
        intro j hj
        rcases hcast j T i hj with h1 | ⟨rfl, -, -⟩
        · exact absurd h1 (hnone j)
        · exact upToDate_refl _ _)
    have gr' := h.grows (st.trans st')
    refine ⟨_, st.trans st', ?_, fun _ => .of_eq rfl rfl⟩
    refine h.update gr' { hcl.becomeLeader with } (hlead.logEvent (by simp) (by simp)) hballots (fun k hk => ?_) hasked (by simp) ?_
    · by_cases hki : k = i
      · subst hki
        rw [update_self] at hk
        cases hk
      · rw [update_of_ne hki] at hk ⊢
        exact h.votes_of_extends gr'.continues hk
    · intro sec hsec
      rcases List.mem_cons.mp hsec with rfl | hsec
      · trivial
      · exact hrest sec hsec
  · refine ⟨_, st, ?_, fun _ => .of_eq rfl rfl⟩
    rw [Roster.sendToAll_eq hl, hmod, hl.id]
    refine h.update gr { hcl with } (hnode.logEvent (by simp) (by simp)) hballots (fun k hk => ?_) (h.asked_toAll hlt ?_ hasked)
      (fun p hp => ?_) hrest
    · rw [grants_append, grants_toAll fun _ => rfl, Nat.zero_add]
      by_cases hki : k = i
      · subst hki
        rw [update_self]
        change 1 + grants R s.net k (candidate now (s.node k)).currentTerm ≤
          (voters _ k (candidate now (s.node k)).currentTerm).card
        rw [hcand, h.grants_eq_zero hlt]
        exact Finset.card_pos.mpr ⟨k, hself⟩
      · rw [update_of_ne hki] at hk ⊢
        exact h.votes_of_extends gr.continues hk
    · intro j hj hv
      rcases hcast j T i hv with h1 | ⟨h1, -⟩
      · exact hnone j h1
      · exact hj h1
    · obtain ⟨j, -, rfl⟩ := List.mem_map.mp hp
      exact ⟨j, _, rfl, hx.request h.matching (by omega) j⟩

/-! ### Voting -/

/-- What a node has become when it answers a line of term `t`. -/
theorem Sim.observe (h : Sim P R V g s) (now : ℕ) {t : ℕ} (bound : t < 2 ^ 32) {x1 : RaftNode}
    (hx1 : (if (s.node i).currentTerm < t then becomeFollowerLocked now (s.node i) t (-1)
      else s.node i) = x1) :
    ∃ g1, Steps V.term Majority P i g g1 ∧ NodeSim P R V g1 i x1 ∧ R.Lists i x1 ∧
      g1.vote = g.vote ∧ g1.log = g.log ∧ (x1.role = .candidate → x1 = s.node i) ∧
      Keeps (s.node i) x1 := by
  have hx := h.nodes i
  split at hx1
  · rename_i hlt
    have hterm : g.term i < t := hx.term ▸ hlt
    subst hx1
    refine ⟨_, steps_advance hterm.le, ?_, (h.lists i).follow now t (-1), rfl, rfl, ?_,
      .follow _ now t (-1)⟩
    · exact hx.follow h.matching (-1) hlt.le bound fun _ => leader_ne_of_lt h.matching hterm
    · rw [becomeFollowerLocked_of_lt hlt]
      intro hr
      cases hr
  · subst hx1
    exact ⟨g, .refl, hx, h.lists i, rfl, rfl, fun _ => rfl, .of_eq rfl rfl⟩

/-- Two ids whose votes are stored alike are one member's. -/
theorem vote_eq_of_votedFor (h : NodeSim P R V g i x) {c : Fin n}
    (hv : x.votedFor < 0 ∨ x.votedFor = toInt32 (R.id c)) :
    g.vote i x.currentTerm = none ∨ g.vote i x.currentTerm = some c := by
  rcases h.vote with ⟨-, h1⟩ | ⟨d, h1, h2⟩
  · exact Or.inl h1
  · rw [h1, toInt32_id] at hv
    have hid : R.id d = R.id c := by omega
    rw [h2, R.id_inj d c hid]
    exact Or.inr rfl

theorem grants_reply {c d : Fin n} {t t' v granted : ℕ} (hne : ¬(d = c ∧ t' = t)) :
    grants R [R.packet d (.rvr t' v granted)] c t = 0 := by
  rw [grants, List.countP_eq_zero]
  intro p hp
  obtain rfl := List.mem_singleton.mp hp
  rw [Roster.isTo_packet]
  simp only [Roster.packet, Line.grants, Bool.and_eq_true, decide_eq_true_eq]
  tauto

/-- A line to a peer goes to the member with its id. -/
theorem mem_sendToPeer (hl : R.Lists i x) {c : Fin n} {line : Line} {p : Packet}
    (hp : p ∈ sendToPeer x (R.id c) line) : p = R.packet c line := by
  rcases Roster.sendToPeer_eq hl (R.id c) line with h1 | ⟨d, -, hd, h1⟩
  · rw [h1] at hp
    cases hp
  · obtain rfl := R.id_inj c d hd
    rw [h1] at hp
    exact List.mem_singleton.mp hp

/-- The numbers of a reply fit. -/
theorem fits_reply {t k : ℕ} (hl : R.Lists i x) (ht : t < 2 ^ 32) (hk : k ≤ 1) :
    Fits [t, x.id, k] := by
  have h1 := R.id_lt i
  have h2 := hl.id
  intro k hk
  simp only [List.mem_cons, List.not_mem_nil, or_false] at hk
  omega

/-- A granted request casts the vote. -/
theorem Sim.grant (h : Sim P R V g s) {t : ℕ} {c : Fin n} {g1 : Ledger (Fin n) α}
    (st : Steps V.term Majority P i g g1) (hvote : g1.vote = g.vote) (hterm : g1.term i = t)
    (node : NodeSim P R V (g1.cast i c) i x) (hl : R.Lists i x) (idle : x.role ≠ .candidate)
    (free : g1.vote i t = none) (self : g.vote c t = some c)
    (up : UpToDate V.term (g.ballot c t) (g1.log i)) (unasked : asks R s.net i c t = 0)
    (keeps : Keeps (s.node i) x) (hrest : ∀ sec ∈ rest, sec.Waiting n) :
    Simulated P R V g i s rest
      { node := x, sends := sendToPeer x (R.id c) (.rvr x.currentTerm x.id 1) } := by
  have st' : Steps V.term Majority P i g (g1.cast i c) :=
    st.tail (.cast c (by rw [hterm]; exact free))
  have gr := h.grows st'
  have current : x.currentTerm = t := by rw [← node.term, cast_term, hterm]
  have hcast : ∀ j u d, (g1.cast i c).vote j u = some d →
      g.vote j u = some d ∨ (j = i ∧ u = t ∧ d = c) := by
    intro j u d hv
    rw [← hvote, ← hterm]
    exact cast_vote_cases hv
  have hnew : i ∈ voters (g1.cast i c) c t := by simp [voters, hterm]
  have hold : i ∉ voters g c t := by simp [voters, ← hvote, free]
  refine ⟨_, st', ?_, fun _ => keeps⟩
  refine h.update gr hl node (fun u d h1 h2 => ?_) (fun m hm => ?_) (fun j d u => ?_)
    (fun p hp => ?_) hrest
  · rcases hcast i u d h1 with h3 | ⟨-, rfl, rfl⟩
    · rw [h2] at h3
      cases h3
    · obtain ⟨h4, h5⟩ := gr.continues.vote _ _ _ self
      refine ⟨h4, ?_⟩
      rwa [h5, cast_ballot_self hterm]
  · have hmi : m ≠ i := by
      rintro rfl
      rw [update_self] at hm
      exact idle hm
    rw [update_of_ne hmi] at hm ⊢
    rw [grants_append]
    dsimp only
    have hle := h.votes_of_extends gr.continues hm
    have hsome : grants R (sendToPeer x (R.id c) (.rvr x.currentTerm x.id 1)) m
        (s.node m).currentTerm ≤ if c = m ∧ t = (s.node m).currentTerm then 1 else 0 := by
      rcases Roster.sendToPeer_eq hl (R.id c) (.rvr x.currentTerm x.id 1) with h1 | ⟨d, -, hd, h1⟩
      · rw [h1]
        exact Nat.zero_le _
      · obtain rfl := R.id_inj c d hd
        rw [h1, current]
        split
        · exact List.countP_le_length
        · rename_i hne
          exact (grants_reply hne).le
    split at hsome
    · rename_i hcm
      obtain ⟨rfl, hterm'⟩ := hcm
      have hsub : voters g c (s.node c).currentTerm ⊂ voters (g1.cast i c) c
          (s.node c).currentTerm := by
        rw [← hterm']
        exact (Finset.ssubset_iff_of_subset (voters_mono gr.continues c _)).mpr ⟨i, hnew, hold⟩
      have hlt := Finset.card_lt_card hsub
      have hle' := h.votes c hm
      omega
    · omega
  · have hsends : asks R (sendToPeer x (R.id c) (.rvr x.currentTerm x.id 1)) j d u = 0 := by
      simp only [asks, List.countP_eq_zero]
      intro p hp
      rw [mem_sendToPeer hl hp]
      simp [Roster.packet, Line.asks]
    rw [asks_append, hsends, Nat.zero_add]
    split
    · rename_i hv
      rcases hcast j u d hv with h1 | ⟨rfl, rfl, rfl⟩
      · have := h.asked j d u
        rwa [if_pos h1] at this
      · exact unasked.le
    · exact (h.asked j d u).trans (by split <;> omega)
  · refine ⟨c, _, mem_sendToPeer hl hp, fits_reply hl node.bound le_rfl, fun _ => ?_⟩
    rw [current]
    exact (h.matching.voted c _ c self).trans (gr.continues.term c)

/-- A node that answers a line, without granting a vote. -/
theorem Sim.reply (h : Sim P R V g s) {c : Fin n} {line : Line} {g1 : Ledger (Fin n) α}
    (st : Steps V.term Majority P i g g1) (hvote : g1.vote = g.vote)
    (node : NodeSim P R V g1 i x) (hl : R.Lists i x)
    (votes : x.role = .candidate →
      x.votesReceived + grants R s.net i x.currentTerm ≤ (voters g i x.currentTerm).card)
    (keeps : P → Keeps (s.node i) x) (hrest : ∀ sec ∈ rest, sec.Waiting n)
    (quiet : ∀ t, line.grants t = false ∧ ∀ id, line.asks id t = false)
    (hline : LineSim P R V g1 c line) :
    Simulated P R V g i s rest { node := x, sends := sendToPeer x (R.id c) line } := by
  refine ⟨g1, st, ?_, keeps⟩
  refine h.update_quiet (h.grows st) hl node hvote votes (fun p hp => ?_) (fun p hp => ?_) hrest
  · rw [mem_sendToPeer hl hp]
    exact quiet
  · exact ⟨c, _, mem_sendToPeer hl hp, hline⟩

/-- `handle_request_vote` after it has looked at the term. -/
theorem Sim.handleRequestVote (h : Sim P R V g s) (now : ℕ) {t li lt : ℕ} {c : Fin n}
    (bound : t < 2 ^ 32) (self : g.vote c t = some c) (index : li = (g.ballot c t).length)
    (last : lt = Consensus.lastTerm V.term (g.ballot c t)) (fresh : g.vote i t ≠ some c)
    (unasked : asks R s.net i c t = 0) (hrest : ∀ sec ∈ rest, sec.Waiting n) :
    Simulated P R V g i s rest (handleRequestVote now (s.node i) t (R.id c) li lt) := by
  generalize hx : (if (s.node i).currentTerm < t then becomeFollowerLocked now (s.node i) t (-1)
      else s.node i) = x1
  obtain ⟨g1, st, hx1, hl, hvote, hlog, hrole, keeps⟩ := h.observe now bound hx
  rw [handleRequestVote_eq hx, toInt32_id]
  split
  · rename_i hgrant
    simp only [grantsVote, Bool.and_eq_true, Bool.or_eq_true, decide_eq_true_eq] at hgrant
    obtain ⟨⟨rfl, hfree⟩, hlast⟩ := hgrant
    have free : g1.vote i x1.currentTerm = none := by
      rcases vote_eq_of_votedFor hx1 hfree with h1 | h1
      · exact h1
      · rw [hvote] at h1
        exact absurd h1 fresh
    have idle : x1.role ≠ .candidate := by
      intro hr
      have := (hx1.runs hr).vote
      rw [free] at this
      cases this
    have node : NodeSim P R V (g1.cast i c) i
        { x1 with votedFor := R.id c, lastLeaderContactMs := now } :=
      { hx1 with
        vote := Or.inr ⟨c, rfl, by simp [hx1.term]⟩
        runs := fun hr => absurd hr idle
        safe := fun hP => { hx1.safe hP with } }
    refine h.grant st hvote hx1.term (node.logEvent (by simp) (by simp)) { hl with } idle free self
      ?_ unasked ⟨keeps.commit, keeps.log⟩ hrest
    rw [UpToDate, ← index, ← last, ← lastLogTermLocked_eq hx1, ← lastLogIndexLocked_eq hx1]
    exact hlast.imp id fun h6 => ⟨h6.1.symm, h6.2⟩
  · refine h.reply st hvote (hx1.logEvent (by simp) (by simp)) { hl with } (fun hr => ?_)
      (fun _ => ⟨keeps.commit, keeps.log⟩) hrest (fun t => ⟨by simp [Line.grants], fun id => rfl⟩)
      ⟨fits_reply (x := x1) hl hx1.bound zero_le_one, fun hg => absurd rfl hg⟩
    have hr' : x1.role = .candidate := hr
    have heq := hrole hr'
    subst heq
    exact h.votes i hr'

/-! ### Counting votes -/

theorem card_voters_le (g : Ledger (Fin n) α) (c : Fin n) (t : ℕ) : (voters g c t).card ≤ n := by
  simpa using Finset.card_le_univ (voters g c t)

theorem Sim.stay (h : Sim P R V g s) (hrest : ∀ sec ∈ rest, sec.Waiting n) :
    Simulated P R V g i s rest { node := s.node i } :=
  ⟨g, .refl, h.update_quiet (h.grows .refl) (h.lists i) (h.nodes i) rfl (h.votes i) (by simp)
    (by simp) hrest, fun _ => .of_eq rfl rfl⟩

theorem Sim.handleRequestVoteResponse (h : Sim P R V g s) (now : ℕ) {t granted : ℕ}
    (bound : t < 2 ^ 32)
    (count : granted ≠ 0 → (s.node i).role = .candidate → t = (s.node i).currentTerm →
      (s.node i).votesReceived + 1 + grants R s.net i t ≤ (voters g i t).card)
    (hrest : ∀ sec ∈ rest, sec.Waiting n) :
    Simulated P R V g i s rest (handleRequestVoteResponse now (s.node i) t granted) := by
  have hx := h.nodes i
  have hl := h.lists i
  -- the count of a candidate does not wrap
  have counted : (s.node i).role = .candidate ∧ t = (s.node i).currentTerm ∧ granted ≠ 0 →
      (s.node i).votesReceived + 1 + grants R s.net i t ≤ (voters g i t).card ∧
        ((s.node i).votesReceived + 1) % 2 ^ 32 = (s.node i).votesReceived + 1 ∧
        (s.node i).votesReceived + 1 < 2 ^ 31 := by
    rintro ⟨hr, rfl, hg⟩
    have hcount := count hg hr rfl
    have hsize := (card_voters_le g i (s.node i).currentTerm).trans (R.size_le i)
    simp only [raftMaxPeers] at hsize
    exact ⟨hcount, Nat.mod_eq_of_lt (by omega), by omega⟩
  have hnode : NodeSim P R V g i
      { s.node i with votesReceived := (s.node i).votesReceived + 1 } :=
    { hx with safe := fun hP => { hx.safe hP with } }
  generalize he : RaftKv.handleRequestVoteResponse now (s.node i) t granted = e
  cases voteResponse he with
  | observes newer => exact h.stepDown newer bound hrest
  | ignores => exact h.stay hrest
  | counts hcond =>
    obtain ⟨hcount, hmod, -⟩ := counted hcond
    obtain ⟨-, rfl, -⟩ := hcond
    rw [hmod]
    refine ⟨g, .refl, ?_, fun _ => .of_eq rfl rfl⟩
    refine h.update_quiet (h.grows .refl) { hl with } hnode rfl (fun _ => ?_) (by simp)
      (by simp) hrest
    exact hcount
  | wins hcond enough =>
    obtain ⟨hcount, hmod, hlt⟩ := counted hcond
    obtain ⟨hr, rfl, -⟩ := hcond
    rw [hmod, toInt32_of_lt hlt, Roster.majorityCount_eq hl] at enough
    rw [hmod]
    obtain ⟨st, hsame, hlead⟩ := hnode.elect h.matching hr (by dsimp only; omega)
      fun j hj => (h.ballots j _ i hj).2
    refine ⟨_, st, ?_, fun _ => .of_eq rfl rfl⟩
    refine h.update_quiet (h.grows st) (Roster.Lists.becomeLeader { hl with }) hlead hsame
      (fun hc => by cases hc) (by simp) (by simp) ?_
    intro sec hsec
    rcases List.mem_cons.mp hsec with rfl | hsec
    · trivial
    · exact hrest sec hsec

end RaftKv
