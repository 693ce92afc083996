import RaftKv.Consensus.Completeness
import RaftKv.Refine.Roster
import RaftKv.Refine.View
import RaftKv.Outcomes

/-! The relation between a cluster and the history of its log.  `Sim` says what the nodes, the lines
on their way and the threads have to do with the terms, votes, logs and leaders of a `Ledger`.  With
`P`, it also says what holds when members copy only from the leader of their term. -/

namespace RaftKv

open Consensus Consensus.Ledger Function

variable {n : ℕ} {α : Type} (P : Prop) (R : Roster n) (V : View α) (g : Ledger (Fin n) α)

/-- The members that voted for `c` in term `t`. -/
def voters (c : Fin n) (t : ℕ) : Finset (Fin n) := {j | g.vote j t = some c}

/-- `i` has voted for itself in term `t`, with the log it still has. -/
structure Candidacy (i : Fin n) (t : ℕ) : Prop where
  open_ : g.leader t ≠ some i
  vote : g.vote i t = some i
  ballot : g.ballot i t = g.log i
  older : ∀ a ∈ g.log i, V.term a < t

structure NodeSafe (i : Fin n) (x : RaftNode) : Prop where
  commit_le : x.commitIndex ≤ x.log.length
  settled : Settled Majority V.term g (g.term i) ((g.log i).take x.commitIndex)
  applied_le : x.lastApplied ≤ x.commitIndex
  store : x.store = replay KvStore.zero (x.log.take x.lastApplied)
  slots : ∀ k e, Event.applied k e ∈ x.eventLog → k ≤ x.lastApplied ∧ x.log[k - 1]? = some e
  reign : ∀ t, g.leader t = some i → t < x.currentTerm ∨ (t = x.currentTerm ∧ x.role = .leader)
  matched : x.role = .leader → ∀ j, ∀ p ∈ x.peers, p.id = R.id j →
    ∀ N : ℕ, 1 ≤ N → (N : ℤ) ≤ p.matchIndex → N ∈ g.held j x.currentTerm

structure NodeSim (i : Fin n) (x : RaftNode) : Prop where
  indexed : Indexed x.log
  room : x.log.length ≤ raftMaxLog
  clean : ∀ e ∈ x.log, V.clean e.op e.key e.value
  term : g.term i = x.currentTerm
  bound : x.currentTerm < 2 ^ 32
  log : g.log i = x.log.map V.view
  vote : (x.votedFor = -1 ∧ g.vote i x.currentTerm = none) ∨
    ∃ c, x.votedFor = R.id c ∧ g.vote i x.currentTerm = some c
  leads : x.role = .leader → g.leader x.currentTerm = some i ∧ g.lead x.currentTerm = g.log i
  runs : x.role = .candidate → Candidacy V g i x.currentTerm
  commit : x.commitIndex ≤ raftMaxLog
  led : ∀ t, Event.becomesLeader t ∈ x.eventLog → g.leader t = some i
  entries : ∀ k e, Event.applied k e ∈ x.eventLog →
    e.index = k ∧ 1 ≤ k ∧ (g.lead e.term)[k - 1]? = some (V.view e)
  store : x.store = replay KvStore.zero x.applied
  safe : P → NodeSafe R V g i x

/-- The line's entry, after position `prev`, ends the log `w`. -/
structure Appends (t prev prevTerm : ℕ) (entry : Option RaftLogEntry) (w : List α) : Prop where
  rooted : Rooted V.term g.lead w
  terms : ∀ a ∈ w, V.term a ≤ t
  length : w.length = prev + entry.toList.length
  room : w.length ≤ raftMaxLog
  before : 0 < prev → w[prev - 1]?.map V.term = some prevTerm
  last : ∀ e ∈ entry, e.index = prev + 1 ∧ w[prev]? = some (V.view e) ∧
    V.clean e.op e.key e.value

/-- The leader `l` of term `t` has the log `w`, and its log up to `leaderCommit` is settled. -/
structure Backed (j l : Fin n) (t leaderCommit : ℕ) (w : List α) : Prop where
  leader : g.leader t = some l
  other : j ≠ l
  part : w <+: g.lead t
  reach : leaderCommit ≤ (g.lead t).length
  settled : Settled Majority V.term g t ((g.lead t).take leaderCommit)
  stays : (g.lead t).take leaderCommit <+: g.log l

/-- What a line on its way to `j` says. -/
def LineSim (j : Fin n) : Line → Prop
  | .rv term candidateId lastIndex lastTerm =>
    Fits [term, candidateId, lastIndex, lastTerm] ∧
      ∃ c, candidateId = R.id c ∧ g.vote c term = some c ∧
        lastIndex = (g.ballot c term).length ∧
        lastTerm = Consensus.lastTerm V.term (g.ballot c term)
  | .rvr term voterId granted =>
    Fits [term, voterId, granted] ∧ (granted ≠ 0 → term ≤ g.term j)
  | .ae term leaderId prevIndex prevTerm leaderCommit entry =>
    Fits [term, leaderId, prevIndex, prevTerm, leaderCommit] ∧
      ∃ l w, leaderId = R.id l ∧ Appends V g term prevIndex prevTerm entry w ∧
        (P → Backed V g j l term leaderCommit w)
  | .aer term peerId success matchIndex =>
    Fits [term, peerId, success] ∧ matchIndex ≤ raftMaxLog ∧ ∃ i, peerId = R.id i ∧
      (P → success ≠ 0 → term < g.term j ∨ ∀ N, 1 ≤ N → N ≤ matchIndex → N ∈ g.held i term)
  | .cl sourceId op key value => sourceId < 2 ^ 32 ∧ V.clean op key value
  | _ => False

/-- A line grants a vote in term `t`. -/
def Line.grants (t : ℕ) : Line → Bool
  | .rvr term _ granted => term = t && granted ≠ 0
  | _ => false

/-- A line asks for a vote for `candidateId` in term `t`. -/
def Line.asks (id t : ℕ) : Line → Bool
  | .rv term candidateId _ _ => term = t && candidateId = id
  | _ => false

/-- The votes on their way to `c` in term `t`. -/
def grants (net : List Packet) (c : Fin n) (t : ℕ) : ℕ :=
  net.countP fun p => R.isTo c p && p.line.grants t

/-- The requests for a vote for `c` on their way to `j` in term `t`. -/
def asks (net : List Packet) (j c : Fin n) (t : ℕ) : ℕ :=
  net.countP fun p => R.isTo j p && p.line.asks (R.id c) t

/-- The sections that a thread may have left to enter. -/
def Section.Waiting (n : ℕ) : Section → Prop
  | .tickerLoop _ | .tickerMark | .startElection | .broadcastAppend | .sendAppendToPeer _
  | .submitPeerless => True
  | .submitCommit => n = 1
  | _ => False

structure Sim (s : Cluster n) : Prop where
  lists : ∀ i, R.Lists i (s.node i)
  matching : Matching V.term Majority g
  complete : P → Complete V.term Majority g
  ballots : ∀ j t c, g.vote j t = some c →
    g.vote c t = some c ∧ UpToDate V.term (g.ballot c t) (g.ballot j t)
  nodes : ∀ i, NodeSim P R V g i (s.node i)
  votes : ∀ i, (s.node i).role = .candidate →
    (s.node i).votesReceived + grants R s.net i (s.node i).currentTerm ≤
      (voters g i (s.node i).currentTerm).card
  asked : ∀ j c t, asks R s.net j c t ≤ if g.vote j t = some c then 0 else 1
  lines : ∀ p ∈ s.net, ∃ j line, p = R.packet j line ∧ LineSim P R V g j line
  threads : ∀ th ∈ s.threads, ∀ sec ∈ th.2, sec.Waiting n

/-- What events at member `i` do to a history. -/
structure Grows (i : Fin n) (g g' : Ledger (Fin n) α) : Prop where
  continues : Extends g g'
  loc : Local i g g'
  matching : Matching V.term Majority g'
  complete : P → Complete V.term Majority g'
  stays : P → ∀ {T p j}, Settled Majority V.term g T p → T ≤ g.term j → p <+: g.log j →
    p <+: g'.log j

variable {P R V g} {g' : Ledger (Fin n) α} {i j : Fin n} {x : RaftNode} {s : Cluster n}

theorem Sim.grows (h : Sim P R V g s) (st : Steps V.term Majority P i g g') : Grows P V i g g' := by
  obtain ⟨e, l, m⟩ := h.matching.steps st
  refine ⟨e, l, m, fun hP => ?_, fun hP => ?_⟩
  · exact (h.complete hP).steps h.matching (eq_true hP ▸ st)
  · exact (h.complete hP).stays h.matching Majority.meet (eq_true hP ▸ st)

/-! ### Members that take no part in an event -/

theorem NodeSafe.frame (h : NodeSafe R V g j x) (gr : Grows P V i g g') (hj : j ≠ i) :
    NodeSafe R V g' j x where
  commit_le := h.commit_le
  settled := by
    rw [gr.loc.term j hj, gr.loc.log j hj]
    exact h.settled.extend gr.continues
  applied_le := h.applied_le
  store := h.store
  slots := h.slots
  reign t ht := h.reign t (gr.loc.leader t j hj ht)
  matched hr k p hp hid N hN hle := gr.continues.held k _ (h.matched hr k p hp hid N hN hle)

theorem lead_getElem? (e : Extends g g') {t k : ℕ} {a : α} (h : (g.lead t)[k]? = some a) :
    (g'.lead t)[k]? = some a := by
  obtain ⟨s, hs⟩ := e.lead t
  rw [← hs, List.getElem?_append_left (List.getElem?_eq_some_iff.mp h).1, h]

theorem NodeSim.frame (h : NodeSim P R V g j x) (gr : Grows P V i g g') (hj : j ≠ i) :
    NodeSim P R V g' j x where
  indexed := h.indexed
  room := h.room
  clean := h.clean
  term := (gr.loc.term j hj).trans h.term
  bound := h.bound
  log := (gr.loc.log j hj).trans h.log
  vote := by
    rw [gr.loc.vote j hj]
    exact h.vote
  leads hr := by
    obtain ⟨h1, h2⟩ := h.leads hr
    rw [gr.loc.log j hj, gr.loc.lead _ j hj h1]
    exact ⟨(gr.continues.leader _ _ h1).1, h2⟩
  runs hr := by
    obtain ⟨h1, h2, h3, h4⟩ := h.runs hr
    refine ⟨fun hl => h1 (gr.loc.leader _ j hj hl), ?_, ?_, ?_⟩
    · rwa [gr.loc.vote j hj]
    · rwa [gr.loc.ballot j hj, gr.loc.log j hj]
    · rwa [gr.loc.log j hj]
  commit := h.commit
  led t ht := (gr.continues.leader t j (h.led t ht)).1
  entries k e he := by
    obtain ⟨h1, h2, h3⟩ := h.entries k e he
    exact ⟨h1, h2, lead_getElem? gr.continues h3⟩
  store := h.store
  safe hP := (h.safe hP).frame gr hj

theorem Appends.extend {t prev prevTerm : ℕ} {entry : Option RaftLogEntry} {w : List α}
    (h : Appends V g t prev prevTerm entry w) (e : Extends g g') :
    Appends V g' t prev prevTerm entry w :=
  { h with rooted := h.rooted.mono e.lead }

theorem Backed.extend {l : Fin n} {t leaderCommit : ℕ} {w : List α} (hP : P)
    (h : Backed V g j l t leaderCommit w) (m : Matching V.term Majority g)
    (gr : Grows P V i g g') : Backed V g' j l t leaderCommit w where
  leader := (gr.continues.leader t l h.leader).1
  other := h.other
  part := h.part.trans (gr.continues.lead t)
  reach := h.reach.trans (gr.continues.lead t).length_le
  settled := by
    rw [gr.continues.take_lead h.reach]
    exact h.settled.extend gr.continues
  stays := by
    rw [gr.continues.take_lead h.reach]
    exact gr.stays hP h.settled (m.led t l h.leader) h.stays

theorem LineSim.ae_fits {t l p pt lc : ℕ} {entry : RaftLogEntry}
    (h : LineSim P R V g j (.ae t l p pt lc (some entry))) :
    Fits [t, l, p, pt, lc, 1, entry.index, entry.term] := by
  obtain ⟨hfit, d, w, -, hw, -⟩ := h
  obtain ⟨hindex, hget, -⟩ := hw.last entry rfl
  have hlen : w.length = p + 1 := hw.length
  have hroom := hw.room
  have hterm : entry.term ≤ t := by
    have := hw.terms _ (List.mem_of_getElem? hget)
    rwa [V.term_view] at this
  have ht := hfit t (by simp)
  simp only [raftMaxLog] at hroom
  simp only [Fits, List.forall_mem_cons, List.not_mem_nil, false_implies, implies_true,
    and_true] at hfit ⊢
  omega

theorem LineSim.aer_fits {t f success m : ℕ} (h : LineSim P R V g j (.aer t f success m)) :
    Fits [t, f, success, m] := by
  obtain ⟨hfit, hroom, -⟩ := h
  have hmax : raftMaxLog < 2 ^ 32 := by decide
  simp only [Fits, List.forall_mem_cons, List.not_mem_nil, false_imp_iff, implies_true,
    and_true] at hfit ⊢
  exact ⟨hfit.1, hfit.2.1, hfit.2.2, hroom.trans_lt hmax⟩

theorem LineSim.extend {line : Line} (h : LineSim P R V g j line)
    (m : Matching V.term Majority g) (gr : Grows P V i g g') : LineSim P R V g' j line := by
  cases line with
  | rv t c li lt =>
    obtain ⟨hf, d, hd, hv, hli, hlt⟩ := h
    obtain ⟨h1, h2⟩ := gr.continues.vote d t d hv
    exact ⟨hf, d, hd, h1, by rw [h2]; exact hli, by rw [h2]; exact hlt⟩
  | rvr t v granted =>
    exact ⟨h.1, fun hg => (h.2 hg).trans (gr.continues.term j)⟩
  | ae t l p pt lc e =>
    obtain ⟨hf, d, w, hd, hw, hP⟩ := h
    exact ⟨hf, d, w, hd, hw.extend gr.continues, fun hp => (hP hp).extend hp m gr⟩
  | aer t f success k =>
    obtain ⟨hf, hk, d, hd, hP⟩ := h
    refine ⟨hf, hk, d, hd, fun hp hs => ?_⟩
    rcases hP hp hs with h1 | h1
    · exact Or.inl (h1.trans_le (gr.continues.term j))
    · exact Or.inr fun N h2 h3 => gr.continues.held d t (h1 N h2 h3)
  | cl src op key value => exact h
  | join _ _ _ | peer _ _ _ | leave _ => exact h.elim

/-! ### The cluster after one section -/

theorem grants_append (a b : List Packet) (c : Fin n) (t : ℕ) :
    grants R (a ++ b) c t = grants R a c t + grants R b c t := List.countP_append

theorem asks_append (a b : List Packet) (j c : Fin n) (t : ℕ) :
    asks R (a ++ b) j c t = asks R a j c t + asks R b j c t := List.countP_append

/-- The invariant after node `i` has become `x'`, started a thread and sent some lines, while the
history has gone on at member `i`. -/
theorem Sim.update (h : Sim P R V g s) (gr : Grows P V i g g') {x' : RaftNode}
    {secs : List Section} {sends : List Packet} (lists : R.Lists i x')
    (node : NodeSim P R V g' i x')
    (ballots : ∀ t c, g'.vote i t = some c → g.vote i t = none →
      g'.vote c t = some c ∧ UpToDate V.term (g'.ballot c t) (g'.ballot i t))
    (votes : ∀ k, (Function.update s.node i x' k).role = .candidate →
      (Function.update s.node i x' k).votesReceived +
        grants R (sends ++ s.net) k (Function.update s.node i x' k).currentTerm ≤
          (voters g' k (Function.update s.node i x' k).currentTerm).card)
    (asked : ∀ j c t, asks R (sends ++ s.net) j c t ≤ if g'.vote j t = some c then 0 else 1)
    (lines : ∀ p ∈ sends, ∃ j line, p = R.packet j line ∧ LineSim P R V g' j line)
    (threads : ∀ sec ∈ secs, sec.Waiting n) :
    Sim P R V g' ⟨Function.update s.node i x', (i, secs) :: s.threads, sends ++ s.net⟩ where
  lists j := by
    by_cases hj : j = i
    · subst hj
      simpa using lists
    · simpa [hj] using h.lists j
  matching := gr.matching
  complete := gr.complete
  ballots j t c hv := by
    have old : g.vote j t = some c →
        g'.vote c t = some c ∧ UpToDate V.term (g'.ballot c t) (g'.ballot j t) := by
      intro hv
      obtain ⟨h1, h2⟩ := h.ballots j t c hv
      obtain ⟨h3, h4⟩ := gr.continues.vote c t c h1
      rw [h4, (gr.continues.vote j t c hv).2]
      exact ⟨h3, h2⟩
    by_cases hj : j = i
    · subst hj
      cases hg : g.vote j t with
      | none => exact ballots t c hv hg
      | some d =>
        obtain rfl : d = c := Option.some.inj ((gr.continues.vote j t d hg).1.symm.trans hv)
        exact old hg
    · rw [gr.loc.vote j hj] at hv
      exact old hv
  nodes j := by
    by_cases hj : j = i
    · subst hj
      simpa using node
    · simpa [hj] using (h.nodes j).frame gr hj
  votes := votes
  asked := asked
  lines p hp := by
    rcases List.mem_append.mp hp with hp | hp
    · exact lines p hp
    · obtain ⟨j, line, h1, h2⟩ := h.lines p hp
      exact ⟨j, line, h1, h2.extend h.matching gr⟩
  threads th hth sec hsec := by
    rcases List.mem_cons.mp hth with rfl | hth
    · exact threads sec hsec
    · exact h.threads th hth sec hsec

/-- `Sim.update` for a section that neither votes nor asks for votes. -/
theorem Sim.update_quiet (h : Sim P R V g s) (gr : Grows P V i g g') {x' : RaftNode}
    {secs : List Section} {sends : List Packet} (lists : R.Lists i x')
    (node : NodeSim P R V g' i x') (same : g'.vote = g.vote)
    (votes : x'.role = .candidate →
      x'.votesReceived + grants R s.net i x'.currentTerm ≤ (voters g i x'.currentTerm).card)
    (quiet : ∀ p ∈ sends, ∀ t, p.line.grants t = false ∧ ∀ id, p.line.asks id t = false)
    (lines : ∀ p ∈ sends, ∃ j line, p = R.packet j line ∧ LineSim P R V g' j line)
    (threads : ∀ sec ∈ secs, sec.Waiting n) :
    Sim P R V g' ⟨Function.update s.node i x', (i, secs) :: s.threads, sends ++ s.net⟩ := by
  have noGrants : ∀ c t, grants R sends c t = 0 := by
    intro c t
    simp only [grants, List.countP_eq_zero]
    intro p hp
    simp [(quiet p hp t).1]
  have noAsks : ∀ j c t, asks R sends j c t = 0 := by
    intro j c t
    simp only [asks, List.countP_eq_zero]
    intro p hp
    simp [(quiet p hp t).2]
  refine h.update gr lists node (fun t c h1 h2 => ?_) (fun k hk => ?_) (fun j c t => ?_) lines
    threads
  · rw [same, h2] at h1
    cases h1
  · rw [grants_append, noGrants, Nat.zero_add, voters, same]
    by_cases hki : k = i
    · subst hki
      simp only [update_self] at hk ⊢
      exact votes hk
    · rw [update_of_ne hki] at hk ⊢
      exact h.votes k hk
  · rw [asks_append, noAsks, Nat.zero_add, same]
    exact h.asked j c t

/-- A node keeps its committed entries. -/
structure Keeps (x x' : RaftNode) : Prop where
  commit : x.commitIndex ≤ x'.commitIndex
  log : x'.log.take x.commitIndex = x.log.take x.commitIndex

theorem Keeps.of_eq {x' : RaftNode} (hc : x'.commitIndex = x.commitIndex) (hl : x'.log = x.log) :
    Keeps x x' := ⟨hc.ge, by rw [hl]⟩

variable (P R V g s i) in
/-- The effect of a section of node `i` continues the history. -/
def Simulated (rest : List Section) (e : Effect) : Prop :=
  ∃ g', Steps V.term Majority P i g g' ∧
    Sim P R V g' ⟨Function.update s.node i e.node, (i, e.todo ++ rest) :: s.threads,
      e.sends ++ s.net⟩ ∧ (P → Keeps (s.node i) e.node)

/-- A node under an event of its own that is none of the recorded steps. -/
theorem NodeSim.logEvent (h : NodeSim P R V g i x) {e : Event} (h1 : ∀ t, e ≠ .becomesLeader t)
    (h2 : ∀ k d, e ≠ .applied k d) : NodeSim P R V g i (x.logEvent e) := by
  have hentry : e.entry = none := by
    cases e with
    | applied k d => exact absurd rfl (h2 k d)
    | _ => rfl
  refine { h with led := fun t ht => ?_, entries := fun k d hd => ?_, store := ?_, safe := ?_ }
  · exact h.led t (by simpa [RaftNode.logEvent, (h1 t).symm] using ht)
  · exact h.entries k d (by simpa [RaftNode.logEvent, (h2 k d).symm] using hd)
  · simpa [RaftNode.applied, RaftNode.logEvent, hentry] using h.store
  · intro hP
    refine { h.safe hP with slots := fun k d hd => ?_ }
    exact (h.safe hP).slots k d (by simpa [RaftNode.logEvent, (h2 k d).symm] using hd)

/-! ### Taking a packet or a thread away -/

theorem Sim.drop (h : Sim P R V g s) {p : Packet} {pre post : List Packet}
    (hs : s.net = pre ++ p :: post) : Sim P R V g { s with net := pre ++ post } := by
  have hsub : (pre ++ post).Sublist s.net := by
    rw [hs]
    exact (List.Sublist.refl pre).append (List.sublist_cons_self p post)
  exact { h with
    votes := fun k hk => (Nat.add_le_add_left hsub.countP_le _).trans (h.votes k hk)
    asked := fun j c t => hsub.countP_le.trans (h.asked j c t)
    lines := fun q hq => h.lines q (hsub.subset hq) }

theorem Sim.wake (h : Sim P R V g s) {secs : List Section} {pre post : List (Fin n × List Section)}
    (hs : s.threads = pre ++ (i, secs) :: post) :
    Sim P R V g { s with threads := pre ++ post } ∧ ∀ sec ∈ secs, sec.Waiting n := by
  refine ⟨{ h with threads := fun th hth => h.threads th ?_ }, h.threads (i, secs) ?_⟩
  · rw [hs]
    rcases List.mem_append.mp hth with hth | hth
    · exact List.mem_append_left _ hth
    · exact List.mem_append_right _ (List.mem_cons_of_mem _ hth)
  · simp [hs]

end RaftKv
