import RaftKv.Reign
import RaftKv.Safety

/-! What a leader knows of its peers' progress, in a cluster with fixed tables.  The window between
`match_index` and `next_index` and the growth of `match_index` are kept by everything but a reply
that comes late, or from a log that is longer than the leader's. -/

namespace RaftKv

open Function Runs Stdio

attribute [local irreducible] toInt32

/-- `0 <= match_index < next_index <= log_count + 1`. -/
structure Peer.Windowed (logCount : ℕ) (p : Peer) : Prop where
  nonneg : 0 ≤ p.matchIndex
  ahead : p.matchIndex < p.nextIndex
  within : p.nextIndex ≤ logCount + 1

/-- The window of every peer of a node. -/
def Windowed (x : RaftNode) : Prop := ∀ p ∈ x.peers, p.Windowed x.logCount

/-- The match indexes in `y` are not behind those in `x`. -/
def Ahead (x y : RaftNode) : Prop :=
  ∀ p ∈ x.peers, ∀ q ∈ y.peers, q.id = p.id → p.matchIndex ≤ q.matchIndex

/-- A reply that a leader takes fits the window of its peer: one that succeeds reports at least
what is known and at most the leader's log, and one that fails leaves `next_index` room. -/
def Fitting (x : RaftNode) : Section → Prop
  | .handleAppendResponse term id success m =>
    x.role = .leader → term = x.currentTerm → ∀ p ∈ x.peers, p.id = id →
      if success ≠ 0 then p.matchIndex ≤ m ∧ m ≤ x.logCount
      else p.nextIndex = p.matchIndex + 1 → p.nextIndex ≤ 1
  | _ => True

instance (x : RaftNode) : (sec : Section) → Decidable (Fitting x sec)
  | .handleAppendResponse .. => inferInstanceAs (Decidable (_ → _ → ∀ p ∈ x.peers, _ → ite _ _ _))
  | .tickerLoop _ | .tickerMark | .startElection | .broadcastAppend | .sendAppendToPeer _
  | .handleRequestVote .. | .handleRequestVoteResponse .. | .handleAppendEntries ..
  | .raftSubmitCommand .. | .handleClientForward .. | .submitPeerless | .submitCommit
  | .handleJoin .. | .sendPeerCatalog .. | .handlePeerAnnounce .. | .announcePeerToKnownNodes ..
  | .handleLeave _ | .announceLeaveToKnownNodes _ | .requestClusterJoin | .requestClusterLeave =>
    .isTrue trivial

/-- An action of a cluster with fixed tables, whose reply fits. -/
def Punctual {n : ℕ} (s : Cluster n) (a : Action n) : Prop :=
  Admitted s a ∧ ∀ q ∈ s.entered a, Fitting (s.node q.1) q.2

instance {n : ℕ} (s : Cluster n) (a : Action n) : Decidable (Punctual s a) :=
  inferInstanceAs (Decidable (_ ∧ _))

instance (x y : RaftNode) : Decidable (Ahead x y) :=
  inferInstanceAs (Decidable (∀ p ∈ x.peers, ∀ q ∈ y.peers, _ → _))

variable {x y : RaftNode} {env : Env} {sec : Section} {e : Effect}

/-! ### One section -/

theorem nextIndexLocked_of_pos {p : Peer} (h : 0 < p.nextIndex) :
    nextIndexLocked x p = p.nextIndex :=
  if_neg (not_le.mpr h)

theorem matched_eq {m : ℕ} {p : Peer} (hm : m ≤ raftMaxLog) :
    (p.matched m).matchIndex = m ∧ (p.matched m).nextIndex = m + 1 := by
  have hmax : raftMaxLog < 2 ^ 31 - 1 := by decide
  have hsame : toInt32 m = m := toInt32_of_lt (by omega)
  have hnext : toInt32 ((m + 1 : ℕ) : ℤ) = (m + 1 : ℕ) := toInt32_of_lt (by omega)
  push_cast at hnext
  refine ⟨hsame, ?_⟩
  rw [Peer.matched]
  dsimp only
  rw [hsame, hnext]

theorem Peer.matched_id (m : ℕ) (p : Peer) : (p.matched m).id = p.id := by
  unfold Peer.matched
  generalize toInt32 (toInt32 m + 1) = a, toInt32 m = b
  rfl

theorem Peer.Windowed.matched {m : ℕ} {p : Peer} (hm : m ≤ x.logCount)
    (room : x.logCount ≤ raftMaxLog) : (p.matched m).Windowed x.logCount := by
  obtain ⟨hmatch, hnext⟩ := @matched_eq m p (hm.trans room)
  constructor <;> omega

theorem Peer.Windowed.backed {k : ℕ} {p : Peer} (h : p.Windowed k)
    (fits : p.nextIndex = p.matchIndex + 1 → p.nextIndex ≤ 1) : p.backed.Windowed k := by
  obtain ⟨h1, h2, h3⟩ := h
  have hmatch : p.backed.matchIndex = p.matchIndex := rfl
  have hnext : p.backed.nextIndex = if 1 < p.nextIndex then p.nextIndex - 1 else p.nextIndex := rfl
  constructor
  · omega
  · rw [hmatch, hnext]
    split <;> omega
  · rw [hnext]
    split <;> omega

theorem Peer.Windowed.reset {k : ℕ} (room : k ≤ raftMaxLog) (p : Peer) :
    (p.reset k).Windowed k := by
  have hmax : raftMaxLog < 2 ^ 31 := by decide
  have hsame : toInt32 k = k := toInt32_of_lt (by omega)
  have hmatch : (p.reset k).matchIndex = 0 := rfl
  have hnext : (p.reset k).nextIndex = toInt32 k + 1 := rfl
  constructor <;> omega

/-- An assignment to the peers with an id. -/
theorem windowed_modifyPeer {f : Peer → Peer} {id k : ℕ} {ps : List Peer}
    (h : ∀ p ∈ ps, p.Windowed k) (hf : ∀ p ∈ ps, p.id = id → (f p).Windowed k) :
    ∀ p ∈ modifyPeer f id ps, p.Windowed k := by
  intro p hp
  rcases mem_modifyPeer hp with hp | ⟨q, hq, hid, rfl⟩
  · exact h p hp
  · exact hf q hq hid

/-- What a section leaves of a leader's window. -/
theorem Reign.windowed (reign : Reign x sec y.standing) (fixed : sec.changesTable = false)
    (room : x.logCount ≤ raftMaxLog) (h : x.role = .leader → Windowed x) (fits : Fitting x sec) :
    Windowed y := by
  have same : ∀ {c t ps}, y.standing = (t, x.log, c, ps) → (∀ p ∈ ps, p.Windowed x.logCount) →
      Windowed y := by
    intro c t ps hy hps
    obtain ⟨-, hlog, -, hpeers⟩ := standing_eq.mp hy
    rw [Windowed, RaftNode.logCount, hlog, hpeers]
    exact hps
  have reset : ∀ p ∈ x.peers.map (Peer.reset x.logCount), p.Windowed x.logCount := by
    intro p hp
    obtain ⟨q, -, rfl⟩ := List.mem_map.mp hp
    exact .reset room q
  generalize hst : y.standing = st at reign
  cases reign with
  | keeps _ lead => exact same hst (h lead)
  | stands => exact same hst reset
  | wins => exact same hst reset
  | sends lead =>
    refine same hst (windowed_modifyPeer (h lead) fun p hp _ => ?_)
    obtain ⟨h1, h2, h3⟩ := h lead p hp
    rw [nextIndexLocked_of_pos (by omega)]
    exact h lead p hp
  | @takes id success m lead known succeeds z taken =>
    subst taken
    refine same hst (windowed_modifyPeer (h lead) fun p hp hid => ?_)
    have hp := fits lead rfl p hp hid
    rw [if_pos succeeds] at hp
    exact .matched hp.2 room
  | @backs id m lead known =>
    refine same hst (windowed_modifyPeer (h lead) fun p hp hid => ?_)
    have hfits := fits lead rfl p hp hid
    rw [if_neg (not_not.mpr rfl)] at hfits
    exact (h lead p hp).backed hfits
  | appends submits checked lead =>
    obtain ⟨-, hlog, -, hpeers⟩ := standing_eq.mp hst
    intro p hp
    obtain ⟨h1, h2, h3⟩ := h lead p (hpeers ▸ hp)
    rw [RaftNode.logCount, hlog, List.length_append]
    exact ⟨h1, h2, h3.trans (by push_cast; simp [RaftNode.logCount])⟩
  | commits lead => exact same hst (h lead)
  | admits joins => rcases joins with rfl | rfl <;> cases fixed
  | removes => cases fixed

/-- A leader that goes on to lead in its term forgets nothing that a peer has reported. -/
theorem Reign.ahead (reign : Reign x sec y.standing) (fixed : sec.changesTable = false)
    (room : x.logCount ≤ raftMaxLog) (fits : Fitting x sec) (lead : x.role = .leader)
    (hterm : y.currentTerm = x.currentTerm) :
    ∀ q ∈ y.peers, ∃ p ∈ x.peers, p.id = q.id ∧ p.matchIndex ≤ q.matchIndex := by
  have modified : ∀ {c t log f id}, y.standing = (t, log, c, modifyPeer f id x.peers) →
      (∀ p, (f p).id = p.id) → (∀ p ∈ x.peers, p.id = id → p.matchIndex ≤ (f p).matchIndex) →
      ∀ q ∈ y.peers, ∃ p ∈ x.peers, p.id = q.id ∧ p.matchIndex ≤ q.matchIndex := by
    intro c t log f id hy hf hle q hq
    rw [(standing_eq.mp hy).2.2.2] at hq
    rcases mem_modifyPeer hq with hq | ⟨p, hp, hid, rfl⟩
    · exact ⟨q, hq, rfl, le_rfl⟩
    · exact ⟨p, hp, (hf p).symm, hle p hp hid⟩
  have same : ∀ {c t log}, y.standing = (t, log, c, x.peers) →
      ∀ q ∈ y.peers, ∃ p ∈ x.peers, p.id = q.id ∧ p.matchIndex ≤ q.matchIndex := by
    intro c t log hy q hq
    rw [(standing_eq.mp hy).2.2.2] at hq
    exact ⟨q, hq, rfl, le_rfl⟩
  generalize hst : y.standing = st at reign
  cases reign with
  | keeps => exact same hst
  | stands =>
    obtain ⟨hnext, -⟩ := standing_eq.mp hst
    omega
  | wins stood => cases stood.symm.trans lead
  | sends => exact modified hst (fun _ => rfl) fun _ _ _ => le_rfl
  | @takes id success m lead known succeeds z taken =>
    subst taken
    refine modified hst (Peer.matched_id m) fun p hmem hid => ?_
    have hp := fits lead rfl p hmem hid
    rw [if_pos succeeds] at hp
    exact hp.1.trans_eq (matched_eq (hp.2.trans room)).1.symm
  | backs => exact modified hst (fun _ => rfl) fun _ _ _ => le_rfl
  | appends => exact same hst
  | commits => exact same hst
  | admits joins => rcases joins with rfl | rfl <;> cases fixed
  | removes => cases fixed

/-- A node that leads after a section in the term it had before has led before, or stood. -/
theorem Reign.led (reign : Reign x sec y.standing) (hterm : y.currentTerm = x.currentTerm) :
    x.role ≠ .follower := by
  generalize hst : y.standing = st at reign
  cases reign with
  | stands =>
    obtain ⟨hnext, -⟩ := standing_eq.mp hst
    omega
  | wins stood => rw [stood]; exact RaftRole.noConfusion
  | keeps _ lead | sends lead | takes lead | backs lead | appends _ _ lead | commits lead
  | admits _ lead | removes lead =>
    rw [lead]
    exact RaftRole.noConfusion

/-- A leader that leads no more in its term follows, and so does a follower. -/
theorem Turn.falls {s : Seat} (turn : Turn x sec s) (stood : x.role ≠ .candidate)
    (hterm : s.term = x.currentTerm) (fallen : s.role ≠ .leader) : s.role = .follower := by
  have other : ∀ {r : RaftRole}, r ≠ .candidate → r ≠ .leader → r = .follower := by
    intro r h1 h2
    cases r with
    | follower => rfl
    | candidate => exact absurd rfl h1
    | leader => exact absurd rfl h2
  cases turn with
  | stay | reopen => exact other stood fallen
  | follow | yield => rfl
  | @stand t next =>
    change t = x.currentTerm at hterm
    omega
  | win => exact absurd rfl fallen
  | @grant t c li lt =>
    change t = x.currentTerm at hterm
    have hrole : (if x.currentTerm < t then RaftRole.follower else x.role) = x.role :=
      if_neg (by omega)
    exact hrole.trans (other stood fun hlead => fallen (hrole.trans hlead))

/-- What has become of a node that led in term `T` with the peers of `x`. -/
def Reigned (T : ℕ) (x y : RaftNode) : Prop :=
  T < y.currentTerm ∨ (y.currentTerm = T ∧ y.role = .follower) ∨
    (y.currentTerm = T ∧ y.role = .leader ∧ Ahead x y)

theorem Reigned.exec {T : ℕ} (h : Reigned T x y) (he : exec env sec y = some e)
    (fixed : sec.changesTable = false) (room : y.logCount ≤ raftMaxLog) (fits : Fitting y sec)
    (below : y.currentTerm < 2 ^ 32 - 1) : Reigned T x e.node := by
  have hle : y.currentTerm ≤ e.node.currentTerm := (exec_turn he).term_le below
  rcases h with later | hrest
  · exact Or.inl (later.trans_le hle)
  obtain ⟨hterm, stood⟩ : y.currentTerm = T ∧ y.role ≠ .candidate := by
    rcases hrest with ⟨hterm, hrole⟩ | ⟨hterm, hrole, -⟩
    · exact ⟨hterm, by rw [hrole]; exact RaftRole.noConfusion⟩
    · exact ⟨hterm, by rw [hrole]; exact RaftRole.noConfusion⟩
  rcases hle.lt_or_eq with newer | same
  · exact Or.inl (hterm ▸ newer)
  right
  by_cases lead : e.node.role = .leader
  · have reign := exec_reign he lead
    rcases hrest with ⟨-, hrole⟩ | ⟨-, hrole, hahead⟩
    · exact absurd hrole (reign.led same.symm)
    · refine Or.inr ⟨same.symm.trans hterm, lead, fun p hp q hq hid => ?_⟩
      obtain ⟨p', hp', hid', hle'⟩ := reign.ahead fixed room fits hrole same.symm q hq
      exact (hahead p hp p' hp' (hid'.trans hid)).trans hle'
  · exact Or.inl ⟨same.symm.trans hterm, (exec_turn he).falls stood same.symm lead⟩

/-! ### Sections in a cluster with fixed tables -/

theorem changesTable_of_tag (h : sec.tag ∉ [bytes "JOIN", bytes "PEER", bytes "LEAVE"]) :
    sec.changesTable = false := by
  cases sec with
  | handleJoin | handlePeerAnnounce | handleLeave => exact absurd (by simp [Section.tag]) h
  | _ => rfl

section Fixed

variable {n : ℕ} {s s' : Cluster n} {a : Action n} {i : Fin n} {R : Roster n}
  {g : Consensus.Ledger (Fin n) ℕ}

/-- No section changes a table, and a reply reports a position that a log can have. -/
theorem Sim.enters (h : Sim False R termView g s) (fixed : a.fixed = true) {rest : List Section}
    {threads : List (Fin n × List Section)} {net : List Packet}
    (src : Cluster.Source s i sec a rest threads net) : sec.changesTable = false ∧
      ∀ t id success m, sec = .handleAppendResponse t id success m → m ≤ raftMaxLog := by
  cases src.origin h.unbroken with
  | enter env =>
    cases sec with
    | raftSubmitCommand | startElection | sendAppendToPeer | tickerLoop =>
      exact ⟨rfl, fun _ _ _ _ h => by cases h⟩
    | _ => exact absurd fixed (by simp [Action.fixed, Section.fixed, Section.starts])
  | resume k env rest pre post split =>
    have waiting := h.threads (i, sec :: rest) (by rw [split]; simp) sec List.mem_cons_self
    cases sec with
    | handleJoin | handlePeerAnnounce | handleLeave | handleAppendResponse => exact waiting.elim
    | _ => exact ⟨rfl, fun _ _ _ _ h => by cases h⟩
  | deliver k env m p pre post split address parsed =>
    obtain ⟨j, line, rfl, hline⟩ := h.lines p (by rw [split]; simp)
    have hhandle : line.handler = some sec := parsed
    have htag := Line.handler_tag hhandle
    have kept : line.tag ∉ [bytes "JOIN", bytes "PEER", bytes "LEAVE"] →
        sec.changesTable = false := fun h => changesTable_of_tag (htag ▸ h)
    cases line with
    | join | peer | leave => exact hline.elim
    | aer t f success k =>
      have hroom := hline.2.1
      obtain rfl := Option.some.inj ((Line.handler_aer hline.aer_fits).symm.trans hhandle)
      refine ⟨rfl, fun t' id success' m hsec => ?_⟩
      rw [← (Section.handleAppendResponse.inj hsec).2.2.2]
      exact hroom
    | rv | rvr | ae | cl =>
      refine ⟨kept (by simp [Line.tag]; decide), fun t' id success m hsec => ?_⟩
      rw [hsec] at htag
      exact absurd htag (by simp [Line.tag, Section.tag]; decide)

theorem windowed_step (hsim : Sim False R termView g s) (ok : Punctual s a)
    (h : ∀ i, (s.node i).role = .leader → Windowed (s.node i)) (hstep : s.step a = some s')
    (lead : (s'.node i).role = .leader) : Windowed (s'.node i) := by
  obtain ⟨⟨fixed, -⟩, fits⟩ := ok
  rcases Cluster.step_cases hstep with ⟨_, _, _, -, rfl⟩ |
    ⟨j, env, sec, rest, threads, net, e, hent, hsrc, he, rfl⟩
  · exact h i lead
  · by_cases hi : i = j
    · subst hi
      simp only [update_self] at lead ⊢
      exact (exec_reign he lead).windowed (hsim.enters fixed hsrc).1 (hsim.nodes i).room (h i)
        (fits (i, sec) hent)
    · simp only [update_of_ne hi] at lead ⊢
      exact h i lead

theorem reigned_step {T : ℕ} {x : RaftNode} (hsim : Sim False R termView g s) (ok : Punctual s a)
    (h : Reigned T x (s.node i)) (hstep : s.step a = some s') : Reigned T x (s'.node i) := by
  obtain ⟨⟨fixed, below⟩, fits⟩ := ok
  rcases Cluster.step_cases hstep with ⟨_, _, _, -, rfl⟩ |
    ⟨j, env, sec, rest, threads, net, e, hent, hsrc, he, rfl⟩
  · exact h
  · by_cases hi : i = j
    · subst hi
      simp only [update_self]
      exact h.exec he (hsim.enters fixed hsrc).1 (hsim.nodes i).room (fits (i, sec) hent) (below i)
    · simp only [update_of_ne hi]
      exact h

theorem Roster.Lists.ids_nodup {x : RaftNode} (h : R.Lists i x) :
    (x.peers.map fun p => p.id).Nodup := by
  have hids := congrArg (List.map fun c : ℕ × Text × ℕ => c.1) h.peers
  rw [List.map_map, List.map_map] at hids
  change x.peers.map (fun p => p.id) = (R.order i).map R.id at hids
  rw [hids]
  exact (R.nodup i).map fun j k hjk => R.id_inj j k hjk

theorem mem_modifyPeer_self {f : Peer → Peer} {id : ℕ} {ps : List Peer} {p : Peer}
    (hp : p ∈ ps) (hid : p.id = id) (hnodup : (ps.map fun p => p.id).Nodup) :
    f p ∈ modifyPeer f id ps := by
  induction ps with
  | nil => cases hp
  | cons q ps ih =>
    rw [List.map_cons, List.nodup_cons] at hnodup
    rw [modifyPeer]
    rcases List.mem_cons.mp hp with rfl | hp
    · rw [if_pos hid]
      exact List.mem_cons_self
    · have hne : q.id ≠ id := fun h => hnodup.1 (List.mem_map.mpr ⟨p, hp, hid.trans h.symm⟩)
      rw [if_neg hne]
      exact List.mem_cons_of_mem _ (ih hp hnodup.2)

theorem ahead_refl {x : RaftNode} (h : R.Lists i x) : Ahead x x := by
  intro p hp q hq hid
  rw [List.inj_on_of_nodup_map h.ids_nodup hq hp hid]

/-- A section keeps the window of its node when it leads afterwards, and what is known of the
peers when it goes on to lead in its term. -/
structure KeepsWindow (x y : RaftNode) : Prop where
  windowed : y.role = .leader → Windowed y
  ahead : x.role = .leader → y.role = .leader → y.currentTerm = x.currentTerm → Ahead x y

/-- A reply that a leader takes, and that leaves the window, fits it. -/
theorem fitting_of_keeps {now t id success m : ℕ} {x : RaftNode} {e : Effect}
    (hlists : R.Lists i x) (he : handleAppendResponse now x t id success m = some e)
    (hm : m ≤ raftMaxLog) (keeps : KeepsWindow x e.node) :
    Fitting x (.handleAppendResponse t id success m) := by
  rintro lead rfl p hp hid
  cases appendResponse he with
  | observes newer => exact absurd newer (lt_irrefl _)
  | ignores h =>
    refine absurd ⟨lead, rfl, ?_⟩ h
    rw [findPeer, List.find?_isSome]
    exact ⟨p, hp, decide_eq_true hid⟩
  | takes _ succeeds y recomputed =>
    obtain ⟨_, _, _, _, rfl, -⟩ := recomputeCommitLocked_shape recomputed
    have hmem : p.matched m ∈ modifyPeer (Peer.matched m) id x.peers :=
      mem_modifyPeer_self hp hid hlists.ids_nodup
    have hgrown := keeps.ahead lead lead rfl p hp (p.matched m) hmem (Peer.matched_id m p)
    obtain ⟨-, -, hwithin⟩ := keeps.windowed lead (p.matched m) hmem
    obtain ⟨hmatch, hnext⟩ := @matched_eq m p hm
    rw [if_pos succeeds]
    rw [hmatch] at hgrown
    rw [hnext] at hwithin
    refine ⟨hgrown, ?_⟩
    change (m : ℤ) + 1 ≤ (x.logCount : ℤ) + 1 at hwithin
    omega
  | backs _ fails =>
    have hmem : p.backed ∈ modifyPeer Peer.backed id x.peers :=
      mem_modifyPeer_self hp hid hlists.ids_nodup
    obtain ⟨-, hahead, -⟩ := keeps.windowed lead p.backed hmem
    rw [if_neg (not_not.mpr fails)]
    intro hnext
    by_contra hlarge
    have hback : p.backed.nextIndex = p.nextIndex - 1 := if_pos (not_le.mp hlarge)
    change p.matchIndex < p.backed.nextIndex at hahead
    omega

/-- A step keeps the windows if and only if the reply in it fits. -/
theorem keeps_iff_fitting (hsim : Sim False R termView g s) (admitted : Admitted s a)
    (h : ∀ i, (s.node i).role = .leader → Windowed (s.node i)) (hstep : s.step a = some s') :
    (∀ i, KeepsWindow (s.node i) (s'.node i)) ↔
      ∀ q ∈ s.entered a, Fitting (s.node q.1) q.2 := by
  constructor
  · intro keeps q hq
    rcases Cluster.step_drops hstep with ⟨_, _, _, -, -, hdrops⟩ |
      ⟨i, sec, rest, threads, net, e, hent, hsrc, he, rfl⟩
    · rw [Cluster.entered_of_drops hdrops] at hq
      cases hq
    · obtain rfl := Option.some.inj (hent.symm.trans hq)
      have hkeeps := keeps i
      simp only [update_self] at hkeeps
      have hbound := (hsim.enters admitted.1 hsrc).2
      cases sec with
      | handleAppendResponse t id success m =>
        exact fitting_of_keeps (hsim.lists i) he (hbound t id success m rfl) hkeeps
      | _ => trivial
  · intro fits i
    refine ⟨windowed_step hsim ⟨admitted, fits⟩ h hstep, fun lead lead' hterm => ?_⟩
    have hreigned := reigned_step hsim ⟨admitted, fits⟩
      (Or.inr (Or.inr ⟨rfl, lead, ahead_refl (hsim.lists i)⟩)) hstep
    rcases hreigned with later | ⟨-, hrole⟩ | ⟨-, -, hahead⟩
    · exact absurd hterm later.ne'
    · cases hrole.symm.trans lead'
    · exact hahead

/-- The progress window: in a run whose replies fit, every leader has a window for every peer, and
never forgets in one leadership what a peer has reported; and the next step keeps that if and only
if the reply in it fits. -/
theorem progress_window {now : Fin n → ℕ} {config : Fin n → RaftConfig}
    (tables : FixedTables (Cluster.start now config).node)
    (run : Reach Cluster.step Punctual (Cluster.start now config) s) :
    (∀ i, (s.node i).role = .leader → Windowed (s.node i)) ∧
    (∀ s', Reach Cluster.step Punctual s s' → ∀ i, (s.node i).role = .leader →
      (s'.node i).role = .leader → (s'.node i).currentTerm = (s.node i).currentTerm →
      Ahead (s.node i) (s'.node i)) ∧
    ∀ a s', Admitted s a → s.step a = some s' → ((∀ i, KeepsWindow (s.node i) (s'.node i)) ↔
      ∀ q ∈ s.entered a, Fitting (s.node q.1) q.2) := by
  have history : ∀ {r}, Reach Cluster.step Punctual (Cluster.start now config) r →
      ∃ R g, Sim False R termView g r :=
    fun hr => exists_history tables (hr.mono fun _ _ ok => ok.1)
  obtain ⟨R, g, hsim⟩ := history run
  have hwindowed : ∀ i, (s.node i).role = .leader → Windowed (s.node i) := by
    refine run.invariant (P := fun s => ∀ i, (s.node i).role = .leader → Windowed (s.node i))
      (fun i h => by cases h) ?_
    intro r a r' hr h ok hstep i lead
    obtain ⟨R, g, hsim⟩ := history hr
    exact windowed_step hsim ok h hstep lead
  refine ⟨hwindowed, fun s' run' i lead lead' hterm => ?_, fun a s' admitted hstep =>
    keeps_iff_fitting hsim admitted hwindowed hstep⟩
  have hreigned : Reigned (s.node i).currentTerm (s.node i) (s'.node i) := by
    refine run'.invariant (P := fun r => Reigned (s.node i).currentTerm (s.node i) (r.node i))
      (Or.inr (Or.inr ⟨rfl, lead, ahead_refl (hsim.lists i)⟩)) ?_
    intro r a r' hr h ok hstep
    obtain ⟨R, g, hsim⟩ := history (run.trans hr)
    exact reigned_step hsim ok h hstep
  rcases hreigned with later | ⟨-, hrole⟩ | ⟨-, -, hahead⟩
  · exact absurd hterm later.ne'
  · cases hrole.symm.trans lead'
  · exact hahead

end Fixed

/-- Node 1 is elected, and node 2 answers its heartbeat, and then a command. -/
def trioReplies : List (Action 3) :=
  [.enter node1 ⟨2000, true⟩ (.tickerLoop 0), .resume 0 still, .deliver 0 node2 still,
    .deliver 0 node1 still, .resume 0 still, .resume 0 still, .deliver 0 node2 still,
    .enter node1 still (.raftSubmitCommand .set (bytes "k") (bytes "a")), .resume 0 still,
    .resume 0 still, .deliver 0 node2 still]

/-- The first answer comes first. -/
theorem progress_window_trio : ∃ s, Reach Cluster.step Punctual trio s ∧
    (s.node 0).role = .leader ∧ Windowed (s.node 0) := by
  have hrun : (runList Cluster.step (fun s a => decide (Punctual s a)) trio
      (trioReplies ++ [.deliver 1 node1 still, .deliver 0 node1 still])).any
      (fun s => (s.node 0).role = .leader ∧ (s.node 0).commitIndex = 1) = true := by
    decide +kernel
  obtain ⟨s, run, hs⟩ := exists_reach (fun s a => of_decide_eq_true) hrun
  obtain ⟨lead, -⟩ := of_decide_eq_true hs
  exact ⟨s, run, lead, (progress_window fixedTables_trio run).1 0 lead⟩

/-- The second answer overtakes the first, which takes back what node 2 has reported. -/
theorem progress_lost : ¬∀ (n : ℕ) (now : Fin n → ℕ) (config : Fin n → RaftConfig),
    FixedTables (Cluster.start now config).node → ∀ s s',
    Reach Cluster.step Admitted (Cluster.start now config) s → Reach Cluster.step Admitted s s' →
    ∀ i, (s.node i).role = .leader → (s'.node i).role = .leader →
    (s'.node i).currentTerm = (s.node i).currentTerm → Ahead (s.node i) (s'.node i) := by
  intro h
  have hrun : (runList Cluster.step (fun s a => decide (Admitted s a)) trio
      (trioReplies ++ [.deliver 0 node1 still])).any (fun s =>
        decide ((s.node 0).role = .leader ∧ (s.node 0).peers.any fun p => p.matchIndex = 1) &&
        (runList Cluster.step (fun s a => decide (Admitted s a)) s [.deliver 0 node1 still]).any
          fun s' => (s'.node 0).role = .leader ∧
            (s'.node 0).currentTerm = (s.node 0).currentTerm ∧
            ¬Ahead (s.node 0) (s'.node 0)) = true := by
    decide +kernel
  obtain ⟨s, run, hs⟩ := exists_reach (fun s a => of_decide_eq_true) hrun
  obtain ⟨hlead, hs⟩ := Bool.and_eq_true_iff.mp hs
  obtain ⟨s', run', hs'⟩ := exists_reach (fun s a => of_decide_eq_true) hs
  obtain ⟨lead', hterm, hbehind⟩ := of_decide_eq_true hs'
  exact hbehind (h 3 _ _ fixedTables_trio s s' run run' 0 (of_decide_eq_true hlead).1 lead' hterm)

end RaftKv
