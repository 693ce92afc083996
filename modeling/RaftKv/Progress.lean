import Mathlib.Data.Prod.Lex
import RaftKv.History
import RaftKv.LogTurn
import RaftKv.Terms

/-! No state of a cluster with fixed tables is a dead end.  While there are terms left, any node
whose log is up to date for all the others can still be elected, and there is such a node. -/

namespace RaftKv

open Consensus Consensus.Ledger Function Runs Stdio

attribute [local irreducible] toInt32

section Steps

variable {n : ℕ} {R : Roster n} {s s' : Cluster n} {i j : Fin n} {env : Env} {sec : Section}
  {e : Effect} {x y : RaftNode}

/-! ### Steps that can be taken -/

/-- A packet on its way can be handled next, and the others stay. -/
theorem Cluster.exists_deliver (env : Env) {p : Packet} (hp : p ∈ s.net)
    (address : p.host = (s.node j).host ∧ p.port = (s.node j).port)
    (parsed : p.line.handlers = [sec]) (he : exec env sec (s.node j) = some e) :
    ∃ k s', s.step (.deliver k j env) = some s' ∧
      s.entered (.deliver k j env) = some (j, sec) ∧ s'.node = update s.node j e.node ∧
      (∀ q ∈ e.sends, q ∈ s'.net) ∧ ∀ q ∈ s.net, q ≠ p → q ∈ s'.net := by
  obtain ⟨k, hk⟩ := List.mem_iff_getElem?.mp hp
  obtain ⟨pre, post, hsplit, herase⟩ := Cluster.exists_split hk
  refine ⟨k, ⟨update s.node j e.node, (j, e.todo ++ []) :: s.threads, e.sends ++ (pre ++ post)⟩,
    ?_, by simp [Cluster.entered, hk, parsed], rfl, fun q hq => List.mem_append_left _ hq,
    fun q hq hne => List.mem_append_right _ ?_⟩
  · simp [Cluster.step, hk, parsed, address, Cluster.run, he, herase]
  · rw [hsplit] at hq
    simp only [List.mem_append, List.mem_cons] at hq ⊢
    exact hq.imp_right fun h => h.resolve_left hne

/-- The address of a node and its table say whether it lists the roster. -/
theorem Roster.Lists.of_card (h : R.Lists i x) (hcard : y.card = x.card) : R.Lists i y := by
  obtain ⟨hself, htable⟩ := Prod.mk.inj hcard
  obtain ⟨hid, hself⟩ := Prod.mk.inj hself
  obtain ⟨hhost, hport⟩ := Prod.mk.inj hself
  exact ⟨hid.trans h.id, hhost.trans h.host, hport.trans h.port, htable.trans h.peers⟩

/-- A node lists every other member. -/
theorem Roster.Lists.listed (h : R.Lists i x) (hne : j ≠ i) :
    ∃ p, findPeer x (R.id j) = some p := by
  have listed : (R.id j, R.host j, R.port j) ∈ x.peers.map fun p => (p.id, p.host, p.port) := by
    rw [h.peers]
    exact List.mem_map_of_mem ((R.mem_order i j).mpr hne)
  obtain ⟨p, hp, heq⟩ := List.mem_map.mp listed
  have found : (findPeer x (R.id j)).isSome :=
    List.find?_isSome.mpr ⟨p, hp, decide_eq_true (Prod.mk.inj heq).1⟩
  exact Option.isSome_iff_exists.mp found

/-- A node sends to any other member. -/
theorem Roster.Lists.sendToPeer_member (h : R.Lists i x) (hne : j ≠ i) (line : Line) :
    sendToPeer x (R.id j) line = [R.packet j line] := by
  rcases Roster.sendToPeer_eq h (R.id j) line with hnone | ⟨k, -, hk, hsends⟩
  · obtain ⟨p, hp⟩ := h.listed hne
    simp [sendToPeer, hp] at hnone
  · obtain rfl := R.id_inj j k hk
    exact hsends

end Steps

/-! ### An election -/

section Election

variable {n : ℕ} {R : Roster n} {s s' s₀ : Cluster n} {i j : Fin n} {t votes : ℕ}
  {rest : List (Fin n)} {x : RaftNode} {e : Effect}

/-- A section in which a node stands for election, or handles a vote request or its answer. -/
def Section.elects : Section → Bool
  | .startElection | .handleRequestVote .. | .handleRequestVoteResponse .. => true
  | _ => false

/-- A steady action of an election. -/
def Electing (s : Cluster n) (a : Action n) : Prop :=
  SteadyPlain s a ∧ ∃ j sec, s.entered a = some (j, sec) ∧ sec.elects = true

theorem electing {sec : Section} (a : Action n) (fixed : a.fixed = true) (below : TermsBelow s)
    (clean : a.Clean plainView) (entered : s.entered a = some (j, sec))
    (elects : sec.elects = true) : Electing s a := by
  refine ⟨?_, j, sec, entered, elects⟩
  cases sec with
  | startElection | handleRequestVote | handleRequestVoteResponse =>
    exact steadyPlain_of_quiet a fixed below clean entered rfl trivial
  | _ => cases elects

/-- The log of node `i` is up to date for every node. -/
def Electable (s : Cluster n) (i : Fin n) : Prop :=
  ∀ j, UpToDateFor (s.node j) (s.node i).logCount (lastLogTermLocked (s.node i))

theorem exists_electable (s : Cluster n) (hn : 0 < n) : ∃ i, Electable s i := by
  have : Nonempty (Fin n) := ⟨⟨0, hn⟩⟩
  obtain ⟨i, -, hi⟩ := Finset.exists_max_image Finset.univ
    (fun i => toLex (lastLogTermLocked (s.node i), (s.node i).logCount)) Finset.univ_nonempty
  refine ⟨i, fun j => ?_⟩
  rcases Prod.Lex.le_iff.mp (hi j (Finset.mem_univ j)) with hlt | ⟨heq, hle⟩
  · exact Or.inl hlt
  · exact Or.inr ⟨heq.symm, hle⟩

/-- The vote request of node `i`, with the log that it has in `s₀`. -/
def request (R : Roster n) (s₀ : Cluster n) (i : Fin n) (t : ℕ) : Line :=
  .rv t (R.id i) (s₀.node i).logCount (lastLogTermLocked (s₀.node i))

/-- A node sends its peers the entry that it is going to append. -/
def Probing (x : RaftNode) : Prop := ∀ p ∈ x.peers, p.nextIndex = x.logCount + 1

theorem probing_becomeLeaderLocked (x : RaftNode) (room : x.logCount ≤ raftMaxLog) :
    Probing (becomeLeaderLocked x) := by
  intro p hp
  obtain ⟨q, -, rfl⟩ := List.mem_map.mp hp
  have : toInt32 x.logCount = x.logCount := by
    simp only [raftMaxLog] at room
    exact toInt32_of_lt (by omega)
  exact congrArg (· + 1) this

/-- Node `i` has `votes` votes in term `t`, or leads in it, and its requests to the nodes `rest`,
which have not come to the term, are on their way. -/
structure Poll (R : Roster n) (i : Fin n) (t : ℕ) (s₀ : Cluster n) (rest : List (Fin n))
    (votes : ℕ) (s : Cluster n) : Prop where
  lists : ∀ j, R.Lists j (s.node j)
  logs : ∀ j, (s.node j).log = (s₀.node j).log
  terms : ∀ j, (s.node j).currentTerm ≤ t
  term : (s.node i).currentTerm = t
  stands : (s.node i).role = .leader ∧ Probing (s.node i) ∨
    (s.node i).role = .candidate ∧ (s.node i).votesReceived = votes ∧ votes ≤ n / 2
  waits : ∀ j ∈ rest, j ≠ i ∧ (s.node j).currentTerm < t ∧ R.packet j (request R s₀ i t) ∈ s.net

/-- A section of an election keeps the log and the table. -/
theorem log_kept {env : Env} {sec : Section} (he : exec env sec x = some e)
    (elects : sec.elects = true) : e.node.log = x.log ∧ e.node.card = x.card := by
  refine ⟨?_, exec_card he ?_⟩
  · have hlog := (exec_log he).1
    generalize e.node.log = log at hlog
    cases hlog with
    | keep => rfl
    | append submits => rcases submits with rfl | ⟨_, rfl⟩ <;> cases elects
    | store => cases elects
  · cases sec with
    | startElection | handleRequestVote | handleRequestVoteResponse => rfl
    | _ => cases elects

/-- The tables and the logs after a step that runs such a section. -/
theorem kept_of_update {env : Env} {sec : Section} (he : exec env sec (s.node j) = some e)
    (elects : sec.elects = true) (nodes : s'.node = update s.node j e.node)
    (lists : ∀ k, R.Lists k (s.node k)) :
    (∀ k, R.Lists k (s'.node k)) ∧ ∀ k, (s'.node k).log = (s.node k).log := by
  obtain ⟨hlog, hcard⟩ := log_kept he elects
  rw [nodes]
  constructor <;> intro k <;> by_cases hk : k = j
  · subst hk
    simpa only [update_self] using (lists k).of_card hcard
  · simpa only [update_of_ne hk] using lists k
  · subst hk
    simpa only [update_self] using hlog
  · simp only [update_of_ne hk]

/-- A node in an earlier term grants its vote to a candidate whose log is up to date for it. -/
theorem handleRequestVote_grants (now : ℕ) {li lt : ℕ} (newer : x.currentTerm < t)
    (upToDate : UpToDateFor x li lt) (hx : R.Lists j x) (hne : i ≠ j) :
    (handleRequestVote now x t (R.id i) li lt).sends = [R.packet i (.rvr t (R.id j) 1)] ∧
      (handleRequestVote now x t (R.id i) li lt).node.currentTerm = t := by
  have hlists : R.Lists j (becomeFollowerLocked now x t (-1)) := by
    rw [becomeFollowerLocked_of_lt newer]
    exact { hx with }
  have grants : grantsVote (becomeFollowerLocked now x t (-1)) t (R.id i) li lt = true := by
    rw [becomeFollowerLocked_of_lt newer]
    simp only [grantsVote, Bool.and_eq_true, Bool.or_eq_true, decide_eq_true_eq]
    exact ⟨⟨trivial, Or.inl (by decide)⟩, upToDate⟩
  have hterm : (becomeFollowerLocked now x t (-1)).currentTerm = t := by
    rw [becomeFollowerLocked_of_lt newer]
  rw [handleRequestVote_eq (if_pos newer), if_pos grants]
  generalize becomeFollowerLocked now x t (-1) = x1 at hlists hterm
  generalize hx2 : RaftNode.logEvent { x1 with
    votedFor := toInt32 (R.id i), lastLeaderContactMs := now } (.voteRequest (R.id i) t 1) = x2
  obtain ⟨hlists2, hterm2⟩ : R.Lists j x2 ∧ x2.currentTerm = t := by
    rw [← hx2]
    exact ⟨{ hlists with }, hterm⟩
  dsimp only
  refine ⟨?_, hterm2⟩
  rw [hlists2.sendToPeer_member hne, hterm2, hlists2.id]

/-- A vote makes a candidate a leader, or counts. -/
theorem voteResponse_counts {now : ℕ} (he : handleRequestVoteResponse now x t 1 = e)
    (term : x.currentTerm = t) (hx : R.Lists i x) (room : x.logCount ≤ raftMaxLog)
    (stands : x.role = .leader ∧ Probing x ∨
      x.role = .candidate ∧ x.votesReceived = votes ∧ votes ≤ n / 2) :
    e.node.currentTerm = t ∧ (e.node.role = .leader ∧ Probing e.node ∨
      e.node.role = .candidate ∧ e.node.votesReceived = votes + 1 ∧ votes + 1 ≤ n / 2) := by
  cases voteResponse he with
  | observes newer => omega
  | ignores other =>
    refine ⟨term, Or.inl (stands.resolve_right fun stands => ?_)⟩
    exact other ⟨stands.1, term.symm, Nat.one_ne_zero⟩
  | counts candidate few =>
    obtain ⟨-, hvotes, hle⟩ := stands.resolve_left fun lead => by
      cases lead.1.symm.trans candidate.1
    have hsize := R.size_le i
    have hsmall : (x.votesReceived + 1) % 2 ^ 32 = votes + 1 := by
      simp only [raftMaxPeers] at hsize
      omega
    rw [hsmall, Roster.majorityCount_eq hx, toInt32_of_lt] at few
    · exact ⟨term, Or.inr ⟨candidate.1, hsmall, by omega⟩⟩
    · simp only [raftMaxPeers] at hsize
      omega
  | wins candidate enough => exact ⟨term, Or.inl ⟨rfl, probing_becomeLeaderLocked _ room⟩⟩

/-- The next of the other nodes grants its vote, and the candidate counts it. -/
theorem Poll.next (h : Poll R i t s₀ (j :: rest) votes s) (nodup : j ∉ rest)
    (best : Electable s₀ i) (bound : t < 2 ^ 32 - 1) (room : (s₀.node i).logCount ≤ raftMaxLog)
    (fits : Fits [t, R.id i, (s₀.node i).logCount, lastLogTermLocked (s₀.node i)]) :
    ∃ s', Reach Cluster.step Electing s s' ∧ Poll R i t s₀ rest (votes + 1) s' := by
  obtain ⟨hne, newer, asked⟩ := h.waits j List.mem_cons_self
  have below : ∀ {s : Cluster n}, (∀ k, (s.node k).currentTerm ≤ t) → TermsBelow s :=
    fun hs k => (hs k).trans_lt bound
  have upToDate : UpToDateFor (s.node j) (s₀.node i).logCount (lastLogTermLocked (s₀.node i)) := by
    have hbest := best j
    simp only [UpToDateFor, lastLogTermLocked, lastLogIndexLocked, RaftNode.logCount] at hbest ⊢
    rwa [h.logs j]
  -- The node handles the request.
  obtain ⟨hsends, hterm⟩ :=
    handleRequestVote_grants still.now newer upToDate (h.lists j) hne.symm
  have he₁ : exec still (.handleRequestVote t (R.id i) (s₀.node i).logCount
      (lastLogTermLocked (s₀.node i))) (s.node j) = some (handleRequestVote still.now (s.node j) t
        (R.id i) (s₀.node i).logCount (lastLogTermLocked (s₀.node i))) := rfl
  generalize handleRequestVote still.now (s.node j) t (R.id i) (s₀.node i).logCount
    (lastLogTermLocked (s₀.node i)) = e₁ at hsends hterm he₁
  obtain ⟨k₁, s₁, step₁, entered₁, nodes₁, sent₁, stay₁⟩ := Cluster.exists_deliver still asked
    ⟨(h.lists j).host.symm, (h.lists j).port.symm⟩
    (Line.Unbroken.handlers_singleton trivial (Line.handler_rv fits)) he₁
  obtain ⟨lists₁, logs₁⟩ := kept_of_update he₁ rfl nodes₁ h.lists
  have node₁ : s₁.node i = s.node i := by
    rw [nodes₁, update_of_ne hne.symm]
  have terms₁ : ∀ k, (s₁.node k).currentTerm ≤ t := by
    intro k
    rw [nodes₁]
    by_cases hk : k = j
    · subst hk
      rw [update_self, hterm]
    · rw [update_of_ne hk]
      exact h.terms k
  -- The candidate counts the vote.
  have answered : R.packet i (.rvr t (R.id j) 1) ∈ s₁.net :=
    sent₁ _ (by rw [hsends]; exact List.mem_singleton.mpr rfl)
  have fits₁ : Fits [t, R.id j, 1] := by
    have hid := R.id_lt j
    intro m hm
    simp only [List.mem_cons, List.not_mem_nil, or_false] at hm
    omega
  have he₂ : exec still (.handleRequestVoteResponse t (R.id j) 1) (s₁.node i) =
      some (handleRequestVoteResponse still.now (s₁.node i) t 1) := rfl
  generalize hresponse : handleRequestVoteResponse still.now (s₁.node i) t 1 = e₂ at he₂
  obtain ⟨k₂, s₂, step₂, entered₂, nodes₂, -, stay₂⟩ := Cluster.exists_deliver still answered
    ⟨(lists₁ i).host.symm, (lists₁ i).port.symm⟩
    (Line.Unbroken.handlers_singleton trivial (Line.handler_rvr fits₁)) he₂
  obtain ⟨lists₂, logs₂⟩ := kept_of_update he₂ rfl nodes₂ lists₁
  have room₁ : (s₁.node i).logCount ≤ raftMaxLog := by
    rw [RaftNode.logCount, node₁, h.logs i]
    exact room
  obtain ⟨term₂, stands₂⟩ :=
    voteResponse_counts hresponse (node₁ ▸ h.term) (lists₁ i) room₁ (node₁ ▸ h.stands)
  refine ⟨s₂, ?_, lists₂, fun k => (logs₂ k).trans ((logs₁ k).trans (h.logs k)), fun k => ?_, ?_,
    ?_, fun k hk => ?_⟩
  · exact (Reach.refl.tail
      (electing (.deliver k₁ j still) rfl (below h.terms) trivial entered₁ rfl) step₁).tail
      (electing (.deliver k₂ i still) rfl (below terms₁) trivial entered₂ rfl) step₂
  · rw [nodes₂]
    by_cases hk : k = i
    · subst hk
      rw [update_self, term₂]
    · rw [update_of_ne hk]
      exact terms₁ k
  · rw [nodes₂, update_self]
    exact term₂
  · rw [nodes₂, update_self]
    exact stands₂
  · obtain ⟨hki, hterm', hk'⟩ := h.waits k (List.mem_cons_of_mem j hk)
    have hkj : k ≠ j := fun heq => nodup (heq ▸ hk)
    have other : ∀ {line}, R.packet k (request R s₀ i t) ≠ R.packet j line := fun heq =>
      hkj (R.addr_inj k j (congrArg Packet.host heq) (congrArg Packet.port heq))
    have kind : R.packet k (request R s₀ i t) ≠ R.packet i (.rvr t (R.id j) 1) := fun heq => by
      cases congrArg Packet.line heq
    refine ⟨hki, ?_, stay₂ _ (stay₁ _ hk' other) kind⟩
    rw [nodes₂, update_of_ne hki, nodes₁, update_of_ne hkj]
    exact hterm'

theorem Poll.run (h : Poll R i t s₀ rest votes s) (nodup : rest.Nodup) (best : Electable s₀ i)
    (bound : t < 2 ^ 32 - 1) (room : (s₀.node i).logCount ≤ raftMaxLog)
    (fits : Fits [t, R.id i, (s₀.node i).logCount, lastLogTermLocked (s₀.node i)]) :
    ∃ s', Reach Cluster.step Electing s s' ∧ Poll R i t s₀ [] (votes + rest.length) s' := by
  induction rest generalizing votes s with
  | nil => exact ⟨s, .refl, h⟩
  | cons j rest ih =>
    obtain ⟨fresh, nodup⟩ := List.nodup_cons.mp nodup
    obtain ⟨s₁, run₁, h₁⟩ := h.next fresh best bound room fits
    obtain ⟨s₂, run₂, h₂⟩ := ih h₁ nodup
    refine ⟨s₂, run₁.trans run₂, ?_⟩
    rwa [List.length_cons, Nat.add_comm rest.length, ← Nat.add_assoc]

/-- A node stands for election. -/
theorem exists_stands (i : Fin n) (lists : ∀ k, R.Lists k (s.node k)) (below : TermsBelow s) :
    ∃ s', Reach Cluster.step Electing s s' ∧
      s'.node = update s.node i (startElection still.now (s.node i)).node ∧
      (∀ p ∈ (startElection still.now (s.node i)).sends, p ∈ s'.net) ∧
      (s'.node i).currentTerm = (s.node i).currentTerm + 1 ∧
      (∀ k, R.Lists k (s'.node k)) ∧ ∀ k, (s'.node k).log = (s.node k).log := by
  have he : exec still .startElection (s.node i) = some (startElection still.now (s.node i)) := rfl
  have hterm := startElection_term still.now (s.node i)
  generalize startElection still.now (s.node i) = e at he hterm ⊢
  let s' : Cluster n := ⟨update s.node i e.node, (i, e.todo ++ []) :: s.threads, e.sends ++ s.net⟩
  have hstep : s.step (.enter i still .startElection) = some s' := by
    rw [Cluster.step, Cluster.run, he]
    rfl
  have nodes : s'.node = update s.node i e.node := rfl
  obtain ⟨lists', logs'⟩ := kept_of_update he rfl nodes lists
  have entered : s.entered (.enter i still .startElection) = some (i, .startElection) := rfl
  refine ⟨s', Reach.refl.tail
    (electing (.enter i still .startElection) rfl below trivial entered rfl) hstep, rfl,
    fun p hp => List.mem_append_left _ hp, ?_, lists', logs'⟩
  have := below i
  rw [nodes, update_self, hterm]
  omega

/-- A node comes to any later term by standing again and again. -/
theorem exists_raised (i : Fin n) (lists : ∀ k, R.Lists k (s.node k)) (below : TermsBelow s) {u : ℕ}
    (later : (s.node i).currentTerm ≤ u) (bound : u < 2 ^ 32 - 1) :
    ∃ s', Reach Cluster.step Electing s s' ∧ (s'.node i).currentTerm = u ∧
      (∀ k, k ≠ i → s'.node k = s.node k) ∧ (∀ k, R.Lists k (s'.node k)) ∧
      ∀ k, (s'.node k).log = (s.node k).log := by
  induction u, later using Nat.le_induction with
  | base => exact ⟨s, .refl, rfl, fun _ _ => rfl, lists, fun _ => rfl⟩
  | succ u _ ih =>
    obtain ⟨s₁, run₁, term₁, others₁, lists₁, logs₁⟩ := ih (by omega)
    have below₁ : TermsBelow s₁ := by
      intro k
      by_cases hk : k = i
      · rw [hk, term₁]
        omega
      · rw [others₁ k hk]
        exact below k
    obtain ⟨s₂, run₂, nodes₂, -, term₂, lists₂, logs₂⟩ := exists_stands i lists₁ below₁
    refine ⟨s₂, run₁.trans run₂, by rw [term₂, term₁], fun k hk => ?_, lists₂,
      fun k => (logs₂ k).trans (logs₁ k)⟩
    rw [nodes₂, update_of_ne hk, others₁ k hk]

/-- A node stands in a term that no node has come to. -/
theorem exists_poll (i : Fin n) (lists : ∀ k, R.Lists k (s.node k)) (bound : t < 2 ^ 32 - 1)
    (room : (s.node i).logCount ≤ raftMaxLog)
    (newer : ∀ k, (s.node k).currentTerm < t) :
    ∃ s', Reach Cluster.step Electing s s' ∧ Poll R i t s (R.order i) 1 s' := by
  have below : TermsBelow s := fun k => (newer k).trans bound
  obtain ⟨u, rfl⟩ := Nat.exists_eq_succ_of_ne_zero (Nat.ne_zero_of_lt (newer i))
  obtain ⟨s₁, run₁, term₁, others₁, lists₁, logs₁⟩ :=
    exists_raised i lists below (Nat.le_of_lt_succ (newer i)) (by omega)
  have below₁ : TermsBelow s₁ := by
    intro k
    by_cases hk : k = i
    · rw [hk, term₁]
      omega
    · rw [others₁ k hk]
      exact below k
  obtain ⟨s₂, run₂, nodes₂, sent₂, term₂, lists₂, logs₂⟩ := exists_stands i lists₁ below₁
  have others : ∀ k, k ≠ i → s₂.node k = s.node k := by
    intro k hk
    rw [nodes₂, update_of_ne hk, others₁ k hk]
  have hmajority := Roster.majorityCount_eq (lists₁ i)
  have hone : toInt32 (1 : ℕ) = 1 := toInt32_of_lt (by decide)
  refine ⟨s₂, run₁.trans run₂, lists₂, fun k => (logs₂ k).trans (logs₁ k), fun k => ?_,
    by rw [term₂, term₁], ?_, fun k hk => ?_⟩
  · by_cases hk : k = i
    · rw [hk, term₂, term₁]
    · rw [others k hk]
      exact (newer k).le
  · rw [nodes₂, update_self, startElection_eq, hmajority, hone]
    split
    · refine Or.inl ⟨rfl, probing_becomeLeaderLocked _ ?_⟩
      rw [RaftNode.logCount, ← logs₁ i] at room
      exact room
    · exact Or.inr ⟨rfl, rfl, by omega⟩
  · have hki := (R.mem_order i k).mp hk
    refine ⟨hki, by rw [others k hki]; exact newer k, sent₂ _ ?_⟩
    rw [startElection_eq, hmajority, hone]
    split
    · have hlength := R.length_order i
      have := List.length_pos_of_mem hk
      omega
    · have hlog := logs₁ i
      have hlt := newer i
      dsimp only
      rw [Roster.sendToAll_eq (lists₁ i), (lists₁ i).id, term₁, Nat.mod_eq_of_lt (by omega)]
      refine List.mem_map.mpr ⟨k, hk, ?_⟩
      simp only [request, lastLogIndexLocked, lastLogTermLocked, RaftNode.logCount, hlog]

/-- The numbers of a vote request are those of 32 bits. -/
theorem Sim.fits_request {P : Prop} {α : Type} {V : View α} {g : Ledger (Fin n) α}
    (h : Sim P R V g s) (i : Fin n) (bound : t < 2 ^ 32 - 1) :
    Fits [t, R.id i, (s.node i).logCount, lastLogTermLocked (s.node i)] := by
  have hid := R.id_lt i
  have hlength : (s.node i).logCount ≤ raftMaxLog := (h.nodes i).room
  have hlast : lastLogTermLocked (s.node i) ≤ (s.node i).currentTerm := by
    rw [lastLogTermLocked]
    cases hlast : (s.node i).log.getLast? with
    | none => exact Nat.zero_le _
    | some d => exact (h.nodes i).term_le h.matching (List.mem_of_getLast? hlast)
  have hterm := (h.nodes i).bound
  simp only [raftMaxLog] at hlength
  intro m hm
  simp only [List.mem_cons, List.not_mem_nil, or_false] at hm
  omega

/-- An electable node is elected in the term after the last one, with the log that it had. -/
theorem Sim.exists_elected {P : Prop} {α : Type} {V : View α} {g : Ledger (Fin n) α}
    (h : Sim P R V g s) (best : Electable s i)
    (room : ∀ k, (s.node k).currentTerm + 1 < 2 ^ 32 - 1) :
    ∃ s', Reach Cluster.step Electing s s' ∧ (s'.node i).role = .leader ∧ Probing (s'.node i) ∧
      (∃ k, (s'.node i).currentTerm = (s.node k).currentTerm + 1) ∧
      (∀ k, (s.node k).currentTerm < (s'.node i).currentTerm) ∧
      (∀ k, (s'.node k).currentTerm ≤ (s'.node i).currentTerm) ∧
      ∀ k, (s'.node k).log = (s.node k).log := by
  have : Nonempty (Fin n) := ⟨i⟩
  obtain ⟨m, -, hm⟩ := Finset.exists_max_image Finset.univ (fun k => (s.node k).currentTerm)
    Finset.univ_nonempty
  have newer : ∀ k, (s.node k).currentTerm < (s.node m).currentTerm + 1 := fun k =>
    Nat.lt_succ_of_le (hm k (Finset.mem_univ k))
  obtain ⟨s₁, run₁, h₁⟩ := exists_poll i h.lists (room m) (h.nodes i).room newer
  obtain ⟨s₂, run₂, h₂⟩ :=
    h₁.run (R.nodup i) best (room m) (h.nodes i).room (h.fits_request i (room m))
  obtain ⟨lead, probing⟩ := h₂.stands.resolve_right (by
    rintro ⟨-, -, few⟩
    have := R.length_order i
    omega)
  exact ⟨s₂, run₁.trans run₂, lead, probing, ⟨m, h₂.term⟩, fun k => h₂.term ▸ newer k,
    fun k => h₂.term ▸ h₂.terms k, h₂.logs⟩

/-- In every state that a cluster with fixed tables can come to with terms left, some node is
electable, and every electable node can be elected: with elections, vote requests and their answers
alone it comes to lead in the term after the last one, with the log that it had. -/
theorem election_possible {now : Fin n → ℕ} {config : Fin n → RaftConfig} (hn : 0 < n)
    (tables : FixedTables (Cluster.start now config).node)
    (run : Reach Cluster.step Admitted (Cluster.start now config) s)
    (room : ∀ i, (s.node i).currentTerm + 1 < 2 ^ 32 - 1) :
    (∃ i, Electable s i) ∧ ∀ i, Electable s i → ∃ s', Reach Cluster.step Electing s s' ∧
      (s'.node i).role = .leader ∧
      (∃ k, (s'.node i).currentTerm = (s.node k).currentTerm + 1) ∧
      (∀ k, (s.node k).currentTerm < (s'.node i).currentTerm) ∧
      ∀ k, (s'.node k).log = (s.node k).log := by
  refine ⟨exists_electable s hn, fun i best => ?_⟩
  obtain ⟨R, g, h⟩ := exists_history tables run
  obtain ⟨s', run', lead, -, next, newer, -, logs⟩ := h.exists_elected best room
  exact ⟨s', run', lead, next, newer, logs⟩

end Election

/-- Node 2 and node 3 have been without the entry that node 1 has committed, and node 2 has got
it: it can be elected. -/
theorem election_possible_trio : ∃ s s', Reach Cluster.step Admitted trio s ∧
    (s.node node1).role = .leader ∧ (s.node node3).log = [] ∧ Electable s node2 ∧
    Reach Cluster.step Electing s s' ∧ (s'.node node2).role = .leader ∧
    (s.node node1).currentTerm < (s'.node node2).currentTerm ∧
    (s'.node node2).log = (s.node node2).log := by
  have hrun : (runList Cluster.step (fun s a => decide (Admitted s a)) trio trioCommit).any
      (fun s => (s.node node1).role = .leader ∧ (s.node node3).log = [] ∧
        (∀ i, (s.node i).currentTerm + 1 < 2 ^ 32 - 1) ∧
        ∀ j, lastLogTermLocked (s.node j) < lastLogTermLocked (s.node node2) ∨
          (lastLogTermLocked (s.node node2) = lastLogTermLocked (s.node j) ∧
            lastLogIndexLocked (s.node j) ≤ (s.node node2).logCount)) = true := by
    decide +kernel
  obtain ⟨s, run, hs⟩ := exists_reach (fun s a => of_decide_eq_true) hrun
  obtain ⟨lead, empty, room, best⟩ := of_decide_eq_true hs
  obtain ⟨-, elects⟩ := election_possible (by decide) fixedTables_trio run room
  obtain ⟨s', run', hlead, -, hterm, hlog⟩ := elects node2 best
  exact ⟨s, s', run, lead, empty, best, run', hlead, hterm node1, hlog node2⟩

end RaftKv
