import RaftKv.Commands
import RaftKv.Durability
import RaftKv.Leaders
import RaftKv.Redelivery
import RaftKv.Submission

/-! A cluster that has come to rest.  When all nodes have the log of the leader of their term and
have applied it, then until a node stands for election or a command comes in no line that is still
on its way, however old, and no timer changes a log, a term or a store. -/

namespace RaftKv

open Consensus Consensus.Ledger Function Runs Stdio

attribute [local irreducible] toInt32

/-! ### Terms on their way -/

/-- The term that a line is sent in. -/
def Line.term : Line → Option ℕ
  | .rv term .. | .rvr term .. | .ae term .. | .aer term .. => some term
  | _ => none

section Exec

variable {x : RaftNode} {env : Env} {sec : Section} {e : Effect} {p : Packet}

/-- A section sends its lines in the term in which it leaves the node. -/
theorem exec_sends_term (he : exec env sec x = some e) (hp : p ∈ e.sends) :
    ∀ u ∈ p.line.term, u = e.node.currentTerm := by
  intro u hu
  have kind := exec_sends he hp
  cases hline : p.line with
  | rv t c li lt =>
    rw [hline] at kind hu
    cases sec with
    | startElection =>
      obtain rfl := Option.some.inj he
      rw [startElection_eq] at hp ⊢
      split at hp
      · cases hp
      · rename_i few
        obtain ⟨rfl, -⟩ := Line.rv.inj (hline.symm.trans (line_sendToAll hp))
        rw [if_neg few]
        exact (Option.some.inj hu).symm
    | _ => cases kind
  | rvr t v granted =>
    rw [hline] at kind hu
    cases sec with
    | handleRequestVote t' c li lt =>
      obtain rfl := Option.some.inj he
      generalize hx : (if x.currentTerm < t' then becomeFollowerLocked env.now x t' (-1)
        else x) = y
      rw [handleRequestVote_eq hx] at hp ⊢
      split at hp
      · rename_i grant
        obtain ⟨rfl, -⟩ := Line.rvr.inj (hline.symm.trans (line_sendToPeer hp))
        rw [if_pos grant]
        exact (Option.some.inj hu).symm
      · rename_i deny
        obtain ⟨rfl, -⟩ := Line.rvr.inj (hline.symm.trans (line_sendToPeer hp))
        rw [if_neg deny]
        exact (Option.some.inj hu).symm
    | _ => cases kind
  | ae t l pi pt lc entry =>
    rw [hline] at kind hu
    cases sec with
    | sendAppendToPeer id =>
      obtain ⟨_, _, _, hsent, -⟩ := sendAppendToPeer_sends he hp
      obtain ⟨rfl, -⟩ := Line.ae.inj (hline.symm.trans hsent)
      obtain ⟨-, -, ps, hnode, -⟩ := sendAppendToPeer_peers he
      rw [hnode]
      exact (Option.some.inj hu).symm
    | _ => cases kind
  | aer t id success m =>
    rw [hline] at kind hu
    cases sec with
    | handleAppendEntries =>
      obtain ⟨_, _, hsent⟩ := handleAppendEntries_sends he hp
      obtain ⟨rfl, -⟩ := Line.aer.inj (hline.symm.trans hsent)
      exact (Option.some.inj hu).symm
    | _ => cases kind
  | join | peer | leave | cl =>
    rw [hline] at hu
    cases hu

end Exec

section Fixed

variable {n : ℕ} {R : Roster n} {g : Ledger (Fin n) RaftLogEntry} {now : Fin n → ℕ}
  {config : Fin n → RaftConfig} {s s' : Cluster n} {i j k : Fin n} {t : ℕ}
  {es : List RaftLogEntry}

/-- A section has the term of the line that it handles. -/
theorem LineSim.section_term {line : Line} (h : LineSim True R plainView g j line) {sec : Section}
    (hsec : line.handler = some sec) : sec.term = line.term := by
  cases line with
  | rv t c li lt =>
    rw [Line.handler_rv h.1] at hsec
    exact Option.some.inj hsec ▸ rfl
  | rvr t v granted =>
    rw [Line.handler_rvr h.1] at hsec
    exact Option.some.inj hsec ▸ rfl
  | ae t l pi pt lc entry =>
    have htag : sec.tag = bytes "AE" := Line.handler_tag hsec
    cases sec with
    | handleAppendEntries u => exact congrArg some (h.ae_handler hsec).1
    | _ => exact absurd htag (by simp only [Section.tag]; decide)
  | aer t f success m =>
    rw [Line.handler_aer h.aer_fits] at hsec
    exact Option.some.inj hsec ▸ rfl
  | cl src op key value =>
    rw [Line.handler_cl_clean h.1 h.2.toCleanCommand] at hsec
    exact Option.some.inj hsec ▸ rfl
  | join | peer | leave => exact h.elim

/-- No line on its way is of a later term than all nodes. -/
def NotAhead (s : Cluster n) : Prop :=
  ∀ p ∈ s.net, ∀ u ∈ p.line.term, ∃ k, u ≤ (s.node k).currentTerm

theorem NotAhead.step (h : NotAhead s) {a : Action n} (below : TermsBelow s)
    (hstep : s.step a = some s') : NotAhead s' := by
  rcases Cluster.step_cases hstep with ⟨pre, p, post, hnet, rfl⟩ |
    ⟨i, env, sec, rest, threads, net, e, hent, hsrc, he, rfl⟩
  · intro q hq
    refine h q (hnet ▸ ?_)
    rcases List.mem_append.mp hq with hq | hq
    · exact List.mem_append_left _ hq
    · exact List.mem_append_right _ (List.mem_cons_of_mem _ hq)
  · intro q hq u hu
    have up : ∀ k, (s.node k).currentTerm ≤ (update s.node i e.node k).currentTerm := by
      intro k
      by_cases hk : k = i
      · subst hk
        rw [update_self]
        exact (exec_turn he).term_le (below k)
      · rw [update_of_ne hk]
    rcases List.mem_append.mp hq with hq | hq
    · exact ⟨i, by simpa using (exec_sends_term he hq u hu).le⟩
    · obtain ⟨k, hk⟩ := h q (hsrc.mem_net hq) u hu
      exact ⟨k, hk.trans (up k)⟩

theorem notAhead_of_reach
    (run : Reach Cluster.step SteadyPlain (Cluster.start now config) s) : NotAhead s := by
  refine run.invariant (fun p hp => absurd hp List.not_mem_nil) ?_
  rintro s a s' - h ha hstep
  exact h.step ha.1.1.2 hstep

/-! ### The cluster at rest -/

/-- A section handles no line with a term, or one that is on its way to its node. -/
theorem Sim.origin (h : Sim True R plainView g s) {a : Action n} {sec : Section}
    {rest : List Section} {threads : List (Fin n × List Section)} {net : List Packet}
    (fixed : a.fixed = true) (src : Cluster.Source s k sec a rest threads net) :
    sec.term = none ∨ ∃ line, R.packet k line ∈ s.net ∧ LineSim True R plainView g k line ∧
      line.handler = some sec := by
  cases src.origin h.unbroken with
  | enter env =>
    left
    cases sec with
    | handleRequestVote | handleRequestVoteResponse | handleAppendEntries
    | handleAppendResponse => cases fixed
    | _ => rfl
  | resume m env rest pre post split =>
    left
    have waiting : sec.Waiting n :=
      h.threads _ (split ▸ List.mem_append_right _ List.mem_cons_self) _ List.mem_cons_self
    cases sec with
    | handleRequestVote | handleRequestVoteResponse | handleAppendEntries
    | handleAppendResponse => exact waiting.elim
    | _ => rfl
  | deliver m env c p pre post split address parsed =>
    have hp : p ∈ s.net := split ▸ List.mem_append_right _ List.mem_cons_self
    obtain ⟨j, line, rfl, hline⟩ := h.lines p hp
    obtain rfl := R.addr_inj j k (by rw [← (h.lists k).host]; exact address.1)
      (by rw [← (h.lists k).port]; exact address.2)
    exact Or.inr ⟨line, hp, hline, parsed⟩

/-- The entry of an `AE` line is in the log of the leader of its term. -/
theorem LineSim.ae_entry {line : Line} (h : LineSim True R plainView g k line) {l pi pt lc has : ℕ}
    {d : RaftLogEntry}
    (hsec : line.handler = some (.handleAppendEntries t l pi pt lc has d)) :
    g.leader t ≠ some k ∧ (has ≠ 0 → d.index = pi + 1 ∧ (g.lead t)[pi]? = some d) := by
  obtain ⟨u, c, q, qt, lc', entry, rfl⟩ := Line.ae_of_handler hsec
  obtain ⟨rfl, rfl⟩ := h.ae_handler hsec
  have hline := h
  obtain ⟨hfit, b, w, rfl, hw, hbacked⟩ := h
  have backed := hbacked trivial
  refine ⟨fun hk => backed.other (Option.some.inj (hk.symm.trans backed.leader)), fun hhas => ?_⟩
  cases entry with
  | none =>
    rw [Line.handler_ae_none hfit] at hsec
    obtain ⟨-, -, -, -, -, hzero, -⟩ := Section.handleAppendEntries.inj (Option.some.inj hsec)
    exact absurd hzero.symm hhas
  | some entry =>
    obtain ⟨hindex, hget, hclean⟩ := hw.last entry rfl
    have hlen : w.length = q + 1 := hw.length
    obtain ⟨d', heq, hindex', hview, -⟩ := plainView.entry hline.ae_fits hclean hsec
    obtain ⟨-, -, rfl, -, -, -, rfl⟩ := Section.handleAppendEntries.inj heq
    refine ⟨hindex'.trans hindex, ?_⟩
    rw [show d = entry from hview]
    obtain ⟨more, hmore⟩ := backed.part
    rw [← hmore]
    exact (List.getElem?_append_left (by omega)).trans hget

/-- All nodes have come to the log of a leader in its term and have committed it, and no line is of
a later term. -/
structure AtRest (R : Roster n) (i : Fin n) (t : ℕ) (es : List RaftLogEntry) (s : Cluster n) :
    Prop where
  sim : ∃ g, Sim True R plainView g s
  lead : (s.node i).role = .leader
  term : ∀ k, (s.node k).currentTerm = t
  log : ∀ k, (s.node k).log = es
  commit : ∀ k, (s.node k).commitIndex = es.length
  lines : NotAhead s

/-- No node stands for election, and no command comes in. -/
def Unprompted (s : Cluster n) (a : Action n) : Prop :=
  SteadyPlain s a ∧ ∀ q ∈ s.entered a, q.2 ≠ .startElection ∧ q.2.submits = false

instance (s : Cluster n) (a : Action n) : Decidable (Unprompted s a) :=
  inferInstanceAs (Decidable (_ ∧ _))

/-- What a section leaves of a node at rest. -/
theorem AtRest.exec (h : AtRest R i t es s) {a : Action n} {env : Env} {sec : Section} {e : Effect}
    {rest : List Section} {threads : List (Fin n × List Section)} {net : List Packet}
    (fixed : a.fixed = true) (src : Cluster.Source s k sec a rest threads net)
    (he : RaftKv.exec env sec (s.node k) = some e) (quiet : sec ≠ .startElection)
    (idle : sec.submits = false) :
    e.node.currentTerm = t ∧ e.node.log = es ∧ (k = i → e.node.role = .leader) := by
  obtain ⟨g, hs⟩ := h.sim
  obtain ⟨hleader, hlead⟩ := (hs.nodes i).leads h.lead
  rw [h.term, hs.log_eq, h.log] at hlead
  rw [h.term] at hleader
  have older : ∀ u, sec.term = some u → u ≤ t := by
    intro u hu
    rcases hs.origin fixed src with hnone | ⟨line, hp, hline, parsed⟩
    · rw [hnone] at hu
      cases hu
    · obtain ⟨m, hm⟩ := h.lines _ hp u ((hline.section_term parsed).symm.trans hu)
      exact hm.trans (h.term m).le
  have heard : ∀ l pi pt lc has d, sec = .handleAppendEntries t l pi pt lc has d →
      k ≠ i ∧ (has ≠ 0 → d.index = pi + 1 ∧ es[pi]? = some d) := by
    rintro l pi pt lc has d rfl
    rcases hs.origin fixed src with hnone | ⟨line, hp, hline, parsed⟩
    · cases hnone
    · obtain ⟨hother, hentry⟩ := hline.ae_entry parsed
      rw [hlead] at hentry
      exact ⟨fun hk => hother (hk ▸ hleader), hentry⟩
  refine ⟨?_, ?_, fun hk => ?_⟩
  · have turn := exec_termTurn he
    generalize e.node.currentTerm = u at turn
    cases turn with
    | stay => exact h.term k
    | follow term newer =>
      have := older _ term
      rw [h.term] at newer
      omega
    | stand => exact absurd rfl quiet
  · have turn := (exec_log he).1
    generalize e.node.log = log at turn
    cases turn with
    | keep => exact h.log k
    | append submits =>
      rcases submits with rfl | ⟨source, rfl⟩
      · cases idle
      · cases idle
    | @store u l pi pt lc has d log term prev entry stored =>
      rw [h.term] at term
      obtain rfl := le_antisymm (older u rfl) term
      obtain ⟨-, hentry⟩ := heard l pi pt lc has d rfl
      obtain ⟨hindex, hget⟩ := hentry entry
      have hroom := (hs.nodes k).room
      rw [h.log] at hroom stored
      have hlt := (List.getElem?_eq_some_iff.mp hget).1
      exact Option.some.inj (stored.symm.trans
        (storeEntry_present hindex (hlt.trans_le hroom) hget rfl))
  · subst hk
    have turn := exec_turn he
    generalize hseat : e.node.seat = seat at turn
    have hrole : e.node.role = seat.role := congrArg Seat.role hseat
    rw [hrole]
    cases turn with
    | stay | reopen => exact h.lead
    | follow term newer =>
      have := older _ term
      rw [h.term] at newer
      omega
    | @yield l pi pt lc has d =>
      exact absurd rfl (heard l pi pt lc has d (by rw [h.term])).1
    | @grant u c li lt free =>
      have hno : ¬(s.node k).currentTerm < u := by
        rw [h.term]
        exact not_lt.mpr (older u rfl)
      exact (if_neg hno).trans h.lead
    | stand => exact absurd rfl quiet
    | win => rfl

theorem AtRest.step (h : AtRest R i t es s) {a : Action n} (ok : Unprompted s a)
    (hstep : s.step a = some s') : AtRest R i t es s' := by
  obtain ⟨steady, quiet⟩ := ok
  obtain ⟨admitted, clean, guard⟩ := steady.ok
  obtain ⟨g, hs⟩ := h.sim
  obtain ⟨g', -, hs', keeps⟩ := hs.step hstep admitted clean guard
  have lines := h.lines.step admitted.2 hstep
  -- What is committed stays, and there is nothing else to commit.
  have commit : ∀ k, (s'.node k).log = es → (s'.node k).commitIndex = es.length := by
    intro k hlog
    have hle := ((hs'.nodes k).safe trivial).commit_le
    have hge := (keeps trivial k).commit
    rw [hlog] at hle
    rw [h.commit] at hge
    exact le_antisymm hle hge
  have rest : ∀ k, (s'.node k).currentTerm = t ∧ (s'.node k).log = es ∧
      (k = i → (s'.node k).role = .leader) := by
    rcases Cluster.step_cases hstep with ⟨pre, p, post, hnet, rfl⟩ |
      ⟨j, env, sec, rest, threads, net, e, hent, hsrc, he, rfl⟩
    · exact fun k => ⟨h.term k, h.log k, fun hk => hk ▸ h.lead⟩
    · intro k
      obtain ⟨noElection, idle⟩ := quiet (j, sec) hent
      by_cases hk : k = j
      · subst hk
        simpa using h.exec admitted.1 hsrc he noElection idle
      · simp only [update_of_ne hk]
        exact ⟨h.term k, h.log k, fun hk => hk ▸ h.lead⟩
  exact
    { sim := ⟨g', hs'⟩
      lead := (rest i).2.2 rfl
      term := fun k => (rest k).1
      log := fun k => (rest k).2.1
      commit := fun k => commit k (rest k).2.1
      lines }

/-- A cluster with fixed tables and plain commands in which all nodes have come to the log of the
leader of their term, and have committed it, stays as it is until a node stands for election or a
command comes in: no line that is still on its way, however old, and no heartbeat changes a term, a
log, a store or the leader. -/
theorem rest_lasts (tables : FixedTables (Cluster.start now config).node)
    (run : Reach Cluster.step SteadyPlain (Cluster.start now config) s)
    (lead : (s.node i).role = .leader)
    (term : ∀ k, (s.node k).currentTerm = (s.node i).currentTerm)
    (log : ∀ k, (s.node k).log = (s.node i).log)
    (commit : ∀ k, (s.node k).commitIndex = (s.node k).logCount)
    (run' : Reach Cluster.step Unprompted s s') :
    (s'.node i).role = .leader ∧ ∀ k, (s'.node k).currentTerm = (s.node k).currentTerm ∧
      (s'.node k).log = (s.node k).log ∧ (s'.node k).commitIndex = (s.node k).commitIndex ∧
      (s'.node k).lastApplied = (s.node k).lastApplied ∧ (s'.node k).store = (s.node k).store := by
  obtain ⟨R, h0⟩ := sim_start tables True plainView
  obtain ⟨g, hs, -⟩ := h0.reach_keeps run
  have h : AtRest R i (s.node i).currentTerm (s.node i).log s :=
    ⟨⟨g, hs⟩, lead, term, log, fun k => (commit k).trans (congrArg List.length (log k)),
      notAhead_of_reach run⟩
  have h' : AtRest R i (s.node i).currentTerm (s.node i).log s' :=
    run'.invariant h fun _ _ _ _ hrest ok hstep => hrest.step ok hstep
  obtain ⟨g', hs'⟩ := h'.sim
  have whole : Reach Cluster.step SteadyPlain (Cluster.start now config) s' :=
    run.trans (run'.mono fun _ _ ok => ok.1)
  refine ⟨h'.lead, fun k => ?_⟩
  have safe := (hs.nodes k).safe trivial
  have safe' := (hs'.nodes k).safe trivial
  have hlog : (s'.node k).log = (s.node k).log := (h'.log k).trans (h.log k).symm
  have hcommit : (s'.node k).commitIndex = (s.node k).commitIndex :=
    (h'.commit k).trans (h.commit k).symm
  have applied : (s.node k).lastApplied = (s.node k).commitIndex :=
    le_antisymm safe.applied_le (storeInv_of_reach run k).done
  have applied' : (s'.node k).lastApplied = (s'.node k).commitIndex :=
    le_antisymm safe'.applied_le (storeInv_of_reach whole k).done
  refine ⟨(h'.term k).trans (h.term k).symm, hlog, hcommit, ?_, ?_⟩
  · rw [applied', hcommit, applied]
  · rw [safe'.store, safe.store, applied', applied, hcommit, hlog]

/-- Node 1 brings its entry to node 3 too, so that the cluster is at rest. -/
def trioRest : List (Action 3) :=
  trioCommit ++ [.enter node1 still (.sendAppendToPeer 3), .deliver 0 node3 still]

/-- The answers come in, a heartbeat goes out, and the vote request to node 3 arrives late. -/
def trioIdle : List (Action 3) :=
  [.deliver 0 node1 still, .deliver 0 node1 still, .enter node1 still (.sendAppendToPeer 2),
    .deliver 0 node2 still, .deliver 1 node3 still]

theorem rest_lasts_trio : ∃ s s', Reach Cluster.step SteadyPlain trio s ∧
    Reach Cluster.step Unprompted s s' ∧ s'.net.length = 2 ∧ (s'.node node1).role = .leader ∧
    ∀ k, (s'.node k).log = [⟨1, 1, .set, bytes "k", bytes "a"⟩] := by
  have hrun : (runList Cluster.step (fun s a => decide (SteadyPlain s a)) trio trioRest).any
      (fun s => decide ((s.node node1).role = .leader ∧
        (∀ k, (s.node k).currentTerm = (s.node node1).currentTerm) ∧
        (∀ k, (s.node k).log = [⟨1, 1, .set, bytes "k", bytes "a"⟩]) ∧
        ∀ k, (s.node k).commitIndex = (s.node k).logCount) &&
      (runList Cluster.step (fun s a => decide (Unprompted s a)) s trioIdle).any
        fun s' => s'.net.length = 2) = true := by
    decide +kernel
  obtain ⟨s, run, hs⟩ := exists_reach (fun s a => of_decide_eq_true) hrun
  obtain ⟨hrest, hrun'⟩ := Bool.and_eq_true_iff.mp hs
  obtain ⟨lead, term, log, commit⟩ := of_decide_eq_true hrest
  obtain ⟨s', run', hs'⟩ := exists_reach (fun s a => of_decide_eq_true) hrun'
  obtain ⟨lead', same⟩ := rest_lasts fixedTables_trio run lead term
    (fun k => (log k).trans (log node1).symm) commit run'
  exact ⟨s, s', run, run', of_decide_eq_true hs', lead', fun k => (same k).2.1.trans (log k)⟩

end Fixed

end RaftKv
