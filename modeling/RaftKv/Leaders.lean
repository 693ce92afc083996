import RaftKv.Roles
import RaftKv.Safety

/-! The leader that a node knows, to which it forwards commands.  While the steps are guarded it is
the leader of the node's term, so a command that is forwarded again and again comes to nodes of
later and later terms, and does not go in a circle. -/

namespace RaftKv

open Consensus Consensus.Ledger Function Runs Stdio

attribute [local irreducible] toInt32

variable {x y : RaftNode} {sec : Section} {env : Env} {e : Effect}

/-! ### One section -/

/-- What a section does to the leader that the node knows, and to its term. -/
inductive LeaderTurn (x : RaftNode) : Section → RaftNode → Prop
  | keeps {sec : Section} {y : RaftNode} (leader : y.leaderId = x.leaderId)
      (term : y.currentTerm = x.currentTerm) : LeaderTurn x sec y
  | forgets {sec : Section} {y : RaftNode} (leader : y.leaderId = -1) : LeaderTurn x sec y
  | hears {t l pi pt lc has : ℕ} {d : RaftLogEntry} {y : RaftNode}
      (leader : y.leaderId = toInt32 l) (term : y.currentTerm = t) :
      LeaderTurn x (.handleAppendEntries t l pi pt lc has d) y
  | leads {sec : Section} {y : RaftNode} (leader : y.leaderId = toInt32 x.id)
      (role : y.role = .leader) : LeaderTurn x sec y

theorem becomeFollowerLocked_leader (now t : ℕ) (l : ℤ) :
    (becomeFollowerLocked now x t l).leaderId = l ∧
      (x.currentTerm ≤ t → (becomeFollowerLocked now x t l).currentTerm = t) := by
  rcases Nat.lt_or_ge x.currentTerm t with hlt | hle
  · rw [becomeFollowerLocked_of_lt hlt]
    exact ⟨rfl, fun _ => rfl⟩
  · rw [becomeFollowerLocked_of_le hle]
    exact ⟨rfl, fun h => le_antisymm h hle⟩

theorem LeaderTurn.led {z : RaftNode} (hid : z.id = x.id) :
    LeaderTurn x sec (becomeLeaderLocked z) := by
  obtain ⟨hrole, hleader, -⟩ := Post.mk.inj (post_becomeLeaderLocked z)
  exact .leads (hid ▸ hleader) hrole

theorem id_candidate (now : ℕ) (x : RaftNode) : (candidate now x).id = x.id := by
  unfold candidate
  generalize toInt32 x.id = v, (x.currentTerm + 1) % 2 ^ 32 = t, randomElectionTimeout x now = r
  rfl

theorem leaderTurn_startElection (now : ℕ) :
    LeaderTurn x .startElection (startElection now x).node := by
  obtain ⟨-, hleader, -⟩ := Post.mk.inj (post_candidate now x)
  rw [startElection_eq]
  split
  · obtain ⟨hrole, hleads, -⟩ := Post.mk.inj (post_becomeLeaderLocked (candidate now x))
    exact .leads (id_candidate now x ▸ hleads) hrole
  · exact .forgets hleader

theorem leader_voteRequest (x : RaftNode) (v : ℤ) (now : ℕ) (event : Event) :
    (RaftNode.logEvent { x with votedFor := v, lastLeaderContactMs := now } event).leaderId =
        x.leaderId ∧
      (RaftNode.logEvent { x with votedFor := v, lastLeaderContactMs := now } event).currentTerm =
        x.currentTerm := ⟨rfl, rfl⟩

theorem leaderTurn_handleRequestVote (now t c li lt : ℕ) :
    LeaderTurn x (.handleRequestVote t c li lt) (handleRequestVote now x t c li lt).node := by
  generalize hx : (if x.currentTerm < t then becomeFollowerLocked now x t (-1) else x) = x1
  obtain ⟨hleader, hterm⟩ : (handleRequestVote now x t c li lt).node.leaderId = x1.leaderId ∧
      (handleRequestVote now x t c li lt).node.currentTerm = x1.currentTerm := by
    rw [handleRequestVote_eq hx]
    split
    · exact leader_voteRequest x1 (toInt32 c) now _
    · exact ⟨rfl, rfl⟩
  split at hx
  · refine .forgets (hleader.trans ?_)
    rw [← hx]
    exact (becomeFollowerLocked_leader now t (-1)).1
  · subst hx
    exact .keeps hleader hterm

theorem leaderTurn_handleRequestVoteResponse (now t v granted : ℕ) :
    LeaderTurn x (.handleRequestVoteResponse t v granted)
      (handleRequestVoteResponse now x t granted).node := by
  generalize he : handleRequestVoteResponse now x t granted = e
  cases voteResponse he with
  | observes => exact .forgets (becomeFollowerLocked_leader now t (-1)).1
  | ignores | counts => exact .keeps rfl rfl
  | wins => exact .led rfl

theorem standsBy_applyCommittedLocked (h : applyCommittedLocked x = some y) :
    y.leaderId = x.leaderId ∧ y.currentTerm = x.currentTerm := by
  rw [(applyCommittedLocked_eq h).1]
  exact ⟨rfl, rfl⟩

theorem leaderTurn_handleAppendEntries {now t l pi pt lc has : ℕ} {d : RaftLogEntry}
    (he : handleAppendEntries now x t l pi pt lc has d = some e) :
    LeaderTurn x (.handleAppendEntries t l pi pt lc has d) e.node := by
  generalize hx : (if x.currentTerm ≤ t then becomeFollowerLocked now x t (toInt32 l)
    else x) = x1
  obtain ⟨hleader, hterm⟩ : e.node.leaderId = x1.leaderId ∧
      e.node.currentTerm = x1.currentTerm := by
    rcases handleAppendEntries_cases hx he with ⟨-, -, log, z, -, happ, rfl⟩ | ⟨-, rfl⟩
    · split at happ
      · obtain ⟨h1, h2⟩ := standsBy_applyCommittedLocked happ
        exact ⟨h1.trans rfl, h2.trans rfl⟩
      · rw [← Option.some.inj happ]
        exact ⟨rfl, rfl⟩
    · exact ⟨rfl, rfl⟩
  split at hx
  · rename_i newer
    obtain ⟨h1, h2⟩ := becomeFollowerLocked_leader (x := x) now t (toInt32 l)
    rw [← hx] at hleader hterm
    exact .hears (hleader.trans h1) (hterm.trans (h2 newer))
  · subst hx
    exact .keeps hleader hterm

theorem leaderTurn_handleAppendResponse {now t id success m : ℕ}
    (he : handleAppendResponse now x t id success m = some e) :
    LeaderTurn x (.handleAppendResponse t id success m) e.node := by
  cases appendResponse he with
  | observes => exact .forgets (becomeFollowerLocked_leader now t (-1)).1
  | ignores | backs => exact .keeps rfl rfl
  | takes h succeeds z recomputed =>
    obtain ⟨c, a, store, events, rfl, -⟩ := recomputeCommitLocked_shape recomputed
    exact .keeps rfl rfl

theorem exec_leaderTurn (he : exec env sec x = some e) : LeaderTurn x sec e.node := by
  have quiet : sec.term = none → sec ≠ .startElection → e.node.currentTerm = x.currentTerm := by
    intro hnone hne
    generalize hterm : e.node.currentTerm = term
    cases hterm ▸ exec_termTurn he with
    | stay => rfl
    | follow term => cases hnone.symm.trans term
    | stand => exact absurd rfl hne
  cases sec with
  | startElection =>
    obtain rfl := Option.some.inj he
    exact leaderTurn_startElection env.now
  | handleRequestVote t c li lt =>
    obtain rfl := Option.some.inj he
    exact leaderTurn_handleRequestVote env.now t c li lt
  | handleRequestVoteResponse t v granted =>
    obtain rfl := Option.some.inj he
    exact leaderTurn_handleRequestVoteResponse env.now t v granted
  | handleAppendEntries t l pi pt lc has d => exact leaderTurn_handleAppendEntries he
  | handleAppendResponse t id success m => exact leaderTurn_handleAppendResponse he
  | handleLeave id =>
    have hterm := quiet rfl fun h => (by cases h)
    generalize hpost : e.node.post = p
    obtain ⟨-, hleader, -⟩ := Post.mk.inj hpost
    have turn := exec_post he
    rw [hpost] at turn
    cases turn with
    | stay => exact .keeps hleader hterm
    | follow => exact .forgets hleader
    | remove other =>
      split at hleader
      · exact .forgets hleader
      · exact .keeps hleader hterm
  | _ =>
    have hterm := quiet rfl fun h => (by cases h)
    generalize hpost : e.node.post = p
    obtain ⟨-, hleader, -⟩ := Post.mk.inj hpost
    have turn := exec_post he
    rw [hpost] at turn
    cases turn with
    | stay => exact .keeps hleader hterm
    | follow => exact .forgets hleader

/-! ### Runs -/

section Runs

variable {n : ℕ} {α : Type} {R : Roster n} {V : View α} {g : Ledger (Fin n) α} {i j k : Fin n}
  {s s' : Cluster n} {now : Fin n → ℕ} {config : Fin n → RaftConfig}

/-- The leader that a node knows leads in the node's term. -/
def Knows (R : Roster n) (g : Ledger (Fin n) α) (s : Cluster n) : Prop :=
  ∀ i j, (s.node i).leaderId = R.id j → g.leader (s.node i).currentTerm = some j

/-- An `AE` line is read with its term and its sender. -/
theorem LineSim.ae_handler {P : Prop} {t l p pt lc : ℕ} {entry : Option RaftLogEntry}
    {t' l' p' pt' lc' has : ℕ} {d : RaftLogEntry}
    (h : LineSim P R V g j (.ae t l p pt lc entry))
    (hsec : (Line.ae t l p pt lc entry).handler =
      some (.handleAppendEntries t' l' p' pt' lc' has d)) : t' = t ∧ l' = l := by
  cases entry with
  | none =>
    rw [Line.handler_ae_none h.1] at hsec
    obtain ⟨rfl, rfl, -⟩ := Section.handleAppendEntries.inj (Option.some.inj hsec)
    exact ⟨rfl, rfl⟩
  | some entry =>
    rcases Line.handler_ae_some h.ae_fits with hnone | ⟨d', hsome, -⟩
    · cases hsec.symm.trans hnone
    · have hread := Option.some.inj (hsec.symm.trans hsome)
      obtain ⟨rfl, rfl, -⟩ := Section.handleAppendEntries.inj hread
      exact ⟨rfl, rfl⟩

/-- The handler of an `AE` line runs for a line of the leader of its term. -/
theorem Sim.heard (h : Sim True R V g s) {a : Action n} {t l pi pt lc has : ℕ} {d : RaftLogEntry}
    {rest : List Section} {threads : List (Fin n × List Section)} {net : List Packet}
    (fixed : a.fixed = true)
    (src : Cluster.Source s i (.handleAppendEntries t l pi pt lc has d) a rest threads net) :
    ∃ c, l = R.id c ∧ g.leader t = some c := by
  cases src.origin h.unbroken with
  | enter env => cases fixed
  | resume k env rest pre post split =>
    have waiting : (Section.handleAppendEntries t l pi pt lc has d).Waiting n :=
      h.threads _ (split ▸ List.mem_append_right _ List.mem_cons_self) _ List.mem_cons_self
    exact waiting.elim
  | deliver k env m p pre post split address parsed =>
    obtain ⟨j, line, rfl, hline⟩ := h.lines p (split ▸ List.mem_append_right _ List.mem_cons_self)
    obtain ⟨u, c, q, qt, lc', entry, rfl⟩ := Line.ae_of_handler parsed
    obtain ⟨rfl, rfl⟩ := hline.ae_handler parsed
    obtain ⟨-, c, w, rfl, -, hbacked⟩ := hline
    exact ⟨c, rfl, (hbacked trivial).leader⟩

theorem Knows.step (h : Sim True R V g s) (knows : Knows R g s) {a : Action n}
    (hstep : s.step a = some s') (adm : Admitted s a) (clean : a.Clean V) (guard : Guarded s a) :
    ∃ g', Sim True R V g' s' ∧ Knows R g' s' := by
  obtain ⟨g', e, h', -⟩ := h.step hstep adm clean fun _ => guard
  have old : ∀ {t j}, g.leader t = some j → g'.leader t = some j := fun hl =>
    (e.leader _ _ hl).1
  refine ⟨g', h', ?_⟩
  rcases Cluster.step_cases hstep with ⟨pre, p, post, hnet, rfl⟩ |
    ⟨i, env, sec, rest, threads, net, e, hent, hsrc, he, rfl⟩
  · exact fun i j hj => old (knows i j hj)
  · intro m j hj
    by_cases hm : m = i
    · subst hm
      have hleads := (h'.nodes m).leads
      simp only [update_self] at hj hleads ⊢
      have hid := (h.lists m).id
      cases exec_leaderTurn he with
      | keeps leader term =>
        rw [term]
        exact old (knows m j (leader ▸ hj))
      | forgets leader =>
        rw [leader] at hj
        omega
      | hears leader term =>
        obtain ⟨c, rfl, hc⟩ := h.heard adm.1 hsrc
        rw [leader, toInt32_id] at hj
        obtain rfl := R.id_inj c j (by exact_mod_cast hj)
        rw [term]
        exact old hc
      | leads leader role =>
        rw [leader, hid, toInt32_id] at hj
        obtain rfl := R.id_inj m j (by exact_mod_cast hj)
        exact (hleads role).1
    · simp only [update_of_ne hm] at hj ⊢
      exact old (knows m j hj)

/-- The history of a steady run, in which the nodes know the leaders of their terms. -/
theorem exists_known (tables : FixedTables (Cluster.start now config).node)
    (run : Reach Cluster.step Steady (Cluster.start now config) s) :
    ∃ R g, Sim True R termView g s ∧ Knows R g s := by
  obtain ⟨R, h⟩ := sim_start tables True termView
  refine ⟨R, run.invariant (P := fun s => ∃ g, Sim True R termView g s ∧ Knows R g s)
    ⟨_, h, fun i j hj => ?_⟩ ?_⟩
  · have hnone : ((Cluster.start now config).node i).leaderId = -1 := rfl
    rw [hnone] at hj
    omega
  · rintro s a s' - ⟨g, h, knows⟩ ha hstep
    exact knows.step h hstep ha.1 (Action.clean_of_fixed ha.1.1) ha.2

/-! ### Forwarded commands -/

/-- Node `i` forwards some command to node `j`. -/
def Forwards (s : Cluster n) (i j : Fin n) : Prop :=
  ∃ env op key value, ∃ p ∈ (raftSubmitCommand env (s.node i) op key value).sends,
    p.host = (s.node j).host ∧ p.port = (s.node j).port

/-- A command of node `i`, forwarded `m` times while the cluster goes from `s` to `s'`, is at
node `j`. -/
inductive Route : ℕ → Cluster n → Fin n → Cluster n → Fin n → Prop
  | here (s : Cluster n) (i : Fin n) : Route 0 s i s i
  | hop {m : ℕ} {s s₁ s' : Cluster n} {i j k : Fin n} (forwards : Forwards s i j)
      (run : Reach Cluster.step Steady s s₁) (rest : Route m s₁ j s' k) : Route (m + 1) s i s' k

/-- A node that forwards follows the node to which it does. -/
theorem Forwards.knows (hi : R.Lists i (s.node i)) (hj : R.Lists j (s.node j))
    (h : Forwards s i j) : (s.node i).role ≠ .leader ∧ (s.node i).leaderId = R.id j := by
  obtain ⟨env, op, key, value, p, hp, hhost, hport⟩ := h
  generalize hsubmit : raftSubmitCommand env (s.node i) op key value = e at hp
  cases submission hsubmit with
  | refused | leads => simp at hp
  | forwards checked follows target =>
    refine ⟨follows, ?_⟩
    rcases Roster.sendToPeer_eq hi (s.node i).leaderId.toNat
      (.cl (s.node i).id op key value) with hnone | ⟨k, -, hk, hsends⟩
    · simp [hnone] at hp
    · obtain rfl : p = R.packet k (.cl (s.node i).id op key value) := by simpa [hsends] using hp
      obtain rfl := R.addr_inj k j (hhost.trans hj.host) (hport.trans hj.port)
      omega

/-- A node that does not lead when the command gets there is in a later term than its sender. -/
theorem Forwards.term_lt (tables : FixedTables (Cluster.start now config).node)
    (run : Reach Cluster.step Steady (Cluster.start now config) s) (h : Forwards s i j)
    (run' : Reach Cluster.step Steady s s') (follows : (s'.node j).role ≠ .leader) :
    (s.node i).currentTerm < (s'.node j).currentTerm := by
  obtain ⟨R, g, hs, knows⟩ := exists_known tables run
  obtain ⟨g', e, hs'⟩ := hs.reach run' fun s a ha =>
    ⟨ha.1, Action.clean_of_fixed ha.1.1, fun _ => ha.2⟩
  have hled := (e.leader _ _ (knows i j (h.knows (hs.lists i) (hs.lists j)).2)).1
  rcases ((hs'.nodes j).safe trivial).reign _ hled with hlt | ⟨-, hlead⟩
  · exact hlt
  · exact absurd hlead follows

theorem Route.follows (tables : FixedTables (Cluster.start now config).node) {m : ℕ}
    (route : Route m s i s' j) (run : Reach Cluster.step Steady (Cluster.start now config) s)
    (follows : (s'.node j).role ≠ .leader) : (s.node i).role ≠ .leader := by
  cases route with
  | here => exact follows
  | hop forwards =>
    obtain ⟨R, g, h⟩ := exists_steady_history tables run
    exact (forwards.knows (h.lists _) (h.lists _)).1

theorem Route.terms (tables : FixedTables (Cluster.start now config).node) {m : ℕ}
    (route : Route m s i s' j) (run : Reach Cluster.step Steady (Cluster.start now config) s)
    (follows : (s'.node j).role ≠ .leader) :
    (s.node i).currentTerm + m ≤ (s'.node j).currentTerm := by
  induction route with
  | here => rfl
  | hop forwards run' rest ih =>
    have hlt := forwards.term_lt tables run run' (rest.follows tables (run.trans run') follows)
    have hle := ih (run.trans run') follows
    omega

/-- The nodes from which a command can get to a node that forwards it, in one state. -/
theorem route_of_circle (circle : Relation.TransGen (Forwards s) i j) :
    ∃ m, Route (m + 1) s i s j := by
  induction circle using Relation.TransGen.head_induction_on with
  | single h => exact ⟨0, .hop h .refl (.here s j)⟩
  | head h _ ih =>
    obtain ⟨m, route⟩ := ih
    exact ⟨m + 1, .hop h .refl route⟩

/-- Forwarding ends: when a command has been forwarded `m` times and the node that has it does not
lead, the term of that node is `m` or more above the term in which the command was submitted, and
in one state the nodes do not forward in a circle. -/
theorem forwarding_ends (tables : FixedTables (Cluster.start now config).node)
    (run : Reach Cluster.step Steady (Cluster.start now config) s) :
    (∀ i m s' j, Route m s i s' j → (s'.node j).role ≠ .leader →
      (s.node i).currentTerm + m ≤ (s'.node j).currentTerm) ∧
    ∀ i, ¬Relation.TransGen (Forwards s) i i := by
  refine ⟨fun i m s' j route follows => route.terms tables run follows, fun i circle => ?_⟩
  obtain ⟨m, route⟩ := route_of_circle circle
  cases route with
  | hop forwards run' rest =>
    obtain ⟨R, g, h⟩ := exists_steady_history tables run
    have follows := (forwards.knows (h.lists _) (h.lists _)).1
    have := (Route.hop forwards run' rest).terms tables run follows
    omega

end Runs

/-- Node 2 forwards to node 1, which does not lead any more when the command gets there. -/
theorem forwarding_ends_trio : ∃ s s', Reach Cluster.step Steady trio s ∧
    Route 1 s node2 s' node1 ∧ (s'.node node1).role ≠ .leader ∧
    (s.node node2).currentTerm = 1 ∧ (s'.node node1).currentTerm = 2 ∧
    (s.node node2).currentTerm + 1 ≤ (s'.node node1).currentTerm ∧
    ¬Relation.TransGen (Forwards s) node2 node2 := by
  let p : Packet := ⟨bytes "127.0.0.1", 9001, .cl 2 .set (bytes "k") (bytes "b")⟩
  have hrun : (runList Cluster.step (fun s a => decide (Steady s a)) trio trioCommit).any
      (fun s => decide (p ∈ (raftSubmitCommand still (s.node node2) .set (bytes "k")
          (bytes "b")).sends ∧ p.host = (s.node node1).host ∧ p.port = (s.node node1).port ∧
          (s.node node2).currentTerm = 1) &&
        (runList Cluster.step (fun s a => decide (Steady s a)) s trioSucceed).any fun s' =>
          (s'.node node1).role ≠ .leader ∧ (s'.node node1).currentTerm = 2) = true := by
    decide +kernel
  obtain ⟨s, run, hs⟩ := exists_reach (fun s a => of_decide_eq_true) hrun
  obtain ⟨hsends, hrun'⟩ := Bool.and_eq_true_iff.mp hs
  obtain ⟨s', run', hs'⟩ := exists_reach (fun s a => of_decide_eq_true) hrun'
  obtain ⟨hp, hhost, hport, hterm⟩ := of_decide_eq_true hsends
  obtain ⟨follows, hterm'⟩ := of_decide_eq_true hs'
  have route : Route 1 s node2 s' node1 :=
    .hop ⟨still, .set, bytes "k", bytes "b", p, hp, hhost, hport⟩ run' (.here s' node1)
  obtain ⟨h1, h2⟩ := forwarding_ends fixedTables_trio run
  exact ⟨s, s', run, route, follows, hterm, hterm', h1 node2 1 s' node1 route follows, h2 node2⟩

end RaftKv
