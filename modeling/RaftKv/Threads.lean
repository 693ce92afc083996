import RaftKv.Cluster
import RaftKv.Sections

/-! Who replicates.  Neither `send_append_to_peer` nor `build_append_locked` looks at the role, so
what makes the builder of an `AE` line a leader is what its thread saw in an earlier section.  That
is still true when the line is built, unless the node has stepped down in between, or was no leader
when it discovered the peer. -/

namespace RaftKv

open Function Runs Stdio

/-- The section makes a leader step down. -/
def deposes (x : RaftNode) : Section → Bool
  | .startElection => 1 < majorityCount x
  | .handleAppendEntries term .. => x.currentTerm ≤ term
  | .handleRequestVote term .. | .handleRequestVoteResponse term ..
  | .handleAppendResponse term .. => x.currentTerm < term
  | _ => false

/-- The sections with which the ticker, a client submission, and the requests of `node.cpp`
start. -/
def Section.outer : Section → Bool
  | .tickerLoop _ | .raftSubmitCommand .. | .requestClusterJoin | .requestClusterLeave => true
  | _ => false

def Action.outer {n : ℕ} : Action n → Bool
  | .enter _ _ sec => sec.outer
  | _ => true

variable {n : ℕ}

/-- Only a leader discovers a peer, and a leader does not step down while one of its threads is
going to replicate. -/
def Calm (s : Cluster n) (a : Action n) : Prop :=
  ∀ q ∈ s.entered a,
    (discovers (s.node q.1) q.2 = true → (s.node q.1).role = .leader) ∧
    ((s.node q.1).role = .leader → deposes (s.node q.1) q.2 = true →
      ∀ th ∈ s.threads, th.1 = q.1 → ∀ next ∈ th.2, next.replicates = false)

instance (s : Cluster n) (a : Action n) : Decidable (Calm s a) := by
  unfold Calm
  infer_instance

/-- A thread that is going to replicate belongs to a leader. -/
def ThreadsLead (s : Cluster n) : Prop :=
  ∀ th ∈ s.threads, ∀ sec ∈ th.2, sec.replicates = true → (s.node th.1).role = .leader

variable {s s' : Cluster n} {a : Action n} {i : Fin n} {x : RaftNode} {sec : Section} {y : Seat}

/-- A leader that does not step down stays leader. -/
theorem Turn.leads (turn : Turn x sec y) (lead : x.role = .leader) (keeps : deposes x sec = false) :
    y.role = .leader := by
  cases turn with
  | stay => exact lead
  | follow term newer =>
    cases sec with
    | handleRequestVote t _ _ _ | handleRequestVoteResponse t _ _ | handleAppendResponse t _ _ _ =>
      obtain rfl := Option.some.inj term
      exact absurd newer (of_decide_eq_false keeps)
    | handleAppendEntries t _ _ _ _ _ _ =>
      obtain rfl := Option.some.inj term
      exact absurd newer.le (of_decide_eq_false keeps)
    | _ => cases term
  | yield => exact absurd le_rfl (of_decide_eq_false keeps)
  | grant free upToDate => exact (if_neg (of_decide_eq_false keeps)).trans lead
  | stand next => exact if_pos (not_lt.mp (of_decide_eq_false keeps))
  | win => rfl
  | reopen known voted => exact lead

/-- No line makes a thread start with replicating. -/
theorem raftHandleLine_replicates {line : Text} (h : raftHandleLine line = some sec) :
    sec.replicates = false := by
  obtain ⟨_, _, _, -, -, call⟩ := handlerCall h
  cases call <;> rfl

theorem handlers_replicates {line : Line} (h : sec ∈ line.handlers) : sec.replicates = false := by
  obtain ⟨text, -, hsec⟩ := List.mem_filterMap.mp h
  exact raftHandleLine_replicates hsec

/-- The sections left in a thread were there before, or are handlers of lines. -/
theorem Cluster.Source.mem_rest {rest : List Section} {threads : List (Fin n × List Section)}
    {net : List Packet} (src : Cluster.Source s i sec a rest threads net) :
    (∀ next ∈ rest, ∃ th ∈ s.threads, th.1 = i ∧ next ∈ th.2) ∧
      ∀ th ∈ threads, th ∈ s.threads ∨ ∀ next ∈ th.2, next.replicates = false := by
  cases src with
  | enter => exact ⟨by simp, fun th hth => Or.inl hth⟩
  | deliver k env m p pre post split address parsed =>
    refine ⟨by simp, fun th hth => ?_⟩
    rcases List.mem_append.mp hth with hth | hth
    · obtain ⟨call, hcall, rfl⟩ := List.mem_map.mp hth
      refine Or.inr fun next hn => ?_
      rw [List.mem_singleton.mp hn]
      exact handlers_replicates (List.mem_of_mem_eraseIdx hcall)
    · exact Or.inl hth
  | resume k env rest pre post split =>
    rw [split]
    refine ⟨fun next hn => ⟨(i, sec :: rest), by simp, rfl, List.mem_cons_of_mem _ hn⟩, ?_⟩
    intro th hth
    rcases List.mem_append.mp hth with hth | hth
    · exact Or.inl (List.mem_append_left _ hth)
    · exact Or.inl (List.mem_append_right _ (List.mem_cons_of_mem _ hth))

/-- A thread that replicates now was going to. -/
theorem ThreadsLead.entered (h : ThreadsLead s) (outer : a.outer = true)
    (hent : s.entered a = some (i, sec)) (hr : sec.replicates = true) :
    (s.node i).role = .leader := by
  cases a with
  | enter j env sec' =>
    obtain ⟨rfl, rfl⟩ := Prod.mk.inj (Option.some.inj hent)
    cases sec' with
    | broadcastAppend | sendAppendToPeer _ => cases outer
    | _ => cases hr
  | resume k env =>
    simp only [Cluster.entered] at hent
    split at hent
    · rename_i j first rest hk
      obtain ⟨rfl, rfl⟩ := Prod.mk.inj (Option.some.inj hent)
      exact h _ (List.mem_of_getElem? hk) _ List.mem_cons_self hr
    · cases hent
  | deliver k j env m =>
    obtain ⟨sec', hsec, hpair⟩ := Option.map_eq_some_iff.mp hent
    obtain ⟨rfl, rfl⟩ := Prod.mk.inj hpair
    obtain ⟨p, -, hcall⟩ := Option.bind_eq_some_iff.mp hsec
    rw [handlers_replicates (List.mem_of_getElem? hcall)] at hr
    cases hr
  | lose k => cases hent

theorem ThreadsLead.step (h : ThreadsLead s) (outer : a.outer = true) (calm : Calm s a)
    (hstep : s.step a = some s') : ThreadsLead s' := by
  rcases Cluster.step_cases hstep with ⟨pre, p, post, hnet, rfl⟩ |
    ⟨i, env, sec, rest, threads, net, e, hent, hsrc, he, rfl⟩
  · exact h
  · obtain ⟨hdiscover, hdepose⟩ := calm (i, sec) hent
    obtain ⟨hrest, hthreads⟩ := hsrc.mem_rest
    -- a thread of the node that was already going to replicate
    have stays : ∀ th ∈ s.threads, th.1 = i → ∀ next ∈ th.2, next.replicates = true →
        e.node.role = .leader := by
      intro th hth hi next hn hr
      have hlead : (s.node i).role = .leader := hi ▸ h th hth next hn hr
      apply (exec_turn he).leads hlead
      by_contra hdep
      rw [hdepose hlead (Bool.not_eq_false _ ▸ hdep) th hth hi next hn] at hr
      cases hr
    intro th hth next hn hr
    rcases List.mem_cons.mp hth with rfl | hth
    · simp only [update_self]
      rcases List.mem_append.mp hn with hn | hn
      · rcases exec_todo he hn hr with hlead | ⟨hsec | hnew, hrole⟩
        · exact hlead
        · rw [hrole]
          exact h.entered outer hent (by rw [hsec]; rfl)
        · rw [hrole]
          exact hdiscover hnew
      · obtain ⟨old, hold, hi, hmem⟩ := hrest next hn
        exact stays old hold hi next hmem hr
    · rcases hthreads th hth with hth | hquiet
      · by_cases hi : th.1 = i
        · simp only [hi, update_self]
          exact stays th hth hi next hn hr
        · simp only [update_of_ne hi]
          exact h th hth next hn hr
      · rw [hquiet next hn] at hr
        cases hr

/-- Only a leader builds an `AE` line, and in the term it leads. -/
theorem only_leader_replicates {now : Fin n → ℕ} {config : Fin n → RaftConfig}
    (run : Reach Cluster.step (fun s a => a.outer = true ∧ Calm s a) (Cluster.start now config) s)
    (outer : a.outer = true) {env : Env} {e : Effect} (hent : s.entered a = some (i, sec))
    (he : exec env sec (s.node i) = some e) {p : Packet} (hp : p ∈ e.sends)
    {t l pi pt lc : ℕ} {entry : Option RaftLogEntry} (hline : p.line = .ae t l pi pt lc entry) :
    (s.node i).role = .leader ∧ t = (s.node i).currentTerm := by
  have hlead : ThreadsLead s := by
    refine run.invariant (P := ThreadsLead) ?_ ?_
    · intro th hth
      cases hth
    · intro s a s' _ h ha hstep
      exact h.step ha.1 ha.2 hstep
  have hkind := exec_sends he hp
  rw [hline] at hkind
  cases sec with
  | sendAppendToPeer id =>
    obtain ⟨_, _, _, hbuilt, -⟩ := sendAppendToPeer_sends he hp
    have heq := hline.symm.trans hbuilt
    exact ⟨hlead.entered outer hent rfl, (Line.ae.inj heq).1⟩
  | _ => cases hkind

/-- Node 1 times out, is elected by node 2, and broadcasts. -/
def trioBroadcast : List (Action 3) :=
  [.enter node1 ⟨2000, true⟩ (.tickerLoop 0), .resume 0 still, .deliver 0 node2 still,
    .deliver 0 node1 still, .resume 0 still]

theorem only_leader_replicates_trio : ∃ s,
    Reach Cluster.step (fun s a => a.outer = true ∧ Calm s a) trio s ∧
    s.entered (.resume 0 still) = some (0, .sendAppendToPeer 2) ∧
    ∃ e, exec still (.sendAppendToPeer 2) (s.node 0) = some e ∧
    ∃ p ∈ e.sends, p.line = .ae 1 1 0 0 0 none ∧
    (s.node 0).role = .leader ∧ 1 = (s.node 0).currentTerm := by
  have hrun : (runList Cluster.step (fun s a => decide (a.outer = true ∧ Calm s a)) trio
      trioBroadcast).any (fun s =>
        decide (s.entered (.resume 0 still) = some (0, .sendAppendToPeer 2)) &&
        (exec still (.sendAppendToPeer 2) (s.node 0)).any fun e =>
          e.sends.any fun p => p.line = .ae 1 1 0 0 0 none) = true := by
    decide +kernel
  obtain ⟨s, run, hs⟩ := exists_reach (fun s a => of_decide_eq_true) hrun
  obtain ⟨hent, hs⟩ := Bool.and_eq_true_iff.mp hs
  obtain ⟨e, he, hs⟩ := (Option.any_eq_true _ _).mp hs
  obtain ⟨p, hp, hline⟩ := List.any_eq_true.mp hs
  have hent := of_decide_eq_true hent
  have hline := of_decide_eq_true hline
  exact ⟨s, run, hent, e, he, p, hp, hline, only_leader_replicates run rfl hent he hp hline⟩

/-! ### A peer that a follower discovers -/

/-- Node 3 lists only node 1, and nodes 1 and 2 list each other. -/
def gossipConfig (i : Fin 3) : RaftConfig :=
  { trioConfig i with peers := [if i.val = 0 then trioPeer 2 else trioPeer 1] }

/-- Node 3 joins node 1, which tells node 2 about it. -/
def gossipJoin : List (Action 3) :=
  [.enter node3 still .requestClusterJoin, .deliver 0 node1 still, .resume 0 still,
    .deliver 0 node2 still, .resume 0 still]

/-- Node 2, which is a follower, builds an `AE` line for node 3. -/
theorem follower_replicates : ¬∀ (n : ℕ) (now : Fin n → ℕ) (config : Fin n → RaftConfig),
    ∀ s, Reach Cluster.step (fun _ a => a.outer = true) (Cluster.start now config) s →
    ∀ (a : Action n) i sec env e, a.outer = true → s.entered a = some (i, sec) →
    exec env sec (s.node i) = some e → ∀ p ∈ e.sends, ∀ t l pi pt lc entry,
    p.line = .ae t l pi pt lc entry →
    (s.node i).role = .leader ∧ t = (s.node i).currentTerm := by
  intro h
  have hrun : (runList Cluster.step (fun _ a => a.outer) (Cluster.start (fun _ => 0) gossipConfig)
      gossipJoin).any (fun s =>
        decide (s.entered (.resume 0 still) = some (1, .sendAppendToPeer 3) ∧
          (s.node 1).role = .follower) &&
        (exec still (.sendAppendToPeer 3) (s.node 1)).any fun e =>
          e.sends.any fun p => p.line = .ae 0 2 0 0 0 none) = true := by
    decide +kernel
  obtain ⟨s, run, hs⟩ := exists_reach (fun s a => id) hrun
  obtain ⟨hstate, hs⟩ := Bool.and_eq_true_iff.mp hs
  obtain ⟨e, he, hs⟩ := (Option.any_eq_true _ _).mp hs
  obtain ⟨p, hp, hline⟩ := List.any_eq_true.mp hs
  obtain ⟨hent, hrole⟩ := of_decide_eq_true hstate
  obtain ⟨hlead, -⟩ := h 3 _ _ s run (.resume 0 still) 1 _ still e rfl hent he p hp _ _ _ _ _ _
    (of_decide_eq_true hline)
  rw [hrole] at hlead
  cases hlead

end RaftKv
