import RaftKv.Refine.Replication

/-! Every action of a cluster with fixed tables continues the history of its log. -/

namespace RaftKv

open Consensus Consensus.Ledger Function Runs Stdio

variable {n : ℕ} {α : Type} {P : Prop} {R : Roster n} {V : View α} {g : Ledger (Fin n) α}
  {i : Fin n} {s s' : Cluster n} {rest : List Section} {env : Env} {sec : Section} {e : Effect}

/-- The commands that threads start with are clean, where they are accepted. -/
def Action.Clean (V : View α) : Action n → Prop
  | .enter _ _ (.raftSubmitCommand op key value) => V.Accepts op key value
  | _ => True

theorem Action.clean_of_fixed {a : Action n} (fixed : a.fixed = true) : a.Clean termView := by
  cases a with
  | enter i env sec =>
    cases sec with
    | raftSubmitCommand op key value => exact termView_accepts (of_decide_eq_true fixed)
    | _ => trivial
  | _ => trivial

/-- No newline stands in the texts of the lines on their way. -/
theorem LineSim.unbroken {line : Line} (h : LineSim P R V g i line) : line.Unbroken := by
  cases line with
  | rv | rvr | aer => trivial
  | ae _ _ _ _ _ entry =>
    obtain ⟨-, _, _, -, appends, -⟩ := h
    cases entry with
    | none => trivial
    | some e => exact V.unbroken (appends.last e rfl).2.2
  | cl => exact V.unbroken h.2
  | join | peer | leave => exact h.elim

theorem Sim.unbroken (h : Sim P R V g s) : ∀ p ∈ s.net, p.line.Unbroken := by
  intro p hp
  obtain ⟨j, line, rfl, hline⟩ := h.lines p hp
  exact hline.unbroken

theorem Sim.waiting (h : Sim P R V g s) (hw : sec.Waiting n) (below : TermsBelow s)
    (leads : P → sec.builds = true → (s.node i).role = .leader)
    (he : exec env sec (s.node i) = some e) (hrest : ∀ sec ∈ rest, sec.Waiting n) :
    Simulated P R V g i s rest e := by
  -- a section that only leaves other sections to enter
  have next : ∀ todo : List Section, (∀ sec ∈ todo, sec.Waiting n) →
      Simulated P R V g i s rest { node := s.node i, todo } := by
    intro todo htodo
    refine ⟨g, .refl, ?_, fun _ => .of_eq rfl rfl⟩
    refine h.update_quiet (h.grows .refl) (h.lists i) (h.nodes i) rfl (h.votes i) (by simp)
      (by simp) fun sec hsec => ?_
    rcases List.mem_append.mp hsec with hsec | hsec
    · exact htodo sec hsec
    · exact hrest sec hsec
  cases sec with
  | tickerLoop lastHeartbeat =>
    cases tickerRound (Option.some.inj he) with
    | stands | beats | waits => exact next _ (by simp [Section.Waiting])
  | tickerMark =>
    obtain rfl := Option.some.inj he
    exact next _ (by simp [Section.Waiting])
  | startElection =>
    obtain rfl := Option.some.inj he
    exact h.startElection env.now (below i) hrest
  | broadcastAppend =>
    obtain rfl := Option.some.inj he
    exact next _ (by simp [Section.Waiting])
  | sendAppendToPeer id => exact h.sendAppendToPeer (fun hP => leads hP rfl) he hrest
  | submitPeerless =>
    obtain rfl := Option.some.inj he
    exact h.submitPeerless hrest
  | submitCommit => exact h.submitCommit hw he hrest
  | _ => exact hw.elim

theorem countP_split (f : Packet → Bool) (pre post : List Packet) (p : Packet) :
    (pre ++ p :: post).countP f = (pre ++ post).countP f + if f p then 1 else 0 := by
  simp only [List.countP_append, List.countP_cons]
  omega

/-- The handler of a delivered line, without the line on its way. -/
theorem Sim.deliver (h : Sim P R V g s) {pre post : List Packet} {line : Line}
    (hnet : s.net = pre ++ R.packet i line :: post) (hline : LineSim P R V g i line)
    (hsec : line.handler = some sec) (vouched : P → Vouched s i sec)
    (he : exec env sec (s.node i) = some e) :
    Simulated P R V g i { s with net := pre ++ post } [] e := by
  have hd := h.drop hnet
  have hto : R.isTo i (R.packet i line) = true := by rw [Roster.isTo_packet]; simp
  cases line with
  | rv t c li lt =>
    obtain ⟨hfit, d, rfl, hself, hindex, hlast⟩ := hline
    rw [Line.handler_rv hfit] at hsec
    obtain rfl := Option.some.inj hsec
    obtain rfl := Option.some.inj he
    have hcount := h.asked i d t
    have hask : (R.packet i (.rv t (R.id d) li lt)).line.asks (R.id d) t = true := by
      simp [Roster.packet, Line.asks]
    rw [hnet, asks, countP_split, hto, hask, if_pos (by rfl)] at hcount
    split at hcount
    · omega
    · rename_i hfresh
      exact hd.handleRequestVote env.now (hfit t (by simp)) hself hindex hlast hfresh
        (by simp only [asks]; omega) (by simp)
  | rvr t v granted =>
    obtain ⟨hfit, hterm⟩ := hline
    rw [Line.handler_rvr hfit] at hsec
    obtain rfl := Option.some.inj hsec
    obtain rfl := Option.some.inj he
    refine hd.handleRequestVoteResponse env.now (hfit t (by simp)) (fun hg hr ht => ?_) (by simp)
    have hcount := h.votes i hr
    have hgrant : (R.packet i (.rvr t v granted)).line.grants t = true := by
      simp [Roster.packet, Line.grants, hg]
    rw [← ht, hnet, grants, countP_split, hto, hgrant, if_pos (by rfl)] at hcount
    simp only [grants]
    omega
  | ae t l p pt lc entry =>
    have hline' := hline
    obtain ⟨hfit, d, w, rfl, hw, hb⟩ := hline
    cases entry with
    | none =>
      rw [Line.handler_ae_none hfit] at hsec
      obtain rfl := Option.some.inj hsec
      exact hd.handleAppendEntries env.now (hfit t (by simp)) (by simpa using hw)
        (fun hP => { hb hP with }) vouched he (by simp)
    | some entry =>
      obtain ⟨hindex, hget, hclean⟩ := hw.last entry rfl
      obtain ⟨entry', rfl, hindex', hview, hclean'⟩ := V.entry hline'.ae_fits hclean hsec
      refine hd.handleAppendEntries env.now (hfit t (by simp)) (w := w) ?_
        (fun hP => { hb hP with }) vouched he (by simp)
      refine { hw with length := hw.length, last := fun x hx => ?_ }
      obtain rfl := Option.some.inj hx
      exact ⟨hindex'.trans hindex, by rw [hview]; exact hget, hclean'⟩
  | aer t f success k =>
    rw [Line.handler_aer hline.aer_fits] at hsec
    obtain rfl := Option.some.inj hsec
    obtain ⟨hfit, hroom, d, rfl, htold⟩ := hline
    exact hd.handleAppendResponse env.now (hfit t (by simp)) hroom htold he (by simp)
  | cl src op key value =>
    obtain ⟨hsrc, hclean⟩ := hline
    obtain ⟨op', key', value', rfl, hclean'⟩ := V.forward hsrc hclean hsec
    obtain rfl := Option.some.inj he
    exact hd.raftSubmitCommand env (fun _ _ => hclean') (List.forall_mem_nil _)
  | join _ _ _ | peer _ _ _ | leave _ => exact hline.elim

/-- An action of a cluster continues the history. -/
theorem Sim.step (h : Sim P R V g s) {a : Action n} (hstep : s.step a = some s')
    (admitted : Admitted s a) (clean : a.Clean V) (guard : P → Guarded s a) :
    ∃ g', Extends g g' ∧ Sim P R V g' s' ∧ (P → ∀ j, Keeps (s.node j) (s'.node j)) := by
  rcases Cluster.step_cases hstep with ⟨pre, p, post, hnet, rfl⟩ |
    ⟨i, env, sec, rest, threads, net, e, hent, hsrc, he, rfl⟩
  · exact ⟨g, .refl g, h.drop hnet, fun _ j => .of_eq rfl rfl⟩
  · obtain ⟨fixed, below⟩ := admitted
    have hguard : P → (sec.builds = true → (s.node i).role = .leader) ∧ Vouched s i sec := by
      intro hP
      have := guard hP
      rwa [Guarded, hent] at this
    have hsim : Simulated P R V g i ⟨s.node, threads, net⟩ rest e := by
      cases hsrc.origin h.unbroken with
      | enter _ =>
        cases sec with
        | raftSubmitCommand op key value =>
          obtain rfl := Option.some.inj he
          exact h.raftSubmitCommand env clean (List.forall_mem_nil _)
        | startElection | sendAppendToPeer _ | tickerLoop _ =>
          exact h.waiting (by trivial) below (fun hP => (hguard hP).1) he (List.forall_mem_nil _)
        | _ => exact absurd fixed (by simp [Action.fixed, Section.fixed, Section.starts])
      | resume k _ rest pre post split =>
        obtain ⟨hd, hw⟩ := h.wake split
        exact hd.waiting (hw sec List.mem_cons_self) below
          (fun hP => (hguard hP).1) he
          fun sec hsec => hw sec (List.mem_cons_of_mem _ hsec)
      | deliver k _ _ p pre post split address parsed =>
        obtain ⟨j, line, rfl, hline⟩ := h.lines p (by rw [split]; simp)
        obtain rfl : j = i := by
          refine R.addr_inj j i ?_ ?_
          · rw [← (h.lists i).host]
            exact address.1
          · rw [← (h.lists i).port]
            exact address.2
        exact h.deliver split hline parsed (fun hP => (hguard hP).2) he
    obtain ⟨g', st, hsim', hkeep⟩ := hsim
    refine ⟨g', (h.grows st).continues, hsim', fun hP j => ?_⟩
    by_cases hj : j = i
    · subst hj
      simpa using hkeep hP
    · simp only [update_of_ne hj]
      exact .of_eq rfl rfl

/-! ### Runs -/

theorem nodeSim_initial (now : ℕ) (config : RaftConfig) :
    NodeSim P R V initial i (raftNodeInit now config) where
  indexed k e he := by simp [raftNodeInit] at he
  room := Nat.zero_le _
  clean e he := by simp [raftNodeInit] at he
  term := rfl
  bound := by simp [raftNodeInit]
  log := rfl
  vote := Or.inl ⟨rfl, rfl⟩
  leads hr := by cases hr
  runs hr := by cases hr
  commit := Nat.zero_le _
  led t ht := by simp [raftNodeInit] at ht
  entries k e he := by simp [raftNodeInit] at he
  store := rfl
  safe _ := {
    commit_le := Nat.zero_le _
    settled := Or.inl (by simp [raftNodeInit])
    applied_le := le_rfl
    store := rfl
    slots := fun k e he => by simp [raftNodeInit] at he
    reign := fun t ht => by simp [initial] at ht
    matched := fun hr => by cases hr }

/-- A cluster with fixed tables starts with the empty history. -/
theorem sim_start {now : Fin n → ℕ} {config : Fin n → RaftConfig}
    (tables : FixedTables (Cluster.start now config).node) (P : Prop) (V : View α) :
    ∃ R, Sim P R V initial (Cluster.start now config) := by
  obtain ⟨R, hR⟩ := tables.roster
  refine ⟨R, hR, matching_initial _ _, fun _ => complete_initial _ _, ?_, ?_, ?_, ?_, ?_, ?_⟩
  · intro j t c hv
    cases hv
  · intro i
    exact nodeSim_initial (now i) (config i)
  · intro i hr
    cases hr
  · intro j c t
    exact Nat.zero_le _
  · intro p hp
    cases hp
  · intro th hth
    cases hth

/-- A run continues the history. -/
theorem Sim.reach {ok : Cluster n → Action n → Prop} (h : Sim P R V g s)
    (run : Reach Cluster.step ok s s')
    (hok : ∀ s a, ok s a → Admitted s a ∧ a.Clean V ∧ (P → Guarded s a)) :
    ∃ g', Extends g g' ∧ Sim P R V g' s' := by
  induction run with
  | refl => exact ⟨g, .refl g, h⟩
  | tail _ ha hstep ih =>
    obtain ⟨g1, e1, h1⟩ := ih
    obtain ⟨admitted, clean, guard⟩ := hok _ _ ha
    obtain ⟨g2, e2, h2, -⟩ := h1.step hstep admitted clean guard
    exact ⟨g2, e1.trans e2, h2⟩

end RaftKv
