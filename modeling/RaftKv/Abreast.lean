import RaftKv.Reign
import RaftKv.Threads

/-! The commit index of a leader is up to what a majority has reported.  `handle_append_response`
recomputes it; what else moves the match indexes, the majority or the log does not.  A leader keeps
abreast as long as no peer that leaves, and no submission, makes an entry due. -/

namespace RaftKv

open Function Runs Stdio

attribute [local irreducible] toInt32

/-- No entry of the current term behind the commit index is with a majority. -/
def Abreast (x : RaftNode) : Prop :=
  ∀ k < x.logCount, x.commitIndex ≤ k → x.log[k]?.map (·.term) = some x.currentTerm →
    matchCount x (k + 1) < majorityCount x

instance (x : RaftNode) : Decidable (Abreast x) := inferInstanceAs (Decidable (∀ _, _))

/-- A submission at node `i` is going to commit the whole log, when the node has the peers `ps` at
its test. -/
def Cluster.Commits {n : ℕ} (s : Cluster n) (i : Fin n) (ps : List Peer) : Prop :=
  ∃ th ∈ s.threads, th.1 = i ∧ (.submitCommit ∈ th.2 ∨ (.submitPeerless ∈ th.2 ∧ ps = []))

/-- A `LEAVE` at a leader, and a submission to it, leaves no entry behind that is with a majority,
or a submission is going to commit it. -/
def Attended (commits : List Peer → Prop) (x : RaftNode) : Section → Prop
  | .handleLeave id =>
    x.role = .leader → ¬(id = 0 ∨ id = x.id) → (findPeer x id).isSome →
      Abreast { x with peers := x.peers.eraseP fun p => p.id = id } ∨
        commits (x.peers.eraseP fun p => p.id = id)
  | .raftSubmitCommand op key value | .handleClientForward _ op key value =>
    x.role = .leader → Checked op key value → x.logCount < raftMaxLog → x.peers ≠ [] →
      matchCount x (x.logCount + 1) < majorityCount x ∨ commits x.peers
  | _ => True

/-- The node and the section that a delivery runs. -/
def Cluster.enteredAgain {n : ℕ} (s : Cluster n) : Delivery n → Option (Fin n × Section)
  | .act a => s.entered a
  | .again _ => none

/-- A delivery whose section is attended, while the terms do not wrap and no thread starts with a
newline in its texts. -/
def Attentive {n : ℕ} (s : Cluster n) (d : Delivery n) : Prop :=
  Tidy s d ∧ ∀ q ∈ s.enteredAgain d, Attended (s.Commits q.1) (s.node q.1) q.2

instance (op : KvOp) (key value : Text) : Decidable (Checked op key value) :=
  decidable_of_iff (_ ∧ _) ⟨fun h => ⟨h.1, h.2⟩, fun h => ⟨h.key, h.value⟩⟩

instance {n : ℕ} (s : Cluster n) (i : Fin n) : DecidablePred (s.Commits i) :=
  fun _ => inferInstanceAs (Decidable (∃ th ∈ s.threads, _))

instance (commits : List Peer → Prop) [DecidablePred commits] (x : RaftNode) :
    (sec : Section) → Decidable (Attended commits x sec)
  | .handleLeave _ => inferInstanceAs (Decidable (_ → _ → _ → _))
  | .raftSubmitCommand .. | .handleClientForward .. =>
    inferInstanceAs (Decidable (_ → _ → _ → _ → _))
  | .tickerLoop _ | .tickerMark | .startElection | .broadcastAppend | .sendAppendToPeer _
  | .handleRequestVote .. | .handleRequestVoteResponse .. | .handleAppendEntries ..
  | .handleAppendResponse .. | .submitPeerless | .submitCommit | .handleJoin ..
  | .sendPeerCatalog .. | .handlePeerAnnounce .. | .announcePeerToKnownNodes ..
  | .announceLeaveToKnownNodes _ | .requestClusterJoin | .requestClusterLeave => .isTrue trivial

instance {n : ℕ} (s : Cluster n) (d : Delivery n) : Decidable (Attentive s d) :=
  inferInstanceAs (Decidable (_ ∧ _))

variable {n : ℕ} {s s' : Cluster n} {x y : RaftNode} {env : Env} {sec : Section} {e : Effect}
  {i : Fin n}

/-! ### One node -/

theorem matchCount_congr (h : y.peers.map (·.matchIndex) = x.peers.map (·.matchIndex)) (k : ℕ) :
    matchCount y k = matchCount x k ∧ majorityCount y = majorityCount x := by
  have hcount : ∀ z : RaftNode, z.peers.countP (fun p => toInt32 k ≤ p.matchIndex) =
      (z.peers.map (·.matchIndex)).countP fun m => toInt32 k ≤ m := by
    intro z
    rw [List.countP_map]
    rfl
  have hlength := congrArg List.length h
  rw [List.length_map, List.length_map] at hlength
  refine ⟨?_, ?_⟩
  · rw [matchCount, matchCount, hcount, hcount, h]
  · rw [majorityCount, majorityCount, RaftNode.peerCount, RaftNode.peerCount, hlength]

/-- Only the match indexes of the peers matter. -/
theorem Abreast.of_standing (h : Abreast x) {ps : List Peer}
    (hy : y.standing = (x.currentTerm, x.log, x.commitIndex, ps))
    (hmatch : ps.map (·.matchIndex) = x.peers.map (·.matchIndex)) : Abreast y := by
  obtain ⟨hterm, hlog, hcommit, rfl⟩ := standing_eq.mp hy
  intro k hk hle hentry
  rw [RaftNode.logCount, hlog] at hk
  rw [hcommit] at hle
  rw [hlog, hterm] at hentry
  obtain ⟨h1, h2⟩ := matchCount_congr hmatch (k + 1)
  rw [h1, h2]
  exact h k hk hle hentry

/-- `recompute_commit_locked` leaves no entry behind that is with a majority. -/
theorem commitScan_last {z : RaftNode} {m k : ℕ} (hk : k < m)
    (hle : (commitScan z m).getD z.commitIndex ≤ k)
    (hentry : z.log[k]?.map (·.term) = some z.currentTerm) :
    matchCount z (k + 1) < majorityCount z := by
  induction m with
  | zero => exact absurd hk (Nat.not_lt_zero k)
  | succ m ih =>
    have below : z.log[m]?.map (·.term) ≠ some z.currentTerm ∨
        ¬majorityCount z ≤ matchCount z (m + 1) →
        (commitScan z m).getD z.commitIndex ≤ k → matchCount z (k + 1) < majorityCount z := by
      intro hskip hle
      rcases Nat.lt_succ_iff_lt_or_eq.mp hk with hlt | rfl
      · exact ih hlt hle
      · rcases hskip with hterm | hfew
        · exact absurd hentry hterm
        · exact not_le.mp hfew
    rw [commitScan] at hle
    split at hle
    · rw [Option.getD_none] at hle
      omega
    · split at hle
      · rename_i hterm
        exact below (Or.inl hterm) hle
      · split at hle
        · rw [Option.getD_some] at hle
          omega
        · rename_i hfew
          exact below (Or.inr hfew) hle

/-- A leader that has recomputed its commit index is abreast. -/
theorem abreast_of_commitScan {z : RaftNode} (hy : y.standing = (z.currentTerm, z.log,
    (commitScan z z.logCount).getD z.commitIndex, z.peers)) : Abreast y := by
  obtain ⟨hterm, hlog, hcommit, hpeers⟩ := standing_eq.mp hy
  intro k hk hle hentry
  rw [RaftNode.logCount, hlog] at hk
  rw [hcommit] at hle
  rw [hlog, hterm] at hentry
  obtain ⟨h1, h2⟩ := @matchCount_congr z y (by rw [hpeers]) (k + 1)
  rw [h1, h2]
  exact commitScan_last hk hle hentry

/-- A leader that has committed its whole log is abreast. -/
theorem abreast_of_logCount_le (h : x.logCount ≤ x.commitIndex) : Abreast x := by
  intro k hk hle
  exact absurd (hk.trans_le h) (not_lt.mpr hle)

/-- A leader with no entry of its term is abreast. -/
theorem abreast_of_terms (h : ∀ d ∈ x.log, d.term ≠ x.currentTerm) : Abreast x := by
  intro k hk hle hentry
  obtain ⟨d, hd, hterm⟩ := Option.map_eq_some_iff.mp hentry
  exact absurd hterm (h d (List.mem_of_getElem? hd))

/-- A peer that has reported nothing is no reason to commit. -/
theorem matchCount_concat {ps : List Peer} {p : Peer} {k : ℕ} (hk : k < raftMaxLog)
    (hy : y.peers = ps ++ [p]) (hx : x.peers = ps) (hp : p.matchIndex = 0) :
    matchCount y (k + 1) = matchCount x (k + 1) ∧ majorityCount x ≤ majorityCount y ∧
      (ps = [] → matchCount y (k + 1) < majorityCount y) := by
  have hzero : [p].countP (fun p => toInt32 (k + 1 : ℕ) ≤ p.matchIndex) = 0 := by
    rw [List.countP_singleton, if_neg]
    rw [decide_eq_true_eq, hp, toInt32_of_lt (by simp only [raftMaxLog] at hk; omega)]
    omega
  subst hx
  refine ⟨?_, ?_, fun hnone => ?_⟩
  · rw [matchCount, matchCount, hy, List.countP_append, hzero, Nat.add_zero]
  · rw [majorityCount, majorityCount, RaftNode.peerCount, RaftNode.peerCount, hy,
      List.length_append, List.length_singleton]
    omega
  · rw [matchCount, majorityCount, RaftNode.peerCount, hy, hnone, List.nil_append, hzero]
    norm_num

/-- A peer that is added has reported nothing. -/
theorem Abreast.admits {id port : ℕ} {host : Text} {r : ℤ} {z : RaftNode}
    (h : Abreast x ∨ x.peers = []) (room : x.logCount ≤ raftMaxLog)
    (ha : Admission x id host port r z)
    (hy : y.standing = (x.currentTerm, x.log, x.commitIndex, z.peers)) :
    Abreast y ∨ (z.peers = x.peers ∧ x.peers = []) := by
  have same : z.peers.map (·.matchIndex) = x.peers.map (·.matchIndex) → z.peers = x.peers ∨
      x.peers ≠ [] → Abreast y ∨ (z.peers = x.peers ∧ x.peers = []) := by
    intro hmatch hpeers
    rcases h with habreast | hnone
    · exact Or.inl (habreast.of_standing hy hmatch)
    · exact Or.inr ⟨hpeers.resolve_right (not_not.mpr hnone), hnone⟩
  cases ha with
  | refused | full => exact same rfl (Or.inl rfl)
  | known good old =>
    refine same (map_modifyPeer fun _ _ _ => rfl) (Or.inr fun hnone => ?_)
    simp [findPeer, hnone] at old
  | added good new =>
    obtain ⟨hterm, hlog, hcommit, hpeers⟩ := standing_eq.mp hy
    left
    intro k hk hle hentry
    rw [RaftNode.logCount, hlog] at hk
    obtain ⟨hsame, hmore, halone⟩ := matchCount_concat (hk.trans_le room) hpeers rfl rfl
    rcases h with habreast | hnone
    · rw [hcommit] at hle
      rw [hlog, hterm] at hentry
      rw [hsame]
      exact (habreast k hk hle hentry).trans_le hmore
    · exact halone hnone

/-- An appended entry, when it is not with a majority yet. -/
theorem Abreast.appends {d : RaftLogEntry} (h : Abreast x)
    (hy : y.standing = (x.currentTerm, x.log ++ [d], x.commitIndex, x.peers))
    (few : matchCount x (x.logCount + 1) < majorityCount x) : Abreast y := by
  obtain ⟨hterm, hlog, hcommit, hpeers⟩ := standing_eq.mp hy
  intro k hk hle hentry
  obtain ⟨h1, h2⟩ := @matchCount_congr x y (by rw [hpeers]) (k + 1)
  rw [h1, h2]
  rw [RaftNode.logCount, hlog, List.length_append, List.length_singleton] at hk
  rw [hcommit] at hle
  rw [hlog, hterm] at hentry
  rcases Nat.lt_succ_iff_lt_or_eq.mp hk with hlt | rfl
  · rw [List.getElem?_append_left hlt] at hentry
    exact h k hlt hle hentry
  · exact few

/-- What a section does to a leader that is abreast, or whose entries a submission is going to
commit. -/
theorem Reign.abreast {commits commits' : List Peer → Prop} (reign : Reign x sec y.standing)
    (shaped : Shaped x.log x.currentTerm) (below : x.currentTerm < 2 ^ 32 - 1)
    (stood : x.role = .candidate → ∀ d ∈ x.log, d.term < x.currentTerm)
    (h : x.role = .leader → Abreast x ∨ commits x.peers) (attended : Attended commits x sec)
    (keep : ∀ ps, commits ps → commits' ps)
    (mono : ∀ ps ps', commits ps → (ps = [] → ps' = []) → commits ps')
    (opens : ∀ op key value, (sec = .raftSubmitCommand op key value ∨
      ∃ source, sec = .handleClientForward source op key value) → Checked op key value →
      x.role = .leader → commits' []) : Abreast y ∨ commits' y.peers := by
  -- the peers keep what they have reported
  have same : ∀ {ps}, y.standing = (x.currentTerm, x.log, x.commitIndex, ps) →
      ps.map (·.matchIndex) = x.peers.map (·.matchIndex) → x.role = .leader →
      Abreast y ∨ commits' y.peers := by
    intro ps hy hmatch lead
    refine (h lead).imp (fun h => h.of_standing hy hmatch) fun hc => ?_
    rw [(standing_eq.mp hy).2.2.2]
    refine keep _ (mono _ _ hc fun hnone => ?_)
    simpa [hnone] using hmatch
  generalize hst : y.standing = st at reign
  cases reign with
  | keeps _ lead => exact same hst rfl lead
  | stands =>
    obtain ⟨hterm, hlog, -, -⟩ := standing_eq.mp hst
    refine Or.inl (abreast_of_terms fun d hd => ?_)
    have := shaped.bound d (hlog ▸ hd)
    omega
  | wins hcand =>
    obtain ⟨hterm, hlog, -, -⟩ := standing_eq.mp hst
    refine Or.inl (abreast_of_terms fun d hd => ?_)
    rw [hterm]
    exact (stood hcand d (hlog ▸ hd)).ne
  | sends lead => exact same hst (map_modifyPeer fun _ _ _ => rfl) lead
  | backs lead => exact same hst (map_modifyPeer fun _ _ _ => rfl) lead
  | @takes id success m lead known succeeds z taken =>
    refine Or.inl (@abreast_of_commitScan y z ?_)
    subst taken
    exact hst
  | @appends sec op key value submits checked lead room =>
    by_cases hnone : x.peers = []
    · right
      rw [(standing_eq.mp hst).2.2.2, hnone]
      exact opens op key value submits checked lead
    · have hkept : commits x.peers → commits' y.peers := by
        rw [(standing_eq.mp hst).2.2.2]
        exact keep _
      rcases h lead with habreast | hc
      · have hfew : matchCount x (x.logCount + 1) < majorityCount x ∨ commits x.peers := by
          rcases submits with rfl | ⟨source, rfl⟩
          · exact attended lead checked room hnone
          · exact attended lead checked room hnone
        exact hfew.imp (habreast.appends hst) hkept
      · exact Or.inr (hkept hc)
  | commits =>
    obtain ⟨-, hlog, hcommit, -⟩ := standing_eq.mp hst
    refine Or.inl (abreast_of_logCount_le ?_)
    rw [RaftNode.logCount, hlog, hcommit]
    exact le_rfl
  | admits joins lead ha =>
    have room := shaped.ok.room
    rcases h lead with habreast | hc
    · rcases Abreast.admits (Or.inl habreast) room ha hst with hdone | ⟨hpeers, -⟩
      · exact Or.inl hdone
      · exact Or.inl (habreast.of_standing hst (by rw [hpeers]))
    · by_cases hnone : x.peers = []
      · rcases Abreast.admits (Or.inr hnone) room ha hst with hdone | ⟨hpeers, -⟩
        · exact Or.inl hdone
        · right
          rw [(standing_eq.mp hst).2.2.2, hpeers]
          exact keep _ hc
      · right
        exact keep _ (mono _ _ hc fun h => absurd h hnone)
  | @removes id r z lead hr =>
    cases hr with
    | refused | unknown => exact same hst rfl lead
    | removed good old =>
      refine (attended lead good old).imp (fun h => ?_) fun hc => ?_
      · exact h.of_standing hst rfl
      · rw [(standing_eq.mp hst).2.2.2]
        exact keep _ hc

/-- A candidate has no entry of the term in which it stands. -/
theorem candidate_terms (shaped : Shaped x.log x.currentTerm) (below : x.currentTerm < 2 ^ 32 - 1)
    (stood : x.role = .candidate → ∀ d ∈ x.log, d.term < x.currentTerm)
    (he : exec env sec x = some e) (hcand : e.node.role = .candidate) :
    ∀ d ∈ e.node.log, d.term < e.node.currentTerm := by
  have turn := exec_turn he
  obtain ⟨hturn, -⟩ := exec_log he
  generalize hlog : e.node.log = log at hturn
  cases hturn with
  | keep =>
    have hrole : e.node.seat.role = .candidate := hcand
    have hterm : e.node.seat.term = e.node.currentTerm := rfl
    rw [← hterm]
    generalize e.node.seat = z at turn hrole
    cases turn with
    | stay | reopen => exact stood hrole
    | follow | yield | win => cases hrole
    | grant free upToDate =>
      intro d hd
      rcases free with hlt | ⟨rfl, -⟩
      · exact absurd ((if_pos hlt).symm.trans hrole) (by decide)
      · exact stood ((if_neg (lt_irrefl _)).symm.trans hrole) d hd
    | @stand t next =>
      intro d hd
      have := shaped.bound d hd
      change d.term < t
      omega
  | append submits lead room =>
    have hrole : e.node.seat.role = .candidate := hcand
    generalize e.node.seat = z at turn hrole
    rcases submits with rfl | ⟨source, rfl⟩
    · cases turn with
      | stay => cases lead.symm.trans hrole
      | follow term => cases term
    · cases turn with
      | stay => cases lead.symm.trans hrole
      | follow term => cases term
  | store term => cases (handleAppendEntries_seat he term).2.symm.trans hcand

/-! ### Threads -/

/-- A submission that is going to commit is still going to when another section runs. -/
theorem Cluster.Commits.run {j : Fin n} {ps : List Peer} (h : s.Commits j ps) {a : Action n}
    {rest todo : List Section} {threads : List (Fin n × List Section)} {net net' : List Packet}
    (src : Cluster.Source s i sec a rest threads net) (node : Fin n → RaftNode) :
    (⟨node, (i, todo ++ rest) :: threads, net'⟩ : Cluster n).Commits j ps ∨
      (j = i ∧ (sec = .submitCommit ∨ (sec = .submitPeerless ∧ ps = []))) := by
  obtain ⟨th, hth, hj, hgoes⟩ := h
  cases src with
  | enter => exact Or.inl ⟨th, List.mem_cons_of_mem _ hth, hj, hgoes⟩
  | deliver =>
    exact Or.inl ⟨th, List.mem_cons_of_mem _ (List.mem_append_right _ hth), hj, hgoes⟩
  | resume k env rest pre post split =>
    rw [split] at hth
    rcases List.mem_append.mp hth with hpre | hmem
    · exact Or.inl ⟨th, List.mem_cons_of_mem _ (List.mem_append_left _ hpre), hj, hgoes⟩
    · rcases List.mem_cons.mp hmem with rfl | hpost
      · have stays : ∀ next ∈ rest, next ∈ todo ++ rest := fun next => List.mem_append_right _
        simp only [List.mem_cons] at hgoes
        rcases hgoes with (hsec | hrest) | ⟨hsec | hrest, hnone⟩
        · exact Or.inr ⟨hj.symm, Or.inl hsec.symm⟩
        · exact Or.inl ⟨_, List.mem_cons_self, hj, Or.inl (stays _ hrest)⟩
        · exact Or.inr ⟨hj.symm, Or.inr ⟨hsec.symm, hnone⟩⟩
        · exact Or.inl ⟨_, List.mem_cons_self, hj, Or.inr ⟨stays _ hrest, hnone⟩⟩
      · exact Or.inl ⟨th, List.mem_cons_of_mem _ (List.mem_append_right _ hpost), hj, hgoes⟩

theorem Cluster.Commits.mono {ps ps' : List Peer} (h : s.Commits i ps) (hps : ps = [] → ps' = []) :
    s.Commits i ps' := by
  obtain ⟨th, hth, hi, hgoes⟩ := h
  exact ⟨th, hth, hi, hgoes.imp_right fun ⟨htest, hnone⟩ => ⟨htest, hps hnone⟩⟩

/-! ### Runs -/

structure CommitInv (s : Cluster n) : Prop where
  shape : ShapeInv s
  stood : ∀ i, (s.node i).role = .candidate →
    ∀ d ∈ (s.node i).log, d.term < (s.node i).currentTerm
  abreast : ∀ i, (s.node i).role = .leader →
    Abreast (s.node i) ∨ s.Commits i (s.node i).peers

theorem commitInv_start {now : Fin n → ℕ} {config : Fin n → RaftConfig}
    (ids : ∀ i, (config i).id < 2 ^ 32) (hosts : ∀ i, (config i).Unbroken) :
    CommitInv (Cluster.start now config) where
  shape := shapeInv_start ids hosts
  stood i h := by cases h
  abreast i h := by cases h

/-- An accepted submission goes on to the test of the peer count. -/
theorem submission_todo {op : KvOp} {key value : Text} (he : exec env sec x = some e)
    (submits : sec = .raftSubmitCommand op key value ∨
      ∃ source, sec = .handleClientForward source op key value)
    (checked : Checked op key value) (lead : x.role = .leader) : .submitPeerless ∈ e.todo := by
  have hmem : .submitPeerless ∈ (raftSubmitCommand env x op key value).todo := by
    rw [raftSubmitCommand_leader checked lead]
    simp
  rcases submits with rfl | ⟨source, rfl⟩
  · obtain rfl := Option.some.inj he
    exact hmem
  · obtain rfl := Option.some.inj he
    exact hmem

/-- The node that runs a section, when its submissions go on. -/
theorem CommitInv.exec (h : CommitInv s) (below : TermsBelow s)
    (attended : Attended (s.Commits i) (s.node i) sec) (he : exec env sec (s.node i) = some e)
    (lead : e.node.role = .leader) {commits' : List Peer → Prop}
    (keep : ∀ ps, s.Commits i ps →
      commits' ps ∨ sec = .submitCommit ∨ (sec = .submitPeerless ∧ ps = []))
    (tests : .submitPeerless ∈ e.todo → commits' [])
    (commits : .submitCommit ∈ e.todo → ∀ ps, commits' ps) :
    Abreast e.node ∨ commits' e.node.peers := by
  by_cases hcommit : sec = .submitCommit
  · subst hcommit
    obtain ⟨-, hbody⟩ := Prod.mk.inj (body_submitCommit he)
    obtain ⟨hlog, hindex⟩ := Prod.mk.inj hbody
    refine Or.inl (abreast_of_logCount_le ?_)
    rw [RaftNode.logCount, hlog, hindex]
    exact le_rfl
  by_cases htest : sec = .submitPeerless
  · subst htest
    obtain rfl := Option.some.inj he
    rw [node_submitPeerless] at lead ⊢
    by_cases hnone : (s.node i).peers = []
    · right
      refine commits ?_ _
      simp [submitPeerless, RaftNode.peerCount, hnone]
    · refine (h.abreast i lead).imp_right fun hc => ?_
      exact (keep _ hc).resolve_right fun hsec =>
        hsec.elim (fun hsec => by cases hsec) fun hsec => hnone hsec.2
  · refine (exec_reign he lead).abreast (h.shape.shaped i) (below i) (h.stood i) (h.abreast i)
      attended (fun ps hc => ?_) (fun ps ps' hc => hc.mono)
      fun op key value submits checked hlead => tests (submission_todo he submits checked hlead)
    exact (keep ps hc).resolve_right fun hsec =>
      hsec.elim hcommit fun hsec => htest hsec.1

theorem CommitInv.step (h : CommitInv s) {d : Delivery n} (ok : Attentive s d)
    (hstep : s.stepAgain d = some s') : CommitInv s' := by
  obtain ⟨tidy, attended⟩ := ok
  have shape' := h.shape.step tidy hstep
  obtain ⟨⟨inner, below⟩, -⟩ := tidy
  cases d with
  | again k =>
    obtain ⟨p, -, rfl⟩ := Option.map_eq_some_iff.mp hstep
    exact ⟨shape', h.stood, h.abreast⟩
  | act a =>
    rcases Cluster.step_cases hstep with ⟨_, _, _, -, rfl⟩ |
      ⟨i, env, sec, rest, threads, net, e, hent, hsrc, he, rfl⟩
    · exact ⟨shape', h.stood, h.abreast⟩
    · refine ⟨shape', fun j hcand => ?_, fun j lead => ?_⟩
      · by_cases hj : j = i
        · subst hj
          simp only [update_self] at hcand ⊢
          exact candidate_terms (h.shape.shaped j) (below j) (h.stood j) he hcand
        · simp only [update_of_ne hj] at hcand ⊢
          exact h.stood j hcand
      · by_cases hj : j = i
        · subst hj
          simp only [update_self] at lead ⊢
          refine h.exec below (attended (j, sec) hent) he lead (fun ps hc => ?_)
            (fun hn => ?_) fun hn ps => ?_
          · exact (hc.run hsrc _).imp_right fun hrun => hrun.2
          · exact ⟨_, List.mem_cons_self, rfl, Or.inr ⟨List.mem_append_left _ hn, rfl⟩⟩
          · exact ⟨_, List.mem_cons_self, rfl, Or.inl (List.mem_append_left _ hn)⟩
        · simp only [update_of_ne hj] at lead ⊢
          exact (h.abreast j lead).imp_right fun hc =>
            (hc.run hsrc _).resolve_right fun hrun => hj hrun.1

/-- Commit is never left behind: a leader at which no submission is between its sections has
committed every entry of its term that a majority has. -/
theorem commit_keeps_up {now : Fin n → ℕ} {config : Fin n → RaftConfig}
    (ids : ∀ i, (config i).id < 2 ^ 32) (hosts : ∀ i, (config i).Unbroken)
    (run : Reach Cluster.stepAgain Attentive (Cluster.start now config) s)
    (lead : (s.node i).role = .leader)
    (idle : ∀ th ∈ s.threads, th.1 = i → .submitPeerless ∉ th.2 ∧ .submitCommit ∉ th.2) (N : ℕ)
    (pos : 1 ≤ N) (hle : N ≤ (s.node i).logCount)
    (hterm : (s.node i).log[N - 1]?.map (·.term) = some (s.node i).currentTerm)
    (reached : majorityCount (s.node i) ≤ matchCount (s.node i) N) :
    N ≤ (s.node i).commitIndex := by
  have h : CommitInv s := by
    refine run.invariant (commitInv_start ids hosts) ?_
    intro s d s' _ h hok hstep
    exact h.step hok hstep
  rcases h.abreast i lead with habreast | ⟨th, hth, hi, hgoes⟩
  · by_contra hbehind
    obtain ⟨k, rfl⟩ := Nat.exists_eq_add_of_le' pos
    exact absurd reached (not_le.mpr (habreast k hle (by omega) hterm))
  · obtain ⟨htest, hcommit⟩ := idle th hth hi
    rcases hgoes with h | ⟨h, -⟩
    · exact absurd h hcommit
    · exact absurd h htest

/-- Node 1 times out, is elected by node 2, and takes a command, which it sends to the others. -/
def trioSubmit : List (Action 3) :=
  [.enter node1 ⟨2000, true⟩ (.tickerLoop 0), .resume 0 still, .deliver 0 node2 still,
    .deliver 0 node1 still, .resume 0 still, .resume 0 still, .resume 0 still,
    .enter node1 still (.raftSubmitCommand .set (bytes "k") (bytes "a")), .resume 0 still,
    .resume 0 still, .resume 0 still, .resume 0 still]

/-- Node 2 stores the command, and node 1 handles its answer. -/
def trioAnswer : List (Action 3) := [.deliver 1 node2 still, .deliver 0 node1 still]

theorem commit_keeps_up_trio : ∃ s, Reach Cluster.stepAgain Attentive trio s ∧
    1 ≤ (s.node 0).commitIndex := by
  have hrun : (runList Cluster.stepAgain (fun s d => decide (Attentive s d)) trio
      ((trioSubmit ++ trioAnswer).map .act)).any (fun s =>
        (s.node 0).role = .leader ∧
        (∀ th ∈ s.threads, th.1 = 0 → .submitPeerless ∉ th.2 ∧ .submitCommit ∉ th.2) ∧
        1 ≤ (s.node 0).logCount ∧
        (s.node 0).log[0]?.map (·.term) = some (s.node 0).currentTerm ∧
        majorityCount (s.node 0) ≤ matchCount (s.node 0) 1) = true := by
    decide +kernel
  obtain ⟨s, run, hs⟩ := exists_reach (fun s d => of_decide_eq_true) hrun
  obtain ⟨lead, idle, hle, hterm, reached⟩ := of_decide_eq_true hs
  exact ⟨s, run, commit_keeps_up (by decide) (by decide) run lead idle 1 le_rfl hle hterm reached⟩

/-- Both peers of node 1 leave before they have the command. -/
def trioDepart : List (Action 3) :=
  [.enter node2 still .requestClusterLeave, .deliver 0 node1 still, .resume 0 still,
    .enter node3 still .requestClusterLeave, .deliver 0 node1 still, .resume 0 still]

/-- Node 1 leads alone, all its handlers have come to their end, and it has not committed its
entry. -/
theorem commit_left_behind : ¬∀ (n : ℕ) (now : Fin n → ℕ) (config : Fin n → RaftConfig),
    (∀ i, (config i).id < 2 ^ 32) → ∀ s : Cluster n,
    Reach Cluster.step (fun _ a => a.outer = true) (Cluster.start now config) s →
    ∀ i, (s.node i).role = .leader →
    (∀ th ∈ s.threads, th.1 = i → th.2 = [] ∨ th.2 = [.tickerLoop 0]) →
    ∀ N, 1 ≤ N → N ≤ (s.node i).logCount →
    (s.node i).log[N - 1]?.map (·.term) = some (s.node i).currentTerm →
    majorityCount (s.node i) ≤ matchCount (s.node i) N → N ≤ (s.node i).commitIndex := by
  intro h
  have hrun : (runList Cluster.step (fun _ a => a.outer) trio (trioSubmit ++ trioDepart)).any
      (fun s => (s.node 0).role = .leader ∧
        (∀ th ∈ s.threads, th.1 = 0 → th.2 = [] ∨ th.2 = [.tickerLoop 0]) ∧
        1 ≤ (s.node 0).logCount ∧
        (s.node 0).log[0]?.map (·.term) = some (s.node 0).currentTerm ∧
        majorityCount (s.node 0) ≤ matchCount (s.node 0) 1 ∧
        (s.node 0).commitIndex = 0) = true := by
    decide +kernel
  obtain ⟨s, run, hs⟩ := exists_reach (fun s a => id) hrun
  obtain ⟨lead, idle, hle, hterm, reached, hzero⟩ := of_decide_eq_true hs
  have hcommitted := h 3 _ _ (by decide) s run 0 lead idle 1 le_rfl hle hterm reached
  omega

end RaftKv
