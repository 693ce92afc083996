import RaftKv.Lines
import RaftKv.Unbroken

/-! The shape of the logs in a cluster whose members come and go, with lines lost, repeated and
reordered: indices in order, terms that do not go down, and a leader that only appends.  An `AE`
line carries the part of its sender's log that the receiver's log needs to keep its shape, so it
does not matter who sends it, or when.  It matters that what is sent is one line. -/

namespace RaftKv

open Function Runs Stdio

/-- An action of a cluster, or the network repeats packet `k`. -/
inductive Delivery (n : ℕ)
  | act (a : Action n)
  | again (k : ℕ)

variable {n : ℕ}

def Cluster.stepAgain (s : Cluster n) : Delivery n → Option (Cluster n)
  | .act a => s.step a
  | .again k => s.net[k]?.map fun p => { s with net := p :: s.net }

/-- A thread does not start with the handler of a line, which is for `deliver`. -/
def Action.inner : Action n → Bool
  | .enter _ _ sec => sec.inner
  | _ => true

def Delivery.inner : Delivery n → Bool
  | .act a => a.inner
  | .again _ => true

/-- A delivery, while the terms do not wrap. -/
def Gossips (s : Cluster n) (d : Delivery n) : Prop := d.inner = true ∧ TermsBelow s

instance (s : Cluster n) (d : Delivery n) : Decidable (Gossips s d) :=
  inferInstanceAs (Decidable (_ ∧ _))

def Delivery.Unbroken : Delivery n → Prop
  | .act a => a.Unbroken
  | .again _ => True

instance (d : Delivery n) : Decidable d.Unbroken := by
  unfold Delivery.Unbroken
  split <;> infer_instance

/-- A delivery, while the terms do not wrap, and no thread starts with a newline in its texts. -/
def Tidy (s : Cluster n) (d : Delivery n) : Prop := Gossips s d ∧ d.Unbroken

instance (s : Cluster n) (d : Delivery n) : Decidable (Tidy s d) :=
  inferInstanceAs (Decidable (_ ∧ _))

/-- Every entry has its place, the terms do not go down, and `term` is not behind them. -/
structure Shaped (log : List RaftLogEntry) (term : ℕ) : Prop where
  ok : LogOk log
  sorted : log.Pairwise fun d e => d.term ≤ e.term
  bound : ∀ d ∈ log, d.term ≤ term

/-- An `AE` line has numbers that can be printed and read, and an entry that keeps a log in shape
that the check admits. -/
def Line.Shaped : Line → Prop
  | .ae t l p pt lc entry => Fits [t, l, p, pt, lc] ∧ ∀ d, entry = some d →
      p < raftMaxLog ∧ d.index = p + 1 ∧ (0 < p → pt ≤ d.term) ∧ d.term ≤ t
  | _ => True

def Section.Shaped : Section → Prop
  | .handleAppendEntries t _ p pt _ has d =>
    has ≠ 0 → d.index = p + 1 ∧ (0 < p → pt ≤ d.term) ∧ d.term ≤ t
  | _ => True

structure ShapeInv (s : Cluster n) : Prop where
  unbroken : RaftKv.Unbroken s
  id_lt : ∀ i, (s.node i).id < 2 ^ 32
  shaped : ∀ i, RaftKv.Shaped (s.node i).log (s.node i).currentTerm
  commit : ∀ i, (s.node i).commitIndex ≤ raftMaxLog
  threads : ∀ th ∈ s.threads, ∀ sec ∈ th.2, sec.inner = true
  packets : ∀ p ∈ s.net, p.line.Shaped

variable {s s' : Cluster n} {x : RaftNode} {env : Env} {sec : Section} {e : Effect} {line : Line}

/-! ### Lines -/

/-- A node whose log is in shape writes `AE` lines in shape. -/
theorem built_shaped (h : Shaped x.log x.currentTerm) (hid : x.id < 2 ^ 32)
    (hterm : x.currentTerm < 2 ^ 32) (hcommit : x.commitIndex ≤ raftMaxLog) {peer : Peer}
    (built : buildAppendLocked x peer = some line) : line.Shaped := by
  obtain ⟨p, pt, entry, rfl, hpt, hentry⟩ :=
    buildAppendLocked_cases h.ok.indexed h.ok.room built
  have hroom := h.ok.room
  have hp : p ≤ x.log.length := by
    rcases hentry with ⟨d, -, hget, -⟩ | ⟨-, rfl⟩
    · exact (List.getElem?_eq_some_iff.mp hget).1.le
    · exact le_rfl
  have hptlt : pt < 2 ^ 32 :=
    termAt_lt (fun d hd => (h.bound d hd).trans_lt hterm) (by norm_num) hpt
  refine ⟨?_, ?_⟩
  · have hmax : raftMaxLog < 2 ^ 32 := by decide
    simp only [Fits, List.forall_mem_cons, List.not_mem_nil, false_imp_iff, implies_true,
      and_true]
    exact ⟨hterm, hid, (hp.trans hroom).trans_lt hmax, hptlt, hcommit.trans_lt hmax⟩
  · rintro d rfl
    obtain ⟨d', hd', hget, hindex⟩ | ⟨hnone, -⟩ := hentry
    · obtain rfl := Option.some.inj hd'
      obtain ⟨hlt, hget⟩ := List.getElem?_eq_some_iff.mp hget
      refine ⟨hlt.trans_le hroom, hindex, ?_, h.bound d (hget ▸ List.getElem_mem hlt)⟩
      intro hpos
      rcases termAt_cases hpt with ⟨hzero, -⟩ | ⟨-, hprev⟩
      · omega
      · obtain ⟨old, hold, rfl⟩ := Option.map_eq_some_iff.mp hprev
        obtain ⟨hlt', rfl⟩ := List.getElem?_eq_some_iff.mp hold
        rw [← hget]
        exact List.pairwise_iff_getElem.mp h.sorted (p - 1) p hlt' hlt (by omega)
    · cases hnone

/-- A line in shape leads to a section in shape. -/
theorem Line.Shaped.handled (h : line.Shaped) (hhandle : line.handler = some sec) :
    sec.Shaped := by
  cases sec with
  | handleAppendEntries t l p pt lc has d =>
    obtain ⟨t', l', p', pt', lc', entry, rfl⟩ := Line.ae_of_handler hhandle
    obtain ⟨hfit, hentry⟩ := h
    cases entry with
    | none =>
      rw [Line.handler_ae_none hfit] at hhandle
      cases hhandle
      exact fun hhas => absurd rfl hhas
    | some d' =>
      obtain ⟨hp, hindex, hprev, hterm⟩ := hentry d' rfl
      have hfit' : Fits [t', l', p', pt', lc', 1, d'.index, d'.term] := by
        have hmax : raftMaxLog < 2 ^ 32 := by decide
        simp only [Fits, List.forall_mem_cons, List.not_mem_nil, false_imp_iff, implies_true,
          and_true] at hfit ⊢
        obtain ⟨h1, h2, h3, h4, h5⟩ := hfit
        exact ⟨h1, h2, h3, h4, h5, by norm_num, by omega, by omega⟩
      rcases Line.handler_ae_some hfit' with hnone | ⟨d, hsome, hi, ht⟩
      · rw [hnone] at hhandle
        cases hhandle
      · rw [hsome] at hhandle
        cases hhandle
        intro _
        rw [hi, ht]
        exact ⟨hindex, hprev, hterm⟩
  | _ => trivial

/-! ### One node -/

/-- An `AE` section of the current term or a later one ends in that term, with a follower. -/
theorem handleAppendEntries_seat {now t l p pt lc has : ℕ} {d : RaftLogEntry}
    (he : handleAppendEntries now x t l p pt lc has d = some e) (accepts : x.currentTerm ≤ t) :
    e.node.currentTerm = t ∧ e.node.role = .follower := by
  generalize hx : (if x.currentTerm ≤ t then becomeFollowerLocked now x t (toInt32 l)
    else x) = x1
  have hterm : t = x1.currentTerm := (acknowledged_fields hx).2.2.2.2.mpr accepts
  have hrole : x1.role = .follower := by
    rw [← hx, if_pos accepts]
    exact (becomeFollowerLocked_fields now x t (toInt32 l)).1
  rcases handleAppendEntries_cases hx he with ⟨-, -, log, z, -, happ, rfl⟩ | ⟨-, rfl⟩
  · split at happ
    · rw [(applyCommittedLocked_eq happ).1]
      exact ⟨hterm.symm, hrole⟩
    · rw [← Option.some.inj happ]
      exact ⟨hterm.symm, hrole⟩
  · exact ⟨hterm.symm, hrole⟩

theorem Shaped.concat {log : List RaftLogEntry} {term k : ℕ} {d : RaftLogEntry}
    (h : Shaped log term) (hok : LogOk (log.take k ++ [d])) (hlast : ∀ c ∈ log.take k,
      c.term ≤ d.term) {term' : ℕ} (hle : term ≤ term') (hd : d.term ≤ term') :
    Shaped (log.take k ++ [d]) term' := by
  refine ⟨hok, ?_, ?_⟩
  · rw [List.pairwise_append]
    refine ⟨h.sorted.sublist (List.take_sublist k log), List.pairwise_singleton _ _, ?_⟩
    intro c hc b hb
    rw [List.mem_singleton.mp hb]
    exact hlast c hc
  · intro c hc
    rcases List.mem_append.mp hc with hc | hc
    · exact (h.bound c (List.mem_of_mem_take hc)).trans hle
    · rw [List.mem_singleton.mp hc]
      exact hd

/-- A section in shape keeps the log in shape. -/
theorem Shaped.exec (h : Shaped x.log x.currentTerm) (hsec : sec.Shaped)
    (below : x.currentTerm < 2 ^ 32 - 1) (he : exec env sec x = some e) :
    Shaped e.node.log e.node.currentTerm := by
  have hterm : x.currentTerm ≤ e.node.currentTerm := (exec_turn he).term_le below
  have hok := h.ok.exec he
  obtain ⟨hturn, -⟩ := exec_log he
  generalize e.node.log = log at hturn hok
  cases hturn with
  | keep => exact ⟨hok, h.sorted, fun d hd => (h.bound d hd).trans hterm⟩
  | append submits lead room =>
    rw [← List.take_length (l := x.log)] at hok ⊢
    exact h.concat hok (fun c hc => h.bound c (List.mem_of_mem_take hc)) hterm hterm
  | @store t l p pt lc has d log term prev entry stored =>
    obtain ⟨hindex, hprev, hd⟩ := hsec entry
    obtain ⟨hsame, -⟩ := handleAppendEntries_seat he term
    rcases storeEntry_shape stored h.ok.room with rfl | ⟨k, hk, hreach, -, rfl⟩
    · exact ⟨hok, h.sorted, fun d hd => (h.bound d hd).trans hterm⟩
    · obtain rfl : k = p := by omega
      refine h.concat hok ?_ hterm (hsame ▸ hd)
      intro c hc
      rcases prevMatches_cases prev with rfl | ⟨hpos, -, hget⟩
      · rw [List.take_zero] at hc
        cases hc
      · obtain ⟨old, hold, rfl⟩ := Option.map_eq_some_iff.mp hget
        obtain ⟨hlt, rfl⟩ := List.getElem?_eq_some_iff.mp hold
        refine le_trans ?_ (hprev hpos)
        obtain ⟨j, hj, rfl⟩ := List.mem_take_iff_getElem.mp hc
        rcases Nat.lt_or_ge j (k - 1) with hlt' | hge
        · exact List.pairwise_iff_getElem.mp h.sorted j (k - 1) _ hlt hlt'
        · have : j = k - 1 := by omega
          subst this
          exact le_rfl

/-- A node that leads after a section has only appended entries of its term in it. -/
theorem leader_appends (he : exec env sec x = some e) (stays : e.node.role = .leader) :
    ∃ es, e.node.log = x.log ++ es ∧ ∀ d ∈ es, d.term = x.currentTerm := by
  obtain ⟨hturn, -⟩ := exec_log he
  generalize hlog : e.node.log = log at hturn
  cases hturn with
  | keep => exact ⟨[], (List.append_nil _).symm, fun d hd => absurd hd List.not_mem_nil⟩
  | append submits lead room =>
    refine ⟨_, rfl, fun d hd => ?_⟩
    rw [List.mem_singleton.mp hd]
  | store term prev entry stored =>
    rw [(handleAppendEntries_seat he term).2] at stays
    cases stays

/-! ### Runs -/

theorem Unbroken.stepAgain (h : Unbroken s) {d : Delivery n} (ok : d.Unbroken)
    (hstep : s.stepAgain d = some s') : Unbroken s' := by
  cases d with
  | act a => exact h.step ok hstep
  | again k =>
    obtain ⟨p, hp, rfl⟩ := Option.map_eq_some_iff.mp hstep
    refine ⟨h.nodes, h.threads, List.forall_mem_cons.mpr ⟨?_, h.net⟩⟩
    exact h.net p (List.mem_of_getElem? hp)

theorem shapeInv_start {now : Fin n → ℕ} {config : Fin n → RaftConfig}
    (ids : ∀ i, (config i).id < 2 ^ 32) (hosts : ∀ i, (config i).Unbroken) :
    ShapeInv (Cluster.start now config) where
  unbroken := unbroken_start hosts
  id_lt := ids
  shaped _ := ⟨⟨Nat.zero_le _, fun k e he => by cases he⟩, .nil, fun d hd => by cases hd⟩
  commit _ := Nat.zero_le _
  threads th hth := by cases hth
  packets p hp := by cases hp

/-- Only `AE` lines need a shape, and they come from `build_append_locked`. -/
theorem sends_shaped (h : Shaped x.log x.currentTerm) (hid : x.id < 2 ^ 32)
    (hterm : x.currentTerm < 2 ^ 32) (hcommit : x.commitIndex ≤ raftMaxLog)
    (he : exec env sec x = some e) {p : Packet} (hp : p ∈ e.sends) : p.line.Shaped := by
  have hkind := exec_sends he hp
  cases hline : p.line with
  | ae t l pi pt lc entry =>
    rw [hline] at hkind
    cases sec with
    | sendAppendToPeer id =>
      rw [← hline]
      cases transmission he with
      | unknown => cases hp
      | sends peer line found built =>
        rw [List.mem_singleton.mp hp]
        exact built_shaped h hid hterm hcommit built
    | _ => cases hkind
  | _ => trivial

/-- A section of node `i` keeps the invariant, when it is in shape. -/
theorem ShapeInv.run (h : ShapeInv s) (below : TermsBelow s) {i : Fin n} (hsec : sec.Shaped)
    (he : exec env sec (s.node i) = some e) {rest : List Section}
    {threads : List (Fin n × List Section)} {net : List Packet}
    (hrest : ∀ next ∈ rest, next.inner = true)
    (hthreads : ∀ th ∈ threads, ∀ next ∈ th.2, next.inner = true)
    (hnet : ∀ p ∈ net, p.line.Shaped) (unbroken : RaftKv.Unbroken
      ⟨update s.node i e.node, (i, e.todo ++ rest) :: threads, e.sends ++ net⟩) :
    ShapeInv ⟨update s.node i e.node, (i, e.todo ++ rest) :: threads, e.sends ++ net⟩ := by
  have hbelow : (s.node i).currentTerm < 2 ^ 32 := (below i).trans (by norm_num)
  have hnode : ∀ {P : RaftNode → Prop}, (∀ j, P (s.node j)) → P e.node →
      ∀ j, P (update s.node i e.node j) := by
    intro P hall hself j
    by_cases hj : j = i
    · rw [hj, update_self]
      exact hself
    · rw [update_of_ne hj]
      exact hall j
  refine ⟨unbroken, ?_, ?_, ?_, ?_, ?_⟩
  · refine hnode (P := fun y => y.id < 2 ^ 32) h.id_lt ?_
    exact (exec_turn he).id_eq.trans_lt (h.id_lt i)
  · exact hnode (P := fun y => RaftKv.Shaped y.log y.currentTerm) h.shaped
      ((h.shaped i).exec hsec (below i) he)
  · refine hnode (P := fun y => y.commitIndex ≤ raftMaxLog) h.commit ?_
    rcases (exec_log he).2 with hsame | hle
    · exact hsame.trans_le (h.commit i)
    · exact hle.trans ((h.shaped i).ok.exec he).room
  · intro th hth next hn
    rcases List.mem_cons.mp hth with rfl | hth
    · rcases List.mem_append.mp hn with hn | hn
      · exact Section.inner_of_follows (exec_follows he hn)
      · exact hrest next hn
    · exact hthreads th hth next hn
  · intro p hp
    rcases List.mem_append.mp hp with hp | hp
    · exact sends_shaped (h.shaped i) (h.id_lt i) hbelow (h.commit i) he hp
    · exact hnet p hp

theorem Section.shaped_of_inner (h : sec.inner = true) : sec.Shaped := by
  cases sec with
  | handleAppendEntries => cases h
  | _ => trivial

/-- Where a section comes from, it is in shape, and so is what stays. -/
theorem ShapeInv.source (h : ShapeInv s) {a : Action n} (inner : a.inner = true) {i : Fin n}
    {rest : List Section} {threads : List (Fin n × List Section)} {net : List Packet}
    (src : Cluster.Source s i sec a rest threads net) :
    sec.Shaped ∧ (∀ next ∈ rest, next.inner = true) ∧
      (∀ th ∈ threads, ∀ next ∈ th.2, next.inner = true) ∧ ∀ p ∈ net, p.line.Shaped := by
  refine (src.origin h.unbroken.net).carries h.threads h.packets ?_ Section.shaped_of_inner
    fun p hp _ => hp.handled
  rintro env rfl
  exact Section.shaped_of_inner inner

theorem ShapeInv.step (h : ShapeInv s) {d : Delivery n} (ok : Tidy s d)
    (hstep : s.stepAgain d = some s') : ShapeInv s' := by
  obtain ⟨⟨hinner, below⟩, hok⟩ := ok
  have unbroken := h.unbroken.stepAgain hok hstep
  cases d with
  | act a =>
    rcases Cluster.step_cases hstep with ⟨pre, p, post, hnet, rfl⟩ |
      ⟨i, env, sec, rest, threads, net, e, -, hsrc, he, rfl⟩
    · refine ⟨unbroken, h.id_lt, h.shaped, h.commit, h.threads, fun q hq => h.packets q ?_⟩
      rw [hnet]
      rcases List.mem_append.mp hq with hq | hq
      · exact List.mem_append_left _ hq
      · exact List.mem_append_right _ (List.mem_cons_of_mem _ hq)
    · obtain ⟨hsec, hrest, hthreads, hnet⟩ := h.source hinner hsrc
      exact h.run below hsec he hrest hthreads hnet unbroken
  | again k =>
    obtain ⟨p, hp, rfl⟩ := Option.map_eq_some_iff.mp hstep
    refine ⟨unbroken, h.id_lt, h.shaped, h.commit, h.threads, fun q hq => ?_⟩
    rcases List.mem_cons.mp hq with rfl | hq
    · exact h.packets q (List.mem_of_getElem? hp)
    · exact h.packets q hq

/-- A node that leads after a step has only appended entries of its term in it. -/
theorem leader_extends {d : Delivery n} (hstep : s.stepAgain d = some s') (i : Fin n)
    (stays : (s'.node i).role = .leader) :
    ∃ es, (s'.node i).log = (s.node i).log ++ es ∧ ∀ d ∈ es, d.term = (s.node i).currentTerm := by
  have same : ∃ es, (s.node i).log = (s.node i).log ++ es ∧
      ∀ d ∈ es, d.term = (s.node i).currentTerm :=
    ⟨[], (List.append_nil _).symm, fun d hd => absurd hd List.not_mem_nil⟩
  cases d with
  | act a =>
    rcases Cluster.step_cases hstep with ⟨pre, p, post, hnet, rfl⟩ |
      ⟨j, env, sec, rest, threads, net, e, -, -, he, rfl⟩
    · exact same
    · by_cases hij : i = j
      · subst hij
        simp only [update_self] at stays ⊢
        exact leader_appends he stays
      · simp only [update_of_ne hij]
        exact same
  | again k =>
    obtain ⟨p, -, rfl⟩ := Option.map_eq_some_iff.mp hstep
    exact same

/-- Log shape: in every reachable state entry `i` of a log has index `i`, the terms do not go down
along it, none is ahead of the node, and it is within its array; and in every step a node that leads
in the same term before and after it only appends entries of that term. -/
theorem log_shape {now : Fin n → ℕ} {config : Fin n → RaftConfig}
    (ids : ∀ i, (config i).id < 2 ^ 32) (hosts : ∀ i, (config i).Unbroken)
    (run : Reach Cluster.stepAgain Tidy (Cluster.start now config) s) :
    (∀ i, (∀ (k : ℕ) (d : RaftLogEntry), (s.node i).log[k]? = some d → d.index = k + 1) ∧
      (s.node i).log.Pairwise (fun d e => d.term ≤ e.term) ∧
      (∀ d ∈ (s.node i).log, d.term ≤ (s.node i).currentTerm) ∧
      (s.node i).logCount ≤ raftMaxLog) ∧
    ∀ d s', Gossips s d → s.stepAgain d = some s' → ∀ i, (s.node i).role = .leader →
      (s'.node i).role = .leader → (s'.node i).currentTerm = (s.node i).currentTerm →
      ∃ es, (s'.node i).log = (s.node i).log ++ es ∧
        ∀ d ∈ es, d.term = (s.node i).currentTerm := by
  have h : ShapeInv s := by
    refine run.invariant (shapeInv_start ids hosts) ?_
    intro s a s' _ h hok hstep
    exact h.step hok hstep
  constructor
  · intro i
    have hi := h.shaped i
    exact ⟨hi.ok.indexed, hi.sorted, hi.bound, hi.ok.room⟩
  · intro d s' _ hstep i _ stays _
    exact leader_extends hstep i stays

/-- The first vote request arrives twice, and node 1 is elected and gets a command. -/
theorem log_shape_trio : ∃ s, Reach Cluster.stepAgain Tidy trio s ∧
    (s.node 0).role = .leader ∧ (s.node 0).logCount = 1 ∧
    ∀ k d, (s.node 0).log[k]? = some d → d.index = k + 1 := by
  have hrun : (runList Cluster.stepAgain (fun s d => decide (Tidy s d)) trio
      ((trioCommit.map .act).insertIdx 1 (.again 0))).any (fun s =>
        (s.node 0).role = .leader ∧ (s.node 0).logCount = 1) = true := by
    decide +kernel
  obtain ⟨s, run, hs⟩ := exists_reach (fun s a => of_decide_eq_true) hrun
  obtain ⟨hlead, hcount⟩ := of_decide_eq_true hs
  exact ⟨s, run, hlead, hcount, ((log_shape (by decide) (by decide) run).1 0).1⟩

/-- Node 1 leads, and deletes a key with a value that ends in an `AE` line for node 2. -/
def trioInject : List (Action 3) :=
  [.enter node1 still .startElection, .deliver 0 node2 still, .deliver 0 node1 still,
    .enter node1 still (.raftSubmitCommand .del (bytes "k")
      (bytes "x\nAE 5 9 0 0 0 1 1 6 SET a b")),
    .enter node1 still (.sendAppendToPeer 2), .deliver 0 node2 still 1]

/-- Node 2 has an entry of term 6 in term 5. -/
theorem log_misshaped : ¬∀ (n : ℕ) (now : Fin n → ℕ) (config : Fin n → RaftConfig),
    (∀ i, (config i).id < 2 ^ 32) →
    ∀ s, Reach Cluster.stepAgain Gossips (Cluster.start now config) s →
    ∀ i, ∀ d ∈ (s.node i).log, d.term ≤ (s.node i).currentTerm := by
  intro h
  have hrun : (runList Cluster.stepAgain (fun s d => decide (Gossips s d)) trio
      (trioInject.map .act)).any (fun s =>
        ∃ d ∈ (s.node 1).log, (s.node 1).currentTerm < d.term) = true := by
    decide +kernel
  obtain ⟨s, run, hs⟩ := exists_reach (fun s a => of_decide_eq_true) hrun
  obtain ⟨d, hd, hlt⟩ := of_decide_eq_true hs
  exact absurd (h 3 _ _ (by decide) s run 1 d hd) (not_le.mpr hlt)

end RaftKv
