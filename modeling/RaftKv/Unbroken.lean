import RaftKv.Cluster
import RaftKv.LogTurn

/-! Clusters in which all that is sent is one line: no newline stands in a configured host or in the
value of a deletion, and so none in a log, in a peer table or in a text on its way. -/

namespace RaftKv

open Function Stdio

instance (e : RaftLogEntry) : Decidable e.Unbroken := inferInstanceAs (Decidable (_ ∧ _))

instance (sec : Section) : Decidable sec.Unbroken := by
  unfold Section.Unbroken
  split <;> infer_instance

/-- A thread starts without a newline in the texts of its section. -/
def Action.Unbroken {n : ℕ} : Action n → Prop
  | .enter _ _ sec => sec.Unbroken
  | _ => True

instance {n : ℕ} (a : Action n) : Decidable a.Unbroken := by
  unfold Action.Unbroken
  split <;> infer_instance

/-- No newline stands in the hosts of a configuration. -/
def RaftConfig.Unbroken (config : RaftConfig) : Prop :=
  10 ∉ config.host ∧ ∀ p ∈ config.peers, 10 ∉ p.host

instance (config : RaftConfig) : Decidable config.Unbroken := inferInstanceAs (Decidable (_ ∧ _))

/-- No newline stands in the texts that a node has stored. -/
structure RaftNode.Unbroken (x : RaftNode) : Prop where
  host : 10 ∉ x.host
  peers : ∀ c ∈ x.table, 10 ∉ c.2.1
  log : ∀ d ∈ x.log, d.Unbroken

structure Unbroken {n : ℕ} (s : Cluster n) : Prop where
  nodes : ∀ i, (s.node i).Unbroken
  threads : ∀ th ∈ s.threads, ∀ sec ∈ th.2, sec.Unbroken
  net : ∀ p ∈ s.net, p.line.Unbroken

theorem newline_copyText {size : ℕ} {t : Text} (h : 10 ∉ t) : 10 ∉ copyText size t :=
  fun hc => h (List.mem_of_mem_take hc)

/-! ### One section -/

section Exec

variable {x : RaftNode} {env : Env} {sec : Section} {e : Effect}

theorem Section.Unbroken.submitted (hsec : sec.Unbroken) {op : KvOp} {key value : Text}
    (submits : sec = .raftSubmitCommand op key value ∨
      ∃ source, sec = .handleClientForward source op key value) (checked : Checked op key value) :
    10 ∉ key ∧ 10 ∉ value := by
  rcases submits with rfl | ⟨source, rfl⟩
  · exact newline_of_checked checked hsec
  · exact hsec

/-- What a node logs and lists after a section has no newline in it. -/
theorem RaftNode.Unbroken.run (h : x.Unbroken) (hsec : sec.Unbroken)
    (he : exec env sec x = some e) : e.node.Unbroken := by
  refine ⟨?_, fun c hc => ?_, ?_⟩
  · obtain ⟨-, hrest⟩ := Prod.mk.inj (exec_self he)
    rw [(Prod.mk.inj hrest).1]
    exact h.host
  · rcases exec_mem_table he hc with hc | ⟨id, host, port, rfl | rfl, rfl, -⟩
    · exact h.peers c hc
    · exact newline_copyText hsec
    · exact newline_copyText hsec
  · obtain ⟨turn, -⟩ := exec_log he
    generalize e.node.log = log at turn
    cases turn with
    | keep => exact h.log
    | append submits lead room checked =>
      intro d hd
      rcases List.mem_append.mp hd with hd | hd
      · exact h.log d hd
      · rw [List.mem_singleton.mp hd]
        obtain ⟨hkey, hvalue⟩ := hsec.submitted submits checked
        exact ⟨newline_copyText hkey, newline_copyText hvalue⟩
    | store term prev entry stored =>
      intro c hc
      rcases mem_storeEntry stored hc with hc | rfl
      · exact h.log c hc
      · exact hsec

/-- The sections that a thread goes on with have their texts from the section before. -/
theorem Section.Unbroken.follows {next : Section} (hsec : sec.Unbroken)
    (follows : sec.follows next = true) : next.Unbroken := by
  cases sec with
  | handleJoin id host port =>
    rcases of_decide_eq_true follows with rfl | rfl
    · exact hsec
    · exact hsec
  | handlePeerAnnounce id host port =>
    rcases of_decide_eq_true follows with rfl | rfl
    · exact hsec
    · trivial
  | raftSubmitCommand op key value | handleClientForward source op key value =>
    rcases of_decide_eq_true follows with rfl | rfl
    · trivial
    · trivial
  | handleLeave id =>
    obtain rfl := of_decide_eq_true follows
    trivial
  | tickerLoop last =>
    rcases of_decide_eq_true follows with rfl | rfl | rfl | rfl
    all_goals trivial
  | _ =>
    cases next with
    | handleAppendEntries | raftSubmitCommand | handleClientForward | handleJoin
    | sendPeerCatalog | handlePeerAnnounce | announcePeerToKnownNodes => cases follows
    | _ => trivial

/-- A section sends texts that its node has stored, or its own. -/
theorem RaftNode.Unbroken.sends (h : x.Unbroken) (hsec : sec.Unbroken)
    (he : exec env sec x = some e) : ∀ p ∈ e.sends, p.line.Unbroken := by
  intro p hp
  have hkind := exec_sends he hp
  cases sec with
  | sendAppendToPeer id =>
    obtain ⟨_, _, entry, hline, hentry⟩ := sendAppendToPeer_sends he hp
    rw [hline]
    cases entry with
    | none => trivial
    | some d => exact h.log d (hentry d rfl)
  | raftSubmitCommand op key value =>
    obtain rfl := Option.some.inj he
    obtain ⟨hline, checked⟩ := raftSubmitCommand_sends hp
    rw [hline]
    exact newline_of_checked checked hsec
  | handleClientForward source op key value =>
    obtain rfl := Option.some.inj he
    obtain ⟨hline, -⟩ := raftSubmitCommand_sends hp
    rw [hline]
    exact hsec
  | sendPeerCatalog host port =>
    obtain rfl := Option.some.inj he
    rcases List.mem_cons.mp hp with rfl | hp
    · exact h.host
    · obtain ⟨peer, hpeer, rfl⟩ := List.mem_map.mp hp
      exact h.peers _ (List.mem_map_of_mem hpeer)
  | announcePeerToKnownNodes id host port except =>
    obtain rfl := Option.some.inj he
    rw [line_sendToAll hp]
    exact hsec
  | requestClusterJoin =>
    obtain rfl := Option.some.inj he
    rw [line_sendToAll hp]
    exact h.host
  | _ =>
    cases hline : p.line with
    | ae | join | peer | cl =>
      rw [hline] at hkind
      cases hkind
    | _ => trivial

end Exec

/-! ### Runs -/

section Cluster

variable {n : ℕ} {s s' : Cluster n} {i : Fin n} {env : Env} {sec : Section} {rest : List Section}
  {threads : List (Fin n × List Section)} {net : List Packet} {a : Action n}

theorem unbroken_start {now : Fin n → ℕ} {config : Fin n → RaftConfig}
    (h : ∀ i, (config i).Unbroken) : Unbroken (Cluster.start now config) where
  nodes i := ⟨newline_copyText (h i).1, fun c hc => by
    obtain ⟨p, hp, rfl⟩ := List.mem_map.mp hc
    exact (h i).2 p hp, fun d hd => by cases hd⟩
  threads th hth := by cases hth
  net p hp := by cases hp

/-- A section is run without a newline in its texts. -/
theorem Unbroken.source (h : Unbroken s) (ok : a.Unbroken)
    (src : Cluster.Origin s i sec a rest threads net) :
    sec.Unbroken ∧ (∀ next ∈ rest, next.Unbroken) ∧
      (∀ th ∈ threads, ∀ next ∈ th.2, next.Unbroken) ∧ ∀ p ∈ net, p.line.Unbroken := by
  refine src.carries h.threads h.net ?_ id fun p _ _ => unbroken_of_handler
  rintro env rfl
  exact ok

theorem Unbroken.step (h : Unbroken s) (ok : a.Unbroken) (hstep : s.step a = some s') :
    Unbroken s' := by
  rcases Cluster.step_cases hstep with ⟨pre, p, post, hnet, rfl⟩ |
    ⟨i, env, sec, rest, threads, net, e, -, src, he, rfl⟩
  · refine ⟨h.nodes, h.threads, fun q hq => h.net q ?_⟩
    rw [hnet]
    exact List.mem_append.mpr ((List.mem_append.mp hq).imp_right (List.mem_cons_of_mem p))
  · obtain ⟨hsec, hrest, hthreads, hpackets⟩ := h.source ok (src.origin h.net)
    refine ⟨fun j => ?_, ?_, ?_⟩
    · by_cases hj : j = i
      · subst hj
        simp only [update_self]
        exact (h.nodes j).run hsec he
      · simp only [update_of_ne hj]
        exact h.nodes j
    · intro th hth next hn
      rcases List.mem_cons.mp hth with rfl | hth
      · rcases List.mem_append.mp hn with hn | hn
        · exact hsec.follows (exec_follows he hn)
        · exact hrest next hn
      · exact hthreads th hth next hn
    · exact List.forall_mem_append.mpr ⟨(h.nodes i).sends hsec he, hpackets⟩

end Cluster

end RaftKv
