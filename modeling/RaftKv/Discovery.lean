import RaftKv.Membership
import Mathlib.Algebra.BigOperators.Fin
import Mathlib.Algebra.Order.BigOperators.Group.Finset
import Mathlib.Algebra.Order.BigOperators.Group.List

/-! Discovery.  The first node starts without peers, and every other node with one that is running.
When all have started, and no membership line is on its way or being handled, every node lists all
the others, after finitely many lines. -/

namespace RaftKv

open Function Gossip Runs Stdio

attribute [local irreducible] toInt32

/-- A deployment in which every node but the first is given one peer. -/
structure Invitation (n : ℕ) extends Deployment n where
  first : Fin n
  parent : Fin n → Option (Fin n)
  parent_none : ∀ i, parent i = none ↔ i = first
  parent_eq : ∀ i, (config i).peers.map Peer.contact = (parent i).toList.map toDeployment.contact
  size : n ≤ raftMaxPeers + 1

/-- A cluster, the nodes that have started, and the number of `JOIN` and `PEER` lines sent. -/
structure Discovery (n : ℕ) where
  cluster : Cluster n
  started : Finset (Fin n)
  sent : ℕ

/-- `start`: `raft_node_start` of node `i` comes to `request_cluster_join`. -/
inductive Growth (n : ℕ)
  | start (i : Fin n)
  | act (a : Action n)

def Line.introduces : Line → Bool
  | .join .. | .peer .. => true
  | _ => false

def Line.isLeave : Line → Bool
  | .leave _ => true
  | _ => false

/-- The sections that send the lines `JOIN` and `PEER`. -/
def Section.introduces : Section → Bool
  | .requestClusterJoin | .announcePeerToKnownNodes .. | .sendPeerCatalog .. => true
  | _ => false

def Section.leaves : Section → Bool
  | .requestClusterLeave | .handleLeave _ | .announceLeaveToKnownNodes _ => true
  | _ => false

/-- The sections with which the ticker and a client submission start. -/
def Section.routine : Section → Bool
  | .tickerLoop _ | .raftSubmitCommand .. => true
  | _ => false

def Action.routine {n : ℕ} : Action n → Bool
  | .enter _ _ sec => sec.routine
  | _ => true

/-- The packets that an action sends. -/
def Cluster.emits {n : ℕ} (s : Cluster n) (a : Action n) : List Packet :=
  ((s.entered a).bind fun q => exec a.env q.2 (s.node q.1)).elim [] fun e => e.sends

/-- The number of `JOIN` and `PEER` lines. -/
def introductions (sends : List Packet) : ℕ := sends.countP fun p => p.line.introduces

namespace Discovery

variable {n : ℕ}

/-- A node starts when its peer has started. -/
def step (D : Invitation n) (s : Discovery n) : Growth n → Option (Discovery n)
  | .start i =>
    if i ∉ s.started ∧ ∀ p ∈ D.parent i, p ∈ s.started then
      some { s with
        started := insert i s.started
        cluster := { s.cluster with
          threads := (i, [.requestClusterJoin]) :: s.cluster.threads } }
    else none
  | .act a => (s.cluster.step a).map fun cluster =>
      { s with cluster, sent := s.sent + introductions (s.cluster.emits a) }

def init (D : Invitation n) (now : Fin n → ℕ) : Discovery n where
  cluster := Cluster.start now D.config
  started := ∅
  sent := 0

/-- Only nodes that have started act, nobody leaves, no value of a deletion has a newline in it, and
no membership line is lost. -/
def Fair (s : Discovery n) : Growth n → Prop
  | .start _ => True
  | .act a => a.routine = true ∧ a.Unbroken ∧ s.cluster.Delivers a ∧
      ∀ q ∈ s.cluster.entered a, q.1 ∈ s.started

instance (s : Discovery n) : (g : Growth n) → Decidable (s.Fair g)
  | .start _ => .isTrue trivial
  | .act _ => inferInstanceAs (Decidable (_ ∧ _ ∧ _ ∧ _))

end Discovery

/-- No `JOIN` or `PEER` line is on its way. -/
def Cluster.Silent {n : ℕ} (s : Cluster n) : Prop := ∀ p ∈ s.net, p.line.introduces = false

/-- No thread is in a handler of a `JOIN` or `PEER` line, or in `request_cluster_join`. -/
def Cluster.Settled {n : ℕ} (s : Cluster n) : Prop :=
  ∀ th ∈ s.threads, ∀ sec ∈ th.2, sec.introduces = false

/-- The table of every node has exactly all the other nodes. -/
def Invitation.Complete {n : ℕ} (D : Invitation n) (s : Cluster n) : Prop :=
  ∀ i, (s.node i).table.Perm (((List.finRange n).filter fun k => k ≠ i).map D.contact)

instance {n : ℕ} (s : Cluster n) : Decidable s.Silent :=
  inferInstanceAs (Decidable (∀ p ∈ s.net, _))

instance {n : ℕ} (s : Cluster n) : Decidable s.Settled :=
  inferInstanceAs (Decidable (∀ th ∈ s.threads, ∀ sec ∈ th.2, _))

instance {n : ℕ} (D : Invitation n) (s : Cluster n) : Decidable (D.Complete s) :=
  inferInstanceAs (Decidable (∀ _, List.Perm _ _))

/-! ### Nobody leaves -/

structure Staying {n : ℕ} (s : Cluster n) : Prop where
  threads : ∀ th ∈ s.threads, ∀ sec ∈ th.2, sec.leaves = false
  packets : ∀ p ∈ s.net, p.line.isLeave = false

section Staying

variable {n : ℕ} {s s' : Cluster n} {a : Action n} {x : RaftNode} {env : Env}
  {sec next : Section} {e : Effect} {line : Line}

theorem leaves_of_routine (h : sec.routine = true) : sec.leaves = false := by
  cases sec with
  | requestClusterLeave | handleLeave | announceLeaveToKnownNodes => cases h
  | _ => rfl

theorem leaves_of_follows (h : sec.follows next = true) (stays : sec.leaves = false) :
    next.leaves = false := by
  cases next with
  | requestClusterLeave | handleLeave | announceLeaveToKnownNodes =>
    cases sec <;> simp [Section.follows] at h <;> cases stays
  | _ => rfl

theorem isLeave_of_sends (h : sec.sends line = true) (stays : sec.leaves = false) :
    line.isLeave = false := by
  cases line with
  | leave id =>
    cases sec with
    | announceLeaveToKnownNodes | requestClusterLeave => cases stays
    | _ => cases h
  | _ => rfl

theorem leaves_of_handler (h : line.handler = some sec) (stays : line.isLeave = false) :
    sec.leaves = false := by
  have htag := Line.handler_tag h
  cases sec with
  | handleLeave id =>
    cases line with
    | leave => cases stays
    | _ => exact absurd htag (by simp only [Section.tag, Line.tag]; decide)
  | requestClusterLeave | announceLeaveToKnownNodes =>
    cases line <;> exact absurd htag (by simp only [Section.tag, Line.tag]; decide)
  | _ => rfl

theorem Staying.step (h : Staying s) (unbroken : ∀ p ∈ s.net, p.line.Unbroken)
    (routine : a.routine = true) (hstep : s.step a = some s') :
    Staying s' ∧ ∀ q ∈ s.entered a, q.2.leaves = false := by
  rcases Cluster.step_drops hstep with ⟨pre, p, post, split, rfl, hdrop⟩ |
    ⟨i, sec, rest, threads, net, e, hent, hsrc, he, rfl⟩
  · have hnet := h.packets
    rw [split] at hnet
    simp only [List.forall_mem_append, List.forall_mem_cons] at hnet
    refine ⟨⟨h.threads, List.forall_mem_append.mpr ⟨hnet.1, hnet.2.2⟩⟩, fun q hq => ?_⟩
    rw [Cluster.entered_of_drops hdrop] at hq
    cases hq
  · have horigin := hsrc.origin unbroken
    obtain ⟨stays, hrest, hthreads, hnet⟩ := horigin.carries
      (P := fun sec => sec.leaves = false) h.threads h.packets
      (fun env heq => leaves_of_routine (by rw [heq] at routine; exact routine))
      id fun p hp _ hhandle => leaves_of_handler hhandle hp
    refine ⟨⟨?_, ?_⟩, fun q hq => ?_⟩
    · simp only [List.forall_mem_cons, List.forall_mem_append]
      exact ⟨⟨fun next hn => leaves_of_follows (exec_follows he hn) stays, hrest⟩, hthreads⟩
    · simp only [List.forall_mem_append]
      exact ⟨fun p hp => isLeave_of_sends (exec_sends he hp) stays, hnet⟩
    · rw [hent] at hq
      obtain rfl := Option.some.inj hq
      exact stays

end Staying

/-! ### Finitely many lines -/

/-- The most `JOIN` and `PEER` lines that come of a line, when the table of its receiver stays as it
is. -/
def Line.weight : Line → ℕ
  | .join .. => raftMaxPeers + 1
  | _ => 0

/-- The most `JOIN` and `PEER` lines that come of a section, when no table changes. -/
def Section.weight : Section → ℕ
  | .requestClusterJoin => raftMaxPeers * (raftMaxPeers + 2)
  | .handleJoin .. | .sendPeerCatalog .. => raftMaxPeers + 1
  | .announcePeerToKnownNodes .. => raftMaxPeers
  | _ => 0

/-- The most `PEER` lines that a node can send about the peers it does not list yet. -/
def RaftNode.slots (x : RaftNode) : ℕ := raftMaxPeers * (raftMaxPeers - x.peerCount)

def weigh (net : List Packet) : ℕ := (net.map fun p => p.line.weight).sum

def Section.weigh (todo : List Section) : ℕ := (todo.map Section.weight).sum

section Weight

variable {x : RaftNode} {env : Env} {sec next : Section} {e : Effect} {line : Line}

theorem weigh_le {net : List Packet} {w : ℕ} (h : ∀ p ∈ net, p.line.weight ≤ w) :
    weigh net ≤ net.length * w := by
  have := List.sum_le_card_nsmul (net.map fun p => p.line.weight) w (by simpa using h)
  simpa [weigh] using this

theorem length_sendToAll (x : RaftNode) (except : List ℕ) (line : Line) :
    (sendToAll x except line).length ≤ x.peerCount := by
  rw [sendToAll, List.length_map]
  exact List.length_filter_le _ _

/-- Lines of one kind to peers of the table. -/
theorem spends_sendToAll {x : RaftNode} {except : List ℕ} {line : Line} :
    introductions (sendToAll x except line) + weigh (sendToAll x except line) ≤
      x.peerCount * (line.weight + 1) := by
  have hlength := length_sendToAll x except line
  have hcount : introductions (sendToAll x except line) ≤ x.peerCount :=
    List.countP_le_length.trans hlength
  have hweigh : weigh (sendToAll x except line) ≤ x.peerCount * line.weight :=
    (weigh_le fun p hp => (congrArg Line.weight (line_sendToAll hp)).le).trans
      (Nat.mul_le_mul_right _ hlength)
  rw [Nat.mul_add, Nat.mul_one]
  omega

theorem weigh_eq_zero {net : List Packet} (h : ∀ p ∈ net, p.line.introduces = false) :
    introductions net = 0 ∧ weigh net = 0 := by
  constructor
  · exact List.countP_eq_zero.mpr fun p hp => by simp [h p hp]
  · refine Nat.le_zero.mp ((weigh_le (w := 0) fun p hp => ?_).trans (Nat.mul_zero _).le)
    have := h p hp
    generalize p.line = line at this
    cases line <;> first | exact le_rfl | cases this

theorem slots_congr {y : RaftNode} (h : y.card = x.card) : y.slots = x.slots := by
  have htable : y.table = x.table := (Prod.mk.inj h).2
  rw [RaftNode.slots, RaftNode.slots, ← RaftNode.length_table, htable, RaftNode.length_table]

theorem introduces_of_sends (h : sec.sends line = true) (hsec : sec.introduces = false) :
    line.introduces = false := by
  cases line with
  | join =>
    cases sec with
    | requestClusterJoin => cases hsec
    | _ => cases h
  | peer =>
    cases sec with
    | announcePeerToKnownNodes | sendPeerCatalog => cases hsec
    | _ => cases h
  | _ => rfl

theorem weight_of_follows (h : sec.follows next = true) (hsec : sec.gossips = false) :
    next.weight = 0 := by
  cases next with
  | requestClusterJoin | handleJoin => cases sec <;> simp [Section.follows] at h
  | announcePeerToKnownNodes | sendPeerCatalog =>
    cases sec with
    | handleJoin | handlePeerAnnounce => cases hsec
    | _ => simp [Section.follows] at h
  | _ => rfl

/-- A section that is no part of the gossip sends no `JOIN` or `PEER` line, and leads to none. -/
theorem spends_idle (he : exec env sec x = some e) (hsec : sec.gossips = false) :
    introductions e.sends + weigh e.sends + Section.weigh e.todo + e.node.slots = x.slots := by
  have hkinds : sec.introduces = false ∧ sec.changesTable = false := by
    cases sec <;> first | exact ⟨rfl, rfl⟩ | contradiction
  obtain ⟨hcount, hweigh⟩ :=
    weigh_eq_zero fun p hp => introduces_of_sends (exec_sends he hp) hkinds.1
  have htodo : Section.weigh e.todo = 0 := by
    apply List.sum_eq_zero
    rw [List.forall_mem_map]
    exact fun next hn => weight_of_follows (exec_follows he hn) hsec
  rw [hcount, hweigh, htodo, slots_congr (exec_card he hkinds.2)]
  omega

/-- A peer that is added takes the place of the lines about it. -/
theorem slots_admission {id port : ℕ} {host : Text} {r : ℤ} {y : RaftNode}
    (ha : Admission x id host port r y) :
    (if 0 < r then raftMaxPeers else 0) + y.slots ≤ x.slots := by
  cases ha with
  | refused bad => exact (Nat.zero_add _).le
  | full new room => exact (Nat.zero_add _).le
  | known good old =>
    let assign (p : Peer) : Peer := { p with host := copyText 64 host, port }
    have hlength := congrArg List.length (@map_id_modifyPeer assign (fun _ => rfl) id x.peers)
    rw [List.length_map, List.length_map] at hlength
    rw [if_neg (by omega), Nat.zero_add]
    exact (congrArg (fun k => raftMaxPeers * (raftMaxPeers - k)) hlength).le
  | added good new room =>
    simp only [RaftNode.slots, RaftNode.peerCount, List.length_append, List.length_singleton,
      raftMaxPeers] at room ⊢
    rw [if_pos (by omega)]
    omega

/-- The lines that a section sends, and those that come of what it sends and leads to, are no more
than those that it stands for. -/
theorem spends (h : TableOk x) (he : exec env sec x = some e) (stays : sec.leaves = false) :
    introductions e.sends + weigh e.sends + Section.weigh e.todo + e.node.slots ≤
      sec.weight + x.slots := by
  have hroom : x.peerCount ≤ raftMaxPeers := x.length_table ▸ h.room
  have sent : ∀ {except line w}, line.weight = w →
      introductions (sendToAll x except line) + weigh (sendToAll x except line) ≤
        raftMaxPeers * (w + 1) := by
    rintro except line w rfl
    exact spends_sendToAll.trans (Nat.mul_le_mul_right _ hroom)
  cases sec with
  | handleJoin id host port =>
    obtain rfl := Option.some.inj he
    have hslots := slots_admission (admission x id host port)
    simp only [handleJoin]
    split at hslots
    · rename_i hadd
      rw [if_pos hadd]
      change 0 + 0 + (raftMaxPeers + (raftMaxPeers + 1 + 0)) + _ ≤ raftMaxPeers + 1 + x.slots
      omega
    · rename_i hadd
      rw [if_neg hadd]
      change 0 + 0 + (raftMaxPeers + 1 + 0) + _ ≤ raftMaxPeers + 1 + x.slots
      omega
  | handlePeerAnnounce id host port =>
    obtain rfl := Option.some.inj he
    have hslots := slots_admission (admission x id host port)
    simp only [handlePeerAnnounce]
    split at hslots
    · rename_i hadd
      rw [if_pos hadd]
      change 0 + 0 + (raftMaxPeers + (0 + 0)) + _ ≤ 0 + x.slots
      omega
    · rename_i hadd
      rw [if_neg hadd]
      change 0 + 0 + 0 + _ ≤ 0 + x.slots
      omega
  | announcePeerToKnownNodes id host port exceptId =>
    obtain rfl := Option.some.inj he
    have hsent := @sent [exceptId, id] (.peer id host port) 0 rfl
    change _ + 0 + x.slots ≤ raftMaxPeers + x.slots
    simp only [announcePeerToKnownNodes]
    omega
  | sendPeerCatalog host port =>
    obtain rfl := Option.some.inj he
    have hlength : (sendPeerCatalog x host port).sends.length = x.peerCount + 1 := by
      simp only [sendPeerCatalog, List.length_cons, List.length_map]
      rfl
    have hcount : introductions (sendPeerCatalog x host port).sends ≤ x.peerCount + 1 :=
      List.countP_le_length.trans hlength.le
    have hweigh : weigh (sendPeerCatalog x host port).sends ≤ (x.peerCount + 1) * 0 := by
      rw [← hlength]
      refine weigh_le fun p hp => ?_
      rcases List.mem_cons.mp hp with rfl | hp
      · exact le_rfl
      · obtain ⟨peer, -, rfl⟩ := List.mem_map.mp hp
        exact le_rfl
    change _ + _ + 0 + x.slots ≤ raftMaxPeers + 1 + x.slots
    omega
  | requestClusterJoin =>
    obtain rfl := Option.some.inj he
    have hsent : _ ≤ raftMaxPeers * (raftMaxPeers + 2) :=
      @sent [] (.join x.id x.host x.port) (raftMaxPeers + 1) rfl
    change _ + 0 + x.slots ≤ raftMaxPeers * (raftMaxPeers + 2) + x.slots
    simp only [requestClusterJoin]
    omega
  | handleLeave | announceLeaveToKnownNodes | requestClusterLeave => cases stays
  | _ => exact (spends_idle he rfl).trans_le (Nat.le_add_left _ _)

end Weight

/-- The lines sent, and the most that can come of the packets, the threads, the tables, and the
nodes that have not started. -/
def Discovery.budget {n : ℕ} (s : Discovery n) : ℕ :=
  s.sent + weigh s.cluster.net + (s.cluster.threads.map fun th => Section.weigh th.2).sum +
    ∑ i, (s.cluster.node i).slots +
    (n - s.started.card) * Section.weight .requestClusterJoin

section Budget

variable {n : ℕ} {s s' : Discovery n} {c c' : Cluster n} {a : Action n} {sec : Section} {i : Fin n}
  {rest : List Section} {threads : List (Fin n × List Section)} {net : List Packet}

theorem sum_slots_update (node : Fin n → RaftNode) (i : Fin n) (y : RaftNode) :
    ∑ j, (update node i y j).slots + (node i).slots = ∑ j, (node j).slots + y.slots := by
  have hcomp : (fun j => (update node i y j).slots) =
      update (fun j => (node j).slots) i y.slots := by
    funext j
    exact apply_update (fun _ => RaftNode.slots) node i y j
  have herase := Finset.sum_erase_add Finset.univ (fun j => (node j).slots) (Finset.mem_univ i)
  rw [hcomp, Finset.sum_update_of_mem (Finset.mem_univ i), Finset.sdiff_singleton_eq_erase]
  omega

theorem weight_of_handler {line : Line} (h : line.handler = some sec) :
    sec.weight ≤ line.weight := by
  have htag := Line.handler_tag h
  cases sec with
  | handleJoin =>
    cases line with
    | join => exact le_rfl
    | _ => exact absurd htag (by simp only [Section.tag, Line.tag]; decide)
  | requestClusterJoin | announcePeerToKnownNodes | sendPeerCatalog =>
    cases line <;> exact absurd htag (by simp only [Section.tag, Line.tag]; decide)
  | _ => exact Nat.zero_le _

/-- The section that runs is paid for by what its source takes away. -/
theorem weight_source (src : Cluster.Origin c i sec a rest threads net)
    (routine : a.routine = true) :
    weigh net + (Section.weigh rest + (threads.map fun th => Section.weigh th.2).sum) +
      sec.weight ≤ weigh c.net + (c.threads.map fun th => Section.weigh th.2).sum := by
  cases src with
  | enter env =>
    have hzero : sec.weight = 0 := by
      cases sec with
      | requestClusterJoin | handleJoin | announcePeerToKnownNodes | sendPeerCatalog =>
        cases routine
      | _ => rfl
    have hrest : Section.weigh [] = 0 := rfl
    omega
  | resume k env rest pre post split =>
    have hsplit : (c.threads.map fun th => Section.weigh th.2).sum =
        ((pre ++ post).map fun th => Section.weigh th.2).sum + Section.weigh (sec :: rest) := by
      rw [split]
      simp only [List.map_append, List.map_cons, List.sum_append, List.sum_cons]
      omega
    have hcons : Section.weigh (sec :: rest) = sec.weight + Section.weigh rest := List.sum_cons
    omega
  | deliver k env m p pre post split address parsed =>
    have hsplit : weigh c.net = weigh (pre ++ post) + p.line.weight := by
      rw [split]
      simp only [weigh, List.map_append, List.map_cons, List.sum_append, List.sum_cons]
      omega
    have hpaid := weight_of_handler parsed
    have hrest : Section.weigh [] = 0 := rfl
    omega

theorem emits_eq {e : Effect} (hent : c.entered a = some (i, sec))
    (he : exec a.env sec (c.node i) = some e) : c.emits a = e.sends := by
  rw [Cluster.emits, hent, Option.bind_some, he]
  rfl

theorem emits_of_none (hent : c.entered a = none) : c.emits a = [] := by
  rw [Cluster.emits, hent]
  rfl

/-- No action makes more lines than the budget has. -/
theorem budget_act (tables : ∀ i, TableOk (c.node i)) (unbroken : ∀ p ∈ c.net, p.line.Unbroken)
    (routine : a.routine = true) (stays : ∀ q ∈ c.entered a, q.2.leaves = false)
    (hstep : c.step a = some c') {sent : ℕ} {started : Finset (Fin n)} :
    Discovery.budget ⟨c', started, sent + introductions (c.emits a)⟩ ≤
      Discovery.budget ⟨c, started, sent⟩ := by
  unfold Discovery.budget
  rcases Cluster.step_drops hstep with ⟨pre, p, post, split, rfl, hdrop⟩ |
    ⟨i, sec, rest, threads, net, e, hent, hsrc, he, rfl⟩
  · rw [emits_of_none (Cluster.entered_of_drops hdrop)]
    have hnet : weigh (pre ++ post) ≤ weigh c.net := by
      rw [split]
      simp only [weigh, List.map_append, List.map_cons, List.sum_append, List.sum_cons]
      omega
    have hnone : introductions [] = 0 := rfl
    simp only [hnone]
    omega
  · rw [emits_eq hent he]
    have hspends := spends (tables i) he (stays (i, sec) hent)
    have hsource := weight_source (hsrc.origin unbroken) routine
    have hslots := sum_slots_update c.node i e.node
    have hnet : weigh (e.sends ++ net) = weigh e.sends + weigh net := by
      simp only [weigh, List.map_append, List.sum_append]
    have htodo : Section.weigh (e.todo ++ rest) = Section.weigh e.todo + Section.weigh rest := by
      simp only [Section.weigh, List.map_append, List.sum_append]
    simp only [List.map_cons, List.sum_cons, hnet, htodo]
    omega

end Budget

/-! ### Runs -/

section Runs

variable {n : ℕ} {D : Invitation n} {now : Fin n → ℕ} {s s' : Discovery n} {g : Growth n}

/-- The invariant of discovery. -/
structure Discovery.Inv (D : Invitation n) (s : Discovery n) : Prop where
  addressed : D.Addressed s.cluster
  woven : Woven D.parent {i | i ∉ s.started} (D.circle s.cluster)
  rooted : ∀ i ∈ s.started, Rooted D.parent D.first i
  staying : Staying s.cluster
  budget : s.budget ≤ n * (2 * raftMaxPeers * (raftMaxPeers + 1))

theorem table_init (D : Invitation n) (now : ℕ) (i : Fin n) :
    (raftNodeInit now (D.config i)).table = (D.parent i).toList.map D.contact := D.parent_eq i

theorem inv_init (D : Invitation n) (now : Fin n → ℕ) : (Discovery.init D now).Inv D := by
  have addressed := Deployment.addressed_start D.toDeployment now
  have hknows : ∀ i k, k ∈ (D.circle (Cluster.start now D.config)).knows i ↔
      D.parent i = some k := by
    intro i k
    change D.contact k ∈ (raftNodeInit (now i) (D.config i)).table ↔ _
    rw [table_init]
    cases D.parent i with
    | none => simp
    | some p =>
      simp only [Option.toList_some, List.map_cons, List.map_nil, List.mem_singleton,
        Option.some.injEq]
      exact ⟨fun heq => (Deployment.contact_inj heq).symm, fun heq => heq ▸ rfl⟩
  refine ⟨addressed, ⟨?_, ?_, ?_, ?_, ?_⟩, ?_, ⟨?_, ?_⟩, ?_⟩
  · exact fun i => (addressed.node i).not_self
  · exact fun m p hp => (hknows m p).mpr hp
  · exact fun m p _ => Or.inr (Or.inl (Finset.notMem_empty m))
  · intro m p hp k hk hne
    exact absurd (Option.some.inj (((hknows m k).mp hk).symm.trans hp)) hne
  · exact fun m p _ k _ _ => Or.inr (Or.inr (Or.inr (Or.inr (Or.inl (Finset.notMem_empty m)))))
  · exact fun i hi => absurd hi (Finset.notMem_empty i)
  · exact fun th hth => absurd hth List.not_mem_nil
  · exact fun p hp => absurd hp List.not_mem_nil
  · have hslots : ∑ i, ((Cluster.start now D.config).node i).slots ≤
        n * (raftMaxPeers * raftMaxPeers) := by
      have := Finset.sum_le_card_nsmul Finset.univ
        (fun i => ((Cluster.start now D.config).node i).slots) (raftMaxPeers * raftMaxPeers)
        fun i _ => Nat.mul_le_mul_left _ (Nat.sub_le _ _)
      rwa [Finset.card_univ, Fintype.card_fin, smul_eq_mul] at this
    change 0 + 0 + 0 + ∑ i, ((Cluster.start now D.config).node i).slots +
      (n - 0) * (raftMaxPeers * (raftMaxPeers + 2)) ≤ _
    simp only [raftMaxPeers] at hslots ⊢
    omega

/-- Every table has room for a node that it does not list. -/
theorem roomy {c : Cluster n} (h : D.Addressed c) : (D.circle c).Roomy := by
  intro i k hfull hne
  by_contra hk
  have placed := h.node i
  have hsub : (c.node i).table.toFinset ⊆
      ((Finset.univ.erase i).erase k).image D.contact := by
    intro t ht
    obtain ⟨j, rfl⟩ := placed.known t (List.mem_toFinset.mp ht)
    refine Finset.mem_image_of_mem _ (Finset.mem_erase.mpr ⟨?_, Finset.mem_erase.mpr ⟨?_,
      Finset.mem_univ j⟩⟩)
    · rintro rfl
      exact hk (List.mem_toFinset.mp ht)
    · rintro rfl
      exact placed.not_self (List.mem_toFinset.mp ht)
  have hcard := (Finset.card_le_card hsub).trans Finset.card_image_le
  rw [List.toFinset_card_of_nodup (List.Nodup.of_map _ placed.ok.nodup), RaftNode.length_table,
    Finset.card_erase_of_mem (Finset.mem_erase.mpr ⟨hne, Finset.mem_univ k⟩),
    Finset.card_erase_of_mem (Finset.mem_univ i), Finset.card_univ, Fintype.card_fin] at hcard
  have hsize := D.size
  have hfull' : raftMaxPeers ≤ (c.node i).peerCount := hfull
  have hmax : 0 < raftMaxPeers := by decide
  omega

theorem introduces_of_stays {t : Errand (Fin n)} (h : (D.handle t).leaves = false) :
    t.introduces := by
  cases t <;> trivial

theorem Discovery.Inv.start (h : s.Inv D) {i : Fin n} (new : i ∉ s.started)
    (parent : ∀ p ∈ D.parent i, p ∈ s.started) :
    Discovery.Inv D { s with
      started := insert i s.started
      cluster := { s.cluster with
        threads := (i, [.requestClusterJoin]) :: s.cluster.threads } } := by
  have unbroken := h.addressed.unbroken
  refine ⟨⟨h.addressed.node, ?_, h.addressed.packets, ⟨unbroken.nodes, ?_, unbroken.net⟩⟩, ?_, ?_,
    ⟨?_, h.staying.packets⟩, ?_⟩
  · refine List.forall_mem_cons.mpr ⟨fun sec hsec => ?_, h.addressed.threads⟩
    rw [List.mem_singleton.mp hsec]
    trivial
  · refine List.forall_mem_cons.mpr ⟨fun sec hsec => ?_, unbroken.threads⟩
    rw [List.mem_singleton.mp hsec]
    trivial
  · refine h.woven.idle ⟨fun j u hp => Deployment.pending_thread hp _, fun j => rfl⟩ fun m hm => ?_
    by_cases hmi : m = i
    · exact Or.inr ⟨_, List.mem_cons_self, hmi.symm, List.mem_cons_self⟩
    · exact Or.inl fun hmem => (Finset.mem_insert.mp hmem).elim hmi hm
  · intro j hj
    rcases Finset.mem_insert.mp hj with rfl | hj
    · cases hp : D.parent j with
      | none =>
        rw [(D.parent_none j).mp hp]
        exact .root
      | some p => exact .child hp (h.rooted p (parent p hp))
    · exact h.rooted j hj
  · refine List.forall_mem_cons.mpr ⟨fun sec hsec => ?_, h.staying.threads⟩
    rw [List.mem_singleton.mp hsec]
    rfl
  · refine le_trans ?_ h.budget
    have hcard : s.started.card < n := by
      have := Finset.card_lt_univ_of_notMem new
      rwa [Fintype.card_fin] at this
    simp only [Discovery.budget, Finset.card_insert_of_notMem new, List.map_cons, List.sum_cons,
      Section.weigh, List.map_nil, List.sum_nil]
    rw [show n - s.started.card = n - (s.started.card + 1) + 1 by omega, Nat.add_mul]
    omega

theorem Discovery.Inv.step (h : s.Inv D) (fair : s.Fair g) (hstep : s.step D g = some s') :
    s'.Inv D := by
  cases g with
  | start i =>
    simp only [Discovery.step] at hstep
    split at hstep
    · rename_i hnew
      obtain rfl := Option.some.inj hstep
      exact h.start hnew.1 hnew.2
    · cases hstep
  | act a =>
    obtain ⟨c, hc, rfl⟩ := Option.map_eq_some_iff.mp hstep
    obtain ⟨routine, ok, delivers, -⟩ := fair
    have unbroken := h.addressed.unbroken.net
    have outer : a.outer = true := by
      cases a with
      | enter i env sec => cases sec <;> first | rfl | cases routine
      | resume | deliver | lose => rfl
    obtain ⟨addressed, right⟩ := h.addressed.step outer ok hc
    obtain ⟨staying, stays⟩ := h.staying.step unbroken routine hc
    refine ⟨addressed, ?_, h.rooted, staying, ?_⟩
    · rcases Deployment.circle_step h.addressed right delivers hc with
        ⟨idle, -⟩ | ⟨i, t, hent, does⟩
      · exact h.woven.idle idle fun m hm => Or.inl hm
      · exact h.woven.does does (introduces_of_stays (stays _ hent)) (roomy h.addressed)
    · exact (budget_act (fun i => (h.addressed.node i).ok) unbroken routine stays hc).trans h.budget

theorem quiet_circle {c : Cluster n} (silent : c.Silent) (settled : c.Settled) (i : Fin n)
    (t : Errand (Fin n)) (ht : t.introduces) : ¬(D.circle c).pending i t := by
  intro hp
  change D.Pending c.threads c.net i t at hp
  unfold Deployment.Pending at hp
  cases t with
  | hearJoin m | hearPeer k =>
    exact absurd (silent _ hp) (by simp [Deployment.packet, Line.introduces])
  | join | announce k | catalog m =>
    obtain ⟨th, hth, -, hmem⟩ := hp
    exact absurd (settled th hth _ hmem) (by simp [Deployment.handle, Section.introduces])
  | leave | hearLeave k | announceLeave k => cases ht

/-- Every run sends finitely many `JOIN` and `PEER` lines.  When all nodes have started, no such
line is on its way, and no handler of one is running, every node lists exactly the other nodes. -/
theorem discovery_completes (D : Invitation n) {now : Fin n → ℕ} {s : Discovery n}
    (run : Reach (Discovery.step D) Discovery.Fair (Discovery.init D now) s) :
    s.sent ≤ n * 544 ∧ ((∀ i, i ∈ s.started) → s.cluster.Silent → s.cluster.Settled →
      D.Complete s.cluster) := by
  have h : s.Inv D := by
    refine run.invariant (inv_init D now) ?_
    intro s g s' _ h fair hstep
    exact h.step fair hstep
  constructor
  · have hsent : s.sent ≤ s.budget := by
      unfold Discovery.budget
      omega
    exact hsent.trans h.budget
  · intro all silent settled i
    have woven := h.woven
    have hnone : {i | i ∉ s.started} = (∅ : Set (Fin n)) :=
      Set.eq_empty_of_forall_notMem fun i hi => hi (all i)
    rw [hnone] at woven
    have hknows := fun k => @Woven.complete _ _ i k _ woven (quiet_circle silent settled) D.first
      fun i => h.rooted i (all i)
    have placed := h.addressed.node i
    have hnodup := ((List.nodup_finRange n).filter fun k => k ≠ i).map
      (f := D.contact) fun _ _ => Deployment.contact_inj
    refine (List.perm_ext_iff_of_nodup (List.Nodup.of_map _ placed.ok.nodup) hnodup).mpr fun c => ?_
    simp only [List.mem_map, List.mem_filter, List.mem_finRange, true_and, decide_eq_true_eq]
    constructor
    · intro hc
      obtain ⟨k, rfl⟩ := placed.known c hc
      exact ⟨k, (hknows k).mp hc, rfl⟩
    · rintro ⟨k, hk, rfl⟩
      exact (hknows k).mpr hk

end Runs

/-- Nodes 2 and 3 are given node 1. -/
def trioInvitation : Invitation 3 where
  config i := { trioConfig i with peers := if i = node1 then [] else [trioPeer 1] }
  id_pos := by decide
  id_lt := by decide
  id_inj := by decide
  token _ := isToken_of_isValidToken (show isValidToken (bytes "127.0.0.1") 64 = true by decide)
  port_pos := by decide
  port_lt := by decide
  address_inj := by decide
  peers := by decide
  nodup := by decide
  room := by decide
  first := node1
  parent i := if i = node1 then none else some node1
  parent_none := by decide
  parent_eq := by decide
  size := by decide

/-- Nodes 1 and 2 meet, node 3 starts, and node 1 adds it. -/
def trioJoin : List (Growth 3) :=
  [.start node1, .act (.resume 0 still), .start node2, .act (.resume 0 still),
    .act (.deliver 0 node1 still), .act (.resume 0 still), .act (.resume 0 still),
    .act (.deliver 0 node2 still), .act (.deliver 0 node2 still), .start node3,
    .act (.resume 0 still), .act (.deliver 0 node1 still)]

/-- Node 1 announces node 3 to node 2 and sends its catalog to node 3, and the two announce each
other. -/
def trioMeet : List (Growth 3) :=
  [.act (.resume 0 still), .act (.resume 0 still), .act (.deliver 0 node3 still),
    .act (.deliver 0 node3 still), .act (.resume 0 still), .act (.deliver 0 node1 still),
    .act (.deliver 0 node3 still), .act (.deliver 0 node2 still), .act (.resume 0 still),
    .act (.deliver 0 node1 still)]

theorem discovery_trio : ∃ s : Discovery 3, s.sent = 10 ∧ s.sent ≤ 3 * 544 ∧
    trioInvitation.Complete s.cluster := by
  have hrun : (runList (Discovery.step trioInvitation) (fun s g => decide (s.Fair g))
      (Discovery.init trioInvitation fun _ => 0) (trioJoin ++ trioMeet)).any
      (fun s => s.sent = 10 ∧ (∀ i, i ∈ s.started) ∧ s.cluster.Silent ∧ s.cluster.Settled) =
        true := by
    decide +kernel
  obtain ⟨s, run, hs⟩ := exists_reach (fun s g => of_decide_eq_true) hrun
  obtain ⟨hsent, all, silent, settled⟩ := of_decide_eq_true hs
  obtain ⟨bound, complete⟩ := discovery_completes trioInvitation run
  exact ⟨s, hsent, bound, complete all silent settled⟩

/-- All three nodes have started, no line is on its way, and node 1 has still to announce node 3 to
node 2. -/
theorem discovery_midway : ¬∀ (n : ℕ) (D : Invitation n) (now : Fin n → ℕ) (s : Discovery n),
    Reach (Discovery.step D) Discovery.Fair (Discovery.init D now) s →
    (∀ i, i ∈ s.started) → s.cluster.Silent → D.Complete s.cluster := by
  intro h
  have hrun : (runList (Discovery.step trioInvitation) (fun s g => decide (s.Fair g))
      (Discovery.init trioInvitation fun _ => 0) trioJoin).any
      (fun s => (∀ i, i ∈ s.started) ∧ s.cluster.Silent ∧ ¬trioInvitation.Complete s.cluster) =
        true := by
    decide +kernel
  obtain ⟨s, run, hs⟩ := exists_reach (fun s g => of_decide_eq_true) hrun
  obtain ⟨all, silent, hnot⟩ := of_decide_eq_true hs
  exact hnot (h 3 trioInvitation _ s run all silent)

end RaftKv
