import RaftKv.Lines
import RaftKv.Table
import RaftKv.Unbroken

/-! Who tells whom of which node.  In a cluster whose nodes start with the right addresses of each
other, every table, every line and every section names nodes by their addresses. -/

namespace RaftKv

open Function Runs Stdio

attribute [local irreducible] toInt32

/-- The configurations of the nodes of a cluster: distinct ids and addresses that can be printed and
read, and peers that are other nodes, none given twice. -/
structure Deployment (n : ℕ) where
  config : Fin n → RaftConfig
  id_pos : ∀ i, 0 < (config i).id
  id_lt : ∀ i, (config i).id < 2 ^ 32
  id_inj : ∀ i j, (config i).id = (config j).id → i = j
  token : ∀ i, IsToken 63 (config i).host
  port_pos : ∀ i, 0 < (config i).port
  port_lt : ∀ i, (config i).port < 2 ^ 16
  address_inj : ∀ i j, (config i).host = (config j).host → (config i).port = (config j).port → i = j
  peers : ∀ i, ∀ p ∈ (config i).peers,
    ∃ j, j ≠ i ∧ p.contact = ((config j).id, (config j).host, (config j).port)
  nodup : ∀ i, ((config i).peers.map fun p => p.id).Nodup
  room : ∀ i, (config i).peers.length ≤ raftMaxPeers

namespace Deployment

variable {n : ℕ} (D : Deployment n)

def contact (i : Fin n) : ℕ × Text × ℕ := ((D.config i).id, (D.config i).host, (D.config i).port)

/-- A contact is that of a node. -/
def Known (c : ℕ × Text × ℕ) : Prop := ∃ k, c = D.contact k

/-- A section names nodes by their addresses. -/
def Right : Section → Prop
  | .handleJoin id host port | .handlePeerAnnounce id host port => D.Known (id, host, port)
  | .announcePeerToKnownNodes id host port exceptId => D.Known (id, host, port) ∧ exceptId = id
  | .sendPeerCatalog host port => ∃ k, host = (D.config k).host ∧ port = (D.config k).port
  | .handleLeave id | .announceLeaveToKnownNodes id => ∃ k, id = (D.config k).id
  | _ => True

/-- A line names nodes by their addresses. -/
def RightLine : Line → Prop
  | .join id host port | .peer id host port => D.Known (id, host, port)
  | .leave id => ∃ k, id = (D.config k).id
  | _ => True

/-- The node at place `i`. -/
structure Placed (i : Fin n) (x : RaftNode) : Prop where
  self : (x.id, x.host, x.port) = D.contact i
  known : ∀ c ∈ x.table, D.Known c
  ok : TableOk x

structure Addressed (s : Cluster n) : Prop where
  node : ∀ i, D.Placed i (s.node i)
  threads : ∀ th ∈ s.threads, ∀ sec ∈ th.2, D.Right sec
  packets : ∀ p ∈ s.net, D.RightLine p.line
  unbroken : Unbroken s

variable {D} {i j k : Fin n} {x y : RaftNode} {r : ℤ} {env : Env} {sec : Section} {e : Effect}
  {line : Line}

theorem contact_inj (h : D.contact j = D.contact k) : j = k := D.id_inj j k (Prod.mk.inj h).1

theorem eq_contact {c : ℕ × Text × ℕ} (hc : D.Known c) (hid : c.1 = (D.config k).id) :
    c = D.contact k := by
  obtain ⟨j, rfl⟩ := hc
  rw [D.id_inj j k hid]

theorem copyText_host (k : Fin n) : copyText 64 (D.config k).host = (D.config k).host :=
  copyText_of_isToken (D.token k)

theorem Placed.id_eq (h : D.Placed i x) : x.id = (D.config i).id := (Prod.mk.inj h.self).1

theorem Placed.not_self (h : D.Placed i x) : D.contact i ∉ x.table := fun hi =>
  (h.ok.id_ne _ hi).2 h.id_eq.symm

theorem Placed.find_iff (h : D.Placed i x) :
    (findPeer x (D.config k).id).isSome ↔ D.contact k ∈ x.table := by
  rw [findPeer_isSome]
  constructor
  · rintro ⟨c, hc, hid⟩
    exact eq_contact (h.known c hc) hid ▸ hc
  · intro hk
    exact ⟨_, hk, rfl⟩

/-- The address is accepted. -/
theorem Placed.accepts (h : D.Placed i x) (hne : k ≠ i) :
    ¬((D.config k).id = 0 ∨ (D.config k).id = x.id ∨ (D.config k).host = [] ∨
      (D.config k).port = 0) := by
  rintro (hid | hid | hhost | hport)
  · exact (D.id_pos k).ne' hid
  · exact hne (D.id_inj k i (hid.trans h.id_eq))
  · exact (D.token k).ne_nil hhost
  · exact (D.port_pos k).ne' hport

/-- The address of a known peer is the one that the table has. -/
theorem Placed.table_refresh (h : D.Placed i x) (k : Fin n) :
    RaftNode.table { x with
      peers := modifyPeer
        (fun p => { p with host := copyText 64 (D.config k).host, port := (D.config k).port })
        (D.config k).id x.peers } = x.table := by
  have hpeers : ∀ p ∈ x.peers, p.id = (D.config k).id →
      Peer.contact { p with
        host := copyText 64 (D.config k).host, port := (D.config k).port } = p.contact := by
    intro p hp hid
    rw [eq_contact (h.known _ (List.mem_map_of_mem hp)) hid, copyText_host, Peer.contact, hid]
    rfl
  rw [RaftNode.table, RaftNode.table]
  exact map_modifyPeer hpeers

/-- What `add_peer_locked` does with the address of node `k`. -/
theorem Placed.add (h : D.Placed i x)
    (ha : Admission x (D.config k).id (D.config k).host (D.config k).port r y) :
    (0 < r ∧ D.contact k ∉ x.table ∧ k ≠ i ∧ x.peerCount < raftMaxPeers ∧
        y.table = x.table ++ [D.contact k]) ∨
      (¬0 < r ∧ ¬(D.contact k ∉ x.table ∧ k ≠ i ∧ x.peerCount < raftMaxPeers) ∧
        y.table = x.table) := by
  cases ha with
  | refused bad =>
    refine Or.inr ⟨by omega, fun hnew => ?_, rfl⟩
    exact h.accepts hnew.2.1 bad
  | known good old =>
    exact Or.inr ⟨by omega, fun hnew => hnew.1 (h.find_iff.mp old), h.table_refresh k⟩
  | full new room => exact Or.inr ⟨by omega, fun hnew => by omega, rfl⟩
  | added good new room =>
    refine Or.inl ⟨by omega, fun hk => ?_, ?_, room, ?_⟩
    · rw [← h.find_iff, new] at hk
      cases hk
    · rintro rfl
      exact good (Or.inr (Or.inl h.id_eq.symm))
    · rw [table_append, Peer.contact, copyText_host]
      rfl

/-- What `remove_peer_locked` does with the id of node `k`. -/
theorem Placed.remove (h : D.Placed i x) (hr : Removal x (D.config k).id r y) :
    (0 < r ↔ D.contact k ∈ x.table) ∧
      ∀ c, c ∈ y.table ↔ c ∈ x.table ∧ c ≠ D.contact k := by
  have absent : D.contact k ∉ x.table → ∀ c, c ∈ x.table ↔ c ∈ x.table ∧ c ≠ D.contact k :=
    fun hk c => ⟨fun hc => ⟨hc, fun heq => hk (heq ▸ hc)⟩, fun hc => hc.1⟩
  cases hr with
  | refused bad =>
    have hk : D.contact k ∉ x.table := by
      rcases bad with hid | hid
      · exact absurd hid (D.id_pos k).ne'
      · rw [D.id_inj k i (hid.trans h.id_eq)]
        exact h.not_self
    exact ⟨iff_of_false (by omega) hk, absent hk⟩
  | unknown missing =>
    have hk : D.contact k ∉ x.table := by
      rw [← h.find_iff, missing]
      exact Bool.false_ne_true
    exact ⟨iff_of_false (by omega) hk, absent hk⟩
  | removed good old v l c =>
    have hk := h.find_iff.mp old
    obtain ⟨p, hp, hpk⟩ := List.mem_map.mp hk
    have hpid : p.id = (D.config k).id := (Prod.mk.inj hpk).1
    obtain ⟨q, pre, post, -, hq, hsplit, herase⟩ :=
      List.exists_of_eraseP (p := fun p : Peer => p.id = (D.config k).id) hp (decide_eq_true hpid)
    have hqid : q.id = (D.config k).id := of_decide_eq_true hq
    have hqk : q.contact = D.contact k :=
      eq_contact (h.known _ (List.mem_map_of_mem (hsplit ▸ by simp))) hqid
    have hnodup := h.ok.nodup
    have htable : x.table = pre.map Peer.contact ++ D.contact k :: post.map Peer.contact := by
      rw [RaftNode.table, hsplit, List.map_append, List.map_cons, hqk]
    have hnot : D.contact k ∉ pre.map Peer.contact ++ post.map Peer.contact := by
      have hall := List.Nodup.of_map _ hnodup
      rw [htable, List.nodup_middle, List.nodup_cons] at hall
      exact hall.1
    refine ⟨iff_of_true (by omega) hk, fun c => ?_⟩
    rw [RaftNode.table, herase, List.map_append, htable]
    simp only [List.mem_append, List.mem_cons] at hnot ⊢
    constructor
    · intro hc
      exact ⟨hc.imp_right Or.inr, fun heq => hnot (heq ▸ hc)⟩
    · rintro ⟨hc | heq | hc, hne⟩
      · exact Or.inl hc
      · exact absurd heq hne
      · exact Or.inr hc

/-! ### One section -/

theorem contact_of_known {id port : ℕ} {host : Text} (h : D.Known (id, host, port)) :
    ∃ k, id = (D.config k).id ∧ host = (D.config k).host ∧ port = (D.config k).port := by
  obtain ⟨k, hk⟩ := h
  obtain ⟨hid, hrest⟩ := Prod.mk.inj hk
  exact ⟨k, hid, (Prod.mk.inj hrest).1, (Prod.mk.inj hrest).2⟩

/-- Every section keeps the node at its place. -/
theorem Placed.exec (h : D.Placed i x) (right : D.Right sec)
    (he : RaftKv.exec env sec x = some e) : D.Placed i e.node := by
  refine ⟨(exec_self he).trans h.self, fun c hc => ?_, h.ok.exec he⟩
  rcases exec_mem_table he hc with hc | ⟨id, host, port, rfl | rfl, rfl, -⟩
  · exact h.known c hc
  all_goals
    obtain ⟨k, rfl, rfl, rfl⟩ := contact_of_known right
    rw [copyText_host]
    exact ⟨k, rfl⟩

theorem right_todo (right : D.Right sec) (he : RaftKv.exec env sec x = some e) :
    ∀ next ∈ e.todo, D.Right next := by
  intro next hn
  have hfollows := exec_follows he hn
  cases sec with
  | handleJoin id host port =>
    rcases of_decide_eq_true hfollows with rfl | rfl
    · exact ⟨right, rfl⟩
    · obtain ⟨k, -, hhost, hport⟩ := contact_of_known right
      exact ⟨k, hhost, hport⟩
  | handlePeerAnnounce id host port =>
    rcases of_decide_eq_true hfollows with rfl | rfl
    · exact ⟨right, rfl⟩
    · trivial
  | handleLeave id =>
    obtain rfl := of_decide_eq_true hfollows
    exact right
  | _ => cases next <;> trivial

theorem right_sends (h : D.Placed i x) (right : D.Right sec)
    (he : RaftKv.exec env sec x = some e) : ∀ p ∈ e.sends, D.RightLine p.line := by
  intro p hp
  have hkind := exec_sends he hp
  have hself : D.Known (x.id, x.host, x.port) := ⟨i, h.self⟩
  cases sec with
  | announcePeerToKnownNodes id host port exceptId =>
    obtain rfl := Option.some.inj he
    rw [line_sendToAll hp]
    exact right.1
  | sendPeerCatalog host port =>
    obtain rfl := Option.some.inj he
    rcases List.mem_cons.mp hp with rfl | hp
    · exact hself
    · obtain ⟨peer, hpeer, rfl⟩ := List.mem_map.mp hp
      exact h.known _ (List.mem_map_of_mem hpeer)
  | requestClusterJoin =>
    obtain rfl := Option.some.inj he
    rw [line_sendToAll hp]
    exact hself
  | announceLeaveToKnownNodes id =>
    obtain rfl := Option.some.inj he
    rw [line_sendToAll hp]
    exact right
  | requestClusterLeave =>
    obtain rfl := Option.some.inj he
    rw [line_sendToAll hp]
    exact ⟨i, h.id_eq⟩
  | _ =>
    generalize p.line = line at hkind
    cases line <;> trivial

/-- The handlers of the lines get the addresses that the lines have. -/
theorem handler_contact (k : Fin n) :
    (Line.join (D.config k).id (D.config k).host (D.config k).port).handler =
        some (.handleJoin (D.config k).id (D.config k).host (D.config k).port) ∧
      (Line.peer (D.config k).id (D.config k).host (D.config k).port).handler =
        some (.handlePeerAnnounce (D.config k).id (D.config k).host (D.config k).port) ∧
      (Line.leave (D.config k).id).handler = some (.handleLeave (D.config k).id) :=
  ⟨Line.handler_join (D.id_lt k) (D.token k) (D.port_lt k),
    Line.handler_peer (D.id_lt k) (D.token k) (D.port_lt k), Line.handler_leave (D.id_lt k)⟩

theorem right_handled (h : D.RightLine line) (hhandle : line.handler = some sec) :
    D.Right sec := by
  have htag := Line.handler_tag hhandle
  cases line with
  | join id host port =>
    obtain ⟨k, rfl, rfl, rfl⟩ := contact_of_known h
    rw [(handler_contact k).1] at hhandle
    obtain rfl := Option.some.inj hhandle
    exact h
  | peer id host port =>
    obtain ⟨k, rfl, rfl, rfl⟩ := contact_of_known h
    rw [(handler_contact k).2.1] at hhandle
    obtain rfl := Option.some.inj hhandle
    exact h
  | leave id =>
    obtain ⟨k, rfl⟩ := h
    rw [(handler_contact k).2.2] at hhandle
    obtain rfl := Option.some.inj hhandle
    exact ⟨k, rfl⟩
  | _ =>
    cases sec <;> first | trivial | exact absurd htag (by simp only [Section.tag, Line.tag]; decide)

/-! ### Runs -/

theorem placed_init (D : Deployment n) (now : ℕ) (i : Fin n) :
    D.Placed i (raftNodeInit now (D.config i)) := by
  have hpeer : ∀ c ∈ (D.config i).peers.map Peer.contact, ∃ j, j ≠ i ∧ c = D.contact j := by
    intro c hc
    obtain ⟨p, hp, rfl⟩ := List.mem_map.mp hc
    exact D.peers i p hp
  have htable : (raftNodeInit now (D.config i)).table = (D.config i).peers.map Peer.contact := rfl
  have hids : ((D.config i).peers.map Peer.contact).map (fun c => c.1) =
      (D.config i).peers.map fun p => p.id := by
    rw [List.map_map]
    rfl
  refine ⟨?_, ?_, ?_, ?_, ?_, ?_⟩
  · exact congrArg (fun host => ((D.config i).id, host, (D.config i).port)) (copyText_host i)
  · intro c hc
    obtain ⟨j, -, rfl⟩ := hpeer c (htable ▸ hc)
    exact ⟨j, rfl⟩
  · rw [htable, hids]
    exact D.nodup i
  · intro c hc
    obtain ⟨j, hj, rfl⟩ := hpeer c (htable ▸ hc)
    exact ⟨(D.id_pos j).ne', fun hid => hj (D.id_inj j i hid)⟩
  · intro c hc
    obtain ⟨j, -, rfl⟩ := hpeer c (htable ▸ hc)
    exact ⟨(D.token j).ne_nil, (D.port_pos j).ne'⟩
  · rw [htable, List.length_map]
    exact D.room i

theorem unbroken_config (D : Deployment n) (i : Fin n) : (D.config i).Unbroken := by
  have hhost : ∀ j, 10 ∉ (D.config j).host := fun j =>
    (printable_of_solid (D.token j).solid).newline
  refine ⟨hhost i, fun p hp => ?_⟩
  obtain ⟨j, -, hcontact⟩ := D.peers i p hp
  obtain ⟨-, haddress⟩ := Prod.mk.inj hcontact
  rw [(Prod.mk.inj haddress).1]
  exact hhost j

theorem addressed_start (D : Deployment n) (now : Fin n → ℕ) :
    D.Addressed (Cluster.start now D.config) :=
  ⟨fun i => placed_init D (now i) i, fun _ hth => absurd hth List.not_mem_nil,
    fun _ hp => absurd hp List.not_mem_nil, unbroken_start D.unbroken_config⟩

/-- A section of node `i` keeps every address right, when it has right addresses. -/
theorem Addressed.run {s : Cluster n} (h : D.Addressed s) (right : D.Right sec)
    (he : RaftKv.exec env sec (s.node i) = some e) {rest : List Section}
    {threads : List (Fin n × List Section)} {net : List Packet}
    (hrest : ∀ next ∈ rest, D.Right next)
    (hthreads : ∀ th ∈ threads, ∀ next ∈ th.2, D.Right next)
    (hnet : ∀ p ∈ net, D.RightLine p.line)
    (unbroken : Unbroken ⟨update s.node i e.node, (i, e.todo ++ rest) :: threads, e.sends ++ net⟩) :
    D.Addressed ⟨update s.node i e.node, (i, e.todo ++ rest) :: threads, e.sends ++ net⟩ := by
  refine ⟨fun j => ?_, fun th hth next hn => ?_, fun p hp => ?_, unbroken⟩
  · by_cases hj : j = i
    · subst hj
      simp only [update_self]
      exact (h.node j).exec right he
    · simp only [update_of_ne hj]
      exact h.node j
  · rcases List.mem_cons.mp hth with rfl | hth
    · rcases List.mem_append.mp hn with hn | hn
      · exact right_todo right he next hn
      · exact hrest next hn
    · exact hthreads th hth next hn
  · rcases List.mem_append.mp hp with hp | hp
    · exact right_sends (h.node i) right he p hp
    · exact hnet p hp

end Deployment

end RaftKv
