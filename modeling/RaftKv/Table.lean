import RaftKv.Body
import RaftKv.Vote

/-! The peer table of a node.  `add_peer_locked` and `remove_peer_locked` have a case for each
outcome.  What they keep, `TableOk`, holds in every run of a node that starts with it. -/

namespace RaftKv

open Runs Stdio

attribute [local irreducible] toInt32

variable {x y : RaftNode}

/-! ### Adding and removing -/

/-- The outcomes of `add_peer_locked`. -/
inductive Admission (x : RaftNode) (id : ℕ) (host : Text) (port : ℕ) : ℤ → RaftNode → Prop
  | refused (bad : id = 0 ∨ id = x.id ∨ host = [] ∨ port = 0) : Admission x id host port (-1) x
  | known (good : ¬(id = 0 ∨ id = x.id ∨ host = [] ∨ port = 0)) (old : (findPeer x id).isSome) :
      Admission x id host port 0
        { x with
          peers := modifyPeer (fun p => { p with host := copyText 64 host, port }) id x.peers }
  | full (new : findPeer x id = none) (room : raftMaxPeers ≤ x.peerCount) :
      Admission x id host port (-2) x
  | added (good : ¬(id = 0 ∨ id = x.id ∨ host = [] ∨ port = 0)) (new : findPeer x id = none)
      (room : x.peerCount < raftMaxPeers) :
      Admission x id host port 1
        { x with peers := x.peers ++
          [⟨id, copyText 64 host, port, toInt32 x.logCount + 1, 0⟩] }

theorem admission (x : RaftNode) (id : ℕ) (host : Text) (port : ℕ) :
    Admission x id host port (addPeerLocked x id host port).1 (addPeerLocked x id host port).2 := by
  unfold addPeerLocked
  split
  · rename_i bad
    exact .refused bad
  · rename_i good
    split
    · rename_i old
      exact .known good old
    · rename_i new
      have hnew : findPeer x id = none := by simpa using new
      split
      · rename_i room
        exact .full hnew room
      · rename_i room
        exact .added good hnew (by omega)

/-- The outcomes of `remove_peer_locked`. -/
inductive Removal (x : RaftNode) (id : ℕ) : ℤ → RaftNode → Prop
  | refused (bad : id = 0 ∨ id = x.id) : Removal x id (-1) x
  | unknown (absent : findPeer x id = none) : Removal x id 0 x
  | removed (good : ¬(id = 0 ∨ id = x.id)) (old : (findPeer x id).isSome) (v l : ℤ) (c : ℕ) :
      Removal x id 1
        { x with
          peers := x.peers.eraseP fun p => p.id = id, votedFor := v, leaderId := l
          lastLeaderContactMs := c }

theorem removal (x : RaftNode) (id : ℕ) :
    Removal x id (removePeerLocked x id).1 (removePeerLocked x id).2 := by
  unfold removePeerLocked
  split
  · rename_i bad
    exact .refused bad
  · rename_i good
    split
    · rename_i old
      by_cases hv : x.votedFor = toInt32 id
      · simp only [hv, if_true]
        split
        · exact .removed good old _ _ _
        · exact .removed good old _ _ _
      · simp only [hv, if_false]
        split
        · exact .removed good old _ _ _
        · exact .removed good old _ _ _
    · rename_i absent
      exact .unknown (by simpa using absent)

theorem Admission.self {id port : ℕ} {host : Text} {r : ℤ} (ha : Admission x id host port r y) :
    (y.id, y.host, y.port) = (x.id, x.host, x.port) := by
  cases ha <;> rfl

theorem Removal.self {id : ℕ} {r : ℤ} (hr : Removal x id r y) :
    (y.id, y.host, y.port) = (x.id, x.host, x.port) := by
  cases hr <;> rfl

theorem findPeer_eq_none {id : ℕ} : findPeer x id = none ↔ ∀ c ∈ x.table, c.1 ≠ id := by
  rw [findPeer, List.find?_eq_none, RaftNode.table]
  simp only [List.forall_mem_map, decide_eq_true_eq, Peer.contact]

theorem findPeer_isSome {id : ℕ} : (findPeer x id).isSome ↔ ∃ c ∈ x.table, c.1 = id := by
  rw [← not_iff_not, Option.not_isSome_iff_eq_none, findPeer_eq_none]
  simp only [not_exists, not_and, ne_eq]

/-! ### The invariant -/

/-- What `add_peer_locked` makes sure of, whatever lines a node gets: no peer is listed twice, the
node does not list itself, and every peer can be reached. -/
structure TableOk (x : RaftNode) : Prop where
  nodup : (x.table.map fun c => c.1).Nodup
  id_ne : ∀ c ∈ x.table, c.1 ≠ 0 ∧ c.1 ≠ x.id
  address : ∀ c ∈ x.table, c.2.1 ≠ [] ∧ c.2.2 ≠ 0
  room : x.table.length ≤ raftMaxPeers

/-- The node and the peers it lists. -/
def RaftNode.members (x : RaftNode) : Finset ℕ := insert x.id (x.table.map fun c => c.1).toFinset

/-- `majority_count` is about the members when no two of them are the same. -/
theorem TableOk.card_members (h : TableOk x) : x.members.card = x.peerCount + 1 := by
  have hself : x.id ∉ (x.table.map fun c => c.1).toFinset := by
    rw [List.mem_toFinset, List.mem_map]
    rintro ⟨c, hc, heq⟩
    exact (h.id_ne c hc).2 heq
  rw [RaftNode.members, Finset.card_insert_of_notMem hself, List.toFinset_card_of_nodup h.nodup,
    List.length_map, RaftNode.length_table]

theorem TableOk.congr (h : TableOk x) (hcard : y.card = x.card) : TableOk y := by
  obtain ⟨hself, htable⟩ := Prod.mk.inj hcard
  have hid : y.id = x.id := congrArg Prod.fst hself
  exact ⟨htable ▸ h.nodup, htable ▸ hid ▸ h.id_ne, htable ▸ h.address, htable ▸ h.room⟩

theorem copyText_ne_nil {t : Text} (h : t ≠ []) : copyText 64 t ≠ [] := by
  simp [copyText, List.take_eq_nil_iff, h]

theorem table_append (x : RaftNode) (p : Peer) :
    RaftNode.table { x with peers := x.peers ++ [p] } = x.table ++ [p.contact] := List.map_append

/-- A contact in the table after `add_peer_locked` was there, or is the one that was added. -/
theorem Admission.mem_table {id port : ℕ} {host : Text} {r : ℤ} (ha : Admission x id host port r y)
    {c : ℕ × Text × ℕ} (hc : c ∈ y.table) :
    c ∈ x.table ∨ (c = (id, copyText 64 host, port) ∧
      ¬(id = 0 ∨ id = x.id ∨ host = [] ∨ port = 0)) := by
  cases ha with
  | refused bad => exact Or.inl hc
  | full new room => exact Or.inl hc
  | known good old =>
    obtain ⟨p, hp, rfl⟩ := List.mem_map.mp hc
    rcases mem_modifyPeer hp with hp | ⟨q, -, rfl, rfl⟩
    · exact Or.inl (List.mem_map_of_mem hp)
    · exact Or.inr ⟨rfl, good⟩
  | added good new room =>
    rw [table_append] at hc
    rcases List.mem_append.mp hc with hc | hc
    · exact Or.inl hc
    · exact Or.inr ⟨List.mem_singleton.mp hc, good⟩

theorem Admission.room {id port : ℕ} {host : Text} {r : ℤ} (ha : Admission x id host port r y)
    (h : x.peerCount ≤ raftMaxPeers) : y.peerCount ≤ raftMaxPeers := by
  cases ha with
  | refused | full => exact h
  | known good old => exact (length_modifyPeer _ _ _).trans_le h
  | added good new room =>
    rw [RaftNode.peerCount, List.length_append, List.length_singleton]
    exact room

theorem Removal.sublist {id : ℕ} {r : ℤ} (hr : Removal x id r y) : y.table.Sublist x.table := by
  cases hr with
  | refused | unknown => exact List.Sublist.refl _
  | removed => exact List.eraseP_sublist.map _

theorem TableOk.admit (h : TableOk x) {id port : ℕ} {host : Text} {r : ℤ}
    (ha : Admission x id host port r y) : TableOk y := by
  have hid : y.id = x.id := (Prod.mk.inj ha.self).1
  refine ⟨?_, fun c hc => ?_, fun c hc => ?_, ?_⟩
  · cases ha with
    | refused | full => exact h.nodup
    | known good old =>
      have hids := @map_id_modifyPeer (fun p => { p with host := copyText 64 host, port })
        (fun _ => rfl) id x.peers
      rw [← RaftNode.ids_eq]
      exact hids ▸ RaftNode.ids_eq x ▸ h.nodup
    | added good new room =>
      rw [table_append, List.map_append, List.nodup_append]
      refine ⟨h.nodup, List.nodup_singleton _, ?_⟩
      rintro a ha b hb rfl
      obtain ⟨c, hc, rfl⟩ := List.mem_map.mp ha
      exact findPeer_eq_none.mp new c hc (List.mem_singleton.mp hb)
  · rw [hid]
    rcases ha.mem_table hc with hc | ⟨rfl, good⟩
    · exact h.id_ne c hc
    · exact ⟨fun h0 => good (Or.inl h0), fun heq => good (Or.inr (Or.inl heq))⟩
  · rcases ha.mem_table hc with hc | ⟨rfl, good⟩
    · exact h.address c hc
    · exact ⟨copyText_ne_nil fun h0 => good (Or.inr (Or.inr (Or.inl h0))),
        fun h0 => good (Or.inr (Or.inr (Or.inr h0)))⟩
  · rw [RaftNode.length_table]
    exact ha.room (RaftNode.length_table x ▸ h.room)

theorem TableOk.remove (h : TableOk x) {id : ℕ} {r : ℤ} (hr : Removal x id r y) : TableOk y := by
  have hsub := hr.sublist
  have hid : y.id = x.id := (Prod.mk.inj hr.self).1
  exact ⟨h.nodup.sublist (hsub.map _), fun c hc => hid ▸ h.id_ne c (hsub.subset hc),
    fun c hc => h.address c (hsub.subset hc), hsub.length_le.trans h.room⟩

/-! ### Sections -/

section Exec

variable {env : Env} {sec : Section} {e : Effect}

/-- No section changes the address of its node. -/
theorem exec_self (he : exec env sec x = some e) :
    (e.node.id, e.node.host, e.node.port) = (x.id, x.host, x.port) := by
  by_cases hsec : sec.changesTable = true
  · cases sec with
    | handleJoin id host port | handlePeerAnnounce id host port =>
      obtain rfl := Option.some.inj he
      exact (admission x id host port).self
    | handleLeave id =>
      obtain rfl := Option.some.inj he
      exact (removal x id).self
    | _ => cases hsec
  · exact (Prod.mk.inj (exec_card he (Bool.not_eq_true _ ▸ hsec))).1

/-- A contact in the table was there, or is that of a `JOIN` or `PEER` line. -/
theorem exec_mem_table (he : exec env sec x = some e) {c : ℕ × Text × ℕ} (hc : c ∈ e.node.table) :
    c ∈ x.table ∨ ∃ id host port, (sec = .handleJoin id host port ∨
      sec = .handlePeerAnnounce id host port) ∧ c = (id, copyText 64 host, port) ∧ id ≠ x.id := by
  by_cases hsec : sec.changesTable = true
  · cases sec with
    | handleJoin id host port =>
      obtain rfl := Option.some.inj he
      refine ((admission x id host port).mem_table hc).imp_right fun ⟨heq, good⟩ => ?_
      exact ⟨id, host, port, Or.inl rfl, heq, fun hself => good (Or.inr (Or.inl hself))⟩
    | handlePeerAnnounce id host port =>
      obtain rfl := Option.some.inj he
      refine ((admission x id host port).mem_table hc).imp_right fun ⟨heq, good⟩ => ?_
      exact ⟨id, host, port, Or.inr rfl, heq, fun hself => good (Or.inr (Or.inl hself))⟩
    | handleLeave id =>
      obtain rfl := Option.some.inj he
      exact Or.inl ((removal x id).sublist.subset hc)
    | _ => cases hsec
  · have htable := (Prod.mk.inj (exec_card he (Bool.not_eq_true _ ▸ hsec))).2
    exact Or.inl (htable ▸ hc)

/-- The table does not grow out of its array. -/
theorem exec_room (he : exec env sec x = some e) (h : x.peerCount ≤ raftMaxPeers) :
    e.node.peerCount ≤ raftMaxPeers := by
  by_cases hsec : sec.changesTable = true
  · cases sec with
    | handleJoin id host port | handlePeerAnnounce id host port =>
      obtain rfl := Option.some.inj he
      exact (admission x id host port).room h
    | handleLeave id =>
      obtain rfl := Option.some.inj he
      have hlength := (removal x id).sublist.length_le
      rw [RaftNode.length_table, RaftNode.length_table] at hlength
      exact hlength.trans h
    | _ => cases hsec
  · have htable := (Prod.mk.inj (exec_card he (Bool.not_eq_true _ ▸ hsec))).2
    rw [← RaftNode.length_table, htable, RaftNode.length_table]
    exact h

end Exec

/-- Every section keeps the invariant. -/
theorem TableOk.exec (h : TableOk x) {env : Env} {sec : Section} {e : Effect}
    (he : exec env sec x = some e) : TableOk e.node := by
  by_cases hsec : sec.changesTable = true
  · cases sec with
    | handleJoin id host port | handlePeerAnnounce id host port =>
      obtain rfl := Option.some.inj he
      exact h.admit (admission x id host port)
    | handleLeave id =>
      obtain rfl := Option.some.inj he
      exact h.remove (removal x id)
    | _ => cases hsec
  · exact h.congr (exec_card he (Bool.not_eq_true _ ▸ hsec))

/-! ### Runs of one node -/

/-- A thread can enter the section: it is the handler of a line of any text, or of no line. -/
def Section.Enterable (sec : Section) : Prop :=
  (∃ line, raftHandleLine line = some sec) ∨ sec.inner = true

theorem TableOk.run {ok : RaftNode → Env × Section → Prop} (run : Reach RaftNode.step ok x y)
    (h : TableOk x) : TableOk y := by
  refine run.invariant h ?_
  intro x a x' _ h _ hstep
  obtain ⟨e, he, rfl⟩ := Option.map_eq_some_iff.mp hstep
  exact h.exec he

end RaftKv
