import Mathlib.Data.Finset.Card
import Mathlib.Data.Fintype.Card
import Mathlib.Data.Fintype.EquivFin
import RaftKv.Cluster

/-! The fixed complete peer tables of a cluster, as one roster: the address of every node and the
order in which each node lists the others.  Everything a node sends goes to another member of the
roster. -/

namespace RaftKv

open Stdio

/-- The members of a cluster, each with the order of the others in its table. -/
structure Roster (n : ℕ) where
  id : Fin n → ℕ
  host : Fin n → Text
  port : Fin n → ℕ
  order : Fin n → List (Fin n)
  id_lt : ∀ i, id i < 2 ^ 31
  id_inj : ∀ i j, id i = id j → i = j
  addr_inj : ∀ i j, host i = host j → port i = port j → i = j
  room : ∀ i, (order i).length ≤ raftMaxPeers
  nodup : ∀ i, (order i).Nodup
  mem_order : ∀ i j, j ∈ order i ↔ j ≠ i

namespace Roster

variable {n : ℕ} (R : Roster n) {i j : Fin n} {x : RaftNode}

/-- Node `i` has its own address and lists the others. -/
structure Lists (i : Fin n) (x : RaftNode) : Prop where
  id : x.id = R.id i
  host : x.host = R.host i
  port : x.port = R.port i
  peers : (x.peers.map fun p => (p.id, p.host, p.port)) =
    (R.order i).map fun j => (R.id j, R.host j, R.port j)

/-- A line on its way to member `j`. -/
def packet (j : Fin n) (line : Line) : Packet := ⟨R.host j, R.port j, line⟩

/-- Whether a packet goes to member `j`. -/
def isTo (j : Fin n) (p : Packet) : Bool := p.host = R.host j && p.port = R.port j

variable {R}

theorem isTo_packet (line : Line) : R.isTo j (R.packet i line) = decide (i = j) := by
  by_cases h : i = j
  · subst h
    simp [isTo, packet]
  · have hne : ¬(R.host i = R.host j ∧ R.port i = R.port j) := fun hc =>
      h (R.addr_inj i j hc.1 hc.2)
    rw [isTo, ← Bool.decide_and]
    exact (decide_eq_false hne).trans (decide_eq_false h).symm

theorem length_order (i : Fin n) : (R.order i).length + 1 = n := by
  have hset : (R.order i).toFinset = Finset.univ.erase i := by
    ext j
    simp [R.mem_order]
  have hcard := List.toFinset_card_of_nodup (R.nodup i)
  rw [hset, Finset.card_erase_of_mem (Finset.mem_univ i), Finset.card_univ,
    Fintype.card_fin] at hcard
  have := i.pos
  omega

theorem length_peers (h : R.Lists i x) : x.peers.length + 1 = n := by
  have := congrArg List.length h.peers
  rw [List.length_map, List.length_map] at this
  rw [this, length_order]

theorem size_le (R : Roster n) (i : Fin n) : n ≤ raftMaxPeers + 1 := by
  have h1 := R.room i
  have h2 := R.length_order i
  omega

theorem majorityCount_eq (h : R.Lists i x) : majorityCount x = (n / 2 : ℕ) + 1 := by
  rw [majorityCount, RaftNode.peerCount, length_peers h]

theorem mem_peers (h : R.Lists i x) {p : Peer} (hp : p ∈ x.peers) :
    ∃ j, j ≠ i ∧ p.id = R.id j ∧ p.host = R.host j ∧ p.port = R.port j := by
  have hmem := List.mem_map_of_mem (f := fun p : Peer => (p.id, p.host, p.port)) hp
  rw [h.peers] at hmem
  obtain ⟨j, hj, heq⟩ := List.mem_map.mp hmem
  obtain ⟨h1, h2⟩ := Prod.mk.inj heq
  obtain ⟨h2, h3⟩ := Prod.mk.inj h2
  exact ⟨j, (R.mem_order i j).mp hj, h1.symm, h2.symm, h3.symm⟩

theorem findPeer_some (h : R.Lists i x) {k : ℕ} {p : Peer} (hp : findPeer x k = some p) :
    p ∈ x.peers ∧ ∃ j, j ≠ i ∧ k = R.id j ∧ p.id = R.id j ∧ p.host = R.host j ∧
      p.port = R.port j := by
  have hmem := List.mem_of_find?_eq_some hp
  obtain ⟨j, hj, h1, h2, h3⟩ := mem_peers h hmem
  have hk : p.id = k := by simpa using List.find?_some hp
  exact ⟨hmem, j, hj, hk ▸ h1, h1, h2, h3⟩

theorem sendToPeer_eq (h : R.Lists i x) (k : ℕ) (line : Line) :
    sendToPeer x k line = [] ∨
      ∃ j, j ≠ i ∧ k = R.id j ∧ sendToPeer x k line = [R.packet j line] := by
  unfold sendToPeer
  cases hp : findPeer x k with
  | none => exact Or.inl rfl
  | some p =>
    obtain ⟨-, j, hj, hk, -, h2, h3⟩ := findPeer_some h hp
    exact Or.inr ⟨j, hj, hk, by simp [packet, h2, h3]⟩

theorem sendToAll_eq (h : R.Lists i x) (line : Line) :
    sendToAll x [] line = (R.order i).map fun j => R.packet j line := by
  have hmap := congrArg (List.map fun a : ℕ × Text × ℕ => Packet.mk a.2.1 a.2.2 line) h.peers
  simp only [List.map_map] at hmap
  simpa [sendToAll, packet, Function.comp_def] using hmap

/-- Assignments to a peer that keep its address keep the table. -/
theorem Lists.modify (h : R.Lists i x) {f : Peer → Peer} (id : ℕ)
    (hf : ∀ p, (f p).id = p.id ∧ (f p).host = p.host ∧ (f p).port = p.port) :
    R.Lists i { x with peers := modifyPeer f id x.peers } := by
  refine { h with peers := ?_ }
  rw [← h.peers]
  induction x.peers with
  | nil => rfl
  | cons p ps ih =>
    rw [modifyPeer]
    split
    · simp [hf p]
    · simpa using ih

theorem Lists.map (h : R.Lists i x) {f : Peer → Peer}
    (hf : ∀ p, (f p).id = p.id ∧ (f p).host = p.host ∧ (f p).port = p.port) :
    R.Lists i { x with peers := x.peers.map f } := by
  refine { h with peers := ?_ }
  rw [← h.peers]
  simp [Function.comp_def, hf]

end Roster

/-- Fixed complete tables are a roster. -/
theorem FixedTables.roster {n : ℕ} {node : Fin n → RaftNode} (h : FixedTables node) :
    ∃ R : Roster n, ∀ i, R.Lists i (node i) := by
  classical
  have owner : ∀ i, ∀ p ∈ (node i).peers, ∃ j, j ≠ i ∧ (node j).id = p.id := fun i p hp =>
    (h.complete i p.id).mp (List.mem_map_of_mem hp)
  let member (i : Fin n) (p : Peer) : Fin n :=
    if hp : p ∈ (node i).peers then (owner i p hp).choose else i
  have member_ne : ∀ i, ∀ p ∈ (node i).peers, member i p ≠ i := by
    intro i p hp
    simpa [member, hp] using (owner i p hp).choose_spec.1
  have member_id : ∀ i, ∀ p ∈ (node i).peers, (node (member i p)).id = p.id := by
    intro i p hp
    simpa [member, hp] using (owner i p hp).choose_spec.2
  have ids : ∀ i, (((node i).peers.map (member i)).map fun j => (node j).id) =
      (node i).peers.map fun p => p.id := by
    intro i
    rw [List.map_map]
    exact List.map_congr_left fun p hp => member_id i p hp
  refine ⟨{ id := fun i => (node i).id, host := fun i => (node i).host
            port := fun i => (node i).port, order := fun i => (node i).peers.map (member i)
            id_lt := h.id_lt, id_inj := h.id_inj, addr_inj := h.addr_inj
            room := fun i => by simpa [RaftNode.peerCount] using h.room i
            nodup := fun i =>
              List.Nodup.of_map (fun j => (node j).id) (by rw [ids i]; exact h.nodup i)
            mem_order := fun i j => ?_ }, fun i => ⟨rfl, rfl, rfl, ?_⟩⟩
  · constructor
    · intro hj
      obtain ⟨p, hp, rfl⟩ := List.mem_map.mp hj
      exact member_ne i p hp
    · intro hj
      obtain ⟨p, hp, hid⟩ := List.mem_map.mp ((h.complete i (node j).id).mpr ⟨j, hj, rfl⟩)
      have hsame := h.id_inj _ _ ((member_id i p hp).trans hid)
      exact List.mem_map.mpr ⟨p, hp, hsame⟩
  · rw [List.map_map]
    apply List.map_congr_left
    intro p hp
    obtain ⟨h1, h2⟩ := h.address i p hp (member i p) (member_id i p hp).symm
    simp [Function.comp, member_id i p hp, h1, h2]

end RaftKv
