import RaftKv.Table

/-! The array of peers, `src/common.cpp`, slot by slot: `find_peer`, `add_peer_locked` and
`remove_peer_locked` with their loops.  The slots in use are the list that `findPeer`,
`addPeerLocked` and `removePeerLocked` work on. -/

namespace RaftKv

open Stdio

/-- The peer that `memset` leaves. -/
def Peer.zero : Peer := ⟨0, [], 0, 0, 0⟩

/-- The fields of a node that the functions of the peer table read and write. -/
structure PeerArray where
  id : ℕ
  slots : List Peer
  peerCount : ℕ
  logCount : ℕ
  votedFor : ℤ
  leaderId : ℤ
  lastLeaderContactMs : ℕ
  length_slots : slots.length = raftMaxPeers
  count_le : peerCount ≤ raftMaxPeers
  log_le : logCount ≤ raftMaxLog

/-- The loop of `find_peer` over `k` slots from `i` on. -/
def findSlot (slots : List Peer) (id : ℕ) : ℕ → ℕ → Option ℕ
  | 0, _ => none
  | k + 1, i => if (slots.getD i Peer.zero).id = id then some i else findSlot slots id k (i + 1)

/-- The inner loop of `remove_peer_locked`, over `k` slots from `j` on: each moves one down. -/
def shiftSlots (slots : List Peer) : ℕ → ℕ → List Peer
  | 0, _ => slots
  | k + 1, j => shiftSlots (slots.set (j - 1) (slots.getD j Peer.zero)) k (j + 1)

theorem length_shiftSlots (k j : ℕ) (slots : List Peer) :
    (shiftSlots slots k j).length = slots.length := by
  induction k generalizing j slots with
  | zero => rfl
  | succ k ih => rw [shiftSlots, ih, List.length_set]

namespace PeerArray

/-- The slot that the pointer from `find_peer` points at. -/
def findPeer (t : PeerArray) (id : ℕ) : Option ℕ := findSlot t.slots id t.peerCount 0

/-- Assigns to slot `i`. -/
def setSlot (t : PeerArray) (i : ℕ) (peer : Peer) : PeerArray :=
  { t with slots := t.slots.set i peer
           length_slots := by rw [List.length_set, t.length_slots] }

def addPeerLocked (t : PeerArray) (id : ℕ) (host : Text) (port : ℕ) : ℤ × PeerArray :=
  if id = 0 ∨ id = t.id ∨ host = [] ∨ port = 0 then (-1, t)
  else match t.findPeer id with
    | some i =>
      let peer := t.slots.getD i Peer.zero
      (0, t.setSlot i { peer with host := copyText 64 host, port })
    | none =>
      if room : raftMaxPeers ≤ t.peerCount then (-2, t)
      else
        let peer : Peer :=
          { Peer.zero with
            id, host := copyText 64 host, port
            nextIndex := toInt32 t.logCount + 1, matchIndex := 0 }
        (1, { t.setSlot t.peerCount peer with
              peerCount := t.peerCount + 1, count_le := Nat.lt_of_not_le room })

/-- The slots behind `i` move down, and the last one is cleared. -/
def deleteSlot (t : PeerArray) (i : ℕ) : PeerArray :=
  { t with
    slots := (shiftSlots t.slots (t.peerCount - (i + 1)) (i + 1)).set (t.peerCount - 1) Peer.zero
    peerCount := t.peerCount - 1
    length_slots := by rw [List.length_set, length_shiftSlots, t.length_slots]
    count_le := (Nat.sub_le _ _).trans t.count_le }

/-- A vote for a peer that is gone is taken back, and a leader that is gone is no leader. -/
def forget (t : PeerArray) (id : ℕ) : PeerArray :=
  let t := if t.votedFor = toInt32 id then { t with votedFor := -1 } else t
  if t.leaderId = toInt32 id then { t with leaderId := -1, lastLeaderContactMs := 0 } else t

def removePeerLocked (t : PeerArray) (id : ℕ) : ℤ × PeerArray :=
  if id = 0 ∨ id = t.id then (-1, t)
  else match t.findPeer id with
    | some i => (1, (t.deleteSlot i).forget id)
    | none => (0, t)

/-- The slots in use. -/
def used (t : PeerArray) : List Peer := t.slots.take t.peerCount

end PeerArray

variable {t : PeerArray} {id i : ℕ}

/-! ### Slots in use -/

theorem length_used (t : PeerArray) : t.used.length = t.peerCount := by
  rw [PeerArray.used, List.length_take, t.length_slots]
  exact min_eq_left t.count_le

theorem forget_eq (t : PeerArray) (id : ℕ) : ∃ v l c,
    t.forget id = { t with votedFor := v, leaderId := l, lastLeaderContactMs := c } := by
  unfold PeerArray.forget
  by_cases hv : t.votedFor = toInt32 id
  · simp only [hv, if_true]
    split
    · exact ⟨_, _, _, rfl⟩
    · exact ⟨_, _, _, rfl⟩
  · simp only [hv, if_false]
    split
    · exact ⟨_, _, _, rfl⟩
    · exact ⟨_, _, _, rfl⟩

theorem getElem?_used (t : PeerArray) (i : ℕ) :
    t.used[i]? = if i < t.peerCount then t.slots[i]? else none := List.getElem?_take

theorem getD_slots {i : ℕ} {peer : Peer} (h : t.used[i]? = some peer) :
    t.slots.getD i Peer.zero = peer := by
  rw [getElem?_used] at h
  split at h
  · rw [List.getD_eq_getElem?_getD, h, Option.getD_some]
  · cases h

/-- The loop of `find_peer` finds the first slot with the id. -/
theorem findSlot_eq (slots : List Peer) (id : ℕ) {k i : ℕ} (h : i + k ≤ slots.length) :
    findSlot slots id k i =
      (((slots.drop i).take k).findIdx? fun p => p.id = id).map fun j => j + i := by
  induction k generalizing i with
  | zero => simp [findSlot]
  | succ k ih =>
    have hi : i < slots.length := by omega
    rw [findSlot, ih (by omega), List.drop_eq_getElem_cons hi, List.take_succ_cons,
      List.findIdx?_cons, List.getD_eq_getElem?_getD, List.getElem?_eq_getElem hi,
      Option.getD_some]
    by_cases hid : slots[i].id = id
    · simp [hid]
    · simp only [hid, if_false, decide_false, Bool.false_eq_true, Option.map_map]
      congr 1
      funext j
      simp only [Function.comp_apply]
      omega

theorem findPeer_eq (t : PeerArray) (id : ℕ) :
    t.findPeer id = t.used.findIdx? fun p => p.id = id := by
  have hle : 0 + t.peerCount ≤ t.slots.length := by
    rw [t.length_slots, Nat.zero_add]
    exact t.count_le
  rw [PeerArray.findPeer, findSlot_eq _ _ hle]
  simp [PeerArray.used]

theorem found_lt (h : t.findPeer id = some i) : i < t.peerCount := by
  rw [findPeer_eq] at h
  obtain ⟨hlt, -⟩ := List.findIdx?_eq_some_iff_getElem.mp h
  rwa [length_used] at hlt

theorem used_setSlot (t : PeerArray) (i : ℕ) (peer : Peer) :
    (t.setSlot i peer).used = t.used.set i peer := List.take_set

theorem take_set_length {β : Type*} {l : List β} {n : ℕ} (h : n < l.length) (b : β) :
    (l.set n b).take (n + 1) = l.take n ++ [b] := by
  have hn : n < (l.set n b).length := by rwa [List.length_set]
  rw [List.take_succ_eq_append_getElem hn, List.getElem_set_self, List.take_set_of_le le_rfl]

/-- Where the entries are after the inner loop of `remove_peer_locked`. -/
theorem getElem?_shiftSlots {slots : List Peer} {k j : ℕ} (hj : 0 < j) (h : j + k ≤ slots.length)
    (i : ℕ) : (shiftSlots slots k j)[i]? =
      if j - 1 ≤ i ∧ i < j - 1 + k then slots[i + 1]? else slots[i]? := by
  induction k generalizing j slots with
  | zero => rw [shiftSlots, if_neg (by omega)]
  | succ k ih =>
    have hget : slots.getD j Peer.zero = slots[j] := by
      rw [List.getD_eq_getElem?_getD, List.getElem?_eq_getElem (by omega), Option.getD_some]
    rw [shiftSlots, hget, ih (by omega) (by rw [List.length_set]; omega)]
    rcases lt_trichotomy i (j - 1) with hlt | rfl | hgt
    · rw [if_neg (by omega), if_neg (by omega), List.getElem?_set_ne (by omega)]
    · rw [if_neg (by omega), if_pos (by omega), List.getElem?_set_self (by omega),
        ← List.getElem?_eq_getElem, Nat.sub_add_cancel hj]
    · by_cases hi : i < j + k
      · rw [if_pos (by omega), if_pos (by omega), List.getElem?_set_ne (by omega)]
      · rw [if_neg (by omega), if_neg (by omega), List.getElem?_set_ne (by omega)]

/-- Every slot after a removal. -/
theorem getElem?_deleteSlot (hi : i < t.peerCount) (k : ℕ) : (t.deleteSlot i).slots[k]? =
    if k = t.peerCount - 1 then some Peer.zero
    else if i ≤ k ∧ k < t.peerCount then t.slots[k + 1]? else t.slots[k]? := by
  have hcount := t.count_le
  have hlength := t.length_slots
  change ((shiftSlots t.slots (t.peerCount - (i + 1)) (i + 1)).set (t.peerCount - 1)
    Peer.zero)[k]? = _
  by_cases hk : k = t.peerCount - 1
  · subst hk
    rw [if_pos rfl, List.getElem?_set_self (by rw [length_shiftSlots]; omega)]
  · rw [if_neg hk, List.getElem?_set_ne (Ne.symm hk),
      getElem?_shiftSlots (Nat.succ_pos i) (by omega)]
    congr 1
    simp only [eq_iff_iff]
    omega

theorem used_deleteSlot (hi : i < t.peerCount) : (t.deleteSlot i).used = t.used.eraseIdx i := by
  apply List.ext_getElem?
  intro k
  rw [getElem?_used, getElem?_deleteSlot hi, List.getElem?_eraseIdx, getElem?_used, getElem?_used]
  change (if k < t.peerCount - 1 then _ else none) = _
  by_cases hk : k < t.peerCount - 1
  · rw [if_pos hk, if_neg (by omega)]
    by_cases hik : k < i
    · rw [if_neg (by omega), if_pos hik, if_pos (by omega)]
    · rw [if_pos (by omega), if_neg hik, if_pos (by omega)]
  · rw [if_neg hk]
    by_cases hik : k < i
    · omega
    · rw [if_neg hik, if_neg (by omega)]

/-! ### The calls -/

/-- A call of `add_peer_locked` or of `remove_peer_locked`. -/
inductive TableCall
  | add (id : ℕ) (host : Text) (port : ℕ)
  | remove (id : ℕ)

def PeerArray.call (t : PeerArray) : TableCall → ℤ × PeerArray
  | .add id host port => t.addPeerLocked id host port
  | .remove id => t.removePeerLocked id

/-- The result of a call, and the slots in use after it. -/
inductive CallTurn (t : PeerArray) : TableCall → ℤ → List Peer → Prop
  | invalid {id port : ℕ} {host : Text} (bad : id = 0 ∨ id = t.id ∨ host = [] ∨ port = 0) :
      CallTurn t (.add id host port) (-1) t.used
  | known {id port i : ℕ} {host : Text} {peer : Peer}
      (good : ¬(id = 0 ∨ id = t.id ∨ host = [] ∨ port = 0))
      (found : t.used.findIdx? (fun p => p.id = id) = some i) (got : t.used[i]? = some peer) :
      CallTurn t (.add id host port) 0 (t.used.set i { peer with host := copyText 64 host, port })
  | full {id port : ℕ} {host : Text} (good : ¬(id = 0 ∨ id = t.id ∨ host = [] ∨ port = 0))
      (new : t.used.findIdx? (fun p => p.id = id) = none) (room : raftMaxPeers ≤ t.peerCount) :
      CallTurn t (.add id host port) (-2) t.used
  | added {id port : ℕ} {host : Text} (good : ¬(id = 0 ∨ id = t.id ∨ host = [] ∨ port = 0))
      (new : t.used.findIdx? (fun p => p.id = id) = none) (room : t.peerCount < raftMaxPeers) :
      CallTurn t (.add id host port) 1
        (t.used ++ [⟨id, copyText 64 host, port, toInt32 t.logCount + 1, 0⟩])
  | refused {id : ℕ} (bad : id = 0 ∨ id = t.id) : CallTurn t (.remove id) (-1) t.used
  | unknown {id : ℕ} (good : ¬(id = 0 ∨ id = t.id))
      (new : t.used.findIdx? (fun p => p.id = id) = none) : CallTurn t (.remove id) 0 t.used
  | removed {id i : ℕ} (good : ¬(id = 0 ∨ id = t.id))
      (found : t.used.findIdx? (fun p => p.id = id) = some i) :
      CallTurn t (.remove id) 1 (t.used.eraseIdx i)

theorem used_addPeerLocked (t : PeerArray) (id : ℕ) (host : Text) (port : ℕ) :
    CallTurn t (.add id host port) (t.addPeerLocked id host port).1
      (t.addPeerLocked id host port).2.used := by
  unfold PeerArray.addPeerLocked
  split
  · rename_i bad
    exact .invalid bad
  · rename_i good
    split
    · rename_i i found
      have hlt : i < t.used.length := (found_lt found).trans_eq (length_used t).symm
      have got := List.getElem?_eq_getElem hlt
      rw [used_setSlot, getD_slots got]
      exact .known good (findPeer_eq t id ▸ found) got
    · rename_i new
      rw [findPeer_eq] at new
      split
      · rename_i room
        exact .full good new room
      · rename_i room
        have hlt : t.peerCount < t.slots.length := by
          rw [t.length_slots]
          exact Nat.lt_of_not_le room
        have happend := take_set_length hlt
          ⟨id, copyText 64 host, port, toInt32 t.logCount + 1, 0⟩
        have hadded := CallTurn.added good new (Nat.lt_of_not_le room)
        rw [PeerArray.used, ← happend] at hadded
        exact hadded

theorem used_removePeerLocked (t : PeerArray) (id : ℕ) :
    CallTurn t (.remove id) (t.removePeerLocked id).1 (t.removePeerLocked id).2.used := by
  unfold PeerArray.removePeerLocked
  split
  · rename_i bad
    exact .refused bad
  · rename_i good
    split
    · rename_i i found
      have hremoved := CallTurn.removed good (findPeer_eq t id ▸ found)
      rw [← used_deleteSlot (found_lt found)] at hremoved
      obtain ⟨v, l, c, hforget⟩ := forget_eq (t.deleteSlot i) id
      rw [hforget]
      exact hremoved
    · rename_i new
      rw [findPeer_eq] at new
      exact .unknown good new

/-- The outcomes of a call. -/
theorem call_turn (t : PeerArray) (c : TableCall) :
    CallTurn t c (t.call c).1 (t.call c).2.used := by
  cases c with
  | add id host port => exact used_addPeerLocked t id host port
  | remove id => exact used_removePeerLocked t id

/-- What a call does to the record: it assigns to a slot in use, takes one more, or gives up one. -/
inductive SlotTurn (t : PeerArray) : PeerArray → Prop
  | stay : SlotTurn t t
  | assign {i : ℕ} (peer : Peer) (h : i < t.peerCount) : SlotTurn t (t.setSlot i peer)
  | take (peer : Peer) (room : t.peerCount + 1 ≤ raftMaxPeers) :
      SlotTurn t { t.setSlot t.peerCount peer with peerCount := t.peerCount + 1, count_le := room }
  | free {i : ℕ} (h : i < t.peerCount) (v l : ℤ) (c : ℕ) :
      SlotTurn t { t.deleteSlot i with votedFor := v, leaderId := l, lastLeaderContactMs := c }

theorem call_slotTurn (t : PeerArray) (c : TableCall) : SlotTurn t (t.call c).2 := by
  cases c with
  | add id host port =>
    change SlotTurn t (t.addPeerLocked id host port).2
    unfold PeerArray.addPeerLocked
    split
    · exact .stay
    · split
      · rename_i found
        exact .assign _ (found_lt found)
      · split
        · exact .stay
        · exact .take _ _
  | remove id =>
    change SlotTurn t (t.removePeerLocked id).2
    unfold PeerArray.removePeerLocked
    split
    · exact .stay
    · split
      · rename_i i found
        obtain ⟨v, l, c, hforget⟩ := forget_eq (t.deleteSlot i) id
        rw [hforget]
        exact .free (found_lt found) v l c
      · exact .stay

/-- A slot that is in use, or that a removal has cleared. -/
def Cleared (t : PeerArray) (k : ℕ) : Prop := k < t.peerCount ∨ t.slots[k]? = some Peer.zero

theorem Cleared.turn {t' : PeerArray} {k : ℕ} (h : Cleared t k) (turn : SlotTurn t t') :
    Cleared t' k := by
  cases turn with
  | stay => exact h
  | @assign i peer hi =>
    by_cases hk : k < t.peerCount
    · exact Or.inl hk
    · exact Or.inr ((List.getElem?_set_ne (by omega)).trans (h.resolve_left hk))
  | take peer room =>
    by_cases hk : k < t.peerCount + 1
    · exact Or.inl hk
    · have hzero := h.resolve_left (by omega)
      exact Or.inr ((List.getElem?_set_ne (by omega)).trans hzero)
  | @free i hi v l c =>
    by_cases hk : k < t.peerCount - 1
    · exact Or.inl hk
    · refine Or.inr ((getElem?_deleteSlot hi k).trans ?_)
      split
      · rfl
      · rw [if_neg (by omega)]
        exact h.resolve_left (by omega)

/-- The record shows what node `x` has in the fields. -/
structure Shows (t : PeerArray) (x : RaftNode) : Prop where
  id : x.id = t.id
  peers : x.peers = t.used
  log : x.logCount = t.logCount
  vote : x.votedFor = t.votedFor
  leader : x.leaderId = t.leaderId
  contact : x.lastLeaderContactMs = t.lastLeaderContactMs

variable {x : RaftNode}

theorem Shows.found_iff (h : Shows t x) (id : ℕ) :
    (findPeer x id).isSome ↔ (t.findPeer id).isSome := by
  rw [findPeer_eq, findPeer, h.peers, List.find?_isSome, List.findIdx?_isSome, List.any_eq_true]

theorem modifyPeer_eq_set {f : Peer → Peer} {ps : List Peer} {peer : Peer}
    (found : ps.findIdx? (fun p => p.id = id) = some i) (got : ps[i]? = some peer) :
    modifyPeer f id ps = ps.set i (f peer) := by
  induction ps generalizing i with
  | nil => cases got
  | cons p ps ih =>
    rw [List.findIdx?_cons] at found
    rw [modifyPeer]
    by_cases hp : p.id = id
    · simp only [hp, decide_true, if_true, Option.some.injEq] at found
      subst found
      obtain rfl := Option.some.inj got
      rw [if_pos hp]
      rfl
    · simp only [hp, decide_false, Bool.false_eq_true, if_false] at found
      obtain ⟨j, hj, rfl⟩ := Option.map_eq_some_iff.mp found
      rw [if_neg hp, ih hj got]
      rfl

theorem Shows.count (h : Shows t x) : x.peerCount = t.peerCount := by
  rw [RaftNode.peerCount, h.peers, length_used]

/-- The list of peers in use is what `add_peer_locked` makes of the array. -/
theorem Shows.add (h : Shows t x) (id : ℕ) (host : Text) (port : ℕ) :
    (t.addPeerLocked id host port).1 = (addPeerLocked x id host port).1 ∧
      Shows (t.addPeerLocked id host port).2 (addPeerLocked x id host port).2 := by
  have hfound := h.found_iff id
  unfold PeerArray.addPeerLocked addPeerLocked
  by_cases bad : id = 0 ∨ id = t.id ∨ host = [] ∨ port = 0
  · rw [if_pos bad, if_pos (h.id ▸ bad)]
    exact ⟨rfl, h⟩
  · rw [if_neg bad, if_neg (h.id ▸ bad)]
    cases found : t.findPeer id with
    | some i =>
      rw [if_pos (hfound.mpr (Option.isSome_of_eq_some found))]
      refine ⟨rfl, h.id, ?_, h.log, h.vote, h.leader, h.contact⟩
      have hlt : i < t.used.length := (found_lt found).trans_eq (length_used t).symm
      have got := List.getElem?_eq_getElem hlt
      simp only [used_setSlot, getD_slots got, h.peers]
      exact modifyPeer_eq_set (findPeer_eq t id ▸ found) got
    | none =>
      rw [if_neg (by rw [hfound, found]; exact Bool.false_ne_true)]
      by_cases room : raftMaxPeers ≤ t.peerCount
      · rw [dif_pos room, if_pos (h.count ▸ room)]
        exact ⟨rfl, h⟩
      · rw [dif_neg room, if_neg (h.count ▸ room)]
        refine ⟨rfl, h.id, ?_, h.log, h.vote, h.leader, h.contact⟩
        have hlt : t.peerCount < t.slots.length := by
          rw [t.length_slots]
          exact Nat.lt_of_not_le room
        rw [h.log, h.peers, PeerArray.used]
        exact (take_set_length hlt _).symm

theorem Shows.forget (h : Shows t x) (id : ℕ) : Shows (t.forget id)
    (let x := if x.votedFor = toInt32 id then { x with votedFor := -1 } else x
    if x.leaderId = toInt32 id then
      { x with leaderId := -1, lastLeaderContactMs := 0 }
    else x) := by
  have hv : Shows (if t.votedFor = toInt32 id then { t with votedFor := -1 } else t)
      (if x.votedFor = toInt32 id then { x with votedFor := -1 } else x) := by
    rw [h.vote]
    split
    · exact ⟨h.id, h.peers, h.log, rfl, h.leader, h.contact⟩
    · exact h
  unfold PeerArray.forget
  generalize (if t.votedFor = toInt32 id then { t with votedFor := -1 } else t) = u,
    (if x.votedFor = toInt32 id then { x with votedFor := -1 } else x) = y at hv ⊢
  simp only [hv.leader]
  split
  · exact ⟨hv.id, hv.peers, hv.log, hv.vote, rfl, rfl⟩
  · exact hv

theorem Shows.remove (h : Shows t x) (id : ℕ) :
    (t.removePeerLocked id).1 = (removePeerLocked x id).1 ∧
      Shows (t.removePeerLocked id).2 (removePeerLocked x id).2 := by
  have hfound := h.found_iff id
  unfold PeerArray.removePeerLocked removePeerLocked
  by_cases bad : id = 0 ∨ id = t.id
  · rw [if_pos bad, if_pos (h.id ▸ bad)]
    exact ⟨rfl, h⟩
  · rw [if_neg bad, if_neg (h.id ▸ bad)]
    cases found : t.findPeer id with
    | some i =>
      rw [if_pos (hfound.mpr (Option.isSome_of_eq_some found))]
      have hu : Shows (t.deleteSlot i) { x with peers := x.peers.eraseP fun p => p.id = id } := by
        refine ⟨h.id, ?_, h.log, h.vote, h.leader, h.contact⟩
        rw [used_deleteSlot (found_lt found), h.peers, List.eraseP_eq_eraseIdx, ← findPeer_eq,
          found]
      exact ⟨rfl, hu.forget id⟩
    | none =>
      rw [if_neg (by rw [hfound, found]; exact Bool.false_ne_true)]
      exact ⟨rfl, h⟩

end RaftKv
