import RaftKv.Types

/-! The shared helpers of `src/common.cpp` and the key-value store of `src/kv_store.cpp`. -/

namespace RaftKv

open Stdio

/-- `src` cut to `dstSize - 1` bytes; a NULL source is the empty text. -/
def copyText (dstSize : ℕ) (src : Text) : Text := src.take (dstSize - 1)

/-- Not empty, shorter than `maxSize`, and without white space. -/
def isValidToken (text : Text) (maxSize : ℕ) : Bool :=
  text ≠ [] && text.length < maxSize && text.all fun c => !isspace c

def opName : KvOp → Text
  | .set => bytes "SET"
  | .del => bytes "DEL"
  | .none => bytes "NONE"

def opFromName (name : Text) : KvOp :=
  if name = bytes "SET" then .set else if name = bytes "DEL" then .del else .none

def findPeer (node : RaftNode) (id : ℕ) : Option Peer := node.peers.find? fun p => p.id = id

/-- An assignment through the pointer that `find_peer` returns: to the first peer with the id. -/
def modifyPeer (f : Peer → Peer) (id : ℕ) : List Peer → List Peer
  | [] => []
  | p :: ps => if p.id = id then f p :: ps else p :: modifyPeer f id ps

/-- A field that `f` keeps for the peers of the id. -/
theorem map_modifyPeer {β : Type*} {f : Peer → Peer} {g : Peer → β} {id : ℕ} {ps : List Peer}
    (h : ∀ p ∈ ps, p.id = id → g (f p) = g p) : (modifyPeer f id ps).map g = ps.map g := by
  induction ps with
  | nil => rfl
  | cons p ps ih =>
    rw [modifyPeer]
    split
    · rename_i hp
      rw [List.map_cons, List.map_cons, h p List.mem_cons_self hp]
    · rw [List.map_cons, List.map_cons, ih fun q hq => h q (List.mem_cons_of_mem p hq)]

theorem map_id_modifyPeer {f : Peer → Peer} (hf : ∀ p, (f p).id = p.id) (id : ℕ) (ps : List Peer) :
    (modifyPeer f id ps).map (fun p => p.id) = ps.map fun p => p.id :=
  map_modifyPeer fun p _ _ => hf p

theorem length_modifyPeer (f : Peer → Peer) (id : ℕ) (ps : List Peer) :
    (modifyPeer f id ps).length = ps.length := by
  induction ps with
  | nil => rfl
  | cons p ps ih =>
    rw [modifyPeer]
    split
    · rfl
    · exact congrArg Nat.succ ih

theorem mem_modifyPeer {f : Peer → Peer} {id : ℕ} {ps : List Peer} {p : Peer}
    (h : p ∈ modifyPeer f id ps) : p ∈ ps ∨ ∃ q ∈ ps, q.id = id ∧ p = f q := by
  induction ps with
  | nil => cases h
  | cons q ps ih =>
    rw [modifyPeer] at h
    split at h
    · rename_i hq
      rcases List.mem_cons.mp h with rfl | h
      · exact Or.inr ⟨q, List.mem_cons_self, hq, rfl⟩
      · exact Or.inl (List.mem_cons_of_mem _ h)
    · rcases List.mem_cons.mp h with rfl | h
      · exact Or.inl List.mem_cons_self
      · rcases ih h with h | ⟨r, hr, h1, h2⟩
        · exact Or.inl (List.mem_cons_of_mem _ h)
        · exact Or.inr ⟨r, List.mem_cons_of_mem _ hr, h1, h2⟩

theorem find_modifyPeer {f : Peer → Peer} (hf : ∀ p, (f p).id = p.id) (id : ℕ) (ps : List Peer) :
    (modifyPeer f id ps).find? (fun p => p.id = id) = (ps.find? fun p => p.id = id).map f := by
  induction ps with
  | nil => rfl
  | cons p ps ih =>
    rw [modifyPeer]
    by_cases hp : p.id = id
    · rw [if_pos hp, List.find?_cons_of_pos (by simpa [hf] using hp),
        List.find?_cons_of_pos (by simpa using hp)]
      rfl
    · rw [if_neg hp, List.find?_cons_of_neg (by simpa using hp),
        List.find?_cons_of_neg (by simpa using hp), ih]

/-- An assignment that leaves the found peer as it is. -/
theorem modifyPeer_eq_self {f : Peer → Peer} {id : ℕ} {ps : List Peer} {peer : Peer}
    (found : ps.find? (fun p => p.id = id) = some peer) (h : f peer = peer) :
    modifyPeer f id ps = ps := by
  induction ps with
  | nil => rfl
  | cons p ps ih =>
    rw [modifyPeer]
    by_cases hp : p.id = id
    · rw [List.find?_cons_of_pos (by simpa using hp)] at found
      obtain rfl := Option.some.inj found
      rw [if_pos hp, h]
    · rw [List.find?_cons_of_neg (by simpa using hp)] at found
      rw [if_neg hp, ih found]

def addPeerLocked (node : RaftNode) (id : ℕ) (host : Text) (port : ℕ) : ℤ × RaftNode :=
  if id = 0 ∨ id = node.id ∨ host = [] ∨ port = 0 then (-1, node)
  else if (findPeer node id).isSome then
    let assign (p : Peer) : Peer := { p with host := copyText 64 host, port }
    (0, { node with peers := modifyPeer assign id node.peers })
  else if raftMaxPeers ≤ node.peerCount then (-2, node)
  else
    let peer : Peer :=
      { id, host := copyText 64 host, port, nextIndex := toInt32 node.logCount + 1,
        matchIndex := 0 }
    (1, { node with peers := node.peers ++ [peer] })

def removePeerLocked (node : RaftNode) (id : ℕ) : ℤ × RaftNode :=
  if id = 0 ∨ id = node.id then (-1, node)
  else if (findPeer node id).isSome then
    let node := { node with peers := node.peers.eraseP fun p => p.id = id }
    let node := if node.votedFor = toInt32 id then { node with votedFor := -1 } else node
    let node :=
      if node.leaderId = toInt32 id then { node with leaderId := -1, lastLeaderContactMs := 0 }
      else node
    (1, node)
  else (0, node)

def majorityCount (node : RaftNode) : ℤ := ((node.peerCount + 1) / 2 : ℕ) + 1

def lastLogIndexLocked (node : RaftNode) : ℕ := node.logCount

def lastLogTermLocked (node : RaftNode) : ℕ := (node.log.getLast?.map (·.term)).getD 0

/-- The timeout chosen at time `now`. -/
def randomElectionTimeout (node : RaftNode) (now : ℕ) : ℕ :=
  900 + node.id * 137 % 2 ^ 32 % 300 + now % 500

/-- The loop of `kv_apply` over the slots from `i` on: the first used slot with the key, and the
first free slot before it. -/
def kvScan (key : Text) : List KvItem → ℕ → Option ℕ → Option ℕ × Option ℕ
  | [], _, free => (none, free)
  | item :: items, i, free =>
    if item.used && item.key == key then (some i, free)
    else kvScan key items (i + 1) (if free = none ∧ item.used = false then some i else free)

/-- An assignment to slot `i`. -/
def KvStore.setItem (store : KvStore) (i : ℕ) (item : KvItem) : KvStore :=
  { store with items := store.items.set i item
               length_items := by rw [List.length_set, store.length_items] }

def kvApply (store : KvStore) (op : KvOp) (key value : Text) : ℤ × KvStore :=
  if !isValidToken key raftMaxKey then (-2, store)
  else if op = .set && !isValidToken value raftMaxValue then (-2, store)
  else if op ≠ .set ∧ op ≠ .del then (-3, store)
  else match kvScan key store.items 0 none with
    | (some i, _) =>
      if op = .del then (0, { store.setItem i KvItem.zero with count := store.count - 1 })
      else
        let item := store.items.getD i KvItem.zero
        (0, store.setItem i { item with value := copyText raftMaxValue value })
    | (none, free) =>
      if op = .del then (0, store)
      else match free with
        | none => (-4, store)
        | some i =>
          (0, { store.setItem i ⟨copyText raftMaxKey key, copyText raftMaxValue value, true⟩ with
                count := store.count + 1 })

/-- The value of `key`, cut to `outSize - 1` bytes; `-1` when it is not found. -/
def kvGet (store : KvStore) (key : Text) (outSize : ℕ) : Except ℤ Text :=
  if !isValidToken key raftMaxKey || outSize = 0 then .error (-2)
  else match store.items.find? fun item => item.used && item.key == key with
    | some item => .ok (copyText outSize item.value)
    | none => .error (-1)

end RaftKv
