import RaftKv.BoundedMap
import RaftKv.PeerArray

/-! The peer table as a finite map from ids, of at most 16 entries.  Whatever is added and removed,
the array is that map, entry by entry and in order. -/

namespace RaftKv

open Stdio

attribute [local irreducible] toInt32

/-- What the table has for an id. -/
structure PeerFields where
  host : Text
  port : ℕ
  nextIndex : ℤ
  matchIndex : ℤ

abbrev PeerMap : Type := BoundedMap ℕ PeerFields raftMaxPeers

/-- A call on the map: its result, and the map after it. -/
inductive MapStep (own logCount : ℕ) (m : PeerMap) : TableCall → ℤ → PeerMap → Prop
  | invalid {id port : ℕ} {host : Text} (bad : id = 0 ∨ id = own ∨ host = [] ∨ port = 0) :
      MapStep own logCount m (.add id host port) (-1) m
  | known {id port : ℕ} {host : Text} {v : PeerFields} {m' : PeerMap}
      (good : ¬(id = 0 ∨ id = own ∨ host = [] ∨ port = 0)) (old : m.lookup id = some v)
      (keys : m'.keys = m.keys) (entry : m'.lookup id = some { v with host, port })
      (others : ∀ k, k ≠ id → m'.lookup k = m.lookup k) :
      MapStep own logCount m (.add id host port) 0 m'
  | full {id port : ℕ} {host : Text} (good : ¬(id = 0 ∨ id = own ∨ host = [] ∨ port = 0))
      (new : m.lookup id = none) (room : m.keys.length = raftMaxPeers) :
      MapStep own logCount m (.add id host port) (-2) m
  | added {id port : ℕ} {host : Text} {m' : PeerMap}
      (good : ¬(id = 0 ∨ id = own ∨ host = [] ∨ port = 0)) (new : m.lookup id = none)
      (room : m.keys.length < raftMaxPeers) (keys : m'.keys = m.keys ++ [id])
      (entry : m'.lookup id = some ⟨host, port, logCount + 1, 0⟩)
      (others : ∀ k, k ≠ id → m'.lookup k = m.lookup k) :
      MapStep own logCount m (.add id host port) 1 m'
  | refused {id : ℕ} (bad : id = 0 ∨ id = own) : MapStep own logCount m (.remove id) (-1) m
  | unknown {id : ℕ} (good : ¬(id = 0 ∨ id = own)) (new : m.lookup id = none) :
      MapStep own logCount m (.remove id) 0 m
  | removed {id : ℕ} {m' : PeerMap} (good : ¬(id = 0 ∨ id = own)) (old : (m.lookup id).isSome)
      (keys : m'.keys = m.keys.erase id) (entry : m'.lookup id = none)
      (others : ∀ k, k ≠ id → m'.lookup k = m.lookup k) :
      MapStep own logCount m (.remove id) 1 m'

/-- Calls on the map, one after another. -/
inductive MapRun (own logCount : ℕ) : PeerMap → List TableCall → List ℤ → PeerMap → Prop
  | nil (m : PeerMap) : MapRun own logCount m [] [] m
  | cons {m m1 m2 : PeerMap} {c : TableCall} {cs : List TableCall} {r : ℤ} {rs : List ℤ}
      (step : MapStep own logCount m c r m1) (run : MapRun own logCount m1 cs rs m2) :
      MapRun own logCount m (c :: cs) (r :: rs) m2

/-- A host of the call fits into its field. -/
def TableCall.HostFits : TableCall → Prop
  | .add _ host _ => host.length ≤ 63
  | .remove _ => True

/-- The results of calls on the array, and the array after them. -/
def PeerArray.run (t : PeerArray) : List TableCall → List ℤ × PeerArray
  | [] => ([], t)
  | c :: cs => ((t.call c).1 :: ((t.call c).2.run cs).1, ((t.call c).2.run cs).2)

def PeerArray.Distinct (t : PeerArray) : Prop := (t.used.map fun p => p.id).Nodup

instance (t : PeerArray) : Decidable t.Distinct := inferInstanceAs (Decidable (List.Nodup _))

def Peer.fields (p : Peer) : PeerFields := ⟨p.host, p.port, p.nextIndex, p.matchIndex⟩

def Peer.entry (p : Peer) : Sigma fun _ : ℕ => PeerFields := ⟨p.id, p.fields⟩

theorem keys_entries (ps : List Peer) : (ps.map Peer.entry).keys = ps.map fun p => p.id := by
  rw [List.keys, List.map_map]
  rfl

/-- The map that a table with distinct ids is. -/
def PeerArray.toMap (t : PeerArray) (h : t.Distinct) : PeerMap where
  list := ⟨t.used.map Peer.entry, by rwa [List.NodupKeys, keys_entries]⟩
  room := by
    rw [AList.keys_mk, keys_entries, List.length_map, length_used]
    exact t.count_le

variable {t t' : PeerArray} {peerId i : ℕ} {peer : Peer}

/-! ### One call -/

theorem keys_toMap (h : t.Distinct) : (t.toMap h).keys = t.used.map fun p => p.id :=
  keys_entries t.used

theorem length_keys (h : t.Distinct) : (t.toMap h).keys.length = t.peerCount := by
  rw [keys_toMap, List.length_map, length_used]

theorem lookup_none (h : t.Distinct) (new : t.used.findIdx? (fun p => p.id = peerId) = none) :
    (t.toMap h).lookup peerId = none := by
  rw [← Option.not_isSome_iff_eq_none, BoundedMap.lookup_isSome, keys_toMap, List.mem_map]
  rintro ⟨p, hp, hid⟩
  exact absurd hid (of_decide_eq_false (List.findIdx?_eq_none_iff.mp new p hp))

theorem lookup_some (h : t.Distinct) (hp : peer ∈ t.used) :
    (t.toMap h).lookup peer.id = some peer.fields :=
  AList.mem_lookup_iff.mpr (List.mem_map_of_mem hp)

/-- The slot that `find_peer` finds has the id. -/
theorem id_of_found {ps : List Peer} (found : ps.findIdx? (fun p => p.id = peerId) = some i)
    (got : ps[i]? = some peer) : peer.id = peerId := by
  obtain ⟨hlt, hid, -⟩ := List.findIdx?_eq_some_iff_getElem.mp found
  rw [List.getElem?_eq_getElem hlt] at got
  rw [← Option.some.inj got]
  exact of_decide_eq_true hid

theorem map_entry_other (f : PeerFields → PeerFields) {p : Peer} (h : p.id ≠ peerId) :
    Sigma.map id (fun k v => if k = peerId then f v else v) p.entry = p.entry := by
  change (⟨p.id, if p.id = peerId then f p.fields else p.fields⟩ : Sigma fun _ => PeerFields) = _
  rw [if_neg h]
  rfl

/-- An assignment to the entry of an id, among distinct ids. -/
theorem entries_set {ps : List Peer} (h : (ps.map fun p => p.id).Nodup)
    (got : ps[i]? = some peer) (f : PeerFields → PeerFields) {new : Peer}
    (hnew : new.entry = ⟨peer.id, f peer.fields⟩) :
    (ps.set i new).map Peer.entry =
      (ps.map Peer.entry).map (Sigma.map id fun k v => if k = peer.id then f v else v) := by
  rw [List.map_map]
  induction ps generalizing i with
  | nil => cases got
  | cons p ps ih =>
    rw [List.map_cons, List.nodup_cons] at h
    obtain ⟨habsent, h⟩ := h
    cases i with
    | zero =>
      obtain rfl := Option.some.inj got
      have hrest : ∀ q ∈ ps, q.entry =
          (Sigma.map id (fun k v => if k = p.id then f v else v) ∘ Peer.entry) q := fun q hq =>
        (map_entry_other f fun heq => habsent (List.mem_map.mpr ⟨q, hq, heq⟩)).symm
      have hfirst : (⟨p.id, f p.fields⟩ : Sigma fun _ => PeerFields) =
          ⟨p.id, if p.id = p.id then f p.fields else p.fields⟩ := by
        rw [if_pos rfl]
      rw [List.set_cons_zero, List.map_cons, List.map_cons, hnew, hfirst, List.map_congr_left hrest]
      rfl
    | succ i =>
      have hne : p.id ≠ peer.id := fun heq =>
        habsent (List.mem_map.mpr ⟨peer, List.mem_of_getElem? got, heq.symm⟩)
      rw [List.set_cons_succ, List.map_cons, List.map_cons, ih h got, Function.comp_apply,
        map_entry_other f hne]

theorem toMap_set (h : t.Distinct) (got : t.used[i]? = some peer) (f : PeerFields → PeerFields)
    {new : Peer} (hnew : new.entry = ⟨peer.id, f peer.fields⟩)
    (hused : t'.used = t.used.set i new) :
    ∃ h' : t'.Distinct, t'.toMap h' = (t.toMap h).modify peer.id f := by
  have hentries := entries_set h got f hnew
  have hids : (t'.used.map fun p => p.id) = t.used.map fun p => p.id := by
    rw [← keys_entries, ← keys_entries, hused, hentries]
    exact List.map₂_keys _ _
  refine ⟨by rwa [PeerArray.Distinct, hids], BoundedMap.ext_entries ?_⟩
  rw [← hused] at hentries
  exact hentries

theorem toMap_append (h : t.Distinct) (new : (t.toMap h).lookup peer.id = none)
    (room : (t.toMap h).keys.length < raftMaxPeers) (hused : t'.used = t.used ++ [peer]) :
    ∃ h' : t'.Distinct, t'.toMap h' = (t.toMap h).append peer.id peer.fields new room := by
  have hentries : t'.used.map Peer.entry = t.used.map Peer.entry ++ [peer.entry] := by
    rw [hused, List.map_append]
    rfl
  have hkeys := BoundedMap.keys_append (t.toMap h) new room (v := peer.fields)
  have hdistinct : t'.Distinct := by
    rw [PeerArray.Distinct, hused, List.map_append, ← keys_toMap h]
    exact hkeys ▸ ((t.toMap h).append peer.id peer.fields new room).list.keys_nodup
  exact ⟨hdistinct, BoundedMap.ext_entries hentries⟩

theorem toMap_erase (h : t.Distinct) (found : t.used.findIdx? (fun p => p.id = peerId) = some i)
    (hused : t'.used = t.used.eraseIdx i) :
    ∃ h' : t'.Distinct, t'.toMap h' = (t.toMap h).erase peerId := by
  have herase : t'.used = t.used.eraseP fun p => p.id = peerId := by
    rw [List.eraseP_eq_eraseIdx, found, hused]
  have hdistinct : t'.Distinct :=
    h.sublist (herase ▸ List.eraseP_sublist.map _)
  refine ⟨hdistinct, BoundedMap.ext_entries ?_⟩
  change t'.used.map Peer.entry = (t.used.map Peer.entry).kerase peerId
  rw [List.kerase, List.eraseP_map, herase]
  congr 2
  funext p
  exact decide_eq_decide.mpr eq_comm

theorem toMap_same (h : t.Distinct) (hused : t'.used = t.used) :
    ∃ h' : t'.Distinct, t'.toMap h' = t.toMap h :=
  ⟨by rwa [PeerArray.Distinct, hused],
    BoundedMap.ext_entries (congrArg (List.map Peer.entry) hused)⟩

/-- A call on the array is one on the map. -/
theorem mapStep_of_turn (h : t.Distinct) {c : TableCall} {r : ℤ} {used : List Peer}
    (turn : CallTurn t c r used) (hused : t'.used = used) (host : c.HostFits) :
    ∃ h' : t'.Distinct, MapStep t.id t.logCount (t.toMap h) c r (t'.toMap h') := by
  cases turn with
  | invalid bad =>
    obtain ⟨h', heq⟩ := toMap_same h hused
    exact ⟨h', heq ▸ .invalid bad⟩
  | @known id port i host' peer good found got =>
    have hid := id_of_found found got
    have hhost : copyText 64 host' = host' := List.take_of_length_le host
    subst hid
    obtain ⟨h', heq⟩ := toMap_set h got
      (fun v => { v with host := copyText 64 host', port }) rfl hused
    have old := lookup_some h (List.mem_of_getElem? got)
    refine ⟨h', .known good old ?_ ?_ ?_⟩
    · rw [heq, BoundedMap.keys_modify]
    · rw [heq, BoundedMap.lookup_modify, old, hhost]
      rfl
    · intro k hk
      rw [heq, BoundedMap.lookup_modify_ne _ hk]
  | full good new room =>
    obtain ⟨h', heq⟩ := toMap_same h hused
    refine ⟨h', ?_⟩
    rw [heq]
    refine .full good (lookup_none h new) ?_
    rw [length_keys]
    exact le_antisymm t.count_le room
  | @added id port host' good new room =>
    have hhost : copyText 64 host' = host' := List.take_of_length_le host
    have hlog : toInt32 t.logCount = t.logCount :=
      toInt32_of_lt (t.log_le.trans_lt (by decide))
    have hnew := lookup_none h new
    have hroom : (t.toMap h).keys.length < raftMaxPeers := by
      rw [length_keys]
      exact room
    rw [hhost, hlog] at hused
    obtain ⟨h', heq⟩ := @toMap_append _ _ ⟨id, host', port, t.logCount + 1, 0⟩ h hnew hroom hused
    refine ⟨h', .added good hnew hroom ?_ ?_ ?_⟩
    · rw [heq, BoundedMap.keys_append]
    · rw [heq, BoundedMap.lookup_append]
      rfl
    · intro k hk
      rw [heq, BoundedMap.lookup_append_ne _ _ _ hk]
  | refused bad =>
    obtain ⟨h', heq⟩ := toMap_same h hused
    exact ⟨h', heq ▸ .refused bad⟩
  | unknown good new =>
    obtain ⟨h', heq⟩ := toMap_same h hused
    refine ⟨h', ?_⟩
    rw [heq]
    exact .unknown good (lookup_none h new)
  | @removed id i good found =>
    obtain ⟨h', heq⟩ := toMap_erase h found hused
    obtain ⟨hlt, hid, -⟩ := List.findIdx?_eq_some_iff_getElem.mp found
    have old := lookup_some h (List.getElem_mem hlt)
    rw [of_decide_eq_true hid] at old
    refine ⟨h', .removed good (Option.isSome_of_eq_some old) ?_ ?_ ?_⟩
    · rw [heq, BoundedMap.keys_erase]
    · rw [heq, BoundedMap.lookup_erase]
    · intro k hk
      rw [heq, BoundedMap.lookup_erase_ne _ hk]

/-! ### Runs -/

theorem call_keeps (t : PeerArray) (c : TableCall) :
    (t.call c).2.id = t.id ∧ (t.call c).2.logCount = t.logCount := by
  have turn := call_slotTurn t c
  generalize (t.call c).2 = t' at turn ⊢
  cases turn <;> exact ⟨rfl, rfl⟩

theorem mapRun (h : t.Distinct) (calls : List TableCall) (hosts : ∀ c ∈ calls, c.HostFits) :
    ∃ h' : (t.run calls).2.Distinct,
      MapRun t.id t.logCount (t.toMap h) calls (t.run calls).1 ((t.run calls).2.toMap h') := by
  induction calls generalizing t with
  | nil => exact ⟨h, .nil _⟩
  | cons c cs ih =>
    obtain ⟨h1, step⟩ := mapStep_of_turn h (call_turn t c) rfl (hosts c List.mem_cons_self)
    obtain ⟨h', run⟩ := ih h1 fun c' hc => hosts c' (List.mem_cons_of_mem c hc)
    obtain ⟨hid, hlog⟩ := call_keeps t c
    rw [hid, hlog] at run
    exact ⟨h', .cons step run⟩

theorem Cleared.run {k : ℕ} (h : Cleared t k) (calls : List TableCall) :
    Cleared (t.run calls).2 k := by
  induction calls generalizing t with
  | nil => exact h
  | cons c cs ih => exact ih (h.turn (call_slotTurn t c))

theorem run_append (t : PeerArray) (before after : List TableCall) :
    (t.run (before ++ after)).2 = ((t.run before).2.run after).2 := by
  induction before generalizing t with
  | nil => rfl
  | cons c cs ih => exact ih (t.call c).2

/-- The peer table refines a bounded finite map: from any table with distinct ids, any calls keep
the ids distinct, have the results and effects of the calls on the map, and leave a slot that was in
use cleared when it is not in use any more. -/
theorem peer_table_refines (distinct : t.Distinct) (calls : List TableCall)
    (hosts : ∀ c ∈ calls, c.HostFits) :
    (∃ distinct' : (t.run calls).2.Distinct, MapRun t.id t.logCount (t.toMap distinct) calls
      (t.run calls).1 ((t.run calls).2.toMap distinct')) ∧
    ∀ before after k, calls = before ++ after → k < (t.run before).2.peerCount →
      (t.run calls).2.peerCount ≤ k → (t.run calls).2.slots[k]? = some Peer.zero := by
  refine ⟨mapRun distinct calls hosts, ?_⟩
  rintro before after k rfl hused hfree
  rw [run_append] at hfree ⊢
  have hcleared : Cleared ((t.run before).2.run after).2 k := Cleared.run (Or.inl hused) after
  exact hcleared.resolve_left (by omega)

/-- The array of node 1 with `peers` in its first slots. -/
def demoArray (peers : List Peer) (h : peers.length ≤ raftMaxPeers) : PeerArray where
  id := 1
  slots := peers ++ List.replicate (raftMaxPeers - peers.length) Peer.zero
  peerCount := peers.length
  logCount := 0
  votedFor := -1
  leaderId := -1
  lastLeaderContactMs := 0
  length_slots := by
    rw [List.length_append, List.length_replicate]
    omega
  count_le := h
  log_le := Nat.zero_le _

/-- Node 1 with peers 2 and 3. -/
def pairArray : PeerArray := demoArray [trioPeer 2, trioPeer 3] (by decide)

/-- Peer 2 leaves, peer 4 joins, and peer 3 leaves. -/
def pairCalls : List TableCall := [.remove 2, .add 4 (bytes "127.0.0.1") 9004, .remove 3]

theorem peer_table_refines_pair :
    ∃ distinct distinct', MapRun 1 0 (pairArray.toMap distinct) pairCalls [1, 1, 1]
      ((pairArray.run pairCalls).2.toMap distinct') ∧
    (pairArray.run pairCalls).2.slots[1]? = some Peer.zero := by
  have distinct : pairArray.Distinct := by decide
  have hosts : ∀ c ∈ pairCalls, c.HostFits := by
    simp only [pairCalls, List.forall_mem_cons, TableCall.HostFits]
    exact ⟨trivial, by decide, trivial, fun c hc => by cases hc⟩
  have hresults : (pairArray.run pairCalls).1 = [1, 1, 1] := by decide +kernel
  have hcount : (pairArray.run pairCalls).2.peerCount = 1 := by decide +kernel
  obtain ⟨⟨distinct', run⟩, cleared⟩ := peer_table_refines distinct pairCalls hosts
  rw [hresults] at run
  exact ⟨distinct, distinct', run, cleared [] pairCalls 1 rfl (by decide) hcount.le⟩

/-- A node that lists itself does not remove that entry. -/
theorem own_entry_stays : ¬∀ (t : PeerArray), t.Distinct → ∀ id,
    ∃ distinct : (t.removePeerLocked id).2.Distinct,
      ((t.removePeerLocked id).2.toMap distinct).lookup id = none := by
  intro h
  obtain ⟨distinct, hnone⟩ := h (demoArray [trioPeer 1] (by decide)) (by decide) 1
  have hkept := @lookup_some _ (trioPeer 1) distinct (by decide)
  exact absurd (hnone.symm.trans hkept) (by simp)

end RaftKv
