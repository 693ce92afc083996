import RaftKv.Table

/-! The command line of a node, `src/node.cpp`, and the peer table it starts with.
`raft_config_parse` does not look at the peers that are already there, nor at the own id, which an
argument after a `--peer` can still change, so the table is in order exactly when the arguments
are. -/

namespace RaftKv

open Runs Stdio

def raftConfigInit : RaftConfig := { id := 1, host := bytes "127.0.0.1", port := 9001, peers := [] }

/-- The values that `sscanf(text, "%u:%63[^:]:%u", &id, host, &port)` stores, when it stores all
three. -/
def peerFields (text : Text) : Option (ℕ × Text × ℕ) := do
  let (id, text) ← scanUnsigned text
  let text ← scanByte 58 text
  let (host, text) ← scanUntil 63 58 text
  let text ← scanByte 58 text
  let (port, _) ← scanUnsigned text
  some (id, host, port)

def parsePeer (text : Text) : Except ℤ Peer :=
  match peerFields text with
  | none => .error (-1)
  | some (id, host, port) =>
    if id = 0 ∨ 65535 < port then .error (-2)
    else .ok { id, host := copyText 64 host, port, nextIndex := 1, matchIndex := 0 }

/-- The loop of `raft_config_parse` over the arguments after the program's name.  A path for the log
and a number of workers are not part of the model. -/
def parseArguments (config : RaftConfig) : List Text → Except ℤ RaftConfig
  | [] => .ok config
  | [_] => .error (-3)
  | name :: value :: args =>
    if name = bytes "--id" then parseArguments { config with id := strtoulText value } args
    else if name = bytes "--host" then
      parseArguments { config with host := copyText 64 value } args
    else if name = bytes "--port" then
      parseArguments { config with port := strtoulText value % 2 ^ 16 } args
    else if name = bytes "--peer" then
      if raftMaxPeers ≤ config.peers.length then .error (-2)
      else match parsePeer value with
        | .ok peer => parseArguments { config with peers := config.peers ++ [peer] } args
        | .error _ => .error (-2)
    else if name = bytes "--log" ∨ name = bytes "--workers" then parseArguments config args
    else .error (-3)

def raftConfigParse (config : RaftConfig) (args : List Text) : Except ℤ RaftConfig :=
  match parseArguments config args with
  | .ok config => if config.id = 0 ∨ config.port = 0 then .error (-4) else .ok config
  | .error rc => .error rc

/-- The values of an option, in order. -/
def optionValues (name : Text) : List Text → List Text
  | n :: value :: args =>
    if n = name then value :: optionValues name args else optionValues name args
  | _ => []

/-- The fields of the peers that the arguments list. -/
def listedPeers (args : List Text) : List (ℕ × Text × ℕ) :=
  (optionValues (bytes "--peer") args).filterMap peerFields

/-- The id of the node after the arguments, when it is `id` before them. -/
def lastId (id : ℕ) (args : List Text) : ℕ :=
  ((optionValues (bytes "--id") args).getLast?.map strtoulText).getD id

/-- No two `--peer` arguments have the same id, none has the id of the node, and none has port 0. -/
structure PeersDistinct (args : List Text) : Prop where
  nodup : ((listedPeers args).map fun c => c.1).Nodup
  others : ∀ c ∈ listedPeers args, c.1 ≠ lastId raftConfigInit.id args
  ports : ∀ c ∈ listedPeers args, c.2.2 ≠ 0

variable {args : List Text} {config config' : RaftConfig}

/-! ### What the arguments give -/

theorem peerFields_host {text : Text} {c : ℕ × Text × ℕ} (h : peerFields text = some c) :
    c.2.1 ≠ [] ∧ c.2.1.length ≤ 63 := by
  obtain ⟨⟨id, t1⟩, -, h⟩ := Option.bind_eq_some_iff.mp h
  obtain ⟨t2, -, h⟩ := Option.bind_eq_some_iff.mp h
  obtain ⟨⟨host, t3⟩, hhost, h⟩ := Option.bind_eq_some_iff.mp h
  obtain ⟨t4, -, h⟩ := Option.bind_eq_some_iff.mp h
  obtain ⟨⟨port, t5⟩, -, h⟩ := Option.bind_eq_some_iff.mp h
  obtain rfl := Option.some.inj h
  simp only [scanUntil] at hhost
  split at hhost
  · cases hhost
  · rename_i hne
    obtain ⟨rfl, -⟩ := Prod.mk.inj (Option.some.inj hhost)
    exact ⟨hne, List.length_take_le _ _⟩

/-- A peer that is accepted has the fields of its argument. -/
theorem parsePeer_contact {text : Text} {peer : Peer} (h : parsePeer text = .ok peer) :
    peerFields text = some peer.contact ∧ peer.id ≠ 0 := by
  unfold parsePeer at h
  split at h
  · cases h
  · rename_i id host port hfields
    split at h
    · cases h
    · rename_i hbad
      obtain ⟨-, hlength⟩ := peerFields_host hfields
      obtain rfl := Except.ok.inj h
      rw [hfields, Peer.contact, copyText, List.take_of_length_le hlength]
      exact ⟨rfl, fun hid => hbad (Or.inl hid)⟩

theorem optionValues_cons (name n value : Text) (args : List Text) :
    optionValues name (n :: value :: args) =
      if n = name then value :: optionValues name args else optionValues name args := rfl

theorem listedPeers_of_ne {name : Text} (h : name ≠ bytes "--peer") (value : Text)
    (args : List Text) : listedPeers (name :: value :: args) = listedPeers args := by
  rw [listedPeers, optionValues_cons, if_neg h, listedPeers]

theorem listedPeers_peer {value : Text} {c : ℕ × Text × ℕ} (h : peerFields value = some c)
    (args : List Text) : listedPeers (bytes "--peer" :: value :: args) = c :: listedPeers args := by
  rw [listedPeers, optionValues_cons, if_pos rfl, List.filterMap_cons_some h, listedPeers]

theorem lastId_of_ne {name : Text} (h : name ≠ bytes "--id") (id : ℕ) (value : Text)
    (args : List Text) : lastId id (name :: value :: args) = lastId id args := by
  rw [lastId, optionValues_cons, if_neg h, lastId]

theorem lastId_id (id : ℕ) (value : Text) (args : List Text) :
    lastId id (bytes "--id" :: value :: args) = lastId (strtoulText value) args := by
  rw [lastId, optionValues_cons, if_pos rfl, List.getLast?_cons, lastId]
  cases (optionValues (bytes "--id") args).getLast? <;> rfl

/-- What the loop makes of the id and of the peers. -/
structure Parsed (config : RaftConfig) (args : List Text) (config' : RaftConfig) : Prop where
  id : config'.id = lastId config.id args
  peers : config'.peers.map Peer.contact = config.peers.map Peer.contact ++ listedPeers args
  room : config.peers.length ≤ raftMaxPeers → config'.peers.length ≤ raftMaxPeers
  id_ne : (∀ p ∈ config.peers, p.id ≠ 0) → ∀ p ∈ config'.peers, p.id ≠ 0

theorem Parsed.skip {name : Text} (h : Parsed config args config') (value : Text)
    (hid : name ≠ bytes "--id") (hpeer : name ≠ bytes "--peer") :
    Parsed config (name :: value :: args) config' :=
  ⟨by rw [lastId_of_ne hid, h.id], by rw [listedPeers_of_ne hpeer, h.peers], h.room, h.id_ne⟩

theorem Parsed.take_peer {value : Text} {peer : Peer} (hroom : ¬raftMaxPeers ≤ config.peers.length)
    (hpeer : parsePeer value = .ok peer)
    (h : Parsed { config with peers := config.peers ++ [peer] } args config') :
    Parsed config (bytes "--peer" :: value :: args) config' := by
  obtain ⟨hfields, hid⟩ := parsePeer_contact hpeer
  refine ⟨?_, ?_, ?_, ?_⟩
  · rw [lastId_of_ne (by decide), h.id]
  · rw [h.peers, listedPeers_peer hfields, List.map_append, List.append_assoc]
    rfl
  · intro _
    apply h.room
    rw [List.length_append, List.length_singleton]
    omega
  · intro hne
    apply h.id_ne
    intro p hp
    rcases List.mem_append.mp hp with hp | hp
    · exact hne p hp
    · rw [List.mem_singleton.mp hp]
      exact hid

theorem parsed (h : parseArguments config args = .ok config') : Parsed config args config' := by
  induction config, args using parseArguments.induct with
  | case1 config =>
    obtain rfl := Except.ok.inj h
    exact ⟨rfl, (List.append_nil _).symm, id, id⟩
  | case2 config arg => cases h
  | case3 config value args ih =>
    rw [parseArguments, if_pos rfl] at h
    have hp := ih h
    exact ⟨by rw [lastId_id, hp.id], by rw [listedPeers_of_ne (by decide), hp.peers], hp.room,
      hp.id_ne⟩
  | case4 config value args h1 ih =>
    rw [parseArguments, if_neg h1, if_pos rfl] at h
    obtain ⟨hid, hpeers, hroom, hne⟩ := (ih h).skip value h1 (by decide)
    exact ⟨hid, hpeers, hroom, hne⟩
  | case5 config value args h1 h2 ih =>
    rw [parseArguments, if_neg h1, if_neg h2, if_pos rfl] at h
    obtain ⟨hid, hpeers, hroom, hne⟩ := (ih h).skip value h1 (by decide)
    exact ⟨hid, hpeers, hroom, hne⟩
  | case6 config value args hfull h1 h2 h3 =>
    rw [parseArguments, if_neg h1, if_neg h2, if_neg h3, if_pos rfl, if_pos hfull] at h
    cases h
  | case7 config value args hroom peer hpeer h1 h2 h3 ih =>
    rw [parseArguments, if_neg h1, if_neg h2, if_neg h3, if_pos rfl, if_neg hroom, hpeer] at h
    exact (ih h).take_peer hroom hpeer
  | case8 config value args hroom rc hpeer h1 h2 h3 =>
    rw [parseArguments, if_neg h1, if_neg h2, if_neg h3, if_pos rfl, if_neg hroom, hpeer] at h
    cases h
  | case9 config name value args h1 h2 h3 h4 h5 ih =>
    rw [parseArguments, if_neg h1, if_neg h2, if_neg h3, if_neg h4, if_pos h5] at h
    exact (ih h).skip value h1 h4
  | case10 config name value args h1 h2 h3 h4 h5 =>
    rw [parseArguments, if_neg h1, if_neg h2, if_neg h3, if_neg h4, if_neg h5] at h
    cases h

/-! ### The table -/

/-- A node starts with a table in order exactly when its arguments are. -/
theorem tableOk_init (h : raftConfigParse raftConfigInit args = .ok config) (now : ℕ) :
    TableOk (raftNodeInit now config) ↔ PeersDistinct args := by
  unfold raftConfigParse at h
  split at h
  · rename_i c hargs
    split at h
    · cases h
    · obtain rfl := Except.ok.inj h
      have hp := parsed hargs
      have htable : (raftNodeInit now c).table = listedPeers args := hp.peers
      have hid : (raftNodeInit now c).id = lastId raftConfigInit.id args := hp.id
      constructor
      · intro ok
        refine ⟨htable ▸ ok.nodup, fun l hl => ?_, fun l hl => ?_⟩
        · rw [← hid]
          exact (ok.id_ne l (htable ▸ hl)).2
        · exact (ok.address l (htable ▸ hl)).2
      · intro distinct
        refine ⟨htable ▸ distinct.nodup, ?_, ?_, ?_⟩
        · intro l hl
          refine ⟨?_, hid ▸ distinct.others l (htable ▸ hl)⟩
          obtain ⟨p, hmem, rfl⟩ := List.mem_map.mp hl
          exact hp.id_ne (fun _ h => absurd h List.not_mem_nil) p hmem
        · intro l hl
          rw [htable] at hl
          obtain ⟨value, -, hfields⟩ := List.mem_filterMap.mp hl
          exact ⟨(peerFields_host hfields).1, distinct.ports l hl⟩
        · rw [RaftNode.length_table]
          exact hp.room (Nat.zero_le _)
  · cases h

/-- In every run of a node that starts with accepted arguments the peer table is in order, and
`majority_count` counts the members, exactly when the arguments list distinct peers other than the
node itself, none with port 0. -/
theorem config_table_iff (accepted : raftConfigParse raftConfigInit args = .ok config) (now : ℕ) :
    (∀ x, Reach RaftNode.step (fun _ a => a.2.Enterable) (raftNodeInit now config) x →
      TableOk x ∧ x.members.card = x.peerCount + 1) ↔ PeersDistinct args := by
  rw [← tableOk_init accepted now]
  constructor
  · intro h
    exact (h _ .refl).1
  · intro h x run
    have ok := h.run run
    exact ⟨ok, ok.card_members⟩

theorem exists_config (h : (raftConfigParse raftConfigInit args).isOk = true) :
    ∃ config, raftConfigParse raftConfigInit args = .ok config := by
  cases hparse : raftConfigParse raftConfigInit args with
  | ok config => exact ⟨config, rfl⟩
  | error rc =>
    rw [hparse] at h
    cases h

def demoArguments : List Text :=
  ["--id", "1", "--port", "9001", "--peer", "2:127.0.0.1:9002", "--peer", "3:127.0.0.1:9003"].map
    bytes

theorem config_table_demo : ∃ config, raftConfigParse raftConfigInit demoArguments = .ok config ∧
    ∀ x, Reach RaftNode.step (fun _ a => a.2.Enterable) (raftNodeInit 0 config) x →
      TableOk x ∧ x.members.card = x.peerCount + 1 := by
  obtain ⟨config, hparse⟩ := @exists_config demoArguments (by decide +kernel)
  exact ⟨config, hparse, (config_table_iff hparse 0).mpr
    ⟨by decide +kernel, by decide +kernel, by decide +kernel⟩⟩

/-- Two `--peer` arguments with the same id are both accepted. -/
theorem config_table_repeats : ¬∀ (args : List Text) (config : RaftConfig),
    raftConfigParse raftConfigInit args = .ok config → ∀ (now : ℕ) (x : RaftNode),
    Reach RaftNode.step (fun _ a => a.2.Enterable) (raftNodeInit now config) x →
    TableOk x ∧ x.members.card = x.peerCount + 1 := by
  intro h
  let args := ["--peer", "2:127.0.0.1:9002", "--peer", "2:127.0.0.1:9002"].map bytes
  obtain ⟨config, hparse⟩ := @exists_config args (by decide +kernel)
  have hdistinct := (tableOk_init hparse 0).mp (h args config hparse 0 _ .refl).1
  exact absurd hdistinct.nodup (by decide +kernel)

end RaftKv
