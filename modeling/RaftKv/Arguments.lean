import RaftKv.Config

/-! The command line as a format for configurations.  The configurations that `raft_config_parse`
gives are those whose fields are in their ranges, and each of them has arguments of a fixed form
from which it is read back. -/

namespace Stdio

/-! ### Numbers at the start of a text -/

theorem strtoul_lt (negative : Bool) (ds : Text) : strtoul negative ds < 2 ^ 32 :=
  Nat.mod_lt _ (by norm_num)

theorem strtoulText_lt (t : Text) : strtoulText t < 2 ^ 32 := strtoul_lt _ _

/-- `strtoul` reads what `%u` reads. -/
theorem strtoulText_of_scan {t rest : Text} {n : ℕ} (h : scanUnsigned t = some (n, rest)) :
    strtoulText t = n := by
  unfold scanUnsigned at h
  dsimp only at h
  split at h
  · cases h
  · exact (Prod.mk.inj (Option.some.inj h)).1

theorem scanUnsigned_lt {t rest : Text} {n : ℕ} (h : scanUnsigned t = some (n, rest)) :
    n < 2 ^ 32 :=
  strtoulText_of_scan h ▸ strtoulText_lt t

/-- A number is read where it stands. -/
theorem scanUnsigned_decimal_append {n : ℕ} {rest : Text} (hn : n < 2 ^ 32) (h : Stops rest) :
    scanUnsigned (decimal n ++ rest) = some (n, rest) := by
  rw [← scanUnsigned_decimal hn h, scanUnsigned, scanUnsigned,
    List.dropWhile_cons_of_pos (by decide)]

theorem strtoulText_decimal {n : ℕ} (hn : n < 2 ^ 32) : strtoulText (decimal n) = n := by
  have h := @scanUnsigned_decimal_append n [] hn (by simp [Stops])
  rw [List.append_nil] at h
  exact strtoulText_of_scan h

/-- A text without the stop is read up to the stop. -/
theorem scanUntil_append {width : ℕ} {stop : UInt8} {t rest : Text} (hne : t ≠ [])
    (fits : t.length ≤ width) (ht : ∀ c ∈ t, c ≠ stop) :
    scanUntil width stop (t ++ stop :: rest) = some (t, stop :: rest) := by
  have hwhole : (t ++ stop :: rest).takeWhile (fun c => c ≠ stop) = t := by
    rw [List.takeWhile_append_of_pos fun c hc => by simpa using ht c hc]
    simp
  simp only [scanUntil, hwhole, List.take_of_length_le fits, if_neg hne, List.drop_left]

theorem scanUntil_some {width : ℕ} {stop : UInt8} {t token rest : Text}
    (h : scanUntil width stop t = some (token, rest)) :
    token ≠ [] ∧ token.length ≤ width ∧ ∀ c ∈ token, c ≠ stop := by
  simp only [scanUntil] at h
  split at h
  · cases h
  · rename_i hne
    obtain ⟨rfl, -⟩ := Prod.mk.inj (Option.some.inj h)
    refine ⟨hne, List.length_take_le _ _, fun c hc => ?_⟩
    simpa using List.mem_takeWhile_imp (List.mem_of_mem_take hc)

end Stdio

namespace RaftKv

open Stdio

/-! ### Configurations and their arguments -/

structure Peer.Proper (p : Peer) : Prop where
  id : p.id ≠ 0 ∧ p.id < 2 ^ 32
  host : p.host ≠ [] ∧ p.host.length ≤ 63 ∧ ∀ c ∈ p.host, c ≠ 58
  port : p.port ≤ 65535
  fresh : p.nextIndex = 1 ∧ p.matchIndex = 0

/-- The fields are in their ranges; those that the arguments may leave at 0 are apart. -/
structure RaftConfig.Bounded (config : RaftConfig) : Prop where
  id : config.id < 2 ^ 32
  host : config.host.length ≤ 63
  port : config.port < 2 ^ 16
  peers : ∀ p ∈ config.peers, p.Proper
  room : config.peers.length ≤ raftMaxPeers

structure RaftConfig.Proper (config : RaftConfig) : Prop extends config.Bounded where
  id_ne : config.id ≠ 0
  port_ne : config.port ≠ 0

/-- `ID:HOST:PORT`. -/
def Peer.argument (p : Peer) : Text := decimal p.id ++ 58 :: (p.host ++ 58 :: decimal p.port)

def peerArguments (peers : List Peer) : List Text :=
  peers.flatMap fun p => [bytes "--peer", p.argument]

def RaftConfig.arguments (config : RaftConfig) : List Text :=
  bytes "--id" :: decimal config.id :: bytes "--host" :: config.host :: bytes "--port" ::
    decimal config.port :: peerArguments config.peers

variable {config config' : RaftConfig} {args : List Text} {p : Peer}

/-! ### What is accepted -/

theorem peerFields_bounds {text : Text} {id port : ℕ} {host : Text}
    (h : peerFields text = some (id, host, port)) :
    id < 2 ^ 32 ∧ host ≠ [] ∧ host.length ≤ 63 ∧ ∀ c ∈ host, c ≠ 58 := by
  obtain ⟨⟨id', t1⟩, hid, h⟩ := Option.bind_eq_some_iff.mp h
  obtain ⟨t2, -, h⟩ := Option.bind_eq_some_iff.mp h
  obtain ⟨⟨host', t3⟩, hhost, h⟩ := Option.bind_eq_some_iff.mp h
  obtain ⟨t4, -, h⟩ := Option.bind_eq_some_iff.mp h
  obtain ⟨⟨port', t5⟩, -, h⟩ := Option.bind_eq_some_iff.mp h
  obtain ⟨rfl, heq⟩ := Prod.mk.inj (Option.some.inj h)
  obtain ⟨rfl, -⟩ := Prod.mk.inj heq
  exact ⟨scanUnsigned_lt hid, scanUntil_some hhost⟩

theorem parsePeer_proper {text : Text} (h : parsePeer text = .ok p) : p.Proper := by
  unfold parsePeer at h
  split at h
  · cases h
  · rename_i id host port hfields
    split at h
    · cases h
    · rename_i good
      obtain ⟨hid, hne, hlength, hcolon⟩ := peerFields_bounds hfields
      have hhost : copyText 64 host = host := List.take_of_length_le hlength
      obtain rfl := Except.ok.inj h
      exact ⟨⟨fun h0 => good (Or.inl h0), hid⟩, hhost.symm ▸ ⟨hne, hlength, hcolon⟩,
        not_lt.mp fun hp => good (Or.inr hp), rfl, rfl⟩

/-- The loop keeps the fields in their ranges. -/
theorem parseArguments_bounded (h : parseArguments config args = .ok config')
    (bounded : config.Bounded) : config'.Bounded := by
  induction config, args using parseArguments.induct with
  | case1 config => exact Except.ok.inj h ▸ bounded
  | case2 config arg => cases h
  | case3 config value args ih =>
    rw [parseArguments, if_pos rfl] at h
    exact ih h { bounded with id := strtoulText_lt value }
  | case4 config value args h1 ih =>
    rw [parseArguments, if_neg h1, if_pos rfl] at h
    exact ih h { bounded with host := List.length_take_le _ _ }
  | case5 config value args h1 h2 ih =>
    rw [parseArguments, if_neg h1, if_neg h2, if_pos rfl] at h
    exact ih h { bounded with port := Nat.mod_lt _ (by norm_num) }
  | case6 config value args hfull h1 h2 h3 =>
    rw [parseArguments, if_neg h1, if_neg h2, if_neg h3, if_pos rfl, if_pos hfull] at h
    cases h
  | case7 config value args hroom peer hpeer h1 h2 h3 ih =>
    rw [parseArguments, if_neg h1, if_neg h2, if_neg h3, if_pos rfl, if_neg hroom, hpeer] at h
    refine ih h { bounded with peers := fun p hp => ?_, room := ?_ }
    · rcases List.mem_append.mp hp with hp | hp
      · exact bounded.peers p hp
      · exact List.mem_singleton.mp hp ▸ parsePeer_proper hpeer
    · rw [List.length_append, List.length_singleton]
      omega
  | case8 config value args hroom rc hpeer h1 h2 h3 =>
    rw [parseArguments, if_neg h1, if_neg h2, if_neg h3, if_pos rfl, if_neg hroom, hpeer] at h
    cases h
  | case9 config name value args h1 h2 h3 h4 h5 ih =>
    rw [parseArguments, if_neg h1, if_neg h2, if_neg h3, if_neg h4, if_pos h5] at h
    exact ih h bounded
  | case10 config name value args h1 h2 h3 h4 h5 =>
    rw [parseArguments, if_neg h1, if_neg h2, if_neg h3, if_neg h4, if_neg h5] at h
    cases h

theorem proper_of_parse (h : raftConfigParse raftConfigInit args = .ok config) :
    config.Proper := by
  have init : raftConfigInit.Bounded :=
    ⟨by decide, by decide, by decide, fun p hp => absurd hp List.not_mem_nil, by decide⟩
  unfold raftConfigParse at h
  split at h
  · rename_i c hargs
    split at h
    · cases h
    · rename_i good
      obtain rfl := Except.ok.inj h
      exact { parseArguments_bounded hargs init with
        id_ne := fun h0 => good (Or.inl h0), port_ne := fun h0 => good (Or.inr h0) }
  · cases h

/-! ### What is read back -/

theorem parsePeer_argument (h : p.Proper) : parsePeer p.argument = .ok p := by
  obtain ⟨⟨hid, hid'⟩, ⟨hne, hlength, hcolon⟩, hport, hnext, hmatch⟩ := h
  have hnumber : scanUnsigned p.argument = some (p.id, 58 :: (p.host ++ 58 :: decimal p.port)) :=
    scanUnsigned_decimal_append hid' (by simp [Stops, isdigit])
  have hlast := @scanUnsigned_decimal_append p.port [] (by omega) (by simp [Stops])
  rw [List.append_nil] at hlast
  have hfields : peerFields p.argument = some (p.id, p.host, p.port) := by
    simp only [peerFields, hnumber, scanByte, if_true, scanUntil_append hne hlength hcolon, hlast,
      Option.bind_eq_bind, Option.bind_some]
  have hhost : copyText 64 p.host = p.host := List.take_of_length_le hlength
  rw [parsePeer, hfields]
  dsimp only
  rw [if_neg (by omega), hhost, ← hnext, ← hmatch]

theorem parse_peerArguments {peers : List Peer} (h : ∀ p ∈ peers, p.Proper)
    (room : config.peers.length + peers.length ≤ raftMaxPeers) :
    parseArguments config (peerArguments peers) =
      .ok { config with peers := config.peers ++ peers } := by
  induction peers generalizing config with
  | nil => simp [peerArguments, parseArguments]
  | cons p peers ih =>
    rw [List.length_cons] at room
    have hp := parsePeer_argument (h p List.mem_cons_self)
    have hrest := @ih { config with peers := config.peers ++ [p] }
      (fun q hq => h q (List.mem_cons_of_mem _ hq)) (by simp; omega)
    rw [peerArguments, List.flatMap_cons, List.cons_append, List.cons_append, List.nil_append,
      parseArguments, if_neg (by decide), if_neg (by decide), if_neg (by decide), if_pos rfl,
      if_neg (by omega), hp]
    simpa [peerArguments] using hrest

theorem parse_arguments (h : config.Proper) :
    raftConfigParse raftConfigInit config.arguments = .ok config := by
  have hhost : copyText 64 config.host = config.host := List.take_of_length_le h.host
  have hpeers := @parse_peerArguments
    { id := config.id, host := config.host, port := config.port, peers := [] } config.peers h.peers
    (by simpa using h.room)
  have hloop : parseArguments raftConfigInit config.arguments = .ok config := by
    rw [RaftConfig.arguments, parseArguments, if_pos rfl, parseArguments, if_neg (by decide),
      if_pos rfl, parseArguments, if_neg (by decide), if_neg (by decide), if_pos rfl,
      strtoulText_decimal h.id, strtoulText_decimal (h.port.trans (by norm_num)),
      Nat.mod_eq_of_lt h.port, hhost]
    exact hpeers
  rw [raftConfigParse, hloop]
  dsimp only
  rw [if_neg (not_or.mpr ⟨h.id_ne, h.port_ne⟩)]

/-- A configuration can be given on the command line exactly when its own arguments give it, which
is when its fields are in their ranges. -/
theorem config_round_trip (config : RaftConfig) :
    ((∃ args, raftConfigParse raftConfigInit args = .ok config) ↔ config.Proper) ∧
    (config.Proper ↔ raftConfigParse raftConfigInit config.arguments = .ok config) :=
  ⟨⟨fun ⟨_, h⟩ => proper_of_parse h, fun h => ⟨_, parse_arguments h⟩⟩, parse_arguments,
    proper_of_parse⟩

end RaftKv
