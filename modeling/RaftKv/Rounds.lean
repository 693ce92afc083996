import RaftKv.Bounds
import RaftKv.Repair

/-! The rounds in which a leader repairs the log of a follower: an `AE` line, its reply, and the
next line, at once after a refusal or with the next heartbeat.  They bring the leader's log across
exactly when the entries that have to be sent are read from their lines. -/

namespace RaftKv

open Consensus Stdio

attribute [local irreducible] toInt32

/-! ### The entries that lines carry -/

/-- The texts of an entry fit its arrays. -/
structure RaftLogEntry.InArrays (e : RaftLogEntry) : Prop where
  key : e.key.length < raftMaxKey
  value : e.value.length < raftMaxValue

/-- What the command of an entry becomes in its `AE` line: the end of the line, and further lines
when a newline stands in its texts. -/
def RaftLogEntry.lines (e : RaftLogEntry) : List Text :=
  framed (commandText e.op e.key e.value ++ [10])

/-- `sscanf` finds the three words of the command in the entry's `AE` line. -/
def RaftLogEntry.carried (e : RaftLogEntry) : Bool :=
  e.lines.head?.any fun command => (sscanf commandDirectives (32 :: command)).length = 3

/-- No message comes with the entry's `AE` line. -/
def RaftLogEntry.Alone (e : RaftLogEntry) : Prop :=
  ∀ line ∈ e.lines.tail, raftHandleLine line = none

instance (e : RaftLogEntry) : Decidable e.Alone := inferInstanceAs (Decidable (∀ _ ∈ _, _))

theorem framed_ae {t l p pt lc : ℕ} {e : RaftLogEntry}
    (h : Fits [t, l, p, pt, lc, 1, e.index, e.term]) (texts : e.InArrays) :
    ∃ command others, e.lines = command :: others ∧
      framed (Line.ae t l p pt lc (some e)).wire = (bytes "AE" ++
        (fields [t, l, p, pt, lc, 1, e.index, e.term] ++ 32 :: command)) :: others := by
  have hl := length_header_lt isTag_ae h (by simp)
  have hlen := @length_commandText_le e.op _ _ texts.key texts.value
  have h10 : 10 ∉ bytes "AE" ++ fields [t, l, p, pt, lc, 1, e.index, e.term] :=
    (isTag_ae.printable.append (printable_fields _)).newline
  rw [RaftLogEntry.lines, wire_ae_some, List.take_of_length_le (by
    simp only [List.length_append, List.length_cons, List.length_nil, raftMaxLine] at hl ⊢
    omega)]
  generalize commandText e.op e.key e.value = text at hlen ⊢
  obtain ⟨first, rest, hsplit, hfirst⟩ : ∃ first rest, text ++ [10] = first ++ 10 :: rest ∧
      10 ∉ first := List.eq_append_cons_of_mem (List.mem_append_right text List.mem_cons_self)
  have hfits : (bytes "AE" ++ fields [t, l, p, pt, lc, 1, e.index, e.term] ++ 32 :: first).length ≤
      raftMaxLine - 1 := by
    have := congrArg List.length hsplit
    simp only [List.length_append, List.length_cons, List.length_nil, raftMaxLine] at hl this ⊢
    omega
  have hnew : 10 ∉ bytes "AE" ++ fields [t, l, p, pt, lc, 1, e.index, e.term] ++ 32 :: first := by
    rw [List.mem_append, List.mem_cons]
    rintro (hc | hc | hc)
    · exact h10 hc
    · exact absurd hc (by decide)
    · exact hfirst hc
  refine ⟨cutLine first, framed rest, ?_, ?_⟩
  · rw [hsplit, framed_append_cons hfirst (not_tooLong ?_)]
    simp only [List.length_append, List.length_cons] at hfits
    omega
  · rw [hsplit, ← List.append_assoc, ← List.cons_append, ← List.append_assoc,
      framed_append_cons hnew (not_tooLong (by omega)), cutLine_blank hfits, List.append_assoc]

/-- An `AE` line with an entry is read with its numbers when it carries the entry, and dropped when
it does not. -/
theorem Line.handlers_ae_carried {t l p pt lc : ℕ} {e : RaftLogEntry}
    (h : Fits [t, l, p, pt, lc, 1, e.index, e.term]) (texts : e.InArrays) (alone : e.Alone) :
    (e.carried = true ∧ ∃ d, (Line.ae t l p pt lc (some e)).handlers =
      [.handleAppendEntries t l p pt lc 1 d] ∧ d.index = e.index ∧ d.term = e.term) ∨
    (e.carried = false ∧ (Line.ae t l p pt lc (some e)).handlers = []) := by
  obtain ⟨command, others, hlines, hwire⟩ := framed_ae h texts
  rw [RaftLogEntry.Alone, hlines, List.tail_cons, ← List.filterMap_eq_nil_iff] at alone
  have hfirst : (Line.ae t l p pt lc (some e)).handlers = (raftHandleLine (bytes "AE" ++
      (fields [t, l, p, pt, lc, 1, e.index, e.term] ++ 32 :: command))).toList := by
    rw [Line.handlers, hwire, List.filterMap_cons, alone]
    split <;> rename_i hparsed <;> rw [hparsed] <;> rfl
  rw [hfirst, raftHandleLine, sscanf_type isTag_ae (blank_fields_append _ _)]
  simp only [show bytes "AE" ≠ bytes "RV" by decide, show bytes "AE" ≠ bytes "RVR" by decide,
    if_true, if_false, @sscanf_header _ _ [t, l, p, pt, lc, 1, e.index, e.term]
      "AE %u %u %u %u %u %u %u %u %15s %63s %255s" commandDirectives isTag_ae h rfl]
  rw [RaftLogEntry.carried, hlines, List.head?_cons, Option.any_some]
  obtain ⟨ts, hts, hle⟩ := sscanf_strings commandDirectives (32 :: command) (by decide)
  have hle' : ts.length ≤ 3 := hle
  rw [hts]
  rcases ts with _ | ⟨a, _ | ⟨b, _ | ⟨c, _ | ⟨d, ts⟩⟩⟩⟩
  · exact Or.inr ⟨rfl, rfl⟩
  · exact Or.inr ⟨rfl, rfl⟩
  · exact Or.inr ⟨rfl, rfl⟩
  · exact Or.inl ⟨rfl, _, rfl, rfl, rfl⟩
  · simp only [List.length_cons] at hle'
    omega

/-- A command without white space and with a key is one line. -/
theorem RaftLogEntry.lines_of_valid {e : RaftLogEntry} (h : ValidCommand e.op e.key e.value) :
    e.lines = [commandText e.op e.key e.value] := by
  have hprint := printable_commandText h
  have hlen := h.fits
  rw [lines, framed_append_cons hprint.newline (not_tooLong (hlen.trans (by decide))),
    framed_of_not_mem List.not_mem_nil, hprint.cutLine_eq (hlen.trans (by decide))]

/-- The words of such a command are found. -/
theorem RaftLogEntry.carried_of_valid {e : RaftLogEntry} (h : ValidCommand e.op e.key e.value) :
    e.carried = true := by
  rw [carried, lines_of_valid h, List.head?_cons, Option.any_some,
    sscanf_command h.op_ne (isToken_of_isValidToken h.valid_key) h.isToken_value]
  rfl

theorem RaftLogEntry.alone_of_valid {e : RaftLogEntry} (h : ValidCommand e.op e.key e.value) :
    e.Alone := by
  rw [Alone, lines_of_valid h]
  exact fun _ hl => absurd hl List.not_mem_nil

example : RaftLogEntry.carried ⟨1, 1, .set, [], bytes "a"⟩ = false := by decide

/-! ### The parts of a round -/

/-- The node runs the handlers in order.  What a handler leaves to its thread is not run. -/
def handleCalls (env : Env) : List Section → RaftNode → Option (RaftNode × List Packet)
  | [], node => some (node, [])
  | sec :: secs, node => do
    let e ← exec env sec node
    let (node, sends) ← handleCalls env secs e.node
    some (node, e.sends ++ sends)

/-- The node handles the lines of the packets in order, and a line that is not read is dropped. -/
def handlePackets (env : Env) (packets : List Packet) :
    RaftNode → Option (RaftNode × List Packet) :=
  handleCalls env (packets.flatMap fun p => p.line.handlers)

/-- The leader sends to the follower, which answers, and the leader handles the answer.  What it
sends then, at once or with the next heartbeat, belongs to the next round. -/
def repairRound (env : Env) (s : RaftNode × RaftNode) : Option (RaftNode × RaftNode) := do
  let sent ← exec env (.sendAppendToPeer s.2.id) s.1
  let (follower, replies) ← handlePackets env sent.sends s.2
  let (leader, _) ← handlePackets env replies sent.node
  some (leader, follower)

def repairRounds (env : ℕ → Env) (s : RaftNode × RaftNode) : ℕ → Option (RaftNode × RaftNode)
  | 0 => some s
  | k + 1 => (repairRounds env s k).bind (repairRound (env k))

variable {x y z : RaftNode} {env : Env} {peer : Peer} {line : Line} {e : Effect}

theorem handlePackets_unread {host : Text} {port : ℕ} (unread : line.handlers = []) :
    handlePackets env [⟨host, port, line⟩] x = some (x, []) := by
  rw [handlePackets, List.flatMap_singleton, unread]
  rfl

theorem handlePackets_read {host : Text} {port : ℕ} {sec : Section}
    (parsed : line.handlers = [sec]) (he : exec env sec x = some e) :
    handlePackets env [⟨host, port, line⟩] x = some (e.node, e.sends) := by
  rw [handlePackets, List.flatMap_singleton, parsed]
  simp only [he, handleCalls, Option.bind_eq_bind, Option.bind_some, List.append_nil]

/-- The line that `build_append_locked` writes at a next index from 1 on. -/
theorem buildAppendLocked_at {next : ℕ} (indexed : Indexed x.log)
    (room : x.log.length ≤ raftMaxLog) (hnext : peer.nextIndex = next) (pos : 0 < next)
    (built : buildAppendLocked x peer = some line) :
    ∃ pt, termAt x (min (next - 1) x.logCount) = some pt ∧
      line = .ae x.currentTerm x.id (min (next - 1) x.logCount) pt x.commitIndex
        x.log[next - 1]? := by
  have hlocked : nextIndexLocked x peer = next := by
    rw [nextIndexLocked, hnext, if_neg (by omega)]
  simp only [buildAppendLocked, hlocked, Int.toNat_natCast, if_neg pos.ne'] at built
  split at built
  · rename_i hle
    obtain ⟨d, hd, built⟩ := Option.bind_eq_some_iff.mp built
    obtain ⟨pt, hpt, built⟩ := Option.bind_eq_some_iff.mp built
    have hindex := indexed _ _ hd
    have hprev : (d.index + 2 ^ 32 - 1) % 2 ^ 32 = min (next - 1) x.logCount := by
      simp only [RaftNode.logCount, raftMaxLog] at hle room ⊢
      omega
    rw [hprev] at hpt built
    rw [hd]
    exact ⟨pt, hpt, (Option.some.inj built).symm⟩
  · rename_i hgt
    obtain ⟨pt, hpt, built⟩ := Option.bind_eq_some_iff.mp built
    have hprev : min (next - 1) x.logCount = x.logCount := by omega
    rw [hprev, List.getElem?_eq_none (by simp only [RaftNode.logCount] at hgt; omega)]
    exact ⟨pt, hpt, (Option.some.inj built).symm⟩

/-- A node sends to a peer of its table without a change, when the next index is from 1 on. -/
theorem sendAppendToPeer_known {id : ℕ} (found : findPeer x id = some peer)
    (pos : 0 < peer.nextIndex) (built : buildAppendLocked x peer = some line) :
    sendAppendToPeer x id = some { node := x, sends := [⟨peer.host, peer.port, line⟩] } := by
  have hself : modifyPeer (fun p => { p with nextIndex := nextIndexLocked x p }) id x.peers =
      x.peers := by
    apply modifyPeer_eq_self found
    rw [nextIndexLocked, if_neg (by omega)]
  unfold sendAppendToPeer
  rw [found]
  simp only [built, Option.bind_eq_bind, Option.bind_some]
  rw [hself]

/-- What a leader makes of the answer of a peer. -/
theorem handleAppendResponse_known {now t id success m : ℕ} (lead : x.role = .leader)
    (term : t = x.currentTerm) (found : findPeer x id = some peer)
    (he : handleAppendResponse now x t id success m = some e) :
    ∃ c a store events peers, e.node = { x with
        commitIndex := c, lastApplied := a, store := store, eventLog := events, peers := peers } ∧
      (c = x.commitIndex ∨ c ≤ x.logCount) ∧
      findPeer e.node id = some (if success ≠ 0 then
        { peer with matchIndex := toInt32 m, nextIndex := toInt32 (toInt32 m + 1) }
      else { peer with
        nextIndex := if 1 < peer.nextIndex then peer.nextIndex - 1 else peer.nextIndex }) := by
  cases appendResponse he with
  | observes newer => omega
  | ignores h => exact absurd ⟨lead, term, by rw [found]; rfl⟩ h
  | takes h succeeds y recomputed =>
    obtain ⟨c, a, store, events, rfl, hc⟩ := recomputeCommitLocked_shape recomputed
    refine ⟨c, a, store, events, _, rfl, hc, ?_⟩
    rw [if_pos succeeds, findPeer]
    refine (find_modifyPeer (fun p => ?_) id x.peers).trans (congrArg (Option.map _) found)
    rfl
  | backs h fails =>
    refine ⟨_, _, _, _, _, rfl, Or.inl rfl, ?_⟩
    rw [if_neg (not_not_intro fails), findPeer]
    refine (find_modifyPeer (fun p => ?_) id x.peers).trans (congrArg (Option.map _) found)
    rfl

/-! ### Rounds -/

/-- A leader and a follower that list each other, with a matching log, and with an entry of the
peer table from which the leader has not fallen back behind the first entry.  No other messages come
with the leader's lines. -/
structure Repairing (x y : RaftNode) : Prop where
  leader : Ranged x
  role : x.role = .leader
  texts : ∀ d ∈ x.log, d.InArrays
  alone : ∀ d ∈ x.log, d.Alone
  follower : y.id < 2 ^ 32
  room : y.log.length ≤ raftMaxLog
  term : y.currentTerm ≤ x.currentTerm
  listed : ∃ peer, findPeer x y.id = some peer ∧ 0 < peer.nextIndex
  known : (findPeer y x.id).isSome
  matched : LogsMatch x.log y.log

/-- The leader's next index for the follower, and the follower's log. -/
def position (s : RaftNode × RaftNode) : ℕ × List RaftLogEntry :=
  (((findPeer s.1 s.2.id).map fun p => p.nextIndex.toNat).getD 0, s.2.log)

/-- The line with the entry at a position, counted from 1, carries it. -/
def carriedAt (log : List RaftLogEntry) (k : ℕ) : Prop := ∀ d ∈ log[k - 1]?, d.carried = true

theorem position_eq {next : ℕ} (found : findPeer x y.id = some peer)
    (hnext : peer.nextIndex = next) : position (x, y) = (next, y.log) := by
  rw [position, found, Option.map_some, hnext]
  rfl

/-- What the follower reads of the leader's line. -/
theorem Repairing.read {next : ℕ} (h : Repairing x y) (hnext : peer.nextIndex = next)
    (pos : 0 < next) (built : buildAppendLocked x peer = some line) :
    (next ≤ x.log.length ∧ ¬carriedAt x.log next ∧ line.handlers = []) ∨
    ((next ≤ x.log.length → carriedAt x.log next) ∧ ∃ pt d,
      termAt x (min (next - 1) x.logCount) = some pt ∧
      line.handlers = [.handleAppendEntries x.currentTerm x.id (min (next - 1) x.logCount) pt
        x.commitIndex (if next ≤ x.log.length then 1 else 0) d] ∧
      ∀ c ∈ x.log[next - 1]?, d.index = next ∧ d.term = c.term) := by
  obtain ⟨pt, hpt, hline⟩ :=
    buildAppendLocked_at h.leader.indexed h.leader.room hnext pos built
  obtain ⟨p', pt', -, ⟨c, hbuilt, hget, hindex, fits⟩ | ⟨hbuilt, -, fits⟩⟩ :=
    h.leader.built_cases built
  · obtain ⟨-, -, rfl, rfl, -, hentry⟩ := Line.ae.inj (hline.symm.trans hbuilt)
    have hlt := (List.getElem?_eq_some_iff.mp hentry).1
    have hle : next ≤ x.log.length := by omega
    have hmin : min (next - 1) x.logCount = next - 1 := by
      rw [RaftNode.logCount]
      omega
    rw [hmin] at hindex
    have hnext' : c.index = next := by omega
    have hcarried : carriedAt x.log next ↔ c.carried = true := by
      rw [carriedAt, hentry]
      simp
    rw [hbuilt, hcarried, if_pos hle]
    have hmem := List.mem_of_getElem? hentry
    rcases Line.handlers_ae_carried fits (h.texts c hmem) (h.alone c hmem) with
      ⟨hyes, d, hread, hdindex, hdterm⟩ | ⟨hno, hnone⟩
    · refine Or.inr ⟨fun _ => hyes, pt, d, hpt, hread, fun b hb => ?_⟩
      obtain rfl := Option.some.inj (hentry.symm.trans hb)
      exact ⟨hdindex.trans hnext', hdterm⟩
    · exact Or.inl ⟨hle, by rw [hno]; exact Bool.false_ne_true, hnone⟩
  · obtain ⟨-, -, rfl, rfl, -, hentry⟩ := Line.ae.inj (hline.symm.trans hbuilt)
    have hgt : ¬next ≤ x.log.length := by
      have := List.getElem?_eq_none_iff.mp hentry
      omega
    have hread := Line.Unbroken.handlers_singleton (by trivial) (Line.handler_ae_none fits)
    rw [hbuilt, hread, if_neg hgt]
    refine Or.inr ⟨fun hle => absurd hle hgt, pt, noEntry, hpt, rfl, fun b hb => ?_⟩
    rw [hentry] at hb
    cases hb

/-- The leader takes the answer of the follower: a success moves the next index behind the
follower's log, and a refusal moves it back. -/
theorem Repairing.answered {s m : ℕ} (h : Repairing x y) (found : findPeer x y.id = some peer)
    (hpos : 0 < peer.nextIndex) (hnode : z.id = y.id ∧ z.peers = y.peers)
    (hterm : z.currentTerm = x.currentTerm) (hs : s ≤ 1) (hm : m ≤ raftMaxLog)
    (room : z.log.length ≤ raftMaxLog) (matched : LogsMatch x.log z.log) :
    ∃ x' sends, handlePackets env (sendToPeer y x.id (.aer z.currentTerm z.id s m)) x =
        some (x', sends) ∧ Repairing x' z ∧ x'.log = x.log ∧
      position (x', z) = (if s = 0 then
        if 1 < peer.nextIndex then peer.nextIndex.toNat - 1 else peer.nextIndex.toNat
        else m + 1, z.log) := by
  obtain ⟨q, hq⟩ := Option.isSome_iff_exists.mp h.known
  have fits : Fits [z.currentTerm, z.id, s, m] := by
    have h1 := h.leader.term
    have h2 := h.follower
    simp only [raftMaxLog] at hm
    intro k hk
    simp only [List.mem_cons, List.not_mem_nil, or_false, hterm, hnode.1] at hk
    omega
  obtain ⟨e, he⟩ := Option.isSome_iff_exists.mp
    ((@exec_isSome_iff x env (.handleAppendResponse z.currentTerm z.id s m)
      ⟨h.leader.room, h.leader.indexed⟩).mpr trivial)
  obtain ⟨c, a, store, events, peers, hx', hc, hpeer⟩ :=
    handleAppendResponse_known h.role hterm (hnode.1 ▸ found) he
  rw [sendToPeer, hq]
  refine ⟨e.node, e.sends, handlePackets_read
    (Line.Unbroken.handlers_singleton trivial (Line.handler_aer fits)) he, ?_⟩
  have hnat : toInt32 (toInt32 m + 1) = (m + 1 : ℕ) := by
    simp only [raftMaxLog] at hm
    rw [toInt32_of_lt (by omega), ← Nat.cast_succ, toInt32_of_lt (by omega)]
  have hcommit : c < 2 ^ 32 := by
    have h1 := h.leader.commit
    have h2 : x.logCount ≤ raftMaxLog := h.leader.room
    simp only [raftMaxLog] at h2
    omega
  have hshape : e.node.log = x.log ∧ e.node.id = x.id ∧ e.node.role = .leader ∧
      e.node.currentTerm = x.currentTerm ∧ e.node.commitIndex = c := by
    rw [hx']
    exact ⟨rfl, rfl, h.role, rfl, rfl⟩
  obtain ⟨hlog, hid, hrole, hcurrent, hcommit'⟩ := hshape
  have hleader := h.leader.congr hid hcurrent hlog (hcommit' ▸ hcommit)
  refine ⟨⟨hleader, hrole, hlog ▸ h.texts, hlog ▸ h.alone, hnode.1 ▸ h.follower, room, ?_,
    ⟨_, hpeer, ?_⟩, ?_, hlog ▸ matched⟩, hlog, ?_⟩
  · rw [hcurrent, hterm]
  · by_cases h0 : s = 0
    · rw [if_neg (not_not_intro h0)]
      dsimp only
      split <;> omega
    · rw [if_pos h0]
      dsimp only
      rw [hnat]
      omega
  · rw [hid, findPeer, hnode.2]
    exact h.known
  · rw [position, hpeer, Option.map_some, Option.getD_some]
    by_cases h0 : s = 0
    · rw [if_neg (not_not_intro h0), if_pos h0]
      dsimp only
      split
      · rw [show (peer.nextIndex - 1).toNat = peer.nextIndex.toNat - 1 by omega]
      · rfl
    · rw [if_pos h0, if_neg h0]
      dsimp only
      rw [hnat, Int.toNat_natCast]

/-- What the follower makes of a line that it reads: its answer, and the round that the answer
leads to. -/
theorem Repairing.handled {next pt : ℕ} {d : RaftLogEntry} (h : Repairing x y) (pos : 0 < next)
    (reads : next ≤ x.log.length → carriedAt x.log next)
    (hpt : termAt x (min (next - 1) x.logCount) = some pt)
    (hentry : ∀ c ∈ x.log[next - 1]?, d.index = next ∧ d.term = c.term)
    (he : exec env (.handleAppendEntries x.currentTerm x.id (min (next - 1) x.logCount) pt
      x.commitIndex (if next ≤ x.log.length then 1 else 0) d) y = some e) :
    (e.node.id = y.id ∧ e.node.peers = y.peers) ∧ e.node.currentTerm = x.currentTerm ∧
    e.node.log.length ≤ raftMaxLog ∧ LogsMatch x.log e.node.log ∧ ∃ s m,
      e.sends = sendToPeer y x.id (.aer e.node.currentTerm e.node.id s m) ∧ s ≤ 1 ∧
      m ≤ raftMaxLog ∧ (s = 0 → 1 < next) ∧
      Round (·.term) x.log (carriedAt x.log) (next, y.log)
        (if s = 0 then next - 1 else m + 1, e.node.log) := by
  obtain ⟨⟨hid, hpeers, hmax⟩, hreply⟩ := handleAppendEntries_reply he
  rw [max_eq_right h.term] at hmax
  refine ⟨⟨hid, hpeers⟩, hmax, ?_⟩
  have hprev := h.matched.prevMatches_iff (termAt_of_initial (List.prefix_refl x.log) hpt)
  have haccept : accepts y x.currentTerm (min (next - 1) x.logCount) pt = true ↔
      min (next - 1) x.log.length ≤ agreement (·.term) x.log y.log := by
    rw [accepts, Bool.and_eq_true, decide_eq_true_eq, and_iff_right h.term, hprev,
      RaftNode.logCount]
  rcases hreply with ⟨hyes, hstore, hsends⟩ | ⟨hno, hlog, hsends⟩
  · have agrees := haccept.mp hyes
    have taken : 1 = 0 → 1 < next := fun h => absurd h one_ne_zero
    by_cases hle : next ≤ x.log.length
    · have hget : x.log[next - 1]? = some x.log[next - 1] := List.getElem?_eq_getElem (by omega)
      obtain ⟨hindex, hterm⟩ := hentry _ hget
      have room := h.leader.room
      rw [if_pos hle, if_neg one_ne_zero, Option.elim_some] at hstore
      have hroom := storeEntry_length hstore h.room
      rcases agreement_storeEntry (by omega) hget hterm (by omega) (by omega) hstore with
        ⟨hlog, hlt⟩ | ⟨hfirst, hnew, hlen⟩
      · refine ⟨hroom, hlog ▸ h.matched, 1, _, hsends, le_rfl, hroom, taken, ?_⟩
        rw [if_neg one_ne_zero, RaftNode.logCount, hlog]
        exact .present reads (by omega)
      · refine ⟨hroom, logsMatch_of_agreement (by omega), 1, _, hsends, le_rfl, hroom, taken, ?_⟩
        have hcount : e.node.logCount = next := by
          rw [RaftNode.logCount]
          omega
        rw [if_neg one_ne_zero, hcount]
        exact .stored hle (reads hle) (by omega) (by omega) (by omega)
    · rw [if_neg hle, if_pos rfl, Option.elim_none] at hstore
      have hlog := Option.some.inj hstore
      have hroom : e.node.log.length ≤ raftMaxLog := hlog ▸ h.room
      refine ⟨hroom, hlog ▸ h.matched, 1, _, hsends, le_rfl, hroom, taken, ?_⟩
      rw [if_neg one_ne_zero, RaftNode.logCount, ← hlog]
      exact .present reads (by omega)
  · have beyond : agreement (·.term) x.log y.log < min (next - 1) x.log.length := by
      by_contra hge
      rw [haccept.mpr (not_lt.mp hge)] at hno
      cases hno
    rw [hlog]
    refine ⟨h.room, h.matched, 0, 0, hsends, Nat.zero_le 1, Nat.zero_le _, fun _ => by omega, ?_⟩
    exact .refused reads beyond

/-- A round of the code is a round on the leader's next index and the follower's log. -/
theorem Repairing.round (h : Repairing x y) (env : Env) :
    ∃ x' y', repairRound env (x, y) = some (x', y') ∧ Repairing x' y' ∧ x'.log = x.log ∧
      Round (·.term) x.log (carriedAt x.log) (position (x, y)) (position (x', y')) := by
  obtain ⟨peer, found, hpos⟩ := h.listed
  obtain ⟨next, hnext⟩ := Int.eq_ofNat_of_zero_le hpos.le
  have pos : 0 < next := by omega
  obtain ⟨line, built⟩ := Option.isSome_iff_exists.mp
    (buildAppendLocked_isSome ⟨h.leader.room, h.leader.indexed⟩ peer)
  have hsent : exec env (.sendAppendToPeer y.id) x = some _ :=
    sendAppendToPeer_known found hpos built
  rw [position_eq found hnext]
  rcases h.read hnext pos built with ⟨hle, hno, unread⟩ | ⟨reads, pt, d, hpt, parsed, hentry⟩
  · refine ⟨x, y, ?_, h, rfl, ?_⟩
    · simp only [repairRound, hsent, Option.bind_eq_bind, Option.bind_some]
      rw [handlePackets_unread unread]
      rfl
    · rw [position_eq found hnext]
      exact .unread hle hno
  · have hsome : (exec env (.handleAppendEntries x.currentTerm x.id (min (next - 1) x.logCount) pt
        x.commitIndex (if next ≤ x.log.length then 1 else 0) d) y).isSome := by
      refine handleAppendEntries_isSome.mpr fun _ _ hhas => ?_
      split at hhas
      · rw [(hentry _ (List.getElem?_eq_getElem (by omega))).1]
        exact pos.ne'
      · exact absurd rfl hhas
    obtain ⟨e, he⟩ := Option.isSome_iff_exists.mp hsome
    obtain ⟨hnode, hterm, hroom, hmatched, s, m, hsends, hs, hm, hback, hround⟩ :=
      h.handled pos reads hpt hentry he
    obtain ⟨x', sends, htake, hrep, hxlog, hposition⟩ :=
      @Repairing.answered x y e.node env peer s m h found hpos hnode hterm hs hm hroom hmatched
    refine ⟨x', e.node, ?_, hrep, hxlog, ?_⟩
    · simp only [repairRound, hsent, Option.bind_eq_bind, Option.bind_some]
      rw [handlePackets_read parsed he]
      simp only [Option.bind_some, hsends, htake]
    · rw [hposition]
      by_cases h0 : s = 0
      · have := hback h0
        rw [if_pos h0] at hround ⊢
        rw [if_pos (by omega), hnext]
        exact hround
      · rw [if_neg h0] at hround ⊢
        exact hround

/-! ### The repaired log -/

/-- The follower's log starts with entries of the leader's terms. -/
def Repaired (log : List RaftLogEntry) (y : RaftNode) : Prop :=
  ∀ k < log.length, y.log[k]?.map (·.term) = log[k]?.map (·.term)

theorem repaired_iff {log : List RaftLogEntry} :
    Repaired log y ↔ agreement (·.term) log y.log = log.length := by
  have hle := @agreement_le_left _ (·.term) log y.log
  constructor
  · intro h
    exact le_antisymm hle (le_agreement_iff.mpr ⟨le_rfl, fun k hk => (h k hk).symm⟩)
  · intro h k hk
    exact (terms_of_lt_agreement (h ▸ hk)).symm

/-- All rounds take place, and keep the leader's log. -/
theorem Repairing.runs (h : Repairing x y) (env : ℕ → Env) (k : ℕ) :
    ∃ s, repairRounds env (x, y) k = some s ∧ Repairing s.1 s.2 ∧ s.1.log = x.log := by
  induction k with
  | zero => exact ⟨(x, y), rfl, h, rfl⟩
  | succ k ih =>
    obtain ⟨s, hs, hrep, hlog⟩ := ih
    obtain ⟨x', y', hround, hrep', hlog', -⟩ := hrep.round (env k)
    refine ⟨(x', y'), ?_, hrep', hlog'.trans hlog⟩
    rw [repairRounds, hs]
    exact hround

/-- The rounds of the code are a run of rounds on the next index and the follower's log. -/
theorem Repairing.exists_run (h : Repairing x y) (env : ℕ → Env) :
    ∃ run : ℕ → RaftNode × RaftNode, run 0 = (x, y) ∧
      (∀ k, repairRounds env (x, y) k = some (run k)) ∧
      ∀ k, Round (·.term) x.log (carriedAt x.log) (position (run k)) (position (run (k + 1))) := by
  choose run hrun hrep hlog using h.runs env
  refine ⟨run, (Option.some.inj (hrun 0)).symm, hrun, fun k => ?_⟩
  obtain ⟨x', y', hround, -, -, hpos⟩ := (hrep k).round (env k)
  have hnext := hrun (k + 1)
  rw [repairRounds, hrun k] at hnext
  rw [Option.some.inj (hnext.symm.trans hround), ← hlog k]
  exact hpos

/-- The rounds end with the leader's log at the follower exactly when it is there from the start, or
the lines carry the entries behind the common prefix, and the first one that is sent. -/
theorem repair_terminates_iff (h : Repairing x y) (env : ℕ → Env) :
    (∃ k, ∀ j, k ≤ j → ∃ s, repairRounds env (x, y) j = some s ∧ Repaired x.log s.2) ↔
      Repaired x.log y ∨ Sendable (·.term) x.log (carriedAt x.log) (position (x, y)) := by
  obtain ⟨run, hstart, hrun, rounds⟩ := h.exists_run env
  have hpos : ∀ k, (position (run k)).2 = (run k).2.log := fun k => rfl
  have hiff := rounds_complete_iff rounds
  rw [hstart] at hiff
  rw [repaired_iff]
  refine Iff.trans ?_ hiff
  refine exists_congr fun k => forall_congr' fun j => imp_congr_right fun _ => ?_
  rw [hpos, ← repaired_iff]
  constructor
  · rintro ⟨s, hs, hdone⟩
    obtain rfl := Option.some.inj ((hrun j).symm.trans hs)
    exact hdone
  · intro hdone
    exact ⟨run j, hrun j, hdone⟩

/-- Nodes 1 and 3 of the three, and a log of one entry at node 1 to bring across. -/
theorem repairing_trio (d : RaftLogEntry) (hindex : d.index = 1) (hterm : d.term = 1)
    (texts : d.InArrays) (alone : d.Alone) :
    Repairing (trioNode 0 .leader 1 [d]) (trioNode 2 .follower 1 []) where
  leader := by
    apply ranged_trioNode (by norm_num) (by simp [raftMaxLog])
    · intro c hc
      rw [List.mem_singleton.mp hc, hterm]
      norm_num
    · exact @Indexed.concat [] d (fun k c hc => by cases hc) hindex
  role := rfl
  texts c hc := List.mem_singleton.mp hc ▸ texts
  alone c hc := List.mem_singleton.mp hc ▸ alone
  follower := by decide
  room := Nat.zero_le _
  term := le_rfl
  listed := ⟨trioPeer 3, rfl, by decide⟩
  known := rfl
  matched k c b _ hb := by cases hb

/-- Node 1 brings its entry to node 3. -/
theorem repair_terminates_iff_trio : ∃ k, ∀ j, k ≤ j → ∃ s,
    repairRounds (fun _ => still) (trioNode 0 .leader 1 [⟨1, 1, .set, bytes "k", bytes "a"⟩],
      trioNode 2 .follower 1 []) j = some s ∧
    Repaired [⟨1, 1, .set, bytes "k", bytes "a"⟩] s.2 := by
  refine (repair_terminates_iff (repairing_trio _ rfl rfl ⟨by decide, by decide⟩ (by decide)) _).mpr
    (Or.inr ⟨?_, fun h => absurd h (by decide)⟩)
  intro k hk hle d hd
  obtain rfl : k = 1 := by
    have : k ≤ 1 := hle
    have : 0 < k := Nat.zero_lt_of_lt hk
    omega
  obtain rfl := Option.some.inj hd
  decide

/-- Node 1 leads with an entry that has lost its key on the way to it, and that no line carries. -/
theorem repair_stuck : ¬∀ (x y : RaftNode) (env : ℕ → Env), Repairing x y →
    ∃ k, ∀ j, k ≤ j → ∃ s, repairRounds env (x, y) j = some s ∧ Repaired x.log s.2 := by
  intro h
  have hrep := repairing_trio ⟨1, 1, .set, [], bytes "a"⟩ rfl rfl ⟨by decide, by decide⟩ (by decide)
  obtain ⟨k, hk⟩ := h _ _ (fun _ => still) hrep
  obtain ⟨run, hstart, hrun, rounds⟩ := hrep.exists_run fun _ => still
  obtain ⟨s, hs, hdone⟩ := hk k le_rfl
  obtain rfl := Option.some.inj ((hrun k).symm.trans hs)
  have hno : ¬carriedAt (trioNode 0 .leader 1 [⟨1, 1, .set, [], bytes "a"⟩]).log 1 :=
    fun hcarried => absurd (hcarried _ rfl) (by decide)
  have hbehind := agreement_lt_rounds rounds hno (by rw [hstart]; exact Nat.zero_lt_one) k
  exact absurd (repaired_iff.mp hdone) hbehind.ne

end RaftKv
