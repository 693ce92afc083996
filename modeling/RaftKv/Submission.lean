import RaftKv.Bounds
import RaftKv.Exchange

/-! A whole call of `raft_submit_command` at a leader, through its two critical sections and the
sending between them.  The call reports success also when the log was full and the command lost. -/

namespace RaftKv

open Stdio

attribute [local irreducible] toInt32

/-- A thread runs its sections to the end, with no other thread of the node in between: the node
then, and the value that `raft_submit_command` has returned. -/
inductive Completes : RaftNode → List Section → RaftNode → Option ℤ → Prop
  | done (x : RaftNode) : Completes x [] x none
  | run {env : Env} {sec : Section} {rest : List Section} {x y : RaftNode} {e : Effect}
      {r : Option ℤ} (he : exec env sec x = some e) (h : Completes e.node (e.todo ++ rest) y r) :
      Completes x (sec :: rest) y (e.ret <|> r)

/-- What the caller of `raft_submit_command` at the leader `x` can rely on: with 0 the log has got
the command, and without a new entry the value is negative and nothing has changed. -/
structure AllOrNothing (x : RaftNode) (op : KvOp) (key value : Text) (y : RaftNode) (r : ℤ) :
    Prop where
  accepted : r = 0 → y.log = x.log ++ [⟨x.logCount + 1, x.currentTerm, op, key, value⟩]
  refused : y.log = x.log → r < 0 ∧ y.commitIndex = x.commitIndex ∧
    y.lastApplied = x.lastApplied ∧ y.store = x.store

variable {x y : RaftNode} {op : KvOp} {key value : Text} {env : Env} {e : Effect} {r : Option ℤ}

theorem Completes.nil (h : Completes x [] y r) : y = x ∧ r = none := by
  cases h
  exact ⟨rfl, rfl⟩

theorem Completes.cons {sec : Section} {rest : List Section} (h : Completes x (sec :: rest) y r) :
    ∃ env e r', exec env sec x = some e ∧ Completes e.node (e.todo ++ rest) y r' ∧
      r = (e.ret <|> r') := by
  cases h with
  | run he h => exact ⟨_, _, _, he, h, rfl⟩

/-! ### The call of a leader -/

/-- What sending to a peer changes. -/
theorem sendAppendToPeer_peers {id : ℕ} (he : sendAppendToPeer x id = some e) :
    e.todo = [] ∧ e.ret = none ∧
      ∃ ps, e.node = { x with peers := ps } ∧ ps.length = x.peers.length := by
  cases transmission he with
  | unknown => exact ⟨rfl, rfl, x.peers, rfl, rfl⟩
  | sends => exact ⟨rfl, rfl, _, rfl, length_modifyPeer _ id x.peers⟩

/-- A thread that sends to peers before it goes on. -/
theorem Completes.of_sends {ids : List ℕ} {rest : List Section}
    (h : Completes x (ids.map .sendAppendToPeer ++ rest) y r) :
    ∃ ps : List Peer, ps.length = x.peers.length ∧ Completes { x with peers := ps } rest y r := by
  induction ids generalizing x r with
  | nil => exact ⟨x.peers, rfl, h⟩
  | cons id ids ih =>
    obtain ⟨env, e, r', he, hnext, rfl⟩ := Completes.cons h
    obtain ⟨htodo, hret, ps, hnode, hlen⟩ := sendAppendToPeer_peers he
    rw [htodo, List.nil_append, hnode] at hnext
    obtain ⟨ps', hlen', hend⟩ := ih hnext
    rw [hret]
    exact ⟨ps', hlen'.trans hlen, hend⟩

/-- The commit without peers keeps the log and returns 0. -/
theorem Completes.of_commit (h : Completes x [.submitCommit] y r) :
    r = some 0 ∧ y.log = x.log := by
  obtain ⟨env, e, r', he, hnext, rfl⟩ := h.cons
  obtain ⟨z, hz, he⟩ := Option.bind_eq_some_iff.mp he
  obtain rfl := Option.some.inj he
  obtain ⟨rfl, -⟩ := Completes.nil hnext
  rw [(applyCommittedLocked_eq hz).1]
  exact ⟨rfl, rfl⟩

/-- The end of a call that has found a leader. -/
theorem Completes.of_peerless (h : Completes x [.submitPeerless] y r) :
    r = some 0 ∧ y.log = x.log := by
  obtain ⟨env, e, r', he, hnext, rfl⟩ := h.cons
  obtain rfl := Option.some.inj he
  unfold submitPeerless at hnext ⊢
  split at hnext
  · rename_i hnone
    rw [if_pos hnone]
    obtain ⟨rfl, hlog⟩ := Completes.of_commit hnext
    exact ⟨rfl, hlog⟩
  · rename_i hpeers
    rw [if_neg hpeers]
    obtain ⟨rfl, -⟩ := Completes.nil hnext
    exact ⟨rfl, rfl⟩

/-- A call at a leader is refused before anything changes, or returns 0 with the log that
`append_entry_locked` has left. -/
theorem Completes.of_submit (lead : x.role = .leader)
    (h : Completes x [.raftSubmitCommand op key value] y r) :
    (¬Checked op key value ∧ r = some (-1) ∧ y = x) ∨
    (Checked op key value ∧ r = some 0 ∧ y.log = (appendEntryLocked x op key value).2.log) := by
  obtain ⟨env, e, r', he, hnext, rfl⟩ := h.cons
  obtain rfl := Option.some.inj he
  by_cases checked : Checked op key value
  · right
    rw [raftSubmitCommand_leader checked lead] at hnext ⊢
    obtain ⟨env', e', r'', he', hsends, rfl⟩ := Completes.cons hnext
    obtain rfl := Option.some.inj he'
    obtain ⟨ps, -, hend⟩ := @Completes.of_sends _ y _
      ((appendEntryLocked x op key value).2.peers.map fun p => p.id) [.submitPeerless] (by
        rw [List.map_map]
        exact hsends)
    obtain ⟨rfl, hlog⟩ := hend.of_peerless
    exact ⟨checked, rfl, hlog⟩
  · left
    rw [raftSubmitCommand_unchecked checked] at hnext ⊢
    obtain ⟨rfl, rfl⟩ := Completes.nil hnext
    exact ⟨checked, rfl, rfl⟩

/-! ### The call comes to its end -/

theorem completes_sends (ids : List ℕ) (rest : List Section) (ok : LogOk x.log)
    (h : ∀ ps : List Peer, ∃ y r, Completes { x with peers := ps } rest y r) :
    ∃ y r, Completes x (ids.map .sendAppendToPeer ++ rest) y r := by
  induction ids generalizing x with
  | nil => exact h x.peers
  | cons id ids ih =>
    obtain ⟨e, he⟩ := Option.isSome_iff_exists.mp
      ((@exec_isSome_iff x still (.sendAppendToPeer id) ok).mpr trivial)
    obtain ⟨htodo, -, ps, hnode, -⟩ := sendAppendToPeer_peers he
    obtain ⟨y, r, hrun⟩ := ih (x := { x with peers := ps }) ok h
    exact ⟨y, _, .run he (by rw [htodo, List.nil_append, hnode]; exact hrun)⟩

theorem completes_peerless (x : RaftNode) : ∃ y r, Completes x [.submitPeerless] y r := by
  by_cases hnone : x.peerCount = 0
  · have htest : exec still .submitPeerless x = some { node := x, todo := [.submitCommit] } :=
      congrArg some (if_pos hnone)
    obtain ⟨z, hz⟩ := Option.isSome_iff_exists.mp
      (@applyCommittedLocked_isSome { x with commitIndex := x.logCount } le_rfl)
    have hcommit : exec still .submitCommit x = some { node := z, ret := some 0 } := by
      simp only [exec, submitCommit, hz, Option.bind_eq_bind, Option.bind_some]
    exact ⟨z, _, .run htest (.run hcommit (.done z))⟩
  · have htest : exec still .submitPeerless x = some { node := x, ret := some 0 } :=
      congrArg some (if_neg hnone)
    exact ⟨x, _, .run htest (.done x)⟩

theorem completes_submit (lead : x.role = .leader) (ok : LogOk x.log) (op : KvOp)
    (key value : Text) : ∃ y r, Completes x [.raftSubmitCommand op key value] y r := by
  have he : exec still (.raftSubmitCommand op key value) x =
      some (raftSubmitCommand still x op key value) := rfl
  have hok := ok.exec he
  by_cases checked : Checked op key value
  · rw [raftSubmitCommand_leader checked lead] at he hok
    obtain ⟨y, r, hrun⟩ := completes_sends
      ((appendEntryLocked x op key value).2.peers.map fun p => p.id) [.submitPeerless] hok
      fun ps => completes_peerless _
    rw [List.map_map] at hrun
    exact ⟨y, _, .run he (@Completes.run still .broadcastAppend _ _ _ _ _ rfl hrun)⟩
  · rw [raftSubmitCommand_unchecked checked] at he
    exact ⟨x, _, .run he (.done x)⟩

/-! ### What the caller can rely on -/

/-- The value that `append_entry_locked` stores is the command's own when it fits. -/
theorem submitted_entry (checked : Checked op key value) (room : x.logCount < raftMaxLog) :
    (appendEntryLocked x op key value).2.log =
      x.log ++ [⟨x.logCount + 1, x.currentTerm, op, key, value⟩] ↔
    value.length < raftMaxValue := by
  have hkey : copyText raftMaxKey key = key := by
    have h := checked.key
    simp only [not_or, Bool.not_eq_true', Bool.not_eq_false] at h
    exact copyText_of_isToken (isToken_of_isValidToken h.2)
  have hcut : copyText raftMaxValue value = value ↔ value.length < raftMaxValue := by
    rw [copyText, List.take_eq_self_iff]
    simp only [raftMaxValue]
    omega
  unfold appendEntryLocked
  rw [if_neg (by omega), hkey, ← hcut]
  simp

/-- A call at a leader comes to its end, and is all or nothing exactly when the command is refused
or there is room in the log and for its value. -/
theorem submit_all_or_nothing_iff (lead : x.role = .leader) (ok : LogOk x.log) :
    (∃ y r, Completes x [.raftSubmitCommand op key value] y (some r)) ∧
    ((∀ y r, Completes x [.raftSubmitCommand op key value] y (some r) →
        AllOrNothing x op key value y r) ↔
      (Checked op key value → x.logCount < raftMaxLog ∧ value.length < raftMaxValue)) := by
  obtain ⟨y, r, hrun⟩ := completes_submit lead ok op key value
  constructor
  · rcases hrun.of_submit lead with ⟨-, rfl, -⟩ | ⟨-, rfl, -⟩
    · exact ⟨y, -1, hrun⟩
    · exact ⟨y, 0, hrun⟩
  · constructor
    · intro h checked
      rcases hrun.of_submit lead with ⟨hno, -⟩ | ⟨-, rfl, hlog⟩
      · exact absurd checked hno
      · have hentry := hlog.symm.trans ((h y 0 hrun).accepted rfl)
        have room : x.logCount < raftMaxLog := by
          by_contra full
          unfold appendEntryLocked at hentry
          rw [if_pos (not_lt.mp full)] at hentry
          simpa using congrArg List.length hentry
        exact ⟨room, (submitted_entry checked room).mp hentry⟩
    · intro h y r hrun
      rcases hrun.of_submit lead with ⟨-, hr, rfl⟩ | ⟨checked, hr, hlog⟩
      · obtain rfl := Option.some.inj hr
        exact ⟨fun h0 => absurd h0 (by decide), fun _ => ⟨by decide, rfl, rfl, rfl⟩⟩
      · obtain ⟨room, hvalue⟩ := h checked
        have hentry := hlog.trans ((submitted_entry checked room).mpr hvalue)
        refine ⟨fun _ => hentry, fun hsame => ?_⟩
        simpa using congrArg List.length (hsame.symm.trans hentry)

/-- Node 1, which has room, takes a command. -/
theorem submit_all_or_nothing_iff_trio : ∃ y r,
    Completes (trioNode 0 .leader 1 []) [.raftSubmitCommand .set (bytes "k") (bytes "a")] y
      (some r) ∧
    AllOrNothing (trioNode 0 .leader 1 []) .set (bytes "k") (bytes "a") y r := by
  have ok : LogOk (trioNode 0 .leader 1 []).log := ⟨Nat.zero_le _, fun k d hd => by cases hd⟩
  obtain ⟨⟨y, r, hrun⟩, hiff⟩ := @submit_all_or_nothing_iff (trioNode 0 .leader 1 []) .set
    (bytes "k") (bytes "a") rfl ok
  exact ⟨y, r, hrun, hiff.mpr (fun _ => ⟨by decide, by decide⟩) y r hrun⟩

/-- A log that fills its array. -/
def fullLog : List RaftLogEntry :=
  (List.range raftMaxLog).map fun k => ⟨k + 1, 1, .set, bytes "k", bytes "a"⟩

theorem length_fullLog : fullLog.length = raftMaxLog := by
  rw [fullLog, List.length_map, List.length_range]

theorem logOk_fullLog : LogOk fullLog where
  room := length_fullLog.le
  indexed k d hd := by
    simp only [fullLog, List.getElem?_map, Option.map_eq_some_iff] at hd
    obtain ⟨j, hj, rfl⟩ := hd
    obtain ⟨hlt, rfl⟩ := List.getElem?_eq_some_iff.mp hj
    rw [List.getElem_range]

/-- Node 1, whose log is full, loses a command and returns 0. -/
theorem submit_lost : ¬∀ (x : RaftNode) (op : KvOp) (key value : Text), x.role = .leader →
    LogOk x.log → ∀ y r, Completes x [.raftSubmitCommand op key value] y (some r) →
    AllOrNothing x op key value y r := by
  intro h
  have checked : Checked .set (bytes "k") (bytes "a") := ⟨by decide, by decide⟩
  obtain ⟨x, hlog, lead⟩ : ∃ x : RaftNode, x.log = fullLog ∧ x.role = .leader :=
    ⟨trioNode 0 .leader 1 fullLog, by dsimp only [trioNode], rfl⟩
  have ok : LogOk x.log := hlog ▸ logOk_fullLog
  obtain ⟨y, r, hrun⟩ := completes_submit lead ok .set (bytes "k") (bytes "a")
  rcases hrun.of_submit lead with ⟨hno, -⟩ | ⟨-, rfl, hsame⟩
  · exact hno checked
  · have hentry := (h _ _ _ _ lead ok y 0 hrun).accepted rfl
    have hfull : raftMaxLog ≤ x.logCount := by
      rw [RaftNode.logCount, hlog, length_fullLog]
    unfold appendEntryLocked at hsame
    rw [if_pos hfull, hentry] at hsame
    simpa using congrArg List.length hsame

end RaftKv
