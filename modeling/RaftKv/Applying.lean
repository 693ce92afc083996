import RaftKv.Shape
import RaftKv.Store

/-! Applying never overflows the store.  What `apply_committed_locked` has applied are at most as
many commands as `last_applied` says, which is never beyond the log array, and so the slots of the
store are enough: every command that sets a key takes one slot at most. -/

namespace RaftKv

open Function Runs Stdio

attribute [local irreducible] toInt32

variable {x y : RaftNode} {store : KvStore} {op : KvOp} {key value : Text} {env : Env}
  {sec : Section} {e : Effect}

/-! ### The store -/

/-- `kv_apply` runs out of slots when all are used. -/
theorem kvApply_full (h : (kvApply store op key value).1 = -4) :
    (store.items.countP fun item => item.used) = raftMaxLog := by
  unfold kvApply at h
  split at h
  · cases h
  · split at h
    · cases h
    · split at h
      · cases h
      · split at h
        · split at h
          · cases h
          · cases h
        · split at h
          · cases h
          · split at h
            · rename_i hscan
              obtain ⟨-, -, hfree⟩ := kvScan_absent hscan
              rcases hfree rfl with ⟨-, hall⟩ | ⟨k, item, hsome, -⟩
              · rw [List.countP_eq_length.mpr hall, store.length_items]
              · cases hsome
            · cases h

/-- A call of `kv_apply` takes at most one more slot. -/
theorem kvApply_count_le (store : KvStore) (op : KvOp) (key value : Text) :
    (kvApply store op key value).2.count ≤ store.count + 1 := by
  unfold kvApply
  split
  · exact Nat.le_succ _
  · split
    · exact Nat.le_succ _
    · split
      · exact Nat.le_succ _
      · split
        · split
          · exact (Nat.sub_le _ _).trans (Nat.le_succ _)
          · exact Nat.le_succ _
        · split
          · exact Nat.le_succ _
          · split
            · exact Nat.le_succ _
            · exact le_rfl

/-- The result of a call that has not run out of slots: a `SET` of a valid key to a valid value has
been made. -/
structure Fitted (c : Call) (result : ℤ) : Prop where
  slots : result ≠ -4
  set : c.op = .set → isValidToken c.key raftMaxKey = true →
    isValidToken c.value raftMaxValue = true → result = 0

/-- A call on a store with a free slot. -/
theorem kvApply_fitted (h : store.WellFormed) (room : store.count < raftMaxLog) (c : Call) :
    Fitted c (kvApply store c.op c.key c.value).1 ∧
      (kvApply store c.op c.key c.value).2.WellFormed := by
  rw [h.count] at room
  have slots : (kvApply store c.op c.key c.value).1 ≠ -4 := fun h4 => room.ne (kvApply_full h4)
  rcases kvApply_cases h c.op c.key c.value with ⟨-, refuses, hsame⟩ | ⟨⟨hzero, hwf, -⟩, -⟩
  · rw [hsame]
    refine ⟨⟨slots, fun hop hkey hvalue => ?_⟩, h⟩
    rcases refuses with hbad | hbad | ⟨-, hbad⟩ | ⟨-, -, hfull⟩
    · exact absurd (hkey.symm.trans hbad) (by decide)
    · exact absurd hop hbad.1
    · exact absurd (hvalue.symm.trans hbad) (by decide)
    · exact absurd hfull room.ne
  · exact ⟨⟨slots, fun _ _ _ => hzero⟩, hwf⟩

/-- As many calls as there are slots left. -/
theorem runCalls_fitted {calls : List Call} (h : store.WellFormed)
    (room : store.count + calls.length ≤ raftMaxLog) :
    (runCalls store calls).1.WellFormed ∧
      (runCalls store calls).1.count ≤ store.count + calls.length ∧
      ∀ q ∈ (runCalls store calls).2, Fitted q.1 q.2 := by
  induction calls generalizing store with
  | nil => exact ⟨h, le_rfl, fun q hq => by cases hq⟩
  | cons c calls ih =>
    rw [List.length_cons] at room
    obtain ⟨hc, hwf⟩ := kvApply_fitted h (by omega) c
    have hcount := kvApply_count_le store c.op c.key c.value
    obtain ⟨hwf', hcount', hall⟩ := ih hwf (by omega)
    rw [runCalls_cons, List.length_cons]
    refine ⟨hwf', hcount'.trans (by omega), fun q hq => ?_⟩
    rcases List.mem_cons.mp hq with rfl | hq
    · exact hc
    · exact hall q hq

/-- The calls of `kv_apply` that the node has made, in order: each is logged with its entry. -/
def RaftNode.kvCalls (x : RaftNode) : List Call :=
  x.applied.map fun d => ⟨d.op, d.key, d.value⟩

theorem runCalls_replay (store : KvStore) (es : List RaftLogEntry) :
    (runCalls store (es.map fun d => ⟨d.op, d.key, d.value⟩)).1 = replay store es := by
  induction es generalizing store with
  | nil => rfl
  | cons d es ih => exact ih _

/-! ### What a section applies -/

/-- How far the node has committed and applied, and what it has applied. -/
def RaftNode.shelf (x : RaftNode) : ℕ × ℕ × KvStore × List RaftLogEntry :=
  (x.commitIndex, x.lastApplied, x.store, x.applied)

/-- The entries up to the commit index are applied. -/
def Applies (x y : RaftNode) : Prop :=
  ∃ es : List RaftLogEntry, es.length = y.commitIndex - x.lastApplied ∧
    y.shelf = (y.commitIndex, (x.replayed es).lastApplied, (x.replayed es).store,
      (x.replayed es).applied)

theorem shelf_logEvent {ev : Event} (h : ev.entry = none) : (x.logEvent ev).shelf = x.shelf := by
  simp [RaftNode.shelf, RaftNode.applied, RaftNode.logEvent, h]

/-- Nothing is applied where nothing new is committed. -/
theorem Applies.of_shelf (h : y.shelf = x.shelf) (done : x.commitIndex ≤ x.lastApplied) :
    Applies x y := by
  have hcommit : y.commitIndex = x.commitIndex := (Prod.mk.inj h).1
  refine ⟨[], ?_, ?_⟩
  · rw [List.length_nil]
    omega
  · rw [h, hcommit]
    simp [RaftNode.shelf, RaftNode.replayed, RaftNode.applied, replay, appliedFrom]

theorem applies_applyCommittedLocked {z : RaftNode} (h : applyCommittedLocked z = some y)
    (hz : z.shelf = (z.commitIndex, x.lastApplied, x.store, x.applied)) : Applies x y := by
  obtain ⟨-, hrest⟩ := Prod.mk.inj hz
  obtain ⟨happlied, hrest⟩ := Prod.mk.inj hrest
  obtain ⟨hstore, hentries⟩ := Prod.mk.inj hrest
  obtain ⟨rfl, hlength⟩ := applyCommittedLocked_eq h
  refine ⟨_, hlength.trans (by rw [happlied]; rfl), ?_⟩
  generalize (z.log.take z.commitIndex).drop z.lastApplied = es
  have hnew : (z.replayed es).applied = (x.replayed es).applied := by
    have hsplit : ∀ w : RaftNode, (w.replayed es).applied =
        w.applied ++ (appliedFrom w.lastApplied es).filterMap Event.entry :=
      fun w => List.filterMap_append
    rw [hsplit, hsplit, hentries, happlied]
  rw [RaftNode.shelf, hnew]
  simp only [RaftNode.replayed, happlied, hstore]

theorem shelf_becomeFollowerLocked (now : ℕ) (x : RaftNode) (t : ℕ) (l : ℤ) :
    (becomeFollowerLocked now x t l).shelf = x.shelf := by
  unfold becomeFollowerLocked
  split <;> rfl

theorem shelf_becomeLeaderLocked (x : RaftNode) : (becomeLeaderLocked x).shelf = x.shelf := by
  unfold becomeLeaderLocked
  rw [shelf_logEvent rfl]
  rfl

theorem shelf_candidate (now : ℕ) (x : RaftNode) : (candidate now x).shelf = x.shelf := by
  unfold candidate
  generalize toInt32 x.id = v, (x.currentTerm + 1) % 2 ^ 32 = t, randomElectionTimeout x now = r
  rfl

theorem shelf_startElection (now : ℕ) (x : RaftNode) :
    (startElection now x).node.shelf = x.shelf := by
  rw [startElection_eq]
  split
  · rw [shelf_logEvent rfl, shelf_becomeLeaderLocked, shelf_candidate]
  · rw [shelf_logEvent rfl, shelf_candidate]

theorem shelf_vote (x : RaftNode) (v : ℤ) (now : ℕ) :
    RaftNode.shelf { x with votedFor := v, lastLeaderContactMs := now } = x.shelf := rfl

theorem shelf_handleRequestVote (now : ℕ) (x : RaftNode) (t c li lt : ℕ) :
    (handleRequestVote now x t c li lt).node.shelf = x.shelf := by
  generalize hx : (if x.currentTerm < t then becomeFollowerLocked now x t (-1) else x) = x1
  have hshelf : x1.shelf = x.shelf := by
    rw [← hx]
    split
    · exact shelf_becomeFollowerLocked now x t (-1)
    · rfl
  rw [handleRequestVote_eq hx]
  split
  · exact (shelf_logEvent rfl).trans ((shelf_vote x1 (toInt32 c) now).trans hshelf)
  · exact (shelf_logEvent rfl).trans hshelf

theorem shelf_handleRequestVoteResponse (now : ℕ) (x : RaftNode) (t granted : ℕ) :
    (handleRequestVoteResponse now x t granted).node.shelf = x.shelf := by
  generalize he : handleRequestVoteResponse now x t granted = e
  cases voteResponse he with
  | observes => exact shelf_becomeFollowerLocked now x t (-1)
  | ignores | counts => rfl
  | wins => exact shelf_becomeLeaderLocked _

theorem shelf_raftSubmitCommand (env : Env) (x : RaftNode) (op : KvOp) (key value : Text) :
    (raftSubmitCommand env x op key value).node.shelf = x.shelf := by
  generalize he : raftSubmitCommand env x op key value = e
  cases submission he with
  | refused | forwards => rfl
  | leads =>
    unfold appendEntryLocked
    split <;> rfl

theorem shelf_membership {id port : ℕ} {host : Text} {r : ℤ}
    (h : Admission x id host port r y ∨ Removal x id r y) : y.shelf = x.shelf := by
  rcases h with hadd | hremove
  · cases hadd <;> rfl
  · cases hremove <;> rfl

theorem applies_recomputeCommitLocked {z : RaftNode} (h : recomputeCommitLocked z = some y)
    (hz : z.shelf = x.shelf) (done : x.commitIndex ≤ x.lastApplied) : Applies x y := by
  unfold recomputeCommitLocked at h
  split at h
  · rw [← Option.some.inj h]
    exact .of_shelf hz done
  · split at h
    · rename_i index hscan
      refine applies_applyCommittedLocked h ?_
      rw [shelf_logEvent rfl]
      exact congrArg (fun r => (index, r)) (Prod.mk.inj hz).2
    · rw [← Option.some.inj h]
      exact .of_shelf hz done

theorem applies_handleAppendEntries {now t l p pt lc has : ℕ} {d : RaftLogEntry}
    (he : handleAppendEntries now x t l p pt lc has d = some e)
    (done : x.commitIndex ≤ x.lastApplied) : Applies x e.node := by
  generalize hx : (if x.currentTerm ≤ t then becomeFollowerLocked now x t (toInt32 l)
    else x) = x1
  have hshelf : x1.shelf = x.shelf := by
    rw [← hx]
    split
    · exact shelf_becomeFollowerLocked now x t (toInt32 l)
    · rfl
  rcases handleAppendEntries_cases hx he with ⟨-, -, log, z, -, happ, rfl⟩ | ⟨-, rfl⟩
  · split at happ
    · refine applies_applyCommittedLocked happ ?_
      exact congrArg (fun r => (min lc log.length, r)) (Prod.mk.inj hshelf).2
    · rw [← Option.some.inj happ]
      exact .of_shelf hshelf done
  · exact .of_shelf hshelf done

/-- A section applies the entries up to the commit index that it leaves. -/
theorem exec_applies (he : exec env sec x = some e) (done : x.commitIndex ≤ x.lastApplied) :
    Applies x e.node := by
  cases sec with
  | startElection =>
    obtain rfl := Option.some.inj he
    exact .of_shelf (shelf_startElection env.now x) done
  | handleRequestVote t c li lt =>
    obtain rfl := Option.some.inj he
    exact .of_shelf (shelf_handleRequestVote env.now x t c li lt) done
  | handleRequestVoteResponse t v granted =>
    obtain rfl := Option.some.inj he
    exact .of_shelf (shelf_handleRequestVoteResponse env.now x t granted) done
  | handleAppendEntries t l p pt lc has d => exact applies_handleAppendEntries he done
  | handleAppendResponse t p success m =>
    cases appendResponse he with
    | observes => exact .of_shelf (shelf_becomeFollowerLocked env.now x t (-1)) done
    | ignores | backs => exact .of_shelf rfl done
    | takes h succeeds z recomputed => exact applies_recomputeCommitLocked recomputed rfl done
  | sendAppendToPeer id =>
    cases transmission he with
    | unknown | sends => exact .of_shelf rfl done
  | raftSubmitCommand op key value | handleClientForward source op key value =>
    obtain rfl := Option.some.inj he
    exact .of_shelf (shelf_raftSubmitCommand env x op key value) done
  | tickerLoop lastHeartbeat =>
    obtain rfl := Option.some.inj he
    exact .of_shelf (congrArg RaftNode.shelf (node_tickerLoop env.now x lastHeartbeat)) done
  | submitPeerless =>
    obtain rfl := Option.some.inj he
    exact .of_shelf (congrArg RaftNode.shelf (node_submitPeerless x)) done
  | submitCommit =>
    obtain ⟨z, hz, he⟩ := Option.bind_eq_some_iff.mp he
    rw [← Option.some.inj he]
    exact applies_applyCommittedLocked hz rfl
  | handleJoin id host port | handlePeerAnnounce id host port =>
    obtain rfl := Option.some.inj he
    exact .of_shelf (shelf_membership (Or.inl (admission x id host port))) done
  | handleLeave id =>
    obtain rfl := Option.some.inj he
    exact .of_shelf (@shelf_membership _ _ id 0 [] _ (Or.inr (removal x id))) done
  | tickerMark | broadcastAppend | sendPeerCatalog _ _ | announcePeerToKnownNodes _ _ _ _
  | announceLeaveToKnownNodes _ | requestClusterJoin | requestClusterLeave =>
    obtain rfl := Option.some.inj he
    exact .of_shelf rfl done

/-! ### Runs -/

/-- The commands applied are at most as many as the log has places. -/
structure StoreInv (x : RaftNode) : Prop where
  log : LogOk x.log
  done : x.commitIndex ≤ x.lastApplied
  room : x.lastApplied ≤ raftMaxLog
  applied : x.applied.length ≤ x.lastApplied
  store : x.store = replay KvStore.zero x.applied

theorem storeInv_init (now : ℕ) (config : RaftConfig) : StoreInv (raftNodeInit now config) where
  log := ⟨Nat.zero_le _, fun k d hd => by cases hd⟩
  done := le_rfl
  room := Nat.zero_le _
  applied := le_rfl
  store := rfl

theorem length_appliedFrom_le (slot : ℕ) (es : List RaftLogEntry) :
    ((appliedFrom slot es).filterMap Event.entry).length ≤ es.length := by
  induction es generalizing slot with
  | nil => exact le_rfl
  | cons d es ih =>
    have hrest := ih (slot + 1)
    rw [appliedFrom, List.filterMap_append, List.length_append, List.length_cons]
    split
    · simp only [Event.entry, List.filterMap_cons, List.filterMap_nil, List.length_singleton]
      omega
    · simp only [List.filterMap_nil, List.length_nil]
      omega

theorem StoreInv.exec (h : StoreInv x) (he : exec env sec x = some e) : StoreInv e.node := by
  obtain ⟨es, hlength, hshelf⟩ := exec_applies he h.done
  have hlog := h.log.exec he
  have hcommit := (exec_log he).2
  obtain ⟨-, hrest⟩ := Prod.mk.inj hshelf
  obtain ⟨happlied, hrest⟩ := Prod.mk.inj hrest
  obtain ⟨hstore, hentries⟩ := Prod.mk.inj hrest
  have hsplit : (x.replayed es).applied =
      x.applied ++ (appliedFrom x.lastApplied es).filterMap Event.entry := List.filterMap_append
  have hfew := length_appliedFrom_le x.lastApplied es
  have hlast : e.node.lastApplied = x.lastApplied + es.length := happlied
  have hdone := h.done
  have hroom := h.room
  have hcount := h.applied
  have hsize := hlog.room
  rw [RaftNode.logCount] at hcommit
  refine ⟨hlog, by omega, by omega, ?_, ?_⟩
  · rw [hentries, hsplit, List.length_append]
    omega
  · rw [hentries, hsplit, replay_append, ← h.store, replay_appliedFrom]
    exact hstore

/-- Applying never overflows the store: in every reachable state of a cluster whose members come and
go, with lines lost, repeated and reordered, the store has at most `last_applied` slots in use, and
all that a node has committed it has applied; and the calls of `kv_apply` that it has made have
found a slot, so that no `SET` of a valid key to a valid value was dropped. -/
theorem applying_never_overflows {n : ℕ} {now : Fin n → ℕ} {config : Fin n → RaftConfig}
    {s : Cluster n} (run : Reach Cluster.stepAgain (fun _ _ => True) (Cluster.start now config) s)
    (i : Fin n) :
    ((s.node i).store.items.countP fun item => item.used) ≤ (s.node i).lastApplied ∧
    (s.node i).commitIndex ≤ raftMaxLog ∧ (s.node i).commitIndex ≤ (s.node i).lastApplied ∧
    (s.node i).store = (runCalls KvStore.zero (s.node i).kvCalls).1 ∧
    ∀ q ∈ (runCalls KvStore.zero (s.node i).kvCalls).2, q.2 ≠ -4 ∧
      (q.1.op = .set → isValidToken q.1.key raftMaxKey = true →
        isValidToken q.1.value raftMaxValue = true → q.2 = 0) := by
  have h : ∀ i, StoreInv (s.node i) := by
    refine run.invariant (P := fun s => ∀ i, StoreInv (s.node i))
      (fun i => storeInv_init (now i) (config i)) ?_
    rintro s d s' - h - hstep
    cases d with
    | again k =>
      obtain ⟨p, -, rfl⟩ := Option.map_eq_some_iff.mp hstep
      exact h
    | act a =>
      rcases Cluster.step_cases hstep with ⟨_, _, _, -, rfl⟩ |
        ⟨j, env, sec, rest, threads, net, e, -, -, he, rfl⟩
      · exact h
      · intro i
        by_cases hi : i = j
        · subst hi
          simp only [update_self]
          exact (h i).exec he
        · simp only [update_of_ne hi]
          exact h i
  obtain ⟨-, hdone, hroom, happlied, hstore⟩ := h i
  have hcalls : (s.node i).kvCalls.length ≤ (s.node i).lastApplied := by
    rw [RaftNode.kvCalls, List.length_map]
    exact happlied
  have hrun : (s.node i).store = (runCalls KvStore.zero (s.node i).kvCalls).1 :=
    hstore.trans (runCalls_replay _ _).symm
  have hzero : KvStore.zero.count = 0 := rfl
  obtain ⟨hwf, hcount, hfitted⟩ := @runCalls_fitted _ (s.node i).kvCalls wellFormed_zero (by omega)
  refine ⟨?_, hdone.trans hroom, hdone, hrun, fun q hq => ?_⟩
  · rw [hrun, ← hwf.count]
    omega
  · exact ⟨(hfitted q hq).slots, (hfitted q hq).set⟩

/-- Node 1 is elected, and nodes 1 and 2 apply its command. -/
theorem applying_never_overflows_trio : ∃ s,
    Reach Cluster.stepAgain (fun _ _ => True) trio s ∧ (s.node 1).kvCalls ≠ [] ∧
    ∀ q ∈ (runCalls KvStore.zero (s.node 1).kvCalls).2, q.2 ≠ -4 := by
  have hrun : (runList Cluster.stepAgain (fun _ _ => true) trio (trioCommit.map .act)).any
      (fun s => (s.node 1).applied ≠ []) = true := by
    decide +kernel
  obtain ⟨s, run, hs⟩ := exists_reach (fun _ _ _ => trivial) hrun
  have hcalls : (s.node 1).kvCalls ≠ [] := by
    simpa [RaftNode.kvCalls] using of_decide_eq_true hs
  obtain ⟨-, -, -, -, hfitted⟩ := applying_never_overflows run 1
  exact ⟨s, run, hcalls, fun q hq => (hfitted q hq).1⟩

end RaftKv
