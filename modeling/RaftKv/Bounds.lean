import RaftKv.Config
import RaftKv.LogTurn

/-! The positions of `node->log` and `node->peers` that the sections use.  The numbers of a line are
any `uint32_t` values, and an `AE` line with an entry of index 0 makes `handle_append_entries` use
position `0 - 1u`.  It is the one access outside the arrays that lines can lead to. -/

namespace RaftKv

open Runs Stdio

attribute [local irreducible] toInt32

/-! ### Positions -/

/-- `i - 1u`. -/
def pred32 (i : ℕ) : ℕ := (i + 2 ^ 32 - 1) % 2 ^ 32

def lastLogTermUses (x : RaftNode) : List ℕ := if x.logCount = 0 then [] else [pred32 x.logCount]

def applyCommittedUses (x : RaftNode) : List ℕ :=
  List.range' x.lastApplied (x.commitIndex - x.lastApplied)

def recomputeCommitUses (x : RaftNode) : List ℕ :=
  if x.role ≠ .leader then []
  else match commitScan x x.logCount with
    | some index =>
      (List.range' index (x.logCount + 1 - index)).map pred32 ++
        applyCommittedUses { x with commitIndex := index }
    | none => (List.range' (x.commitIndex + 1) (x.logCount - x.commitIndex)).map pred32

def buildAppendUses (x : RaftNode) (peer : Peer) : List ℕ :=
  let nextIndex := (nextIndexLocked x peer).toNat
  let nextIndex := if nextIndex = 0 then 1 else nextIndex
  if nextIndex ≤ x.logCount then
    let prevIndex := pred32 (x.log[nextIndex - 1]?.elim 0 fun entry => entry.index)
    pred32 nextIndex :: if prevIndex = 0 then [] else [pred32 prevIndex]
  else lastLogTermUses x

/-- In `handle_append_entries` with an entry: the position that is compared, and the one that is
written, after `log_count` has been cut to the position before a conflict. -/
def storeEntryUses (log : List RaftLogEntry) (incoming : RaftLogEntry) : List ℕ :=
  let conflict := incoming.index ≤ log.length ∧
    log[pred32 incoming.index]?.map (·.term) ≠ some incoming.term
  let logCount := if conflict then pred32 incoming.index else log.length
  (if incoming.index ≤ log.length then [pred32 incoming.index] else []) ++
    if incoming.index = logCount + 1 ∧ logCount < raftMaxLog then [logCount] else []

def handleAppendEntriesUses (x : RaftNode) (term prevIndex prevTerm leaderCommit hasEntry : ℕ)
    (incoming : RaftLogEntry) : List ℕ :=
  if term < x.currentTerm then []
  else (if prevIndex ≠ 0 ∧ prevIndex ≤ x.logCount then [pred32 prevIndex] else []) ++
    if prevMatches x prevIndex prevTerm then
      (if hasEntry ≠ 0 then storeEntryUses x.log incoming else []) ++
        match (if hasEntry ≠ 0 then storeEntry x.log incoming else some x.log) with
        | some log =>
          if x.commitIndex < leaderCommit then
            applyCommittedUses { x with log, commitIndex := min leaderCommit log.length }
          else []
        | none => []
    else []

/-- The positions of `node->log` that a section uses. -/
def Section.logUses (x : RaftNode) : Section → List ℕ
  | .startElection | .handleRequestVote _ _ _ _ => lastLogTermUses x
  | .handleAppendEntries term _ prevIndex prevTerm leaderCommit hasEntry incoming =>
    handleAppendEntriesUses x term prevIndex prevTerm leaderCommit hasEntry incoming
  | .handleAppendResponse term peerId success matchIndex =>
    if x.role = .leader ∧ term = x.currentTerm ∧ (findPeer x peerId).isSome ∧ success ≠ 0 then
      let assign (p : Peer) : Peer :=
        { p with matchIndex := toInt32 matchIndex, nextIndex := toInt32 (toInt32 matchIndex + 1) }
      recomputeCommitUses { x with peers := modifyPeer assign peerId x.peers }
    else []
  | .sendAppendToPeer peerId => (findPeer x peerId).elim [] (buildAppendUses x)
  | .raftSubmitCommand _ _ _ | .handleClientForward _ _ _ _ =>
    if x.role = .leader ∧ x.logCount < raftMaxLog then [x.logCount] else []
  | .submitCommit => applyCommittedUses { x with commitIndex := x.logCount }
  | _ => []

/-- The positions of `node->peers` that a section can use: those of the peers, and the next one for
a new peer. -/
def Section.peerUses (x : RaftNode) : Section → List ℕ
  | .handleJoin peerId _ _ | .handlePeerAnnounce peerId _ _ =>
    List.range x.peerCount ++
      if (findPeer x peerId).isNone ∧ x.peerCount < raftMaxPeers then [x.peerCount] else []
  | _ => List.range x.peerCount

/-- Every position that the section uses is in the array. -/
def InArrays (x : RaftNode) (sec : Section) : Prop :=
  (∀ k ∈ sec.logUses x, k < raftMaxLog) ∧ ∀ k ∈ sec.peerUses x, k < raftMaxPeers

/-- An `AE` section does not accept an entry of index 0. -/
def Counted (x : RaftNode) : Section → Prop
  | .handleAppendEntries term _ prevIndex prevTerm _ hasEntry incoming =>
    x.currentTerm ≤ term → prevMatches x prevIndex prevTerm = true → hasEntry ≠ 0 →
      incoming.index ≠ 0
  | _ => True

/-- The counters are within the arrays, and entry `i` of the log has index `i`. -/
structure Bounded (x : RaftNode) : Prop where
  log : LogOk x.log
  peers : x.peerCount ≤ raftMaxPeers

variable {x y : RaftNode} {env : Env} {sec : Section} {e : Effect}

/-! ### The uses of the log -/

theorem pred32_of_pos {i : ℕ} (hpos : 0 < i) (hlt : i < 2 ^ 32) : pred32 i = i - 1 := by
  unfold pred32
  omega

theorem pred32_lt {i : ℕ} (hpos : 0 < i) (hle : i ≤ raftMaxLog) : pred32 i < raftMaxLog := by
  rw [raftMaxLog] at *
  rw [pred32_of_pos hpos (by omega)]
  omega

theorem lastLogTermUses_lt (room : x.logCount ≤ raftMaxLog) :
    ∀ k ∈ lastLogTermUses x, k < raftMaxLog := by
  intro k hk
  unfold lastLogTermUses at hk
  split at hk
  · cases hk
  · rw [List.mem_singleton.mp hk]
    exact pred32_lt (by omega) room

theorem applyCommittedUses_lt (room : x.commitIndex ≤ raftMaxLog) :
    ∀ k ∈ applyCommittedUses x, k < raftMaxLog := by
  intro k hk
  rw [applyCommittedUses, List.mem_range'_1] at hk
  omega

theorem recomputeCommitUses_lt (room : x.logCount ≤ raftMaxLog) :
    ∀ k ∈ recomputeCommitUses x, k < raftMaxLog := by
  intro k hk
  unfold recomputeCommitUses at hk
  split at hk
  · cases hk
  · split at hk
    · rename_i index hscan
      obtain ⟨hnew, hle, -, -⟩ := commitScan_spec hscan
      rcases List.mem_append.mp hk with hk | hk
      · obtain ⟨i, hi, rfl⟩ := List.mem_map.mp hk
        rw [List.mem_range'_1] at hi
        exact pred32_lt (by omega) (by omega)
      · exact applyCommittedUses_lt (x := { x with commitIndex := index }) (hle.trans room) k hk
    · obtain ⟨i, hi, rfl⟩ := List.mem_map.mp hk
      rw [List.mem_range'_1] at hi
      exact pred32_lt (by omega) (by omega)

theorem buildAppendUses_lt (ok : LogOk x.log) (peer : Peer) :
    ∀ k ∈ buildAppendUses x peer, k < raftMaxLog := by
  intro k hk
  simp only [buildAppendUses] at hk
  generalize hn : (if (nextIndexLocked x peer).toNat = 0 then 1
    else (nextIndexLocked x peer).toNat) = n at hk
  have hpos : 0 < n := by
    subst hn
    split <;> omega
  have hroom : x.logCount ≤ raftMaxLog := ok.room
  split at hk
  · rename_i hle
    have hlast : n - 1 < x.log.length := by
      rw [RaftNode.logCount] at hle
      omega
    have hget := List.getElem?_eq_getElem hlast
    have hindex := ok.indexed _ _ hget
    rw [hget, Option.elim_some, hindex] at hk
    have hn : n ≤ raftMaxLog := hle.trans hroom
    rcases List.mem_cons.mp hk with hk | hk
    · rw [hk]
      exact pred32_lt hpos hn
    · split at hk
      · cases hk
      · rename_i hprev
        have hlt : n < 2 ^ 32 := hn.trans_lt (by decide)
        rw [Nat.sub_add_cancel hpos, pred32_of_pos hpos hlt] at hk hprev
        rw [List.mem_singleton.mp hk]
        exact pred32_lt (Nat.pos_of_ne_zero hprev) ((Nat.sub_le n 1).trans hn)
  · exact lastLogTermUses_lt hroom k hk

theorem storeEntryUses_lt {log : List RaftLogEntry} {d : RaftLogEntry}
    (room : log.length ≤ raftMaxLog) (counted : d.index ≠ 0) :
    ∀ k ∈ storeEntryUses log d, k < raftMaxLog := by
  intro k hk
  simp only [storeEntryUses] at hk
  generalize (if d.index ≤ log.length ∧ log[pred32 d.index]?.map (·.term) ≠ some d.term then
    pred32 d.index else log.length) = count at hk
  rcases List.mem_append.mp hk with hk | hk
  · split at hk
    · rename_i hle
      rw [List.mem_singleton.mp hk]
      exact pred32_lt (Nat.pos_of_ne_zero counted) (hle.trans room)
    · cases hk
  · split at hk
    · rename_i hnext
      rw [List.mem_singleton.mp hk]
      exact hnext.2
    · cases hk

theorem handleAppendEntriesUses_lt {t p pt lc has : ℕ} {d : RaftLogEntry}
    (room : x.logCount ≤ raftMaxLog)
    (counted : x.currentTerm ≤ t → prevMatches x p pt = true → has ≠ 0 → d.index ≠ 0) :
    ∀ k ∈ handleAppendEntriesUses x t p pt lc has d, k < raftMaxLog := by
  intro k hk
  unfold handleAppendEntriesUses at hk
  split at hk
  · cases hk
  · rename_i hterm
    rcases List.mem_append.mp hk with hk | hk
    · split at hk
      · rename_i hprev
        rw [List.mem_singleton.mp hk]
        exact pred32_lt (Nat.pos_of_ne_zero hprev.1) (hprev.2.trans room)
      · cases hk
    · split at hk
      · rename_i hmatch
        rcases List.mem_append.mp hk with hk | hk
        · split at hk
          · rename_i hhas
            exact storeEntryUses_lt room (counted (by omega) hmatch hhas) k hk
          · cases hk
        · split at hk
          · rename_i log hlog
            have hlength : log.length ≤ raftMaxLog := by
              split at hlog
              · exact storeEntry_length hlog room
              · rw [← Option.some.inj hlog]
                exact room
            split at hk
            · exact applyCommittedUses_lt
                (x := { x with log, commitIndex := min lc log.length })
                ((min_le_right _ _).trans hlength) k hk
            · cases hk
          · cases hk
      · cases hk

/-- A section uses positions in the arrays when it does not accept an entry of index 0. -/
theorem Bounded.inArrays (h : Bounded x) (counted : Counted x sec) : InArrays x sec := by
  have hroom : x.logCount ≤ raftMaxLog := h.log.room
  have hpeers : ∀ k ∈ List.range x.peerCount, k < raftMaxPeers := fun k hk =>
    (List.mem_range.mp hk).trans_le h.peers
  constructor
  · cases sec with
    | startElection => exact lastLogTermUses_lt hroom
    | handleRequestVote t c li lt => exact lastLogTermUses_lt hroom
    | handleAppendEntries t l p pt lc has d => exact handleAppendEntriesUses_lt hroom counted
    | handleAppendResponse t p success m =>
      intro k hk
      simp only [Section.logUses] at hk
      split at hk
      · exact recomputeCommitUses_lt (by exact hroom) k hk
      · cases hk
    | sendAppendToPeer id =>
      intro k hk
      simp only [Section.logUses] at hk
      cases hpeer : findPeer x id with
      | none =>
        rw [hpeer] at hk
        cases hk
      | some peer =>
        rw [hpeer] at hk
        exact buildAppendUses_lt h.log peer k hk
    | raftSubmitCommand op key value | handleClientForward source op key value =>
      intro k hk
      simp only [Section.logUses] at hk
      split at hk
      · rename_i hlead
        rw [List.mem_singleton.mp hk]
        exact hlead.2
      · cases hk
    | submitCommit =>
      exact applyCommittedUses_lt (x := { x with commitIndex := x.logCount }) hroom
    | _ =>
      intro k hk
      cases hk
  · cases sec with
    | handleJoin id host port | handlePeerAnnounce id host port =>
      intro k hk
      rcases List.mem_append.mp hk with hk | hk
      · exact hpeers k hk
      · split at hk
        · rename_i hnew
          rw [List.mem_singleton.mp hk]
          exact hnew.2
        · cases hk
    | _ => exact hpeers

/-! ### Sections that come to their end -/

theorem buildAppendLocked_isSome (ok : LogOk x.log) (peer : Peer) :
    (buildAppendLocked x peer).isSome := by
  have hroom : x.logCount ≤ raftMaxLog := ok.room
  have hterm : ∀ k ≤ x.logCount, ∃ t, termAt x k = some t := by
    intro k hk
    unfold termAt
    split
    · exact ⟨0, rfl⟩
    · rw [RaftNode.logCount] at hk
      rw [List.getElem?_eq_getElem (by omega)]
      exact ⟨_, rfl⟩
  simp only [buildAppendLocked]
  generalize hn : (if (nextIndexLocked x peer).toNat = 0 then 1
    else (nextIndexLocked x peer).toNat) = n
  have hpos : 0 < n := by
    subst hn
    split <;> omega
  split
  · rename_i hle
    have hlast : n - 1 < x.log.length := by
      rw [RaftNode.logCount] at hle
      omega
    have hget := List.getElem?_eq_getElem hlast
    have hindex := ok.indexed _ _ hget
    have hlt : n < 2 ^ 32 := (hle.trans hroom).trans_lt (by decide)
    have hprev : ((n - 1 + 1) + 2 ^ 32 - 1) % 2 ^ 32 = n - 1 := by
      rw [Nat.sub_add_cancel hpos]
      exact pred32_of_pos hpos hlt
    obtain ⟨t, ht⟩ := hterm (n - 1) ((Nat.sub_le n 1).trans hle)
    rw [hget, Option.bind_eq_bind, Option.bind_some, hindex, hprev, ht]
    rfl
  · obtain ⟨t, ht⟩ := hterm x.logCount le_rfl
    rw [ht]
    rfl

theorem recomputeCommitLocked_isSome (x : RaftNode) : (recomputeCommitLocked x).isSome := by
  unfold recomputeCommitLocked
  split
  · rfl
  · split
    · rename_i index hscan
      exact applyCommittedLocked_isSome (commitScan_spec hscan).2.1
    · rfl

/-- A section comes to its end, reading only entries of the log, when it does not accept an entry of
index 0. -/
theorem exec_isSome_iff (ok : LogOk x.log) : (exec env sec x).isSome ↔ Counted x sec := by
  have total : Counted x sec → (exec env sec x).isSome →
      ((exec env sec x).isSome ↔ Counted x sec) := fun h1 h2 => ⟨fun _ => h1, fun _ => h2⟩
  cases sec with
  | handleAppendEntries t l p pt lc has d => exact handleAppendEntries_isSome
  | handleAppendResponse t p success m =>
    apply total trivial
    simp only [exec, handleAppendResponse]
    split
    · rfl
    · split
      · split
        · obtain ⟨z, hz⟩ := Option.isSome_iff_exists.mp (recomputeCommitLocked_isSome _)
          rw [hz]
          rfl
        · rfl
      · rfl
  | sendAppendToPeer id =>
    apply total trivial
    simp only [exec, sendAppendToPeer]
    split
    · rfl
    · rename_i peer hpeer
      obtain ⟨line, hline⟩ := Option.isSome_iff_exists.mp (buildAppendLocked_isSome ok peer)
      rw [hline]
      rfl
  | submitCommit =>
    apply total trivial
    obtain ⟨z, hz⟩ := Option.isSome_iff_exists.mp
      (@applyCommittedLocked_isSome { x with commitIndex := x.logCount } le_rfl)
    simp only [exec, submitCommit]
    rw [hz]
    rfl
  | _ => exact total trivial rfl

/-! ### Runs -/

theorem peerCount_exec (h : x.peerCount ≤ raftMaxPeers) (he : exec env sec x = some e) :
    e.node.peerCount ≤ raftMaxPeers := by
  by_cases hsec : sec.changesTable = true
  · cases sec with
    | handleJoin id host port | handlePeerAnnounce id host port =>
      obtain rfl := Option.some.inj he
      simp only [handleJoin, handlePeerAnnounce]
      have hadd := admission x id host port
      revert hadd
      generalize (addPeerLocked x id host port).1 = r, (addPeerLocked x id host port).2 = y
      intro hadd
      cases hadd with
      | refused bad => exact h
      | full new room => exact h
      | known good old =>
        let assign (p : Peer) : Peer := { p with host := copyText 64 host, port }
        have hlength := congrArg List.length (@map_id_modifyPeer assign (fun _ => rfl) id x.peers)
        rw [List.length_map, List.length_map] at hlength
        exact hlength.trans_le h
      | added good new room =>
        rw [RaftNode.peerCount, List.length_append]
        exact room
    | handleLeave id =>
      obtain rfl := Option.some.inj he
      simp only [handleLeave]
      have hremove := removal x id
      revert hremove
      generalize (removePeerLocked x id).1 = r, (removePeerLocked x id).2 = y
      intro hremove
      cases hremove with
      | refused bad => exact h
      | unknown absent => exact h
      | removed good old v l c => exact (List.eraseP_sublist.length_le).trans h
    | _ => cases hsec
  · have hcard := exec_card he (Bool.not_eq_true _ ▸ hsec)
    rw [← RaftNode.length_table, (Prod.mk.inj hcard).2, RaftNode.length_table]
    exact h

theorem Bounded.exec (h : Bounded x) (he : exec env sec x = some e) : Bounded e.node :=
  ⟨h.log.exec he, peerCount_exec h.peers he⟩

theorem bounded_init {args : List Text} {config : RaftConfig}
    (accepted : raftConfigParse raftConfigInit args = .ok config) (now : ℕ) :
    Bounded (raftNodeInit now config) := by
  refine ⟨⟨Nat.zero_le _, fun k e he => by cases he⟩, ?_⟩
  unfold raftConfigParse at accepted
  split at accepted
  · rename_i c hargs
    split at accepted
    · cases accepted
    · obtain rfl := Except.ok.inj accepted
      exact (parsed hargs).room (Nat.zero_le _)
  · cases accepted

/-- In a run on lines of any text in which no `AE` section accepts an entry of index 0, the counters
stay within the arrays, and the next section comes to its end and uses positions in the arrays
exactly when it does not accept such an entry either. -/
theorem in_bounds_iff {args : List Text} {config : RaftConfig}
    (accepted : raftConfigParse raftConfigInit args = .ok config) {now : ℕ}
    (run : Reach RaftNode.step (fun x a => a.2.Enterable ∧ Counted x a.2)
      (raftNodeInit now config) x) :
    x.logCount ≤ raftMaxLog ∧ x.peerCount ≤ raftMaxPeers ∧ ∀ env sec, sec.Enterable →
      (InArrays x sec ∧ (exec env sec x).isSome ↔ Counted x sec) := by
  have h : Bounded x := by
    refine run.invariant (bounded_init accepted now) ?_
    intro x a x' _ h _ hstep
    obtain ⟨e, he, rfl⟩ := Option.map_eq_some_iff.mp hstep
    exact h.exec he
  refine ⟨h.log.room, h.peers, fun env sec _ => ?_⟩
  rw [exec_isSome_iff h.log]
  exact ⟨fun both => both.2, fun counted => ⟨h.inArrays counted, counted⟩⟩

/-- A node without arguments stores an entry. -/
theorem in_bounds_entry : ∃ x, Reach RaftNode.step (fun x a => a.2.Enterable ∧ Counted x a.2)
      (raftNodeInit 0 raftConfigInit) x ∧
    x.logCount = 1 ∧ InArrays x (.sendAppendToPeer 2) := by
  let sec : Section := .handleAppendEntries 0 2 0 0 0 1 ⟨1, 0, .set, bytes "k", bytes "a"⟩
  have hline : raftHandleLine (bytes "AE 0 2 0 0 0 1 1 0 SET k a") = some sec := by decide +kernel
  have hcounted : Counted (raftNodeInit 0 raftConfigInit) sec := fun _ _ _ => one_ne_zero
  have hrun : (RaftNode.step (raftNodeInit 0 raftConfigInit) (still, sec)).any
      (fun x => x.logCount = 1) = true := by
    decide +kernel
  obtain ⟨x, hstep, hcount⟩ := (Option.any_eq_true _ _).mp hrun
  have run : Reach RaftNode.step (fun x a => a.2.Enterable ∧ Counted x a.2)
      (raftNodeInit 0 raftConfigInit) x :=
    .tail (a := (still, sec)) .refl ⟨Or.inl ⟨_, hline⟩, hcounted⟩ hstep
  obtain ⟨-, -, h⟩ := @in_bounds_iff x [] raftConfigInit rfl 0 run
  exact ⟨x, run, of_decide_eq_true hcount,
    ((h still (.sendAppendToPeer 2) (Or.inr rfl)).mpr trivial).1⟩

/-- The first line makes a node compare position `2^32 - 1` of its log. -/
theorem out_of_bounds : ¬∀ (args : List Text) (config : RaftConfig),
    raftConfigParse raftConfigInit args = .ok config → ∀ (now : ℕ) (x : RaftNode),
    Reach RaftNode.step (fun _ a => a.2.Enterable) (raftNodeInit now config) x →
    x.logCount ≤ raftMaxLog ∧ x.peerCount ≤ raftMaxPeers ∧
      ∀ sec, sec.Enterable → InArrays x sec := by
  intro h
  let sec : Section := .handleAppendEntries 0 2 0 0 0 1 ⟨0, 0, .set, bytes "k", bytes "a"⟩
  have hline : raftHandleLine (bytes "AE 0 2 0 0 0 1 0 0 SET k a") = some sec := by decide +kernel
  obtain ⟨-, -, harrays⟩ := h [] raftConfigInit rfl 0 _ .refl
  have huse : 2 ^ 32 - 1 ∈ sec.logUses (raftNodeInit 0 raftConfigInit) := by decide +kernel
  exact absurd ((harrays sec (Or.inl ⟨_, hline⟩)).1 _ huse) (by decide)

end RaftKv
