import RaftKv.Exchange
import RaftKv.Safety

/-! The command of a log entry on its way through `AE` lines, from the leader that appends it to
followers and on to their followers.  The lines write `-` for an empty text, so it is the one key
and the one value that do not come back. -/

namespace RaftKv

open Consensus Consensus.Ledger Runs Stdio

/-- `raft_submit_command` accepts the command, and a deletion has no value. -/
structure Accepted (op : KvOp) (key value : Text) : Prop where
  accepted : ∀ env x, (raftSubmitCommand env x op key value).ret ≠ some (-1)
  bare : op = .del → value = []

/-- The entries that hold the command in the log of a node, which appended it as leader, or stored
it from a line. -/
inductive Holds (op : KvOp) (key value : Text) : RaftLogEntry → Prop
  | appended {x : RaftNode} {d : RaftLogEntry}
      (last : (appendEntryLocked x op key value).2.log = x.log ++ [d]) : Holds op key value d
  | stored {x : RaftNode} {peer : Peer} {line : Line} {t l p pt lc has t' l' p' pt' lc' : ℕ}
      {d incoming : RaftLogEntry} (held : Holds op key value d) (ranged : Ranged x)
      (built : buildAppendLocked x peer = some line) (entry : line = .ae t l p pt lc (some d))
      (parsed : line.handler = some (.handleAppendEntries t' l' p' pt' lc' has incoming)) :
      Holds op key value incoming

/-- The line that any node builds for the entry is shorter than `snprintf` allows, and is read with
the same numbers and the same entry. -/
def RoundTrips (d : RaftLogEntry) : Prop :=
  ∀ (x : RaftNode) (peer : Peer) (t l p pt lc : ℕ), Ranged x →
    buildAppendLocked x peer = some (.ae t l p pt lc (some d)) →
    (Line.ae t l p pt lc (some d)).wire.length < raftMaxLine - 1 ∧
      (Line.ae t l p pt lc (some d)).handler = some (.handleAppendEntries t l p pt lc 1 d)

/-- The indices and terms of the applied entries. -/
def RaftNode.appliedIds (x : RaftNode) : List (ℕ × ℕ) := x.applied.map fun e => (e.index, e.term)

/-- A submitted command has no text `-`, and no value with `DEL`. -/
def Action.plain {n : ℕ} : Action n → Bool
  | .enter _ _ (.raftSubmitCommand op key value) =>
    key ≠ bytes "-" && value ≠ bytes "-" && (op ≠ .del || value = [])
  | _ => true

variable {op : KvOp} {key value : Text}

/-! ### The round trip -/

theorem accepted_iff : Accepted op key value ↔ isValidToken key raftMaxKey = true ∧
    ((op = .set ∧ isValidToken value raftMaxValue = true) ∨ (op = .del ∧ value = [])) := by
  constructor
  · rintro ⟨accepted, bare⟩
    have h := accepted still (raftNodeInit 0 (trioConfig 0))
    unfold raftSubmitCommand at h
    split at h
    · exact absurd rfl h
    · rename_i hop
      simp only [not_or, not_and, ne_eq, not_not, Bool.not_eq_true', Bool.not_eq_false] at hop
      refine ⟨hop.2, ?_⟩
      split at h
      · exact absurd rfl h
      · rename_i hvalue
        by_cases hset : op = .set
        · exact Or.inl ⟨hset, by simpa [hset] using hvalue⟩
        · exact Or.inr ⟨hop.1 hset, bare (hop.1 hset)⟩
  · rintro ⟨hkey, hvalue⟩
    refine ⟨fun env x => ?_, fun hdel => ?_⟩
    · unfold raftSubmitCommand
      rw [if_neg (by rcases hvalue with ⟨rfl, -⟩ | ⟨rfl, -⟩ <;> simp [hkey]),
        if_neg (by rcases hvalue with ⟨rfl, hv⟩ | ⟨rfl, -⟩ <;> simp [*])]
      split
      · simp
      · split <;> simp
    · rcases hvalue with ⟨rfl, -⟩ | ⟨-, hv⟩
      · cases hdel
      · exact hv

theorem Accepted.valid (h : Accepted op key value) : ValidCommand op key value := by
  obtain ⟨hkey, ⟨rfl, hvalue⟩ | ⟨rfl, rfl⟩⟩ := accepted_iff.mp h
  · exact ⟨by simp, hkey, Or.inr hvalue⟩
  · exact ⟨by simp, hkey, Or.inl rfl⟩

theorem appended_entry (hv : ValidCommand op key value) {x : RaftNode} {d : RaftLogEntry}
    (last : (appendEntryLocked x op key value).2.log = x.log ++ [d]) :
    d.op = op ∧ d.key = key ∧ d.value = value := by
  unfold appendEntryLocked at last
  split at last
  · have := congrArg List.length last
    simp at this
  · obtain rfl : _ = d := by simpa using last
    exact ⟨rfl, hv.copyText_eq⟩

/-- Every entry that holds a clean command is that command. -/
theorem Holds.entry (hc : CleanCommand op key value) {d : RaftLogEntry}
    (h : Holds op key value d) : d.op = op ∧ d.key = key ∧ d.value = value := by
  induction h with
  | appended last => exact appended_entry hc.toValidCommand last
  | @stored x peer line t l p pt lc _ _ _ _ _ _ d incoming held ranged built entry parsed ih =>
    obtain ⟨rfl, rfl, rfl⟩ := ih
    subst entry
    obtain ⟨p, pt, -, ⟨c, heq, -, -, fits⟩ | ⟨heq, -⟩⟩ := ranged.built_cases built
    · obtain ⟨rfl, rfl, rfl, rfl, rfl, hcd⟩ := Line.ae.inj heq
      obtain rfl := Option.some.inj hcd
      rw [Line.handler_ae_valid fits hc.toValidCommand, unplaced_eq hc.key_ne,
        unplaced_eq hc.value_ne] at parsed
      obtain ⟨-, -, -, -, -, -, rfl⟩ := Section.handleAppendEntries.inj (Option.some.inj parsed)
      exact ⟨rfl, rfl, rfl⟩
    · cases (Line.ae.inj heq).2.2.2.2.2

theorem roundTrips_of_clean {d : RaftLogEntry} (hc : CleanCommand d.op d.key d.value) :
    RoundTrips d := by
  intro x peer t l p pt lc ranged built
  obtain ⟨p, pt, -, ⟨c, heq, -, -, fits⟩ | ⟨heq, -⟩⟩ := ranged.built_cases built
  · obtain ⟨rfl, rfl, rfl, rfl, rfl, hcd⟩ := Line.ae.inj heq
    obtain rfl := Option.some.inj hcd
    constructor
    · have hlen := (received_command isTag_ae fits (by simp) hc.toValidCommand).1
      rw [wire_ae_some]
      exact (List.length_take_le' _ _).trans_lt hlen
    · rw [Line.handler_ae_valid fits hc.toValidCommand, unplaced_eq hc.key_ne,
        unplaced_eq hc.value_ne]
  · cases (Line.ae.inj heq).2.2.2.2.2

/-- `build_append_locked` writes the entry after position `k`, when that is the next one. -/
theorem buildAppendLocked_entry {x : RaftNode} {peer : Peer} {k pt : ℕ} {d : RaftLogEntry}
    (hnext : nextIndexLocked x peer = (k + 1 : ℕ)) (hget : x.log[k]? = some d)
    (hindex : d.index = k + 1) (hk : k < 2 ^ 32) (hpt : termAt x k = some pt) :
    buildAppendLocked x peer = some (.ae x.currentTerm x.id k pt x.commitIndex (some d)) := by
  have hlt : k + 1 ≤ x.logCount := (List.getElem?_eq_some_iff.mp hget).1
  have hprev : (d.index + 2 ^ 32 - 1) % 2 ^ 32 = k := by omega
  simp only [buildAppendLocked, hnext, Int.toNat_natCast, Nat.add_one_ne_zero, if_false, hlt,
    if_true]
  refine Option.bind_eq_some_iff.mpr ⟨d, hget, Option.bind_eq_some_iff.mpr ⟨pt, ?_, ?_⟩⟩
  · rw [hprev]
    exact hpt
  · rw [hprev]

/-- A node of the three that has only the command in its log. -/
theorem exists_holder (hv : ValidCommand op key value) :
    Holds op key value ⟨1, 0, op, key, value⟩ ∧ ∃ x peer, Ranged x ∧
      buildAppendLocked x peer = some (.ae 0 1 0 0 0 (some ⟨1, 0, op, key, value⟩)) := by
  constructor
  · apply Holds.appended (x := trioNode 0 .leader 0 [])
    have hroom : ¬raftMaxLog ≤ (trioNode 0 .leader 0 []).logCount := by decide
    unfold appendEntryLocked
    rw [if_neg hroom, hv.copyText_eq.1, hv.copyText_eq.2]
    rfl
  · refine ⟨trioNode 0 .leader 0 [⟨1, 0, op, key, value⟩], trioPeer 2, ?_,
      buildAppendLocked_entry rfl rfl rfl (by norm_num) rfl⟩
    apply ranged_trioNode (by norm_num) (by simp [raftMaxLog]) (by simp)
    intro k d hd
    cases k with
    | zero =>
      obtain rfl := Option.some.inj hd
      rfl
    | succ k => cases hd

/-- The entries that hold a command go round exactly when it has no text `-`. -/
theorem roundTrips_iff (accepted : Accepted op key value) :
    (∀ d, Holds op key value d → RoundTrips d) ↔ key ≠ bytes "-" ∧ value ≠ bytes "-" := by
  have hv := accepted.valid
  constructor
  · intro h
    obtain ⟨held, x, peer, ranged, built⟩ := exists_holder hv
    have hround := (h _ held x peer 0 1 0 0 0 ranged built).2
    have fits : Fits [0, 1, 0, 0, 0, 1, 1, 0] := by
      intro n hn
      simp only [List.mem_cons, List.not_mem_nil, or_false] at hn
      omega
    rw [Line.handler_ae_valid fits hv] at hround
    obtain ⟨-, -, -, -, -, -, hsame⟩ := Section.handleAppendEntries.inj (Option.some.inj hround)
    obtain ⟨-, -, -, hkey, hvalue⟩ := RaftLogEntry.mk.inj hsame
    have placed : unplaced (bytes "-") ≠ bytes "-" := by decide
    constructor
    · rintro rfl
      exact placed hkey
    · rintro rfl
      exact placed hvalue
  · rintro ⟨hkey, hvalue⟩ d held
    have hc : CleanCommand op key value := ⟨hv, hkey, hvalue⟩
    obtain ⟨rfl, rfl, rfl⟩ := held.entry hc
    exact roundTrips_of_clean hc

/-! ### The stores -/

theorem eq_of_map_eq {α β : Type*} {f : α → β} {l m : List α}
    (inj : ∀ a ∈ l, ∀ b ∈ m, f a = f b → a = b) (h : l.map f = m.map f) : l = m := by
  induction l generalizing m with
  | nil => exact (List.map_eq_nil_iff.mp h.symm).symm
  | cons a l ih =>
    cases m with
    | nil => cases h
    | cons b m =>
      rw [List.map_cons, List.map_cons, List.cons.injEq] at h
      rw [inj a List.mem_cons_self b List.mem_cons_self h.1]
      refine congrArg (b :: ·) (ih (fun c hc d hd => ?_) h.2)
      exact inj c (List.mem_cons_of_mem _ hc) d (List.mem_cons_of_mem _ hd)

theorem Action.clean_of_plain {n : ℕ} {a : Action n} (h : a.plain = true) : a.Clean entryView := by
  cases a with
  | enter i env sec =>
    cases sec with
    | raftSubmitCommand op key value =>
      simp only [Action.plain, ne_eq, Bool.and_eq_true, Bool.or_eq_true, decide_eq_true_eq] at h
      obtain ⟨⟨hkey, hvalue⟩, hbare⟩ := h
      intro hop hset
      simp only [not_or, not_and, ne_eq, not_not, Bool.not_eq_true', Bool.not_eq_false] at hop hset
      refine ⟨⟨?_, hop.2, ?_⟩, hkey, hvalue⟩
      · rintro rfl
        exact absurd (hop.1 (by simp)) (by simp)
      · by_cases h : op = .set
        · exact Or.inr (hset h)
        · exact Or.inl (hbare.resolve_left (not_not_intro (hop.1 h)))
    | _ => trivial
  | _ => trivial

/-- Nodes that have applied entries with the same indices and terms have the same store. -/
theorem store_eq_of_appliedIds {n : ℕ} {now : Fin n → ℕ} {config : Fin n → RaftConfig}
    {s : Cluster n} (tables : FixedTables (Cluster.start now config).node)
    (run : Reach Cluster.step (fun s a => Admitted s a ∧ a.plain = true)
      (Cluster.start now config) s)
    {i j : Fin n} (h : (s.node i).appliedIds = (s.node j).appliedIds) :
    (s.node i).store = (s.node j).store := by
  obtain ⟨R, hstart⟩ := sim_start tables False entryView
  obtain ⟨g, -, hg⟩ := hstart.reach run fun s a ha =>
    ⟨ha.1, Action.clean_of_plain ha.2, False.elim⟩
  have led : ∀ k, ∀ d ∈ (s.node k).applied, (g.lead d.term)[d.index - 1]? = some d := by
    intro k d hd
    obtain ⟨ev, hev, hd⟩ := List.mem_filterMap.mp hd
    cases ev with
    | applied slot c =>
      obtain rfl := Option.some.inj hd
      obtain ⟨rfl, -, hlead⟩ := (hg.nodes k).entries slot c hev
      exact hlead
    | _ => cases hd
  rw [(hg.nodes i).store, (hg.nodes j).store]
  refine congrArg (replay KvStore.zero) (eq_of_map_eq (fun d hd c hc heq => ?_) h)
  obtain ⟨hindex, hterm⟩ := Prod.mk.inj heq
  have h1 := led i d hd
  have h2 := led j c hc
  rw [hindex, hterm, h2] at h1
  exact (Option.some.inj h1).symm

/-- The replication lines bring the command of an entry back exactly when it has no text `-`, and so
nodes hold the same store in a run whose commands have none. -/
theorem replication_round_trip (accepted : Accepted op key value) {n : ℕ} {now : Fin n → ℕ}
    {config : Fin n → RaftConfig} {s : Cluster n}
    (tables : FixedTables (Cluster.start now config).node)
    (run : Reach Cluster.step (fun s a => Admitted s a ∧ a.plain = true)
      (Cluster.start now config) s) :
    ((∀ d, Holds op key value d → RoundTrips d) ↔ key ≠ bytes "-" ∧ value ≠ bytes "-") ∧
    ∀ i j, (s.node i).appliedIds = (s.node j).appliedIds →
      (s.node i).store = (s.node j).store :=
  ⟨roundTrips_iff accepted, fun _ _ => store_eq_of_appliedIds tables run⟩

/-- A plain command, and a run in which two nodes apply it. -/
theorem replication_round_trip_trio : RoundTrips ⟨1, 0, .set, bytes "k", bytes "a"⟩ ∧
    ∃ s, Reach Cluster.step (fun s a => Admitted s a ∧ a.plain = true) trio s ∧
      (s.node 0).appliedIds = [(1, 1)] ∧ (s.node 1).appliedIds = [(1, 1)] ∧
      (s.node 0).store = (s.node 1).store := by
  have accepted : Accepted .set (bytes "k") (bytes "a") := accepted_iff.mpr (by decide)
  have hrun : (runList Cluster.step (fun s a => decide (Admitted s a ∧ a.plain = true)) trio
      trioCommit).any (fun s => (s.node 0).appliedIds = [(1, 1)] ∧
        (s.node 1).appliedIds = [(1, 1)]) = true := by
    decide +kernel
  obtain ⟨s, run, hs⟩ := exists_reach (fun s a => of_decide_eq_true) hrun
  obtain ⟨h0, h1⟩ := of_decide_eq_true hs
  obtain ⟨roundTrips, stores⟩ := replication_round_trip accepted fixedTables_trio run
  exact ⟨roundTrips.mpr (by decide) _ (exists_holder accepted.valid).1, s, run, h0, h1,
    stores 0 1 (h0.trans h1.symm)⟩

/-- An entry that sets a key to `-` is read as one that sets it to the empty text. -/
theorem placeholder_lost : ¬∀ op key value, Accepted op key value →
    ∀ d, Holds op key value d → RoundTrips d := by
  intro h
  have accepted : Accepted .set (bytes "k") (bytes "-") := accepted_iff.mpr (by decide)
  obtain ⟨held, x, peer, ranged, built⟩ := exists_holder accepted.valid
  have hround := (h _ _ _ accepted _ held x peer 0 1 0 0 0 ranged built).2
  exact absurd hround (by decide +kernel)

end RaftKv
