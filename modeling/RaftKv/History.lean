import Mathlib.Data.Finset.Max
import RaftKv.Applying
import RaftKv.Safety

/-! What the nodes can be read to hold.  While the steps are guarded, the stores of all nodes at all
times are those of one sequence of commands: each node has come to some point of it, from which it
does not go back, and `kv_get` gives what the commands up to that point have written. -/

namespace RaftKv

open Consensus Consensus.Ledger Function Runs Stdio

/-! ### The contents of a sequence of commands -/

/-- What a command does to the map of the keys. -/
def RaftLogEntry.write (e : RaftLogEntry) (m : Text → Option Text) : Text → Option Text :=
  match e.op with
  | .set => update m e.key (some e.value)
  | .del => update m e.key none
  | .none => m

/-- The map after some commands. -/
def contents (es : List RaftLogEntry) : Text → Option Text :=
  es.foldl (fun m e => e.write m) fun _ => none

/-- A command as `raft_submit_command` takes it, without the placeholder of the lines. -/
structure PlainCommand (op : KvOp) (key value : Text) : Prop extends CleanCommand op key value where
  set_ne : op = .set → value ≠ []

instance (op : KvOp) (key value : Text) : Decidable (PlainCommand op key value) :=
  decidable_of_iff (((op ≠ .none ∧ isValidToken key raftMaxKey ∧
      (value = [] ∨ isValidToken value raftMaxValue)) ∧ key ≠ bytes "-" ∧ value ≠ bytes "-") ∧
      (op = .set → value ≠ []))
    ⟨fun ⟨⟨⟨h1, h2, h3⟩, h4, h5⟩, h6⟩ => ⟨⟨⟨h1, h2, h3⟩, h4, h5⟩, h6⟩,
      fun ⟨⟨⟨h1, h2, h3⟩, h4, h5⟩, h6⟩ => ⟨⟨⟨h1, h2, h3⟩, h4, h5⟩, h6⟩⟩

/-- The whole entry, under plain commands. -/
def plainView : View RaftLogEntry where
  view e := e
  term e := e.term
  clean := PlainCommand
  term_view := entryView.term_view
  unbroken hc := hc.toValidCommand.unbroken
  cut hc := by
    rw [hc.copyText_eq.1, hc.copyText_eq.2]
    exact hc
  entry hfit hc hsec := by
    rw [Line.handler_ae_valid hfit hc.toValidCommand, unplaced_eq hc.key_ne,
      unplaced_eq hc.value_ne] at hsec
    exact ⟨_, (Option.some.inj hsec).symm, rfl, rfl, hc⟩
  forward hsrc hc hsec := by
    rw [Line.handler_cl_clean hsrc hc.toCleanCommand] at hsec
    exact ⟨_, _, _, (Option.some.inj hsec).symm, hc⟩

section Store

variable {store : KvStore}

/-- A plain command is written, when there is a free slot. -/
theorem kvApply_write (h : store.WellFormed) (room : store.count < raftMaxLog) {e : RaftLogEntry}
    (hc : PlainCommand e.op e.key e.value) :
    (kvApply store e.op e.key e.value).2.WellFormed ∧
      (kvApply store e.op e.key e.value).2.entries = e.write store.entries := by
  have hvalue : e.op = .set → isValidToken e.value raftMaxValue = true := fun hop =>
    hc.valid_value.resolve_left (hc.set_ne hop)
  rcases kvApply_cases h e.op e.key e.value with ⟨-, refuses, -⟩ | ⟨⟨-, hwf, hmap⟩, -⟩
  · rcases refuses with hkey | hop | ⟨hop, hbad⟩ | ⟨-, -, hfull⟩
    · exact absurd (hc.valid_key.symm.trans hkey) (by decide)
    · cases hop' : e.op with
      | none => exact absurd hop' hc.op_ne
      | set => exact absurd hop' hop.1
      | del => exact absurd hop' hop.2
    · exact absurd ((hvalue hop).symm.trans hbad) (by decide)
    · rw [h.count] at room
      exact absurd hfull room.ne
  · refine ⟨hwf, hmap.trans ?_⟩
    rw [RaftLogEntry.write]
    cases hop : e.op with
    | none => exact absurd hop hc.op_ne
    | set => simp
    | del => simp

/-- Replaying plain commands into a store that has room for them. -/
theorem replay_entries {es : List RaftLogEntry} (h : store.WellFormed)
    (room : store.count + es.length ≤ raftMaxLog)
    (hc : ∀ e ∈ es, PlainCommand e.op e.key e.value) :
    (replay store es).WellFormed ∧
      (replay store es).entries = es.foldl (fun m e => e.write m) store.entries := by
  induction es generalizing store with
  | nil => exact ⟨h, rfl⟩
  | cons e es ih =>
    rw [List.length_cons] at room
    obtain ⟨hwf, hmap⟩ := kvApply_write h (by omega) (hc e List.mem_cons_self)
    have hcount := kvApply_count_le store e.op e.key e.value
    have := ih hwf (by omega) fun d hd => hc d (List.mem_cons_of_mem _ hd)
    rw [hmap] at this
    exact this

theorem kvGet_replay {es : List RaftLogEntry} (room : es.length ≤ raftMaxLog)
    (hc : ∀ e ∈ es, PlainCommand e.op e.key e.value) {key : Text} {outSize : ℕ}
    (hkey : isValidToken key raftMaxKey = true) (hsize : raftMaxValue ≤ outSize) :
    kvGet (replay KvStore.zero es) key outSize = (contents es key).elim (.error (-1)) .ok := by
  have hzero : KvStore.zero.count = 0 := rfl
  obtain ⟨hwf, hmap⟩ := replay_entries wellFormed_zero (by omega) hc
  rw [kvGet_eq hwf hkey hsize, hmap, show KvStore.zero.entries = fun _ => none from
    funext entries_zero, contents]

end Store

/-! ### Committed entries along a run -/

theorem Keeps.trans {x y z : RaftNode} (h : Keeps x y) (h' : Keeps y z) : Keeps x z where
  commit := h.commit.trans h'.commit
  log := by
    have shorten : ∀ log : List RaftLogEntry,
        log.take x.commitIndex = (log.take y.commitIndex).take x.commitIndex := by
      intro log
      rw [List.take_take, Nat.min_eq_left h.commit]
    rw [shorten, h'.log, ← shorten, h.log]

section Runs

variable {n : ℕ} {now : Fin n → ℕ} {config : Fin n → RaftConfig} {s s' : Cluster n}

/-- A steady action, with plain commands. -/
def SteadyPlain (s : Cluster n) (a : Action n) : Prop := Steady s a ∧ a.Clean plainView

/-- The command that a thread starts with. -/
def Action.command : Action n → Option (KvOp × Text × Text)
  | .enter _ _ (.raftSubmitCommand op key value) => some (op, key, value)
  | _ => none

theorem Action.accepts_command_iff {a : Action n} :
    (∀ c ∈ a.command, plainView.Accepts c.1 c.2.1 c.2.2) ↔ a.Clean plainView := by
  cases a with
  | enter i env sec =>
    cases sec with
    | raftSubmitCommand op key value => exact ⟨fun h => h _ rfl, fun h c hc => by cases hc; exact h⟩
    | _ => exact ⟨fun _ => trivial, fun _ _ hc => by cases hc⟩
  | _ => exact ⟨fun _ => trivial, fun _ _ hc => by cases hc⟩

instance (op : KvOp) (key value : Text) : Decidable (plainView.Accepts op key value) :=
  inferInstanceAs (Decidable (_ → _ → PlainCommand op key value))

instance (a : Action n) : Decidable (a.Clean plainView) :=
  decidable_of_iff _ a.accepts_command_iff

instance (s : Cluster n) (a : Action n) : Decidable (SteadyPlain s a) :=
  inferInstanceAs (Decidable (_ ∧ _))

theorem SteadyPlain.ok {s : Cluster n} {a : Action n} (h : SteadyPlain s a) :
    Admitted s a ∧ a.Clean plainView ∧ (True → Guarded s a) := ⟨h.1.1, h.2, fun _ => h.1.2⟩

/-- An action is steady by the section that it enters. -/
theorem steadyPlain_of_entered {j : Fin n} {sec : Section} (a : Action n)
    (fixed : a.fixed = true) (below : TermsBelow s) (clean : a.Clean plainView)
    (entered : s.entered a = some (j, sec))
    (builds : sec.builds = true → (s.node j).role = .leader) (vouched : Vouched s j sec) :
    SteadyPlain s a := by
  refine ⟨⟨⟨fixed, below⟩, ?_⟩, clean⟩
  rw [Guarded, entered]
  exact ⟨builds, vouched⟩

theorem steadyPlain_of_quiet {j : Fin n} {sec : Section} (a : Action n)
    (fixed : a.fixed = true) (below : TermsBelow s) (clean : a.Clean plainView)
    (entered : s.entered a = some (j, sec))
    (quiet : sec.builds = false) (vouched : Vouched s j sec) : SteadyPlain s a :=
  steadyPlain_of_entered a fixed below clean entered
    (fun builds => absurd (quiet.symm.trans builds) Bool.false_ne_true) vouched

theorem SteadyPlain.sim {R : Roster n} {a : Action n} (ha : SteadyPlain s a)
    (hstep : s.step a = some s') (h : ∃ g, Sim True R plainView g s) :
    ∃ g, Sim True R plainView g s' := by
  obtain ⟨g, h⟩ := h
  obtain ⟨admitted, clean, guard⟩ := ha.ok
  obtain ⟨g', -, h', -⟩ := h.step hstep admitted clean guard
  exact ⟨g', h'⟩

/-- A run goes on with the history, and the nodes keep what they have committed. -/
theorem Sim.reach_keeps {R : Roster n} {g : Ledger (Fin n) RaftLogEntry}
    (h : Sim True R plainView g s) (run : Reach Cluster.step SteadyPlain s s') :
    ∃ g', Sim True R plainView g' s' ∧ ∀ i, Keeps (s.node i) (s'.node i) := by
  induction run with
  | refl => exact ⟨g, h, fun i => .of_eq rfl rfl⟩
  | tail _ ha hstep ih =>
    obtain ⟨g1, h1, keeps⟩ := ih
    obtain ⟨admitted, clean, guard⟩ := ha.ok
    obtain ⟨g2, -, h2, keep⟩ := h1.step hstep admitted clean guard
    exact ⟨g2, h2, fun i => (keeps i).trans (keep trivial i)⟩

/-- Every node has applied what it has committed. -/
theorem storeInv_of_reach {ok : Cluster n → Action n → Prop}
    (run : Reach Cluster.step ok (Cluster.start now config) s) (i : Fin n) :
    StoreInv (s.node i) := by
  refine run.invariant (P := fun s => ∀ i, StoreInv (s.node i))
    (fun i => storeInv_init (now i) (config i)) ?_ i
  rintro s a s' - h - hstep i
  rcases Cluster.step_cases hstep with ⟨_, _, _, -, rfl⟩ |
    ⟨j, env, sec, rest, threads, net, e, -, -, he, rfl⟩
  · exact h i
  · by_cases hi : i = j
    · subst hi
      simpa using (h i).exec he
    · simpa [hi] using h i

/-- The longest committed log of the nodes begins with that of each. -/
theorem Sim.exists_longest {R : Roster n} {g : Ledger (Fin n) RaftLogEntry}
    (h : Sim True R plainView g s) : ∃ history : List RaftLogEntry, ∀ i,
      (s.node i).log.take (s.node i).commitIndex <+: history ∧
      ∀ e ∈ history, PlainCommand e.op e.key e.value := by
  rcases Nat.eq_zero_or_pos n with rfl | hn
  · exact ⟨[], fun i => i.elim0⟩
  have : Nonempty (Fin n) := ⟨⟨0, hn⟩⟩
  obtain ⟨m, -, hm⟩ := Finset.exists_max_image Finset.univ (fun i => (s.node i).commitIndex)
    Finset.univ_nonempty
  have hlog : ∀ i, g.log i = (s.node i).log := fun i => by
    rw [(h.nodes i).log]
    exact List.map_id _
  refine ⟨(s.node m).log.take (s.node m).commitIndex, fun i => ⟨?_, fun e he => ?_⟩⟩
  · have hi := (h.nodes i).safe trivial
    have hmax := (h.nodes m).safe trivial
    have hcomparable := (h.complete trivial).settled_comparable h.matching Majority.meet hi.settled
      hmax.settled
    rw [hlog, hlog] at hcomparable
    rcases hcomparable with hp | hp
    · exact hp
    · refine (hp.eq_of_length_le ?_).symm ▸ List.prefix_rfl
      have := hm i (Finset.mem_univ i)
      rw [List.length_take, List.length_take, Nat.min_eq_left hi.commit_le,
        Nat.min_eq_left hmax.commit_le]
      exact this
  · exact (h.nodes m).clean e (List.mem_of_mem_take he)

/-- In a steady run with plain commands, the nodes can be read to hold one sequence of commands at
different points: a node that has applied `k` of them gives, for each key, what the first `k` have
written, and a node does not go back. -/
theorem reads_follow_history (tables : FixedTables (Cluster.start now config).node)
    (run : Reach Cluster.step SteadyPlain (Cluster.start now config) s') :
    ∃ history : List RaftLogEntry, ∀ s,
      Reach Cluster.step SteadyPlain (Cluster.start now config) s →
      Reach Cluster.step SteadyPlain s s' → ∀ i,
        (s.node i).lastApplied ≤ (s'.node i).lastApplied ∧
        (s'.node i).lastApplied ≤ history.length ∧
        ∀ key outSize, isValidToken key raftMaxKey = true → raftMaxValue ≤ outSize →
          kvGet (s.node i).store key outSize =
            (contents (history.take (s.node i).lastApplied) key).elim (.error (-1)) .ok := by
  obtain ⟨R, h0⟩ := sim_start tables True plainView
  obtain ⟨g', h', -⟩ := h0.reach_keeps run
  obtain ⟨history, hhistory⟩ := h'.exists_longest
  refine ⟨history, fun s before after i => ?_⟩
  obtain ⟨g, h, -⟩ := h0.reach_keeps before
  obtain ⟨-, -, keeps⟩ := h.reach_keeps after
  have hsafe := (h.nodes i).safe trivial
  have hsafe' := (h'.nodes i).safe trivial
  have happlied : (s.node i).lastApplied = (s.node i).commitIndex :=
    le_antisymm hsafe.applied_le (storeInv_of_reach before i).done
  have happlied' : (s'.node i).lastApplied = (s'.node i).commitIndex :=
    le_antisymm hsafe'.applied_le (storeInv_of_reach run i).done
  obtain ⟨hpre, hplain⟩ := hhistory i
  have hcommit := (keeps i).commit
  have hlength := hpre.length_le
  rw [List.length_take, Nat.min_eq_left hsafe'.commit_le] at hlength
  -- What the node has applied is the beginning of what it will have committed.
  have hlog : (s.node i).log.take (s.node i).lastApplied =
      history.take (s.node i).lastApplied := by
    rw [happlied, ← (keeps i).log]
    obtain ⟨rest, rfl⟩ := hpre
    rw [List.take_append_of_le_length, List.take_take, Nat.min_eq_left hcommit]
    rw [List.length_take, Nat.min_eq_left hsafe'.commit_le]
    exact hcommit
  refine ⟨by omega, by omega, fun key outSize hkey hsize => ?_⟩
  rw [hsafe.store, hlog]
  refine kvGet_replay ?_ (fun e he => hplain e (List.mem_of_mem_take he)) hkey hsize
  rw [List.length_take]
  have := (h.nodes i).commit
  omega

/-- Node 1 has applied the command when node 2 has not, which then can be read to hold the same. -/
theorem reads_follow_history_trio : ∃ s s', Reach Cluster.step SteadyPlain trio s ∧
    Reach Cluster.step SteadyPlain s s' ∧ (s.node 0).lastApplied = 1 ∧
    (s.node 1).lastApplied = 0 ∧ (s'.node 1).lastApplied = 1 ∧
    kvGet (s.node 0).store (bytes "k") raftMaxValue =
      kvGet (s'.node 1).store (bytes "k") raftMaxValue := by
  have hrun : (runList Cluster.step (fun s a => decide (SteadyPlain s a)) trio
      (trioCommit.take 7)).any (fun s => decide ((s.node 0).lastApplied = 1 ∧
        (s.node 1).lastApplied = 0) &&
      (runList Cluster.step (fun s a => decide (SteadyPlain s a)) s (trioCommit.drop 7)).any
        fun s' => (s'.node 1).lastApplied = 1) = true := by
    decide +kernel
  obtain ⟨s, run, hs⟩ := exists_reach (fun s a => of_decide_eq_true) hrun
  obtain ⟨happlied, hrun'⟩ := Bool.and_eq_true_iff.mp hs
  obtain ⟨s', run', hs'⟩ := exists_reach (fun s a => of_decide_eq_true) hrun'
  obtain ⟨h0, h1⟩ := of_decide_eq_true happlied
  have h1' := of_decide_eq_true hs'
  obtain ⟨history, reads⟩ := reads_follow_history fixedTables_trio (run.trans run')
  refine ⟨s, s', run, run', h0, h1, h1', ?_⟩
  rw [(reads s run run' 0).2.2 _ _ (by decide) le_rfl,
    (reads s' (run.trans run') .refl 1).2.2 _ _ (by decide) le_rfl, h0, h1']

end Runs

end RaftKv
