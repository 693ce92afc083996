import RaftKv.Exchange

/-! A command that a follower forwards to its leader.  The leader gets the command that was
submitted, unless its value is the text that the line writes for an empty value. -/

namespace RaftKv

open Stdio

attribute [local irreducible] toInt32

/-- What a node forwards is written whole and read as the same command, and a leader that reads it
appends what it appends when the command is submitted to it. -/
def ForwardsWhole (op : KvOp) (key value : Text) : Prop :=
  ∀ (env : Env) (x : RaftNode), x.id < 2 ^ 32 →
    ∀ p ∈ (raftSubmitCommand env x op key value).sends,
    p.line.wire.length < raftMaxLine - 1 ∧
    ∃ sec, p.line.handler = some sec ∧ sec = .handleClientForward x.id op key value ∧
    ∀ (env' : Env) (y : RaftNode), y.role = .leader → ∃ e, exec env' sec y = some e ∧
      e.node = (raftSubmitCommand env' y op key value).node ∧
      e.node = (appendEntryLocked y op key value).2

variable {op : KvOp} {key value : Text}

/-- The commands that `raft_submit_command` takes, when a deletion has no value. -/
theorem validCommand_of_tokens (valid_key : isValidToken key raftMaxKey = true)
    (valid_value : (op = .set ∧ isValidToken value raftMaxValue = true) ∨
      (op = .del ∧ value = [])) :
    ValidCommand op key value ∧ Checked op key value := by
  rcases valid_value with ⟨rfl, hvalue⟩ | ⟨rfl, rfl⟩
  · exact ⟨⟨nofun, valid_key, Or.inr hvalue⟩, by simp [valid_key], by simp [hvalue]⟩
  · exact ⟨⟨nofun, valid_key, Or.inl rfl⟩, by simp [valid_key], by simp⟩

/-- Node 2, a follower of node 1. -/
def trioFollower : RaftNode := { trioNode node2 .follower 1 [] with leaderId := 1 }

theorem trioFollower_sends (checked : Checked op key value) :
    ⟨bytes "127.0.0.1", 9001, .cl 2 op key value⟩ ∈
      (raftSubmitCommand still trioFollower op key value).sends := by
  have htarget : 0 ≤ trioFollower.leaderId ∧
      (findPeer trioFollower trioFollower.leaderId.toNat).isSome ∧ still.connects := by decide
  unfold raftSubmitCommand
  rw [if_neg checked.key, if_neg checked.value, if_neg (by decide), if_pos htarget]
  exact List.mem_singleton.mpr rfl

/-- A valid command is forwarded whole exactly when its value is not the placeholder. -/
theorem forwards_whole_iff (valid_key : isValidToken key raftMaxKey = true)
    (valid_value : (op = .set ∧ isValidToken value raftMaxValue = true) ∨
      (op = .del ∧ value = [])) :
    ForwardsWhole op key value ↔ value ≠ bytes "-" := by
  obtain ⟨hv, checked⟩ := validCommand_of_tokens valid_key valid_value
  constructor
  · rintro h rfl
    obtain ⟨-, sec, hread, rfl, -⟩ :=
      h still trioFollower (by decide) _ (trioFollower_sends checked)
    have hsame := hread.symm.trans (@Line.handler_cl_valid 2 op key _ (by norm_num) hv)
    have hvalue := (Section.handleClientForward.inj (Option.some.inj hsame)).2.2.2
    exact absurd hvalue (by decide)
  · intro hne env x hid p hp
    obtain ⟨hline, -⟩ := raftSubmitCommand_sends hp
    have hread : p.line.handler = some (.handleClientForward x.id op key value) := by
      rw [hline, Line.handler_cl_valid hid hv, unplaced_eq hne]
    refine ⟨?_, _, hread, rfl, fun env' y lead => ⟨_, rfl, rfl, ?_⟩⟩
    · have fits : Fits [x.id] := by simpa [Fits] using hid
      rw [hline, wire_cl]
      exact (List.length_take_le' _ _).trans_lt (received_command isTag_cl fits (by simp) hv).1
    · rw [raftSubmitCommand_leader checked lead]

/-- A command with plain texts is forwarded whole. -/
theorem forwards_whole_iff_plain : ForwardsWhole .set (bytes "k") (bytes "a") :=
  (forwards_whole_iff (by decide) (Or.inl ⟨rfl, by decide⟩)).mpr (by decide)

/-- A leader refuses what it is forwarded for the value that is the placeholder. -/
theorem forward_loses_value : ¬∀ (op : KvOp) (key value : Text),
    isValidToken key raftMaxKey = true →
    (op = .set ∧ isValidToken value raftMaxValue = true) ∨ (op = .del ∧ value = []) →
    ForwardsWhole op key value := by
  intro h
  have checked : Checked .set (bytes "k") (bytes "-") := ⟨by decide, by decide⟩
  obtain ⟨-, sec, hread, rfl, -⟩ :=
    h .set (bytes "k") (bytes "-") (by decide) (Or.inl ⟨rfl, by decide⟩) still trioFollower
      (by decide) _ (trioFollower_sends checked)
  have hlost : (Line.cl 2 .set (bytes "k") (bytes "-")).handler =
      some (.handleClientForward 2 .set (bytes "k") []) := by decide +kernel
  have hvalue := (Section.handleClientForward.inj (Option.some.inj (hread.symm.trans hlost))).2.2.2
  exact absurd hvalue (by decide)

end RaftKv
