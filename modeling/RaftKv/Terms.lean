import RaftKv.Lines
import RaftKv.Table

/-! The terms of a node, for a node by itself, whatever lines it gets.  A term does not go down,
and an election raises it, but from the last term that `uint32_t` has. -/

namespace RaftKv

open Runs Stdio

attribute [local irreducible] toInt32

variable {x y z : RaftNode} {sec : Section} {env : Env} {e : Effect}

/-! ### Numbers -/

/-- The numbers of the line that a section handles. -/
def Section.numbers : Section → List ℕ
  | .handleRequestVote term candidateId lastIndex lastTerm =>
    [term, candidateId, lastIndex, lastTerm]
  | .handleRequestVoteResponse term voterId granted => [term, voterId, granted]
  | .handleAppendEntries term leaderId prevIndex prevTerm leaderCommit hasEntry incoming =>
    [term, leaderId, prevIndex, prevTerm, leaderCommit, hasEntry, incoming.index, incoming.term]
  | .handleAppendResponse term peerId success matchIndex => [term, peerId, success, matchIndex]
  | .handleClientForward sourceId _ _ _ => [sourceId]
  | .handleJoin peerId _ port | .handlePeerAnnounce peerId _ port => [peerId, port]
  | .handleLeave peerId => [peerId]
  | _ => []

/-- The number that an argument of a format is. -/
def argNumber : Arg → Option ℕ
  | .u n => some n
  | .s _ => none

/-- The numbers that `sscanf` stores. -/
theorem fits_sscanf {fmt : List Directive} {line : Text} {args : List Arg}
    (h : sscanf fmt line = args) : Fits (args.filterMap argNumber) := by
  intro n hn
  obtain ⟨arg, harg, hnumber⟩ := List.mem_filterMap.mp hn
  cases arg with
  | u m =>
    obtain rfl := Option.some.inj hnumber
    exact lt_of_mem_sscanf (h ▸ harg)
  | s => cases hnumber

/-- Whatever a line says, the numbers that its handler gets are `uint32_t` values. -/
theorem raftHandleLine_fits {line : Text} (h : raftHandleLine line = some sec) :
    Fits sec.numbers := by
  obtain ⟨_, _, _, -, hargs, call⟩ := handlerCall h
  have hfits := fits_sscanf hargs
  cases call <;> exact hfits

theorem Section.Enterable.fits (h : sec.Enterable) : Fits sec.numbers := by
  rcases h with ⟨line, hline⟩ | inner
  · exact raftHandleLine_fits hline
  · cases sec with
    | handleRequestVote | handleRequestVoteResponse | handleAppendEntries | handleAppendResponse
    | handleClientForward | handleJoin | handlePeerAnnounce | handleLeave => cases inner
    | _ => exact fun n hn => by cases hn

theorem Section.term_mem_numbers {t : ℕ} (h : sec.term = some t) : t ∈ sec.numbers := by
  cases sec with
  | handleRequestVote | handleRequestVoteResponse | handleAppendEntries | handleAppendResponse =>
    obtain rfl := Option.some.inj h
    exact List.mem_cons_self
  | _ => cases h

/-! ### Turns -/

/-- The section does not increment the last term. -/
def advances (x : RaftNode) : Section → Bool
  | .startElection => x.currentTerm ≠ 2 ^ 32 - 1
  | _ => true

/-- What a section does to the term: it stays, it becomes a later one that a line has, or an
election takes the next one. -/
inductive TermTurn (x : RaftNode) : Section → ℕ → Prop
  | stay {sec : Section} (quiet : sec ≠ .startElection) : TermTurn x sec x.currentTerm
  | follow {sec : Section} {t : ℕ} (term : sec.term = some t) (newer : x.currentTerm < t) :
      TermTurn x sec t
  | stand : TermTurn x .startElection ((x.currentTerm + 1) % 2 ^ 32)

theorem Turn.termTurn {seat : Seat} (turn : Turn x sec seat) (quiet : sec ≠ .startElection) :
    TermTurn x sec seat.term := by
  cases turn with
  | stay | yield | win | reopen => exact .stay quiet
  | follow term newer => exact .follow term newer
  | stand => exact absurd rfl quiet
  | @grant t c li lt free upToDate =>
    change TermTurn x (.handleRequestVote t c li lt) t
    rcases free with newer | ⟨same, -⟩
    · exact .follow rfl newer
    · rw [← same]
      exact .stay fun h => by cases h

theorem startElection_term (now : ℕ) (x : RaftNode) :
    (startElection now x).node.currentTerm = (x.currentTerm + 1) % 2 ^ 32 := by
  rw [startElection_eq]
  split <;> rfl

theorem exec_termTurn (he : exec env sec x = some e) : TermTurn x sec e.node.currentTerm := by
  by_cases hsec : sec = .startElection
  · subst hsec
    obtain rfl := Option.some.inj he
    rw [startElection_term]
    exact .stand
  · exact (exec_turn he).termTurn hsec

theorem TermTurn.lt {t : ℕ} (turn : TermTurn x sec t) (below : x.currentTerm < 2 ^ 32)
    (fits : Fits sec.numbers) : t < 2 ^ 32 := by
  cases turn with
  | stay => exact below
  | follow term newer => exact fits t (Section.term_mem_numbers term)
  | stand => exact Nat.mod_lt _ (by decide)

/-- The term goes up as it should unless it was the last one. -/
theorem TermTurn.rises_iff {t : ℕ} (turn : TermTurn x sec t) (fits : x.currentTerm < 2 ^ 32) :
    (x.currentTerm ≤ t ∧ (sec = .startElection → x.currentTerm < t)) ↔ advances x sec = true := by
  cases turn with
  | stay quiet =>
    have hadvances : advances x sec = true := by
      cases sec with
      | startElection => exact absurd rfl quiet
      | _ => rfl
    exact ⟨fun _ => hadvances, fun _ => ⟨le_rfl, fun heq => absurd heq quiet⟩⟩
  | follow term newer =>
    have hadvances : advances x sec = true := by
      cases sec with
      | startElection => cases term
      | _ => rfl
    exact ⟨fun _ => hadvances, fun _ => ⟨newer.le, fun _ => newer⟩⟩
  | stand =>
    rw [advances, decide_eq_true_eq]
    constructor
    · rintro ⟨-, hlt⟩
      have h := hlt rfl
      omega
    · intro hne
      refine ⟨?_, fun _ => ?_⟩ <;> omega

/-! ### Runs -/

/-- A thread of the node enters the section, and the section does not increment the last term. -/
def Advancing (x : RaftNode) (a : Env × Section) : Prop := a.2.Enterable ∧ advances x a.2 = true

theorem term_run (fits : x.currentTerm < 2 ^ 32) (run : Reach RaftNode.step Advancing x y) :
    y.currentTerm < 2 ^ 32 ∧ x.currentTerm ≤ y.currentTerm := by
  refine run.invariant (P := fun y => y.currentTerm < 2 ^ 32 ∧ x.currentTerm ≤ y.currentTerm)
    ⟨fits, le_rfl⟩ ?_
  rintro y a z - ⟨hy, hle⟩ ⟨enters, ha⟩ hstep
  obtain ⟨e, he, rfl⟩ := Option.map_eq_some_iff.mp hstep
  have turn := exec_termTurn he
  exact ⟨turn.lt hy enters.fits, hle.trans ((turn.rises_iff hy).mpr ha).1⟩

/-- In a run of any sections, on lines of any text, in which no election starts in the last term,
no term is below an earlier one; and the next step keeps or raises the term, an election strictly,
exactly when it is not an election in the last term. -/
theorem terms_never_go_back (fits : x.currentTerm < 2 ^ 32)
    (before : Reach RaftNode.step Advancing x y) (run : Reach RaftNode.step Advancing y z) :
    y.currentTerm ≤ z.currentTerm ∧ ∀ a w, a.2.Enterable → z.step a = some w →
      ((z.currentTerm ≤ w.currentTerm ∧
        (a.2 = .startElection → z.currentTerm < w.currentTerm)) ↔ advances z a.2 = true) := by
  obtain ⟨hy, -⟩ := term_run fits before
  obtain ⟨hz, hle⟩ := term_run hy run
  refine ⟨hle, ?_⟩
  intro a w _ hstep
  obtain ⟨e, he, rfl⟩ := Option.map_eq_some_iff.mp hstep
  exact (exec_termTurn he).rises_iff hz

/-- Node 1 of the three follows node 2 to term 7, and its election takes it to term 8. -/
theorem terms_never_go_back_trio :
    ∃ x y, Reach RaftNode.step Advancing (raftNodeInit 0 (trioConfig 0)) x ∧ x.currentTerm = 7 ∧
      x.step (still, .startElection) = some y ∧ x.currentTerm < y.currentTerm := by
  let sec : Section := .handleRequestVote 7 2 0 0
  have hline : raftHandleLine (bytes "RV 7 2 0 0") = some sec := by decide +kernel
  have hrun : (RaftNode.step (raftNodeInit 0 (trioConfig 0)) (still, sec)).any (fun x =>
      x.currentTerm = 7 ∧ (x.step (still, .startElection)).isSome) = true := by
    decide +kernel
  obtain ⟨x, hstep, hx⟩ := (Option.any_eq_true _ _).mp hrun
  obtain ⟨hterm, hnext⟩ := of_decide_eq_true hx
  obtain ⟨y, hy⟩ := Option.isSome_iff_exists.mp hnext
  have run : Reach RaftNode.step Advancing (raftNodeInit 0 (trioConfig 0)) x :=
    .tail (a := (still, sec)) .refl ⟨Or.inl ⟨_, hline⟩, rfl⟩ hstep
  have advances : advances x .startElection = true := by
    rw [RaftKv.advances, hterm]
    decide
  have h := (terms_never_go_back (by decide) .refl run).2 (still, .startElection) y (Or.inr rfl) hy
  exact ⟨x, y, run, hterm, hy, (h.mpr advances).2 rfl⟩

/-- A line of node 2 takes node 1 to the last term, and its election takes it to term 0. -/
theorem term_wraps : ¬∀ (now : ℕ) (config : RaftConfig) (x y : RaftNode) (a : Env × Section),
    Reach RaftNode.step (fun _ a => a.2.Enterable) (raftNodeInit now config) x →
    a.2.Enterable → x.step a = some y →
    x.currentTerm ≤ y.currentTerm ∧ (a.2 = .startElection → x.currentTerm < y.currentTerm) := by
  intro h
  let sec : Section := .handleRequestVote 4294967295 2 0 0
  have hline : raftHandleLine (bytes "RV 4294967295 2 0 0") = some sec := by decide +kernel
  have hrun : (RaftNode.step (raftNodeInit 0 (trioConfig 0)) (still, sec)).any (fun x =>
      (x.step (still, .startElection)).any fun y => y.currentTerm < x.currentTerm) = true := by
    decide +kernel
  obtain ⟨x, hstep, hx⟩ := (Option.any_eq_true _ _).mp hrun
  obtain ⟨y, hy, hlt⟩ := (Option.any_eq_true _ _).mp hx
  have run : Reach RaftNode.step (fun _ a => a.2.Enterable) (raftNodeInit 0 (trioConfig 0)) x :=
    .tail (a := (still, sec)) .refl (Or.inl ⟨_, hline⟩) hstep
  have hle := (h 0 _ x y (still, .startElection) run (Or.inr rfl) hy).1
  exact absurd (of_decide_eq_true hlt) (Nat.not_lt.mpr hle)

end RaftKv
