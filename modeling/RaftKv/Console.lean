import RaftKv.Cluster
import RaftKv.Parser

/-! The console of a node: `stdin_loop` of `src/node.cpp`, which reads commands and answers them,
while `ticker_loop` runs beside it.  No other node knows this one, so that no line comes in. -/

namespace RaftKv

open Stdio

/-! ### What the console prints -/

def roleName : RaftRole → Text
  | .leader => bytes "leader"
  | .candidate => bytes "candidate"
  | .follower => bytes "follower"

/-- `print_state`.  The leader's id can be negative, which `%d` shows. -/
def printState (node : RaftNode) : Text :=
  printf (format "node=%u role=%s term=%u leader=%s peers=%u commit=%u applied=%u log=%u\n".toList)
    [.u node.id, .s (roleName node.role), .u node.currentTerm, .s (signed node.leaderId),
      .u node.peerCount, .u node.commitIndex, .u node.lastApplied, .u node.logCount]

/-- The row of a pair in `print_store` and in the answer to `get`. -/
def printPair (key value : Text) : Text := printf (format "%s=%s\n".toList) [.s key, .s value]

/-- The answer to `get` for a key that the store does not have. -/
def printMissing (key : Text) : Text := printf (format "%s is not found\n".toList) [.s key]

def printStore (node : RaftNode) : Text :=
  printf (format "store contains %u item(s)\n".toList) [.u node.store.count] ++
    node.store.items.flatMap fun item => if item.used then printPair item.key item.value else []

/-! ### What it reads -/

/-- The C string in `line` after `line[strcspn(line, "\r\n")] = '\0'`. -/
def consoleLine (stored : Text) : Text := stored.takeWhile fun c => c ≠ 0 && c ≠ 13 && c ≠ 10

/-- The lines that `stdin_loop` finds in its input when it reads to the end. -/
def consoleLines (input : Text) : List Text :=
  match _h : fgets raftMaxLine input with
  | none => []
  | some (stored, rest) => consoleLine stored :: consoleLines rest
termination_by input.length
decreasing_by exact @length_fgets raftMaxLine _ _ _ (by decide) (by assumption)

/-- The lines that end `stdin_loop`. -/
def quits (line : Text) : Bool := line = bytes "quit" || line = bytes "exit"

theorem consoleLines_nil : consoleLines [] = [] := by
  rw [consoleLines]
  simp [fgets]

theorem consoleLines_some {input stored rest : Text}
    (h : fgets raftMaxLine input = some (stored, rest)) :
    consoleLines input = consoleLine stored :: consoleLines rest := by
  rw [consoleLines]
  split
  · rename_i hnone
    rw [h] at hnone
    cases hnone
  · rename_i hsome
    rw [h] at hsome
    obtain ⟨rfl, rfl⟩ := Prod.mk.inj (Option.some.inj hsome)
    rfl

/-- Lines that fit in the array are found one by one. -/
theorem consoleLines_lines {lines : List Text}
    (h : ∀ line ∈ lines, line.length + 1 < raftMaxLine ∧ consoleLine line = line) :
    consoleLines (lines.flatMap fun line => line ++ [10]) = lines := by
  induction lines with
  | nil => exact consoleLines_nil
  | cons line lines ih =>
    obtain ⟨fits, whole⟩ := h line List.mem_cons_self
    have hall : ∀ c ∈ line, (c ≠ 0 && c ≠ 13 && c ≠ 10) = true := by
      intro c hc
      rw [← whole, consoleLine] at hc
      have := List.mem_takeWhile_imp hc
      exact this
    have hline : ∀ c ∈ line, c ≠ 10 := by
      intro c hc
      simpa using (Bool.and_eq_true_iff.mp (hall c hc)).2
    have hread := fgets_line (lines.flatMap fun line => line ++ [10]) hline fits
    rw [List.flatMap_cons, List.append_assoc, List.singleton_append, consoleLines_some hread,
      ih fun l hl => h l (List.mem_cons_of_mem _ hl)]
    rw [consoleLine, List.takeWhile_append_of_pos hall]
    simp

/-! ### The threads -/

/-- Where the thread of `stdin_loop` is: at the head of its loop, in `raft_submit_command` or in
`raft_node_stop` with the sections that it has left there, or at its end. -/
inductive StdinThread
  | loop
  | submits (rest : List Section)
  | stops (rest : List Section)
  | ended
  deriving DecidableEq

/-- A node with the threads of its console and of its ticker, what is left of the input, and what
has been printed and sent. -/
structure Console where
  node : RaftNode
  running : Bool
  stdin : StdinThread
  ticker : List Section
  input : Text
  output : Text
  net : List Packet

/-- The thread that goes on. -/
inductive ConsoleAction
  | stdin (env : Env)
  | ticker (env : Env)

namespace Console

/-- `raft_node_start` after `raft_node_init`, with the threads created. -/
def start (now : ℕ) (config : RaftConfig) (input : Text) : Console where
  node := raftNodeInit now config
  running := true
  stdin := .loop
  ticker := [.tickerLoop 0]
  input := input
  output := []
  net := []

/-- What `stdin_loop` does with a line, up to the call of `raft_submit_command` or of
`raft_node_stop`. -/
def handleLine (c : Console) (line : Text) : Console :=
  if quits line then
    { c with stdin := .stops (if c.running then [.requestClusterLeave] else []) }
  else if line = bytes "state" then { c with output := c.output ++ printState c.node }
  else if line = bytes "show" then { c with output := c.output ++ printStore c.node }
  else
    let (rc, parsed) := parseKvCommand (some line) ⟨.none, [], []⟩
    if rc ≠ 0 then { c with output := c.output ++ bytes "bad command\n" }
    else if parsed.op = .none then
      match kvGet c.node.store parsed.key raftMaxValue with
      | .ok value => { c with output := c.output ++ printPair parsed.key value }
      | .error _ => { c with output := c.output ++ printMissing parsed.key }
    else { c with stdin := .submits [.raftSubmitCommand parsed.op parsed.key parsed.value] }

/-- One round of the loop of `stdin_loop`. -/
def stdinLoop (c : Console) : Console :=
  if c.running then
    match fgets raftMaxLine c.input with
    | none => { c with stdin := .ended }
    | some (stored, rest) => { c with input := rest }.handleLine (consoleLine stored)
  else { c with stdin := .ended }

/-- A thread of the node runs a section: the node and the packets then, and what the section adds to
what the thread has left. -/
def run (c : Console) (env : Env) (sec : Section) : Option (Console × List Section) :=
  (exec env sec c.node).map fun e => ({ c with node := e.node, net := e.sends ++ c.net }, e.todo)

def step (c : Console) : ConsoleAction → Option Console
  | .stdin env =>
    match c.stdin with
    | .loop => some c.stdinLoop
    | .submits [] => some { c with stdin := .loop }
    | .submits (sec :: rest) => do
      let (c, todo) ← c.run env sec
      some { c with stdin := .submits (todo ++ rest) }
    -- `raft_node_stop` after `request_cluster_leave`
    | .stops [] => some { c with running := false, stdin := .ended }
    | .stops (sec :: rest) => do
      let (c, todo) ← c.run env sec
      some { c with stdin := .stops (todo ++ rest) }
    | .ended => none
  | .ticker env =>
    match c.running, c.ticker with
    | false, .tickerLoop _ :: _ => some { c with ticker := [] }
    | _, sec :: rest => do
      let (c, todo) ← c.run env sec
      some { c with ticker := todo ++ rest }
    | _, [] => none

theorem step_submits {c c' : Console} {env : Env} {sec : Section} {rest : List Section}
    (place : c.stdin = .submits (sec :: rest)) (h : c.step (.stdin env) = some c') :
    ∃ e, exec env sec c.node = some e ∧
      c' = { c with
        node := e.node, net := e.sends ++ c.net, stdin := .submits (e.todo ++ rest) } := by
  simp only [step, place, run] at h
  obtain ⟨r, hr, heq⟩ := Option.bind_eq_some_iff.mp h
  obtain ⟨e, he, rfl⟩ := Option.map_eq_some_iff.mp hr
  exact ⟨e, he, (Option.some.inj heq).symm⟩

theorem step_stops {c c' : Console} {env : Env} {sec : Section} {rest : List Section}
    (place : c.stdin = .stops (sec :: rest)) (h : c.step (.stdin env) = some c') :
    ∃ e, exec env sec c.node = some e ∧
      c' = { c with
        node := e.node, net := e.sends ++ c.net, stdin := .stops (e.todo ++ rest) } := by
  simp only [step, place, run] at h
  obtain ⟨r, hr, heq⟩ := Option.bind_eq_some_iff.mp h
  obtain ⟨e, he, rfl⟩ := Option.map_eq_some_iff.mp hr
  exact ⟨e, he, (Option.some.inj heq).symm⟩

/-- The ticker runs its next section, or it ends when the node is stopped. -/
theorem step_ticker {c c' : Console} {env : Env} (h : c.step (.ticker env) = some c') :
    c' = { c with ticker := [] } ∨ ∃ sec rest e, c.ticker = sec :: rest ∧
      exec env sec c.node = some e ∧
      c' = { c with node := e.node, net := e.sends ++ c.net, ticker := e.todo ++ rest } := by
  simp only [step] at h
  split at h
  · exact Or.inl (Option.some.inj h).symm
  · rename_i sec rest hticker _
    obtain ⟨r, hr, heq⟩ := Option.bind_eq_some_iff.mp h
    obtain ⟨e, he, rfl⟩ := Option.map_eq_some_iff.mp hr
    exact Or.inr ⟨sec, rest, e, hticker, he, (Option.some.inj heq).symm⟩
  · cases h

end Console

end RaftKv
