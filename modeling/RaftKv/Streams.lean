import RaftKv.History
import RaftKv.Sending

/-! A cluster over byte streams.  A section's lines go out by `connect_send`, each over a connection
of its own, the network thread of the receiver takes their bytes in pieces and submits the lines it
finds, and a worker parses a line and runs its handler. -/

namespace RaftKv

open Function Segments Stdio

/-- A connection to a node: the bytes that the receiver has not got yet, and its own end. -/
structure Link where
  host : Text
  port : ℕ
  unread : Text
  connection : Connection
  deriving DecidableEq

/-- Nodes, the threads that are not done, the connections, and the lines in the nodes' pools. -/
structure Streams (n : ℕ) where
  node : Fin n → RaftNode
  threads : List (Fin n × List Section)
  links : List Link
  pool : List (Fin n × Text)

/-- `enter` and `resume`: as in the cluster, with the calls of `connect_send` for each line of the
section.  `read`: the network thread of node `i` takes `count` bytes of connection `k`.  `close`:
connection `k` comes to its end, with what has not been read.  `drop`: `pool_submit` does not take
line `k`.  `work`: a worker parses line `k` and runs its first section. -/
inductive StreamAction (n : ℕ)
  | enter (i : Fin n) (now : ℕ) (calls : ℕ → SendCalls) (sec : Section)
  | resume (k : ℕ) (now : ℕ) (calls : ℕ → SendCalls)
  | read (k : ℕ) (i : Fin n) (count : ℕ)
  | close (k : ℕ)
  | drop (k : ℕ)
  | work (k : ℕ) (now : ℕ) (calls : ℕ → SendCalls)

namespace Streams

variable {n : ℕ}

/-- The connections that `connect_send` makes for some lines. -/
def opened (calls : ℕ → SendCalls) : List Packet → List Link
  | [] => []
  | p :: sends =>
    let link bytes : Link := ⟨p.host, p.port, bytes, .empty⟩
    ((connectSend (calls 0) p.line.wire).bytes.map link).toList ++
      opened (fun m => calls (m + 1)) sends

/-- Whether `connect_send` returns 0 for the first line of a section. -/
def connects (calls : ℕ → SendCalls) (sends : List Packet) : Bool :=
  sends.head?.all fun p => (connectSend (calls 0) p.line.wire).ret = 0

/-- A thread of node `i` runs `sec` and has `rest` left.  What it tries to send does not depend on
`connect_send`, but `raft_submit_command` tests what that returns. -/
def run (s : Streams n) (i : Fin n) (now : ℕ) (calls : ℕ → SendCalls) (sec : Section)
    (rest : List Section) : Option (Streams n) := do
  let tried ← exec ⟨now, true⟩ sec (s.node i)
  let e ← exec ⟨now, connects calls tried.sends⟩ sec (s.node i)
  some { s with
    node := update s.node i e.node
    threads := (i, e.todo ++ rest) :: s.threads
    links := opened calls tried.sends ++ s.links }

/-- The receiver's end of a connection takes some bytes: the lines submitted, and what is left. -/
def took (l : Link) (count : ℕ) : List Text × Link :=
  let (lines, left) :=
    dispatchCompleteLines { buffer := l.connection.buffer ++ l.unread.take count }
  (lines, { l with unread := l.unread.drop count, connection := left })

def step (s : Streams n) : StreamAction n → Option (Streams n)
  | .enter i now calls sec => s.run i now calls sec []
  | .resume k now calls =>
    match s.threads[k]? with
    | some (i, sec :: rest) => { s with threads := s.threads.eraseIdx k }.run i now calls sec rest
    | _ => none
  | .read k i count =>
    match s.links[k]? with
    | some l =>
      if l.host = (s.node i).host ∧ l.port = (s.node i).port then
        if l.connection.remaining = 0 then some { s with links := s.links.eraseIdx k }
        else if 1 ≤ count ∧ count ≤ l.connection.remaining ∧ count ≤ l.unread.length then
          some { s with
            links := s.links.set k (took l count).2
            pool := s.pool ++ (took l count).1.map fun line => (i, line) }
        else none
      else none
    | none => none
  | .close k => if k < s.links.length then some { s with links := s.links.eraseIdx k } else none
  | .drop k => if k < s.pool.length then some { s with pool := s.pool.eraseIdx k } else none
  | .work k now calls =>
    match s.pool[k]? with
    | some (i, line) =>
      match raftHandleLine line with
      | some sec => { s with pool := s.pool.eraseIdx k }.run i now calls sec []
      | none => some { s with pool := s.pool.eraseIdx k }
    | none => none

/-- The node and the section that an action runs. -/
def entered (s : Streams n) : StreamAction n → Option (Fin n × Section)
  | .enter i _ _ sec => some (i, sec)
  | .resume k _ _ =>
    match s.threads[k]? with
    | some (i, sec :: _) => some (i, sec)
    | _ => none
  | .work k _ _ => s.pool[k]?.bind fun line => (raftHandleLine line.2).map fun sec => (line.1, sec)
  | .read .. | .close _ | .drop _ => none

/-- The nodes and the threads, with no packets. -/
def cluster (s : Streams n) : Cluster n := ⟨s.node, s.threads, []⟩

/-- The cluster after every node has gone through `raft_node_init`. -/
def start (now : Fin n → ℕ) (config : Fin n → RaftConfig) : Streams n where
  node i := raftNodeInit (now i) (config i)
  threads := []
  links := []
  pool := []

/-- What the conditions of the cluster say of an action and of the section that it runs. -/
def SteadyPlain (s : Streams n) (a : StreamAction n) : Prop :=
  TermsBelow s.cluster ∧
    (match a with
      | .enter i now _ sec =>
        sec.fixed = true ∧ (Action.enter i ⟨now, true⟩ sec).Clean plainView
      | _ => True) ∧
    match s.entered a with
      | some (i, sec) => (sec.builds = true → (s.node i).role = .leader) ∧ Vouched s.cluster i sec
      | none => True

instance (s : Streams n) (a : StreamAction n) : Decidable (s.SteadyPlain a) :=
  haveI : Decidable (match a with
      | .enter i now _ sec =>
        sec.fixed = true ∧ (Action.enter i ⟨now, true⟩ sec).Clean plainView
      | _ => True) := by
    split
    · infer_instance
    · exact .isTrue trivial
  haveI : Decidable (match s.entered a with
      | some (i, sec) => (sec.builds = true → (s.node i).role = .leader) ∧ Vouched s.cluster i sec
      | none => True) := by
    split
    · infer_instance
    · exact .isTrue trivial
  inferInstanceAs (Decidable (_ ∧ _ ∧ _))

end Streams

end RaftKv
