import Mathlib.Logic.Function.Basic
import RaftKv.Codec
import RaftKv.RaftCore
import RaftKv.Reach

/-! A cluster of nodes.  Each node has threads with sections still to enter, lines are on their way
between the nodes, and an action lets one thread run one section.  What is sent is delivered at
most once, in any order, or lost.  Where it is more than one line to its receiver, the lines are
handled by threads of their own. -/

namespace RaftKv

open Function Stdio

structure Cluster (n : ℕ) where
  node : Fin n → RaftNode
  threads : List (Fin n × List Section)
  net : List Packet

/-- `enter`: a new thread of node `i` runs the section `sec`.  `resume`: thread `k` runs its next
section.  `deliver`: node `i` gets packet `k`, a worker runs the section of the handler call `m` of
its lines, and other threads are left with the other calls.  `lose`: packet `k` is lost. -/
inductive Action (n : ℕ)
  | enter (i : Fin n) (env : Env) (sec : Section)
  | resume (k : ℕ) (env : Env)
  | deliver (k : ℕ) (i : Fin n) (env : Env) (m : ℕ := 0)
  | lose (k : ℕ)

/-- What the section of an action reads of the outside. -/
def Action.env {n : ℕ} : Action n → Env
  | .enter _ env _ | .resume _ env | .deliver _ _ env _ => env
  | .lose _ => ⟨0, false⟩

namespace Cluster

variable {n : ℕ}

/-- A thread of node `i` runs `sec` and has `rest` left. -/
def run (s : Cluster n) (i : Fin n) (env : Env) (sec : Section) (rest : List Section) :
    Option (Cluster n) :=
  (exec env sec (s.node i)).map fun e =>
    { node := update s.node i e.node
      threads := (i, e.todo ++ rest) :: s.threads
      net := e.sends ++ s.net }

def step (s : Cluster n) : Action n → Option (Cluster n)
  | .enter i env sec => s.run i env sec []
  | .resume k env =>
    match s.threads[k]? with
    | some (i, sec :: rest) => { s with threads := s.threads.eraseIdx k }.run i env sec rest
    | _ => none
  | .deliver k i env m =>
    match s.net[k]? with
    | some p =>
      if p.host = (s.node i).host ∧ p.port = (s.node i).port then
        let calls := p.line.handlers
        match calls[m]? with
        | some sec =>
          { s with
            threads := (calls.eraseIdx m).map (fun call => (i, [call])) ++ s.threads
            net := s.net.eraseIdx k }.run i env sec []
        | none => if calls = [] then some { s with net := s.net.eraseIdx k } else none
      else none
    | none => none
  | .lose k => if k < s.net.length then some { s with net := s.net.eraseIdx k } else none

/-- The node and the section that an action runs. -/
def entered (s : Cluster n) : Action n → Option (Fin n × Section)
  | .enter i _ sec => some (i, sec)
  | .resume k _ =>
    match s.threads[k]? with
    | some (i, sec :: _) => some (i, sec)
    | _ => none
  | .deliver k i _ m => (s.net[k]?.bind fun p => p.line.handlers[m]?).map fun sec => (i, sec)
  | .lose _ => none

/-- The cluster after every node has gone through `raft_node_init`. -/
def start (now : Fin n → ℕ) (config : Fin n → RaftConfig) : Cluster n where
  node i := raftNodeInit (now i) (config i)
  threads := []
  net := []

/-- Where the section of an action comes from, and the threads and packets that stay. -/
inductive Source (s : Cluster n) (i : Fin n) (sec : Section) :
    Action n → List Section → List (Fin n × List Section) → List Packet → Prop
  | enter (env : Env) : Source s i sec (.enter i env sec) [] s.threads s.net
  | resume (k : ℕ) (env : Env) (rest : List Section) (pre post : List (Fin n × List Section))
      (split : s.threads = pre ++ (i, sec :: rest) :: post) :
      Source s i sec (.resume k env) rest (pre ++ post) s.net
  | deliver (k : ℕ) (env : Env) (m : ℕ) (p : Packet) (pre post : List Packet)
      (split : s.net = pre ++ p :: post)
      (address : p.host = (s.node i).host ∧ p.port = (s.node i).port)
      (parsed : p.line.handlers[m]? = some sec) :
      Source s i sec (.deliver k i env m) []
        ((p.line.handlers.eraseIdx m).map (fun call => (i, [call])) ++ s.threads) (pre ++ post)

theorem exists_split {β : Type*} {l : List β} {k : ℕ} {b : β} (h : l[k]? = some b) :
    ∃ pre post, l = pre ++ b :: post ∧ l.eraseIdx k = pre ++ post := by
  obtain ⟨hk, rfl⟩ := List.getElem?_eq_some_iff.mp h
  refine ⟨l.take k, l.drop (k + 1), ?_, List.eraseIdx_eq_take_drop_succ ..⟩
  rw [List.getElem_cons_drop, List.take_append_drop]

/-- The packet that an action takes away without running a section: it is lost, or leads to no
handler call. -/
def drops (s : Cluster n) : Action n → Option Packet
  | .enter .. | .resume .. => none
  | .deliver k .. => s.net[k]?.filter fun p => p.line.handlers = []
  | .lose k => s.net[k]?

theorem entered_of_drops {s : Cluster n} {a : Action n} {p : Packet} (h : s.drops a = some p) :
    s.entered a = none := by
  cases a with
  | enter | resume => cases h
  | deliver k i env m =>
    obtain ⟨hk, hnone⟩ := Option.filter_eq_some_iff.mp h
    simp only [entered, hk, Option.bind_some, of_decide_eq_true hnone, List.getElem?_nil,
      Option.map_none]
  | lose k => rfl

theorem mem_of_drops {s : Cluster n} {a : Action n} {p : Packet} (h : s.drops a = some p) :
    p ∈ s.net := by
  cases a with
  | enter | resume => cases h
  | deliver k => exact List.mem_of_getElem? (Option.filter_eq_some_iff.mp h).1
  | lose k => exact List.mem_of_getElem? h

/-- An action runs one section of one node, or drops a packet. -/
theorem step_drops {s s' : Cluster n} {a : Action n} (h : s.step a = some s') :
    (∃ pre p post, s.net = pre ++ p :: post ∧ s' = { s with net := pre ++ post } ∧
      s.drops a = some p) ∨
    ∃ i sec rest threads net e, s.entered a = some (i, sec) ∧
      Source s i sec a rest threads net ∧ exec a.env sec (s.node i) = some e ∧
      s' = ⟨update s.node i e.node, (i, e.todo ++ rest) :: threads, e.sends ++ net⟩ := by
  cases a with
  | enter i env sec =>
    obtain ⟨e, he, rfl⟩ := Option.map_eq_some_iff.mp h
    exact Or.inr ⟨i, sec, [], _, _, e, rfl, .enter env, he, rfl⟩
  | resume k env =>
    simp only [step] at h
    split at h
    · rename_i i sec rest hk
      obtain ⟨e, he, rfl⟩ := Option.map_eq_some_iff.mp h
      obtain ⟨pre, post, h1, h2⟩ := exists_split hk
      rw [h2]
      exact Or.inr ⟨i, sec, rest, _, _, e, by simp [entered, hk],
        .resume k env rest pre post h1, he, rfl⟩
    · cases h
  | deliver k i env m =>
    simp only [step] at h
    split at h
    · rename_i p hk
      obtain ⟨pre, post, h1, h2⟩ := exists_split hk
      split at h
      · rename_i haddr
        split at h
        · rename_i sec hsec
          obtain ⟨e, he, rfl⟩ := Option.map_eq_some_iff.mp h
          rw [h2]
          exact Or.inr ⟨i, sec, [], _, _, e, by simp [entered, hk, hsec],
            .deliver k env m p pre post h1 haddr hsec, he, rfl⟩
        · split at h
          · rename_i hnone
            cases h
            exact Or.inl ⟨pre, p, post, h1, by rw [h2], by simp [drops, hk, hnone]⟩
          · cases h
      · cases h
    · cases h
  | lose k =>
    simp only [step] at h
    split at h
    · rename_i hk
      cases h
      have hget := List.getElem?_eq_getElem hk
      obtain ⟨pre, post, h1, h2⟩ := exists_split hget
      exact Or.inl ⟨pre, _, post, h1, by rw [h2], hget⟩
    · cases h

theorem step_cases {s s' : Cluster n} {a : Action n} (h : s.step a = some s') :
    (∃ pre p post, s.net = pre ++ p :: post ∧ s' = { s with net := pre ++ post }) ∨
    ∃ i env sec rest threads net e, s.entered a = some (i, sec) ∧
      Source s i sec a rest threads net ∧ exec env sec (s.node i) = some e ∧
      s' = ⟨update s.node i e.node, (i, e.todo ++ rest) :: threads, e.sends ++ net⟩ := by
  rcases step_drops h with ⟨pre, p, post, hnet, hs', -⟩ |
    ⟨i, sec, rest, threads, net, e, hent, hsrc, he, hs'⟩
  · exact Or.inl ⟨pre, p, post, hnet, hs'⟩
  · exact Or.inr ⟨i, a.env, sec, rest, threads, net, e, hent, hsrc, he, hs'⟩

/-- Where the section of an action comes from, when every packet is one line. -/
inductive Origin (s : Cluster n) (i : Fin n) (sec : Section) :
    Action n → List Section → List (Fin n × List Section) → List Packet → Prop
  | enter (env : Env) : Origin s i sec (.enter i env sec) [] s.threads s.net
  | resume (k : ℕ) (env : Env) (rest : List Section) (pre post : List (Fin n × List Section))
      (split : s.threads = pre ++ (i, sec :: rest) :: post) :
      Origin s i sec (.resume k env) rest (pre ++ post) s.net
  | deliver (k : ℕ) (env : Env) (m : ℕ) (p : Packet) (pre post : List Packet)
      (split : s.net = pre ++ p :: post)
      (address : p.host = (s.node i).host ∧ p.port = (s.node i).port)
      (parsed : p.line.handler = some sec) :
      Origin s i sec (.deliver k i env m) [] s.threads (pre ++ post)

section Sources

variable {s : Cluster n} {i : Fin n} {sec : Section} {a : Action n} {rest : List Section}
  {threads : List (Fin n × List Section)} {net : List Packet}

/-- The packets that stay were on their way. -/
theorem Source.mem_net (src : Source s i sec a rest threads net) {p : Packet} (hp : p ∈ net) :
    p ∈ s.net := by
  cases src with
  | enter | resume => exact hp
  | deliver k env m q pre post split =>
    rw [split]
    exact List.mem_append.mpr ((List.mem_append.mp hp).imp_right (List.mem_cons_of_mem q))

theorem Source.origin (src : Source s i sec a rest threads net)
    (unbroken : ∀ p ∈ s.net, p.line.Unbroken) : Origin s i sec a rest threads net := by
  cases src with
  | enter env => exact .enter env
  | resume k env rest pre post split => exact .resume k env rest pre post split
  | deliver k env m p pre post split address parsed =>
    obtain ⟨hparsed, hothers⟩ := (unbroken p (by simp [split])).handler_eq parsed
    rw [hothers]
    exact .deliver k env m p pre post split address hparsed

/-- What holds of all sections left and all packets holds of what stays.  The section to run has it
too, in the form `P`, when it was left in a thread, was entered with it, or gets it from its
packet. -/
theorem Origin.carries (src : Origin s i sec a rest threads net) {Q P : Section → Prop}
    {R : Packet → Prop} (hthreads : ∀ th ∈ s.threads, ∀ next ∈ th.2, Q next)
    (hnet : ∀ p ∈ s.net, R p) (entered : ∀ env, a = .enter i env sec → P sec)
    (resumed : Q sec → P sec)
    (handled : ∀ p, R p → p.host = (s.node i).host ∧ p.port = (s.node i).port →
      p.line.handler = some sec → P sec) :
    P sec ∧ (∀ next ∈ rest, Q next) ∧ (∀ th ∈ threads, ∀ next ∈ th.2, Q next) ∧
      ∀ p ∈ net, R p := by
  cases src with
  | enter env =>
    exact ⟨entered env rfl, fun next hn => absurd hn List.not_mem_nil, hthreads, hnet⟩
  | resume k env rest pre post split =>
    rw [split] at hthreads
    simp only [List.forall_mem_append, List.forall_mem_cons] at hthreads
    obtain ⟨hpre, ⟨hsec, hrest⟩, hpost⟩ := hthreads
    exact ⟨resumed hsec, hrest, List.forall_mem_append.mpr ⟨hpre, hpost⟩, hnet⟩
  | deliver k env m p pre post split address parsed =>
    rw [split] at hnet
    simp only [List.forall_mem_append, List.forall_mem_cons] at hnet
    obtain ⟨hpre, hp, hpost⟩ := hnet
    exact ⟨handled p hp address parsed, fun next hn => absurd hn List.not_mem_nil, hthreads,
      List.forall_mem_append.mpr ⟨hpre, hpost⟩⟩

end Sources

end Cluster

/-! ### Fixed complete peer tables -/

/-- Every node lists every other node exactly once, with its address, under distinct ids below
`2^31`. -/
structure FixedTables {n : ℕ} (node : Fin n → RaftNode) : Prop where
  id_pos : ∀ i, 0 < (node i).id
  id_lt : ∀ i, (node i).id < 2 ^ 31
  id_inj : ∀ i j, (node i).id = (node j).id → i = j
  addr_inj : ∀ i j, (node i).host = (node j).host → (node i).port = (node j).port → i = j
  room : ∀ i, (node i).peerCount ≤ raftMaxPeers
  nodup : ∀ i, ((node i).peers.map fun p => p.id).Nodup
  complete : ∀ i id, id ∈ (node i).peers.map (fun p => p.id) ↔ ∃ j, j ≠ i ∧ (node j).id = id
  address : ∀ i, ∀ p ∈ (node i).peers, ∀ j, p.id = (node j).id →
    p.host = (node j).host ∧ p.port = (node j).port

/-- The sections with which a thread starts in a cluster without membership changes. -/
def Section.starts : Section → Bool
  | .raftSubmitCommand .. | .startElection | .sendAppendToPeer _ | .tickerLoop _ => true
  | _ => false

/-- The sections with which a thread starts in a cluster without membership changes, where no value
that is submitted with a deletion has a newline in it.  `raft_submit_command` checks the others. -/
def Section.fixed : Section → Bool
  | .raftSubmitCommand op _ value => op = .del → 10 ∉ value
  | sec => sec.starts

def Action.starts {n : ℕ} : Action n → Bool
  | .enter _ _ sec => sec.starts
  | _ => true

def Action.fixed {n : ℕ} : Action n → Bool
  | .enter _ _ sec => sec.fixed
  | _ => true

section Conditions

variable {n : ℕ}

/-- No node can pass the last term that `uint32_t` has. -/
def TermsBelow (s : Cluster n) : Prop := ∀ i, (s.node i).currentTerm < 2 ^ 32 - 1

/-- An action of a cluster with fixed tables, while the terms do not wrap and no value of a deletion
has a newline in it. -/
def Admitted (s : Cluster n) (a : Action n) : Prop := a.fixed = true ∧ TermsBelow s

/-- Where an `AE` section at node `i` leaves the log as it is, the entries it leaves after the
checked ones have the terms of the sender's log: all of them while the sender leads in the term of
the line, and those up to the sender's commit index in any case. -/
def Vouched (s : Cluster n) (i : Fin n) : Section → Prop
  | .handleAppendEntries term leaderId prevIndex prevTerm leaderCommit hasEntry incoming =>
    (s.node i).currentTerm ≤ term → prevMatches (s.node i) prevIndex prevTerm = true →
    (hasEntry ≠ 0 → ∀ old ∈ (s.node i).log[incoming.index - 1]?, old.term = incoming.term) →
    ∀ l, (s.node l).id = leaderId →
    ∀ k < (s.node i).logCount, prevIndex + (if hasEntry = 0 then 0 else 1) ≤ k →
    ((s.node l).role = .leader ∧ (s.node l).currentTerm = term) ∨ k < leaderCommit →
    (s.node i).log[k]?.map (·.term) = (s.node l).log[k]?.map (·.term)
  | _ => True

/-- Whether a section builds an `AE` line. -/
def Section.builds : Section → Bool
  | .sendAppendToPeer _ => true
  | _ => false

/-- Only a leader builds an `AE` line, and an `AE` section leaves only entries that are vouched
for. -/
def Guarded (s : Cluster n) (a : Action n) : Prop :=
  match s.entered a with
  | some (i, sec) => (sec.builds = true → (s.node i).role = .leader) ∧ Vouched s i sec
  | none => True

instance (s : Cluster n) (i : Fin n) (sec : Section) : Decidable (Vouched s i sec) :=
  match sec with
  | .handleAppendEntries .. => by unfold Vouched; infer_instance
  | .tickerLoop _ | .tickerMark | .startElection | .broadcastAppend | .sendAppendToPeer _
  | .handleRequestVote .. | .handleRequestVoteResponse .. | .handleAppendResponse ..
  | .raftSubmitCommand .. | .handleClientForward .. | .submitPeerless | .submitCommit
  | .handleJoin .. | .sendPeerCatalog .. | .handlePeerAnnounce .. | .announcePeerToKnownNodes ..
  | .handleLeave _ | .announceLeaveToKnownNodes _ | .requestClusterJoin | .requestClusterLeave =>
    .isTrue trivial

instance (s : Cluster n) (a : Action n) : Decidable (Guarded s a) := by
  unfold Guarded
  split <;> infer_instance

instance (s : Cluster n) : Decidable (TermsBelow s) := by
  unfold TermsBelow
  infer_instance

instance (s : Cluster n) (a : Action n) : Decidable (Admitted s a) := by
  unfold Admitted
  infer_instance

end Conditions

/-! ### Three nodes -/

def trioPeer (id : ℕ) : Peer := ⟨id, bytes "127.0.0.1", 9000 + id, 1, 0⟩

def trioConfig (i : Fin 3) : RaftConfig where
  id := i + 1
  host := bytes "127.0.0.1"
  port := 9001 + i
  peers := ([1, 2, 3].filter fun id => id ≠ i.val + 1).map trioPeer

/-- Three nodes that list each other. -/
def trio : Cluster 3 := Cluster.start (fun _ => 0) trioConfig

/-- Any node reads nothing of its environment but the time, which stands still. -/
def still : Env := ⟨0, true⟩

def node1 : Fin 3 := 0

def node2 : Fin 3 := 1

def node3 : Fin 3 := 2

/-- Node 1 is elected, replicates a command to node 2, and both apply it. -/
def trioCommit : List (Action 3) :=
  [.enter node1 still .startElection, .deliver 0 node2 still, .deliver 0 node1 still,
    .enter node1 still (.raftSubmitCommand .set (bytes "k") (bytes "a")),
    .enter node1 still (.sendAppendToPeer 2), .deliver 0 node2 still, .deliver 0 node1 still,
    .enter node1 still (.sendAppendToPeer 2), .deliver 0 node2 still]

end RaftKv
