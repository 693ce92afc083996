import Mathlib.Data.Finset.Basic
import RaftKv.Connection
import RaftKv.OwnedCells
import RaftKv.Reach

/-! The network thread of `src/network.cpp`: its descriptors, its table of connections and the
events that `epoll_wait` reports.  The other threads open and close descriptors in between, and a
descriptor that was closed can come again, as an address that was freed can. -/

namespace RaftKv

open Function Stdio

def raftMaxConn : ℕ := 65536

/-- What an open descriptor refers to: the listening socket, the epoll instance, the connection that
`accept` has returned after `k` others, or a file of another thread. -/
inductive File
  | server
  | epoll
  | connection (k : ℕ)
  | other
  deriving DecidableEq

/-- A `struct epoll_event`.  The code does not have `file`: what the descriptor referred to when
`epoll_wait` reported the event. -/
structure EpollEvent where
  fd : ℕ
  readable : Bool
  hungUp : Bool
  file : File
  deriving DecidableEq

/-- Where the network thread is: before `epoll_wait` or an event, in the loop of `read_connection`,
behind its call, or behind the loop of `network_loop`. -/
inductive Phase
  | waiting
  | reading
  | checking
  | exited
  deriving DecidableEq

/-- The node's side of the network, with the open descriptors of the process, those registered with
the epoll instance, and the `Connection` objects in memory.  `events`: those that the thread still
has to handle.  The code does not have the last fields: how many connections there have been, the
bytes that each has got, and its calls of `pool_submit`, each for the line of one connection. -/
structure Server where
  serverFd : Option ℕ
  epollFd : Option ℕ
  connections : ℕ → Option ℕ
  heap : ℕ → Option Connection
  opened : ℕ → Option File
  watched : Finset ℕ
  phase : Phase
  events : List EpollEvent
  accepts : ℕ
  received : ℕ → Text
  submitted : List (ℕ × Text)

/-- `openOther` and `closeOther`: another thread opens a descriptor, and closes one of its own.
`wait`: `epoll_wait` reports events.  `leave`: the loop of `network_loop` ends.  `accept`: `accept`
returns a descriptor, `set_nonblock` succeeds or not, `calloc` returns an address or not, and
`epoll_ctl` succeeds or not.  `acceptEnds`: `accept` fails.  `event`: the thread comes to an event
that is not of the listening socket.  `recv`: it takes one turn of the loop of `read_connection`, in
which `recv` returns `result` if it is called.  `check`: it is done with the event. -/
inductive ServerAction
  | openOther (fd : ℕ)
  | closeOther (fd : ℕ)
  | wait (events : List EpollEvent)
  | leave
  | accept (fd : ℕ) (nonblock : Bool) (memory : Option ℕ) (added : Bool)
  | acceptEnds
  | event
  | recv (result : Recv)
  | check

/-- Whether another thread takes the action. -/
def ServerAction.foreign : ServerAction → Bool
  | .openOther _ | .closeOther _ => true
  | _ => false

/-- What the calls of `create_server` return, in their order; `none` and `false` are failures. -/
structure ServerCalls where
  socket : Option ℕ
  nonblock : Bool
  address : Bool
  bound : Bool
  listens : Bool
  epoll : Option ℕ
  added : Bool

/-- A node after `raft_node_init`, in a process in which other files are open. -/
def serverInit (opened : ℕ → Option File) : Server where
  serverFd := none
  epollFd := none
  connections _ := none
  heap _ := none
  opened := opened
  watched := ∅
  phase := .waiting
  events := []
  accepts := 0
  received _ := []
  submitted := []

namespace Server

variable {s s' : Server}

def openFd (s : Server) (fd : ℕ) (file : File) : Server :=
  { s with opened := update s.opened fd (some file) }

/-- A file that is closed leaves the epoll instance. -/
def closeFd (s : Server) (fd : ℕ) : Server :=
  { s with opened := update s.opened fd none, watched := s.watched.erase fd }

def epollDel (s : Server) (fd : ℕ) : Server := { s with watched := s.watched.erase fd }

/-- The return value, and the node's side of the network. -/
def createServer (s : Server) (calls : ServerCalls) : ℤ × Server :=
  match calls.socket with
  | none => (-1, s)
  | some fd =>
    let s := s.openFd fd .server
    if ¬ calls.nonblock then (-2, s.closeFd fd)
    else if ¬ calls.address then (-3, s.closeFd fd)
    else if ¬ calls.bound then (-4, s.closeFd fd)
    else if ¬ calls.listens then (-5, s.closeFd fd)
    else
      match calls.epoll with
      | none => (-6, { s with epollFd := none }.closeFd fd)
      | some epollFd =>
        let s := { s.openFd epollFd .epoll with epollFd := some epollFd }
        if ¬ calls.added then (-7, (s.closeFd fd).closeFd epollFd)
        else (0, { s with watched := insert fd s.watched, serverFd := some fd })

/-- `none` when it frees an object that is not there. -/
def closeConnection (s : Server) (fd : ℕ) : Option Server :=
  if fd ≥ raftMaxConn then some s
  else
    let s := s.epollDel fd
    match s.connections fd with
    | none => some (s.closeFd fd)
    | some a => (s.heap a).map fun _ =>
      { s with
        heap := update s.heap a none
        connections := update s.connections fd none }.closeFd fd

/-- One turn of the loop of `accept_connections`, in which `accept` returns `fd`. -/
def acceptConnection (s : Server) (fd : ℕ) (nonblock : Bool) (memory : Option ℕ) (added : Bool) :
    Option Server :=
  let s := { s.openFd fd (.connection s.accepts) with accepts := s.accepts + 1 }
  if fd ≥ raftMaxConn ∨ ¬ nonblock then some (s.closeFd fd)
  else
    match memory with
    | none => some (s.closeFd fd)
    | some a =>
      let s := { s with
        heap := update s.heap a (some .empty)
        connections := update s.connections fd (some a) }
      if ¬ added then s.closeConnection fd
      else some { s with watched := insert fd s.watched }

/-- One turn of the loop of `read_connection`; `none` when the object is not there, or the
descriptor is not of a connection. -/
def readTurn (s : Server) (fd : ℕ) (result : Recv) : Option Server :=
  match s.connections fd, s.opened fd with
  | some a, some (.connection k) => (s.heap a).bind fun connection =>
    if connection.remaining = 0 then
      (s.closeConnection fd).map fun s => { s with phase := .checking }
    else
      match result with
      | .bytes chunk =>
        let (lines, left) :=
          dispatchCompleteLines { buffer := connection.buffer ++ chunk }
        some { s with
          heap := update s.heap a (some left)
          received := update s.received k (s.received k ++ chunk)
          submitted := s.submitted ++ lines.map fun line => (k, line) }
      | .wouldBlock => some { s with phase := .checking }
      | .ended => (s.closeConnection fd).map fun s => { s with phase := .checking }
  | _, _ => none

/-- Whether `read_connection` comes to its loop. -/
def comesToRead (s : Server) (e : EpollEvent) : Bool :=
  e.readable && e.fd < raftMaxConn && (s.connections e.fd).isSome

/-- The test of `network_loop` after `read_connection`. -/
def closesAfter (s : Server) (e : EpollEvent) : Bool :=
  e.fd < raftMaxConn && (s.connections e.fd).isSome && e.hungUp

/-- The action at its place in the code; `none` when the thread is elsewhere, or at a fault. -/
def step (s : Server) : ServerAction → Option Server
  | .openOther fd => some (s.openFd fd .other)
  | .closeOther fd => some (s.closeFd fd)
  | .wait events =>
    if s.phase = .waiting ∧ s.events = [] then some { s with events := events } else none
  | .leave =>
    if s.phase = .waiting ∧ s.events = [] then some { s with phase := .exited } else none
  | .accept fd nonblock memory added =>
    match s.phase, s.events with
    | .waiting, e :: _ =>
      if s.serverFd = some e.fd then s.acceptConnection fd nonblock memory added else none
    | _, _ => none
  | .acceptEnds =>
    match s.phase, s.events with
    | .waiting, e :: events =>
      if s.serverFd = some e.fd then some { s with events := events } else none
    | _, _ => none
  | .event =>
    match s.phase, s.events with
    | .waiting, e :: _ =>
      if s.serverFd = some e.fd then none
      else some { s with phase := if s.comesToRead e then .reading else .checking }
    | _, _ => none
  | .recv result =>
    match s.phase, s.events with
    | .reading, e :: _ => s.readTurn e.fd result
    | _, _ => none
  | .check =>
    match s.phase, s.events with
    | .checking, e :: events =>
      (if s.closesAfter e then s.closeConnection e.fd else some s).map fun s =>
        { s with phase := .waiting, events := events }
    | _, _ => none

/-- The loop of `raft_node_destroy` over the `count` slots from `i` on. -/
def closeConnections (s : Server) : (count i : ℕ) → Option Server
  | 0, _ => some s
  | count + 1, i =>
    (if s.connections i = none then some s else s.closeConnection i).bind fun s =>
      s.closeConnections count (i + 1)

def closeServerFd (s : Server) : Server :=
  match s.serverFd with
  | some fd => { s.closeFd fd with serverFd := none }
  | none => s

def closeEpollFd (s : Server) : Server :=
  match s.epollFd with
  | some fd => { s.closeFd fd with epollFd := none }
  | none => s

/-- What `raft_node_destroy` closes, after it has joined the threads. -/
def raftNodeDestroy (s : Server) : Option Server :=
  (s.closeConnections raftMaxConn 0).map fun s => s.closeServerFd.closeEpollFd

/-- What the kernel and the allocator promise, and the other threads keep to: a new descriptor or
address is not in use, a thread closes its own files, `epoll_wait` reports at most 64 events of
different descriptors registered with it, and `recv` returns between one byte and as many as it was
asked for. -/
def Admitted (s : Server) : ServerAction → Prop
  | .openOther fd => s.opened fd = none
  | .closeOther fd => s.opened fd = some .other
  | .wait events => events.length ≤ 64 ∧ (events.map (·.fd)).Nodup ∧
      ∀ e ∈ events, e.fd ∈ s.watched ∧ s.opened e.fd = some e.file
  | .accept fd _ memory _ => s.opened fd = none ∧ ∀ a ∈ memory, s.heap a = none
  | .recv (.bytes chunk) => ∀ e ∈ s.events.head?, ∀ a ∈ s.connections e.fd,
      ∀ connection ∈ s.heap a, connection.remaining ≠ 0 →
        1 ≤ chunk.length ∧ chunk.length ≤ connection.remaining
  | .leave | .acceptEnds | .event | .recv _ | .check => True

/-- The lines of connection `k`, in the order of the calls of `pool_submit`. -/
def linesOf (s : Server) (k : ℕ) : List Text :=
  (s.submitted.filter fun line => line.1 = k).map Prod.snd

end Server

end RaftKv
