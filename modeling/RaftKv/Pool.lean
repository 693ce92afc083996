import Mathlib.Logic.Function.Basic
import RaftKv.Common

/-! The worker pool of `src/network.cpp`.  The threads that submit lines, the workers and the thread
that destroys the pool take turns in the sections under `pool->mutex`.  The jobs are in memory: a
call of `calloc` returns any address without a job, and one that was freed can come again. -/

namespace RaftKv

open Function Stdio

/-- A job, with the pointer to the next one in the queue. -/
structure ThreadJob where
  line : Text
  node : ℕ
  next : Option ℕ
  deriving DecidableEq

/-- A call of `pool_submit`, or of `raft_handle_line` for its job: which one it is, and its
arguments. -/
structure PoolCall where
  number : ℕ
  node : ℕ
  line : Text
  deriving DecidableEq

/-- The call of `raft_handle_line` that a call of `pool_submit` is for. -/
def PoolCall.passed (c : PoolCall) : PoolCall := { c with line := copyText raftMaxLine c.line }

/-- Where a thread is in `pool_worker`: before its section, before and after the call of
`raft_handle_line` for the job it has taken, or behind the loop.  The code does not have the call
that the job is of. -/
inductive Worker
  | waiting
  | holding (job : ℕ) (call : PoolCall)
  | handling (job : ℕ) (call : PoolCall)
  | exited
  deriving DecidableEq

/-- Where the thread is that calls `pool_destroy`: before its section, before it has joined the
workers, or in its last loop. -/
inductive Destroyer
  | before
  | joining
  | freeing (job : Option ℕ)
  deriving DecidableEq

/-- The pool with its threads and the jobs in memory.  `making`: the calls of `pool_submit` that
have not entered their section, with their jobs.  The code does not have the last fields: how many
calls have started, which call a job in the queue is of, and the calls in the order of their
sections, in that in which workers took their jobs, and in that in which they were passed on. -/
structure ThreadPool (n : ℕ) where
  head : Option ℕ
  tail : Option ℕ
  stop : Bool
  threads : Fin n → Worker
  destroyer : Destroyer
  heap : ℕ → Option ThreadJob
  making : List (ℕ × PoolCall)
  calls : ℕ
  origin : ℕ → PoolCall
  submitted : List PoolCall
  dequeued : List PoolCall
  handled : List PoolCall

/-- `submit`: a call of `pool_submit` gets its job at address `a`.  `link`: it runs its section.
`work`: worker `w` goes on to the end of its section, of its call or of `free`.  `stop`, `join` and
`release`: `pool_destroy` runs its section, joins the workers, and frees a job that is left. -/
inductive PoolAction (n : ℕ)
  | submit (a node : ℕ) (line : Text)
  | link (a : ℕ) (c : PoolCall)
  | work (w : Fin n)
  | stop
  | join
  | release

def poolInit (n : ℕ) : ThreadPool n where
  head := none
  tail := none
  stop := false
  threads _ := .waiting
  destroyer := .before
  heap _ := none
  making := []
  calls := 0
  origin _ := ⟨0, 0, []⟩
  submitted := []
  dequeued := []
  handled := []

namespace ThreadPool

variable {n : ℕ} {s s' : ThreadPool n}

/-- `pool_destroy` has not come to its last loop. -/
def live (s : ThreadPool n) : Bool :=
  match s.destroyer with
  | .before | .joining => true
  | .freeing _ => false

/-- The pointer to the next job, in the job at an address. -/
def link (s : ThreadPool n) (a : ℕ) : Option (Option ℕ) := (s.heap a).map (·.next)

/-- `pool_submit` up to its section. -/
def submit (s : ThreadPool n) (a node : ℕ) (line : Text) : Option (ThreadPool n) :=
  if s.heap a = none then
    some { s with
      heap := update s.heap a (some ⟨copyText raftMaxLine line, node, none⟩)
      making := (a, ⟨s.calls, node, line⟩) :: s.making
      calls := s.calls + 1 }
  else none

/-- The section of `pool_submit`; `none` when it writes to a job that is not there, or the mutex is
destroyed. -/
def poolSubmit (s : ThreadPool n) (a : ℕ) (c : PoolCall) : Option (ThreadPool n) :=
  if (a, c) ∈ s.making ∧ s.destroyer ≠ .freeing none then
    let s' := { s with
      making := s.making.erase (a, c)
      origin := update s.origin a c
      submitted := s.submitted ++ [c] }
    match s.tail with
    | none => some { s' with head := some a, tail := some a }
    | some t => (s.heap t).map fun job =>
      { s' with heap := update s.heap t (some { job with next := some a }), tail := some a }
  else none

/-- The section of `pool_worker`; `none` when it reads a job that is not there. -/
def poolWorker (s : ThreadPool n) (w : Fin n) : Option (ThreadPool n) :=
  match s.head with
  | none => some (if s.stop then { s with threads := update s.threads w .exited } else s)
  | some a => (s.heap a).map fun job =>
    { s with
      head := job.next
      tail := if job.next = none then none else s.tail
      threads := update s.threads w (.holding a (s.origin a))
      dequeued := s.dequeued ++ [s.origin a] }

/-- What worker `w` does next; `none` when it has exited, or reads or frees a job that is not
there. -/
def work (s : ThreadPool n) (w : Fin n) : Option (ThreadPool n) :=
  match s.threads w with
  | .waiting => s.poolWorker w
  | .holding a c => (s.heap a).map fun job =>
    { s with
      threads := update s.threads w (.handling a c)
      handled := s.handled ++ [⟨c.number, job.node, job.line⟩] }
  | .handling a _ => (s.heap a).map fun _ =>
    { s with heap := update s.heap a none, threads := update s.threads w .waiting }
  | .exited => none

def step (s : ThreadPool n) : PoolAction n → Option (ThreadPool n)
  | .submit a node line => s.submit a node line
  | .link a c => s.poolSubmit a c
  | .work w => s.work w
  | .stop =>
    if s.destroyer = .before then some { s with stop := true, destroyer := .joining } else none
  | .join =>
    if s.destroyer = .joining ∧ ∀ w, s.threads w = .exited then
      some { s with destroyer := .freeing s.head }
    else none
  | .release =>
    match s.destroyer with
    | .freeing (some a) => (s.heap a).map fun job =>
      { s with heap := update s.heap a none, destroyer := .freeing job.next }
    | _ => none

/-! ### What one step is -/

/-- The steps one by one. -/
inductive Turn (s : ThreadPool n) : ThreadPool n → Prop
  | submit (a node : ℕ) (line : Text) (free : s.heap a = none) : Turn s { s with
      heap := update s.heap a (some ⟨copyText raftMaxLine line, node, none⟩)
      making := (a, ⟨s.calls, node, line⟩) :: s.making
      calls := s.calls + 1 }
  | first (a : ℕ) (c : PoolCall) (mine : (a, c) ∈ s.making) (unlocked : s.destroyer ≠ .freeing none)
      (empty : s.tail = none) : Turn s { s with
      making := s.making.erase (a, c)
      origin := update s.origin a c
      submitted := s.submitted ++ [c]
      head := some a
      tail := some a }
  | next (a : ℕ) (c : PoolCall) (t : ℕ) (job : ThreadJob) (mine : (a, c) ∈ s.making)
      (last : s.tail = some t) (there : s.heap t = some job) : Turn s { s with
      making := s.making.erase (a, c)
      origin := update s.origin a c
      submitted := s.submitted ++ [c]
      heap := update s.heap t (some { job with next := some a })
      tail := some a }
  | wait : Turn s s
  | exit (w : Fin n) (awake : s.threads w = .waiting) (empty : s.head = none)
      (stop : s.stop = true) : Turn s { s with threads := update s.threads w .exited }
  | take (w : Fin n) (a : ℕ) (job : ThreadJob) (awake : s.threads w = .waiting)
      (first : s.head = some a) (there : s.heap a = some job) : Turn s { s with
      head := job.next
      tail := if job.next = none then none else s.tail
      threads := update s.threads w (.holding a (s.origin a))
      dequeued := s.dequeued ++ [s.origin a] }
  | pass (w : Fin n) (a : ℕ) (c : PoolCall) (job : ThreadJob) (has : s.threads w = .holding a c)
      (there : s.heap a = some job) : Turn s { s with
      threads := update s.threads w (.handling a c)
      handled := s.handled ++ [⟨c.number, job.node, job.line⟩] }
  | free (w : Fin n) (a : ℕ) (c : PoolCall) (has : s.threads w = .handling a c) : Turn s { s with
      heap := update s.heap a none
      threads := update s.threads w .waiting }
  | stop (first : s.destroyer = .before) : Turn s { s with stop := true, destroyer := .joining }
  | join (all : ∀ w, s.threads w = .exited) : Turn s { s with destroyer := .freeing s.head }
  | release (a : ℕ) (job : ThreadJob) (left : s.destroyer = .freeing (some a)) :
      Turn s { s with heap := update s.heap a none, destroyer := .freeing job.next }

theorem turn_of_poolSubmit {a : ℕ} {c : PoolCall} (h : s.poolSubmit a c = some s') :
    Turn s s' := by
  rw [poolSubmit] at h
  split at h
  · rename_i hguard
    dsimp only at h
    split at h
    · rename_i htail
      obtain rfl := Option.some.inj h
      exact .first a c hguard.1 hguard.2 htail
    · rename_i t htail
      obtain ⟨job, hjob, rfl⟩ := Option.map_eq_some_iff.mp h
      exact .next a c t job hguard.1 htail hjob
  · cases h

theorem turn_of_work {w : Fin n} (h : s.work w = some s') : Turn s s' := by
  rw [work] at h
  split at h
  · rename_i hw
    rw [poolWorker] at h
    split at h
    · rename_i hhead
      obtain rfl := Option.some.inj h
      split
      · exact .exit w hw hhead ‹_›
      · exact .wait
    · rename_i a hhead
      obtain ⟨job, hjob, rfl⟩ := Option.map_eq_some_iff.mp h
      exact .take w a job hw hhead hjob
  · rename_i a c hw
    obtain ⟨job, hjob, rfl⟩ := Option.map_eq_some_iff.mp h
    exact .pass w a c job hw hjob
  · rename_i a c hw
    obtain ⟨job, -, rfl⟩ := Option.map_eq_some_iff.mp h
    exact .free w a c hw
  · cases h

theorem turn_of_step {act : PoolAction n} (h : s.step act = some s') : Turn s s' := by
  cases act with
  | submit a node line =>
    rw [step, submit] at h
    split at h
    · obtain rfl := Option.some.inj h
      exact .submit a node line ‹_›
    · cases h
  | link a c => exact turn_of_poolSubmit h
  | work w => exact turn_of_work h
  | stop =>
    rw [step] at h
    split at h
    · obtain rfl := Option.some.inj h
      exact .stop ‹_›
    · cases h
  | join =>
    rw [step] at h
    split at h
    · rename_i hguard
      obtain rfl := Option.some.inj h
      exact .join hguard.2
    · cases h
  | release =>
    rw [step] at h
    split at h
    · rename_i a hd
      obtain ⟨job, -, rfl⟩ := Option.map_eq_some_iff.mp h
      exact .release a job hd
    · cases h

end ThreadPool

end RaftKv
