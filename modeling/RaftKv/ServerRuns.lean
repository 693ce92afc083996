import RaftKv.Descriptors

/-! Runs of the network thread from `create_server` to `raft_node_destroy`. -/

namespace RaftKv

open Function OwnedCells Runs Stdio

instance decidableServerAdmitted (s : Server) (act : ServerAction) : Decidable (s.Admitted act) :=
  match act with
  | .openOther _ | .closeOther _ => inferInstanceAs (Decidable (_ = _))
  | .wait events => inferInstanceAs (Decidable (_ ∧ _ ∧ ∀ e ∈ events, _))
  | .accept _ _ memory _ => inferInstanceAs (Decidable (_ ∧ ∀ a ∈ memory, _))
  | .recv (.bytes _) => inferInstanceAs (Decidable (∀ e ∈ s.events.head?,
      ∀ a ∈ s.connections e.fd, ∀ connection ∈ s.heap a, connection.remaining ≠ 0 → _ ∧ _))
  | .leave | .acceptEnds | .event | .recv .wouldBlock | .recv .ended | .check => .isTrue trivial

/-- The descriptors that the calls of `create_server` return are not in use. -/
def ServerCalls.Fresh (calls : ServerCalls) (opened : ℕ → Option File) : Prop :=
  ∀ fd ∈ calls.socket, opened fd = none ∧ ∀ epollFd ∈ calls.epoll,
    opened epollFd = none ∧ epollFd ≠ fd

/-- The files of a process before `create_server`. -/
def Others (opened : ℕ → Option File) : Prop := ∀ fd f, opened fd = some f → f = .other

namespace Server

variable {s s' : Server} {opened : ℕ → Option File} {calls : ServerCalls} {fd : ℕ}

/-! ### `create_server` -/

/-- What `create_server` leaves when it fails: the descriptors as they were, and in `epoll_fd`, if
it is the last call that fails, one that is closed. -/
structure Failed (opened : ℕ → Option File) (s : Server) : Prop where
  files : s.opened = opened
  server : s.serverFd = none
  epoll : ∀ fd ∈ s.epollFd, opened fd = none
  connections : ∀ fd, s.connections fd = none
  heap : ∀ a, s.heap a = none

/-- What every step keeps. -/
structure Sound (s : Server) : Prop where
  held : Held s
  pending : Pending s
  framed : Framed s

theorem sound_created (others : Others opened) {epollFd : ℕ} (new : opened fd = none)
    (hepoll : opened epollFd = none) (hne : epollFd ≠ fd) : Sound { serverInit opened with
      serverFd := some fd
      epollFd := some epollFd
      opened := update (update opened fd (some .server)) epollFd (some .epoll)
      watched := insert fd ∅ } := by
  have file : ∀ {fd' f}, update (update opened fd (some File.server)) epollFd (some .epoll) fd' =
      some f → fd' = epollFd ∧ f = .epoll ∨ fd' = fd ∧ f = .server ∨ f = .other := by
    intro fd' f hf
    rw [update_apply, update_apply] at hf
    split at hf
    · exact .inl ⟨‹_›, (Option.some.inj hf).symm⟩
    split at hf
    · exact .inr (.inl ⟨‹_›, (Option.some.inj hf).symm⟩)
    · exact .inr (.inr (others fd' f hf))
  have noConnection : ∀ {fd' k}, update (update opened fd (some File.server)) epollFd (some .epoll)
      fd' ≠ some (.connection k) := by
    intro fd' k hk
    rcases file hk with ⟨-, hf⟩ | ⟨-, hf⟩ | hf <;> cases hf
  refine ⟨⟨owned_empty, fun fd' => ?_, fun fd' hfd' => absurd rfl hfd', fun fd' => ?_,
    fun fd' => ?_, fun fd' => ?_, fun hk => absurd hk noConnection,
    fun hk => absurd hk noConnection⟩, ?_, ?_⟩
  · exact iff_of_false (fun hfd' => hfd' rfl) fun ⟨k, hk⟩ => noConnection hk
  · simp [serverInit, eq_comm]
  · constructor
    · intro hfd'
      obtain rfl := Option.some.inj hfd'
      simp [Ne.symm hne]
    · intro hf
      rcases file hf with ⟨-, hf⟩ | ⟨rfl, -⟩ | hf
      · cases hf
      · rfl
      · cases hf
  · constructor
    · intro hfd'
      obtain rfl := Option.some.inj hfd'
      simp
    · intro hf
      rcases file hf with ⟨rfl, -⟩ | ⟨-, hf⟩ | hf
      · rfl
      · cases hf
      · cases hf
  · exact ⟨List.nodup_nil, List.forall_mem_nil _, List.forall_mem_nil _, fun e he => (by cases he),
      fun hp => (by cases hp), fun hp => (by cases hp)⟩
  · exact ⟨fun hfd' => (by cases hfd'), fun hk => absurd hk noConnection,
      fun _ => (framed_of_not_mem List.not_mem_nil).symm, fun _ _ => rfl⟩

theorem createServer_cases (others : Others opened) (fresh : calls.Fresh opened) :
    ((serverInit opened).createServer calls).1 ≠ 0 ∧
        Failed opened ((serverInit opened).createServer calls).2 ∨
      ((serverInit opened).createServer calls).1 = 0 ∧
        Sound ((serverInit opened).createServer calls).2 := by
  rw [createServer]
  split
  · exact .inl ⟨by simp, rfl, rfl, fun fd hfd => (by cases hfd), fun _ => rfl, fun _ => rfl⟩
  · rename_i fd hfd
    obtain ⟨hnew, hepoll⟩ := fresh fd hfd
    have back : update (update opened fd (some File.server)) fd none = opened := by
      rw [update_idem, ← hnew, update_eq_self]
    have refused : Failed opened (((serverInit opened).openFd fd .server).closeFd fd) :=
      ⟨back, rfl, fun fd hfd => (by cases hfd), fun _ => rfl, fun _ => rfl⟩
    dsimp only
    split
    · exact .inl ⟨by simp, refused⟩
    split
    · exact .inl ⟨by simp, refused⟩
    split
    · exact .inl ⟨by simp, refused⟩
    split
    · exact .inl ⟨by simp, refused⟩
    split
    · exact .inl ⟨by simp, { refused with epoll := fun fd hfd => (by cases hfd) }⟩
    · rename_i epollFd hepollFd
      obtain ⟨hepollNew, hne⟩ := hepoll epollFd hepollFd
      split
      · refine .inl ⟨by simp, ?_, rfl, fun fd hfd => ?_, fun _ => rfl, fun _ => rfl⟩
        · funext fd'
          by_cases hepollFd' : fd' = epollFd
          · simp [closeFd, hepollFd', hepollNew]
          · by_cases hfd' : fd' = fd
            · simp [closeFd, hfd', hnew, hne.symm]
            · simp [closeFd, openFd, serverInit, hfd', hepollFd']
        · obtain rfl := Option.some.inj hfd
          exact hepollNew
      · exact .inr ⟨rfl, sound_created others hnew hepollNew hne⟩

/-! ### Runs -/

theorem Sound.turn {foreign : Bool} (h : Sound s) (turn : Turn s foreign s') : Sound s' :=
  ⟨h.held.turn turn, h.pending.turn h.held turn, h.framed.turn h.held turn⟩

theorem Sound.reach (h : Sound s) (run : Reach step Admitted s s') : Sound s' :=
  run.invariant h fun _ _ _ _ sound adm hstep =>
    sound.turn (turn_of_step sound.held sound.pending adm hstep)

/-- The run that `create_server` begins. -/
theorem sound_of_run (others : Others opened) (fresh : calls.Fresh opened)
    (ok : ((serverInit opened).createServer calls).1 = 0)
    (run : Reach step Admitted ((serverInit opened).createServer calls).2 s) : Sound s := by
  rcases createServer_cases others fresh with ⟨hne, -⟩ | ⟨-, sound⟩
  · exact absurd ok hne
  · exact sound.reach run

/-- The thread comes to no fault: the objects that it reads and frees are there, and so are the
connections whose sockets it reads from. -/
theorem Sound.no_fault (h : Sound s) :
    (s.phase = .reading → ∀ result, s.Admitted (.recv result) → (s.step (.recv result)).isSome) ∧
    (s.phase = .checking → (s.step .check).isSome) ∧
    ∀ e rest, s.phase = .waiting → s.events = e :: rest → s.serverFd = some e.fd →
      ∀ fd nonblock memory added, s.Admitted (.accept fd nonblock memory added) →
        (s.step (.accept fd nonblock memory added)).isSome := by
  refine ⟨fun phase result adm => ?_, fun phase => ?_, ?_⟩
  · obtain ⟨e, rest, first, -, listed⟩ := h.pending.reading phase
    obtain ⟨t, ht, -⟩ := h.held.readTurn phase first listed adm
    simp [step, phase, first, ht]
  · obtain ⟨e, rest, first, -⟩ := h.pending.checking phase
    obtain ⟨t, ht, -⟩ := h.held.check phase first
    rw [ht]
    rfl
  · intro e rest phase first server fd nonblock memory added adm
    obtain ⟨t, ht, -⟩ := h.held.acceptConnection phase nonblock added adm.1 adm.2
    simp [step, phase, first, server, ht]

/-- The thread opens and closes no file of another thread. -/
theorem Turn.others (h : Held s) (turn : Turn s false s') (fd : ℕ) :
    s'.opened fd = some .other ↔ s.opened fd = some .other := by
  have closes : ∀ {fd' a}, s.connections fd' = some a →
      (update s.opened fd' none fd = some .other ↔ s.opened fd = some .other) := by
    intro fd' a held
    obtain ⟨k, hk⟩ := (h.files fd').mp (held ▸ Option.some_ne_none a)
    by_cases hfd : fd = fd'
    · simp [hfd, hk]
    · rw [update_of_ne hfd]
  cases turn with
  | accepted fd' a phase new small free =>
    by_cases hfd : fd = fd'
    · simp [Server.accepted, hfd, new]
    · simp [Server.accepted, hfd]
  | ends e rest a phase first held => exact closes held
  | close e rest a phase first held => exact closes held
  | wait | leave | refused | acceptEnds | event | bytes | block | keep => exact Iff.rfl

/-! ### `raft_node_destroy` -/

/-- What the loop of `raft_node_destroy` has done: the slots from `i` to `j` are empty. -/
structure Emptied (s : Server) (i j : ℕ) (s' : Server) : Prop where
  held : Held s'
  slots : ∀ fd, i ≤ fd → fd < j → s'.connections fd = none
  serverFd : s'.serverFd = s.serverFd
  epollFd : s'.epollFd = s.epollFd
  others : ∀ fd, s'.opened fd = some .other ↔ s.opened fd = some .other

theorem Held.closeConnections (h : Held s) (count i : ℕ) :
    ∃ s', s.closeConnections count i = some s' ∧ Emptied s i (i + count) s' ∧
      ∀ fd, s.connections fd = none → s'.connections fd = none := by
  induction count generalizing s i with
  | zero =>
    exact ⟨s, rfl, ⟨h, fun fd hge hlt => (by omega), rfl, rfl, fun _ => Iff.rfl⟩, fun _ hfd => hfd⟩
  | succ count ih =>
    -- The slot `i` is emptied first.
    obtain ⟨t, ht, held, hi, hempty, hserver, hepoll, hothers⟩ : ∃ t,
        (if s.connections i = none then some s else s.closeConnection i) = some t ∧ Held t ∧
        t.connections i = none ∧ (∀ fd, s.connections fd = none → t.connections fd = none) ∧
        t.serverFd = s.serverFd ∧ t.epollFd = s.epollFd ∧
        ∀ fd, t.opened fd = some .other ↔ s.opened fd = some .other := by
      cases hslot : s.connections i with
      | none => exact ⟨s, if_pos rfl, h, hslot, fun _ hfd => hfd, rfl, rfl, fun _ => Iff.rfl⟩
      | some a =>
        refine ⟨s.closed i a, ?_, h.closed hslot, update_self .., fun fd hfd => ?_, rfl, rfl,
          fun fd => ?_⟩
        · rw [if_neg (Option.some_ne_none a), h.closeConnection hslot]
        · simp only [Server.closed, update_apply]
          split
          · rfl
          · exact hfd
        · obtain ⟨k, hk⟩ := (h.files i).mp (hslot ▸ Option.some_ne_none a)
          by_cases hfd : fd = i
          · simp [Server.closed, hfd, hk]
          · simp [Server.closed, hfd]
    obtain ⟨s', hs', emptied, hkeep⟩ := ih held (i + 1)
    refine ⟨s', by rw [Server.closeConnections, ht, Option.bind_some, hs'], ⟨emptied.held,
      fun fd hge hlt => ?_, emptied.serverFd.trans hserver, emptied.epollFd.trans hepoll,
      fun fd => (emptied.others fd).trans (hothers fd)⟩, fun fd hfd => hkeep fd (hempty fd hfd)⟩
    rcases Nat.eq_or_lt_of_le hge with rfl | hlt'
    · exact hkeep _ hi
    · exact emptied.slots fd hlt' (by omega)

theorem closeConnections_empty (empty : ∀ fd, s.connections fd = none) (count i : ℕ) :
    s.closeConnections count i = some s := by
  induction count generalizing i with
  | zero => rfl
  | succ count ih => rw [closeConnections, if_pos (empty i), Option.bind_some, ih]

/-- What is left after `raft_node_destroy`: the files of the other threads, and no object. -/
structure Released (before : ℕ → Option File) (s : Server) : Prop where
  files : ∀ fd f, s.opened fd = some f ↔ f = .other ∧ before fd = some .other
  heap : ∀ a, s.heap a = none
  connections : ∀ fd, s.connections fd = none

theorem closeServerFd_opened (s : Server) (fd : ℕ) :
    s.closeServerFd.opened fd = if s.serverFd = some fd then none else s.opened fd := by
  rw [closeServerFd]
  split <;> simp_all [closeFd, update_apply, eq_comm]

theorem closeEpollFd_opened (s : Server) (fd : ℕ) :
    s.closeEpollFd.opened fd = if s.epollFd = some fd then none else s.opened fd := by
  rw [closeEpollFd]
  split <;> simp_all [closeFd, update_apply, eq_comm]

theorem closeServerFd_fields (s : Server) : s.closeServerFd.heap = s.heap ∧
    s.closeServerFd.connections = s.connections ∧ s.closeServerFd.epollFd = s.epollFd := by
  rw [closeServerFd]
  split <;> exact ⟨rfl, rfl, rfl⟩

theorem closeEpollFd_fields (s : Server) :
    s.closeEpollFd.heap = s.heap ∧ s.closeEpollFd.connections = s.connections := by
  rw [closeEpollFd]
  split <;> exact ⟨rfl, rfl⟩

theorem Held.raftNodeDestroy (h : Held s) :
    ∃ s', s.raftNodeDestroy = some s' ∧ Released s.opened s' := by
  obtain ⟨t, ht, emptied, -⟩ := h.closeConnections raftMaxConn 0
  have empty : ∀ fd, t.connections fd = none := by
    intro fd
    by_contra hfd
    have := emptied.held.bound fd hfd
    exact hfd (emptied.slots fd (Nat.zero_le _) (by omega))
  obtain ⟨hheap, hconnections, hepoll⟩ := closeServerFd_fields t
  obtain ⟨hheap', hconnections'⟩ := closeEpollFd_fields t.closeServerFd
  refine ⟨_, by rw [Server.raftNodeDestroy, ht]; rfl, fun fd f => ?_, fun a => ?_, fun fd => ?_⟩
  · rw [closeEpollFd_opened, hepoll, closeServerFd_opened, ← emptied.others]
    simp only [emptied.held.server, emptied.held.epoll]
    cases hfile : t.opened fd with
    | none => simp
    | some file =>
      cases file with
      | server => simp
      | epoll => simp
      | connection k => exact absurd (empty fd) ((emptied.held.files fd).mpr ⟨k, hfile⟩)
      | other => simp [eq_comm]
  · rw [hheap', hheap]
    exact emptied.held.cells.heap_none empty a
  · rw [hconnections', hconnections]
    exact empty fd

theorem Failed.raftNodeDestroy (h : Failed opened s) :
    ∃ s', s.raftNodeDestroy = some s' ∧ s'.opened = opened ∧ ∀ a, s'.heap a = none := by
  obtain ⟨hheap, -, hepoll⟩ := closeServerFd_fields s
  obtain ⟨hheap', -⟩ := closeEpollFd_fields s.closeServerFd
  refine ⟨_, by rw [Server.raftNodeDestroy, closeConnections_empty h.connections]; rfl, ?_,
    fun a => ?_⟩
  · funext fd
    rw [closeEpollFd_opened, hepoll, closeServerFd_opened, h.server, h.files]
    simp only [reduceCtorEq, if_false]
    split
    · -- The descriptor is closed already.
      exact (h.epoll fd ‹_›).symm
    · rfl
  · rw [hheap', hheap]
    exact h.heap a

end Server

open Server

/-! ### A run -/

/-- The standard streams are open. -/
def streams (fd : ℕ) : Option File := if fd < 3 then some .other else none

def serverCalls : ServerCalls := ⟨some 3, true, true, true, true, some 4, true⟩

/-- A connection comes, and sends one line and the start of another. -/
def serverReads : List ServerAction :=
  [.wait [⟨3, true, false, .server⟩], .accept 5 true (some 80) true, .acceptEnds, .openOther 6,
    .wait [⟨5, true, true, .connection 0⟩, ⟨3, true, false, .server⟩], .event,
    .recv (.bytes (bytes "LEAVE 2\nRV 1"))]

/-- The connection ends while another one waits, which gets its descriptor and its address. -/
def serverReuses : List ServerAction :=
  serverReads ++ [.recv .ended, .check, .accept 5 true (some 80) true]

theorem others_streams : Others streams := by
  intro fd f hf
  rw [streams] at hf
  split at hf
  · exact (Option.some.inj hf).symm
  · cases hf

theorem fresh_serverCalls : serverCalls.Fresh streams := by
  unfold ServerCalls.Fresh
  decide

section Runs

variable {opened : ℕ → Option File} {calls : ServerCalls} {s : Server}

/-- In every run, the connections have one descriptor, one slot and one object each, the epoll
instance watches their descriptors and the listening socket, the thread comes to no fault, and it
neither opens nor closes a file of another thread. -/
theorem connections_owned (others : Others opened) (fresh : calls.Fresh opened)
    (ok : ((serverInit opened).createServer calls).1 = 0)
    (run : Reach Server.step Server.Admitted ((serverInit opened).createServer calls).2 s) :
    (∀ fd, s.connections fd ≠ none ↔ ∃ k, s.opened fd = some (.connection k)) ∧
    (∀ fd fd' k, s.opened fd = some (.connection k) → s.opened fd' = some (.connection k) →
      fd = fd') ∧
    (∀ a, s.heap a ≠ none ↔ ∃! fd, s.connections fd = some a) ∧
    (∀ fd, fd ∈ s.watched ↔ s.serverFd = some fd ∨ s.connections fd ≠ none) ∧
    (s.phase = .reading → ∀ result, s.Admitted (.recv result) → (s.step (.recv result)).isSome) ∧
    (s.phase = .checking → (s.step .check).isSome) ∧
    (∀ e rest, s.phase = .waiting → s.events = e :: rest → s.serverFd = some e.fd →
      ∀ fd nonblock memory added, s.Admitted (.accept fd nonblock memory added) →
        (s.step (.accept fd nonblock memory added)).isSome) ∧
    ∀ act s', s.Admitted act → act.foreign = false → s.step act = some s' →
      ∀ fd, s'.opened fd = some .other ↔ s.opened fd = some .other := by
  have sound := sound_of_run others fresh ok run
  obtain ⟨reads, checks, accepts⟩ := sound.no_fault
  refine ⟨sound.held.files, fun _ _ _ => sound.held.once, fun a => sound.held.cells.heap_iff,
    sound.held.watched, reads, checks, accepts, fun act s' adm own hstep => ?_⟩
  have turn := turn_of_step sound.held sound.pending adm hstep
  rw [own] at turn
  exact turn.others sound.held

theorem connections_owned_reads : ∃ s : Server, s.phase = .reading ∧
    (∃! fd, s.connections fd = some 80) ∧ (s.step (.recv .ended)).isSome := by
  have hrun : (runList Server.step (fun s act => decide (s.Admitted act))
      ((serverInit streams).createServer serverCalls).2 serverReads).any
      (fun s => s.phase = .reading ∧ (s.heap 80).isSome) = true := by
    decide +kernel
  obtain ⟨s, run, hs⟩ := exists_reach (fun s a => of_decide_eq_true) hrun
  obtain ⟨hphase, hheap⟩ := of_decide_eq_true hs
  obtain ⟨-, -, cells, -, reads, -⟩ :=
    connections_owned others_streams fresh_serverCalls (by decide) run
  exact ⟨s, hphase, (cells 80).mp (Option.isSome_iff_ne_none.mp hheap),
    reads hphase .ended trivial⟩

/-- In every run, an event is handled while its descriptor refers to the file that the event was
reported for: a descriptor that was closed and opened again gets no earlier event. -/
theorem events_not_stale (others : Others opened) (fresh : calls.Fresh opened)
    (ok : ((serverInit opened).createServer calls).1 = 0)
    (run : Reach Server.step Server.Admitted ((serverInit opened).createServer calls).2 s) :
    (∀ e ∈ s.events.tail, s.opened e.fd = some e.file) ∧
    ∀ e ∈ s.events.head?, s.phase ≠ .checking ∨ s.connections e.fd ≠ none →
      s.opened e.fd = some e.file := by
  have pending := (sound_of_run others fresh ok run).pending
  refine ⟨pending.later, fun e he hopen => pending.first e he fun checking => ?_⟩
  exact hopen.resolve_left fun hne => hne checking

theorem events_not_stale_reuses : ∃ s : Server, s.opened 5 = some (.connection 1) ∧
    ∀ e ∈ s.events.head?, s.opened e.fd = some e.file := by
  have hrun : (runList Server.step (fun s act => decide (s.Admitted act))
      ((serverInit streams).createServer serverCalls).2 serverReuses).any
      (fun s => s.phase = .waiting ∧ s.opened 5 = some (.connection 1)) = true := by
    decide +kernel
  obtain ⟨s, run, hs⟩ := exists_reach (fun s a => of_decide_eq_true) hrun
  obtain ⟨hphase, hfile⟩ := of_decide_eq_true hs
  refine ⟨s, hfile, fun e he => ?_⟩
  refine (events_not_stale others_streams fresh_serverCalls (by decide) run).2 e he (.inl ?_)
  rw [hphase]
  exact fun heq => by cases heq

/-- In every run, the calls of `pool_submit` for a connection are those for the lines of the bytes
that it has got, in their order. -/
theorem submitted_framed (others : Others opened) (fresh : calls.Fresh opened)
    (ok : ((serverInit opened).createServer calls).1 = 0)
    (run : Reach Server.step Server.Admitted ((serverInit opened).createServer calls).2 s) (k : ℕ) :
    s.linesOf k = framed (s.received k) :=
  (sound_of_run others fresh ok run).framed.lines k

theorem submitted_framed_reuses : ∃ s : Server, s.received 0 = bytes "LEAVE 2\nRV 1" ∧
    s.linesOf 0 = framed (bytes "LEAVE 2\nRV 1") := by
  have hrun : (runList Server.step (fun s act => decide (s.Admitted act))
      ((serverInit streams).createServer serverCalls).2 serverReuses).any
      (fun s => s.received 0 = bytes "LEAVE 2\nRV 1") = true := by
    decide +kernel
  obtain ⟨s, run, hs⟩ := exists_reach (fun s a => of_decide_eq_true) hrun
  have hreceived := of_decide_eq_true hs
  exact ⟨s, hreceived,
    hreceived ▸ submitted_framed others_streams fresh_serverCalls (by decide) run 0⟩

/-- After `raft_node_destroy` only the files of the other threads are open, and no `Connection` is
left: when `create_server` has failed, and when it has succeeded and the thread has run.  A node on
which `create_server` has failed has started no thread, and no other thread opens a file before the
node is destroyed. -/
theorem server_released (others : Others opened) (fresh : calls.Fresh opened) :
    (((serverInit opened).createServer calls).1 ≠ 0 →
      ∃ s', ((serverInit opened).createServer calls).2.raftNodeDestroy = some s' ∧
        s'.opened = opened ∧ ∀ a, s'.heap a = none) ∧
    (((serverInit opened).createServer calls).1 = 0 →
      ∀ s, Reach Server.step Server.Admitted ((serverInit opened).createServer calls).2 s →
        ∃ s', s.raftNodeDestroy = some s' ∧
          (∀ fd f, s'.opened fd = some f ↔ f = .other ∧ s.opened fd = some .other) ∧
          ∀ a, s'.heap a = none) := by
  constructor
  · intro hfail
    rcases createServer_cases others fresh with ⟨-, failed⟩ | ⟨ok, -⟩
    · exact failed.raftNodeDestroy
    · exact absurd ok hfail
  · intro ok s run
    obtain ⟨s', hs', released⟩ := (sound_of_run others fresh ok run).held.raftNodeDestroy
    exact ⟨s', hs', released.files, released.heap⟩

theorem server_released_reuses : ∃ s s' : Server, s.connections 5 = some 80 ∧
    s.raftNodeDestroy = some s' ∧ s'.opened 5 = none ∧ s'.heap 80 = none := by
  have hrun : (runList Server.step (fun s act => decide (s.Admitted act))
      ((serverInit streams).createServer serverCalls).2 serverReuses).any
      (fun s => s.connections 5 = some 80 ∧ s.opened 5 = some (.connection 1)) = true := by
    decide +kernel
  obtain ⟨s, run, hs⟩ := exists_reach (fun s a => of_decide_eq_true) hrun
  obtain ⟨hslot, hfile⟩ := of_decide_eq_true hs
  obtain ⟨s', hs', files, heap⟩ :=
    (server_released others_streams fresh_serverCalls).2 (by decide) s run
  refine ⟨s, s', hslot, hs', ?_, heap 80⟩
  rw [Option.eq_none_iff_forall_ne_some]
  intro f hf
  cases hfile.symm.trans ((files 5 f).mp hf).2

end Runs

end RaftKv
