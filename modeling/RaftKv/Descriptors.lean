import RaftKv.Server

/-! The descriptors, the table of connections and the `Connection` objects in every run of the
network thread: each connection has one of each until the thread closes it, and no event reaches a
descriptor that has come to refer to another file. -/

namespace RaftKv

open Function OwnedCells Runs Segments Stdio

namespace Server

variable {s s' : Server} {fd fd' a k : ℕ} {e : EpollEvent} {rest : List EpollEvent}
  {c : Connection}

/-- The connection at `fd`, which has its object at `a`, is closed. -/
def closed (s : Server) (fd a : ℕ) : Server :=
  { s with
    heap := update s.heap a none
    connections := update s.connections fd none
    opened := update s.opened fd none
    watched := s.watched.erase fd }

/-- A connection is accepted at `fd`, with its object at `a`. -/
def accepted (s : Server) (fd a : ℕ) : Server :=
  { s with
    heap := update s.heap a (some .empty)
    connections := update s.connections fd (some a)
    opened := update s.opened fd (some (.connection s.accepts))
    watched := insert fd s.watched
    accepts := s.accepts + 1 }

/-- The table, the objects, the descriptors and the epoll instance agree. -/
structure Held (s : Server) : Prop where
  cells : Owned s.connections s.heap
  files : ∀ fd, s.connections fd ≠ none ↔ ∃ k, s.opened fd = some (.connection k)
  bound : ∀ fd, s.connections fd ≠ none → fd < raftMaxConn
  watched : ∀ fd, fd ∈ s.watched ↔ s.serverFd = some fd ∨ s.connections fd ≠ none
  server : ∀ fd, s.serverFd = some fd ↔ s.opened fd = some .server
  epoll : ∀ fd, s.epollFd = some fd ↔ s.opened fd = some .epoll
  number : ∀ {fd k}, s.opened fd = some (.connection k) → k < s.accepts
  once : ∀ {fd fd' k}, s.opened fd = some (.connection k) → s.opened fd' = some (.connection k) →
    fd = fd'

/-- The events still to handle: no two are of one descriptor, and each descriptor still refers to
what it was reported for, unless the thread has closed the connection it is at. -/
structure Pending (s : Server) : Prop where
  distinct : (s.events.map (·.fd)).Nodup
  kind : ∀ e ∈ s.events, e.file = .server ∨ ∃ k, e.file = .connection k
  later : ∀ e ∈ s.events.tail, s.opened e.fd = some e.file
  first : ∀ e ∈ s.events.head?, (s.phase = .checking → s.connections e.fd ≠ none) →
    s.opened e.fd = some e.file
  reading : s.phase = .reading →
    ∃ e rest, s.events = e :: rest ∧ s.serverFd ≠ some e.fd ∧ s.connections e.fd ≠ none
  checking : s.phase = .checking → ∃ e rest, s.events = e :: rest ∧ s.serverFd ≠ some e.fd

/-! ### Changes of the table -/

theorem Held.unlisted (h : Held s) (new : ∀ k, s.opened fd ≠ some (.connection k)) :
    s.connections fd = none := by
  by_contra hne
  obtain ⟨k, hk⟩ := (h.files fd).mp hne
  exact new k hk

theorem Held.not_server (h : Held s) (hfd : s.connections fd ≠ none) : s.serverFd ≠ some fd := by
  intro hserver
  obtain ⟨k, hk⟩ := (h.files fd).mp hfd
  cases hk.symm.trans ((h.server fd).mp hserver)

/-- Another thread opens or closes a descriptor of its own. -/
theorem Held.other {file : Option File} {watched : Finset ℕ} (h : Held s)
    (before : s.opened fd = none ∨ s.opened fd = some .other)
    (after : file = none ∨ file = some .other)
    (same : ∀ fd', fd' ∈ watched ↔ fd' ∈ s.watched) :
    Held { s with opened := update s.opened fd file, watched := watched } := by
  have hbefore : ∀ f, f ≠ .other → s.opened fd ≠ some f := by
    intro f hf heq
    rcases before with hb | hb
    · cases heq.symm.trans hb
    · exact hf (Option.some.inj (heq.symm.trans hb))
  have hafter : ∀ f, f ≠ .other → file ≠ some f := by
    intro f hf heq
    rcases after with ha | ha
    · cases heq.symm.trans ha
    · exact hf (Option.some.inj (heq.symm.trans ha))
  have iff : ∀ f, f ≠ .other → ∀ fd', update s.opened fd file fd' = some f ↔
      s.opened fd' = some f := by
    intro f hf fd'
    by_cases hfd : fd' = fd
    · subst hfd
      rw [update_self]
      exact iff_of_false (hafter f hf) (hbefore f hf)
    · rw [update_of_ne hfd]
  have conn : ∀ k, File.connection k ≠ .other := fun k heq => by cases heq
  refine ⟨h.cells, fun fd' => ?_, h.bound, fun fd' => ?_, fun fd' => ?_, fun fd' => ?_, ?_, ?_⟩
  · simp only [iff _ (conn _)]
    exact h.files fd'
  · rw [same]
    exact h.watched fd'
  · simp only [iff File.server (fun heq => by cases heq)]
    exact h.server fd'
  · simp only [iff File.epoll (fun heq => by cases heq)]
    exact h.epoll fd'
  · intro fd' k hk
    exact h.number ((iff _ (conn k) fd').mp hk)
  · intro fd₁ fd₂ k h₁ h₂
    exact h.once ((iff _ (conn k) fd₁).mp h₁) ((iff _ (conn k) fd₂).mp h₂)

/-- What `accept` has returned is closed again. -/
theorem Held.refused (h : Held s) : Held { s with accepts := s.accepts + 1 } :=
  { h with number := fun hk => (h.number hk).trans (Nat.lt_succ_self _) }

theorem Held.accepted (h : Held s) (new : s.opened fd = none) (small : fd < raftMaxConn)
    (free : s.heap a = none) : Held (s.accepted fd a) := by
  have empty : s.connections fd = none := h.unlisted fun k hk => by cases hk.symm.trans new
  have split : ∀ {fd' f}, update s.opened fd (some (.connection s.accepts)) fd' = some f →
      fd' = fd ∧ f = .connection s.accepts ∨ fd' ≠ fd ∧ s.opened fd' = some f := by
    intro fd' f hf
    by_cases hfd : fd' = fd
    · subst hfd
      rw [update_self] at hf
      exact .inl ⟨rfl, (Option.some.inj hf).symm⟩
    · rw [update_of_ne hfd] at hf
      exact .inr ⟨hfd, hf⟩
  have hne : ∀ {fd' f}, s.opened fd' = some f → fd' ≠ fd := by
    rintro fd' f hf rfl
    cases hf.symm.trans new
  refine ⟨h.cells.alloc empty free _, fun fd' => ?_, fun fd' hfd' => ?_, fun fd' => ?_,
    fun fd' => ?_, fun fd' => ?_, fun {fd'} k hk => ?_, fun {fd₁ fd₂} k h₁ h₂ => ?_⟩
  · by_cases hfd : fd' = fd
    · subst hfd
      simp [Server.accepted]
    · simpa [Server.accepted, hfd] using h.files fd'
  · by_cases hfd : fd' = fd
    · exact hfd ▸ small
    · exact h.bound fd' (by simpa [Server.accepted, hfd] using hfd')
  · by_cases hfd : fd' = fd
    · subst hfd
      simp [Server.accepted]
    · simpa [Server.accepted, hfd] using h.watched fd'
  · by_cases hfd : fd' = fd
    · subst hfd
      refine iff_of_false (fun heq => hne ((h.server fd').mp heq) rfl) ?_
      simp [Server.accepted]
    · simpa [Server.accepted, hfd] using h.server fd'
  · by_cases hfd : fd' = fd
    · subst hfd
      refine iff_of_false (fun heq => hne ((h.epoll fd').mp heq) rfl) ?_
      simp [Server.accepted]
    · simpa [Server.accepted, hfd] using h.epoll fd'
  · rcases split hk with ⟨-, heq⟩ | ⟨-, hold⟩
    · obtain rfl := File.connection.inj heq
      exact Nat.lt_succ_self _
    · exact (h.number hold).trans (Nat.lt_succ_self _)
  · -- An earlier connection has a smaller number.
    rcases split h₁ with ⟨rfl, heq₁⟩ | ⟨-, hold₁⟩
    · rcases split h₂ with ⟨rfl, -⟩ | ⟨-, hold₂⟩
      · rfl
      · obtain rfl := File.connection.inj heq₁
        exact absurd (h.number hold₂) (lt_irrefl _)
    · rcases split h₂ with ⟨-, heq₂⟩ | ⟨-, hold₂⟩
      · obtain rfl := File.connection.inj heq₂
        exact absurd (h.number hold₁) (lt_irrefl _)
      · exact h.once hold₁ hold₂

theorem Held.closed (h : Held s) (held : s.connections fd = some a) : Held (s.closed fd a) := by
  have listed : s.connections fd ≠ none := held ▸ Option.some_ne_none a
  obtain ⟨k, hk⟩ := (h.files fd).mp listed
  have keep : ∀ {fd' f}, update s.opened fd none fd' = some f →
      fd' ≠ fd ∧ s.opened fd' = some f := by
    intro fd' f hf
    by_cases hfd : fd' = fd
    · subst hfd
      rw [update_self] at hf
      cases hf
    · rw [update_of_ne hfd] at hf
      exact ⟨hfd, hf⟩
  refine ⟨h.cells.release held, fun fd' => ?_, fun fd' hfd' => ?_, fun fd' => ?_,
    fun fd' => ?_, fun fd' => ?_, fun {fd'} k hk => h.number (keep hk).2,
    fun {fd₁ fd₂} k h₁ h₂ => h.once (keep h₁).2 (keep h₂).2⟩
  · by_cases hfd : fd' = fd
    · subst hfd
      simp [Server.closed]
    · simpa [Server.closed, hfd] using h.files fd'
  · by_cases hfd : fd' = fd
    · subst hfd
      simp [Server.closed] at hfd'
    · exact h.bound fd' (by simpa [Server.closed, hfd] using hfd')
  · by_cases hfd : fd' = fd
    · subst hfd
      simpa [Server.closed] using h.not_server listed
    · simpa [Server.closed, hfd] using h.watched fd'
  · by_cases hfd : fd' = fd
    · subst hfd
      simpa [Server.closed] using h.not_server listed
    · simpa [Server.closed, hfd] using h.server fd'
  · by_cases hfd : fd' = fd
    · subst hfd
      have : s.epollFd ≠ some fd' := fun heq => by cases hk.symm.trans ((h.epoll fd').mp heq)
      simpa [Server.closed] using this
    · simpa [Server.closed, hfd] using h.epoll fd'

theorem Held.wrote (h : Held s) (held : s.connections fd = some a) (c : Connection) :
    Held { s with heap := update s.heap a (some c) } :=
  { h with cells := h.cells.write held c }

/-- `close_connection` finds the object of a connection. -/
theorem Held.closeConnection (h : Held s) (held : s.connections fd = some a) :
    s.closeConnection fd = some (s.closed fd a) := by
  have small := h.bound fd (held ▸ Option.some_ne_none a)
  obtain ⟨c, hc⟩ := Option.ne_none_iff_exists'.mp (h.cells.cell held)
  rw [Server.closeConnection, if_neg (by omega)]
  simp [epollDel, closeFd, held, hc, Server.closed]

/-! ### What one step is -/

/-- The steps one by one, of other threads and of this one. -/
inductive Turn (s : Server) : Bool → Server → Prop
  | openOther (fd : ℕ) (new : s.opened fd = none) : Turn s true (s.openFd fd .other)
  | closeOther (fd : ℕ) (own : s.opened fd = some .other) : Turn s true (s.closeFd fd)
  | wait (events : List EpollEvent) (phase : s.phase = .waiting) (none : s.events = [])
      (distinct : (events.map (·.fd)).Nodup)
      (reported : ∀ e ∈ events, e.fd ∈ s.watched ∧ s.opened e.fd = some e.file) :
      Turn s false { s with events := events }
  | leave (phase : s.phase = .waiting) (none : s.events = []) :
      Turn s false { s with phase := .exited }
  | refused : Turn s false { s with accepts := s.accepts + 1 }
  | accepted (fd a : ℕ) (phase : s.phase = .waiting) (new : s.opened fd = none)
      (small : fd < raftMaxConn) (free : s.heap a = none) : Turn s false (s.accepted fd a)
  | acceptEnds (e : EpollEvent) (rest : List EpollEvent) (phase : s.phase = .waiting)
      (first : s.events = e :: rest) : Turn s false { s with events := rest }
  | event (e : EpollEvent) (rest : List EpollEvent) (phase : s.phase = .waiting)
      (first : s.events = e :: rest) (client : s.serverFd ≠ some e.fd) :
      Turn s false { s with phase := if s.comesToRead e then .reading else .checking }
  | bytes (e : EpollEvent) (rest : List EpollEvent) (a k : ℕ) (c : Connection) (chunk : Text)
      (first : s.events = e :: rest) (held : s.connections e.fd = some a)
      (cell : s.heap a = some c) (mine : s.opened e.fd = some (.connection k))
      (room : c.remaining ≠ 0) (fits : chunk.length ≤ c.remaining) : Turn s false { s with
        heap := update s.heap a (some (dispatchCompleteLines { buffer := c.buffer ++ chunk }).2)
        received := update s.received k (s.received k ++ chunk)
        submitted := s.submitted ++
          (dispatchCompleteLines { buffer := c.buffer ++ chunk }).1.map fun line => (k, line) }
  | block (e : EpollEvent) (rest : List EpollEvent) (phase : s.phase = .reading)
      (first : s.events = e :: rest) : Turn s false { s with phase := .checking }
  | ends (e : EpollEvent) (rest : List EpollEvent) (a : ℕ) (phase : s.phase = .reading)
      (first : s.events = e :: rest) (held : s.connections e.fd = some a) :
      Turn s false { s.closed e.fd a with phase := .checking }
  | keep (e : EpollEvent) (rest : List EpollEvent) (phase : s.phase = .checking)
      (first : s.events = e :: rest) : Turn s false { s with phase := .waiting, events := rest }
  | close (e : EpollEvent) (rest : List EpollEvent) (a : ℕ) (phase : s.phase = .checking)
      (first : s.events = e :: rest) (held : s.connections e.fd = some a) :
      Turn s false { s.closed e.fd a with phase := .waiting, events := rest }

theorem Held.acceptConnection (h : Held s) (phase : s.phase = .waiting) (nonblock added : Bool)
    {memory : Option ℕ} (new : s.opened fd = none) (free : ∀ a ∈ memory, s.heap a = none) :
    ∃ s', s.acceptConnection fd nonblock memory added = some s' ∧ Turn s false s' := by
  have empty : s.connections fd = none := h.unlisted fun k hk => by cases hk.symm.trans new
  have unwatched : fd ∉ s.watched := by
    rw [h.watched, h.server, new, empty]
    simp
  -- `close` right after `accept` leaves the descriptors as they were.
  have refused : (some ({ s.openFd fd (.connection s.accepts) with
      accepts := s.accepts + 1 }.closeFd fd)) = some { s with accepts := s.accepts + 1 } := by
    rw [closeFd, openFd]
    simp [Finset.erase_eq_of_notMem unwatched, ← new]
  rw [Server.acceptConnection.eq_def]
  dsimp only
  split
  · exact ⟨_, refused, .refused⟩
  · rename_i hguard
    rw [not_or, not_not, not_le] at hguard
    cases memory with
    | none => exact ⟨_, refused, .refused⟩
    | some a =>
      have hfree := free a rfl
      cases added with
      | true => exact ⟨_, by simp; rfl, .accepted fd a phase new hguard.1 hfree⟩
      | false =>
        refine ⟨_, ?_, .refused⟩
        dsimp only
        rw [if_pos (by simp), Server.closeConnection, if_neg (by omega)]
        simp [epollDel, closeFd, openFd, Finset.erase_eq_of_notMem unwatched, ← new, ← hfree,
          ← empty]

theorem Held.readTurn (h : Held s) (phase : s.phase = .reading) (first : s.events = e :: rest)
    (listed : s.connections e.fd ≠ none) {result : Recv} (adm : s.Admitted (.recv result)) :
    ∃ s', s.readTurn e.fd result = some s' ∧ Turn s false s' := by
  obtain ⟨k, hk⟩ := (h.files e.fd).mp listed
  obtain ⟨a, ha⟩ := Option.ne_none_iff_exists'.mp listed
  obtain ⟨c, hc⟩ := Option.ne_none_iff_exists'.mp (h.cells.cell ha)
  have ends := h.closeConnection ha
  rw [Server.readTurn]
  simp only [ha, hk, hc, Option.bind_some, ends, Option.map_some]
  split
  · exact ⟨_, rfl, .ends e rest a phase first ha⟩
  · rename_i room
    cases result with
    | bytes chunk =>
      have fits := adm e (by rw [first]; rfl) a ha c hc room
      exact ⟨_, rfl, .bytes e rest a k c chunk first ha hc hk room fits.2⟩
    | wouldBlock => exact ⟨_, rfl, .block e rest phase first⟩
    | ended => exact ⟨_, rfl, .ends e rest a phase first ha⟩

theorem Held.check (h : Held s) (phase : s.phase = .checking) (first : s.events = e :: rest) :
    ∃ s', s.step .check = some s' ∧ Turn s false s' := by
  simp only [step, phase, first]
  split
  · rename_i hcloses
    simp only [closesAfter, Bool.and_eq_true] at hcloses
    obtain ⟨a, ha⟩ := Option.isSome_iff_exists.mp hcloses.1.2
    exact ⟨_, by rw [h.closeConnection ha]; rfl, .close e rest a phase first ha⟩
  · exact ⟨_, rfl, .keep e rest phase first⟩

theorem turn_of_step {act : ServerAction} (h : Held s) (p : Pending s) (adm : s.Admitted act)
    (hstep : s.step act = some s') : Turn s act.foreign s' := by
  have found : ∀ {o : Option Server}, o = some s' → (∃ t, o = some t ∧ Turn s false t) →
      Turn s false s' := by
    rintro _ rfl ⟨t, ht, turn⟩
    obtain rfl := Option.some.inj ht
    exact turn
  cases act with
  | openOther fd =>
    obtain rfl := Option.some.inj hstep
    exact .openOther fd adm
  | closeOther fd =>
    obtain rfl := Option.some.inj hstep
    exact .closeOther fd adm
  | wait events =>
    rw [step] at hstep
    split at hstep
    · rename_i hguard
      obtain rfl := Option.some.inj hstep
      exact .wait events hguard.1 hguard.2 adm.2.1 adm.2.2
    · cases hstep
  | leave =>
    rw [step] at hstep
    split at hstep
    · rename_i hguard
      obtain rfl := Option.some.inj hstep
      exact .leave hguard.1 hguard.2
    · cases hstep
  | accept fd nonblock memory added =>
    simp only [step] at hstep
    split at hstep
    · rename_i e rest phase first
      split at hstep
      · exact found hstep (h.acceptConnection phase _ _ adm.1 adm.2)
      · cases hstep
    · cases hstep
  | acceptEnds =>
    simp only [step] at hstep
    split at hstep
    · rename_i e rest phase first
      split at hstep
      · obtain rfl := Option.some.inj hstep
        exact .acceptEnds e rest phase first
      · cases hstep
    · cases hstep
  | event =>
    simp only [step] at hstep
    split at hstep
    · rename_i e rest phase first
      split at hstep
      · cases hstep
      · rename_i client
        obtain rfl := Option.some.inj hstep
        exact .event e rest phase first client
    · cases hstep
  | recv result =>
    simp only [step] at hstep
    split at hstep
    · rename_i e rest phase first
      obtain ⟨e', rest', first', -, listed⟩ := p.reading phase
      obtain ⟨rfl, rfl⟩ := List.cons.inj (first.symm.trans first')
      exact found hstep (h.readTurn phase first listed adm)
    · cases hstep
  | check =>
    by_cases phase : s.phase = .checking
    · obtain ⟨e, rest, first, -⟩ := p.checking phase
      exact found hstep (h.check phase first)
    · simp only [step] at hstep
      split at hstep
      · exact absurd ‹_› phase
      · cases hstep

/-! ### What every step keeps -/

theorem Held.turn {foreign : Bool} (h : Held s) (turn : Turn s foreign s') : Held s' := by
  cases turn with
  | openOther fd new => exact h.other (.inl new) (.inr rfl) fun _ => Iff.rfl
  | closeOther fd own =>
    refine h.other (.inr own) (.inl rfl) fun fd' => ?_
    rw [Finset.mem_erase, and_iff_right_iff_imp]
    rintro hmem rfl
    rcases (h.watched fd').mp hmem with hserver | hlisted
    · cases own.symm.trans ((h.server fd').mp hserver)
    · obtain ⟨k, hk⟩ := (h.files fd').mp hlisted
      cases own.symm.trans hk
  | refused => exact h.refused
  | accepted fd a phase new small free => exact h.accepted new small free
  | bytes e rest a k c chunk first held => exact { h.wrote held _ with }
  | ends e rest a phase first held => exact { h.closed held with }
  | close e rest a phase first held => exact { h.closed held with }
  | wait | leave | acceptEnds | event | block | keep => exact { h with }

/-- The first event is done with. -/
theorem Pending.next (p : Pending s) (first : s.events = e :: rest) (events : s'.events = rest)
    (phase : s'.phase = .waiting) (same : ∀ e' ∈ rest, s'.opened e'.fd = s.opened e'.fd) :
    Pending s' := by
  have later : ∀ e' ∈ rest, s'.opened e'.fd = some e'.file := fun e' he' =>
    (same e' he').trans (p.later e' (by rw [first]; exact he'))
  have distinct := p.distinct
  have kind := p.kind
  rw [first, List.map_cons, List.nodup_cons] at distinct
  rw [first] at kind
  refine ⟨by rw [events]; exact distinct.2, fun e' he' => ?_, fun e' he' => ?_, fun e' he' _ => ?_,
    fun hp => ?_, fun hp => ?_⟩
  · exact kind e' (List.mem_cons_of_mem _ (events ▸ he'))
  · exact later e' (List.mem_of_mem_tail (events ▸ he'))
  · exact later e' (List.mem_of_head? (events ▸ he'))
  · cases phase.symm.trans hp
  · cases phase.symm.trans hp

/-- The descriptors of the later events are not the one that the thread closes. -/
theorem Pending.ne_first (p : Pending s) (first : s.events = e :: rest) {e' : EpollEvent}
    (he' : e' ∈ rest) : e'.fd ≠ e.fd := by
  have distinct := p.distinct
  rw [first, List.map_cons, List.nodup_cons] at distinct
  exact fun heq => distinct.1 (heq ▸ List.mem_map_of_mem he')

/-- A descriptor changes that no event to handle has been reported for. -/
theorem Pending.other {file : Option File} (p : Pending s) (fd : ℕ)
    (apart : ∀ f, f = .server ∨ (∃ k, f = .connection k) → s.opened fd ≠ some f)
    (events : s'.events = s.events) (phase : s'.phase = s.phase)
    (serverFd : s'.serverFd = s.serverFd)
    (connections : ∀ fd', fd' ≠ fd ∨ s.phase ≠ .waiting → s'.connections fd' = s.connections fd')
    (opened : s'.opened = update s.opened fd file) : Pending s' := by
  have keep : ∀ e ∈ s.events, s.opened e.fd = some e.file → s'.opened e.fd = some e.file := by
    intro e he hfile
    rw [opened, update_of_ne, hfile]
    rintro rfl
    exact apart _ (p.kind e he) hfile
  refine ⟨?_, ?_, fun e he => ?_, fun e he hchecked => ?_, fun hp => ?_, fun hp => ?_⟩
  · rw [events]
    exact p.distinct
  · rw [events]
    exact p.kind
  · rw [events] at he
    exact keep e (List.mem_of_mem_tail he) (p.later e he)
  · rw [events] at he
    refine keep e (List.mem_of_head? he) (p.first e he fun hp => ?_)
    rw [← connections e.fd (.inr (by rw [hp]; exact fun heq => by cases heq))]
    exact hchecked (phase.trans hp)
  · rw [phase] at hp
    obtain ⟨e, rest, first, client, listed⟩ := p.reading hp
    refine ⟨e, rest, events.trans first, serverFd ▸ client, ?_⟩
    rwa [connections e.fd (.inr (by rw [hp]; exact fun heq => by cases heq))]
  · rw [phase] at hp
    rw [events, serverFd]
    exact p.checking hp

theorem Pending.turn {foreign : Bool} (p : Pending s) (h : Held s) (turn : Turn s foreign s') :
    Pending s' := by
  cases turn with
  | openOther fd new =>
    exact p.other fd (fun f _ => by rw [new]; exact (Option.some_ne_none f).symm) rfl rfl
      rfl (fun _ _ => rfl) rfl
  | closeOther fd own =>
    refine p.other fd (fun f hf heq => ?_) rfl rfl rfl (fun _ _ => rfl) rfl
    obtain rfl := Option.some.inj (own.symm.trans heq)
    rcases hf with hf | ⟨k, hf⟩ <;> cases hf
  | wait events phase none distinct reported =>
    refine ⟨distinct, fun e he => ?_, fun e he => (reported e (List.mem_of_mem_tail he)).2,
      fun e he _ => (reported e (List.mem_of_head? he)).2, fun hp => ?_, fun hp => ?_⟩
    · obtain ⟨hwatched, hfile⟩ := reported e he
      rcases (h.watched e.fd).mp hwatched with hserver | hlisted
      · exact .inl (Option.some.inj (hfile.symm.trans ((h.server e.fd).mp hserver)))
      · obtain ⟨k, hk⟩ := (h.files e.fd).mp hlisted
        exact .inr ⟨k, Option.some.inj (hfile.symm.trans hk)⟩
    · cases phase.symm.trans hp
    · cases phase.symm.trans hp
  | leave phase none =>
    have empty : ∀ e, e ∉ s.events := fun e => by rw [none]; exact List.not_mem_nil
    refine ⟨p.distinct, p.kind, p.later, fun e he _ => ?_, fun hp => (by cases hp),
      fun hp => (by cases hp)⟩
    exact absurd (List.mem_of_head? he) (empty e)
  | refused => exact { p with }
  | accepted fd a phase new small free =>
    refine p.other fd (fun f _ => by rw [new]; exact (Option.some_ne_none f).symm) rfl rfl
      rfl (fun fd' hfd' => ?_) rfl
    rcases hfd' with hne | hne
    · exact update_of_ne hne _ _
    · exact absurd phase hne
  | acceptEnds e rest phase first => exact p.next first rfl phase fun _ _ => rfl
  | event e rest phase first client =>
    refine ⟨p.distinct, p.kind, p.later, fun e' he' _ => ?_, fun hp => ?_, fun _ =>
      ⟨e, rest, first, client⟩⟩
    · exact p.first e' he' fun hp => (by cases phase.symm.trans hp)
    · refine ⟨e, rest, first, client, ?_⟩
      by_cases hread : s.comesToRead e = true
      · simp only [comesToRead, Bool.and_eq_true] at hread
        exact Option.isSome_iff_ne_none.mp hread.2
      · simp [hread] at hp
  | bytes => exact { p with }
  | block e rest phase first =>
    obtain ⟨e', rest', first', client, -⟩ := p.reading phase
    refine ⟨p.distinct, p.kind, p.later, fun e he _ => ?_, fun hp => (by cases hp), fun _ =>
      ⟨e', rest', first', client⟩⟩
    exact p.first e he fun hp => (by cases phase.symm.trans hp)
  | ends e rest a phase first held =>
    obtain ⟨e', rest', first', client, -⟩ := p.reading phase
    refine ⟨p.distinct, p.kind, fun e' he' => ?_, fun e' he' hlisted => ?_, fun hp => (by cases hp),
      fun _ => ⟨e', rest', first', client⟩⟩
    · have hlater : s.opened e'.fd = some e'.file := p.later e' he'
      have hrest : e' ∈ s.events.tail := he'
      rw [first] at hrest
      exact (update_of_ne (p.ne_first first hrest) _ _).trans hlater
    · have hhead : e' ∈ s.events.head? := he'
      rw [first] at hhead
      obtain rfl := Option.some.inj hhead
      exact absurd (update_self ..) (hlisted rfl)
  | keep e rest phase first => exact p.next first rfl rfl fun _ _ => rfl
  | close e rest a phase first held =>
    exact p.next first rfl rfl fun e' he' => update_of_ne (p.ne_first first he') _ _

/-! ### The lines of each connection -/

/-- An open connection keeps what follows its last newline, and no line that is too long has been
seen of it.  Of every connection the lines have been submitted that its bytes make. -/
structure Framed (s : Server) : Prop where
  buffer : ∀ {fd a c k}, s.connections fd = some a → s.heap a = some c →
    s.opened fd = some (.connection k) → c.buffer = unterminated 10 (s.received k)
  short : ∀ {fd k}, s.opened fd = some (.connection k) →
    ∀ line ∈ terminated 10 (s.received k), ¬ TooLong line
  lines : ∀ k, s.linesOf k = framed (s.received k)
  unborn : ∀ k, s.accepts ≤ k → s.received k = []

theorem framed_of_short {stream : Text} (h : ∀ line ∈ terminated 10 stream, ¬ TooLong line) :
    framed stream = (terminated 10 stream).map cutLine := by
  have := @framed_append stream [] h
  rwa [List.append_nil, List.append_nil, framed_of_not_mem (not_mem_unterminated stream),
    List.append_nil] at this

theorem linesOf_append (lines : List Text) (k j : ℕ)
    (hsub : s'.submitted = s.submitted ++ lines.map fun line => (k, line)) :
    s'.linesOf j = s.linesOf j ++ if k = j then lines else [] := by
  rw [linesOf, linesOf, hsub, List.filter_append, List.map_append, List.filter_map]
  by_cases hkj : k = j
  · simp [hkj, Function.comp_def]
  · simp [hkj, Function.comp_def]

theorem Framed.keep (f : Framed s) (connections : ∀ fd, s'.connections fd = none ∨
      s'.connections fd = s.connections fd)
    (heap : ∀ fd a, s'.connections fd = some a → s'.heap a = s.heap a)
    (opened : ∀ fd k, s'.opened fd = some (.connection k) → s.opened fd = some (.connection k))
    (received : s'.received = s.received) (submitted : s'.submitted = s.submitted)
    (accepts : s.accepts ≤ s'.accepts) : Framed s' := by
  refine ⟨fun {fd a c k} hfd ha hk => ?_, fun {fd k} hk => ?_, fun k => ?_, fun k hk => ?_⟩
  · rcases connections fd with hnone | hsame
    · cases hnone.symm.trans hfd
    · rw [received]
      exact f.buffer (hsame ▸ hfd) (heap fd a hfd ▸ ha) (opened fd k hk)
  · rw [received]
    exact f.short (opened fd k hk)
  · rw [linesOf, submitted, received]
    exact f.lines k
  · rw [received]
    exact f.unborn k (accepts.trans hk)

theorem Framed.closed (f : Framed s) (h : Held s) (held : s.connections fd = some a) :
    Framed (s.closed fd a) := by
  have split : ∀ fd', update s.connections fd none fd' = none ∨
      fd' ≠ fd ∧ update s.connections fd none fd' = s.connections fd' := by
    intro fd'
    by_cases hfd : fd' = fd
    · exact .inl (by rw [hfd, update_self])
    · exact .inr ⟨hfd, update_of_ne hfd _ _⟩
  refine f.keep (fun fd' => (split fd').imp_right And.right) (fun fd' b hb => ?_)
    (fun fd' k hk => ?_) rfl rfl le_rfl
  · rcases split fd' with hnone | ⟨hfd, hsame⟩
    · cases hnone.symm.trans hb
    · refine update_of_ne ?_ _ _
      rintro rfl
      exact hfd (h.cells.apart (hsame ▸ hb) held)
  · by_cases hfd : fd' = fd
    · rw [Server.closed, hfd] at hk
      simp at hk
    · simpa [Server.closed, hfd] using hk

theorem Framed.accepted (f : Framed s) (h : Held s) (new : s.opened fd = none)
    (free : s.heap a = none) : Framed (s.accepted fd a) := by
  have hempty : s.received s.accepts = [] := f.unborn _ le_rfl
  have hopened : ∀ {fd' k}, (s.accepted fd a).opened fd' = some (.connection k) →
      fd' = fd ∧ k = s.accepts ∨ fd' ≠ fd ∧ s.opened fd' = some (.connection k) := by
    intro fd' k hk
    by_cases hfd : fd' = fd
    · refine .inl ⟨hfd, ?_⟩
      rw [Server.accepted, hfd] at hk
      simpa [eq_comm] using hk
    · exact .inr ⟨hfd, by simpa [Server.accepted, hfd] using hk⟩
  refine ⟨fun {fd' b c k} hfd' hb hk => ?_, fun {fd' k} hk => ?_, f.lines,
    fun k hk => f.unborn k (by simp only [Server.accepted] at hk; omega)⟩
  · rcases hopened hk with ⟨rfl, rfl⟩ | ⟨hfd, hold⟩
    · simp only [Server.accepted, update_self, Option.some.injEq] at hfd'
      subst hfd'
      simp only [Server.accepted, update_self, Option.some.injEq] at hb
      simp [Server.accepted, ← hb, hempty, Connection.empty, unterminated_of_not_mem]
    · have hlisted : s.connections fd' = some b := by simpa [Server.accepted, hfd] using hfd'
      have hba : b ≠ a := fun heq => h.cells.cell hlisted (heq ▸ free)
      exact f.buffer hlisted (by simpa [Server.accepted, hba] using hb) hold
  · rcases hopened hk with ⟨rfl, rfl⟩ | ⟨-, hold⟩
    · simp [Server.accepted, hempty, terminated_of_not_mem]
    · exact f.short hold

theorem Framed.bytes (f : Framed s) (h : Held s) {chunk : Text}
    (held : s.connections fd = some a) (cell : s.heap a = some c)
    (mine : s.opened fd = some (.connection k)) (room : c.remaining ≠ 0)
    (fits : chunk.length ≤ c.remaining) : Framed { s with
      heap := update s.heap a (some (dispatchCompleteLines { buffer := c.buffer ++ chunk }).2)
      received := update s.received k (s.received k ++ chunk)
      submitted := s.submitted ++
        (dispatchCompleteLines { buffer := c.buffer ++ chunk }).1.map fun line => (k, line) } := by
  have hbuffer := f.buffer held cell mine
  obtain ⟨-, hshort, -⟩ := Connection.Open.bytes fits room
  rw [dispatchCompleteLines_eq]
  dsimp only
  rw [hbuffer] at hshort ⊢
  have hall : ∀ line ∈ terminated 10 (s.received k ++ chunk), ¬ TooLong line := by
    intro line hline
    rw [terminated_append] at hline
    rcases List.mem_append.mp hline with hline | hline
    · exact f.short mine line hline
    · exact hshort line hline
  refine ⟨fun {fd' b d j} hfd' hb hj => ?_, fun {fd' j} hj => ?_, fun j => ?_, fun j hj => ?_⟩
  · by_cases hfd : fd' = fd
    · obtain rfl : b = a := Option.some.inj ((hfd ▸ hfd').symm.trans held)
      obtain rfl : j = k := File.connection.inj (Option.some.inj ((hfd ▸ hj).symm.trans mine))
      simp only [update_self, Option.some.injEq] at hb ⊢
      rw [← hb]
      exact (unterminated_append _ _).symm
    · have hba : b ≠ a := fun heq => hfd (h.cells.apart (heq ▸ hfd') held)
      have hjk : j ≠ k := fun heq => hfd (h.once (heq ▸ hj) mine)
      simp only [update_of_ne hba] at hb
      simp only [update_of_ne hjk]
      exact f.buffer hfd' hb hj
  · by_cases hjk : j = k
    · simp only [hjk, update_self]
      exact hall
    · simp only [update_of_ne hjk]
      exact f.short hj
  · rw [linesOf_append (s := s) _ k j rfl, f.lines]
    by_cases hjk : k = j
    · subst hjk
      simp only [update_self, if_true]
      rw [framed_of_short (f.short mine), framed_of_short hall, terminated_append (s.received k),
        List.map_append]
    · simp only [if_neg hjk, List.append_nil, update_of_ne (Ne.symm hjk)]
  · have hjk : j ≠ k := by
      have := h.number mine
      rintro rfl
      exact absurd hj (by simpa using this)
    simp only [update_of_ne hjk]
    exact f.unborn j hj

theorem Framed.turn {foreign : Bool} (f : Framed s) (h : Held s) (turn : Turn s foreign s') :
    Framed s' := by
  cases turn with
  | openOther fd new =>
    refine f.keep (fun _ => .inr rfl) (fun _ _ _ => rfl) (fun fd' k hk => ?_) rfl rfl le_rfl
    by_cases hfd : fd' = fd
    · simp [openFd, hfd] at hk
    · simpa [openFd, hfd] using hk
  | closeOther fd own =>
    refine f.keep (fun _ => .inr rfl) (fun _ _ _ => rfl) (fun fd' k hk => ?_) rfl rfl le_rfl
    by_cases hfd : fd' = fd
    · simp [closeFd, hfd] at hk
    · simpa [closeFd, hfd] using hk
  | accepted fd a phase new small free => exact f.accepted h new free
  | bytes e rest a k c chunk first held cell mine room fits =>
    exact f.bytes h held cell mine room fits
  | ends e rest a phase first held => exact { f.closed h held with }
  | close e rest a phase first held => exact { f.closed h held with }
  | refused =>
    exact f.keep (fun _ => .inr rfl) (fun _ _ _ => rfl) (fun _ _ hk => hk) rfl rfl
      (Nat.le_succ _)
  | wait | leave | acceptEnds | event | block | keep => exact { f with }

end Server

end RaftKv
