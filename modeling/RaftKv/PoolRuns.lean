import RaftKv.PoolMemory
import RaftKv.Reach

/-! Runs of the pool: the jobs of the calls of `pool_submit` are taken in order and passed on
once. -/

namespace RaftKv

open Function LinkedQueue Runs Stdio

namespace ThreadPool

variable {n : ℕ} {s s' : ThreadPool n} {queued : List ℕ} {w w' : Fin n} {a : ℕ} {c : PoolCall}

/-! ### What has become of each call -/

/-- The calls of `pool_submit` are told apart by their numbers. -/
structure Numbered (s : ThreadPool n) : Prop where
  nodup : ((s.submitted ++ s.making.map Prod.snd).map (·.number)).Nodup
  bound : ∀ c ∈ s.submitted ++ s.making.map Prod.snd, c.number < s.calls

/-- The jobs that workers have taken are passed on, or a worker is about to do it. -/
structure Ledger (s : ThreadPool n) : Prop where
  pending : ∀ {w a c}, s.threads w = .holding a c →
    c ∈ s.dequeued ∧ c.number ∉ s.handled.map (·.number)
  apart : ∀ {w w' a b c d}, s.threads w = .holding a c → s.threads w' = .holding b d →
    c.number = d.number → w = w'
  done : ∀ c ∈ s.dequeued, c.passed ∈ s.handled ∨ ∃ w a, s.threads w = .holding a c
  known : ∀ i ∈ s.handled.map (·.number), i ∈ s.dequeued.map (·.number)
  once : (s.handled.map (·.number)).Nodup

theorem Numbered.making_nodup (h : Numbered s) : s.making.Nodup := by
  have hnodup := h.nodup
  rw [List.map_append, List.nodup_append] at hnodup
  exact .of_map _ (.of_map _ hnodup.2.1)

theorem Numbered.keep (h : Numbered s) (submitted : s'.submitted = s.submitted)
    (making : s'.making = s.making) (calls : s'.calls = s.calls) : Numbered s' := by
  constructor
  · rw [submitted, making]
    exact h.nodup
  · rw [submitted, making, calls]
    exact h.bound

theorem Numbered.made (h : Numbered s) (submitted : s'.submitted = s.submitted)
    (making : s'.making = (a, c) :: s.making) (number : c.number = s.calls)
    (calls : s'.calls = s.calls + 1) : Numbered s' := by
  have hperm : (s'.submitted ++ s'.making.map Prod.snd).Perm
      (c :: (s.submitted ++ s.making.map Prod.snd)) := by
    rw [submitted, making]
    exact List.perm_middle
  constructor
  · rw [(hperm.map _).nodup_iff, List.map_cons, List.nodup_cons]
    refine ⟨fun hmem => ?_, h.nodup⟩
    obtain ⟨d, hd, heq⟩ := List.mem_map.mp hmem
    have hlt := h.bound d hd
    omega
  · intro d hd
    rcases List.mem_cons.mp (hperm.mem_iff.mp hd) with rfl | hd
    · omega
    · have hlt := h.bound d hd
      omega

theorem Numbered.linked (h : Numbered s) (mine : (a, c) ∈ s.making)
    (submitted : s'.submitted = s.submitted ++ [c]) (making : s'.making = s.making.erase (a, c))
    (calls : s'.calls = s.calls) : Numbered s' := by
  have hperm : (s'.submitted ++ s'.making.map Prod.snd).Perm
      (s.submitted ++ s.making.map Prod.snd) := by
    rw [submitted, making, List.append_assoc]
    exact ((List.perm_cons_erase mine).map Prod.snd).symm.append_left _
  constructor
  · rw [(hperm.map _).nodup_iff]
    exact h.nodup
  · intro d hd
    rw [calls]
    exact h.bound d (hperm.mem_iff.mp hd)

theorem Ledger.taken (h : Ledger s) (awake : s.threads w = .waiting)
    (threads : s'.threads = update s.threads w (.holding a c))
    (dequeued : s'.dequeued = s.dequeued ++ [c]) (handled : s'.handled = s.handled)
    (new : c.number ∉ s.dequeued.map (·.number)) : Ledger s' := by
  have split : ∀ {w' b d}, s'.threads w' = .holding b d →
      w' = w ∧ d = c ∨ w' ≠ w ∧ s.threads w' = .holding b d := by
    intro w' b d hw'
    rw [threads] at hw'
    by_cases hw : w' = w
    · subst hw
      rw [update_self] at hw'
      obtain ⟨-, rfl⟩ := Worker.holding.inj hw'
      exact .inl ⟨rfl, rfl⟩
    · rw [update_of_ne hw] at hw'
      exact .inr ⟨hw, hw'⟩
  have other : ∀ {w' b d}, s.threads w' = .holding b d → d.number ≠ c.number :=
    fun hw' heq => new (heq ▸ List.mem_map_of_mem (h.pending hw').1)
  refine ⟨?_, ?_, ?_, ?_, handled ▸ h.once⟩
  · intro w' b d hw'
    rw [dequeued, handled]
    rcases split hw' with ⟨-, rfl⟩ | ⟨-, hold⟩
    · exact ⟨List.mem_append_right _ (List.mem_singleton_self d), fun hmem => new (h.known _ hmem)⟩
    · exact ⟨List.mem_append_left _ (h.pending hold).1, (h.pending hold).2⟩
  · intro w₁ w₂ a₁ a₂ c₁ c₂ h₁ h₂ heq
    rcases split h₁ with ⟨rfl, rfl⟩ | ⟨-, hold₁⟩
    · rcases split h₂ with ⟨rfl, -⟩ | ⟨-, hold₂⟩
      · rfl
      · exact absurd heq.symm (other hold₂)
    · rcases split h₂ with ⟨-, rfl⟩ | ⟨-, hold₂⟩
      · exact absurd heq (other hold₁)
      · exact h.apart hold₁ hold₂ heq
  · intro d hd
    rw [handled]
    rw [dequeued] at hd
    rcases List.mem_append.mp hd with hd | hd
    · rcases h.done d hd with hpassed | ⟨w', b, hw'⟩
      · exact .inl hpassed
      · refine .inr ⟨w', b, ?_⟩
        rw [threads, update_of_ne, hw']
        rintro rfl
        cases awake.symm.trans hw'
    · obtain rfl := List.mem_singleton.mp hd
      exact .inr ⟨w, a, by rw [threads, update_self]⟩
  · intro i hi
    rw [dequeued, List.map_append]
    exact List.mem_append_left _ (h.known i (handled ▸ hi))

theorem Ledger.passed (h : Ledger s) (has : s.threads w = .holding a c)
    (threads : s'.threads = update s.threads w (.handling a c))
    (dequeued : s'.dequeued = s.dequeued) (handled : s'.handled = s.handled ++ [c.passed]) :
    Ledger s' := by
  have split : ∀ {w' b d}, s'.threads w' = .holding b d →
      w' ≠ w ∧ s.threads w' = .holding b d := by
    intro w' b d hw'
    rw [threads] at hw'
    by_cases hw : w' = w
    · subst hw
      rw [update_self] at hw'
      cases hw'
    · rw [update_of_ne hw] at hw'
      exact ⟨hw, hw'⟩
  have numbers : s'.handled.map (·.number) = s.handled.map (·.number) ++ [c.number] := by
    rw [handled, List.map_append]
    rfl
  obtain ⟨hmem, hnew⟩ := h.pending has
  refine ⟨?_, ?_, ?_, ?_, ?_⟩
  · intro w' b d hw'
    obtain ⟨hne, hold⟩ := split hw'
    rw [dequeued, numbers]
    refine ⟨(h.pending hold).1, fun hd => ?_⟩
    rcases List.mem_append.mp hd with hd | hd
    · exact (h.pending hold).2 hd
    · exact hne (h.apart hold has (List.mem_singleton.mp hd))
  · intro w₁ w₂ a₁ a₂ c₁ c₂ h₁ h₂ heq
    exact h.apart (split h₁).2 (split h₂).2 heq
  · intro d hd
    rw [handled]
    rcases h.done d (dequeued ▸ hd) with hpassed | ⟨w', b, hw'⟩
    · exact .inl (List.mem_append_left _ hpassed)
    · by_cases hw : w' = w
      · subst hw
        obtain ⟨-, rfl⟩ := Worker.holding.inj (has.symm.trans hw')
        exact .inl (List.mem_append_right _ (List.mem_singleton_self _))
      · refine .inr ⟨w', b, ?_⟩
        rw [threads, update_of_ne hw, hw']
  · intro i hi
    rw [dequeued]
    rw [numbers] at hi
    rcases List.mem_append.mp hi with hi | hi
    · exact h.known i hi
    · exact List.mem_singleton.mp hi ▸ List.mem_map_of_mem hmem
  · rw [numbers, List.nodup_append]
    refine ⟨h.once, List.nodup_singleton _, fun i hi j hj => ?_⟩
    rw [List.mem_singleton.mp hj]
    rintro rfl
    exact hnew hi

/-- No worker takes a job or passes one on. -/
theorem Ledger.keep (h : Ledger s) (threads : ∀ w a c,
      s'.threads w = .holding a c ↔ s.threads w = .holding a c)
    (dequeued : s'.dequeued = s.dequeued) (handled : s'.handled = s.handled) : Ledger s' := by
  refine ⟨?_, ?_, ?_, ?_, handled ▸ h.once⟩
  · intro w a c hw
    rw [dequeued, handled]
    exact h.pending ((threads w a c).mp hw)
  · intro w w' a b c d hw hw' heq
    exact h.apart ((threads w a c).mp hw) ((threads w' b d).mp hw') heq
  · intro c hc
    rw [handled]
    refine (h.done c (dequeued ▸ hc)).imp_right ?_
    rintro ⟨w, a, hw⟩
    exact ⟨w, a, (threads w a c).mpr hw⟩
  · rw [dequeued, handled]
    exact h.known

/-! ### Runs -/

/-- What every step keeps. -/
structure Sound (s : ThreadPool n) : Prop where
  numbered : Numbered s
  ledger : Ledger s
  order : s.dequeued <+: s.submitted
  ends : s.head = none ↔ s.tail = none
  exits : ∀ {w}, s.threads w = .exited → s.stop = true
  closed : s.live = false → ∀ w, s.threads w = .exited
  memory : s.live = true → ∃ queued, Memory s queued

theorem sound_init : Sound (poolInit n) where
  numbered := ⟨List.nodup_nil, List.forall_mem_nil _⟩
  ledger := ⟨fun h => (by cases h), fun h => (by cases h), List.forall_mem_nil _,
    List.forall_mem_nil _, List.nodup_nil⟩
  order := List.nil_prefix
  ends := Iff.rfl
  exits h := by cases h
  closed h := by cases h
  memory _ := by
    have none_owns : ∀ {o a c}, ¬ Owns (poolInit n) [] o a c := by
      intro o a c owns
      cases o with
      | caller d => cases owns.1
      | queue => cases owns.1
      | worker w => rcases owns with h | h <;> cases h
    exact ⟨[], .empty, fun owns => absurd owns none_owns, fun owns => absurd owns none_owns,
      fun h => (by cases h), rfl⟩

/-- A worker that has not exited finds the jobs of the queue in memory. -/
theorem Sound.live_of_worker (h : Sound s) (hw : s.threads w ≠ .exited) : s.live = true := by
  cases hlive : s.live with
  | false => exact absurd (h.closed hlive w) hw
  | true => rfl

/-- A job that a worker takes is of a call that no worker has had before. -/
theorem Sound.new (h : Sound s) (memory : Memory s (a :: queued)) :
    s.dequeued ++ [s.origin a] <+: s.submitted ∧
      (s.origin a).number ∉ s.dequeued.map (·.number) := by
  have horder : s.submitted = s.dequeued ++ [s.origin a] ++ queued.map s.origin := by
    rw [memory.order, List.append_assoc]
    rfl
  have hnodup := h.numbered.nodup
  rw [List.map_append, List.nodup_append, horder, List.map_append, List.nodup_append,
    List.map_append, List.nodup_append] at hnodup
  exact ⟨⟨_, horder.symm⟩, fun hmem =>
    hnodup.1.1.2.2 _ hmem _ (List.mem_singleton_self _) rfl⟩

theorem exited_of_update {turn : Worker} (h : update s.threads w turn w' = .exited)
    (ht : turn ≠ .exited) : s.threads w' = .exited := by
  by_cases hw : w' = w
  · subst hw
    rw [update_self] at h
    exact absurd h ht
  · rwa [update_of_ne hw] at h

/-- A worker that neither takes a job nor passes one on leaves the ledger as it is. -/
theorem holding_update {turn : Worker} (before : ∀ a c, s.threads w ≠ .holding a c)
    (after : ∀ a c, turn ≠ .holding a c) (w' : Fin n) (a : ℕ) (c : PoolCall) :
    update s.threads w turn w' = .holding a c ↔ s.threads w' = .holding a c := by
  by_cases hw : w' = w
  · subst hw
    rw [update_self]
    exact iff_of_false (after a c) (before a c)
  · rw [update_of_ne hw]

/-- What the steps of a worker have in common. -/
theorem Sound.worked {turn : Worker} (h : Sound s) (hw : s.threads w ≠ .exited)
    (threads : s'.threads = update s.threads w turn) (leaves : turn = .exited → s.stop = true)
    (stop : s'.stop = s.stop) (destroyer : s'.destroyer = s.destroyer)
    (numbered : Numbered s') (ledger : Ledger s') (order : s'.dequeued <+: s'.submitted)
    (memory : Memory s' queued) : Sound s' := by
  have hlive : s'.live = true := by
    rw [live, destroyer]
    exact h.live_of_worker hw
  refine ⟨numbered, ledger, order, memory.queue.head_none.trans memory.queue.tail_none.symm,
    fun {w'} hw' => ?_, fun hdead => ?_, fun _ => ⟨queued, memory⟩⟩
  · rw [threads] at hw'
    rw [stop]
    by_cases hturn : turn = .exited
    · exact leaves hturn
    · exact h.exits (exited_of_update hw' hturn)
  · cases hlive.symm.trans hdead

theorem Sound.turn (h : Sound s) (turn : Turn s s') : Sound s' := by
  cases turn with
  | submit a node line free =>
    refine ⟨h.numbered.made rfl rfl rfl rfl, h.ledger.keep (fun _ _ _ => Iff.rfl) rfl rfl, h.order,
      h.ends, h.exits, h.closed, fun hlive => ?_⟩
    obtain ⟨queued, hmem⟩ := h.memory hlive
    exact ⟨queued, hmem.made free rfl rfl rfl rfl rfl rfl rfl rfl⟩
  | first a c mine unlocked empty =>
    refine ⟨h.numbered.linked mine rfl rfl rfl, h.ledger.keep (fun _ _ _ => Iff.rfl) rfl rfl,
      h.order.trans (List.prefix_append ..),
      iff_of_false (Option.some_ne_none a) (Option.some_ne_none a), h.exits, h.closed,
      fun hlive => ?_⟩
    obtain ⟨queued, hmem⟩ := h.memory hlive
    exact ⟨_, hmem.first mine h.numbered.making_nodup empty⟩
  | next a c t job mine last there =>
    refine ⟨h.numbered.linked mine rfl rfl rfl, h.ledger.keep (fun _ _ _ => Iff.rfl) rfl rfl,
      h.order.trans (List.prefix_append ..),
      iff_of_false (fun hnone => ?_) (Option.some_ne_none a), h.exits, h.closed, fun hlive => ?_⟩
    · cases last.symm.trans (h.ends.mp hnone)
    · obtain ⟨queued, hmem⟩ := h.memory hlive
      exact ⟨_, hmem.next mine h.numbered.making_nodup last there⟩
  | wait => exact h
  | exit w awake empty stop =>
    have hw : s.threads w ≠ .exited := fun heq => (by cases awake.symm.trans heq)
    obtain ⟨queued, hmem⟩ := h.memory (h.live_of_worker hw)
    refine h.worked hw rfl (fun _ => stop) rfl rfl (h.numbered.keep rfl rfl rfl)
      (h.ledger.keep (holding_update (fun a c heq => ?_) fun a c heq => ?_) rfl rfl) h.order
      (hmem.keep rfl rfl rfl rfl rfl rfl (owns_turned rfl fun b d hturn => ?_) fun _ _ _ _ _ => rfl)
    · cases awake.symm.trans heq
    · cases heq
    · rcases hturn with hturn | hturn <;> cases hturn
  | take w a job awake first there =>
    have hw : s.threads w ≠ .exited := fun heq => (by cases awake.symm.trans heq)
    obtain ⟨queued, hmem⟩ := h.memory (h.live_of_worker hw)
    obtain ⟨rest, rfl, hrest⟩ : ∃ rest, queued = a :: rest ∧ Memory { s with
        head := job.next
        tail := if job.next = none then none else s.tail
        threads := update s.threads w (.holding a (s.origin a))
        dequeued := s.dequeued ++ [s.origin a] } rest :=
      hmem.taken first there rfl rfl rfl rfl rfl rfl rfl rfl
    obtain ⟨horder, hnew⟩ := h.new hmem
    exact h.worked hw rfl (fun heq => by cases heq) rfl rfl (h.numbered.keep rfl rfl rfl)
      (h.ledger.taken awake rfl rfl rfl hnew) horder hrest
  | pass w a c job has there =>
    have hw : s.threads w ≠ .exited := fun heq => (by cases has.symm.trans heq)
    obtain ⟨queued, hmem⟩ := h.memory (h.live_of_worker hw)
    -- What is passed on is what the call of `pool_submit` has put into the job.
    have hpassed : (⟨c.number, job.node, job.line⟩ : PoolCall) = c.passed := by
      obtain ⟨next, hcell⟩ := hmem.cell (owns_holding has)
      obtain rfl := Option.some.inj (there.symm.trans hcell)
      rfl
    refine h.worked hw rfl (fun heq => by cases heq) rfl rfl (h.numbered.keep rfl rfl rfl)
      (h.ledger.passed has rfl rfl (by rw [hpassed])) h.order
      (hmem.keep rfl rfl rfl rfl rfl rfl (owns_turned rfl fun b d hturn => ?_) fun _ _ _ _ _ => rfl)
    rcases hturn with hturn | hturn
    · cases hturn
    · obtain ⟨rfl, rfl⟩ := Worker.handling.inj hturn
      exact owns_holding has
  | free w a c has =>
    have hw : s.threads w ≠ .exited := fun heq => (by cases has.symm.trans heq)
    obtain ⟨queued, hmem⟩ := h.memory (h.live_of_worker hw)
    refine h.worked hw rfl (fun heq => by cases heq) rfl rfl (h.numbered.keep rfl rfl rfl)
      (h.ledger.keep (holding_update (fun b d heq => ?_) fun b d heq => ?_) rfl rfl) h.order
      (hmem.freed has rfl rfl rfl rfl rfl rfl rfl rfl)
    · cases has.symm.trans heq
    · cases heq
  | stop first =>
    refine ⟨h.numbered.keep rfl rfl rfl, h.ledger.keep (fun _ _ _ => Iff.rfl) rfl rfl, h.order,
      h.ends, fun _ => rfl, fun hdead => (by cases hdead), fun _ => ?_⟩
    obtain ⟨queued, hmem⟩ := h.memory (by rw [live, first])
    exact ⟨queued, hmem.keep rfl rfl rfl rfl rfl rfl (fun _ _ _ owns => owns) fun _ _ _ _ _ => rfl⟩
  | join all =>
    exact ⟨h.numbered.keep rfl rfl rfl, h.ledger.keep (fun _ _ _ => Iff.rfl) rfl rfl, h.order,
      h.ends, h.exits, fun _ => all, fun hlive => (by cases hlive)⟩
  | release a job left =>
    exact ⟨h.numbered.keep rfl rfl rfl, h.ledger.keep (fun _ _ _ => Iff.rfl) rfl rfl, h.order,
      h.ends, h.exits, fun _ => h.closed (by rw [live, left]), fun hlive => (by cases hlive)⟩

theorem sound_of_reach (run : Reach step (fun _ _ => True) (poolInit n) s) : Sound s :=
  run.invariant sound_init fun _ _ _ _ sound _ hstep => sound.turn (turn_of_step hstep)

/-- Calls that come before `pool_destroy`: when a worker has exited, workers have taken their
jobs. -/
structure Drained (early : List PoolCall) (s : ThreadPool n) : Prop where
  submitted : early <+: s.submitted
  taken : ∀ {w}, s.threads w = .exited → early.length ≤ s.dequeued.length

theorem Drained.turn {early : List PoolCall} (h : Drained early s) (sound : Sound s)
    (turn : Turn s s') : Drained early s' := by
  cases turn with
  | submit => exact ⟨h.submitted, h.taken⟩
  | first => exact ⟨h.submitted.trans (List.prefix_append ..), h.taken⟩
  | next => exact ⟨h.submitted.trans (List.prefix_append ..), h.taken⟩
  | wait => exact h
  | exit w awake empty stop =>
    -- The worker has found the queue empty.
    obtain ⟨queued, hmem⟩ := sound.memory
      (sound.live_of_worker (w := w) fun heq => by cases awake.symm.trans heq)
    obtain rfl := hmem.queue.head_none.mp empty
    have horder : s.submitted = s.dequeued := hmem.order.trans (List.append_nil _)
    exact ⟨h.submitted, fun _ => horder ▸ h.submitted.length_le⟩
  | take w a job awake first there =>
    refine ⟨h.submitted, fun hw => ?_⟩
    have hlen := h.taken (exited_of_update hw fun heq => by cases heq)
    rw [List.length_append]
    omega
  | pass w a c job has there =>
    exact ⟨h.submitted, fun hw => h.taken (exited_of_update hw fun heq => by cases heq)⟩
  | free w a c has =>
    exact ⟨h.submitted, fun hw => h.taken (exited_of_update hw fun heq => by cases heq)⟩
  | stop => exact ⟨h.submitted, h.taken⟩
  | join => exact ⟨h.submitted, h.taken⟩
  | release => exact ⟨h.submitted, h.taken⟩

theorem drained_of_reach (before : Sound s) (running : s.stop = false)
    (after : Reach step (fun _ _ => True) s s') : Sound s' ∧ Drained s.submitted s' := by
  refine after.invariant (P := fun t => Sound t ∧ Drained s.submitted t)
    ⟨before, List.prefix_rfl, fun hw => ?_⟩ fun _ _ _ _ h _ hstep =>
      ⟨h.1.turn (turn_of_step hstep), h.2.turn h.1 (turn_of_step hstep)⟩
  cases running.symm.trans (before.exits hw)

/-- The calls of which workers have the jobs are passed on when no worker is left. -/
theorem Sound.passed_once (h : Sound s) (all : ∀ w, s.threads w = .exited)
    (hc : c ∈ s.dequeued) :
    c.passed ∈ s.handled ∧ (s.handled.map (·.number)).count c.number = 1 := by
  rcases h.ledger.done c hc with hpassed | ⟨w, a, hw⟩
  · exact ⟨hpassed, List.count_eq_one_of_mem h.ledger.once (List.mem_map.mpr ⟨_, hpassed, rfl⟩)⟩
  · cases (all w).symm.trans hw

/-- A worker that has not exited reads and frees only jobs that are there. -/
theorem Sound.work_isSome (h : Sound s) (hw : s.threads w ≠ .exited) : (s.work w).isSome := by
  obtain ⟨queued, hmem⟩ := h.memory (h.live_of_worker hw)
  rw [work]
  split
  · rw [poolWorker]
    split
    · rfl
    · rename_i a hhead
      have ha : a ∈ queued := List.mem_of_head? (hmem.queue.chain.head_eq ▸ hhead)
      rw [Option.isSome_map, Option.isSome_iff_ne_none]
      exact hmem.heap_ne (owns_queue ha)
  · rename_i a c hjob
    rw [Option.isSome_map, Option.isSome_iff_ne_none]
    exact hmem.heap_ne (owns_holding hjob)
  · rename_i a c hjob
    rw [Option.isSome_map, Option.isSome_iff_ne_none]
    exact hmem.heap_ne (owns_handling hjob)
  · exact absurd ‹_› hw

/-- Until `pool_destroy` comes to its last loop, `pool_submit` writes only to jobs that are
there. -/
theorem Sound.poolSubmit_isSome (h : Sound s) (hlive : s.live = true) (mine : (a, c) ∈ s.making) :
    (s.poolSubmit a c).isSome := by
  obtain ⟨queued, hmem⟩ := h.memory hlive
  have hfree : s.destroyer ≠ .freeing none := by
    intro heq
    rw [live, heq] at hlive
    cases hlive
  rw [poolSubmit, if_pos ⟨mine, hfree⟩]
  dsimp only
  split
  · rfl
  · rename_i t htail
    have ht : t ∈ queued := List.mem_of_getLast? (hmem.queue.last ▸ htail)
    rw [Option.isSome_map, Option.isSome_iff_ne_none]
    exact hmem.heap_ne (owns_queue ht)

end ThreadPool

open ThreadPool

/-- In every run, in which `s` is a state before `pool_destroy` sets `stop`: the queue is empty by
both its pointers or by neither, and until the last loop of `pool_destroy` the last node is the one
that the first leads to, and the threads find their jobs.  The jobs are taken in the order of the
calls, each once, and are passed on once at most.  Those of the calls before `stop` are passed on
when all workers have exited. -/
theorem pool_loses_nothing {n : ℕ} {s s' : ThreadPool n}
    (before : Reach step (fun _ _ => True) (poolInit n) s) (running : s.stop = false)
    (after : Reach step (fun _ _ => True) s s') :
    (s'.head = none ↔ s'.tail = none) ∧
    (s'.live = true →
      (∀ a b, s'.head = some a → s'.tail = some b →
        Reaches s'.link a b ∧ s'.link b = some none) ∧
      ∀ a c, (a, c) ∈ s'.making → (s'.step (.link a c)).isSome) ∧
    (∀ w, s'.threads w ≠ .exited → (s'.step (.work w)).isSome) ∧
    s'.dequeued <+: s'.submitted ∧ (s'.submitted.map (·.number)).Nodup ∧
    (s'.handled.map (·.number)).Nodup ∧
    (0 < n → (∀ w, s'.threads w = .exited) → ∀ c ∈ s.submitted,
      c.passed ∈ s'.handled ∧ (s'.handled.map (·.number)).count c.number = 1) := by
  obtain ⟨sound, drained⟩ := drained_of_reach (sound_of_reach before) running after
  have hnodup := sound.numbered.nodup
  rw [List.map_append, List.nodup_append] at hnodup
  refine ⟨sound.ends, fun hlive => ⟨fun a b hhead htail => ?_, fun a c mine => ?_⟩,
    fun w hw => sound.work_isSome hw, sound.order, hnodup.1, sound.ledger.once,
    fun hn all c hc => ?_⟩
  · obtain ⟨queued, hmem⟩ := sound.memory hlive
    exact (htail ▸ hhead ▸ hmem.queue : Queue s'.link (some a) (some b) queued).ends
  · exact sound.poolSubmit_isSome hlive mine
  · -- The calls before `stop` are among the first ones, all of whose jobs have been taken.
    have htaken : s.submitted <+: s'.dequeued :=
      List.prefix_of_prefix_length_le drained.submitted sound.order (drained.taken (all ⟨0, hn⟩))
    exact sound.passed_once all (htaken.subset hc)

/-- Two calls put their jobs into the queue in the other order than they have started in. -/
def poolEarly : List (PoolAction 2) :=
  [.submit 7 0 (bytes "RV 1 2 0 0"), .submit 8 0 (bytes "AE 1 2 0 0"),
    .link 8 ⟨1, 0, bytes "AE 1 2 0 0"⟩, .link 7 ⟨0, 0, bytes "RV 1 2 0 0"⟩]

/-- Then the pool is destroyed while the two workers have the jobs. -/
def poolLate : List (PoolAction 2) :=
  [.work 0, .stop, .work 1, .work 0, .work 0, .work 0, .work 1, .work 1, .work 1, .join]

theorem poolEarly_runs : (runList step (fun _ _ => true) (poolInit 2) poolEarly).isSome := by
  decide +kernel

theorem pool_loses_nothing_two : ∃ s s' : ThreadPool 2,
    Reach step (fun _ _ => True) s s' ∧ s.submitted.map (·.number) = [1, 0] ∧
    ∀ c ∈ s.submitted, c.passed ∈ s'.handled ∧ (s'.handled.map (·.number)).count c.number = 1 := by
  have before : Reach step (fun _ _ => True) (poolInit 2) (Option.get _ poolEarly_runs) :=
    reach_of_runList (fun _ _ _ => trivial) (Option.some_get poolEarly_runs).symm
  have hlate : (runList step (fun _ _ => true) (Option.get _ poolEarly_runs) poolLate).any
      (fun s' => decide (∀ w, s'.threads w = .exited)) = true := by
    decide +kernel
  obtain ⟨s', after, hs'⟩ := exists_reach (fun _ _ _ => trivial) hlate
  refine ⟨_, s', after, by decide +kernel, ?_⟩
  exact (pool_loses_nothing before (by decide +kernel) after).2.2.2.2.2.2 (by decide)
    (of_decide_eq_true hs')

/-- Two jobs come when the only worker has exited.  Then `pool_destroy` has freed the first one and
not the second one, and the pointers of the pool are as they were. -/
theorem pool_destroy_frees_head : ∃ s : ThreadPool 1,
    Reach step (fun _ _ => True) (poolInit 1) s ∧ s.head = some 7 ∧ s.tail = some 8 ∧
    ¬ Reaches s.link 7 8 := by
  have hrun : (runList step (fun _ _ => true) (poolInit 1)
      [.stop, .work 0, .submit 7 0 [], .link 7 ⟨0, 0, []⟩, .submit 8 0 [], .link 8 ⟨1, 0, []⟩,
        .join, .release]).any (fun s =>
        s.head = some 7 ∧ s.tail = some 8 ∧ s.link 7 = none) = true := by
    decide +kernel
  obtain ⟨s, run, hs⟩ := exists_reach (fun _ _ _ => trivial) hrun
  obtain ⟨hhead, htail, hlink⟩ := of_decide_eq_true hs
  refine ⟨s, run, hhead, htail, fun hreach => ?_⟩
  rcases hreach.cases_head with heq | ⟨c, hc, -⟩
  · cases heq
  · cases hlink.symm.trans hc

end RaftKv
