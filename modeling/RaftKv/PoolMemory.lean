import RaftKv.Pool
import RaftKv.LinkedQueue

/-! The jobs of the pool in memory: each belongs to a call of `pool_submit`, to the queue or to one
worker, and is what its call has made it. -/

namespace RaftKv

open Function LinkedQueue

namespace ThreadPool

variable {n : ℕ} {s s' : ThreadPool n}

/-- Who a job can belong to: a call of `pool_submit`, the queue or a worker. -/
inductive Owner (n : ℕ)
  | caller (c : PoolCall)
  | queue
  | worker (w : Fin n)

/-- The job at `a`, which is of the call `c`, belongs to an owner. -/
def Owns (s : ThreadPool n) (queued : List ℕ) : Owner n → ℕ → PoolCall → Prop
  | .caller d, a, c => (a, c) ∈ s.making ∧ c = d
  | .queue, a, c => a ∈ queued ∧ c = s.origin a
  | .worker w, a, c => s.threads w = .holding a c ∨ s.threads w = .handling a c

variable {queued queued' : List ℕ} {o o' : Owner n} {w : Fin n} {a b t : ℕ} {c d : PoolCall}
  {job : ThreadJob}

/-- What is in memory until `pool_destroy` comes to its last loop. -/
structure Memory (s : ThreadPool n) (queued : List ℕ) : Prop where
  queue : Queue s.link s.head s.tail queued
  sole : ∀ {o o' a c c'}, Owns s queued o a c → Owns s queued o' a c' → o = o'
  cell : ∀ {o a c}, Owns s queued o a c →
    ∃ next, s.heap a = some ⟨copyText raftMaxLine c.line, c.node, next⟩
  fresh : ∀ {a c}, (a, c) ∈ s.making → s.link a = some none
  order : s.submitted = s.dequeued ++ queued.map s.origin

theorem link_eq {a : ℕ} (h : s'.heap a = s.heap a) : s'.link a = s.link a :=
  congrArg (Option.map ThreadJob.next) h

theorem owns_caller (h : (a, c) ∈ s.making) : Owns s queued (.caller c) a c := ⟨h, rfl⟩

theorem owns_queue (h : a ∈ queued) : Owns s queued .queue a (s.origin a) := ⟨h, rfl⟩

theorem owns_holding (h : s.threads w = .holding a c) : Owns s queued (.worker w) a c := .inl h

theorem owns_handling (h : s.threads w = .handling a c) : Owns s queued (.worker w) a c := .inr h

theorem Memory.heap_ne (h : Memory s queued) (owns : Owns s queued o a c) : s.heap a ≠ none := by
  obtain ⟨next, hcell⟩ := h.cell owns
  rw [hcell]
  exact Option.some_ne_none _

/-- No job has two owners after only the one at `a` has got a new owner. -/
theorem Memory.sole_after (h : Memory s queued)
    (one : ∀ {p b c}, Owns s' queued' p b c → b = a ∧ p = o ∨ b ≠ a ∧ ∃ d, Owns s queued p b d)
    {p q : Owner n} {b : ℕ} {c d : PoolCall} (hp : Owns s' queued' p b c)
    (hq : Owns s' queued' q b d) : p = q := by
  rcases one hp with ⟨hb, rfl⟩ | ⟨hb, c', hp'⟩
  · rcases one hq with ⟨-, rfl⟩ | ⟨hne, -⟩
    · rfl
    · exact absurd hb hne
  · rcases one hq with ⟨heq, -⟩ | ⟨-, d', hq'⟩
    · exact absurd heq hb
    · exact h.sole hp' hq'

/-- The owner of the job at `a` has no second job there, and nobody else has it. -/
theorem Memory.ne_of_owner (h : Memory s queued) (mine : Owns s queued o a c)
    (owns : Owns s queued o' b d) (other : o' ≠ o) : b ≠ a := by
  rintro rfl
  exact other (h.sole owns mine)

theorem Memory.not_queued (h : Memory s queued) (mine : (a, c) ∈ s.making) : a ∉ queued :=
  fun hmem => h.ne_of_owner (owns_caller mine) (owns_queue hmem) (fun heq => by cases heq) rfl

theorem owns_made (making : s'.making = (a, d) :: s.making) (threads : s'.threads = s.threads)
    (origin : s'.origin = s.origin) (owns : Owns s' queued o b c) :
    b = a ∧ c = d ∧ o = .caller d ∨ Owns s queued o b c := by
  cases o with
  | caller e =>
    obtain ⟨hmem, rfl⟩ := owns
    rw [making] at hmem
    rcases List.mem_cons.mp hmem with heq | hmem
    · obtain ⟨rfl, rfl⟩ := Prod.mk.inj heq
      exact .inl ⟨rfl, rfl, rfl⟩
    · exact .inr ⟨hmem, rfl⟩
  | queue => exact .inr ⟨owns.1, origin ▸ owns.2⟩
  | worker w =>
    rw [Owns, threads] at owns
    exact .inr owns

/-- A call of `pool_submit` gets its job, which was nobody's. -/
theorem Memory.made (h : Memory s queued) (free : s.heap a = none)
    (heap : s'.heap = update s.heap a (some ⟨copyText raftMaxLine c.line, c.node, none⟩))
    (making : s'.making = (a, c) :: s.making) (threads : s'.threads = s.threads)
    (origin : s'.origin = s.origin) (head : s'.head = s.head) (tail : s'.tail = s.tail)
    (submitted : s'.submitted = s.submitted) (dequeued : s'.dequeued = s.dequeued) :
    Memory s' queued := by
  have other : ∀ {o b d}, Owns s queued o b d → b ≠ a :=
    fun owns heq => h.heap_ne owns (heq ▸ free)
  have same : ∀ {o b d}, Owns s queued o b d → s'.heap b = s.heap b := fun owns => by
    rw [heap, update_of_ne (other owns)]
  have new : s'.heap a = some ⟨copyText raftMaxLine c.line, c.node, none⟩ := by
    rw [heap, update_self]
  refine ⟨?_, ?_, ?_, ?_, ?_⟩
  · rw [head, tail]
    exact h.queue.congr fun b hb => link_eq (same (owns_queue hb))
  · refine h.sole_after (a := a) (o := .caller c) fun owns => ?_
    rcases owns_made making threads origin owns with ⟨hb, -, hp⟩ | old
    · exact .inl ⟨hb, hp⟩
    · exact .inr ⟨other old, _, old⟩
  · intro p b d owns
    rcases owns_made making threads origin owns with ⟨rfl, rfl, -⟩ | old
    · exact ⟨none, new⟩
    · obtain ⟨next, hcell⟩ := h.cell old
      exact ⟨next, (same old).trans hcell⟩
  · intro b d hmem
    rw [making] at hmem
    rcases List.mem_cons.mp hmem with heq | hmem
    · obtain ⟨rfl, rfl⟩ := Prod.mk.inj heq
      exact congrArg (Option.map ThreadJob.next) new
    · exact (link_eq (same (owns_caller hmem))).trans (h.fresh hmem)
  · rw [submitted, dequeued, origin]
    exact h.order

theorem owns_linked (h : Memory s queued) (mine : (a, c) ∈ s.making) (nodup : s.making.Nodup)
    (making : s'.making = s.making.erase (a, c)) (threads : s'.threads = s.threads)
    (origin : s'.origin = update s.origin a c) (owns : Owns s' (queued ++ [a]) o b d) :
    b = a ∧ d = c ∧ o = .queue ∨ b ≠ a ∧ Owns s queued o b d := by
  have mine' : Owns s queued (.caller c) a c := owns_caller mine
  cases o with
  | caller e =>
    obtain ⟨hmem, rfl⟩ := owns
    rw [making] at hmem
    have old : Owns s queued (.caller d) b d := owns_caller (List.mem_of_mem_erase hmem)
    refine .inr ⟨?_, old⟩
    rintro rfl
    obtain rfl := Owner.caller.inj (h.sole old mine')
    exact (nodup.mem_erase_iff.mp hmem).1 rfl
  | queue =>
    obtain ⟨hmem, hd⟩ := owns
    rw [origin] at hd
    rcases List.mem_append.mp hmem with hmem | hmem
    · have hne : b ≠ a := fun heq => h.not_queued mine (heq ▸ hmem)
      rw [update_of_ne hne] at hd
      exact .inr ⟨hne, hmem, hd⟩
    · obtain rfl := List.mem_singleton.mp hmem
      rw [update_self] at hd
      exact .inl ⟨rfl, hd, rfl⟩
  | worker w =>
    rw [Owns, threads] at owns
    have old : Owns s queued (.worker w) b d := owns
    exact .inr ⟨h.ne_of_owner mine' old (fun heq => by cases heq), old⟩

/-- What the two cases of the section of `pool_submit` have in common. -/
theorem Memory.linked (h : Memory s queued) (mine : (a, c) ∈ s.making) (nodup : s.making.Nodup)
    (making : s'.making = s.making.erase (a, c)) (threads : s'.threads = s.threads)
    (origin : s'.origin = update s.origin a c) (submitted : s'.submitted = s.submitted ++ [c])
    (dequeued : s'.dequeued = s.dequeued)
    (queue : Queue s'.link s'.head s'.tail (queued ++ [a]))
    (heap : ∀ b job, s.heap b = some job → ∃ next, s'.heap b = some { job with next := next })
    (same : ∀ b ∉ queued, s'.heap b = s.heap b) : Memory s' (queued ++ [a]) := by
  refine ⟨queue, ?_, ?_, ?_, ?_⟩
  · refine h.sole_after (a := a) (o := .queue) fun owns => ?_
    rcases owns_linked h mine nodup making threads origin owns with ⟨hb, -, hp⟩ | ⟨hne, old⟩
    · exact .inl ⟨hb, hp⟩
    · exact .inr ⟨hne, _, old⟩
  · intro p b d owns
    have ⟨q, old⟩ : ∃ q, Owns s queued q b d := by
      rcases owns_linked h mine nodup making threads origin owns with ⟨rfl, rfl, -⟩ | ⟨-, old⟩
      · exact ⟨.caller d, mine, rfl⟩
      · exact ⟨p, old⟩
    obtain ⟨next, hcell⟩ := h.cell old
    exact heap b _ hcell
  · intro b d hmem
    have old : (b, d) ∈ s.making := List.mem_of_mem_erase (making ▸ hmem)
    exact (link_eq (same b (h.not_queued old))).trans (h.fresh old)
  · have hmap : queued.map s'.origin = queued.map s.origin := List.map_congr_left fun b hb => by
      have hne : b ≠ a := fun heq => h.not_queued mine (heq ▸ hb)
      rw [origin, update_of_ne hne]
    rw [submitted, dequeued, h.order, List.map_append, hmap, List.map_singleton, origin,
      update_self, List.append_assoc]

theorem Memory.first (h : Memory s queued) (mine : (a, c) ∈ s.making) (nodup : s.making.Nodup)
    (empty : s.tail = none) : Memory { s with
      making := s.making.erase (a, c)
      origin := update s.origin a c
      submitted := s.submitted ++ [c]
      head := some a
      tail := some a } (queued ++ [a]) := by
  obtain rfl := h.queue.tail_none.mp empty
  refine h.linked mine nodup rfl rfl rfl rfl rfl ?_ (fun b job hb => ⟨job.next, hb⟩) fun b _ => rfl
  exact .single (h.fresh mine)

theorem Memory.next (h : Memory s queued) (mine : (a, c) ∈ s.making) (nodup : s.making.Nodup)
    (last : s.tail = some t) (there : s.heap t = some job) : Memory { s with
      making := s.making.erase (a, c)
      origin := update s.origin a c
      submitted := s.submitted ++ [c]
      heap := update s.heap t (some { job with next := some a })
      tail := some a } (queued ++ [a]) := by
  have ht : t ∈ queued := List.mem_of_getLast? (h.queue.last ▸ last)
  have hta : a ≠ t := fun heq => h.not_queued mine (heq ▸ ht)
  have new := update_self t (some { job with next := some a }) s.heap
  have same : ∀ b, b ≠ t → update s.heap t (some { job with next := some a }) b = s.heap b :=
    fun b hb => update_of_ne hb ..
  refine h.linked mine nodup rfl rfl rfl rfl rfl ?_ (fun b old hb => ?_) fun b hb => ?_
  · refine Queue.push (last ▸ h.queue) (h.not_queued mine) (fun b _ hne => ?_) ?_ ?_
    · exact link_eq (same b hne)
    · exact congrArg (Option.map ThreadJob.next) new
    · exact (link_eq (same a hta)).trans (h.fresh mine)
  · by_cases hbt : b = t
    · subst hbt
      obtain rfl := Option.some.inj (hb.symm.trans there)
      exact ⟨some a, new⟩
    · exact ⟨old.next, (same b hbt).trans hb⟩
  · refine same b ?_
    rintro rfl
    exact hb ht

theorem owns_taken (h : Memory s (a :: queued)) (making : s'.making = s.making)
    (origin : s'.origin = s.origin)
    (threads : s'.threads = update s.threads w (.holding a (s.origin a)))
    (owns : Owns s' queued o b d) :
    b = a ∧ d = s.origin a ∧ o = .worker w ∨ b ≠ a ∧ Owns s (a :: queued) o b d := by
  have mine : Owns s (a :: queued) .queue a (s.origin a) := owns_queue List.mem_cons_self
  cases o with
  | caller e =>
    have old : Owns s (a :: queued) (.caller e) b d := ⟨making ▸ owns.1, owns.2⟩
    exact .inr ⟨h.ne_of_owner mine old (fun heq => by cases heq), old⟩
  | queue =>
    refine .inr ⟨?_, List.mem_cons_of_mem a owns.1, origin ▸ owns.2⟩
    rintro rfl
    exact (List.nodup_cons.mp h.queue.nodup).1 owns.1
  | worker w' =>
    rw [Owns, threads] at owns
    by_cases hw : w' = w
    · subst hw
      rw [update_self] at owns
      rcases owns with hjob | hjob
      · obtain ⟨rfl, rfl⟩ := Worker.holding.inj hjob
        exact .inl ⟨rfl, rfl, rfl⟩
      · cases hjob
    · rw [update_of_ne hw] at owns
      have old : Owns s (a :: queued) (.worker w') b d := owns
      exact .inr ⟨h.ne_of_owner mine old (fun heq => by cases heq), old⟩

/-- A worker takes the first job. -/
theorem Memory.taken (h : Memory s queued) (first : s.head = some a) (there : s.heap a = some job)
    (head : s'.head = job.next) (tail : s'.tail = if job.next = none then none else s.tail)
    (threads : s'.threads = update s.threads w (.holding a (s.origin a)))
    (heap : s'.heap = s.heap) (making : s'.making = s.making) (origin : s'.origin = s.origin)
    (submitted : s'.submitted = s.submitted)
    (dequeued : s'.dequeued = s.dequeued ++ [s.origin a]) :
    ∃ rest, queued = a :: rest ∧ Memory s' rest := by
  obtain ⟨q, rest, rfl, hlink, hqueue⟩ := Queue.pop (first ▸ h.queue)
  have link : s'.link = s.link := funext fun b => link_eq (congrFun heap b)
  obtain rfl : job.next = q := by
    rw [ThreadPool.link, there] at hlink
    exact Option.some.inj hlink
  refine ⟨rest, rfl, ?_, ?_, ?_, ?_, ?_⟩
  · rw [link, head, tail]
    exact hqueue
  · refine h.sole_after (a := a) (o := .worker w) fun owns => ?_
    rcases owns_taken h making origin threads owns with ⟨hb, -, hp⟩ | ⟨hne, old⟩
    · exact .inl ⟨hb, hp⟩
    · exact .inr ⟨hne, _, old⟩
  · intro p b d owns
    rw [heap]
    rcases owns_taken h making origin threads owns with ⟨rfl, rfl, -⟩ | ⟨-, old⟩
    · exact h.cell (owns_queue List.mem_cons_self)
    · exact h.cell old
  · rw [link, making]
    exact h.fresh
  · rw [submitted, dequeued, origin, h.order, List.append_assoc]
    rfl

/-- Nobody gets a job, and the jobs that still belong to somebody stay as they are. -/
theorem Memory.keep (h : Memory s queued) (making : s'.making = s.making)
    (origin : s'.origin = s.origin) (head : s'.head = s.head) (tail : s'.tail = s.tail)
    (submitted : s'.submitted = s.submitted) (dequeued : s'.dequeued = s.dequeued)
    (workers : ∀ w b d, Owns s' queued (.worker w) b d → Owns s queued (.worker w) b d)
    (same : ∀ p b d, Owns s queued p b d → Owns s' queued p b d → s'.heap b = s.heap b) :
    Memory s' queued := by
  have old : ∀ {p b d}, Owns s' queued p b d → Owns s queued p b d := by
    intro p b d owns
    cases p with
    | caller e => exact ⟨making ▸ owns.1, owns.2⟩
    | queue => exact ⟨owns.1, origin ▸ owns.2⟩
    | worker w => exact workers w b d owns
  refine ⟨?_, fun hp hq => h.sole (old hp) (old hq), ?_, ?_, ?_⟩
  · rw [head, tail]
    exact h.queue.congr fun b hb => link_eq (same .queue b _ ⟨hb, rfl⟩ ⟨hb, origin ▸ rfl⟩)
  · intro p b d owns
    rw [same p b d (old owns) owns]
    exact h.cell (old owns)
  · intro b d hmem
    have hold : (b, d) ∈ s.making := making ▸ hmem
    exact (link_eq (same (.caller d) b d ⟨hold, rfl⟩ ⟨hmem, rfl⟩)).trans (h.fresh hold)
  · rw [submitted, dequeued, origin]
    exact h.order

theorem owns_turned {turn : Worker} (threads : s'.threads = update s.threads w turn)
    (own : ∀ b d, turn = .holding b d ∨ turn = .handling b d → Owns s queued (.worker w) b d)
    (w' : Fin n) (b : ℕ) (d : PoolCall) (owns : Owns s' queued (.worker w') b d) :
    Owns s queued (.worker w') b d := by
  rw [Owns, threads] at owns
  by_cases hw : w' = w
  · subst hw
    rw [update_self] at owns
    exact own b d owns
  · rwa [update_of_ne hw] at owns

/-- A worker frees the job that it has passed on, which nobody else has. -/
theorem Memory.freed (h : Memory s queued) (has : s.threads w = .handling a c)
    (heap : s'.heap = update s.heap a none) (threads : s'.threads = update s.threads w .waiting)
    (making : s'.making = s.making) (origin : s'.origin = s.origin) (head : s'.head = s.head)
    (tail : s'.tail = s.tail) (submitted : s'.submitted = s.submitted)
    (dequeued : s'.dequeued = s.dequeued) : Memory s' queued := by
  refine h.keep making origin head tail submitted dequeued
    (owns_turned threads fun b d hturn => by rcases hturn with hturn | hturn <;> cases hturn)
    fun p b d old owns => ?_
  have hne : b ≠ a := by
    rintro rfl
    obtain rfl := h.sole old (owns_handling has)
    rw [Owns, threads, update_self] at owns
    rcases owns with hturn | hturn <;> cases hturn
  rw [heap, update_of_ne hne]

end ThreadPool

end RaftKv
