import Mathlib.Data.List.Nodup
import Mathlib.Logic.Relation

/-! Queues made of nodes that point to the next one, with a pointer to the first node and one to the
last.  `link a` is the pointer in the node at `a`, when there is a node. -/

namespace LinkedQueue

variable {α : Type*} {link link' : α → Option (Option α)} {p q head tail : Option α} {a b : α}
  {as : List α}

/-- The nodes from a pointer on to the end of the chain. -/
def Chain (link : α → Option (Option α)) : Option α → List α → Prop
  | p, [] => p = none
  | p, a :: as => p = some a ∧ ∃ q, link a = some q ∧ Chain link q as

/-- The node at `b` comes after the one at `a`, or is the same. -/
def Reaches (link : α → Option (Option α)) : α → α → Prop :=
  Relation.ReflTransGen fun a b => link a = some (some b)

/-- The nodes of a queue, from the first to the last. -/
structure Queue (link : α → Option (Option α)) (head tail : Option α) (as : List α) : Prop where
  chain : Chain link head as
  last : tail = as.getLast?
  nodup : as.Nodup

/-! ### Chains -/

theorem Chain.congr (h : Chain link p as) (same : ∀ a ∈ as, link' a = link a) :
    Chain link' p as := by
  induction as generalizing p with
  | nil => exact h
  | cons a as ih =>
    obtain ⟨hp, q, hq, hrest⟩ := h
    exact ⟨hp, q, (same a List.mem_cons_self).trans hq,
      ih hrest fun b hb => same b (List.mem_cons_of_mem a hb)⟩

theorem Chain.head_eq (h : Chain link p as) : p = as.head? := by
  cases as with
  | nil => exact h
  | cons a as => exact h.1

/-- The end of a chain can be linked to one more node. -/
theorem Chain.concat (h : Chain link p (as ++ [a])) (nodup : (as ++ [a]).Nodup)
    (same : ∀ c ∈ as, link' c = link c) (ha : link' a = some (some b))
    (hb : link' b = some none) : Chain link' p (as ++ [a, b]) := by
  induction as generalizing p with
  | nil => exact ⟨h.1, some b, ha, rfl, none, hb, rfl⟩
  | cons c as ih =>
    obtain ⟨hp, q, hq, hrest⟩ := h
    rw [List.cons_append, List.nodup_cons] at nodup
    exact ⟨hp, q, (same c List.mem_cons_self).trans hq,
      ih hrest nodup.2 fun d hd => same d (List.mem_cons_of_mem c hd)⟩

/-- From its first node a chain reaches its last one, which has no next. -/
theorem Chain.reaches (h : Chain link (some a) as) (last : as.getLast? = some b) :
    Reaches link a b ∧ link b = some none := by
  induction as generalizing a with
  | nil => cases last
  | cons c as ih =>
    obtain ⟨hp, q, hq, hrest⟩ := h
    obtain rfl := Option.some.inj hp
    cases as with
    | nil =>
      obtain rfl := Option.some.inj last
      obtain rfl : q = none := hrest
      exact ⟨.refl, hq⟩
    | cons d as =>
      obtain rfl := hrest.1
      obtain ⟨hreach, hend⟩ := ih hrest (List.getLast?_cons_cons ▸ last)
      exact ⟨.head hq hreach, hend⟩

/-! ### Queues -/

theorem Queue.empty : Queue link none none [] := ⟨rfl, rfl, List.nodup_nil⟩

theorem Queue.congr (h : Queue link head tail as) (same : ∀ a ∈ as, link' a = link a) :
    Queue link' head tail as :=
  ⟨h.chain.congr same, h.last, h.nodup⟩

theorem Queue.head_none (h : Queue link head tail as) : head = none ↔ as = [] := by
  rw [h.chain.head_eq, List.head?_eq_none_iff]

theorem Queue.tail_none (h : Queue link head tail as) : tail = none ↔ as = [] := by
  rw [h.last, List.getLast?_eq_none_iff]

/-- The last node is the one that the first one leads to. -/
theorem Queue.ends (h : Queue link (some a) (some b) as) : Reaches link a b ∧ link b = some none :=
  h.chain.reaches h.last.symm

/-- The first node of an empty queue. -/
theorem Queue.single (ha : link a = some none) : Queue link (some a) (some a) [a] :=
  ⟨⟨rfl, none, ha, rfl⟩, rfl, List.nodup_singleton a⟩

/-- A node comes in at the end. -/
theorem Queue.push (h : Queue link head (some a) as) (new : b ∉ as)
    (same : ∀ c ∈ as, c ≠ a → link' c = link c) (ha : link' a = some (some b))
    (hb : link' b = some none) : Queue link' head (some b) (as ++ [b]) := by
  obtain ⟨init, rfl⟩ := List.getLast?_eq_some_iff.mp h.last.symm
  have hnodup := h.nodup
  refine ⟨?_, by rw [List.getLast?_concat], ?_⟩
  · rw [List.append_assoc]
    refine h.chain.concat hnodup (fun c hc => ?_) ha hb
    rw [List.nodup_append] at hnodup
    exact same c (List.mem_append_left _ hc) (hnodup.2.2 c hc a (List.mem_singleton_self a))
  · rw [List.nodup_append]
    refine ⟨hnodup, List.nodup_singleton b, fun c hc d hd => ?_⟩
    rw [List.mem_singleton.mp hd]
    exact fun heq => new (heq ▸ hc)

/-- The first node goes, and the last pointer is cleared with it when it was the only one. -/
theorem Queue.pop (h : Queue link (some a) tail as) : ∃ q rest, as = a :: rest ∧
    link a = some q ∧ Queue link q (if q = none then none else tail) rest := by
  cases as with
  | nil => cases h.chain
  | cons c rest =>
    obtain ⟨hp, q, hq, hrest⟩ := h.chain
    obtain rfl := Option.some.inj hp
    refine ⟨q, rest, rfl, hq, hrest, ?_, (List.nodup_cons.mp h.nodup).2⟩
    rw [h.last]
    cases rest with
    | nil => exact if_pos hrest
    | cons d rest =>
      rw [hrest.1, if_neg (Option.some_ne_none d), List.getLast?_cons_cons]

end LinkedQueue
