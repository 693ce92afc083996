import Mathlib.Logic.Function.Basic

/-! Cells in memory that a table holds: no two slots hold one cell, a slot holds only cells that are
there, and a cell that is there is held. -/

namespace OwnedCells

open Function

variable {ι α β : Type*} {table : ι → Option α} {heap : α → Option β} {i : ι} {a : α}

structure Owned (table : ι → Option α) (heap : α → Option β) : Prop where
  cell : ∀ {i a}, table i = some a → heap a ≠ none
  apart : ∀ {i j a}, table i = some a → table j = some a → i = j
  kept : ∀ {a}, heap a ≠ none → ∃ i, table i = some a

theorem owned_empty : Owned (fun _ : ι => (none : Option α)) fun _ => (none : Option β) where
  cell h := by cases h
  apart h := by cases h
  kept h := absurd rfl h

/-- A cell that is there is held by one slot. -/
theorem Owned.heap_iff (h : Owned table heap) : heap a ≠ none ↔ ∃! i, table i = some a := by
  constructor
  · intro ha
    obtain ⟨i, hi⟩ := h.kept ha
    exact ⟨i, hi, fun j hj => h.apart hj hi⟩
  · rintro ⟨i, hi, -⟩
    exact h.cell hi

/-- When no slot holds a cell, none is left in memory. -/
theorem Owned.heap_none (h : Owned table heap) (empty : ∀ i, table i = none) (a : α) :
    heap a = none := by
  by_contra ha
  obtain ⟨i, hi⟩ := h.kept ha
  rw [empty] at hi
  cases hi

variable [DecidableEq α]

/-- A held cell is written. -/
theorem Owned.write (h : Owned table heap) (held : table i = some a) (b : β) :
    Owned table (update heap a (some b)) := by
  refine ⟨fun {j c} hj => ?_, h.apart, fun {c} hc => ?_⟩
  · by_cases hca : c = a
    · rw [hca, update_self]
      exact Option.some_ne_none b
    · rw [update_of_ne hca]
      exact h.cell hj
  · by_cases hca : c = a
    · exact ⟨i, hca ▸ held⟩
    · rw [update_of_ne hca] at hc
      exact h.kept hc

variable [DecidableEq ι]

/-- A free cell goes to an empty slot. -/
theorem Owned.alloc (h : Owned table heap) (empty : table i = none) (free : heap a = none)
    (b : β) : Owned (update table i (some a)) (update heap a (some b)) := by
  have other : ∀ {j c}, table j = some c → j ≠ i ∧ c ≠ a := by
    intro j c hj
    refine ⟨?_, ?_⟩
    · rintro rfl
      cases empty.symm.trans hj
    · rintro rfl
      exact h.cell hj free
  have split : ∀ {j c}, update table i (some a) j = some c → j = i ∧ c = a ∨ table j = some c := by
    intro j c hj
    by_cases hji : j = i
    · subst hji
      rw [update_self] at hj
      exact .inl ⟨rfl, (Option.some.inj hj).symm⟩
    · rw [update_of_ne hji] at hj
      exact .inr hj
  refine ⟨?_, ?_, ?_⟩
  · intro j c hj
    rcases split hj with ⟨-, rfl⟩ | hold
    · rw [update_self]
      exact Option.some_ne_none b
    · rw [update_of_ne (other hold).2]
      exact h.cell hold
  · intro j k c hj hk
    rcases split hj with ⟨hji, hc⟩ | hj'
    · rcases split hk with ⟨hki, -⟩ | hk'
      · rw [hji, hki]
      · exact absurd hc (other hk').2
    · rcases split hk with ⟨-, hc⟩ | hk'
      · exact absurd hc (other hj').2
      · exact h.apart hj' hk'
  · intro c hc
    by_cases hca : c = a
    · exact ⟨i, by rw [update_self, hca]⟩
    · rw [update_of_ne hca] at hc
      obtain ⟨j, hj⟩ := h.kept hc
      exact ⟨j, by rw [update_of_ne (other hj).1, hj]⟩

/-- A slot gives its cell back. -/
theorem Owned.release (h : Owned table heap) (held : table i = some a) :
    Owned (update table i none) (update heap a none) := by
  have split : ∀ {j c}, update table i none j = some c → j ≠ i ∧ table j = some c := by
    intro j c hj
    by_cases hji : j = i
    · subst hji
      rw [update_self] at hj
      cases hj
    · rw [update_of_ne hji] at hj
      exact ⟨hji, hj⟩
  refine ⟨?_, ?_, ?_⟩
  · intro j c hj
    obtain ⟨hji, hj⟩ := split hj
    have hca : c ≠ a := fun heq => hji (h.apart hj (heq ▸ held))
    rw [update_of_ne hca]
    exact h.cell hj
  · intro j k c hj hk
    exact h.apart (split hj).2 (split hk).2
  · intro c hc
    by_cases hca : c = a
    · rw [hca, update_self] at hc
      exact absurd rfl hc
    · rw [update_of_ne hca] at hc
      obtain ⟨j, hj⟩ := h.kept hc
      refine ⟨j, ?_⟩
      rw [update_of_ne, hj]
      rintro rfl
      exact hca (Option.some.inj (hj.symm.trans held))

end OwnedCells
