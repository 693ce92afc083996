import Mathlib.Data.List.Basic

/-! Lists cut into segments at a separator: the segments that a separator ends, and what follows
the last separator, which a continuation of the list may still extend. -/

namespace Segments

universe u

variable {α : Type u} [DecidableEq α] (sep : α)

/-- The segments that end with the separator, without it. -/
def terminated (xs : List α) : List (List α) := (xs.splitOn sep).dropLast

/-- What follows the last separator. -/
def unterminated (xs : List α) : List α :=
  (xs.splitOn sep).getLast (List.splitOn_ne_nil sep xs)

/-- A property of every list holds if it holds of the lists without the separator and a segment
may be put before a list. -/
theorem induction {motive : List α → Prop} (last : ∀ xs, sep ∉ xs → motive xs)
    (cons : ∀ xs ys, sep ∉ xs → motive ys → motive (xs ++ sep :: ys)) (zs : List α) :
    motive zs := by
  by_cases h : sep ∈ zs
  · obtain ⟨xs, ys, hzs, hxs⟩ := List.eq_append_cons_of_mem h
    have : ys.length < zs.length := by simp [hzs]; omega
    rw [hzs]
    exact cons xs ys hxs (induction last cons ys)
  · exact last zs h
termination_by zs.length

variable {sep}

theorem terminated_of_not_mem {xs : List α} (h : sep ∉ xs) : terminated sep xs = [] := by
  simp [terminated, List.splitOn_eq_singleton h]

theorem unterminated_of_not_mem {xs : List α} (h : sep ∉ xs) : unterminated sep xs = xs := by
  simp [unterminated, List.splitOn_eq_singleton h]

theorem terminated_append_cons {xs : List α} (h : sep ∉ xs) (ys : List α) :
    terminated sep (xs ++ sep :: ys) = xs :: terminated sep ys := by
  rw [terminated, List.splitOn_append_cons_self_of_not_mem h,
    List.dropLast_cons_of_ne_nil (List.splitOn_ne_nil sep ys), terminated]

theorem unterminated_append_cons {xs : List α} (h : sep ∉ xs) (ys : List α) :
    unterminated sep (xs ++ sep :: ys) = unterminated sep ys := by
  simp only [unterminated, List.splitOn_append_cons_self_of_not_mem h]
  exact List.getLast_cons (List.splitOn_ne_nil sep ys)

theorem splitOn_eq (xs : List α) :
    xs.splitOn sep = terminated sep xs ++ [unterminated sep xs] :=
  (List.dropLast_append_getLast _).symm

theorem not_mem_unterminated (xs : List α) : sep ∉ unterminated sep xs := by
  induction xs using Segments.induction sep with
  | last xs h => rwa [unterminated_of_not_mem h]
  | cons xs ys h ih => rwa [unterminated_append_cons h]

/-- The segments of a list that comes in two parts: the second part extends the last segment of
the first. -/
theorem terminated_append (xs ys : List α) :
    terminated sep (xs ++ ys) =
      terminated sep xs ++ terminated sep (unterminated sep xs ++ ys) := by
  induction xs using Segments.induction sep with
  | last xs h => rw [terminated_of_not_mem h, unterminated_of_not_mem h, List.nil_append]
  | cons xs zs h ih =>
    rw [List.append_assoc, List.cons_append, terminated_append_cons h, ih,
      terminated_append_cons h, unterminated_append_cons h, List.cons_append]

theorem unterminated_append (xs ys : List α) :
    unterminated sep (xs ++ ys) = unterminated sep (unterminated sep xs ++ ys) := by
  induction xs using Segments.induction sep with
  | last xs h => rw [unterminated_of_not_mem h]
  | cons xs zs h ih =>
    rw [List.append_assoc, List.cons_append, unterminated_append_cons h, ih,
      unterminated_append_cons h]

theorem splitOn_append (xs ys : List α) :
    (xs ++ ys).splitOn sep = terminated sep xs ++ (unterminated sep xs ++ ys).splitOn sep := by
  rw [splitOn_eq, terminated_append, unterminated_append, List.append_assoc, ← splitOn_eq]

/-- A list without the separator begins the first segment of what continues it. -/
theorem splitOn_extend {xs : List α} (h : sep ∉ xs) (ys : List α) :
    ∃ segment rest, (xs ++ ys).splitOn sep = (xs ++ segment) :: rest := by
  by_cases hy : sep ∈ ys
  · obtain ⟨segment, rest, rfl, hs⟩ := List.eq_append_cons_of_mem hy
    refine ⟨segment, rest.splitOn sep, ?_⟩
    rw [← List.append_assoc, List.splitOn_append_cons_self_of_not_mem (by simp [h, hs])]
  · exact ⟨ys, [], List.splitOn_eq_singleton (by simp [h, hy])⟩

theorem length_unterminated_le (xs : List α) : (unterminated sep xs).length ≤ xs.length := by
  induction xs using Segments.induction sep with
  | last xs h => exact Nat.le_of_eq (congrArg List.length (unterminated_of_not_mem h))
  | cons xs ys h ih =>
    rw [unterminated_append_cons h]
    simp only [List.length_append, List.length_cons]
    omega

theorem length_lt_of_mem {xs segment : List α} (h : segment ∈ terminated sep xs) :
    segment.length < xs.length := by
  induction xs using Segments.induction sep with
  | last xs hx => rw [terminated_of_not_mem hx] at h; cases h
  | cons xs ys hx ih =>
    rw [terminated_append_cons hx, List.mem_cons] at h
    rcases h with rfl | h
    · simp
    · have := ih h
      simp only [List.length_append, List.length_cons]
      omega

end Segments
