import Mathlib.Data.List.ReduceOption
import Mathlib.Logic.Function.Basic

/-! A map kept in slots.  A slot is free or holds a key with its value, no key is in two slots, and
slots are freed and used again in place. -/

namespace Slots

open Function

variable {K V : Type*} {slots : List (Option (K × V))} {i : ℕ} {k : K} {v w : V}

/-- No key is in two slots. -/
def Distinct (slots : List (Option (K × V))) : Prop :=
  ∀ (i j : ℕ) (k : K) (v w : V),
    slots[i]? = some (some (k, v)) → slots[j]? = some (some (k, w)) → i = j

theorem distinct_replicate (n : ℕ) : Distinct (List.replicate n (none : Option (K × V))) := by
  intro i j k v w hi _
  rw [List.getElem?_replicate] at hi
  split at hi
  · cases Option.some.inj hi
  · cases hi

/-- A slot that only it can hold takes the key. -/
theorem Distinct.set (h : Distinct slots)
    (only : ∀ (j : ℕ) (u : V), slots[j]? = some (some (k, u)) → j = i) :
    Distinct (slots.set i (some (k, v))) := by
  intro a b c x y ha hb
  rw [List.getElem?_set] at ha hb
  split at ha <;> split at hb
  · rename_i hia hib
    exact hia.symm.trans hib
  · rename_i hia hib
    split at ha
    · obtain ⟨rfl, -⟩ := Prod.mk.inj (Option.some.inj (Option.some.inj ha))
      exact hia.symm.trans (only b y hb).symm
    · cases ha
  · rename_i hia hib
    split at hb
    · obtain ⟨rfl, -⟩ := Prod.mk.inj (Option.some.inj (Option.some.inj hb))
      exact (only a x ha).trans hib
    · cases hb
  · exact h a b c x y ha hb

theorem Distinct.clear (h : Distinct slots) : Distinct (slots.set i none) := by
  have held : ∀ {j : ℕ} {p : K × V}, (slots.set i none)[j]? = some (some p) →
      slots[j]? = some (some p) := by
    intro j p hj
    rw [List.getElem?_set] at hj
    split at hj
    · split at hj <;> cases hj
    · exact hj
  exact fun a b c x y ha hb => h a b c x y (held ha) (held hb)

theorem Distinct.tail {slot : Option (K × V)} (h : Distinct (slot :: slots)) : Distinct slots :=
  fun i j k v w hi hj => Nat.succ.inj (h (i + 1) (j + 1) k v w hi hj)

/-- Each key is once in the pairs that the slots hold. -/
theorem Distinct.nodup_keys (h : Distinct slots) : (slots.reduceOption.map Prod.fst).Nodup := by
  induction slots with
  | nil => exact List.nodup_nil
  | cons slot slots ih =>
    cases slot with
    | none => exact ih h.tail
    | some p =>
      rw [List.reduceOption_cons_of_some, List.map_cons, List.nodup_cons]
      refine ⟨fun hmem => ?_, ih h.tail⟩
      obtain ⟨q, hq, hkey⟩ := List.mem_map.mp hmem
      obtain ⟨j, hj⟩ := List.mem_iff_getElem?.mp (List.reduceOption_mem_iff.mp hq)
      have hfirst : (some p :: slots)[0]? = some (some (q.1, p.2)) := by rw [hkey]; rfl
      exact absurd (h 0 (j + 1) q.1 p.2 q.2 hfirst hj) (Nat.succ_ne_zero j).symm

variable [DecidableEq K]

/-- The value of a key, from the first slot that holds it. -/
def lookup (slots : List (Option (K × V))) (k : K) : Option V :=
  slots.findSome? fun slot => slot.bind fun p => if p.1 = k then some p.2 else none

theorem held_eq_some {slot : Option (K × V)} :
    (slot.bind fun p => if p.1 = k then some p.2 else none) = some v ↔ slot = some (k, v) := by
  cases slot with
  | none => simp
  | some p =>
    rw [Option.bind_some]
    constructor
    · intro h
      split at h
      · rename_i hk
        rw [← hk, ← Option.some.inj h]
      · cases h
    · intro h
      rw [Option.some.inj h, if_pos rfl]

theorem lookup_eq_none :
    lookup slots k = none ↔ ∀ (j : ℕ) (u : V), slots[j]? ≠ some (some (k, u)) := by
  rw [lookup, List.findSome?_eq_none_iff]
  constructor
  · intro h j u hj
    have hslot := h _ (List.mem_of_getElem? hj)
    rw [held_eq_some.mpr rfl] at hslot
    cases hslot
  · intro h slot hslot
    obtain ⟨j, hj⟩ := List.mem_iff_getElem?.mp hslot
    by_contra hne
    obtain ⟨u, hu⟩ := Option.ne_none_iff_exists'.mp hne
    exact h j u (hj.trans (congrArg some (held_eq_some.mp hu)))

theorem lookup_eq_some (h : Distinct slots) :
    lookup slots k = some v ↔ ∃ j : ℕ, slots[j]? = some (some (k, v)) := by
  constructor
  · intro hv
    obtain ⟨slot, hmem, hslot⟩ := List.exists_of_findSome?_eq_some hv
    obtain ⟨j, hj⟩ := List.mem_iff_getElem?.mp hmem
    exact ⟨j, hj.trans (congrArg some (held_eq_some.mp hslot))⟩
  · rintro ⟨j, hj⟩
    cases hu : lookup slots k with
    | none => exact absurd hj (lookup_eq_none.mp hu j v)
    | some u =>
      obtain ⟨slot, hmem, hslot⟩ := List.exists_of_findSome?_eq_some hu
      obtain ⟨m, hm⟩ := List.mem_iff_getElem?.mp hmem
      rw [held_eq_some.mp hslot] at hm
      obtain rfl := h j m k v u hj hm
      exact congrArg some (Prod.mk.inj (Option.some.inj (Option.some.inj (hm.symm.trans hj)))).2

/-- The pairs that the slots hold are those of the map. -/
theorem mem_pairs (h : Distinct slots) : (k, v) ∈ slots.reduceOption ↔ lookup slots k = some v := by
  rw [lookup_eq_some h, List.reduceOption_mem_iff, List.mem_iff_getElem?]

/-- Writing a key to its own slot, or to a slot that was free, writes it in the map. -/
theorem lookup_set (h : Distinct slots) (hi : i < slots.length)
    (only : ∀ (j : ℕ) (u : V), slots[j]? = some (some (k, u)) → j = i)
    (mine : ∀ p, slots[i]? = some (some p) → p.1 = k) :
    lookup (slots.set i (some (k, v))) = update (lookup slots) k (some v) := by
  funext c
  apply Option.ext
  intro u
  rw [lookup_eq_some (h.set only)]
  by_cases hc : c = k
  · subst hc
    rw [update_self]
    constructor
    · rintro ⟨j, hj⟩
      rw [List.getElem?_set] at hj
      split at hj
      · exact congrArg some (Prod.mk.inj (Option.some.inj (Option.some.inj hj))).2
      · rename_i hij
        exact absurd (only j u hj).symm hij
    · intro hu
      exact ⟨i, by rw [List.getElem?_set_self hi, Option.some.inj hu]⟩
  · rw [update_of_ne hc, lookup_eq_some h]
    constructor
    · rintro ⟨j, hj⟩
      rw [List.getElem?_set] at hj
      split at hj
      · exact absurd (Prod.mk.inj (Option.some.inj (Option.some.inj hj))).1.symm hc
      · exact ⟨j, hj⟩
    · rintro ⟨j, hj⟩
      have hij : i ≠ j := by
        rintro rfl
        exact hc (mine _ hj)
      exact ⟨j, by rwa [List.getElem?_set_ne hij]⟩

/-- Freeing the slot of a key takes the key out of the map. -/
theorem lookup_clear (h : Distinct slots) (hi : slots[i]? = some (some (k, w))) :
    lookup (slots.set i none) = update (lookup slots) k none := by
  have hlt := (List.getElem?_eq_some_iff.mp hi).1
  funext c
  apply Option.ext
  intro u
  rw [lookup_eq_some h.clear]
  by_cases hc : c = k
  · subst hc
    rw [update_self]
    constructor
    · rintro ⟨j, hj⟩
      rw [List.getElem?_set] at hj
      split at hj
      · cases Option.some.inj hj
      · rename_i hij
        exact absurd (h i j c w u hi hj) hij
    · intro hu
      cases hu
  · rw [update_of_ne hc, lookup_eq_some h]
    constructor
    · rintro ⟨j, hj⟩
      rw [List.getElem?_set] at hj
      split at hj
      · cases Option.some.inj hj
      · exact ⟨j, hj⟩
    · rintro ⟨j, hj⟩
      have hij : i ≠ j := by
        rintro rfl
        exact hc (Prod.mk.inj (Option.some.inj (Option.some.inj (hj.symm.trans hi)))).1
      exact ⟨j, by rwa [List.getElem?_set_ne hij]⟩

end Slots
