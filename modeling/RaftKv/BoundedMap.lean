import Mathlib.Data.List.AList

/-! Finite maps with a bound on the number of entries, which stay in the order in which they came
in. -/

/-- An association list without repeated keys, of at most `capacity` entries. -/
structure BoundedMap (α β : Type*) (capacity : ℕ) where
  list : AList fun _ : α => β
  room : list.keys.length ≤ capacity

namespace BoundedMap

variable {α β : Type*} {capacity : ℕ}

theorem ext_entries {m m' : BoundedMap α β capacity} (h : m.list.entries = m'.list.entries) :
    m = m' := by
  obtain ⟨list, room⟩ := m
  obtain ⟨list', room'⟩ := m'
  obtain rfl : list = list' := AList.ext h
  rfl

/-- The keys in the order of their entries. -/
def keys (m : BoundedMap α β capacity) : List α := m.list.keys

variable [DecidableEq α]

def lookup (m : BoundedMap α β capacity) (a : α) : Option β := m.list.lookup a

/-- Changes the value of a key. -/
def modify (m : BoundedMap α β capacity) (a : α) (f : β → β) : BoundedMap α β capacity where
  list := ⟨m.list.entries.map (Sigma.map id fun k v => if k = a then f v else v),
    m.list.nodupKeys.map₂ _ _⟩
  room := le_of_eq_of_le (congrArg List.length (List.map₂_keys _ _)) m.room

/-- Adds an entry at the end, for a key that is not there. -/
def append (m : BoundedMap α β capacity) (a : α) (v : β) (new : m.lookup a = none)
    (h : m.keys.length < capacity) : BoundedMap α β capacity where
  list := ⟨m.list.entries ++ [⟨a, v⟩], by
    rw [List.NodupKeys, List.keys, List.map_append, List.nodup_append]
    refine ⟨m.list.nodupKeys, List.nodup_singleton _, ?_⟩
    rintro k hk b hb rfl
    rw [List.mem_singleton.mp hb] at hk
    exact AList.lookup_eq_none.mp new hk⟩
  room := by
    rw [AList.keys_mk, List.keys, List.map_append, List.length_append]
    exact h

def erase (m : BoundedMap α β capacity) (a : α) : BoundedMap α β capacity where
  list := m.list.erase a
  room := by
    rw [AList.keys_erase]
    exact le_trans List.length_erase_le m.room

variable (m : BoundedMap α β capacity) {a b : α}

theorem lookup_isSome : (m.lookup a).isSome ↔ a ∈ m.keys := AList.lookup_isSome

theorem keys_modify (f : β → β) : (m.modify a f).keys = m.keys := List.map₂_keys _ _

theorem lookup_modify (f : β → β) : (m.modify a f).lookup a = (m.lookup a).map f := by
  refine (List.dlookup_map₂ a).trans ?_
  simp only [if_true]
  rfl

theorem lookup_modify_ne (h : b ≠ a) (f : β → β) : (m.modify a f).lookup b = m.lookup b := by
  refine (List.dlookup_map₂ b).trans ?_
  simp only [if_neg h]
  exact Option.map_id'

section Append

variable {v : β} (new : m.lookup a = none) (h : m.keys.length < capacity)

theorem keys_append : (m.append a v new h).keys = m.keys ++ [a] := List.map_append

theorem lookup_append : (m.append a v new h).lookup a = some v := by
  refine (List.dlookup_append _ _ a).trans ?_
  rw [show m.list.entries.dlookup a = none from new, Option.none_or]
  exact List.dlookup_cons_eq _ _ _

theorem lookup_append_ne (hb : b ≠ a) : (m.append a v new h).lookup b = m.lookup b := by
  refine (List.dlookup_append _ _ b).trans ?_
  have hlast : [(⟨a, v⟩ : Sigma fun _ : α => β)].dlookup b = none := List.dlookup_cons_ne [] _ hb
  rw [hlast, Option.or_none]
  rfl

end Append

theorem keys_erase : (m.erase a).keys = m.keys.erase a := AList.keys_erase a m.list

theorem lookup_erase : (m.erase a).lookup a = none := AList.lookup_erase a m.list

theorem lookup_erase_ne (h : b ≠ a) : (m.erase a).lookup b = m.lookup b :=
  AList.lookup_erase_ne h

end BoundedMap
