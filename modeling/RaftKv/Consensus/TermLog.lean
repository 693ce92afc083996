import Mathlib.Data.List.Infix
import Mathlib.Data.List.TakeDrop

/-! Logs whose entries carry a term, for replicated logs with one leader per term.  `Rooted` says
that every prefix of a log is a prefix of the log of the leader that made the prefix's last
entry. -/

namespace Consensus

variable {α : Type*} (τ : α → ℕ)

/-- The term of the last entry, 0 for the empty log. -/
def lastTerm (l : List α) : ℕ := (l.getLast?.map τ).getD 0

/-- `l` is at least as up to date as `m`: its last term is later, or equal and `l` is at least as
long. -/
def UpToDate (l m : List α) : Prop :=
  lastTerm τ m < lastTerm τ l ∨ (lastTerm τ m = lastTerm τ l ∧ m.length ≤ l.length)

@[simp] theorem lastTerm_nil : lastTerm τ [] = 0 := rfl

@[simp] theorem lastTerm_concat (q : List α) (a : α) : lastTerm τ (q ++ [a]) = τ a := by
  simp [lastTerm]

theorem upToDate_refl (l : List α) : UpToDate τ l l := Or.inr ⟨rfl, le_rfl⟩

open Classical in
/-- What the log `l` becomes when it takes over the log `p`: itself when it already starts with
`p`, and `p` otherwise. -/
noncomputable def merge (l p : List α) : List α := if p <+: l then l else p

theorem merge_eq_or (l p : List α) : merge l p = l ∨ merge l p = p := by
  unfold merge
  split
  · exact Or.inl rfl
  · exact Or.inr rfl

theorem merge_eq_left {l p : List α} (h : p <+: l) : merge l p = l := if_pos h

theorem merge_eq_right {l p : List α} (h : ¬p <+: l) : merge l p = p := if_neg h

/-- A prefix that a log shares with the source of what it takes over stays in place. -/
theorem prefix_merge_of_shared {l p q m : List α} (hl : q <+: l) (hq : q <+: m) (hp : p <+: m) :
    q <+: merge l p := by
  by_cases h : p <+: l
  · rwa [merge_eq_left h]
  · rw [merge_eq_right h]
    rcases List.prefix_or_prefix_of_prefix hq hp with hqp | hpq
    · exact hqp
    · exact absurd (hpq.trans hl) h

/-- Every prefix of `l` is a prefix of the leader's log for the term of its last entry. -/
def Rooted (lead : ℕ → List α) (l : List α) : Prop :=
  ∀ q a, q ++ [a] <+: l → q ++ [a] <+: lead (τ a)

variable {τ} {lead lead' : ℕ → List α} {l m : List α}

theorem rooted_nil : Rooted τ lead [] := by
  intro q a h
  simp at h

theorem Rooted.sub (h : Rooted τ lead l) (hm : m <+: l) : Rooted τ lead m :=
  fun q a hq => h q a (hq.trans hm)

theorem Rooted.mono (h : Rooted τ lead l) (hl : ∀ t, lead t <+: lead' t) : Rooted τ lead' l :=
  fun q a hq => (h q a hq).trans (hl _)

theorem Rooted.concat {a : α} (h : Rooted τ lead l) (ha : l ++ [a] <+: lead (τ a)) :
    Rooted τ lead (l ++ [a]) := by
  intro q b hq
  rcases List.prefix_concat_iff.mp hq with heq | hpre
  · obtain ⟨rfl, hb⟩ := List.append_inj' heq rfl
    obtain rfl : b = a := by simpa using hb
    exact ha
  · exact h q b hpre

theorem Rooted.merge {p : List α} (hl : Rooted τ lead l) (hp : Rooted τ lead p) :
    Rooted τ lead (merge l p) := by
  rcases merge_eq_or l p with h | h <;> rw [h] <;> assumption

theorem take_succ_eq_concat {k : ℕ} {a : α} (h : l[k]? = some a) :
    l.take (k + 1) = l.take k ++ [a] := by
  rw [List.take_add_one, h]
  rfl

theorem Rooted.take_lead {k : ℕ} {a : α} (h : Rooted τ lead l) (ha : l[k]? = some a) :
    l.take (k + 1) <+: lead (τ a) := by
  rw [take_succ_eq_concat ha]
  exact h _ _ (take_succ_eq_concat ha ▸ List.take_prefix _ _)

/-- Log matching: two rooted logs with entries of one term at one position agree up to it. -/
theorem Rooted.take_eq {k : ℕ} {a b : α} (hl : Rooted τ lead l) (hm : Rooted τ lead m)
    (ha : l[k]? = some a) (hb : m[k]? = some b) (hab : τ a = τ b) :
    l.take (k + 1) = m.take (k + 1) := by
  have h1 := hl.take_lead ha
  have h2 := hm.take_lead hb
  rw [← hab] at h2
  have hla := (List.getElem?_eq_some_iff.mp ha).1
  have hmb := (List.getElem?_eq_some_iff.mp hb).1
  exact List.IsPrefix.eq_of_length (List.prefix_of_prefix_length_le h1 h2 (by simp; omega))
    (by simp; omega)

end Consensus
