import Mathlib.Logic.Relation

/-! Runs of a partial labelled transition function.  `Reach step ok s₀ s` says that `s` is reached
from `s₀` by actions each of which `ok` admits in the state it is taken in. -/

namespace Runs

variable {σ A : Type*} {step : σ → A → Option σ} {ok ok' : σ → A → Prop} {s₀ s s' : σ}

/-- The states that `step` reaches from `s₀` by admitted actions. -/
inductive Reach (step : σ → A → Option σ) (ok : σ → A → Prop) (s₀ : σ) : σ → Prop
  | refl : Reach step ok s₀ s₀
  | tail {s s' : σ} {a : A} : Reach step ok s₀ s → ok s a → step s a = some s' →
      Reach step ok s₀ s'

theorem Reach.trans (h : Reach step ok s₀ s) (h' : Reach step ok s s') : Reach step ok s₀ s' := by
  induction h' with
  | refl => exact h
  | tail _ hok hstep ih => exact ih.tail hok hstep

theorem Reach.mono (hok : ∀ s a, ok s a → ok' s a) (h : Reach step ok s₀ s) :
    Reach step ok' s₀ s := by
  induction h with
  | refl => exact .refl
  | tail _ ha hstep ih => exact ih.tail (hok _ _ ha) hstep

/-- A predicate that holds first and that every admitted step keeps holds of every reached
state. -/
theorem Reach.invariant {P : σ → Prop} (h : Reach step ok s₀ s) (init : P s₀)
    (keep : ∀ s a s', Reach step ok s₀ s → P s → ok s a → step s a = some s' → P s') : P s := by
  induction h with
  | refl => exact init
  | tail hs hok hstep ih => exact keep _ _ _ hs ih hok hstep

/-- The state after a list of actions, when each is possible and admitted by the test `ok`. -/
def runList (step : σ → A → Option σ) (ok : σ → A → Bool) (s : σ) : List A → Option σ
  | [] => some s
  | a :: as => if ok s a then (step s a).bind fun s' => runList step ok s' as else none

theorem reach_of_runList {test : σ → A → Bool} (hok : ∀ s a, test s a = true → ok s a)
    {as : List A} (h : runList step test s as = some s') : Reach step ok s s' := by
  induction as generalizing s with
  | nil =>
    obtain rfl : s = s' := by simpa [runList] using h
    exact .refl
  | cons a as ih =>
    rw [runList] at h
    split at h
    · rename_i ha
      obtain ⟨s1, h1, h2⟩ := Option.bind_eq_some_iff.mp h
      exact (Reach.tail .refl (hok _ _ ha) h1).trans (ih h2)
    · cases h

/-- A list of actions leads to a state with the tested property. -/
theorem exists_reach {test : σ → A → Bool} (hok : ∀ s a, test s a = true → ok s a) {p : σ → Bool}
    {as : List A} (h : (runList step test s as).any p = true) :
    ∃ s', Reach step ok s s' ∧ p s' = true := by
  cases hrun : runList step test s as with
  | none =>
    rw [hrun] at h
    cases h
  | some s' =>
    rw [hrun] at h
    exact ⟨s', reach_of_runList hok hrun, h⟩

end Runs
