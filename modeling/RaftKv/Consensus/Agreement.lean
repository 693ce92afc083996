import Mathlib.Data.List.Infix
import Mathlib.Data.List.TakeDrop
import Mathlib.Data.Prod.Lex
import Mathlib.Order.WellFounded

/-! How far two lists agree, and the rounds in which one list is sent to the holder of another one,
an element at a time, until the other agrees with it: a refused element takes the sender one back,
and an accepted one takes it behind the end of the other list. -/

namespace Consensus

variable {α : Type*} (τ : α → ℕ)

/-- The length of the longest common prefix, as far as `τ` tells elements apart. -/
def agreement : List α → List α → ℕ
  | a :: l, b :: m => if τ a = τ b then agreement l m + 1 else 0
  | _, _ => 0

variable {τ} {l m m' : List α} {k : ℕ}

@[simp] theorem agreement_nil_left (m : List α) : agreement τ [] m = 0 := rfl

@[simp] theorem agreement_nil_right (l : List α) : agreement τ l [] = 0 := by
  cases l <;> rfl

theorem agreement_cons (a b : α) (l m : List α) :
    agreement τ (a :: l) (b :: m) = if τ a = τ b then agreement τ l m + 1 else 0 := rfl

theorem le_agreement_iff : k ≤ agreement τ l m ↔
    k ≤ l.length ∧ ∀ j < k, l[j]?.map τ = m[j]?.map τ := by
  induction l generalizing m k with
  | nil =>
    rw [agreement_nil_left, Nat.le_zero, List.length_nil, Nat.le_zero, iff_self_and]
    rintro rfl j hj
    cases hj
  | cons a l ih =>
    cases m with
    | nil =>
      rw [agreement_nil_right, Nat.le_zero]
      constructor
      · rintro rfl
        exact ⟨Nat.zero_le _, fun j hj => absurd hj (Nat.not_lt_zero j)⟩
      · rintro ⟨-, h⟩
        by_contra hk
        cases h 0 (Nat.pos_of_ne_zero hk)
    | cons b m =>
      cases k with
      | zero => simp
      | succ k =>
        have hstep : (∀ j < k + 1, (a :: l)[j]?.map τ = (b :: m)[j]?.map τ) ↔
            τ a = τ b ∧ ∀ j < k, l[j]?.map τ = m[j]?.map τ := by
          constructor
          · intro h
            exact ⟨Option.some.inj (h 0 (Nat.succ_pos k)), fun j hj => h (j + 1) (by omega)⟩
          · rintro ⟨hhead, htail⟩ j hj
            cases j with
            | zero => exact congrArg some hhead
            | succ j => exact htail j (by omega)
        rw [hstep, agreement_cons]
        split
        · rename_i hhead
          rw [Nat.succ_le_succ_iff, ih, List.length_cons, Nat.succ_le_succ_iff]
          simp [hhead]
        · rename_i hhead
          simp [hhead]

theorem agreement_le_left (l m : List α) : agreement τ l m ≤ l.length :=
  (le_agreement_iff.mp le_rfl).1

theorem terms_of_lt_agreement (h : k < agreement τ l m) : l[k]?.map τ = m[k]?.map τ :=
  (le_agreement_iff.mp le_rfl).2 k h

theorem agreement_le_right (l m : List α) : agreement τ l m ≤ m.length := by
  by_contra h
  have hterm := @terms_of_lt_agreement _ τ l m m.length (by omega)
  have hleft := @agreement_le_left _ τ l m
  rw [List.getElem?_eq_none le_rfl, List.getElem?_eq_getElem (by omega)] at hterm
  cases hterm

/-- Lists that differ right behind a common prefix agree no further. -/
theorem agreement_eq_of_ne (le : k ≤ agreement τ l m) (ne : l[k]?.map τ ≠ m[k]?.map τ) :
    agreement τ l m = k := by
  by_contra h
  exact ne (terms_of_lt_agreement (by omega))

/-! ### Rounds -/

variable (τ) (l) in
/-- A round, from the sender's next position, counted from 1, and the other list to those after it.
`carried` tells the positions whose element can be sent.  Behind its end the sender sends no
element, and checks its whole list. -/
inductive Round (carried : ℕ → Prop) : ℕ × List α → ℕ × List α → Prop
  | unread {next : ℕ} {m : List α} (within : next ≤ l.length) (not_carried : ¬carried next) :
      Round carried (next, m) (next, m)
  | refused {next : ℕ} {m : List α} (reads : next ≤ l.length → carried next)
      (beyond : agreement τ l m < min (next - 1) l.length) :
      Round carried (next, m) (next - 1, m)
  | present {next : ℕ} {m : List α} (reads : next ≤ l.length → carried next)
      (agrees : min next l.length ≤ agreement τ l m) :
      Round carried (next, m) (m.length + 1, m)
  | stored {next : ℕ} {m m' : List α} (within : next ≤ l.length) (reads : carried next)
      (first : agreement τ l m + 1 = next) (agrees : agreement τ l m' = next)
      (ends : m'.length = next) :
      Round carried (next, m) (next + 1, m')

/-- What it takes to bring the rest of the list across: all elements behind the common prefix can
be sent, and so can the first one that is sent, when it is in the common prefix. -/
def Sendable (τ : α → ℕ) (l : List α) (carried : ℕ → Prop) (s : ℕ × List α) : Prop :=
  (∀ k, agreement τ l s.2 < k → k ≤ l.length → carried k) ∧
    (s.1 ≤ agreement τ l s.2 → carried s.1)

variable {carried : ℕ → Prop} {s s' : ℕ × List α}

/-- A round does not shorten the common prefix. -/
theorem Round.agreement_le (h : Round τ l carried s s') :
    agreement τ l s.2 ≤ agreement τ l s'.2 := by
  cases h with
  | unread | refused | present => exact le_rfl
  | stored within reads first agrees ends =>
    dsimp only
    omega

theorem Round.sendable (h : Round τ l carried s s') (hs : Sendable τ l carried s) :
    Sendable τ l carried s' := by
  cases h with
  | unread => exact hs
  | refused reads beyond => exact ⟨hs.1, fun hle => by dsimp only at hle; omega⟩
  | @present next m reads agrees =>
    refine ⟨hs.1, fun hle => ?_⟩
    have := @agreement_le_right _ τ l m
    dsimp only at hle
    omega
  | stored within reads first agrees ends =>
    dsimp only [Sendable] at hs ⊢
    exact ⟨fun k hk => hs.1 k (by omega), fun hle => by omega⟩

variable (τ) (l) in
/-- What falls in every round: what is missing, whether the sender is in the common prefix, and its
next position. -/
def roundRank (s : ℕ × List α) : ℕ ×ₗ ℕ ×ₗ ℕ :=
  toLex (l.length - agreement τ l s.2, toLex (if s.1 ≤ agreement τ l s.2 then 1 else 0, s.1))

theorem Round.rank_lt (h : Round τ l carried s s') (hs : Sendable τ l carried s)
    (missing : agreement τ l s.2 < l.length) : roundRank τ l s' < roundRank τ l s := by
  cases h with
  | @unread next m within not_carried =>
    dsimp only [Sendable] at hs
    rcases Nat.lt_or_ge (agreement τ l m) next with hlt | hge
    · exact absurd (hs.1 next hlt within) not_carried
    · exact absurd (hs.2 hge) not_carried
  | @refused next m reads beyond =>
    have hnot : ¬next ≤ agreement τ l m := by omega
    have hnot' : ¬next - 1 ≤ agreement τ l m := by omega
    rw [roundRank, roundRank, if_neg hnot, if_neg hnot', Prod.Lex.toLex_lt_toLex]
    refine Or.inr ⟨rfl, Prod.Lex.toLex_lt_toLex.mpr (Or.inr ⟨rfl, ?_⟩)⟩
    omega
  | @present next m reads agrees =>
    dsimp only at missing
    have hin : next ≤ agreement τ l m := by omega
    have hout : ¬m.length + 1 ≤ agreement τ l m := by
      have := @agreement_le_right _ τ l m
      omega
    rw [roundRank, roundRank, if_pos hin, if_neg hout, Prod.Lex.toLex_lt_toLex]
    exact Or.inr ⟨rfl, Prod.Lex.toLex_lt_toLex.mpr (Or.inl Nat.zero_lt_one)⟩
  | @stored next m m' within reads first agrees ends =>
    rw [roundRank, roundRank, Prod.Lex.toLex_lt_toLex]
    left
    dsimp only at missing ⊢
    omega

/-- A rank that falls as long as the goal is missed brings every run to the goal. -/
theorem exists_goal_of_rank {σ ι : Type*} [Preorder ι] [WellFoundedLT ι] (run : ℕ → σ)
    (goal : σ → Prop) (rank : σ → ι)
    (falls : ∀ k, ¬goal (run k) → rank (run (k + 1)) < rank (run k)) : ∃ k, goal (run k) := by
  by_contra missed
  have never : ∀ k, ¬goal (run k) := fun k h => missed ⟨k, h⟩
  obtain ⟨k, hk⟩ := WellFounded.not_rel_apply_succ (r := ((· < ·) : ι → ι → Prop)) fun k => rank (run k)
  exact hk (falls k (never k))

section Runs

variable {run : ℕ → ℕ × List α} (rounds : ∀ k, Round τ l carried (run k) (run (k + 1)))
include rounds

theorem agreement_mono_rounds {i j : ℕ} (h : i ≤ j) :
    agreement τ l (run i).2 ≤ agreement τ l (run j).2 :=
  monotone_nat_of_le_succ (f := fun k => agreement τ l (run k).2)
    (fun k => (rounds k).agreement_le) h

theorem sendable_rounds (h : Sendable τ l carried (run 0)) (k : ℕ) :
    Sendable τ l carried (run k) := by
  induction k with
  | zero => exact h
  | succ k ih => exact (rounds k).sendable ih

/-- A position behind the common prefix that cannot be sent stays behind it. -/
theorem agreement_lt_rounds {p : ℕ} (not_carried : ¬carried p)
    (h : agreement τ l (run 0).2 < p) (k : ℕ) : agreement τ l (run k).2 < p := by
  induction k with
  | zero => exact h
  | succ k ih =>
    have hround := rounds k
    generalize run k = s at hround ih
    generalize run (k + 1) = s' at hround
    cases hround with
    | unread | refused | present => exact ih
    | @stored next m m' within reads first agrees ends =>
      dsimp only at ih ⊢
      have hne : next ≠ p := by
        rintro rfl
        exact not_carried reads
      omega

/-- A sender at a position of the common prefix that cannot be sent stays there. -/
theorem stuck_rounds (not_carried : ¬carried (run 0).1)
    (h : (run 0).1 ≤ agreement τ l (run 0).2) (k : ℕ) : run k = run 0 := by
  induction k with
  | zero => rfl
  | succ k ih =>
    have hround := rounds k
    rw [ih] at hround
    have hle := h.trans (agreement_le_left l (run 0).2)
    generalize run 0 = s at hround not_carried h hle
    generalize run (k + 1) = s' at hround
    cases hround with
    | unread => rfl
    | refused reads | present reads => exact absurd (reads hle) not_carried
    | stored within reads => exact absurd reads not_carried

/-- The rounds bring the whole list across exactly when it is there or what is missing can be
sent. -/
theorem rounds_complete_iff :
    (∃ k, ∀ j, k ≤ j → agreement τ l (run j).2 = l.length) ↔
      agreement τ l (run 0).2 = l.length ∨ Sendable τ l carried (run 0) := by
  constructor
  · rintro ⟨k, hk⟩
    by_contra hnot
    rw [not_or] at hnot
    obtain ⟨hne, hnot⟩ := hnot
    have hlast := hk k le_rfl
    have hle := @agreement_le_left _ τ l (run 0).2
    apply hnot
    constructor
    · intro p hp hpl
      by_contra not_carried
      have := agreement_lt_rounds rounds not_carried hp k
      omega
    · intro hin
      by_contra not_carried
      rw [stuck_rounds rounds not_carried hin k] at hlast
      exact hne hlast
  · intro h
    have stays : ∀ k, agreement τ l (run k).2 = l.length →
        ∀ j, k ≤ j → agreement τ l (run j).2 = l.length := by
      intro k hk j hj
      have h1 := agreement_mono_rounds rounds hj
      have h2 := @agreement_le_left _ τ l (run j).2
      omega
    rcases h with hdone | hsend
    · exact ⟨0, stays 0 hdone⟩
    · obtain ⟨k, hk⟩ := exists_goal_of_rank run (fun s => agreement τ l s.2 = l.length)
        (roundRank τ l) fun k hk => (rounds k).rank_lt (sendable_rounds rounds hsend k)
          (lt_of_le_of_ne (agreement_le_left l (run k).2) hk)
      exact ⟨k, stays k hk⟩

end Runs

end Consensus
