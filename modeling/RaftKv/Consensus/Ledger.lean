import Mathlib.Data.Finset.Card
import Mathlib.Data.Fintype.Card
import Mathlib.Order.Interval.Set.Basic
import Mathlib.Logic.Function.Basic
import RaftKv.Consensus.TermLog

/-! The history of a replicated log with one leader per term: every member's term and log, the
votes with the log each voter had, the leader of each term with the log it was elected with and
the log it built, and how much of a leader's log each member has held.  `Step` lists what can
happen.  `Matching` holds whatever logs the members copy; with `strict` they copy only from the
leader of their term. -/

namespace Consensus

open Function

/-- More than half of a finite group. -/
def Majority {ι : Type*} [Fintype ι] (Q : Finset ι) : Prop := Fintype.card ι < 2 * Q.card

theorem Majority.meet {ι : Type*} [Fintype ι] (P Q : Finset ι) (hP : Majority P)
    (hQ : Majority Q) : ∃ j, j ∈ P ∧ j ∈ Q := by
  classical
  by_contra h
  have hdis : Disjoint P Q := Finset.disjoint_left.mpr fun j hp hq => h ⟨j, hp, hq⟩
  have hcard := Finset.card_le_univ (P ∪ Q)
  rw [Finset.card_union_of_disjoint hdis] at hcard
  unfold Majority at hP hQ
  omega

/-- The history of a group `ι` that replicates a log of entries `α`. -/
structure Ledger (ι α : Type*) where
  term : ι → ℕ
  log : ι → List α
  /-- whom a member voted for in a term -/
  vote : ι → ℕ → Option ι
  /-- the member's log when it voted -/
  ballot : ι → ℕ → List α
  leader : ℕ → Option ι
  /-- the leader's log when it was elected -/
  base : ℕ → List α
  /-- the log that the leader of a term has built in it -/
  lead : ℕ → List α
  /-- the lengths up to which a member, in a term, has held the log of its leader -/
  held : ι → ℕ → Set ℕ

namespace Ledger

variable {ι α : Type*}

/-- Nobody has voted or logged anything, in term 0. -/
def initial : Ledger ι α where
  term _ := 0
  log _ := []
  vote _ _ := none
  ballot _ _ := []
  leader _ := none
  base _ := []
  lead _ := []
  held _ _ := ∅

section Updates

variable [DecidableEq ι]

def advance (g : Ledger ι α) (i : ι) (t : ℕ) : Ledger ι α := { g with term := update g.term i t }

def cast (g : Ledger ι α) (i c : ι) : Ledger ι α :=
  { g with
    vote := update g.vote i (update (g.vote i) (g.term i) (some c))
    ballot := update g.ballot i (update (g.ballot i) (g.term i) (g.log i)) }

def elect (g : Ledger ι α) (c : ι) : Ledger ι α :=
  { g with
    leader := update g.leader (g.term c) (some c)
    base := update g.base (g.term c) (g.log c)
    lead := update g.lead (g.term c) (g.log c) }

def append (g : Ledger ι α) (c : ι) (a : α) : Ledger ι α :=
  { g with
    log := update g.log c (g.log c ++ [a])
    lead := update g.lead (g.term c) (g.log c ++ [a])
    held := update g.held c (update (g.held c) (g.term c)
      (g.held c (g.term c) ∪ Set.Iic (g.log c ++ [a]).length)) }

noncomputable def adopt (g : Ledger ι α) (i : ι) (p : List α) : Ledger ι α :=
  { g with log := update g.log i (merge (g.log i) p) }

def hold (g : Ledger ι α) (i : ι) (n : ℕ) : Ledger ι α :=
  { g with held := update g.held i (update (g.held i) (g.term i)
      (g.held i (g.term i) ∪ Set.Iic n)) }

variable {g : Ledger ι α} {i c : ι} {t : ℕ}

@[simp] theorem advance_term_self : (g.advance i t).term i = t := update_self ..
@[simp] theorem advance_log : (g.advance i t).log = g.log := rfl
@[simp] theorem advance_vote : (g.advance i t).vote = g.vote := rfl
@[simp] theorem advance_ballot : (g.advance i t).ballot = g.ballot := rfl
@[simp] theorem advance_leader : (g.advance i t).leader = g.leader := rfl
@[simp] theorem advance_lead : (g.advance i t).lead = g.lead := rfl

@[simp] theorem cast_term : (g.cast i c).term = g.term := rfl
@[simp] theorem cast_log : (g.cast i c).log = g.log := rfl
@[simp] theorem cast_leader : (g.cast i c).leader = g.leader := rfl
@[simp] theorem cast_lead : (g.cast i c).lead = g.lead := rfl

@[simp] theorem cast_vote_self (h : g.term i = t) : (g.cast i c).vote i t = some c := by
  simp [Ledger.cast, h]

@[simp] theorem cast_ballot_self (h : g.term i = t) : (g.cast i c).ballot i t = g.log i := by
  simp [Ledger.cast, h]

/-- Casting a vote adds that vote only. -/
theorem cast_vote_cases {j d : ι} (h : (g.cast i c).vote j t = some d) :
    g.vote j t = some d ∨ (j = i ∧ t = g.term i ∧ d = c) := by
  by_cases hj : j = i
  · subst hj
    by_cases ht : t = g.term j
    · subst ht
      exact Or.inr ⟨rfl, rfl, by simpa using h.symm⟩
    · exact Or.inl (by simpa [Ledger.cast, ht] using h)
  · exact Or.inl (by simpa [Ledger.cast, hj] using h)

@[simp] theorem append_term {a : α} : (g.append c a).term = g.term := rfl
@[simp] theorem append_vote {a : α} : (g.append c a).vote = g.vote := rfl
@[simp] theorem append_ballot {a : α} : (g.append c a).ballot = g.ballot := rfl
@[simp] theorem append_leader {a : α} : (g.append c a).leader = g.leader := rfl

@[simp] theorem append_log_self {a : α} : (g.append c a).log c = g.log c ++ [a] := update_self ..

@[simp] theorem append_lead_self {a : α} (h : g.term c = t) :
    (g.append c a).lead t = g.log c ++ [a] := by
  simp [Ledger.append, h]

@[simp] theorem adopt_term {p : List α} : (g.adopt i p).term = g.term := rfl
@[simp] theorem adopt_vote {p : List α} : (g.adopt i p).vote = g.vote := rfl
@[simp] theorem adopt_leader {p : List α} : (g.adopt i p).leader = g.leader := rfl
@[simp] theorem adopt_lead {p : List α} : (g.adopt i p).lead = g.lead := rfl

@[simp] theorem adopt_log_self {p : List α} : (g.adopt i p).log i = merge (g.log i) p :=
  update_self ..

@[simp] theorem hold_term {n : ℕ} : (g.hold i n).term = g.term := rfl
@[simp] theorem hold_log {n : ℕ} : (g.hold i n).log = g.log := rfl
@[simp] theorem hold_vote {n : ℕ} : (g.hold i n).vote = g.vote := rfl
@[simp] theorem hold_leader {n : ℕ} : (g.hold i n).leader = g.leader := rfl
@[simp] theorem hold_lead {n : ℕ} : (g.hold i n).lead = g.lead := rfl

theorem mem_hold_self {n k : ℕ} (h : g.term i = t) (hk : k ≤ n) : k ∈ (g.hold i n).held i t := by
  subst h
  simp [Ledger.hold, hk]

end Updates

section Elect

variable {g : Ledger ι α} {c : ι} {t : ℕ}

@[simp] theorem elect_term : (g.elect c).term = g.term := rfl
@[simp] theorem elect_log : (g.elect c).log = g.log := rfl
@[simp] theorem elect_vote : (g.elect c).vote = g.vote := rfl
@[simp] theorem elect_ballot : (g.elect c).ballot = g.ballot := rfl

@[simp] theorem elect_leader_self (h : g.term c = t) : (g.elect c).leader t = some c := by
  simp [Ledger.elect, h]

@[simp] theorem elect_lead_self (h : g.term c = t) : (g.elect c).lead t = g.log c := by
  simp [Ledger.elect, h]

end Elect

variable (τ : α → ℕ) (Quorum : Finset ι → Prop)

/-- One event of the history at member `i`.  A member votes once a term, a candidate with a quorum
of votes from logs no more up to date than its own leads, a leader appends to its log, and a member
takes over a log. -/
inductive Step [DecidableEq ι] (strict : Prop) (i : ι) (g : Ledger ι α) : Ledger ι α → Prop
  | advance (t : ℕ) (le : g.term i ≤ t) : Step strict i g (g.advance i t)
  | cast (c : ι) (free : g.vote i (g.term i) = none) : Step strict i g (g.cast i c)
  | elect (Q : Finset ι) (quorum : Quorum Q) (open_ : g.leader (g.term i) = none)
      (older : ∀ a ∈ g.log i, τ a < g.term i)
      (votes : ∀ j ∈ Q, g.vote j (g.term i) = some i ∧
        UpToDate τ (g.log i) (g.ballot j (g.term i))) : Step strict i g (g.elect i)
  | append (a : α) (leads : g.leader (g.term i) = some i)
      (current : g.log i = g.lead (g.term i)) (fresh : τ a = g.term i) :
      Step strict i g (g.append i a)
  | adopt (p : List α) (rooted : Rooted τ g.lead p) (terms : ∀ a ∈ p, τ a ≤ g.term i)
      (source : strict → g.leader (g.term i) ≠ none ∧ p <+: g.lead (g.term i)) :
      Step strict i g (g.adopt i p)
  | hold (n : ℕ) (le : n ≤ (g.lead (g.term i)).length)
      (has : (g.lead (g.term i)).take n <+: g.log i) : Step strict i g (g.hold i n)

/-- Any number of events at member `i`. -/
abbrev Steps [DecidableEq ι] (strict : Prop) (i : ι) : Ledger ι α → Ledger ι α → Prop :=
  Relation.ReflTransGen (Step τ Quorum strict i)

/-! ### Log matching -/

/-- What every history keeps: every log is rooted in the logs of the leaders, and a leader has
only added entries of its own term to the log it was elected with. -/
structure Matching (g : Ledger ι α) : Prop where
  logs : ∀ i, Rooted τ g.lead (g.log i)
  leads : ∀ t, Rooted τ g.lead (g.lead t)
  ballots : ∀ i t, Rooted τ g.lead (g.ballot i t)
  unled : ∀ t, g.leader t = none → g.lead t = []
  terms : ∀ i, ∀ a ∈ g.log i, τ a ≤ g.term i
  split : ∀ t, ∃ own, g.lead t = g.base t ++ own ∧ (∀ a ∈ g.base t, τ a < t) ∧ ∀ a ∈ own, τ a = t
  voted : ∀ i t c, g.vote i t = some c → t ≤ g.term i
  quorum : ∀ t c, g.leader t = some c → ∃ Q, Quorum Q ∧ ∀ j ∈ Q, g.vote j t = some c
  led : ∀ t c, g.leader t = some c → t ≤ g.term c

theorem matching_initial : Matching τ Quorum (initial : Ledger ι α) where
  logs _ := rooted_nil
  leads _ := rooted_nil
  ballots _ _ := rooted_nil
  unled _ _ := rfl
  terms _ _ h := by simp [initial] at h
  split _ := ⟨[], by simp [initial]⟩
  voted _ _ _ h := by simp [initial] at h
  quorum _ _ h := by simp [initial] at h
  led _ _ h := by simp [initial] at h

/-- `g'` continues the history `g`. -/
structure Extends (g g' : Ledger ι α) : Prop where
  term : ∀ i, g.term i ≤ g'.term i
  vote : ∀ i t c, g.vote i t = some c → g'.vote i t = some c ∧ g'.ballot i t = g.ballot i t
  leader : ∀ t c, g.leader t = some c → g'.leader t = some c ∧ g'.base t = g.base t
  lead : ∀ t, g.lead t <+: g'.lead t
  held : ∀ i t, g.held i t ⊆ g'.held i t

theorem Extends.refl (g : Ledger ι α) : Extends g g :=
  ⟨fun _ => le_rfl, fun _ _ _ h => ⟨h, rfl⟩, fun _ _ h => ⟨h, rfl⟩, fun _ => List.prefix_rfl,
    fun _ _ => subset_rfl⟩

theorem Extends.trans {g g' g'' : Ledger ι α} (h : Extends g g') (h' : Extends g' g'') :
    Extends g g'' where
  term i := (h.term i).trans (h'.term i)
  vote i t c hv := ⟨(h'.vote i t c (h.vote i t c hv).1).1,
    (h'.vote i t c (h.vote i t c hv).1).2.trans (h.vote i t c hv).2⟩
  leader t c hl := ⟨(h'.leader t c (h.leader t c hl).1).1,
    (h'.leader t c (h.leader t c hl).1).2.trans (h.leader t c hl).2⟩
  lead t := (h.lead t).trans (h'.lead t)
  held i t := (h.held i t).trans (h'.held i t)

/-- Nothing of the other members has changed between `g` and `g'`. -/
structure Local (i : ι) (g g' : Ledger ι α) : Prop where
  term : ∀ j, j ≠ i → g'.term j = g.term j
  log : ∀ j, j ≠ i → g'.log j = g.log j
  vote : ∀ j, j ≠ i → g'.vote j = g.vote j
  ballot : ∀ j, j ≠ i → g'.ballot j = g.ballot j
  leader : ∀ t j, j ≠ i → g'.leader t = some j → g.leader t = some j
  lead : ∀ t j, j ≠ i → g.leader t = some j → g'.lead t = g.lead t

theorem Local.refl (i : ι) (g : Ledger ι α) : Local i g g :=
  ⟨fun _ _ => rfl, fun _ _ => rfl, fun _ _ => rfl, fun _ _ => rfl, fun _ _ _ h => h,
    fun _ _ _ _ => rfl⟩

theorem Local.trans {i : ι} {g g' g'' : Ledger ι α} (h : Local i g g') (h' : Local i g' g'')
    (e : Extends g g') : Local i g g'' where
  term j hj := (h'.term j hj).trans (h.term j hj)
  log j hj := (h'.log j hj).trans (h.log j hj)
  vote j hj := (h'.vote j hj).trans (h.vote j hj)
  ballot j hj := (h'.ballot j hj).trans (h.ballot j hj)
  leader t j hj hl := h.leader t j hj (h'.leader t j hj hl)
  lead t j hj hl := (h'.lead t j hj (e.leader t j hl).1).trans (h.lead t j hj hl)

variable [DecidableEq ι] {τ Quorum} {strict : Prop} {i : ι} {g g' : Ledger ι α}

theorem Step.local (h : Step τ Quorum strict i g g') : Local i g g' := by
  have base := Local.refl i g
  cases h with
  | advance t le => exact { base with term := fun j hj => by simp [Ledger.advance, hj] }
  | cast c free =>
    exact { base with
      vote := fun j hj => by simp [Ledger.cast, hj]
      ballot := fun j hj => by simp [Ledger.cast, hj] }
  | elect Q quorum open_ older votes =>
    refine { base with leader := fun t j hj hl => ?_, lead := fun t j hj hl => ?_ }
    · by_cases ht : t = g.term i
      · subst ht
        exact absurd (by simpa [Ledger.elect] using hl.symm) hj
      · simpa [Ledger.elect, ht] using hl
    · have ht : t ≠ g.term i := by rintro rfl; rw [open_] at hl; cases hl
      simp [Ledger.elect, ht]
  | append a leads current fresh =>
    refine { base with
      log := fun j hj => by simp [Ledger.append, hj], lead := fun t j hj hl => ?_ }
    have ht : t ≠ g.term i := by rintro rfl; exact hj (Option.some.inj (hl.symm.trans leads))
    simp [Ledger.append, ht]
  | adopt p rooted terms source =>
    exact { base with log := fun j hj => by simp [Ledger.adopt, hj] }
  | hold n le has => exact { base with }

theorem Step.extends (m : Matching τ Quorum g) (h : Step τ Quorum strict i g g') :
    Extends g g' := by
  have base := Extends.refl g
  cases h with
  | advance t le =>
    refine { base with term := fun j => ?_ }
    by_cases hj : j = i
    · subst hj; simpa [Ledger.advance] using le
    · simp [Ledger.advance, hj]
  | cast c free =>
    refine { base with vote := fun j t d hv => ?_ }
    by_cases hj : j = i
    · subst hj
      have ht : t ≠ g.term j := by rintro rfl; rw [free] at hv; cases hv
      simp [Ledger.cast, ht, hv]
    · simp [Ledger.cast, hj, hv]
  | elect Q quorum open_ older votes =>
    refine { base with leader := fun t d hl => ?_, lead := fun t => ?_ }
    · have ht : t ≠ g.term i := by rintro rfl; rw [open_] at hl; cases hl
      simp [Ledger.elect, ht, hl]
    · by_cases ht : t = g.term i
      · subst ht; simp [m.unled _ open_]
      · simp [Ledger.elect, ht]
  | append a leads current fresh =>
    refine { base with lead := fun t => ?_, held := fun j t n hn => ?_ }
    · by_cases ht : t = g.term i
      · subst ht; simp [Ledger.append, current]
      · simp [Ledger.append, ht]
    · by_cases hj : j = i
      · subst hj
        by_cases ht : t = g.term j
        · subst ht; simp [Ledger.append, hn]
        · simpa [Ledger.append, ht] using hn
      · simpa [Ledger.append, hj] using hn
  | adopt p rooted terms source => exact { base with }
  | hold n le has =>
    refine { base with held := fun j t k hk => ?_ }
    by_cases hj : j = i
    · subst hj
      by_cases ht : t = g.term j
      · subst ht; simp [Ledger.hold, hk]
      · simpa [Ledger.hold, ht] using hk
    · simpa [Ledger.hold, hj] using hk

theorem Matching.advance (m : Matching τ Quorum g) {t : ℕ} (le : g.term i ≤ t) :
    Matching τ Quorum (g.advance i t) := by
  have grow : ∀ j, g.term j ≤ (g.advance i t).term j :=
    (Step.extends m (Step.advance t le : Step τ Quorum False i g _)).term
  exact { m with
    terms := fun j a ha => (m.terms j a ha).trans (grow j)
    voted := fun j u c h => (m.voted j u c h).trans (grow j)
    led := fun u c h => (m.led u c h).trans (grow c) }

theorem Matching.cast (m : Matching τ Quorum g) {c : ι} (free : g.vote i (g.term i) = none) :
    Matching τ Quorum (g.cast i c) := by
  have keep := (Step.extends m (Step.cast c free : Step τ Quorum False i g _)).vote
  refine { m with ballots := fun j t => ?_, voted := fun j t d h => ?_, quorum := fun t d h => ?_ }
  · by_cases hj : j = i
    · subst hj
      by_cases ht : t = g.term j
      · subst ht; simpa [Ledger.cast] using m.logs j
      · simpa [Ledger.cast, ht] using m.ballots j t
    · simpa [Ledger.cast, hj] using m.ballots j t
  · by_cases hj : j = i
    · subst hj
      by_cases ht : t = g.term j
      · exact ht.le
      · exact m.voted j t d (by simpa [Ledger.cast, ht] using h)
    · exact m.voted j t d (by simpa [Ledger.cast, hj] using h)
  · obtain ⟨Q, hQ, hv⟩ := m.quorum t d h
    exact ⟨Q, hQ, fun j hj => (keep j t d (hv j hj)).1⟩

theorem Matching.elect (m : Matching τ Quorum g) {Q : Finset ι} (quorum : Quorum Q)
    (open_ : g.leader (g.term i) = none) (older : ∀ a ∈ g.log i, τ a < g.term i)
    (votes : ∀ j ∈ Q, g.vote j (g.term i) = some i ∧
      UpToDate τ (g.log i) (g.ballot j (g.term i))) : Matching τ Quorum (g.elect i) := by
  have grow :=
    (Step.extends m (Step.elect Q quorum open_ older votes : Step τ Quorum False i g _)).lead
  refine { m with
    logs := fun j => (m.logs j).mono grow, leads := fun t => ?_,
    ballots := fun j t => (m.ballots j t).mono grow, unled := fun t h => ?_,
    split := fun t => ?_, quorum := fun t d h => ?_, led := fun t d h => ?_ }
  all_goals
    by_cases ht : t = g.term i
  · subst ht; simpa [Ledger.elect] using (m.logs i).mono grow
  · simpa [Ledger.elect, ht] using (m.leads t).mono grow
  · simp [Ledger.elect, ht] at h
  · simpa [Ledger.elect, ht] using m.unled t (by simpa [Ledger.elect, ht] using h)
  · subst ht
    exact ⟨[], by simp [Ledger.elect], by simpa [Ledger.elect] using older, by simp⟩
  · simpa [Ledger.elect, ht] using m.split t
  · subst ht
    obtain rfl : i = d := by simpa [Ledger.elect] using h
    exact ⟨Q, quorum, fun j hj => (votes j hj).1⟩
  · exact m.quorum t d (by simpa [Ledger.elect, ht] using h)
  · subst ht
    obtain rfl : i = d := by simpa [Ledger.elect] using h
    exact le_rfl
  · exact m.led t d (by simpa [Ledger.elect, ht] using h)

theorem Matching.append (m : Matching τ Quorum g) {a : α}
    (leads : g.leader (g.term i) = some i) (current : g.log i = g.lead (g.term i))
    (fresh : τ a = g.term i) : Matching τ Quorum (g.append i a) := by
  have grow := (Step.extends m (Step.append a leads current fresh : Step τ Quorum False i g _)).lead
  have root : Rooted τ (g.append i a).lead (g.log i ++ [a]) :=
    ((m.logs i).mono grow).concat (by simp [Ledger.append, fresh])
  refine { m with
    logs := fun j => ?_, leads := fun t => ?_, ballots := fun j t => (m.ballots j t).mono grow,
    unled := fun t h => ?_, terms := fun j b hb => ?_, split := fun t => ?_ }
  · by_cases hj : j = i
    · subst hj; simpa [Ledger.append] using root
    · simpa [Ledger.append, hj] using (m.logs j).mono grow
  · by_cases ht : t = g.term i
    · subst ht; simpa [Ledger.append] using root
    · simpa [Ledger.append, ht] using (m.leads t).mono grow
  · have ht : t ≠ g.term i := by
      rintro rfl
      rw [show (g.append i a).leader = g.leader from rfl, leads] at h
      cases h
    simpa [Ledger.append, ht] using m.unled t h
  · by_cases hj : j = i
    · subst hj
      rcases (by simpa [Ledger.append] using hb : b ∈ g.log j ∨ b = a) with hb | rfl
      · exact m.terms j b hb
      · exact fresh.le
    · exact m.terms j b (by simpa [Ledger.append, hj] using hb)
  · by_cases ht : t = g.term i
    · subst ht
      obtain ⟨own, h1, h2, h3⟩ := m.split (g.term i)
      refine ⟨own ++ [a], by simp [Ledger.append, current, h1], h2, fun b hb => ?_⟩
      rcases (by simpa using hb : b ∈ own ∨ b = a) with hb | rfl
      · exact h3 b hb
      · exact fresh
    · simpa [Ledger.append, ht] using m.split t

theorem Matching.adopt (m : Matching τ Quorum g) {p : List α} (rooted : Rooted τ g.lead p)
    (terms : ∀ a ∈ p, τ a ≤ g.term i) : Matching τ Quorum (g.adopt i p) := by
  refine { m with logs := fun j => ?_, terms := fun j a ha => ?_ }
  · by_cases hj : j = i
    · subst hj; simpa [Ledger.adopt] using (m.logs j).merge rooted
    · simpa [Ledger.adopt, hj] using m.logs j
  · by_cases hj : j = i
    · subst hj
      have ha' : a ∈ merge (g.log j) p := by simpa [Ledger.adopt] using ha
      rcases merge_eq_or (g.log j) p with h | h <;> rw [h] at ha'
      · exact m.terms j a ha'
      · exact terms a ha'
    · exact m.terms j a (by simpa [Ledger.adopt, hj] using ha)

theorem Matching.step (m : Matching τ Quorum g) (h : Step τ Quorum strict i g g') :
    Matching τ Quorum g' := by
  cases h with
  | advance t le => exact m.advance le
  | cast c free => exact m.cast free
  | elect Q quorum open_ older votes => exact m.elect quorum open_ older votes
  | append a leads current fresh => exact m.append leads current fresh
  | adopt p rooted terms source => exact m.adopt rooted terms
  | hold n le has => exact { m with }

/-- Over any number of events at member `i`, the history is continued, nothing of the others
changes, and `Matching` is kept. -/
theorem Matching.steps (m : Matching τ Quorum g) (h : Steps τ Quorum strict i g g') :
    Extends g g' ∧ Local i g g' ∧ Matching τ Quorum g' := by
  induction h with
  | refl => exact ⟨Extends.refl g, Local.refl i g, m⟩
  | tail _ hs ih =>
    obtain ⟨e, l, m'⟩ := ih
    exact ⟨e.trans (Step.extends m' hs), l.trans hs.local e, m'.step hs⟩

omit [DecidableEq ι] in
/-- With intersecting quorums, only the leader of a term has a quorum of its votes. -/
theorem Matching.leader_unique (m : Matching τ Quorum g)
    (meet : ∀ P Q, Quorum P → Quorum Q → ∃ j, j ∈ P ∧ j ∈ Q) {t : ℕ} {c d : ι} {Q : Finset ι}
    (hQ : Quorum Q) (votes : ∀ j ∈ Q, g.vote j t = some c) (hd : g.leader t = some d) : c = d := by
  obtain ⟨P, hP, hv⟩ := m.quorum t d hd
  obtain ⟨j, hjQ, hjP⟩ := meet Q P hQ hP
  exact Option.some.inj ((votes j hjQ).symm.trans (hv j hjP))

end Ledger

end Consensus
