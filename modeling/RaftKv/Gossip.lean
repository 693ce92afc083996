import Mathlib.Data.Set.Basic

/-! Membership by gossip.  A member asks the members it knows to admit it, and is told of all that
they know.  Whoever learns of a member, or that one has left, tells the others.  A member does one
errand at a time, and its errands wait in no order.  `Woven` is what makes the members meet, and
`Wave` what makes a departure reach everyone. -/

namespace Gossip

variable {ι : Type*}

/-- What a member has still to do.  The errands `hear` handle a message: a request to be admitted,
the news of a member, the news that a member has left. -/
inductive Errand (ι : Type*)
  | join
  | leave
  | hearJoin (m : ι)
  | hearPeer (k : ι)
  | hearLeave (k : ι)
  | announce (k : ι)
  | catalog (m : ι)
  | announceLeave (k : ι)

/-- Whom the members know, which of them cannot take another one, and their errands. -/
structure Circle (ι : Type*) where
  knows : ι → Set ι
  full : ι → Prop
  pending : ι → Errand ι → Prop

namespace Circle

variable (v : Circle ι)

/-- Member `i` learns of `k` when it hears of it. -/
def Learns (i k : ι) : Prop := k ∉ v.knows i ∧ k ≠ i ∧ ¬v.full i

/-- Whom member `i` knows after an errand. -/
def after (i : ι) : Errand ι → Set ι
  | .hearJoin k | .hearPeer k => {j | j ∈ v.knows i ∨ (j = k ∧ v.Learns i k)}
  | .hearLeave k => {j | j ∈ v.knows i ∧ j ≠ k}
  | _ => v.knows i

/-- `v.Makes i t j u`: when member `i` does errand `t`, member `j` gets errand `u`. -/
inductive Makes (i : ι) : Errand ι → ι → Errand ι → Prop
  | join {j : ι} : j ∈ v.knows i → Makes i .join j (.hearJoin i)
  | leave {j : ι} : j ∈ v.knows i → Makes i .leave j (.hearLeave i)
  | catalog {m : ι} : Makes i (.hearJoin m) i (.catalog m)
  | announceJoin {m : ι} : v.Learns i m → Makes i (.hearJoin m) i (.announce m)
  | announcePeer {k : ι} : v.Learns i k → Makes i (.hearPeer k) i (.announce k)
  | tell {j k : ι} : j ∈ v.knows i → j ≠ k → Makes i (.announce k) j (.hearPeer k)
  | tellSelf {m : ι} : Makes i (.catalog m) m (.hearPeer i)
  | tellAll {m k : ι} : k ∈ v.knows i → Makes i (.catalog m) m (.hearPeer k)
  | announceLeave {k : ι} : k ∈ v.knows i → k ≠ i → Makes i (.hearLeave k) i (.announceLeave k)
  | tellLeave {j k : ι} : j ∈ v.knows i → j ≠ k → Makes i (.announceLeave k) j (.hearLeave k)

/-- Whoever is not known can be learned of. -/
def Roomy : Prop := ∀ i k, v.full i → k ≠ i → k ∈ v.knows i

end Circle

/-- Member `i` does errand `t`.  The errand may still be there, as when it was there twice. -/
structure Does (v w : Circle ι) (i : ι) (t : Errand ι) : Prop where
  kept : ∀ j u, v.pending j u → w.pending j u ∨ (j = i ∧ u = t)
  own : w.knows i = v.after i t
  others : ∀ j, j ≠ i → w.knows j = v.knows j
  makes : ∀ j u, v.Makes i t j u → w.pending j u

/-- Nobody learns or forgets anything, and no errand is lost. -/
structure Idle (v w : Circle ι) : Prop where
  kept : ∀ j u, v.pending j u → w.pending j u
  knows : ∀ j, w.knows j = v.knows j

/-- The errands by which members are told of, as opposed to departures. -/
def Errand.introduces : Errand ι → Prop
  | .join | .hearJoin _ | .hearPeer _ | .announce _ | .catalog _ => True
  | .leave | .hearLeave _ | .announceLeave _ => False

variable {v w : Circle ι} {i j k m p : ι} {t : Errand ι}

theorem Does.knows_mono (h : Does v w i t) (ht : t.introduces) : v.knows j ⊆ w.knows j := by
  by_cases hj : j = i
  · rw [hj, h.own]
    cases t with
    | hearJoin m => exact fun a ha => Or.inl ha
    | hearPeer m => exact fun a ha => Or.inl ha
    | join | announce m | catalog m => exact fun a ha => ha
    | leave | hearLeave m | announceLeave m => cases ht
  · rw [h.others j hj]

/-- Whom a member knows after an errand, it knew before, or it has just learned of. -/
theorem Does.knows_cases (h : Does v w i t) (hk : k ∈ w.knows j) :
    k ∈ v.knows j ∨ (j = i ∧ v.Learns i k ∧ (t = .hearJoin k ∨ t = .hearPeer k)) := by
  by_cases hj : j = i
  · rw [hj, h.own] at hk
    rw [hj]
    cases t with
    | hearJoin m =>
      rcases hk with hk | ⟨rfl, hlearns⟩
      · exact Or.inl hk
      · exact Or.inr ⟨rfl, hlearns, Or.inl rfl⟩
    | hearPeer m =>
      rcases hk with hk | ⟨rfl, hlearns⟩
      · exact Or.inl hk
      · exact Or.inr ⟨rfl, hlearns, Or.inr rfl⟩
    | hearLeave m => exact Or.inl hk.1
    | join | leave | announce m | catalog m | announceLeave m => exact Or.inl hk
  · rw [h.others j hj] at hk
    exact Or.inl hk

/-! ### Meeting -/

section Meeting

theorem Does.hears (h : Does v w i t) (roomy : v.Roomy) (hne : k ≠ i)
    (ht : t = .hearJoin k ∨ t = .hearPeer k) : k ∈ w.knows i := by
  by_cases hk : k ∈ v.knows i
  · rcases ht with rfl | rfl
    · exact h.knows_mono trivial hk
    · exact h.knows_mono trivial hk
  · have hlearns : v.Learns i k := ⟨hk, hne, fun hfull => hk (roomy i k hfull hne)⟩
    rw [h.own]
    rcases ht with rfl | rfl
    · exact Or.inr ⟨rfl, hlearns⟩
    · exact Or.inr ⟨rfl, hlearns⟩

/-- News of a member reaches the member it is for. -/
theorem Does.news (h : Does v w i t) (roomy : v.Roomy) (hne : k ≠ j)
    (hp : v.pending j (.hearPeer k)) : k ∈ w.knows j ∨ w.pending j (.hearPeer k) := by
  rcases h.kept j _ hp with hp | ⟨rfl, rfl⟩
  · exact Or.inr hp
  · exact Or.inl (h.hears roomy hne (Or.inr rfl))

theorem Does.announcement (h : Does v w i t) (hj : j ∈ v.knows m) (hne : j ≠ k)
    (hp : v.pending m (.announce k)) : w.pending m (.announce k) ∨ w.pending j (.hearPeer k) := by
  rcases h.kept m _ hp with hp | ⟨rfl, rfl⟩
  · exact Or.inl hp
  · exact Or.inr (h.makes _ _ (.tell hj hne))

theorem Does.catalogue (h : Does v w i t) (hk : k ∈ v.knows p) (hp : v.pending p (.catalog m)) :
    w.pending p (.catalog m) ∨ w.pending m (.hearPeer k) := by
  rcases h.kept p _ hp with hp | ⟨rfl, rfl⟩
  · exact Or.inl hp
  · exact Or.inr (h.makes _ _ (.tellAll hk))

/-- A member that learns of another announces it. -/
theorem Does.announces (h : Does v w i t) (hlearns : v.Learns i k)
    (ht : t = .hearJoin k ∨ t = .hearPeer k) : w.pending i (.announce k) := by
  rcases ht with rfl | rfl
  · exact h.makes _ _ (.announceJoin hlearns)
  · exact h.makes _ _ (.announcePeer hlearns)

/-- Member `m` has not been admitted by `p` yet. -/
def Joining (waiting : Set ι) (v : Circle ι) (m p : ι) : Prop :=
  m ∈ waiting ∨ v.pending m .join ∨ v.pending p (.hearJoin m)

theorem Joining.does {waiting : Set ι} (hjoin : Joining waiting v m p) (h : Does v w i t)
    (hp : p ∈ v.knows m) : Joining waiting w m p ∨ (p = i ∧ t = .hearJoin m) := by
  rcases hjoin with hwait | hjoin | hjoin
  · exact Or.inl (Or.inl hwait)
  · rcases h.kept m _ hjoin with hjoin | ⟨rfl, rfl⟩
    · exact Or.inl (Or.inr (Or.inl hjoin))
    · exact Or.inl (Or.inr (Or.inr (h.makes _ _ (.join hp))))
  · rcases h.kept p _ hjoin with hjoin | ⟨rfl, rfl⟩
    · exact Or.inl (Or.inr (Or.inr hjoin))
    · exact Or.inr ⟨rfl, rfl⟩

/-- A request to be admitted is answered with a catalog. -/
theorem Joining.admitted {waiting : Set ι} (hjoin : Joining waiting v m p) (h : Does v w i t)
    (hp : p ∈ v.knows m) : w.pending p (.catalog m) ∨ Joining waiting w m p := by
  rcases hjoin.does h hp with hjoin | ⟨rfl, rfl⟩
  · exact Or.inr hjoin
  · exact Or.inl (h.makes _ _ .catalog)

/-- Every member but the first has a parent that it knows from the start.  The two tell each other
of everyone that they know, and of each other. -/
structure Woven (parent : ι → Option ι) (waiting : Set ι) (v : Circle ι) : Prop where
  self : ∀ i, i ∉ v.knows i
  up : ∀ m p, parent m = some p → p ∈ v.knows m
  down : ∀ m p, parent m = some p → m ∈ v.knows p ∨ Joining waiting v m p
  tellsUp : ∀ m p, parent m = some p → ∀ k ∈ v.knows m, k ≠ p →
    k ∈ v.knows p ∨ v.pending p (.hearPeer k) ∨ v.pending m (.announce k)
  tellsDown : ∀ m p, parent m = some p → ∀ k ∈ v.knows p, k ≠ m →
    k ∈ v.knows m ∨ v.pending m (.hearPeer k) ∨ v.pending p (.announce k) ∨
      v.pending p (.catalog m) ∨ Joining waiting v m p

variable {parent : ι → Option ι} {waiting waiting' : Set ι}

/-- Nothing is lost, and a member that stops waiting asks to be admitted. -/
theorem Woven.idle (h : Woven parent waiting v) (idle : Idle v w)
    (starts : ∀ m ∈ waiting, m ∈ waiting' ∨ w.pending m .join) : Woven parent waiting' w := by
  have hjoin : ∀ m p, Joining waiting v m p → Joining waiting' w m p := by
    rintro m p (hwait | hjoin | hjoin)
    · rcases starts m hwait with hwait | hjoin
      · exact Or.inl hwait
      · exact Or.inr (Or.inl hjoin)
    · exact Or.inr (Or.inl (idle.kept _ _ hjoin))
    · exact Or.inr (Or.inr (idle.kept _ _ hjoin))
  constructor
  · intro i
    rw [idle.knows]
    exact h.self i
  · intro m p hp
    rw [idle.knows]
    exact h.up m p hp
  · intro m p hp
    rw [idle.knows]
    exact (h.down m p hp).imp_right (hjoin m p)
  · intro m p hp k hk hne
    rw [idle.knows] at hk ⊢
    exact (h.tellsUp m p hp k hk hne).imp_right (Or.imp (idle.kept _ _) (idle.kept _ _))
  · intro m p hp k hk hne
    rw [idle.knows] at hk ⊢
    exact (h.tellsDown m p hp k hk hne).imp_right (Or.imp (idle.kept _ _) (Or.imp (idle.kept _ _)
      (Or.imp (idle.kept _ _) (hjoin m p))))

/-- Every errand but those of departures keeps the members woven. -/
theorem Woven.does (h : Woven parent waiting v) (d : Does v w i t) (ht : t.introduces)
    (roomy : v.Roomy) : Woven parent waiting w := by
  have hne : ∀ m p, parent m = some p → m ≠ p := by
    rintro m p hp rfl
    exact h.self m (h.up m m hp)
  constructor
  · intro j hj
    rcases d.knows_cases hj with hold | ⟨rfl, hlearns, -⟩
    · exact h.self j hold
    · exact hlearns.2.1 rfl
  · intro m p hp
    exact d.knows_mono ht (h.up m p hp)
  · intro m p hp
    rcases h.down m p hp with hknown | hjoin
    · exact Or.inl (d.knows_mono ht hknown)
    · rcases hjoin.does d (h.up m p hp) with hjoin | ⟨rfl, rfl⟩
      · exact Or.inr hjoin
      · exact Or.inl (d.hears roomy (hne m p hp) (Or.inl rfl))
  · intro m p hp k hk hkp
    rcases d.knows_cases hk with hold | ⟨rfl, hlearns, hkind⟩
    · rcases h.tellsUp m p hp k hold hkp with hknown | hnews | hannounce
      · exact Or.inl (d.knows_mono ht hknown)
      · exact (d.news roomy hkp hnews).imp_right Or.inl
      · exact Or.inr (d.announcement (h.up m p hp) (Ne.symm hkp) hannounce).symm
    · exact Or.inr (Or.inr (d.announces hlearns hkind))
  · intro m p hp k hk hkm
    rcases d.knows_cases hk with hold | ⟨rfl, hlearns, hkind⟩
    · rcases h.tellsDown m p hp k hold hkm with hknown | hnews | hannounce | hcatalog | hjoin
      · exact Or.inl (d.knows_mono ht hknown)
      · exact (d.news roomy hkm hnews).imp_right Or.inl
      · rcases h.down m p hp with hm | hjoin
        · rcases d.announcement hm (Ne.symm hkm) hannounce with hannounce | hnews
          · exact Or.inr (Or.inr (Or.inl hannounce))
          · exact Or.inr (Or.inl hnews)
        · exact Or.inr (Or.inr (Or.inr (hjoin.admitted d (h.up m p hp))))
      · rcases d.catalogue hold hcatalog with hcatalog | hnews
        · exact Or.inr (Or.inr (Or.inr (Or.inl hcatalog)))
        · exact Or.inr (Or.inl hnews)
      · exact Or.inr (Or.inr (Or.inr (hjoin.admitted d (h.up m p hp))))
    · exact Or.inr (Or.inr (Or.inl (d.announces hlearns hkind)))

/-- Member `i` is connected to member `r` by parents. -/
inductive Rooted (parent : ι → Option ι) (r : ι) : ι → Prop
  | root : Rooted parent r r
  | child {m p : ι} : parent m = some p → Rooted parent r p → Rooted parent r m

/-- When nothing is to be done any more, a member and its parent know the same members. -/
theorem Woven.same (h : Woven parent ∅ v) (quiet : ∀ i t, t.introduces → ¬v.pending i t)
    (hp : parent m = some p) : insert m (v.knows m) = insert p (v.knows p) := by
  have hjoined : ¬Joining ∅ v m p := by
    rintro (hwait | hjoin | hjoin)
    · exact hwait
    · exact quiet m .join trivial hjoin
    · exact quiet p (.hearJoin m) trivial hjoin
  have hdown : m ∈ v.knows p := (h.down m p hp).resolve_right hjoined
  ext k
  constructor
  · rintro (rfl | hk)
    · exact Or.inr hdown
    · by_cases hkp : k = p
      · exact Or.inl hkp
      · rcases h.tellsUp m p hp k hk hkp with hknown | hnews | hannounce
        · exact Or.inr hknown
        · exact absurd hnews (quiet p _ trivial)
        · exact absurd hannounce (quiet m _ trivial)
  · rintro (rfl | hk)
    · exact Or.inr (h.up m k hp)
    · by_cases hkm : k = m
      · exact Or.inl hkm
      · rcases h.tellsDown m p hp k hk hkm with hknown | hnews | hannounce | hcatalog | hjoin
        · exact Or.inr hknown
        · exact absurd hnews (quiet m _ trivial)
        · exact absurd hannounce (quiet p _ trivial)
        · exact absurd hcatalog (quiet p _ trivial)
        · exact absurd hjoin hjoined

/-- When nothing is to be done any more, every member knows all the others. -/
theorem Woven.complete (h : Woven parent ∅ v) (quiet : ∀ i t, t.introduces → ¬v.pending i t)
    {r : ι} (rooted : ∀ i, Rooted parent r i) : k ∈ v.knows i ↔ k ≠ i := by
  have hsame : ∀ i, insert i (v.knows i) = insert r (v.knows r) := by
    intro i
    induction rooted i with
    | root => rfl
    | child hp _ ih => exact (h.same quiet hp).trans ih
  constructor
  · rintro hk rfl
    exact h.self k hk
  · intro hne
    have hk : k ∈ insert i (v.knows i) := by
      rw [hsame i, ← hsame k]
      exact Or.inl rfl
    exact hk.resolve_left hne

end Meeting

/-! ### Parting -/

/-- Member `i` is going to hear that `x` has left. -/
inductive Hears (v : Circle ι) (x : ι) : ι → Prop
  | told {i : ι} : v.pending i (.hearLeave x) → Hears v x i
  | announced {i j : ι} : v.pending j (.announceLeave x) → i ∈ v.knows j → i ≠ x → Hears v x i
  | passed {i j : ι} : Hears v x j → x ∈ v.knows j → i ∈ v.knows j → i ≠ x → Hears v x i

/-- The departure of `x` reaches member `i` by members that know `x`. -/
inductive Reaches (v : Circle ι) (x : ι) : ι → Prop
  | direct {i : ι} : i ∈ v.knows x → Reaches v x i
  | passed {i j : ι} : Reaches v x j → x ∈ v.knows j → i ∈ v.knows j → i ≠ x → Reaches v x i

/-- The members know each other as in `v`, but `i` does not know `y`. -/
def Circle.without (v : Circle ι) (i y : ι) : Circle ι :=
  { v with knows := fun j => {k | k ∈ v.knows j ∧ ¬(j = i ∧ k = y)} }

/-- An errand does not undo the departure of `x`: a member that does not know `x` is told of it only
while it is going to hear of the departure, and a member that is to pass the departure on forgets
another one that knows `x` only when that one is going to hear of the departure all the same. -/
def Final (v : Circle ι) (x i : ι) : Errand ι → Prop
  | .hearJoin m | .hearPeer m => m = x → v.Learns i x → Hears v x i
  | .hearLeave y => y ≠ x → y ∈ v.knows i → x ∈ v.knows i ∨ v.pending i (.announceLeave x) →
      x ∈ v.knows y → Hears (v.without i y) x y
  | _ => True

/-- Everyone that knows `x` is going to hear that it has left. -/
structure Wave (x : ι) (v : Circle ι) : Prop where
  self : x ∉ v.knows x
  hears : ∀ i, x ∈ v.knows i → Hears v x i

section Parting

variable {x : ι}

/-- Nobody forgets anyone but by hearing of a departure. -/
theorem Does.knows_of_ne (h : Does v w i t) (hk : k ∈ v.knows j) (hne : j = i → t ≠ .hearLeave k) :
    k ∈ w.knows j := by
  by_cases hj : j = i
  · rw [hj] at hk
    rw [hj, h.own]
    cases t with
    | hearLeave y => exact ⟨hk, fun heq => hne hj (heq ▸ rfl)⟩
    | hearJoin m => exact Or.inl hk
    | hearPeer m => exact Or.inl hk
    | join | leave | announce m | catalog m | announceLeave m => exact hk
  · rwa [h.others j hj]

theorem Hears.mono (hears : Hears v x k) (knows : ∀ j, v.knows j ⊆ w.knows j)
    (kept : ∀ j t, t = .hearLeave x ∨ t = .announceLeave x → v.pending j t → w.pending j t) :
    Hears w x k := by
  induction hears with
  | told hp => exact .told (kept _ _ (Or.inl rfl) hp)
  | announced hp hk hkx => exact .announced (kept _ _ (Or.inr rfl) hp) (knows _ hk) hkx
  | passed _ hj hk hkx ih => exact .passed ih (knows _ hj) (knows _ hk) hkx

/-- A departure that is going to be heard stays so for a member that knows `x`, until it hears
it. -/
theorem Hears.does (hears : Hears v x k) (h : Does v w i t)
    (keeps : ∀ y, y ≠ x → t ≠ .hearLeave y) (hx : x ∉ v.knows x) (hk : x ∈ v.knows k) :
    Hears w x k ∨ (k = i ∧ t = .hearLeave x) := by
  -- nobody but `x` is forgotten
  have edge : ∀ {j k}, k ∈ v.knows j → k ≠ x → k ∈ w.knows j := fun hkj hkx =>
    h.knows_of_ne hkj fun _ => keeps _ hkx
  induction hears with
  | told hp =>
    rcases h.kept _ _ hp with hp | hdone
    · exact Or.inl (.told hp)
    · exact Or.inr ⟨hdone.1, hdone.2.symm⟩
  | @announced k j hp hkj hkx =>
    rcases h.kept _ _ hp with hp | ⟨rfl, rfl⟩
    · exact Or.inl (.announced hp (edge hkj hkx) hkx)
    · exact Or.inl (.told (h.makes _ _ (.tellLeave hkj hkx)))
  | @passed k j hears hj hkj hkx ih =>
    have hjx : x ≠ j := by
      rintro rfl
      exact hx hj
    by_cases hdone : j = i ∧ t = .hearLeave x
    · obtain ⟨rfl, rfl⟩ := hdone
      exact Or.inl (.announced (h.makes _ _ (.announceLeave hj hjx)) (edge hkj hkx) hkx)
    · have hj' : x ∈ w.knows j := h.knows_of_ne hj fun hji ht => hdone ⟨hji, ht⟩
      exact Or.inl (.passed ((ih hj).resolve_right hdone) hj' (edge hkj hkx) hkx)

/-- When member `i` forgets `y`, the others hear of the departure if `y` does. -/
theorem Hears.without {y : ι} (hears : Hears v x k) (hne : y ≠ x)
    (final : Final v x i (.hearLeave y)) (hk : x ∈ v.knows k) : Hears (v.without i y) x k := by
  induction hears with
  | told hp => exact .told hp
  | @announced k j hp hkj hkx =>
    by_cases hcut : j = i ∧ k = y
    · obtain ⟨rfl, rfl⟩ := hcut
      exact final hne hkj (Or.inr hp) hk
    · exact .announced hp ⟨hkj, hcut⟩ hkx
  | @passed k j hears hj hkj hkx ih =>
    by_cases hcut : j = i ∧ k = y
    · obtain ⟨rfl, rfl⟩ := hcut
      exact final hne hkj (Or.inl hj) hk
    · exact .passed (ih hj) ⟨hj, fun heq => hne heq.2.symm⟩ ⟨hkj, hcut⟩ hkx

/-- Whoever forgets another member than `x` does not keep the departure from anyone. -/
theorem Hears.forgets {y : ι} (hears : Hears v x k) (h : Does v w i (.hearLeave y)) (hne : y ≠ x)
    (final : Final v x i (.hearLeave y)) (hk : x ∈ v.knows k) : Hears w x k := by
  refine (hears.without hne final hk).mono (fun j k hkj => ?_) fun j t ht hp => ?_
  · refine h.knows_of_ne hkj.1 fun hji heq => hkj.2 ⟨hji, ?_⟩
    injection heq with heq
    exact heq.symm
  · refine (h.kept j t hp).resolve_right fun hdone => ?_
    rcases ht with rfl | rfl
    · injection hdone.2 with heq
      exact hne heq.symm
    · cases hdone.2

theorem Hears.introduced (hears : Hears v x k) (h : Does v w i t) (ht : t.introduces) :
    Hears w x k := by
  refine hears.mono (fun j => h.knows_mono ht) fun j u hu hp => ?_
  refine (h.kept j u hp).resolve_right fun hdone => ?_
  rw [← hdone.2] at ht
  rcases hu with rfl | rfl <;> exact ht

theorem Hears.idle (hears : Hears v x k) (idle : Idle v w) : Hears w x k :=
  hears.mono (fun j => (idle.knows j).ge) fun j t _ => idle.kept j t

theorem Wave.idle (h : Wave x v) (idle : Idle v w) : Wave x w where
  self := by
    rw [idle.knows]
    exact h.self
  hears i hi := by
    rw [idle.knows] at hi
    exact (h.hears i hi).idle idle

/-- Every errand that does not undo the departure of `x` keeps the wave. -/
theorem Wave.does (h : Wave x v) (d : Does v w i t) (final : Final v x i t) : Wave x w := by
  constructor
  · intro hx
    rcases d.knows_cases hx with hold | ⟨rfl, hlearns, -⟩
    · exact h.self hold
    · exact hlearns.2.1 rfl
  · intro k hk
    rcases d.knows_cases hk with hold | ⟨rfl, hlearns, hkind⟩
    · by_cases hforgets : ∃ y, y ≠ x ∧ t = .hearLeave y
      · obtain ⟨y, hne, rfl⟩ := hforgets
        exact (h.hears k hold).forgets d hne final hold
      · rcases (h.hears k hold).does d (fun y hne heq => hforgets ⟨y, hne, heq⟩) h.self hold with
          hears | ⟨rfl, rfl⟩
        · exact hears
        · rw [d.own] at hk
          exact absurd rfl hk.2
    · rcases hkind with rfl | rfl
      · exact (final rfl hlearns).introduced d trivial
      · exact (final rfl hlearns).introduced d trivial

/-- The wave begins when `x` leaves, if it reaches everyone that knows `x`. -/
theorem Wave.leave (d : Does v w x .leave) (self : x ∉ v.knows x)
    (reaches : ∀ i, x ∈ v.knows i → Reaches v x i) : Wave x w := by
  have hknows : ∀ j, w.knows j = v.knows j := by
    intro j
    by_cases hj : j = x
    · rw [hj, d.own]
      rfl
    · exact d.others j hj
  have hhears : ∀ i, Reaches v x i → Hears w x i := by
    intro i hi
    induction hi with
    | direct hi => exact .told (d.makes _ _ (.leave hi))
    | passed _ hj hi hix ih => exact .passed ih (hknows _ ▸ hj) (hknows _ ▸ hi) hix
  constructor
  · rw [hknows]
    exact self
  · intro i hi
    rw [hknows] at hi
    exact hhears i (reaches i hi)

/-- When the departure of `x` is told nowhere any more, nobody knows `x`. -/
theorem Wave.over (h : Wave x v) (quiet : ∀ i, ¬v.pending i (.hearLeave x) ∧
    ¬v.pending i (.announceLeave x)) : x ∉ v.knows i := by
  have hnone : ∀ i, ¬Hears v x i := by
    intro i hears
    induction hears with
    | told hp => exact (quiet _).1 hp
    | announced hp => exact (quiet _).2 hp
    | passed _ _ _ _ ih => exact ih
  exact fun hi => hnone i (h.hears i hi)

end Parting

end Gossip
