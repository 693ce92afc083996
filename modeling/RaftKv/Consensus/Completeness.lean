import RaftKv.Consensus.Ledger

/-! Leader completeness for histories in which members copy only from the leader of their term: a
log prefix that a quorum has held in the term of its last entry is in the log of every later
leader, and the prefixes settled in this way form one growing log. -/

namespace Consensus.Ledger

open Function

variable {ι α : Type*} (τ : α → ℕ) (Quorum : Finset ι → Prop)

/-- The log `l` starts with the first `n` entries of the leader of term `t`, or a leader between
`t` and `u` was elected without them. -/
def Carries (g : Ledger ι α) (t n u : ℕ) (l : List α) : Prop :=
  (g.lead t).take n <+: l ∨
    ∃ w, t < w ∧ w < u ∧ g.leader w ≠ none ∧ ¬(g.lead t).take n <+: g.base w

/-- What a history keeps when members copy only from the leader of their term. -/
structure Complete (g : Ledger ι α) : Prop where
  heldTerm : ∀ i t n, n ∈ g.held i t → t ≤ g.term i ∧ n ≤ (g.lead t).length
  heldLog : ∀ i t n, n ∈ g.held i t → g.Carries t n (g.term i + 1) (g.log i)
  heldBallot : ∀ i u c, g.vote i u = some c → ∀ t < u, ∀ n ∈ g.held i t,
    g.Carries t n (u + 1) (g.ballot i u)
  elected : ∀ u c, g.leader u = some c → ∃ Q, Quorum Q ∧ ∀ j ∈ Q, g.vote j u = some c ∧
    UpToDate τ (g.base u) (g.ballot j u) ∧
    ∀ t < u, ∀ n ∈ g.held j t, g.Carries t n u (g.ballot j u)
  own : ∀ t c, g.leader t = some c → ∀ q a, q ++ [a] <+: g.lead t → τ a = t →
    q.length + 1 ∈ g.held c t

theorem complete_initial : Complete τ Quorum (initial : Ledger ι α) where
  heldTerm _ _ _ h := by simp [initial] at h
  heldLog _ _ _ h := by simp [initial] at h
  heldBallot _ _ _ h := by simp [initial] at h
  elected _ _ h := by simp [initial] at h
  own _ _ h := by simp [initial] at h

variable {τ Quorum} {g g' : Ledger ι α}

theorem Carries.widen {t n u u' : ℕ} {l : List α} (h : g.Carries t n u l) (hu : u ≤ u') :
    g.Carries t n u' l :=
  h.imp id fun ⟨w, h1, h2, h3⟩ => ⟨w, h1, h2.trans_le hu, h3⟩

theorem Carries.longer {t n u : ℕ} {l l' : List α} (h : g.Carries t n u l) (hl : l <+: l') :
    g.Carries t n u l' :=
  h.imp (fun h => h.trans hl) id

/-- The entries that a leader's log has stay as the history goes on. -/
theorem Extends.take_lead (e : Extends g g') {t n : ℕ} (hn : n ≤ (g.lead t).length) :
    (g'.lead t).take n = (g.lead t).take n := by
  obtain ⟨s, hs⟩ := e.lead t
  rw [← hs, List.take_append_of_le_length hn]

theorem Carries.extend {t n u : ℕ} {l : List α} (h : g.Carries t n u l) (e : Extends g g')
    (hn : n ≤ (g.lead t).length) : g'.Carries t n u l := by
  unfold Carries at h ⊢
  rw [e.take_lead hn]
  refine h.imp id fun ⟨w, h1, h2, h3, h4⟩ => ⟨w, h1, h2, ?_⟩
  obtain ⟨d, hd⟩ := Option.ne_none_iff_exists'.mp h3
  obtain ⟨h5, h6⟩ := e.leader w d hd
  exact ⟨by simp [h5], by rwa [h6]⟩

/-- `Complete` after an event that adds to `held` only for a member at its own term, where its
log starts with the entries held. -/
theorem Complete.grow (c : Complete τ Quorum g) (m : Matching τ Quorum g) (e : Extends g g')
    (fresh : ∀ i t n, n ∈ g'.held i t → n ∉ g.held i t →
      t = g.term i ∧ n ≤ (g'.lead t).length ∧ (g'.lead t).take n <+: g'.log i)
    (logs : ∀ i t n, n ∈ g.held i t → g'.Carries t n (g'.term i + 1) (g'.log i))
    (votes : ∀ i u d, g'.vote i u = some d → g.vote i u = none →
      u = g.term i ∧ g'.ballot i u = g.log i)
    (leaders : ∀ u d, g'.leader u = some d → g.leader u = none → ∃ Q, Quorum Q ∧ ∀ j ∈ Q,
      g.vote j u = some d ∧ UpToDate τ (g'.base u) (g.ballot j u))
    (own : ∀ t d, g'.leader t = some d → ∀ q a, q ++ [a] <+: g'.lead t → τ a = t →
      q.length + 1 ∈ g'.held d t) : Complete τ Quorum g' where
  heldTerm i t n h := by
    by_cases hn : n ∈ g.held i t
    · obtain ⟨h1, h2⟩ := c.heldTerm i t n hn
      exact ⟨h1.trans (e.term i), h2.trans (e.lead t).length_le⟩
    · obtain ⟨rfl, h2, -⟩ := fresh i t n h hn
      exact ⟨e.term i, h2⟩
  heldLog i t n h := by
    by_cases hn : n ∈ g.held i t
    · exact logs i t n hn
    · exact Or.inl (fresh i t n h hn).2.2
  heldBallot i u d hd t ht n h := by
    have hn : n ∈ g.held i t := by
      by_contra hn
      obtain ⟨rfl, -, -⟩ := fresh i t n h hn
      cases hv : g.vote i u with
      | none => have := (votes i u d hd hv).1; omega
      | some d' => have := m.voted i u d' hv; omega
    have hle := (c.heldTerm i t n hn).2
    cases hv : g.vote i u with
    | none =>
      obtain ⟨rfl, hb⟩ := votes i u d hd hv
      rw [hb]
      exact (c.heldLog i t n hn).extend e hle
    | some d' =>
      rw [(e.vote i u d' hv).2]
      exact (c.heldBallot i u d' hv t ht n hn).extend e hle
  elected u d hd := by
    -- a vote for `u` keeps the voter's term at `u` or above, so nothing new is held below `u`
    have old : ∀ j d', g.vote j u = some d' → ∀ t < u, ∀ n ∈ g'.held j t, n ∈ g.held j t := by
      intro j d' hv t ht n h
      by_contra hn
      obtain ⟨rfl, -, -⟩ := fresh j t n h hn
      have := m.voted j u d' hv
      omega
    cases hl : g.leader u with
    | none =>
      obtain ⟨Q, hQ, hv⟩ := leaders u d hd hl
      refine ⟨Q, hQ, fun j hj => ?_⟩
      obtain ⟨h1, h2⟩ := hv j hj
      obtain ⟨h3, h4⟩ := e.vote j u d h1
      refine ⟨h3, by rwa [h4], fun t ht n h => ?_⟩
      have hn := old j d h1 t ht n h
      rw [h4]
      refine Carries.extend ?_ e (c.heldTerm j t n hn).2
      rcases c.heldBallot j u d h1 t ht n hn with h5 | ⟨w, h5, h6, h7, h8⟩
      · exact Or.inl h5
      · have hw : w ≠ u := by rintro rfl; exact h7 hl
        exact Or.inr ⟨w, h5, by omega, h7, h8⟩
    | some d' =>
      obtain ⟨h1, h2⟩ := e.leader u d' hl
      obtain rfl : d' = d := Option.some.inj (h1.symm.trans hd)
      obtain ⟨Q, hQ, hv⟩ := c.elected u d' hl
      refine ⟨Q, hQ, fun j hj => ?_⟩
      obtain ⟨h3, h4, h5⟩ := hv j hj
      obtain ⟨h6, h7⟩ := e.vote j u d' h3
      refine ⟨h6, by rwa [h2, h7], fun t ht n h => ?_⟩
      have hn := old j d' h3 t ht n h
      rw [h7]
      exact (h5 t ht n hn).extend e (c.heldTerm j t n hn).2
  own := own

/-- Taking over a prefix of the log of the leader of its term, a member keeps what it has held. -/
theorem Carries.adopt {t n : ℕ} {i : ι} {p : List α} (h : g.Carries t n (g.term i + 1) (g.log i))
    (ht : t ≤ g.term i) (led : g.leader (g.term i) ≠ none) (hp : p <+: g.lead (g.term i))
    (m : Matching τ Quorum g) : g.Carries t n (g.term i + 1) (merge (g.log i) p) := by
  rcases h with h | h
  · rcases ht.lt_or_eq with hlt | rfl
    · by_cases hb : (g.lead t).take n <+: g.base (g.term i)
      · obtain ⟨s, hs, -⟩ := m.split (g.term i)
        exact Or.inl (prefix_merge_of_shared h (hb.trans ⟨s, hs.symm⟩) hp)
      · exact Or.inr ⟨g.term i, hlt, Nat.lt_succ_self _, led, hb⟩
    · exact Or.inl (prefix_merge_of_shared h (List.take_prefix _ _) hp)
  · exact Or.inr h

section Steps

variable [DecidableEq ι] {i : ι}

theorem Complete.adopt (c : Complete τ Quorum g) (m : Matching τ Quorum g) {p : List α}
    (led : g.leader (g.term i) ≠ none) (hp : p <+: g.lead (g.term i)) :
    Complete τ Quorum (g.adopt i p) := by
  refine { c with heldLog := fun j t n h => ?_ }
  have hc : g.Carries t n (g.term j + 1) (g.log j) := c.heldLog j t n h
  by_cases hj : j = i
  · subst hj
    have := hc.adopt (c.heldTerm j t n h).1 led hp m
    simpa [Ledger.adopt, Carries] using this
  · simpa [Ledger.adopt, hj, Carries] using hc

theorem Complete.step (c : Complete τ Quorum g) (m : Matching τ Quorum g)
    (h : Step τ Quorum True i g g') : Complete τ Quorum g' := by
  have e : Extends g g' := h.extends m
  have logs : (∀ i, g.log i <+: g'.log i) → ∀ i t n, n ∈ g.held i t →
      g'.Carries t n (g'.term i + 1) (g'.log i) := fun keep i t n hn =>
    (((c.heldLog i t n hn).extend e (c.heldTerm i t n hn).2).widen
      (Nat.succ_le_succ (e.term i))).longer (keep i)
  cases h with
  | advance t le =>
    exact c.grow m e (fun _ _ _ h h' => absurd h h') (logs fun _ => List.prefix_rfl)
      (fun j u d h h' => by rw [show g.vote j u = some d from h] at h'; cases h')
      (fun u d h h' => by rw [show g.leader u = some d from h] at h'; cases h') c.own
  | cast d free =>
    refine c.grow m e (fun _ _ _ h h' => absurd h h') (logs fun _ => List.prefix_rfl)
      (fun j u b h h' => ?_)
      (fun u b h h' => by rw [show g.leader u = some b from h] at h'; cases h') c.own
    by_cases hj : j = i
    · subst hj
      by_cases hu : u = g.term j
      · subst hu; simp [Ledger.cast]
      · have : g.vote j u = some b := by simpa [Ledger.cast, hu] using h
        rw [this] at h'; cases h'
    · have : g.vote j u = some b := by simpa [Ledger.cast, hj] using h
      rw [this] at h'; cases h'
  | elect Q quorum open_ older votes =>
    refine c.grow m e (fun _ _ _ h h' => absurd h h') (logs fun _ => List.prefix_rfl)
      (fun j u b h h' => by rw [show g.vote j u = some b from h] at h'; cases h')
      (fun u b h h' => ?_) (fun t b h q a hq ha => ?_)
    · by_cases hu : u = g.term i
      · subst hu
        obtain rfl : i = b := by simpa [Ledger.elect] using h
        exact ⟨Q, quorum, by simpa [Ledger.elect] using votes⟩
      · have : g.leader u = some b := by simpa [Ledger.elect, hu] using h
        rw [this] at h'; cases h'
    · by_cases ht : t = g.term i
      · subst ht
        have hmem : a ∈ g.log i := (by simpa [Ledger.elect] using hq :
          q ++ [a] <+: g.log i).subset (by simp)
        have := older a hmem
        omega
      · exact c.own t b (by simpa [Ledger.elect, ht] using h) q a
          (by simpa [Ledger.elect, ht] using hq) ha
  | append a leads current fresh =>
    refine c.grow m e (fun j t n h h' => ?_) (logs fun j => ?_)
      (fun j u b h h' => by rw [show g.vote j u = some b from h] at h'; cases h')
      (fun u b h h' => by rw [show g.leader u = some b from h] at h'; cases h')
      (fun t b h q a' hq ha => ?_)
    · by_cases hj : j = i
      · subst hj
        by_cases ht : t = g.term j
        · subst ht
          have hn : n ≤ (g.log j).length + 1 := by
            simpa [Ledger.append, h'] using h
          exact ⟨rfl, by simpa [Ledger.append] using hn,
            by simpa [Ledger.append] using List.take_prefix n (g.log j ++ [a])⟩
        · exact absurd (by simpa [Ledger.append, ht] using h) h'
      · exact absurd (by simpa [Ledger.append, hj] using h) h'
    · by_cases hj : j = i
      · subst hj; simp [Ledger.append]
      · simp [Ledger.append, hj]
    · by_cases ht : t = g.term i
      · subst ht
        obtain rfl : i = b := Option.some.inj (leads.symm.trans h)
        have hlen := (by simpa [Ledger.append] using hq :
          q ++ [a'] <+: g.log i ++ [a]).length_le
        have hlen' : q.length + 1 ≤ (g.log i).length + 1 := by simpa using hlen
        simp [Ledger.append, hlen']
      · have := c.own t b h q a' (by simpa [Ledger.append, ht] using hq) ha
        exact e.held b t this
  | adopt p rooted terms source => exact c.adopt m (source trivial).1 (source trivial).2
  | hold k le has =>
    refine c.grow m e (fun j t n h h' => ?_) (logs fun _ => List.prefix_rfl)
      (fun j u b h h' => by rw [show g.vote j u = some b from h] at h'; cases h')
      (fun u b h h' => by rw [show g.leader u = some b from h] at h'; cases h')
      (fun t b h q a hq ha => e.held b t (c.own t b h q a hq ha))
    by_cases hj : j = i
    · subst hj
      by_cases ht : t = g.term j
      · subst ht
        have hn : n ≤ k := by simpa [Ledger.hold, h'] using h
        exact ⟨rfl, hn.trans le, (List.take_prefix_take_left hn).trans has⟩
      · exact absurd (by simpa [Ledger.hold, ht] using h) h'
    · exact absurd (by simpa [Ledger.hold, hj] using h) h'

theorem Complete.steps (c : Complete τ Quorum g) (m : Matching τ Quorum g)
    (h : Steps τ Quorum True i g g') : Complete τ Quorum g' := by
  induction h with
  | refl => exact c
  | tail hs hstep ih => exact ih.step (m.steps hs).2.2 hstep

end Steps

/-! ### Committed entries -/

/-- A quorum has held the first `n` entries of the leader of term `t` in its term, the last of
them made in that term. -/
def Committed (Quorum : Finset ι → Prop) (τ : α → ℕ) (g : Ledger ι α) (t n : ℕ) : Prop :=
  ∃ q a, q ++ [a] <+: g.lead t ∧ q.length + 1 = n ∧ τ a = t ∧
    ∃ Q, Quorum Q ∧ ∀ j ∈ Q, n ∈ g.held j t

/-- `p` is part of a log prefix committed in a term up to `T`. -/
def Settled (Quorum : Finset ι → Prop) (τ : α → ℕ) (g : Ledger ι α) (T : ℕ) (p : List α) : Prop :=
  p = [] ∨ ∃ t n, t ≤ T ∧ Committed Quorum τ g t n ∧ p <+: (g.lead t).take n

theorem Committed.extend {t n : ℕ} (h : Committed Quorum τ g t n) (e : Extends g g') :
    Committed Quorum τ g' t n := by
  obtain ⟨q, a, h1, h2, h3, Q, hQ, h4⟩ := h
  exact ⟨q, a, h1.trans (e.lead t), h2, h3, Q, hQ, fun j hj => e.held j t (h4 j hj)⟩

theorem Committed.length_le {t n : ℕ} (h : Committed Quorum τ g t n) : n ≤ (g.lead t).length := by
  obtain ⟨q, a, h1, rfl, -⟩ := h
  simpa using h1.length_le

theorem Committed.led {t n : ℕ} (h : Committed Quorum τ g t n) (m : Matching τ Quorum g) :
    g.leader t ≠ none := by
  intro hn
  obtain ⟨q, a, h1, -⟩ := h
  rw [m.unled t hn] at h1
  simp at h1

theorem Settled.extend {T : ℕ} {p : List α} (h : Settled Quorum τ g T p) (e : Extends g g') :
    Settled Quorum τ g' T p := by
  rcases h with h | ⟨t, n, h1, h2, h3⟩
  · exact Or.inl h
  · exact Or.inr ⟨t, n, h1, h2.extend e, by rwa [e.take_lead h2.length_le]⟩

theorem Settled.later {T T' : ℕ} {p : List α} (h : Settled Quorum τ g T p) (hT : T ≤ T') :
    Settled Quorum τ g T' p :=
  h.imp id fun ⟨t, n, h1, h2, h3⟩ => ⟨t, n, h1.trans hT, h2, h3⟩

theorem Settled.sub {T : ℕ} {p q : List α} (h : Settled Quorum τ g T p) (hq : q <+: p) :
    Settled Quorum τ g T q := by
  rcases h with rfl | ⟨t, n, h1, h2, h3⟩
  · exact Or.inl (List.prefix_nil.mp hq)
  · exact Or.inr ⟨t, n, h1, h2, hq.trans h3⟩

theorem Committed.settled {t n : ℕ} (h : Committed Quorum τ g t n) :
    Settled Quorum τ g t ((g.lead t).take n) :=
  Or.inr ⟨t, n, le_rfl, h, List.prefix_rfl⟩

/-- The terms along a rooted log do not pass the last one. -/
theorem Matching.le_lastTerm (m : Matching τ Quorum g) {l : List α} (h : Rooted τ g.lead l)
    {a : α} (ha : a ∈ l) : τ a ≤ lastTerm τ l := by
  obtain ⟨q, b, rfl⟩ := (List.eq_nil_or_concat l).resolve_left (by rintro rfl; simp at ha)
  rw [List.concat_eq_append] at ha h ⊢
  rw [lastTerm_concat]
  obtain ⟨own, h1, h2, h3⟩ := m.split (τ b)
  have hmem := (h q b List.prefix_rfl).subset ha
  rw [h1] at hmem
  rcases List.mem_append.mp hmem with hb | ho
  · exact (h2 a hb).le
  · exact (h3 a ho).le

/-- A log that is at least as up to date as one with the committed prefix has the prefix, when the
leaders of the terms between do. -/
theorem Matching.dominate (m : Matching τ Quorum g) {l b q : List α} {a : α} {u : ℕ}
    (hl : Rooted τ g.lead l) (hb : Rooted τ g.lead b) (hu : ∀ x ∈ b, τ x < u)
    (hq : q ++ [a] <+: l) (up : UpToDate τ b l)
    (between : ∀ w, τ a < w → w < u → g.leader w ≠ none → q ++ [a] <+: g.base w) :
    q ++ [a] <+: b := by
  have hal : τ a ≤ lastTerm τ l := m.le_lastTerm hl (hq.subset (by simp))
  obtain ⟨l', x, rfl⟩ := (List.eq_nil_or_concat l).resolve_left (by rintro rfl; simp at hq)
  have hne : b ≠ [] := by
    rintro rfl
    rcases up with h | ⟨-, h⟩ <;> simp at h
  obtain ⟨b', y, rfl⟩ := (List.eq_nil_or_concat b).resolve_left hne
  simp only [List.concat_eq_append, UpToDate, lastTerm_concat] at *
  have hby := hb b' y List.prefix_rfl
  rcases up with hlt | ⟨heq, hlen⟩
  · -- the leader of the later last term was elected with the prefix
    have hyu : τ y < u := hu y (by simp)
    have hled : g.leader (τ y) ≠ none := by
      intro hn
      rw [m.unled _ hn] at hby
      simp at hby
    have hpre := between (τ y) (by omega) hyu hled
    obtain ⟨own, h1, h2, h3⟩ := m.split (τ y)
    have hbase : g.base (τ y) <+: g.lead (τ y) := ⟨own, h1.symm⟩
    refine hpre.trans (List.prefix_of_prefix_length_le hbase hby ?_)
    by_contra hlong
    have hyb := (List.prefix_of_prefix_length_le hby hbase (by omega)).subset
      (show y ∈ b' ++ [y] by simp)
    have := h2 y hyb
    omega
  · have hlx := hl l' x List.prefix_rfl
    rw [heq] at hlx
    exact hq.trans (List.prefix_of_prefix_length_le hlx hby hlen)

/-- Leader completeness: a committed prefix is in the log that every later leader is elected
with. -/
theorem Complete.prefix_later_lead (c : Complete τ Quorum g) (m : Matching τ Quorum g)
    (meet : ∀ P Q, Quorum P → Quorum Q → ∃ j, j ∈ P ∧ j ∈ Q) {t n : ℕ}
    (h : Committed Quorum τ g t n) (u : ℕ) (hu : t < u) (led : g.leader u ≠ none) :
    (g.lead t).take n <+: g.base u := by
  induction u using Nat.strong_induction_on with
  | _ u ih =>
  obtain ⟨q, a, hqa, hn, rfl, P, hP, hheld⟩ := h
  have htake : (g.lead (τ a)).take n = q ++ [a] := by
    obtain ⟨s, hs⟩ := hqa
    rw [← hs, List.take_append_of_le_length (by simp [hn]), List.take_of_length_le (by simp [hn])]
  obtain ⟨d, hd⟩ := Option.ne_none_iff_exists'.mp led
  obtain ⟨Q, hQ, hv⟩ := c.elected u d hd
  obtain ⟨j, hjP, hjQ⟩ := meet P Q hP hQ
  obtain ⟨-, hup, hcarry⟩ := hv j hjQ
  have hbal : q ++ [a] <+: g.ballot j u := by
    rcases hcarry (τ a) hu n (hheld j hjP) with h | ⟨w, h1, h2, h3, h4⟩
    · rwa [htake] at h
    · exact absurd (ih w h2 h1 h3) h4
  obtain ⟨own, h1, h2, -⟩ := m.split u
  rw [htake]
  exact m.dominate (m.ballots j u) ((m.leads u).sub ⟨own, h1.symm⟩) h2 hbal hup
    fun w hw hwu hled => htake ▸ ih w hwu hw hled

/-- What is settled is in the log of every leader from its term on. -/
theorem Complete.settled_lead (c : Complete τ Quorum g) (m : Matching τ Quorum g)
    (meet : ∀ P Q, Quorum P → Quorum Q → ∃ j, j ∈ P ∧ j ∈ Q) {T u : ℕ} {p : List α}
    (h : Settled Quorum τ g T p) (hu : T ≤ u) (led : g.leader u ≠ none) : p <+: g.lead u := by
  rcases h with rfl | ⟨t, n, h1, h2, h3⟩
  · exact List.nil_prefix
  · rcases (h1.trans hu).lt_or_eq with hlt | rfl
    · obtain ⟨own, hs, -⟩ := m.split u
      exact (h3.trans (c.prefix_later_lead m meet h2 u hlt led)).trans ⟨own, hs.symm⟩
    · exact h3.trans (List.take_prefix _ _)

/-- Two settled prefixes agree as far as both go. -/
theorem Complete.settled_comparable (c : Complete τ Quorum g) (m : Matching τ Quorum g)
    (meet : ∀ P Q, Quorum P → Quorum Q → ∃ j, j ∈ P ∧ j ∈ Q) {T T' : ℕ} {p p' : List α}
    (h : Settled Quorum τ g T p) (h' : Settled Quorum τ g T' p') : p <+: p' ∨ p' <+: p := by
  rcases h with rfl | ⟨t, n, -, h2, h3⟩
  · exact Or.inl List.nil_prefix
  rcases h' with rfl | ⟨t', n', -, h2', h3'⟩
  · exact Or.inr List.nil_prefix
  have hp : Settled Quorum τ g t p := h2.settled.sub h3
  have hp' : Settled Quorum τ g t' p' := h2'.settled.sub h3'
  rcases le_total t t' with hle | hle
  · exact List.prefix_or_prefix_of_prefix (c.settled_lead m meet hp hle (h2'.led m))
      (c.settled_lead m meet hp' le_rfl (h2'.led m))
  · exact List.prefix_or_prefix_of_prefix (c.settled_lead m meet hp le_rfl (h2.led m))
      (c.settled_lead m meet hp' hle (h2.led m))

/-- What a member has held in a term is in its log, when the leaders of the terms since then were
elected with it. -/
theorem Complete.held_stays (c : Complete τ Quorum g) {i : ι} {t n : ℕ} (h : n ∈ g.held i t)
    (between : ∀ w, t < w → w ≤ g.term i → g.leader w ≠ none → (g.lead t).take n <+: g.base w) :
    (g.lead t).take n <+: g.log i := by
  rcases c.heldLog i t n h with hp | ⟨w, hw, hwi, led, hnot⟩
  · exact hp
  · exact absurd (between w hw (Nat.le_of_lt_succ hwi) led) hnot

/-- What is settled is in the logs of a quorum. -/
theorem Complete.settled_quorum (c : Complete τ Quorum g) (m : Matching τ Quorum g)
    (meet : ∀ P Q, Quorum P → Quorum Q → ∃ j, j ∈ P ∧ j ∈ Q) {T : ℕ} {p : List α}
    (h : Settled Quorum τ g T p) (hp : p ≠ []) : ∃ Q, Quorum Q ∧ ∀ j ∈ Q, p <+: g.log j := by
  obtain ⟨t, n, -, hc, hpn⟩ := h.resolve_left hp
  obtain ⟨Q, hQ, hheld⟩ : ∃ Q, Quorum Q ∧ ∀ j ∈ Q, n ∈ g.held j t := by
    obtain ⟨q, a, -, -, -, hQ⟩ := hc
    exact hQ
  exact ⟨Q, hQ, fun j hj => hpn.trans (c.held_stays (hheld j hj) fun w hw _ led =>
    c.prefix_later_lead m meet hc w hw led)⟩

section Steps

variable [DecidableEq ι] {i : ι}

theorem Complete.stays_step (c : Complete τ Quorum g) (m : Matching τ Quorum g)
    (meet : ∀ P Q, Quorum P → Quorum Q → ∃ j, j ∈ P ∧ j ∈ Q) (h : Step τ Quorum True i g g')
    {T : ℕ} {p : List α} {j : ι} (hp : Settled Quorum τ g T p) (hT : T ≤ g.term j)
    (hl : p <+: g.log j) : p <+: g'.log j := by
  by_cases hj : j = i
  · subst hj
    cases h with
    | advance t le => exact hl
    | cast c free => exact hl
    | elect Q quorum open_ older votes => exact hl
    | append a leads current fresh => exact hl.trans (by simp [Ledger.append])
    | adopt l rooted terms source =>
      obtain ⟨led, hsub⟩ := source trivial
      have := prefix_merge_of_shared hl (c.settled_lead m meet hp hT led) hsub
      simpa [Ledger.adopt] using this
    | hold n le has => exact hl
  · rwa [h.local.log j hj]

/-- What is settled stays in the log of a member that has it. -/
theorem Complete.stays (c : Complete τ Quorum g) (m : Matching τ Quorum g)
    (meet : ∀ P Q, Quorum P → Quorum Q → ∃ j, j ∈ P ∧ j ∈ Q) (h : Steps τ Quorum True i g g')
    {T : ℕ} {p : List α} {j : ι} (hp : Settled Quorum τ g T p) (hT : T ≤ g.term j)
    (hl : p <+: g.log j) : p <+: g'.log j := by
  induction h with
  | refl => exact hl
  | tail hs hstep ih =>
    obtain ⟨e, -, m'⟩ := m.steps hs
    exact (c.steps m hs).stays_step m' meet hstep (hp.extend e) (hT.trans (e.term j)) ih

end Steps

end Consensus.Ledger
