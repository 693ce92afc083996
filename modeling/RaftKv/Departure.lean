import RaftKv.Discovery

/-! Departures.  A node that leaves is forgotten by all the others, when its departure reaches every
node that lists it, no line about it comes to a node that will not hear of the departure, and no
other departure cuts a node off from it. -/

namespace RaftKv

open Function Gossip Runs Stdio

attribute [local irreducible] toInt32

variable {n : ℕ}

/-- No membership line is on its way. -/
def Cluster.Unheard (s : Cluster n) : Prop := ∀ p ∈ s.net, p.line.gossips = false

/-- No thread is going to enter a membership section. -/
def Cluster.Resting (s : Cluster n) : Prop := ∀ th ∈ s.threads, ∀ sec ∈ th.2, sec.gossips = false

instance (s : Cluster n) : Decidable s.Unheard := inferInstanceAs (Decidable (∀ p ∈ s.net, _))

instance (s : Cluster n) : Decidable s.Resting :=
  inferInstanceAs (Decidable (∀ th ∈ s.threads, ∀ sec ∈ th.2, _))

/-- Threads start as in `node.cpp`, no value of a deletion has a newline in it, and no membership
line is lost. -/
def Heard (s : Cluster n) (a : Action n) : Prop := a.outer = true ∧ a.Unbroken ∧ s.Delivers a

instance (s : Cluster n) (a : Action n) : Decidable (Heard s a) :=
  inferInstanceAs (Decidable (_ ∧ _))

/-- Node `x` does not ask to join. -/
def Action.stays (x : Fin n) : Action n → Bool
  | .enter i _ sec => ¬(i = x ∧ sec = .requestClusterJoin)
  | _ => true

/-- The section brings no news of node `id`, and of no departure but that of `id`. -/
def Section.parts (id : ℕ) : Section → Bool
  | .handleJoin peerId .. | .handlePeerAnnounce peerId .. => peerId ≠ id
  | .handleLeave peerId => peerId = id
  | _ => true

namespace Deployment

variable (D : Deployment n)

/-- The departure of `x` reaches every node that lists it. -/
def Reached (x : Fin n) (s : Cluster n) : Prop :=
  ∀ i, D.contact x ∈ (s.node i).table → Reaches (D.circle s) x i

/-- Everyone that lists `x` is listed by `x`. -/
def Mutual (x : Fin n) (s : Cluster n) : Prop :=
  ∀ i, D.contact x ∈ (s.node i).table → D.contact i ∈ (s.node x).table

/-- The action does not undo the departure of `x`. -/
def Parts (x : Fin n) (s : Cluster n) (a : Action n) : Prop :=
  ∀ i t, s.entered a = some (i, D.handle t) → Final (D.circle s) x i t

/-- Nobody else lists `x`. -/
def Forgotten (x : Fin n) (s : Cluster n) : Prop := ∀ i, i ≠ x → D.contact x ∉ (s.node i).table

variable {D} {x : Fin n} {s s' : Cluster n} {a : Action n} {now : Fin n → ℕ}

theorem addressed_run (run : Reach Cluster.step Heard (Cluster.start now D.config) s) :
    D.Addressed s := by
  refine run.invariant (addressed_start D now) ?_
  intro s a s' _ h heard hstep
  exact (h.step heard.1 heard.2.1 hstep).1

/-- The request to leave starts the wave. -/
theorem wave_leave (h : D.Addressed s) (reached : D.Reached x s) {env : Env}
    (leaves : s.step (.enter x env .requestClusterLeave) = some s') : Wave x (D.circle s') := by
  have hent : s.entered (.enter x env .requestClusterLeave) = some (x, D.handle .leave) := rfl
  have right := (h.step rfl (by trivial) leaves).2
  rcases circle_step h right trivial leaves with ⟨-, hnone⟩ | ⟨i, t, hent', does⟩
  · exact absurd hent (hnone x .leave)
  · obtain ⟨rfl, ht⟩ := Prod.mk.inj (Option.some.inj (hent.symm.trans hent'))
    obtain rfl := handle_injective ht
    exact .leave does (h.node x).not_self reached

theorem wave_step (h : D.Addressed s) (wave : Wave x (D.circle s)) (heard : Heard s a)
    (parts : D.Parts x s a) (hstep : s.step a = some s') : Wave x (D.circle s') := by
  obtain ⟨outer, ok, delivers⟩ := heard
  rcases circle_step h (h.step outer ok hstep).2 delivers hstep with ⟨idle, -⟩ | ⟨i, t, hent, does⟩
  · exact wave.idle idle
  · exact wave.does does (parts i t hent)

theorem quiet_leave (unheard : s.Unheard) (resting : s.Resting) (i : Fin n) :
    ¬(D.circle s).pending i (.hearLeave x) ∧ ¬(D.circle s).pending i (.announceLeave x) := by
  constructor
  · intro hp
    exact absurd (unheard _ hp) (by simp [packet, Line.gossips])
  · intro hp
    obtain ⟨th, hth, -, hmem⟩ : ∃ th ∈ s.threads, th.1 = i ∧ D.handle (.announceLeave x) ∈ th.2 :=
      hp
    exact absurd (resting th hth _ hmem) (by simp [handle, Section.gossips])

/-- A graceful leave is final, when the departure reaches every node that lists `x`, and no later
action undoes it. -/
theorem leave_final {s₀ s₁ : Cluster n} {env : Env}
    (before : Reach Cluster.step Heard (Cluster.start now D.config) s₀)
    (reached : D.Reached x s₀) (leaves : s₀.step (.enter x env .requestClusterLeave) = some s₁)
    (after : Reach Cluster.step (fun s a => Heard s a ∧ a.stays x ∧ D.Parts x s a) s₁ s)
    (unheard : s.Unheard) (resting : s.Resting) : D.Forgotten x s := by
  have h₀ := addressed_run before
  have h : D.Addressed s ∧ Wave x (D.circle s) := by
    refine after.invariant (P := fun s => D.Addressed s ∧ Wave x (D.circle s))
      ⟨(h₀.step rfl (by trivial) leaves).1, wave_leave h₀ reached leaves⟩ ?_
    rintro s a s' - ⟨addressed, wave⟩ ⟨heard, -, parts⟩ hstep
    exact ⟨(addressed.step heard.1 heard.2.1 hstep).1, wave_step addressed wave heard parts hstep⟩
  intro i _
  exact h.2.over (quiet_leave unheard resting)

theorem reached_of_mutual (h : D.Mutual x s) : D.Reached x s := fun i hi => .direct (h i hi)

/-- No news of `x`, and no other departure, undoes the departure of `x`. -/
theorem parts_of_entered (h : ∀ q ∈ s.entered a, q.2.parts (D.config x).id = true) :
    D.Parts x s a := by
  intro i t hent
  have hparts := h _ hent
  cases t with
  | hearJoin m | hearPeer m =>
    rintro rfl
    exact absurd rfl (of_decide_eq_true hparts)
  | hearLeave y =>
    intro hne
    exact absurd (D.id_inj y x (of_decide_eq_true hparts)) hne
  | join | leave | announce m | catalog m | announceLeave y => trivial

end Deployment

instance (D : Deployment n) (x : Fin n) (s : Cluster n) : Decidable (D.Mutual x s) :=
  inferInstanceAs (Decidable (∀ _, _ → _))

instance (D : Deployment n) (x : Fin n) (s : Cluster n) : Decidable (D.Forgotten x s) :=
  inferInstanceAs (Decidable (∀ i, i ≠ x → _))

/-- Nodes 2 and 3 join node 1, which has still to tell node 2 of node 3. -/
def lateJoin : List (Action 3) :=
  [.enter node2 still .requestClusterJoin, .deliver 0 node1 still, .resume 0 still,
    .resume 0 still, .deliver 0 node2 still, .deliver 0 node2 still,
    .enter node3 still .requestClusterJoin, .deliver 0 node1 still, .resume 0 still,
    .resume 0 still, .deliver 0 node3 still, .deliver 0 node3 still, .deliver 0 node3 still,
    .resume 1 still, .deliver 0 node1 still]

/-- Node 2 learns of node 3, which then leaves. -/
theorem leave_trio : ∃ s₀ s : Cluster 3,
    trioInvitation.contact node3 ∈ (s₀.node node2).table ∧ trioInvitation.Forgotten node3 s := by
  have hbefore : (runList Cluster.step (fun s a => decide (Heard s a))
      (Cluster.start (fun _ => 0) trioInvitation.config)
      (lateJoin ++ [.deliver 0 node2 still, .resume 0 still, .deliver 0 node1 still])).any
      (fun s : Cluster 3 =>
        decide (trioInvitation.contact node3 ∈ (s.node node2).table ∧
          trioInvitation.Mutual node3 s) &&
        (s.step (.enter node3 still .requestClusterLeave)).any fun s =>
          (runList Cluster.step (fun s a => decide (Heard s a ∧ a.stays node3 ∧
              ∀ q ∈ s.entered a, q.2.parts (trioInvitation.config node3).id = true)) s
            [.deliver 0 node1 still, .resume 0 still, .deliver 0 node2 still, .resume 0 still,
              .deliver 0 node1 still, .deliver 0 node2 still]).any
            fun s => s.Unheard ∧ s.Resting) = true := by
    decide +kernel
  obtain ⟨s₀, before, hs⟩ := exists_reach (fun s a => of_decide_eq_true) hbefore
  obtain ⟨hlists, hs⟩ := Bool.and_eq_true_iff.mp hs
  obtain ⟨hlisted, hlists⟩ := of_decide_eq_true hlists
  obtain ⟨s₁, leaves, hs⟩ := (Option.any_eq_true _ _).mp hs
  have admits : ∀ (s : Cluster 3) (a : Action 3), decide (Heard s a ∧ a.stays node3 ∧
      ∀ q ∈ s.entered a, q.2.parts (trioInvitation.config node3).id = true) = true →
      Heard s a ∧ a.stays node3 ∧ trioInvitation.Parts node3 s a := fun s a htest =>
    (of_decide_eq_true htest).imp_right (And.imp_right Deployment.parts_of_entered)
  obtain ⟨s, after, hs⟩ := exists_reach admits hs
  obtain ⟨unheard, resting⟩ := of_decide_eq_true hs
  exact ⟨s₀, s, hlisted, Deployment.leave_final before (Deployment.reached_of_mutual hlists) leaves
    after unheard resting⟩

/-- Node 2 hears that node 3 has left, and then that it has joined. -/
theorem leave_overtakes : ¬∀ (n : ℕ) (D : Deployment n) (now : Fin n → ℕ) (x : Fin n)
    (s₀ s₁ s : Cluster n) (env : Env),
    Reach Cluster.step Heard (Cluster.start now D.config) s₀ →
    s₀.step (.enter x env .requestClusterLeave) = some s₁ →
    Reach Cluster.step (fun s a => Heard s a ∧ a.stays x) s₁ s →
    s.Unheard → s.Resting → D.Forgotten x s := by
  intro h
  have hbefore : (runList Cluster.step (fun s a => decide (Heard s a))
      (Cluster.start (fun _ => 0) trioInvitation.config) lateJoin).any
      (fun s => (s.step (.enter node3 still .requestClusterLeave)).any fun s =>
        (runList Cluster.step (fun s a => decide (Heard s a ∧ a.stays node3)) s
          [.deliver 0 node1 still, .resume 0 still, .deliver 0 node2 still,
            .deliver 0 node2 still, .deliver 0 node2 still, .resume 0 still,
            .deliver 0 node1 still, .resume 0 still, .deliver 0 node2 still]).any
          fun s => s.Unheard ∧ s.Resting ∧ ¬trioInvitation.Forgotten node3 s) = true := by
    decide +kernel
  obtain ⟨s₀, before, hs⟩ := exists_reach (fun s a => of_decide_eq_true) hbefore
  obtain ⟨s₁, leaves, hs⟩ := (Option.any_eq_true _ _).mp hs
  obtain ⟨s, after, hs⟩ := exists_reach (fun s a => of_decide_eq_true) hs
  obtain ⟨unheard, resting, hghost⟩ := of_decide_eq_true hs
  exact hghost (h 3 trioInvitation.toDeployment _ node3 s₀ s₁ s still before leaves after unheard
    resting)

end RaftKv
