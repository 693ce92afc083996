import RaftKv.Contacts
import RaftKv.Gossip
import RaftKv.Threads

/-! A cluster as members that gossip.  The errands of a node are the membership lines on their way
to it, and the membership sections that its threads are going to enter.  Every action of the cluster
does one errand, or none. -/

namespace RaftKv

open Function Gossip Runs Stdio

attribute [local irreducible] toInt32

/-- The sections that do an errand. -/
def Section.gossips : Section → Bool
  | .requestClusterJoin | .requestClusterLeave | .handleJoin .. | .handlePeerAnnounce ..
  | .handleLeave _ | .announcePeerToKnownNodes .. | .sendPeerCatalog ..
  | .announceLeaveToKnownNodes _ => true
  | _ => false

/-- The lines that bring an errand. -/
def Line.gossips : Line → Bool
  | .join .. | .peer .. | .leave _ => true
  | _ => false

/-- The network loses no membership line. -/
def Cluster.Delivers {n : ℕ} (s : Cluster n) : Action n → Prop
  | .lose k => ∀ p ∈ s.net[k]?, p.line.gossips = false
  | _ => True

instance {n : ℕ} (s : Cluster n) : (a : Action n) → Decidable (s.Delivers a)
  | .lose k => inferInstanceAs (Decidable (∀ p ∈ s.net[k]?, _))
  | .enter .. | .resume .. | .deliver .. => .isTrue trivial

namespace Deployment

variable {n : ℕ} (D : Deployment n)

/-- The section that does an errand. -/
def handle : Errand (Fin n) → Section
  | .join => .requestClusterJoin
  | .leave => .requestClusterLeave
  | .hearJoin m => .handleJoin (D.config m).id (D.config m).host (D.config m).port
  | .hearPeer k => .handlePeerAnnounce (D.config k).id (D.config k).host (D.config k).port
  | .hearLeave k => .handleLeave (D.config k).id
  | .announce k =>
    .announcePeerToKnownNodes (D.config k).id (D.config k).host (D.config k).port (D.config k).id
  | .catalog m => .sendPeerCatalog (D.config m).host (D.config m).port
  | .announceLeave k => .announceLeaveToKnownNodes (D.config k).id

/-- The line that brings an errand. -/
def mail : Errand (Fin n) → Option Line
  | .hearJoin m => some (.join (D.config m).id (D.config m).host (D.config m).port)
  | .hearPeer k => some (.peer (D.config k).id (D.config k).host (D.config k).port)
  | .hearLeave k => some (.leave (D.config k).id)
  | _ => none

/-- A line to node `i`. -/
def packet (i : Fin n) (line : Line) : Packet := ⟨(D.config i).host, (D.config i).port, line⟩

/-- The line of the errand is on its way, or a thread is going to enter its section. -/
def Pending (threads : List (Fin n × List Section)) (net : List Packet) (i : Fin n)
    (t : Errand (Fin n)) : Prop :=
  match D.mail t with
  | some line => D.packet i line ∈ net
  | none => ∃ th ∈ threads, th.1 = i ∧ D.handle t ∈ th.2

def circle (s : Cluster n) : Circle (Fin n) where
  knows i := {k | D.contact k ∈ (s.node i).table}
  full i := raftMaxPeers ≤ (s.node i).peerCount
  pending := D.Pending s.threads s.net

variable {D} {s s' : Cluster n} {i j k : Fin n} {t u : Errand (Fin n)} {sec : Section} {e : Effect}
  {env : Env} {x : RaftNode} {a : Action n} {rest : List Section}
  {threads : List (Fin n × List Section)} {net : List Packet} {line : Line}

theorem handle_injective (h : D.handle t = D.handle u) : t = u := by
  cases t with
  | join | leave => cases u <;> first | rfl | cases h
  | hearJoin k =>
    cases u with
    | hearJoin m =>
      injection h with hid
      rw [D.id_inj k m hid]
    | _ => cases h
  | hearPeer k =>
    cases u with
    | hearPeer m =>
      injection h with hid
      rw [D.id_inj k m hid]
    | _ => cases h
  | hearLeave k =>
    cases u with
    | hearLeave m =>
      injection h with hid
      rw [D.id_inj k m hid]
    | _ => cases h
  | announce k =>
    cases u with
    | announce m =>
      injection h with hid
      rw [D.id_inj k m hid]
    | _ => cases h
  | catalog k =>
    cases u with
    | catalog m =>
      injection h with hhost hport
      rw [D.address_inj k m hhost hport]
    | _ => cases h
  | announceLeave k =>
    cases u with
    | announceLeave m =>
      injection h with hid
      rw [D.id_inj k m hid]
    | _ => cases h

theorem exists_errand (right : D.Right sec) (h : sec.gossips = true) : ∃ t, sec = D.handle t := by
  cases sec with
  | requestClusterJoin => exact ⟨.join, rfl⟩
  | requestClusterLeave => exact ⟨.leave, rfl⟩
  | handleJoin id host port =>
    obtain ⟨k, rfl, rfl, rfl⟩ := contact_of_known right
    exact ⟨.hearJoin k, rfl⟩
  | handlePeerAnnounce id host port =>
    obtain ⟨k, rfl, rfl, rfl⟩ := contact_of_known right
    exact ⟨.hearPeer k, rfl⟩
  | handleLeave id =>
    obtain ⟨k, rfl⟩ := right
    exact ⟨.hearLeave k, rfl⟩
  | announcePeerToKnownNodes id host port exceptId =>
    obtain ⟨hknown, rfl⟩ := right
    obtain ⟨k, rfl, rfl, rfl⟩ := contact_of_known hknown
    exact ⟨.announce k, rfl⟩
  | sendPeerCatalog host port =>
    obtain ⟨k, rfl, rfl⟩ := right
    exact ⟨.catalog k, rfl⟩
  | announceLeaveToKnownNodes id =>
    obtain ⟨k, rfl⟩ := right
    exact ⟨.announceLeave k, rfl⟩
  | _ => cases h

theorem handle_gossips (t : Errand (Fin n)) : (D.handle t).gossips = true := by
  cases t <;> rfl

theorem handler_mail (h : D.mail t = some line) : line.handler = some (D.handle t) := by
  cases t with
  | hearJoin m =>
    obtain rfl := Option.some.inj h
    exact (handler_contact m).1
  | hearPeer k =>
    obtain rfl := Option.some.inj h
    exact (handler_contact k).2.1
  | hearLeave k =>
    obtain rfl := Option.some.inj h
    exact (handler_contact k).2.2
  | join | leave | announce k | catalog m | announceLeave k => cases h

/-! ### What an action keeps -/

/-- No errand is lost but the one that is done. -/
theorem pending_source (h : D.Addressed s) (src : Cluster.Origin s i sec a rest threads net)
    (hp : D.Pending s.threads s.net j u) (todo : List Section) (sends : List Packet) :
    D.Pending ((i, todo ++ rest) :: threads) (sends ++ net) j u ∨ (j = i ∧ sec = D.handle u) := by
  unfold Pending at hp ⊢
  cases hmail : D.mail u with
  | some line =>
    rw [hmail] at hp
    cases src with
    | enter | resume => exact Or.inl (List.mem_append_right _ hp)
    | deliver k env m p pre post split address parsed =>
      have hmem : D.packet j line ∈ pre ++ p :: post := split ▸ hp
      rcases List.mem_cons.mp (List.perm_middle.mem_iff.mp hmem) with rfl | hmem
      · obtain ⟨-, hrest⟩ := Prod.mk.inj (h.node i).self
        obtain ⟨hhost, hport⟩ := Prod.mk.inj hrest
        have hji := D.address_inj j i (address.1.trans hhost) (address.2.trans hport)
        exact Or.inr ⟨hji, Option.some.inj (parsed.symm.trans (handler_mail hmail))⟩
      · exact Or.inl (List.mem_append_right _ hmem)
  | none =>
    rw [hmail] at hp
    obtain ⟨th, hth, hthj, hu⟩ := hp
    cases src with
    | enter | deliver => exact Or.inl ⟨th, List.mem_cons_of_mem _ hth, hthj, hu⟩
    | resume k env rest pre post split =>
      have hmem : th ∈ pre ++ (i, sec :: rest) :: post := split ▸ hth
      rcases List.mem_cons.mp (List.perm_middle.mem_iff.mp hmem) with rfl | hmem
      · rcases List.mem_cons.mp hu with heq | hu
        · exact Or.inr ⟨hthj.symm, heq.symm⟩
        · exact Or.inl ⟨_, List.mem_cons_self, hthj, List.mem_append_right _ hu⟩
      · exact Or.inl ⟨th, List.mem_cons_of_mem _ hmem, hthj, hu⟩

theorem pending_thread (hp : D.Pending s.threads s.net j u) (th : Fin n × List Section) :
    D.Pending (th :: s.threads) s.net j u := by
  unfold Pending at hp ⊢
  cases hmail : D.mail u with
  | some line => rwa [hmail] at hp
  | none =>
    rw [hmail] at hp
    obtain ⟨th', hth, hrest⟩ := hp
    exact ⟨th', List.mem_cons_of_mem _ hth, hrest⟩

/-- A packet that is dropped carries no errand. -/
theorem pending_dropped {pre post : List Packet} {p : Packet} (split : s.net = pre ++ p :: post)
    (noErrand : ∀ u line, D.mail u = some line → p.line ≠ line)
    (hp : D.Pending s.threads s.net j u) : D.Pending s.threads (pre ++ post) j u := by
  unfold Pending at hp ⊢
  cases hmail : D.mail u with
  | some line =>
    rw [hmail] at hp
    have hmem : D.packet j line ∈ pre ++ p :: post := split ▸ hp
    rcases List.mem_cons.mp (List.perm_middle.mem_iff.mp hmem) with rfl | hmem
    · exact absurd rfl (noErrand u line hmail)
    · exact hmem
  | none =>
    rw [hmail] at hp
    exact hp

/-! ### What an errand makes -/

theorem pending_send (hmail : D.mail u = some line) {sends : List Packet}
    (h : D.packet j line ∈ sends) : D.Pending threads (sends ++ net) j u := by
  unfold Pending
  rw [hmail]
  exact List.mem_append_left _ h

theorem pending_todo (hmail : D.mail u = none) {todo : List Section} (h : D.handle u ∈ todo) :
    D.Pending ((i, todo ++ rest) :: threads) net i u := by
  unfold Pending
  rw [hmail]
  exact ⟨_, List.mem_cons_self, rfl, List.mem_append_left _ h⟩

/-- A line to all goes to every peer that is not excepted. -/
theorem packet_mem_sendToAll {except : List ℕ} (hj : D.contact j ∈ x.table)
    (hexcept : (D.config j).id ∉ except) : D.packet j line ∈ sendToAll x except line := by
  obtain ⟨p, hp, hcontact⟩ := List.mem_map.mp hj
  obtain ⟨hid, hrest⟩ := Prod.mk.inj hcontact
  obtain ⟨hhost, hport⟩ := Prod.mk.inj hrest
  refine List.mem_map.mpr ⟨p, List.mem_filter.mpr ⟨hp, decide_eq_true (hid ▸ hexcept)⟩, ?_⟩
  rw [hhost, hport, packet]

theorem learns_iff (h : D.Addressed s) : (D.circle s).Learns i k ↔
    0 < (addPeerLocked (s.node i) (D.config k).id (D.config k).host (D.config k).port).1 := by
  have hiff : (D.circle s).Learns i k ↔ D.contact k ∉ (s.node i).table ∧ k ≠ i ∧
      (s.node i).peerCount < raftMaxPeers :=
    and_congr_right fun _ => and_congr_right fun _ => not_le
  rw [hiff]
  rcases (h.node i).add (admission (s.node i) (D.config k).id (D.config k).host (D.config k).port)
    with ⟨hpos, h1, h2, h3, -⟩ | ⟨hneg, hnot, -⟩
  · exact iff_of_true ⟨h1, h2, h3⟩ hpos
  · exact iff_of_false hnot hneg

/-- An errand makes the errands that follow from it. -/
theorem makes_pending (h : D.Addressed s) (he : exec env (D.handle t) (s.node i) = some e)
    (makes : (D.circle s).Makes i t j u) :
    D.Pending ((i, e.todo ++ rest) :: threads) (e.sends ++ net) j u := by
  obtain ⟨hid, haddress⟩ := Prod.mk.inj (h.node i).self
  obtain ⟨hhost, hport⟩ := Prod.mk.inj haddress
  have hne : ∀ {j k : Fin n}, j ≠ k → (D.config j).id ∉ [(D.config k).id] := fun hjk hmem =>
    hjk (D.id_inj _ _ (List.mem_singleton.mp hmem))
  cases makes with
  | join hj =>
    obtain rfl := Option.some.inj he
    refine pending_send rfl ?_
    rw [← hid, ← hhost, ← hport]
    exact packet_mem_sendToAll hj List.not_mem_nil
  | leave hj =>
    obtain rfl := Option.some.inj he
    refine pending_send rfl ?_
    rw [← hid]
    exact packet_mem_sendToAll hj List.not_mem_nil
  | catalog =>
    obtain rfl := Option.some.inj he
    exact pending_todo rfl (List.mem_append_right _ List.mem_cons_self)
  | announceJoin hlearns =>
    obtain rfl := Option.some.inj he
    apply pending_todo rfl
    simp only [handleJoin]
    rw [if_pos ((learns_iff h).mp hlearns)]
    exact List.mem_append_left _ List.mem_cons_self
  | announcePeer hlearns =>
    obtain rfl := Option.some.inj he
    apply pending_todo rfl
    simp only [handlePeerAnnounce]
    rw [if_pos ((learns_iff h).mp hlearns)]
    exact List.mem_cons_self
  | tell hj hjk =>
    obtain rfl := Option.some.inj he
    refine pending_send rfl (packet_mem_sendToAll hj ?_)
    simpa using hne hjk
  | tellSelf =>
    obtain rfl := Option.some.inj he
    refine pending_send rfl ?_
    rw [← hid, ← hhost, ← hport]
    exact List.mem_cons_self
  | tellAll hk =>
    obtain rfl := Option.some.inj he
    refine pending_send rfl (List.mem_cons_of_mem _ ?_)
    obtain ⟨p, hp, hcontact⟩ := List.mem_map.mp hk
    obtain ⟨hpid, hrest⟩ := Prod.mk.inj hcontact
    obtain ⟨hphost, hpport⟩ := Prod.mk.inj hrest
    refine List.mem_map.mpr ⟨p, hp, ?_⟩
    rw [hpid, hphost, hpport, packet]
  | announceLeave hk hki =>
    obtain rfl := Option.some.inj he
    apply pending_todo rfl
    simp only [handleLeave]
    rw [if_pos (((h.node i).remove (removal _ _)).1.mpr hk)]
    exact List.mem_cons_self
  | tellLeave hj hjk =>
    obtain rfl := Option.some.inj he
    exact pending_send rfl (packet_mem_sendToAll hj (hne hjk))

/-- Whom the node knows after an errand. -/
theorem knows_after (h : D.Addressed s) (he : exec env (D.handle t) (s.node i) = some e) :
    {k | D.contact k ∈ e.node.table} = (D.circle s).after i t := by
  have added : ∀ k, {j | D.contact j ∈ (addPeerLocked (s.node i) (D.config k).id (D.config k).host
      (D.config k).port).2.table} = {j | j ∈ (D.circle s).knows i ∨
        (j = k ∧ (D.circle s).Learns i k)} := by
    intro k
    ext j
    simp only [Set.mem_ofPred_eq, learns_iff h]
    rcases (h.node i).add (admission (s.node i) (D.config k).id (D.config k).host
      (D.config k).port) with ⟨hpos, -, -, -, htable⟩ | ⟨hneg, -, htable⟩
    · rw [htable, List.mem_append, List.mem_singleton]
      refine or_congr_right ⟨fun hj => ⟨contact_inj hj, hpos⟩, fun hj => hj.1 ▸ rfl⟩
    · rw [htable]
      exact ⟨Or.inl, fun hj => hj.resolve_right fun hjk => hneg hjk.2⟩
  have same : (D.handle t).changesTable = false →
      {k | D.contact k ∈ e.node.table} = (D.circle s).knows i := by
    intro hsec
    have htable : e.node.table = (s.node i).table := (Prod.mk.inj (exec_card he hsec)).2
    rw [htable]
    rfl
  cases t with
  | hearJoin k | hearPeer k =>
    obtain rfl := Option.some.inj he
    exact added k
  | hearLeave k =>
    obtain rfl := Option.some.inj he
    ext j
    refine (((h.node i).remove (removal _ _)).2 _).trans (and_congr_right fun _ => ?_)
    exact not_congr ⟨contact_inj, fun hj => hj ▸ rfl⟩
  | join | leave | announce k | catalog m | announceLeave k => exact same rfl

/-! ### Actions -/

theorem gossips_mail (h : D.mail t = some line) : line.gossips = true := by
  cases t with
  | hearJoin | hearPeer | hearLeave =>
    obtain rfl := Option.some.inj h
    rfl
  | join | leave | announce | catalog | announceLeave => cases h

/-- A dropped packet carries no errand, when no membership line is lost. -/
theorem mail_of_drops {p : Packet} (h : D.Addressed s) (delivers : s.Delivers a)
    (hp : s.drops a = some p) (hmail : D.mail t = some line) : p.line ≠ line := by
  rintro rfl
  cases a with
  | enter | resume => cases hp
  | deliver k i env =>
    have hnone := of_decide_eq_true (Option.filter_eq_some_iff.mp hp).2
    have unbroken : p.line.Unbroken := h.unbroken.net p (Cluster.mem_of_drops hp)
    rw [unbroken.handlers_singleton (handler_mail hmail)] at hnone
    cases hnone
  | lose k =>
    have := delivers p hp
    rw [gossips_mail hmail] at this
    cases this

/-- Every action keeps the addresses right, and runs a section that has right addresses. -/
theorem Addressed.step (h : D.Addressed s) (outer : a.outer = true) (ok : a.Unbroken)
    (hstep : s.step a = some s') :
    D.Addressed s' ∧ ∀ i sec, s.entered a = some (i, sec) → D.Right sec := by
  rcases Cluster.step_drops hstep with ⟨pre, p, post, split, rfl, hdrop⟩ |
    ⟨i, sec, rest, threads, net, e, hent, hsrc, he, rfl⟩
  · have hnet := h.packets
    rw [split] at hnet
    simp only [List.forall_mem_append, List.forall_mem_cons] at hnet
    refine ⟨⟨h.node, h.threads, List.forall_mem_append.mpr ⟨hnet.1, hnet.2.2⟩,
      h.unbroken.step ok hstep⟩, ?_⟩
    intro i sec hent
    rw [Cluster.entered_of_drops hdrop] at hent
    cases hent
  · have horigin := hsrc.origin h.unbroken.net
    obtain ⟨right, hrest, hthreads, hnet⟩ := horigin.carries h.threads h.packets
      (by
        rintro env rfl
        cases sec <;> trivial)
      id fun p hp _ => right_handled hp
    refine ⟨h.run right he hrest hthreads hnet (h.unbroken.step ok hstep), fun j sec' heq => ?_⟩
    rw [hent] at heq
    obtain ⟨-, rfl⟩ := Prod.mk.inj (Option.some.inj heq)
    exact right

/-- An action of the cluster does one errand of one node, or none. -/
theorem circle_step (h : D.Addressed s) (right : ∀ i sec, s.entered a = some (i, sec) → D.Right sec)
    (delivers : s.Delivers a) (hstep : s.step a = some s') :
    (Idle (D.circle s) (D.circle s') ∧ ∀ i t, s.entered a ≠ some (i, D.handle t)) ∨
      ∃ i t, s.entered a = some (i, D.handle t) ∧ Does (D.circle s) (D.circle s') i t := by
  rcases Cluster.step_drops hstep with ⟨pre, p, post, split, rfl, hdrop⟩ |
    ⟨i, sec, rest, threads, net, e, hent, hsrc, he, rfl⟩
  · left
    refine ⟨⟨fun j u hp => ?_, fun j => rfl⟩, fun i t hent => ?_⟩
    · exact pending_dropped (s := s) split (fun u line => mail_of_drops h delivers hdrop) hp
    · rw [Cluster.entered_of_drops hdrop] at hent
      cases hent
  · have horigin := hsrc.origin h.unbroken.net
    have hothers : ∀ j, j ≠ i →
        {k | D.contact k ∈ (update s.node i e.node j).table} = (D.circle s).knows j := by
      intro j hj
      rw [update_of_ne hj]
      rfl
    by_cases hsec : sec.gossips = true
    · right
      obtain ⟨t, rfl⟩ := exists_errand (right i sec hent) hsec
      refine ⟨i, t, hent, ?_, ?_, hothers, fun j u => makes_pending h he⟩
      · intro j u hp
        refine (pending_source h horigin hp e.todo e.sends).imp_right ?_
        exact fun hdone => ⟨hdone.1, (handle_injective hdone.2).symm⟩
      · change {k | D.contact k ∈ (update s.node i e.node i).table} = _
        rw [update_self]
        exact knows_after h he
    · left
      have hnot : ∀ t, sec ≠ D.handle t := fun t heq => hsec (heq ▸ handle_gossips t)
      refine ⟨⟨fun j u hp => ?_, fun j => ?_⟩, fun j t heq => ?_⟩
      · exact (pending_source h horigin hp e.todo e.sends).resolve_right fun hdone => hnot u hdone.2
      · by_cases hj : j = i
        · have hcard := exec_card he (by cases sec <;> first | rfl | exact absurd rfl hsec)
          have htable : e.node.table = (s.node i).table := (Prod.mk.inj hcard).2
          change {k | D.contact k ∈ (update s.node i e.node j).table} = _
          rw [hj, update_self, htable]
          rfl
        · exact hothers j hj
      · rw [hent] at heq
        exact hnot t (Prod.mk.inj (Option.some.inj heq)).2

end Deployment

end RaftKv
