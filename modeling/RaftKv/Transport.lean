import RaftKv.Streams

/-! The packets of the cluster are what byte streams amount to.  A connection submits the line that
was sent over it when all of its bytes have come, and otherwise none, so every run over byte streams
is one of the cluster, in which the lines that do not come whole are packets that stay on their
way. -/

namespace RaftKv

open Consensus Function List Runs Stdio Segments

attribute [local irreducible] toInt32

theorem forall₂_split {α β : Type*} {r : α → β → Prop} {pre post : List α} {a : α} {ys : List β}
    (h : Forall₂ r (pre ++ a :: post) ys) :
    ∃ before y after, ys = before ++ y :: after ∧ Forall₂ r pre before ∧ r a y ∧
      Forall₂ r post after := by
  induction pre generalizing ys with
  | nil =>
    cases h with
    | cons first rest => exact ⟨[], _, _, rfl, .nil, first, rest⟩
  | cons b pre ih =>
    cases h with
    | cons first rest =>
      obtain ⟨before, y, after, rfl, hpre, hy, hpost⟩ := ih rest
      exact ⟨_ :: before, y, after, rfl, .cons first hpre, hy, hpost⟩

/-- The bytes that a connection has got or still gets. -/
def Link.content (l : Link) : Text := l.connection.buffer ++ l.unread

/-- Whether a connection is going to submit a line. -/
def Link.live (l : Link) : Bool := 10 ∈ l.content

theorem Link.live_iff {l : Link} : l.live = true ↔ 10 ∈ l.content := decide_eq_true_iff

namespace Streams

variable {n : ℕ} {R : Roster n} {s s' : Streams n} {c : Cluster n} {i : Fin n} {now count : ℕ}
  {calls : ℕ → SendCalls} {sec : Section} {rest : List Section} {x : RaftNode} {e tried : Effect}
  {l : Link} {p : Packet} {pre post links : List Link} {pool : List (Fin n × Text)}
  {sends net : List Packet}

/-! ### Connections -/

/-- The line of a packet is on its way over a connection. -/
structure Carries (l : Link) (p : Packet) : Prop where
  address : p.host = l.host ∧ p.port = l.port
  line : ∃ text, OneLine p.line.wire text ∧ l.content = text ++ [10]
  more : l.unread ≠ []

/-- The line of a packet is in the pool of the node that it is for. -/
structure Queued (R : Roster n) (q : Fin n × Text) (p : Packet) : Prop where
  address : p.host = R.host q.1 ∧ p.port = R.port q.1
  line : OneLine p.line.wire q.2

/-- Each line that a connection is going to submit, or that is in a pool, is that of a packet of
its own. -/
def Accounted (R : Roster n) (links : List Link) (pool : List (Fin n × Text))
    (net : List Packet) : Prop :=
  ∃ ps qs, Forall₂ Carries (links.filter Link.live) ps ∧ Forall₂ (Queued R) pool qs ∧
    ps ++ qs <+~ net

/-- A connection carries the line that `connect_send` gives it, or is not going to submit any. -/
theorem carries_sent {k : SendCalls} (one : ∃ text, OneLine p.line.wire text) :
    ((connectSend k p.line.wire).ret = 0 ∧ (connectSend k p.line.wire).bytes = some p.line.wire ∧
      Carries ⟨p.host, p.port, p.line.wire, .empty⟩ p) ∨
    ((connectSend k p.line.wire).ret ≠ 0 ∧ ∀ bytes ∈ (connectSend k p.line.wire).bytes,
      Link.live ⟨p.host, p.port, bytes, .empty⟩ = false) := by
  obtain ⟨text, one⟩ := one
  have hwire : p.line.wire ≠ [] := by
    rw [one.wire_eq]
    simp
  obtain ⟨hpre, hret⟩ := @connectSend_bytes k _ hwire
  by_cases hzero : (connectSend k p.line.wire).ret = 0
  · exact Or.inl ⟨hzero, hret.mp hzero, ⟨rfl, rfl⟩, ⟨text, one, one.wire_eq⟩, hwire⟩
  · refine Or.inr ⟨hzero, fun bytes hbytes => Bool.eq_false_iff.mpr fun hlive => ?_⟩
    obtain ⟨more, hmore⟩ := hpre bytes hbytes
    have hne : more ≠ [] := by
      rintro rfl
      rw [List.append_nil] at hmore
      exact hzero (hret.mpr (hmore ▸ hbytes))
    exact one.newline_notMem hmore.symm hne (Link.live_iff.mp hlive)

/-- The connection of a line that does not go out whole is not going to submit it. -/
theorem opened_dead {k : SendCalls} (one : ∃ text, OneLine p.line.wire text)
    (hret : (connectSend k p.line.wire).ret ≠ 0) :
    ((connectSend k p.line.wire).bytes.map fun bytes : Text =>
      (⟨p.host, p.port, bytes, .empty⟩ : Link)).toList.filter Link.live = [] := by
  obtain ⟨-, dead⟩ := (carries_sent one).resolve_left fun carried => hret carried.1
  cases hbytes : (connectSend k p.line.wire).bytes with
  | none => rfl
  | some bytes =>
    have := dead bytes hbytes
    simp [this]

/-- The connections of some lines carry some of them. -/
theorem carries_sends (calls : ℕ → SendCalls)
    (one : ∀ p ∈ sends, ∃ text, OneLine p.line.wire text) :
    ∃ ps, Forall₂ Carries ((opened calls sends).filter Link.live) ps ∧ ps <+ sends := by
  induction sends generalizing calls with
  | nil => exact ⟨[], .nil, .slnil⟩
  | cons p sends ih =>
    obtain ⟨ps, hps, hsub⟩ :=
      ih (fun m => calls (m + 1)) fun q hq => one q (List.mem_cons_of_mem p hq)
    have hone := one p List.mem_cons_self
    rw [opened, List.filter_append]
    by_cases hret : (connectSend (calls 0) p.line.wire).ret = 0
    · obtain ⟨-, hbytes, carries⟩ := (@carries_sent _ (calls 0) hone).resolve_right
        fun dead => dead.1 hret
      obtain ⟨text, -, hcontent⟩ := carries.line
      have hlive := Link.live_iff.mpr (show 10 ∈ _ by rw [hcontent]; simp)
      rw [hbytes, Option.map_some, Option.toList_some, List.filter_cons, if_pos hlive]
      exact ⟨p :: ps, .cons carries hps, hsub.cons_cons p⟩
    · rw [opened_dead hone hret]
      exact ⟨ps, hps, hsub.cons p⟩

/-! ### A section -/

/-- Only `raft_submit_command` depends on what `connect_send` returns: it sends one line, and when
that fails it is as if it had not. -/
theorem exec_connects {b : Bool} (htried : exec ⟨now, true⟩ sec x = some tried)
    (he : exec ⟨now, b⟩ sec x = some e) :
    e = tried ∨ (b = false ∧ (∃ p, tried.sends = [p]) ∧ e.sends = []) := by
  have submits : ∀ {op key value}, (raftSubmitCommand ⟨now, b⟩ x op key value =
        raftSubmitCommand ⟨now, true⟩ x op key value) ∨
      (b = false ∧ (∃ p, (raftSubmitCommand ⟨now, true⟩ x op key value).sends = [p]) ∧
        (raftSubmitCommand ⟨now, b⟩ x op key value).sends = []) := by
    intro op key value
    cases b with
    | true => exact Or.inl rfl
    | false =>
      unfold raftSubmitCommand
      split
      · exact Or.inl rfl
      split
      · exact Or.inl rfl
      split
      · exact Or.inl rfl
      rw [if_neg fun target => Bool.false_ne_true target.2.2]
      split
      · rename_i target
        obtain ⟨peer, found⟩ := Option.isSome_iff_exists.mp target.2.1
        refine Or.inr ⟨rfl, ⟨⟨peer.host, peer.port, .cl x.id op key value⟩, ?_⟩, rfl⟩
        rw [sendToPeer, found]
      · exact Or.inl rfl
  cases sec with
  | raftSubmitCommand op key value =>
    obtain rfl := Option.some.inj htried
    obtain rfl := Option.some.inj he
    exact submits
  | handleClientForward src op key value =>
    obtain rfl := Option.some.inj htried
    obtain rfl := Option.some.inj he
    exact submits.imp (fun h => by rw [h]) id
  | _ => exact Or.inl (Option.some.inj (he.symm.trans htried))

/-- A thread runs a section: the lines that its connections carry are among the packets that the
cluster has on their way for it. -/
theorem Accounted.run (h : Accounted R links pool net)
    (one : ∀ b e, exec ⟨now, b⟩ sec x = some e → ∀ p ∈ e.sends, ∃ text, OneLine p.line.wire text)
    (htried : exec ⟨now, true⟩ sec x = some tried)
    (he : exec ⟨now, connects calls tried.sends⟩ sec x = some e) :
    Accounted R (opened calls tried.sends ++ links) pool (e.sends ++ net) := by
  obtain ⟨ps, qs, hps, hqs, hsub⟩ := h
  obtain ⟨new, hnew, hsends⟩ : ∃ new, Forall₂ Carries
      ((opened calls tried.sends).filter Link.live) new ∧ new <+ e.sends := by
    rcases exec_connects htried he with rfl | ⟨fails, single, nothing⟩
    · exact carries_sends calls (one _ _ htried)
    · obtain ⟨p, hsends⟩ := single
      rw [hsends] at fails ⊢
      have hret : (connectSend (calls 0) p.line.wire).ret ≠ 0 := by
        simpa [connects] using fails
      have hone := one _ _ htried p (by rw [hsends]; exact List.mem_cons_self)
      refine ⟨[], ?_, List.nil_sublist _⟩
      rw [opened, List.filter_append, opened_dead hone hret]
      exact .nil
  refine ⟨new ++ ps, qs, ?_, hqs, ?_⟩
  · rw [List.filter_append]
    exact rel_append hnew hps
  · rw [List.append_assoc]
    exact hsends.subperm.append hsub

/-! ### The receiver -/

theorem dispatch_nothing {buffer : Text} (h : 10 ∉ buffer) :
    dispatchCompleteLines { buffer } = ([], { buffer }) := by
  rw [dispatchCompleteLines_eq, terminated_of_not_mem h, unterminated_of_not_mem h]
  rfl

theorem dispatch_line {wire text : Text} (one : OneLine wire text) :
    dispatchCompleteLines { buffer := text ++ [10] } = ([text], { buffer := [] }) := by
  rw [dispatchCompleteLines_eq]
  dsimp only
  rw [terminated_append_cons one.plain.newline, unterminated_append_cons one.plain.newline,
    terminated_of_not_mem List.not_mem_nil, unterminated_of_not_mem List.not_mem_nil,
    List.map_singleton, one.plain.cutLine_eq one.fits.le]

/-- Taking bytes from a connection that is not going to submit a line submits none. -/
theorem took_dead (dead : l.live = false) :
    (took l count).1 = [] ∧ (took l count).2.live = false := by
  have hcontent : 10 ∉ l.content := fun h =>
    Bool.false_ne_true (dead.symm.trans (Link.live_iff.mpr h))
  have hsplit : l.connection.buffer ++ l.unread.take count ++ l.unread.drop count = l.content := by
    rw [List.append_assoc, List.take_append_drop, Link.content]
  have hbuffer : 10 ∉ l.connection.buffer ++ l.unread.take count := fun h =>
    hcontent (hsplit ▸ List.mem_append_left _ h)
  rw [took, dispatch_nothing hbuffer]
  exact ⟨rfl, Bool.eq_false_iff.mpr fun h => hcontent (hsplit ▸ Link.live_iff.mp h)⟩

/-- A connection that carries a line goes on to carry it, or submits it with its last byte. -/
theorem Carries.took (h : Carries l p) :
    ((took l count).1 = [] ∧ Carries (took l count).2 p) ∨
    ∃ text, OneLine p.line.wire text ∧ (took l count).1 = [text] ∧
      (took l count).2.live = false := by
  obtain ⟨address, ⟨text, one, hcontent⟩, -⟩ := h
  have hsplit :
      l.connection.buffer ++ l.unread.take count ++ l.unread.drop count = text ++ [10] := by
    rw [List.append_assoc, List.take_append_drop, ← hcontent, Link.content]
  by_cases hend : l.unread.drop count = []
  · rw [hend, List.append_nil] at hsplit
    refine Or.inr ⟨text, one, ?_⟩
    rw [Streams.took, hsplit, dispatch_line one, hend]
    exact ⟨rfl, rfl⟩
  · have hbuffer := one.newline_notMem (one.wire_eq.trans hsplit.symm) hend
    refine Or.inl ?_
    rw [Streams.took, dispatch_nothing hbuffer]
    exact ⟨rfl, address, ⟨text, one, hsplit⟩, hend⟩

/-- A connection that has come to its end takes at most a packet with it. -/
theorem Accounted.close (h : Accounted R (pre ++ l :: post) pool net) :
    Accounted R (pre ++ post) pool net := by
  obtain ⟨ps, qs, hps, hqs, hsub⟩ := h
  rw [List.filter_append, List.filter_cons] at hps
  split at hps
  · obtain ⟨before, p, after, rfl, hpre, -, hpost⟩ := forall₂_split hps
    refine ⟨before ++ after, qs, ?_, hqs, List.Subperm.trans ?_ hsub⟩
    · rw [List.filter_append]
      exact rel_append hpre hpost
    · exact ((List.sublist_cons_self p after).append_left before).append_right qs |>.subperm
  · exact ⟨ps, qs, by rw [List.filter_append]; exact hps, hqs, hsub⟩

theorem Accounted.drop {q : Fin n × Text} {before after : List (Fin n × Text)}
    (h : Accounted R links (before ++ q :: after) net) :
    Accounted R links (before ++ after) net := by
  obtain ⟨ps, qs, hps, hqs, hsub⟩ := h
  obtain ⟨a, p, b, rfl, ha, -, hb⟩ := forall₂_split hqs
  exact ⟨ps, a ++ b, hps, rel_append ha hb,
    List.Subperm.trans (((List.sublist_cons_self p b).append_left a).append_left ps).subperm hsub⟩

/-- The line that a worker takes is that of a packet. -/
theorem Accounted.work {q : Fin n × Text} {before after : List (Fin n × Text)}
    (h : Accounted R links (before ++ q :: after) net) :
    ∃ m p net', net[m]? = some p ∧ Queued R q p ∧ net.eraseIdx m = net' ∧
      Accounted R links (before ++ after) net' := by
  obtain ⟨ps, qs, hps, hqs, hsub⟩ := h
  obtain ⟨a, p, b, rfl, ha, queued, hb⟩ := forall₂_split hqs
  have hmem : p ∈ net := hsub.subset (by simp)
  obtain ⟨m, hm⟩ := List.mem_iff_getElem?.mp hmem
  obtain ⟨pre, post, hnet, herase⟩ := Cluster.exists_split hm
  refine ⟨m, p, _, hm, queued, rfl, ps, a ++ b, hps, rel_append ha hb, ?_⟩
  rw [herase]
  rw [hnet, ← List.append_assoc] at hsub
  rw [← List.append_assoc, ← List.subperm_cons p]
  exact (List.perm_middle.symm.subperm.trans hsub).trans List.perm_middle.subperm

/-- The network thread of the node takes bytes of a connection. -/
theorem Accounted.read (h : Accounted R (pre ++ l :: post) pool net)
    (address : l.host = R.host i ∧ l.port = R.port i) :
    Accounted R (pre ++ (took l count).2 :: post)
      (pool ++ (took l count).1.map fun line => (i, line)) net := by
  obtain ⟨ps, qs, hps, hqs, hsub⟩ := h
  rw [List.filter_append, List.filter_cons] at hps
  cases hlive : l.live with
  | false =>
    obtain ⟨hlines, hdead⟩ := @took_dead count _ hlive
    rw [hlive, if_neg Bool.false_ne_true] at hps
    rw [hlines, List.map_nil, List.append_nil]
    refine ⟨ps, qs, ?_, hqs, hsub⟩
    rw [List.filter_append, List.filter_cons, hdead, if_neg Bool.false_ne_true]
    exact hps
  | true =>
    rw [if_pos hlive] at hps
    obtain ⟨before, p, after, rfl, hpre, carries, hpost⟩ := forall₂_split hps
    rcases @Carries.took count _ _ carries with ⟨hlines, carries'⟩ | ⟨text, one, hlines, hdead⟩
    · obtain ⟨text, -, hcontent⟩ := carries'.line
      rw [hlines, List.map_nil, List.append_nil]
      refine ⟨before ++ p :: after, qs, ?_, hqs, hsub⟩
      rw [List.filter_append, List.filter_cons,
        if_pos (Link.live_iff.mpr (by rw [hcontent]; simp))]
      exact rel_append hpre (.cons carries' hpost)
    · have hqueued : Queued R (i, text) p :=
        ⟨⟨carries.address.1.trans address.1, carries.address.2.trans address.2⟩, one⟩
      rw [hlines, List.map_singleton]
      refine ⟨before ++ after, qs ++ [p], ?_, rel_append hqs (.cons hqueued .nil), ?_⟩
      · rw [List.filter_append, List.filter_cons, hdead, if_neg Bool.false_ne_true]
        exact rel_append hpre hpost
      · refine (List.Perm.subperm ?_).trans hsub
        have hmiddle : before ++ after ++ (qs ++ [p]) ~ p :: (before ++ after ++ qs) := by
          rw [← List.append_assoc]
          exact List.perm_append_singleton p _
        refine hmiddle.trans ?_
        have := (@List.perm_middle _ p before after).append_right qs
        exact this.symm

/-! ### The refinement -/

/-- The nodes and the threads are those of the cluster, and the lines on their way are those of its
packets. -/
structure Refines (R : Roster n) (s : Streams n) (c : Cluster n) : Prop where
  node : c.node = s.node
  threads : c.threads = s.threads
  accounted : Accounted R s.links s.pool c.net

theorem vouched_of_node {c' : Cluster n} (hnode : c'.node = c.node) (h : Vouched c i sec) :
    Vouched c' i sec := by
  cases sec with
  | handleAppendEntries t l p pt lc has d =>
    simp only [Vouched] at h ⊢
    rw [hnode]
    exact h
  | _ => trivial

/-- The lines that a section sends are written in one piece, also when `connect_send` fails. -/
theorem oneLine_sends {a : Bool → Action n} (rest : List Section)
    (threads : List (Fin n × List Section)) (hsim : ∃ g, Sim True R plainView g c)
    (ok : ∀ b, RaftKv.SteadyPlain c (a b))
    (steps : ∀ b, c.step (a b) = (exec ⟨now, b⟩ sec (c.node i)).map fun e =>
      ⟨update c.node i e.node, (i, e.todo ++ rest) :: threads, e.sends ++ net⟩)
    (b : Bool) (e : Effect) (he : exec ⟨now, b⟩ sec (c.node i) = some e) :
    ∀ p ∈ e.sends, ∃ text, OneLine p.line.wire text := by
  intro p hp
  have hstep := steps b
  rw [he, Option.map_some] at hstep
  obtain ⟨g, h⟩ := (ok b).sim hstep hsim
  obtain ⟨j, line, rfl, hline⟩ := h.lines p (List.mem_append_left _ hp)
  exact hline.oneLine fun plain => plain.toValidCommand

/-- A section over byte streams is one of the cluster, by an action that runs it. -/
theorem refines_run {a : Bool → Action n} (hsim : ∃ g, Sim True R plainView g c)
    (hnode : c.node = s.node) (accounted : Accounted R s.links s.pool net)
    (ok : ∀ b, RaftKv.SteadyPlain c (a b))
    (steps : ∀ b, c.step (a b) = (exec ⟨now, b⟩ sec (c.node i)).map fun e =>
      ⟨update c.node i e.node, (i, e.todo ++ rest) :: s.threads, e.sends ++ net⟩)
    (hrun : s.run i now calls sec rest = some s') :
    ∃ c', Reach Cluster.step RaftKv.SteadyPlain c c' ∧ Refines R s' c' := by
  rw [run, ← hnode] at hrun
  obtain ⟨tried, htried, hrun⟩ := Option.bind_eq_some_iff.mp hrun
  obtain ⟨e, he, hrun⟩ := Option.bind_eq_some_iff.mp hrun
  obtain rfl := Option.some.inj hrun
  have hstep := steps (connects calls tried.sends)
  rw [he, Option.map_some] at hstep
  have one := oneLine_sends rest s.threads hsim ok steps
  exact ⟨_, Reach.refl.tail (ok _) hstep, ⟨rfl, rfl, accounted.run one htried he⟩⟩

theorem Refines.step {a : StreamAction n} (h : Refines R s c)
    (hsim : ∃ g, Sim True R plainView g c) (ok : s.SteadyPlain a) (hstep : s.step a = some s') :
    ∃ c', Reach Cluster.step RaftKv.SteadyPlain c c' ∧ Refines R s' c' := by
  obtain ⟨hnode, hthreads, accounted⟩ := h
  obtain ⟨below, clean, guard⟩ := ok
  obtain ⟨g, sim⟩ := hsim
  have below' : TermsBelow c := fun k => hnode ▸ below k
  cases a with
  | enter i now calls sec =>
    refine refines_run (a := fun b => .enter i ⟨now, b⟩ sec) ⟨g, sim⟩ hnode accounted
      (fun b => ?_) (fun b => ?_) hstep
    · refine steadyPlain_of_entered _ clean.1 below' ?_ rfl (hnode ▸ guard.1)
        (vouched_of_node hnode guard.2)
      cases sec <;> exact clean.2
    · rw [← hthreads]
      rfl
  | resume k now calls =>
    rw [Streams.step] at hstep
    split at hstep
    · rename_i i sec rest hk
      have hk' : c.threads[k]? = some (i, sec :: rest) := hthreads ▸ hk
      rw [entered, hk] at guard
      refine refines_run (s := { s with threads := s.threads.eraseIdx k })
        (a := fun b => .resume k ⟨now, b⟩) ⟨g, sim⟩ hnode accounted (fun b => ?_)
        (fun b => ?_) hstep
      · refine steadyPlain_of_entered _ rfl below' trivial ?_ (hnode ▸ guard.1)
          (vouched_of_node hnode guard.2)
        rw [Cluster.entered, hk']
      · rw [Cluster.step, hk', ← hthreads]
        rfl
    · cases hstep
  | read k i count =>
    rw [Streams.step] at hstep
    split at hstep
    · rename_i l hk
      obtain ⟨pre, post, hsplit, herase⟩ := Cluster.exists_split hk
      have hlinks : s.links = s.links.take k ++ l :: s.links.drop (k + 1) := by
        obtain ⟨hlt, rfl⟩ := List.getElem?_eq_some_iff.mp hk
        rw [List.getElem_cons_drop, List.take_append_drop]
      have address : l.host = (s.node i).host ∧ l.port = (s.node i).port → l.host = R.host i ∧
          l.port = R.port i := fun h => by
        rwa [← hnode, (sim.lists i).host, (sim.lists i).port] at h
      split at hstep
      · rename_i haddress
        split at hstep
        · obtain rfl := Option.some.inj hstep
          exact ⟨c, .refl, hnode, hthreads, by rw [herase]; exact (hsplit ▸ accounted).close⟩
        · split at hstep
          · obtain rfl := Option.some.inj hstep
            refine ⟨c, .refl, hnode, hthreads, ?_⟩
            have hlt := (List.getElem?_eq_some_iff.mp hk).1
            dsimp only
            rw [List.set_eq_take_append_cons_drop, if_pos hlt]
            exact (hlinks ▸ accounted).read (address haddress)
          · cases hstep
      · cases hstep
    · cases hstep
  | close k =>
    rw [Streams.step] at hstep
    split at hstep
    · rename_i hlt
      obtain rfl := Option.some.inj hstep
      obtain ⟨pre, post, hsplit, herase⟩ := Cluster.exists_split (List.getElem?_eq_getElem hlt)
      rw [hsplit] at accounted
      exact ⟨c, .refl, hnode, hthreads, by rw [herase]; exact accounted.close⟩
    · cases hstep
  | drop k =>
    rw [Streams.step] at hstep
    split at hstep
    · rename_i hlt
      obtain rfl := Option.some.inj hstep
      obtain ⟨pre, post, hsplit, herase⟩ := Cluster.exists_split (List.getElem?_eq_getElem hlt)
      rw [hsplit] at accounted
      exact ⟨c, .refl, hnode, hthreads, by rw [herase]; exact accounted.drop⟩
    · cases hstep
  | work k now calls =>
    rw [Streams.step] at hstep
    split at hstep
    · rename_i i line hk
      obtain ⟨before, after, hpool, herase⟩ := Cluster.exists_split hk
      split at hstep
      · rename_i sec parsed
        rw [entered, hk, Option.bind_some, parsed] at guard
        rw [hpool] at accounted
        obtain ⟨m, p, net, hm, queued, herase', accounted⟩ := accounted.work
        have address : p.host = (c.node i).host ∧ p.port = (c.node i).port := by
          rw [(sim.lists i).host, (sim.lists i).port]
          exact queued.address
        have handled : p.line.handlers = [sec] := by
          rw [queued.line.handlers_eq, parsed, Option.toList_some]
        refine refines_run (s := { s with pool := s.pool.eraseIdx k })
          (a := fun b => .deliver m i ⟨now, b⟩) ⟨g, sim⟩ hnode (herase ▸ accounted) (fun b => ?_)
          (fun b => ?_) hstep
        · refine steadyPlain_of_entered _ rfl below' trivial ?_ (hnode ▸ guard.1)
            (vouched_of_node hnode guard.2)
          simp only [Cluster.entered, hm, Option.bind_some, handled, List.getElem?_cons_zero,
            Option.map_some]
        · simp only [Cluster.step, hm, if_pos address, handled, List.getElem?_cons_zero,
            List.eraseIdx_cons_zero, List.map_nil, List.nil_append, Cluster.run, hthreads, herase',
            List.append_nil]
      · obtain rfl := Option.some.inj hstep
        rw [hpool] at accounted
        exact ⟨c, .refl, hnode, hthreads, by rw [herase]; exact accounted.drop⟩
    · cases hstep

/-! ### The other way round -/

/-- The calls of `connect_send`, when all goes well, and when there is no descriptor. -/
def allGoesWell : SendCalls := ⟨some 3, true, .done, 1, some 0, some raftMaxLine⟩

def noDescriptor : SendCalls := ⟨none, true, .done, 1, some 0, some raftMaxLine⟩

theorem connectSend_allGoesWell {wire text : Text} (one : OneLine wire text) :
    connectSend allGoesWell wire = { ret := 0, bytes := some wire, closed := some 3 } := by
  have hfits := one.fits
  have hlength : wire.length ≤ raftMaxLine := by
    rw [one.wire_eq, List.length_append, List.length_singleton]
    omega
  simp [connectSend, allGoesWell, Nat.min_eq_right hlength]

/-- A connection over which a line is sent whole, and of which nothing has been read. -/
structure Fresh (l : Link) (p : Packet) : Prop where
  carries : Carries l p
  unread : l.connection = .empty

theorem fresh_opened (one : ∀ p ∈ sends, ∃ text, OneLine p.line.wire text) :
    Forall₂ Fresh (opened (fun _ => allGoesWell) sends) sends := by
  induction sends with
  | nil => exact .nil
  | cons p sends ih =>
    obtain ⟨text, hone⟩ := one p List.mem_cons_self
    rw [opened, connectSend_allGoesWell hone]
    obtain ⟨-, -, carries⟩ := (@carries_sent _ allGoesWell ⟨text, hone⟩).resolve_right fun dead =>
      dead.1 (by rw [connectSend_allGoesWell hone])
    exact .cons ⟨carries, rfl⟩ (ih fun q hq => one q (List.mem_cons_of_mem p hq))

theorem connects_allGoesWell (one : ∀ p ∈ sends, ∃ text, OneLine p.line.wire text) :
    connects (fun _ => allGoesWell) sends = true := by
  cases sends with
  | nil => rfl
  | cons p sends =>
    obtain ⟨text, hone⟩ := one p List.mem_cons_self
    simp only [connects, List.head?_cons, Option.all_some, connectSend_allGoesWell hone,
      decide_true]

theorem exec_isSome_connects {b : Bool} (he : exec ⟨now, b⟩ sec x = some e) :
    ∃ tried, exec ⟨now, true⟩ sec x = some tried := by
  cases sec with
  | raftSubmitCommand op key value => exact ⟨_, rfl⟩
  | handleClientForward src op key value => exact ⟨_, rfl⟩
  | _ => exact ⟨e, he⟩

/-- The nodes and the threads are those of the cluster, and the packets go over connections of
which nothing has been read. -/
structure Realizes (s : Streams n) (c : Cluster n) : Prop where
  node : s.node = c.node
  threads : s.threads = c.threads
  pool : s.pool = []
  links : Forall₂ Fresh s.links c.net

/-- A section of the cluster over streams: its lines go out whole, or `raft_submit_command` gets no
descriptor for its line. -/
theorem exists_run {b : Bool} (rest : List Section) (threads : List (Fin n × List Section))
    (fresh : Forall₂ Fresh links net) (he : exec ⟨now, b⟩ sec (c.node i) = some e)
    (one : ∀ b e, exec ⟨now, b⟩ sec (c.node i) = some e →
      ∀ p ∈ e.sends, ∃ text, OneLine p.line.wire text) :
    ∃ calls links', (⟨c.node, threads, links, pool⟩ : Streams n).run i now calls sec rest =
        some ⟨update c.node i e.node, (i, e.todo ++ rest) :: threads, links', pool⟩ ∧
      Forall₂ Fresh links' (e.sends ++ net) := by
  obtain ⟨tried, htried⟩ := exec_isSome_connects he
  have lines := one true tried htried
  rcases exec_connects htried he with rfl | ⟨rfl, ⟨p, hsends⟩, nothing⟩
  · refine ⟨fun _ => allGoesWell, _, ?_, rel_append (fresh_opened lines) fresh⟩
    simp only [run, htried, connects_allGoesWell lines, Option.bind_eq_bind, Option.bind_some]
  · refine ⟨fun _ => noDescriptor, links, ?_, by rw [nothing]; exact fresh⟩
    have hconnects : connects (fun _ => noDescriptor) tried.sends = false := by
      rw [hsends]
      rfl
    simp only [run, htried, hconnects, he, Option.bind_eq_bind, Option.bind_some]
    rw [hsends]
    rfl

/-- The connection of a packet comes to its end. -/
theorem Realizes.close {pre post : List Packet} {threads : List (Fin n × List Section)}
    (hlinks : Forall₂ Fresh links (pre ++ p :: post)) (below : TermsBelow c) :
    ∃ links', Reach Streams.step Streams.SteadyPlain ⟨c.node, threads, links, pool⟩
        ⟨c.node, threads, links', pool⟩ ∧ Forall₂ Fresh links' (pre ++ post) := by
  obtain ⟨before, l, after, rfl, hbefore, -, hafter⟩ := forall₂_split hlinks.flip
  have step : Streams.step ⟨c.node, threads, before ++ l :: after, pool⟩ (.close before.length) =
      some ⟨c.node, threads, before ++ after, pool⟩ := by
    simp [Streams.step, List.eraseIdx_append_of_length_le]
  exact ⟨before ++ after, Reach.refl.tail ⟨below, trivial, trivial⟩ step,
    rel_append hbefore.flip hafter.flip⟩

/-- The network thread reads the connection of a packet to its end, and submits the line. -/
theorem Realizes.submit {pre post : List Packet} (threads : List (Fin n × List Section))
    (hlinks : Forall₂ Fresh links (pre ++ p :: post)) (below : TermsBelow c)
    (address : p.host = (c.node i).host ∧ p.port = (c.node i).port)
    (parsed : p.line.handlers = [sec]) :
    ∃ text links', Reach Streams.step Streams.SteadyPlain ⟨c.node, threads, links, []⟩
        ⟨c.node, threads, links', [(i, text)]⟩ ∧ raftHandleLine text = some sec ∧
      Forall₂ Fresh links' (pre ++ post) := by
  obtain ⟨before, l, after, rfl, hbefore, ⟨carries, unread⟩, hafter⟩ := forall₂_split hlinks.flip
  obtain ⟨text, one, hcontent⟩ := carries.line
  have hwhole : l.unread = text ++ [10] := by
    rw [Link.content, unread] at hcontent
    exact hcontent
  have handled : raftHandleLine text = some sec := by
    rw [one.handlers_eq] at parsed
    exact Option.toList_eq_singleton_iff.mp parsed
  have htook :
      took l l.unread.length = ([text], { l with unread := [], connection := .empty }) := by
    rw [took, unread, List.take_length, List.drop_length, hwhole]
    dsimp only [Connection.empty]
    rw [List.nil_append, dispatch_line one]
  have hremaining : l.connection.remaining = 2 * raftMaxLine - 1 := by
    rw [unread]
    rfl
  have hlength : l.unread.length = text.length + 1 := by
    rw [hwhole, List.length_append, List.length_singleton]
  have hfits := one.fits
  have hk : (before ++ l :: after)[before.length]? = some l := by simp
  have read : Streams.step ⟨c.node, threads, before ++ l :: after, []⟩
      (.read before.length i l.unread.length) = some ⟨c.node, threads,
        before ++ { l with unread := [], connection := .empty } :: after, [(i, text)]⟩ := by
    have haddress : l.host = (c.node i).host ∧ l.port = (c.node i).port :=
      ⟨carries.address.1.symm.trans address.1, carries.address.2.symm.trans address.2⟩
    simp only [Streams.step, hk, if_pos haddress]
    rw [if_neg (by rw [hremaining]; simp only [raftMaxLine]; omega),
      if_pos ⟨by omega, by rw [hremaining, hlength]; omega, le_rfl⟩, htook]
    simp
  have close : Streams.step ⟨c.node, threads,
      before ++ { l with unread := [], connection := .empty } :: after, [(i, text)]⟩
      (.close before.length) = some ⟨c.node, threads, before ++ after, [(i, text)]⟩ := by
    simp [Streams.step, List.eraseIdx_append_of_length_le]
  exact ⟨text, before ++ after, (Reach.refl.tail ⟨below, trivial, trivial⟩ read).tail
    ⟨below, trivial, trivial⟩ close, handled, rel_append hbefore.flip hafter.flip⟩

theorem Realizes.step {c' : Cluster n} {a : Action n} (h : Realizes s c)
    (hsim : ∃ g, Sim True R plainView g c) (ok : RaftKv.SteadyPlain c a)
    (hstep : c.step a = some c') :
    ∃ s', Reach Streams.step Streams.SteadyPlain s s' ∧ Realizes s' c' := by
  obtain ⟨node, threads, links, pool⟩ := s
  obtain ⟨rfl, rfl, rfl, hlinks⟩ := h
  obtain ⟨⟨⟨fixed, below⟩, guard⟩, clean⟩ := ok
  have unbroken : ∀ p ∈ c.net, p.line.Unbroken := by
    obtain ⟨g, sim⟩ := hsim
    exact sim.unbroken
  rcases Cluster.step_drops hstep with ⟨pre, p, post, hnet, rfl, -⟩ |
    ⟨i, sec, rest, threads, net, e, hent, hsrc, he, rfl⟩
  · obtain ⟨links', run, hlinks'⟩ := Realizes.close (hnet ▸ hlinks) below
    exact ⟨_, run, rfl, rfl, rfl, hlinks'⟩
  · rw [Guarded, hent] at guard
    cases hsrc.origin unbroken with
    | enter env =>
      have one := oneLine_sends (a := fun b => .enter i ⟨env.now, b⟩ sec) [] c.threads hsim
        (fun b => steadyPlain_of_entered _ fixed below (by cases sec <;> exact clean) rfl guard.1
          guard.2) fun b => rfl
      obtain ⟨calls, links', hrun, hlinks'⟩ :=
        exists_run (b := env.connects) [] c.threads hlinks he one
      refine ⟨_, Reach.refl.tail (a := .enter i env.now calls sec) ⟨below, ⟨fixed, ?_⟩, guard⟩ hrun,
        rfl, rfl, rfl, hlinks'⟩
      cases sec <;> exact clean
    | resume k env rest pre post split =>
      have hk : c.threads[pre.length]? = some (i, sec :: rest) := by
        simp [split]
      have herase : c.threads.eraseIdx pre.length = pre ++ post := by
        simp [split, List.eraseIdx_append_of_length_le]
      have steady (b : Bool) : RaftKv.SteadyPlain c (.resume pre.length ⟨env.now, b⟩) :=
        steadyPlain_of_entered _ rfl below trivial (by simp only [Cluster.entered, hk]) guard.1
          guard.2
      have one := oneLine_sends rest (pre ++ post) hsim steady fun b => by
        simp only [Cluster.step, hk, herase]
        rfl
      obtain ⟨calls, links', hrun, hlinks'⟩ :=
        exists_run (b := env.connects) rest (pre ++ post) hlinks he one
      refine ⟨⟨update c.node i e.node, (i, e.todo ++ rest) :: (pre ++ post), links', []⟩,
        Reach.refl.tail (a := .resume pre.length env.now calls) ⟨below, trivial, ?_⟩ ?_,
        ⟨rfl, rfl, rfl, hlinks'⟩⟩
      · simp only [entered, hk]
        exact guard
      · simp only [Streams.step, hk, herase]
        exact hrun
    | deliver k env m p pre post split address parsed =>
      have hk : c.net[pre.length]? = some p := by
        simp [split]
      have calls := (unbroken p (List.mem_of_getElem? hk)).handlers_singleton parsed
      have herase : c.net.eraseIdx pre.length = pre ++ post := by
        simp [split, List.eraseIdx_append_of_length_le]
      have steady (b : Bool) : RaftKv.SteadyPlain c (.deliver pre.length i ⟨env.now, b⟩) :=
        steadyPlain_of_entered _ rfl below trivial
          (by simp only [Cluster.entered, hk, Option.bind_some, calls, List.getElem?_cons_zero,
            Option.map_some]) guard.1 guard.2
      have one := oneLine_sends [] c.threads hsim steady fun b => by
        simp only [Cluster.step, hk, if_pos address, calls, herase]
        rfl
      obtain ⟨text, links, run, handled, hlinks'⟩ :=
        Realizes.submit c.threads (split ▸ hlinks) below address calls
      obtain ⟨sent, links', hrun, hlinks''⟩ :=
        exists_run (b := env.connects) [] c.threads hlinks' he one
      refine ⟨⟨update c.node i e.node, (i, e.todo ++ []) :: c.threads, links', []⟩,
        run.tail (a := .work 0 env.now sent) ⟨below, trivial, ?_⟩ ?_, ⟨rfl, rfl, rfl, hlinks''⟩⟩
      · simp only [entered, List.getElem?_cons_zero, Option.bind_some, handled, Option.map_some]
        exact guard
      · simp only [Streams.step, List.getElem?_cons_zero, handled, List.eraseIdx_cons_zero]
        exact hrun

end Streams

/-! ### Whole runs -/

section Runs

variable {n : ℕ} {now : Fin n → ℕ} {config : Fin n → RaftConfig}

/-- Every run over byte streams is one of the cluster: whatever pieces the lines come in, and
wherever a connection breaks, the nodes and the threads are those of a run with packets, and each
line in a pool is that of a packet of its own, to that node. -/
theorem exists_cluster {R : Roster n}
    (h0 : Sim True R plainView initial (Cluster.start now config)) {s : Streams n}
    (run : Reach Streams.step Streams.SteadyPlain (Streams.start now config) s) :
    ∃ c, Reach Cluster.step SteadyPlain (Cluster.start now config) c ∧ Streams.Refines R s c := by
  induction run with
  | refl => exact ⟨_, .refl, rfl, rfl, [], [], .nil, .nil, .refl _⟩
  | tail _ ok step ih =>
    obtain ⟨c, run, h⟩ := ih
    obtain ⟨g, hsim, -⟩ := h0.reach_keeps run
    obtain ⟨c', run', h'⟩ := h.step ⟨g, hsim⟩ ok step
    exact ⟨c', run.trans run', h'⟩

/-- In steady runs with plain commands a cluster over byte streams comes to the same states of its
nodes and threads as the cluster with packets, whatever pieces the lines come in, and wherever a
connection breaks. -/
theorem streams_refine (tables : FixedTables (Cluster.start now config).node)
    (node : Fin n → RaftNode) (threads : List (Fin n × List Section)) :
    (∃ s, Reach Streams.step Streams.SteadyPlain (Streams.start now config) s ∧ s.node = node ∧
      s.threads = threads) ↔
    ∃ c, Reach Cluster.step SteadyPlain (Cluster.start now config) c ∧ c.node = node ∧
      c.threads = threads := by
  obtain ⟨R, h0⟩ := sim_start tables True plainView
  constructor
  · rintro ⟨s, run, rfl, rfl⟩
    obtain ⟨c, run', h⟩ := exists_cluster h0 run
    exact ⟨c, run', h.node, h.threads⟩
  · rintro ⟨c, run, rfl, rfl⟩
    obtain ⟨s, run', h⟩ : ∃ s, Reach Streams.step Streams.SteadyPlain (Streams.start now config) s ∧
        Streams.Realizes s c := by
      induction run with
      | refl => exact ⟨_, .refl, rfl, rfl, rfl, .nil⟩
      | tail run ok step ih =>
        obtain ⟨s, run', h⟩ := ih
        obtain ⟨g, hsim, -⟩ := h0.reach_keeps run
        obtain ⟨s', run'', h'⟩ := h.step ⟨g, hsim⟩ ok step
        exact ⟨s', run'.trans run'', h'⟩
    exact ⟨s, run', h.node, h.threads⟩

def trioStreams : Streams 3 := Streams.start (fun _ => 0) trioConfig

/-- Node 2 gets the vote request in two pieces, and node 1 its answer: node 1 leads, in the cluster
with packets, too.  The request to node 3 does not come whole. -/
theorem streams_refine_trio : ∃ s c, Reach Streams.step Streams.SteadyPlain trioStreams s ∧
    (s.node node1).role = .leader ∧ Reach Cluster.step SteadyPlain trio c ∧ c.node = s.node := by
  have hrun : (runList Streams.step (fun s a => decide (s.SteadyPlain a)) trioStreams
      [.enter node1 0 (fun _ => Streams.allGoesWell) .startElection, .read 0 node2 4,
        .read 1 node3 9, .close 1, .read 0 node2 7, .work 0 0 (fun _ => Streams.allGoesWell),
        .read 0 node1 10, .work 0 0 (fun _ => Streams.allGoesWell)]).any
      (fun s => (s.node node1).role = .leader) = true := by
    decide +kernel
  obtain ⟨s, run, hs⟩ := exists_reach (fun s a => of_decide_eq_true) hrun
  obtain ⟨c, run', hnode, -⟩ :=
    (streams_refine fixedTables_trio s.node s.threads).mp ⟨s, run, rfl, rfl⟩
  exact ⟨s, c, run, of_decide_eq_true hs, run', hnode⟩

/-- No line is made up, sent twice or misled: in every state of such a run over byte streams, the
lines in the pools are those of different packets that the cluster with packets has on their way in
a state with the same nodes, each to the node whose pool it is in. -/
theorem submitted_sent (tables : FixedTables (Cluster.start now config).node) {s : Streams n}
    (run : Reach Streams.step Streams.SteadyPlain (Streams.start now config) s) :
    ∃ c ps, Reach Cluster.step SteadyPlain (Cluster.start now config) c ∧ c.node = s.node ∧
      List.Subperm ps c.net ∧ List.Forall₂ (fun (q : Fin n × Text) p =>
        p.host = (s.node q.1).host ∧ p.port = (s.node q.1).port ∧ p.line.wire = q.2 ++ [10])
        s.pool ps := by
  obtain ⟨R, h0⟩ := sim_start tables True plainView
  obtain ⟨c, run', h⟩ := exists_cluster h0 run
  obtain ⟨g, hsim, -⟩ := h0.reach_keeps run'
  obtain ⟨ps, qs, -, hqs, hsub⟩ := h.accounted
  refine ⟨c, qs, run', h.node, (List.sublist_append_right ps qs).subperm.trans hsub,
    hqs.imp fun q p queued => ?_⟩
  have lists := hsim.lists q.1
  rw [h.node] at lists
  rw [lists.host, lists.port]
  exact ⟨queued.address.1, queued.address.2, queued.line.wire_eq⟩

/-- Node 2 has the vote request in its pool. -/
theorem submitted_sent_trio : ∃ s c ps, Reach Streams.step Streams.SteadyPlain trioStreams s ∧
    s.pool = [(node2, bytes "RV 1 1 0 0")] ∧ Reach Cluster.step SteadyPlain trio c ∧
    List.Subperm ps c.net ∧ List.Forall₂ (fun (q : Fin 3 × Text) p =>
      p.host = (s.node q.1).host ∧ p.port = (s.node q.1).port ∧ p.line.wire = q.2 ++ [10])
      s.pool ps := by
  have hrun : (runList Streams.step (fun s a => decide (s.SteadyPlain a)) trioStreams
      [.enter node1 0 (fun _ => Streams.allGoesWell) .startElection, .read 0 node2 4,
        .read 0 node2 7]).any
      (fun s => s.pool = [(node2, bytes "RV 1 1 0 0")]) = true := by
    decide +kernel
  obtain ⟨s, run, hs⟩ := exists_reach (fun s a => of_decide_eq_true) hrun
  obtain ⟨c, ps, run', -, hsub, hpool⟩ := submitted_sent fixedTables_trio run
  exact ⟨s, c, ps, run, of_decide_eq_true hs, run', hsub, hpool⟩

end Runs

end RaftKv
