import RaftKv.Exchange
import RaftKv.Shape
import RaftKv.Terms
import RaftKv.Threads

/-! The role of a node agrees with the leader that it knows and with its vote.  An `AE` line makes
its receiver a follower of the sender, so this rests on no node sending one to itself.  The nodes
tell each other apart by ids and reach each other by addresses, which is the same only when no table
has the address of a node under the id of another. -/

namespace RaftKv

open Function Runs Stdio

attribute [local irreducible] toInt32

/-- The role of a node, the leader it knows, its vote, and the votes it has got. -/
structure Post where
  role : RaftRole
  leaderId : ℤ
  votedFor : ℤ
  votesReceived : ℕ

def RaftNode.post (x : RaftNode) : Post := ⟨x.role, x.leaderId, x.votedFor, x.votesReceived⟩

/-- A leader knows and has voted for itself, a candidate has voted for itself and knows no leader,
and a follower does not know itself as the leader. -/
structure Coherent (id : ℕ) (post : Post) : Prop where
  leader : post.role = .leader → post.leaderId = id ∧ post.votedFor = id
  candidate : post.role = .candidate →
    post.leaderId = -1 ∧ post.votedFor = id ∧ 1 ≤ post.votesReceived
  follower : post.role = .follower → post.leaderId ≠ id

variable {x y : RaftNode} {sec : Section} {env : Env} {e : Effect} {p : Post}

/-! ### Posts -/

/-- What a section does to the post. -/
inductive PostTurn (x : RaftNode) : Section → Post → Prop
  | stay (sec : Section) : PostTurn x sec x.post
  | follow (sec : Section) (v : ℤ) : PostTurn x sec ⟨.follower, -1, v, 0⟩
  | yield {t l pi pt lc has : ℕ} {d : RaftLogEntry} (v : ℤ) :
      PostTurn x (.handleAppendEntries t l pi pt lc has d) ⟨.follower, toInt32 l, v, 0⟩
  | grant {t c li lt : ℕ} (free : x.votedFor < 0 ∨ x.votedFor = toInt32 c) :
      PostTurn x (.handleRequestVote t c li lt)
        ⟨x.role, x.leaderId, toInt32 c, x.votesReceived⟩
  | stand : PostTurn x .startElection ⟨.candidate, -1, toInt32 x.id, 1⟩
  | lead : PostTurn x .startElection ⟨.leader, toInt32 x.id, toInt32 x.id, 1⟩
  | count {t v granted : ℕ} (cand : x.role = .candidate)
      (few : ¬majorityCount x ≤ toInt32 ((x.votesReceived + 1) % 2 ^ 32 : ℕ)) :
      PostTurn x (.handleRequestVoteResponse t v granted)
        ⟨.candidate, x.leaderId, x.votedFor, (x.votesReceived + 1) % 2 ^ 32⟩
  | win {t v granted : ℕ} (cand : x.role = .candidate) :
      PostTurn x (.handleRequestVoteResponse t v granted)
        ⟨.leader, toInt32 x.id, x.votedFor, (x.votesReceived + 1) % 2 ^ 32⟩
  | remove {id : ℕ} (other : id ≠ x.id) :
      PostTurn x (.handleLeave id)
        ⟨x.role, if x.leaderId = toInt32 id then -1 else x.leaderId,
          if x.votedFor = toInt32 id then -1 else x.votedFor, x.votesReceived⟩

theorem post_logEvent (x : RaftNode) (event : Event) : (x.logEvent event).post = x.post := rfl

theorem post_applyCommittedLocked (h : applyCommittedLocked x = some y) : y.post = x.post := by
  rw [(applyCommittedLocked_eq h).1]
  rfl

theorem post_recomputeCommitLocked (h : recomputeCommitLocked x = some y) : y.post = x.post := by
  obtain ⟨c, a, store, events, rfl, -⟩ := recomputeCommitLocked_shape h
  rfl

theorem post_becomeFollowerLocked (now : ℕ) (x : RaftNode) (t : ℕ) (l : ℤ) :
    ∃ v, (becomeFollowerLocked now x t l).post = ⟨.follower, l, v, 0⟩ := by
  rcases Nat.lt_or_ge x.currentTerm t with hlt | hle
  · rw [becomeFollowerLocked_of_lt hlt]
    exact ⟨-1, rfl⟩
  · rw [becomeFollowerLocked_of_le hle]
    exact ⟨x.votedFor, rfl⟩

theorem post_becomeLeaderLocked (x : RaftNode) :
    (becomeLeaderLocked x).post = ⟨.leader, toInt32 x.id, x.votedFor, x.votesReceived⟩ := by
  unfold becomeLeaderLocked
  generalize toInt32 x.id = l
  rfl

theorem post_candidate (now : ℕ) (x : RaftNode) :
    (candidate now x).post = ⟨.candidate, -1, toInt32 x.id, 1⟩ := by
  unfold candidate
  generalize toInt32 x.id = v, (x.currentTerm + 1) % 2 ^ 32 = t, randomElectionTimeout x now = r
  rfl

theorem postTurn_startElection (now : ℕ) (x : RaftNode) :
    PostTurn x .startElection (startElection now x).node.post := by
  obtain ⟨-, -, hvote, hvotes⟩ := Post.mk.inj (post_candidate now x)
  rw [startElection_eq]
  split
  · rw [post_logEvent, post_becomeLeaderLocked, hvote, hvotes]
    exact .lead
  · rw [post_logEvent, post_candidate]
    exact .stand

theorem post_voteRequest (x : RaftNode) (v : ℤ) (now : ℕ) (event : Event) :
    (RaftNode.logEvent { x with votedFor := v, lastLeaderContactMs := now } event).post =
      ⟨x.role, x.leaderId, v, x.votesReceived⟩ := rfl

theorem postTurn_handleRequestVote (now : ℕ) (x : RaftNode) (t c li lt : ℕ) :
    PostTurn x (.handleRequestVote t c li lt) (handleRequestVote now x t c li lt).node.post := by
  generalize hx : (if x.currentTerm < t then becomeFollowerLocked now x t (-1) else x) = x1
  rw [handleRequestVote_eq hx]
  split at hx
  · obtain ⟨v, hpost⟩ := post_becomeFollowerLocked now x t (-1)
    rw [hx] at hpost
    obtain ⟨hrole, hleader, -, hvotes⟩ := Post.mk.inj hpost
    split
    · rw [post_voteRequest, hrole, hleader, hvotes]
      exact .follow _ _
    · change PostTurn x _ x1.post
      rw [hpost]
      exact .follow _ v
  · subst hx
    split
    · rename_i hgrant
      simp only [grantsVote, Bool.and_eq_true, Bool.or_eq_true, decide_eq_true_eq] at hgrant
      rw [post_voteRequest]
      exact .grant hgrant.1.2
    · exact .stay _

theorem postTurn_handleRequestVoteResponse (now : ℕ) (x : RaftNode) (t v granted : ℕ) :
    PostTurn x (.handleRequestVoteResponse t v granted)
      (handleRequestVoteResponse now x t granted).node.post := by
  generalize he : handleRequestVoteResponse now x t granted = e
  cases voteResponse he with
  | observes newer =>
    obtain ⟨v, hpost⟩ := post_becomeFollowerLocked now x t (-1)
    rw [hpost]
    exact .follow _ v
  | ignores => exact .stay _
  | counts h few =>
    have hcount : PostTurn x (.handleRequestVoteResponse t v granted)
        ⟨.candidate, x.leaderId, x.votedFor, (x.votesReceived + 1) % 2 ^ 32⟩ :=
      .count h.1 few
    rw [← h.1] at hcount
    exact hcount
  | wins h => exact .win h.1

theorem postTurn_handleAppendEntries {now t l pi pt lc has : ℕ} {d : RaftLogEntry}
    (he : handleAppendEntries now x t l pi pt lc has d = some e) :
    PostTurn x (.handleAppendEntries t l pi pt lc has d) e.node.post := by
  generalize hx : (if x.currentTerm ≤ t then becomeFollowerLocked now x t (toInt32 l)
    else x) = x1
  have hturn : PostTurn x (.handleAppendEntries t l pi pt lc has d) x1.post := by
    rw [← hx]
    split
    · obtain ⟨v, hpost⟩ := post_becomeFollowerLocked now x t (toInt32 l)
      rw [hpost]
      exact .yield v
    · exact .stay _
  rcases handleAppendEntries_cases hx he with ⟨-, -, log, z, -, happ, rfl⟩ | ⟨-, rfl⟩
  · have hz : z.post = x1.post := by
      split at happ
      · exact (post_applyCommittedLocked happ).trans rfl
      · rw [← Option.some.inj happ]
        rfl
    change PostTurn x _ z.post
    rw [hz]
    exact hturn
  · exact hturn

theorem postTurn_handleAppendResponse {now t id success m : ℕ}
    (he : handleAppendResponse now x t id success m = some e) :
    PostTurn x (.handleAppendResponse t id success m) e.node.post := by
  cases appendResponse he with
  | observes =>
    obtain ⟨v, hpost⟩ := post_becomeFollowerLocked now x t (-1)
    rw [hpost]
    exact .follow _ v
  | ignores | backs => exact .stay _
  | takes h succeeds z recomputed =>
    rw [post_recomputeCommitLocked recomputed]
    exact .stay _

theorem postTurn_removePeerLocked (x : RaftNode) (id : ℕ) :
    PostTurn x (.handleLeave id) (removePeerLocked x id).2.post := by
  unfold removePeerLocked
  split
  · exact .stay _
  · rename_i good
    have hremove := @PostTurn.remove x id fun heq => good (Or.inr heq)
    split
    · by_cases hv : x.votedFor = toInt32 id
      · simp only [hv, if_true] at hremove ⊢
        split <;> simpa only [RaftNode.post, *, if_true, if_false] using hremove
      · simp only [hv, if_false] at hremove ⊢
        split <;> simpa only [RaftNode.post, *, if_true, if_false] using hremove
    · exact .stay _

theorem exec_post (he : exec env sec x = some e) : PostTurn x sec e.node.post := by
  have quiet : e.node.post = x.post → PostTurn x sec e.node.post := by
    intro h
    rw [h]
    exact .stay sec
  cases sec with
  | startElection =>
    obtain rfl := Option.some.inj he
    exact postTurn_startElection env.now x
  | handleRequestVote t c li lt =>
    obtain rfl := Option.some.inj he
    exact postTurn_handleRequestVote env.now x t c li lt
  | handleRequestVoteResponse t v granted =>
    obtain rfl := Option.some.inj he
    exact postTurn_handleRequestVoteResponse env.now x t v granted
  | handleAppendEntries t l pi pt lc has d => exact postTurn_handleAppendEntries he
  | handleAppendResponse t id success m => exact postTurn_handleAppendResponse he
  | handleLeave id =>
    obtain rfl := Option.some.inj he
    exact postTurn_removePeerLocked x id
  | sendAppendToPeer id =>
    cases transmission he with
    | unknown | sends => exact quiet rfl
  | raftSubmitCommand op key value | handleClientForward source op key value =>
    obtain rfl := Option.some.inj he
    refine quiet ?_
    generalize hsubmit : raftSubmitCommand env x op key value = e
    cases submission hsubmit with
    | refused | forwards => rfl
    | leads =>
      unfold appendEntryLocked
      split <;> rfl
  | tickerLoop lastHeartbeat =>
    obtain rfl := Option.some.inj he
    exact quiet (congrArg RaftNode.post (node_tickerLoop env.now x lastHeartbeat))
  | submitPeerless =>
    obtain rfl := Option.some.inj he
    exact quiet (congrArg RaftNode.post (node_submitPeerless x))
  | submitCommit =>
    obtain ⟨z, hz, he⟩ := Option.bind_eq_some_iff.mp he
    rw [← Option.some.inj he] at quiet ⊢
    exact quiet ((post_applyCommittedLocked hz).trans rfl)
  | handleJoin id host port | handlePeerAnnounce id host port =>
    obtain rfl := Option.some.inj he
    refine quiet ?_
    have ha := admission x id host port
    change (addPeerLocked x id host port).2.post = x.post
    generalize (addPeerLocked x id host port).1 = r, (addPeerLocked x id host port).2 = y at ha ⊢
    cases ha <;> rfl
  | tickerMark | broadcastAppend | sendPeerCatalog _ _ | announcePeerToKnownNodes _ _ _ _
  | announceLeaveToKnownNodes _ | requestClusterJoin | requestClusterLeave =>
    obtain rfl := Option.some.inj he
    exact quiet rfl

/-! ### One node -/

section Coherent

variable {id : ℕ} {l v : ℤ} {c : ℕ}

theorem Coherent.of_leader (hl : l = id) (hv : v = id) : Coherent id ⟨.leader, l, v, c⟩ where
  leader _ := ⟨hl, hv⟩
  candidate hrole := by cases hrole
  follower hrole := by cases hrole

theorem Coherent.of_candidate (hl : l = -1) (hv : v = id) (hc : 1 ≤ c) :
    Coherent id ⟨.candidate, l, v, c⟩ where
  leader hrole := by cases hrole
  candidate _ := ⟨hl, hv, hc⟩
  follower hrole := by cases hrole

theorem Coherent.of_follower (hl : l ≠ id) : Coherent id ⟨.follower, l, v, c⟩ where
  leader hrole := by cases hrole
  candidate hrole := by cases hrole
  follower _ := hl

end Coherent

theorem majorityCount_le (room : x.peerCount ≤ raftMaxPeers) : majorityCount x ≤ 9 := by
  unfold majorityCount
  simp only [raftMaxPeers] at room
  omega

/-- The conversion to `int32_t` keeps an id below `2^31` apart from all other ids. -/
theorem eq_of_toInt32 {a b : ℕ} (ha : a < 2 ^ 31) (hb : b < 2 ^ 32) (h : toInt32 b = a) :
    b = a := by
  rcases Nat.lt_or_ge b (2 ^ 31) with hlt | hge
  · rw [toInt32_of_lt hlt] at h
    exact_mod_cast h
  · have hneg : toInt32 b < 0 := by
      unfold toInt32
      rw [Int.bmod_def]
      omega
    omega

theorem one_le_raftMaxPeers : 1 ≤ raftMaxPeers := by decide

/-- The section is not the handler of an `AE` line of the node's own id. -/
def fromOther (id : ℕ) : Section → Prop
  | .handleAppendEntries _ leaderId .. => leaderId ≠ id
  | _ => True

/-- A turn keeps the post coherent, and a candidate's votes countable. -/
theorem Coherent.turn (h : Coherent x.id x.post) (turn : PostTurn x sec p) (id_pos : 0 < x.id)
    (id_lt : x.id < 2 ^ 31) (room : x.peerCount ≤ raftMaxPeers)
    (votes : x.role = .candidate → x.votesReceived ≤ raftMaxPeers) (fits : Fits sec.numbers)
    (other : fromOther x.id sec) :
    Coherent x.id p ∧ (p.role = .candidate → p.votesReceived ≤ raftMaxPeers) := by
  have hself := toInt32_of_lt id_lt
  cases turn with
  | stay => exact ⟨h, votes⟩
  | follow sec v => exact ⟨.of_follower (by omega), fun hrole => by cases hrole⟩
  | @yield t l pi pt lc has d v =>
    have hne : toInt32 l ≠ x.id := fun heq =>
      other (eq_of_toInt32 id_lt (fits l (by simp [Section.numbers])) heq)
    exact ⟨.of_follower hne, fun hrole => by cases hrole⟩
  | @grant t c li lt free =>
    -- whoever is no follower has a vote already, so it votes for the same candidate again
    have same : x.votedFor = x.id → toInt32 c = x.id := by
      intro hvote
      rcases free with hneg | hc
      · omega
      · exact hc ▸ hvote
    refine ⟨⟨fun hrole => ?_, fun hrole => ?_, h.follower⟩, votes⟩
    · obtain ⟨hleader, hvote⟩ := h.leader hrole
      exact ⟨hleader, same hvote⟩
    · obtain ⟨hleader, hvote, hone⟩ := h.candidate hrole
      exact ⟨hleader, same hvote, hone⟩
  | stand => exact ⟨.of_candidate rfl hself le_rfl, fun _ => one_le_raftMaxPeers⟩
  | lead => exact ⟨.of_leader hself hself, fun hrole => by cases hrole⟩
  | count cand few =>
    obtain ⟨hleader, hvote, -⟩ := h.candidate cand
    have hle : x.votesReceived ≤ 16 := votes cand
    have hcount : (x.votesReceived + 1) % 2 ^ 32 = x.votesReceived + 1 := by omega
    rw [hcount, toInt32_of_lt (by omega)] at few
    have hmajority := majorityCount_le room
    have hfew : x.votesReceived + 1 ≤ 16 := by omega
    rw [hcount]
    exact ⟨.of_candidate hleader hvote (Nat.le_add_left 1 _), fun _ => hfew⟩
  | win cand =>
    obtain ⟨-, hvote, -⟩ := h.candidate cand
    exact ⟨.of_leader hself hvote, fun hrole => by cases hrole⟩
  | @remove id differs =>
    have hne : (x.id : ℤ) ≠ toInt32 id := fun heq =>
      differs (eq_of_toInt32 id_lt (fits id List.mem_cons_self) heq.symm)
    have keeps : ∀ z : ℤ, z = x.id → (if z = toInt32 id then -1 else z) = x.id := by
      intro z hz
      rw [if_neg (hz ▸ hne), hz]
    refine ⟨⟨fun hrole => ?_, fun hrole => ?_, fun hrole => ?_⟩, votes⟩
    · obtain ⟨hleader, hvote⟩ := h.leader hrole
      exact ⟨keeps _ hleader, keeps _ hvote⟩
    · obtain ⟨hleader, hvote, hone⟩ := h.candidate hrole
      refine ⟨?_, keeps _ hvote, hone⟩
      change (if x.leaderId = toInt32 id then -1 else x.leaderId) = -1
      split
      · rfl
      · exact hleader
    · have hfollower : x.leaderId ≠ x.id := h.follower hrole
      change (if x.leaderId = toInt32 id then -1 else x.leaderId) ≠ x.id
      split
      · omega
      · exact hfollower

/-! ### Addresses -/

variable {n : ℕ} {config : Fin n → RaftConfig} {i : Fin n} {s s' : Cluster n}

/-- Distinct ids that `int32_t` has, and no node lists its own. -/
structure DistinctIds (config : Fin n → RaftConfig) : Prop where
  range : ∀ i, 1 ≤ (config i).id ∧ (config i).id < 2 ^ 31
  inj : ∀ i j, (config i).id = (config j).id → i = j
  others : ∀ i, ∀ p ∈ (config i).peers, p.id ≠ (config i).id

/-- An id with a host name and a port that a line carries as they are.  When a node listens there,
the id is its own. -/
structure Genuine (config : Fin n → RaftConfig) (c : ℕ × Text × ℕ) : Prop where
  id : c.1 < 2 ^ 32
  host : IsToken 63 c.2.1
  port : c.2.2 < 2 ^ 16
  owner : ∀ j, (config j).host = c.2.1 → (config j).port = c.2.2 → (config j).id = c.1

/-- The configured addresses are genuine: no two nodes have the same one, and no node lists the
address of a node under another id. -/
structure GenuineAddresses (config : Fin n → RaftConfig) : Prop where
  own : ∀ i, Genuine config ((config i).id, (config i).host, (config i).port)
  peers : ∀ i, ∀ p ∈ (config i).peers, Genuine config p.contact
  room : ∀ i, (config i).peers.length ≤ raftMaxPeers

/-- A section names addresses that are genuine, and the node with id `id` did not send it an `AE`
line. -/
def Credible (config : Fin n → RaftConfig) (id : ℕ) : Section → Prop
  | .handleAppendEntries _ leaderId .. => leaderId ≠ id
  | .handleJoin peerId host port | .handlePeerAnnounce peerId host port
  | .announcePeerToKnownNodes peerId host port _ => Genuine config (peerId, host, port)
  | _ => True

/-- Whichever node gets the packet, the section it leads to is credible. -/
def CrediblePacket (config : Fin n → RaftConfig) (p : Packet) : Prop :=
  ∀ j sec, p.host = (config j).host ∧ p.port = (config j).port → p.line.handler = some sec →
    Credible config (config j).id sec

/-- What every section keeps at place `i`, when it is credible. -/
structure Held (config : Fin n → RaftConfig) (i : Fin n) (x : RaftNode) : Prop where
  self : (x.id, x.host, x.port) = ((config i).id, (config i).host, (config i).port)
  table : ∀ c ∈ x.table, Genuine config c ∧ c.1 ≠ x.id
  room : x.peerCount ≤ raftMaxPeers
  ranged : Ranged x
  commit : x.commitIndex ≤ raftMaxLog
  coherent : Coherent x.id x.post
  votes : x.role = .candidate → x.votesReceived ≤ raftMaxPeers

theorem Credible.fromOther {id : ℕ} (h : Credible config id sec) : fromOther id sec := by
  cases sec with
  | handleAppendEntries => exact h
  | _ => trivial

/-- A peer that a node lists is another node, or no node. -/
theorem Held.elsewhere (h : Held config i x) {peer : Peer} (hpeer : peer ∈ x.peers) :
    ¬(peer.host = x.host ∧ peer.port = x.port) := by
  rintro ⟨hhost, hport⟩
  obtain ⟨hid, hrest⟩ := Prod.mk.inj h.self
  obtain ⟨hx1, hx2⟩ := Prod.mk.inj hrest
  obtain ⟨genuine, hne⟩ := h.table _ (List.mem_map_of_mem hpeer)
  have howner := genuine.owner i (hx1.symm.trans hhost.symm) (hx2.symm.trans hport.symm)
  exact hne (howner.symm.trans hid.symm)

theorem LogTurn.terms {log : List RaftLogEntry} (turn : LogTurn x sec log)
    (room : x.log.length ≤ raftMaxLog) (hterm : x.currentTerm < 2 ^ 32)
    (hlog : ∀ d ∈ x.log, d.term < 2 ^ 32) (fits : Fits sec.numbers) :
    ∀ d ∈ log, d.term < 2 ^ 32 := by
  intro c hc
  cases turn with
  | keep => exact hlog c hc
  | append submits lead room =>
    rcases List.mem_append.mp hc with hc | hc
    · exact hlog c hc
    · rw [List.mem_singleton.mp hc]
      exact hterm
  | @store t l pi pt lc has d log term prev entry stored =>
    rcases storeEntry_shape stored room with rfl | ⟨k, -, -, -, rfl⟩
    · exact hlog c hc
    · rcases List.mem_append.mp hc with hc | hc
      · exact hlog c (List.mem_of_mem_take hc)
      · rw [List.mem_singleton.mp hc]
        exact fits d.term (by simp [Section.numbers])

theorem Held.exec (ids : DistinctIds config) (h : Held config i x) (fits : Fits sec.numbers)
    (credible : Credible config x.id sec) (he : RaftKv.exec env sec x = some e) :
    Held config i e.node := by
  have hself := exec_self he
  have hid : e.node.id = x.id := (Prod.mk.inj hself).1
  have hx : x.id = (config i).id := (Prod.mk.inj h.self).1
  obtain ⟨hpos, hlt⟩ := ids.range i
  rw [← hx] at hpos hlt
  obtain ⟨hturn, hcommit⟩ := exec_log he
  have hok : LogOk e.node.log := LogOk.turn ⟨h.ranged.room, h.ranged.indexed⟩ hturn
  have commit : e.node.commitIndex ≤ raftMaxLog := by
    rcases hcommit with hsame | hle
    · exact hsame.trans_le h.commit
    · exact hle.trans hok.room
  obtain ⟨coherent, votes⟩ := h.coherent.turn (exec_post he) hpos hlt h.room h.votes fits
    credible.fromOther
  rw [← hid] at coherent
  have ranged : Ranged e.node :=
    { id := hid ▸ h.ranged.id
      term := (exec_termTurn he).lt h.ranged.term fits
      commit := commit.trans_lt (by decide)
      room := hok.room
      terms := hturn.terms h.ranged.room h.ranged.term h.ranged.terms fits
      indexed := hok.indexed }
  refine ⟨hself.trans h.self, fun c hc => ?_, exec_room he h.room, ranged, commit, coherent, votes⟩
  rw [hid]
  rcases exec_mem_table he hc with hc | ⟨id, host, port, rfl | rfl, rfl, hne⟩
  · exact h.table c hc
  all_goals
    have genuine : Genuine config (id, host, port) := credible
    rw [copyText_of_isToken genuine.host]
    exact ⟨genuine, hne⟩

/-! ### Packets -/

/-- The membership lines that a node sends name genuine addresses. -/
theorem Held.sends_genuine (h : Held config i x) (addresses : GenuineAddresses config)
    (credible : Credible config x.id sec) (he : RaftKv.exec env sec x = some e) {p : Packet}
    (hp : p ∈ e.sends) {id port : ℕ} {host : Text}
    (hline : p.line = .join id host port ∨ p.line = .peer id host port) :
    Genuine config (id, host, port) := by
  have hkind := exec_sends he hp
  have hself : Genuine config (x.id, x.host, x.port) := h.self ▸ addresses.own i
  cases sec with
  | announcePeerToKnownNodes id' host' port' exceptId =>
    obtain rfl := Option.some.inj he
    rw [line_sendToAll hp] at hline
    rcases hline with hline | hline
    · cases hline
    · obtain ⟨rfl, rfl, rfl⟩ := Line.peer.inj hline
      exact credible
  | sendPeerCatalog host' port' =>
    obtain rfl := Option.some.inj he
    have hpeer : p.line = .peer id host port := by
      rcases hline with hline | hline
      · rw [hline] at hkind
        cases hkind
      · exact hline
    rcases List.mem_cons.mp hp with rfl | hp
    · obtain ⟨rfl, rfl, rfl⟩ := Line.peer.inj hpeer
      exact hself
    · obtain ⟨peer, hmem, rfl⟩ := List.mem_map.mp hp
      obtain ⟨rfl, rfl, rfl⟩ := Line.peer.inj hpeer
      exact (h.table _ (List.mem_map_of_mem hmem)).1
  | requestClusterJoin =>
    obtain rfl := Option.some.inj he
    rw [line_sendToAll hp] at hline
    rcases hline with hline | hline
    · obtain ⟨rfl, rfl, rfl⟩ := Line.join.inj hline
      exact hself
    · cases hline
  | _ => rcases hline with hline | hline <;> rw [hline] at hkind <;> cases hkind

/-- An `AE` line does not go to its sender. -/
theorem Held.sends_ae (h : Held config i x) (he : RaftKv.exec env sec x = some e) {p : Packet}
    (hp : p ∈ e.sends) {t l pi pt lc : ℕ} {entry : Option RaftLogEntry}
    (hline : p.line = .ae t l pi pt lc entry) {t' l' pi' pt' lc' has : ℕ} {d : RaftLogEntry}
    (parsed : p.line.handler = some (.handleAppendEntries t' l' pi' pt' lc' has d)) {j : Fin n}
    (address : p.host = (config j).host ∧ p.port = (config j).port) : l' ≠ (config j).id := by
  have hkind := exec_sends he hp
  rw [hline] at hkind
  cases sec with
  | sendAppendToPeer id =>
    cases transmission he with
    | unknown => cases hp
    | sends peer line found built =>
      rw [List.mem_singleton.mp hp] at address parsed
      obtain ⟨_, _, _, _, -, hsec, -⟩ := h.ranged.built_handler built parsed
      obtain ⟨-, rfl, -⟩ := Section.handleAppendEntries.inj hsec
      have hmem : peer ∈ x.peers := List.mem_of_find?_eq_some found
      obtain ⟨genuine, hne⟩ := h.table _ (List.mem_map_of_mem hmem)
      rw [genuine.owner j address.1.symm address.2.symm]
      exact hne.symm
  | _ => cases hkind

theorem Held.sends_credible (h : Held config i x) (addresses : GenuineAddresses config)
    (credible : Credible config x.id sec) (he : RaftKv.exec env sec x = some e) {p : Packet}
    (hp : p ∈ e.sends) : CrediblePacket config p := by
  intro j next address parsed
  have htag := Line.handler_tag parsed
  cases hline : p.line with
  | ae t l pi pt lc entry =>
    cases next with
    | handleAppendEntries t' l' pi' pt' lc' has d => exact h.sends_ae he hp hline parsed address
    | handleJoin | handlePeerAnnounce | announcePeerToKnownNodes =>
      rw [hline] at htag
      exact absurd htag (by simp only [Section.tag, Line.tag]; decide)
    | _ => trivial
  | join id host port =>
    have genuine := h.sends_genuine addresses credible he hp (Or.inl hline)
    rw [hline, Line.handler_join genuine.id genuine.host genuine.port] at parsed
    obtain rfl := Option.some.inj parsed
    exact genuine
  | peer id host port =>
    have genuine := h.sends_genuine addresses credible he hp (Or.inr hline)
    rw [hline, Line.handler_peer genuine.id genuine.host genuine.port] at parsed
    obtain rfl := Option.some.inj parsed
    exact genuine
  | _ =>
    rw [hline] at htag
    cases next <;> first
      | trivial
      | exact absurd htag (by simp only [Section.tag, Line.tag]; decide)

/-! ### Runs -/

/-- A thread starts in the ticker, with a client's command, or with a request of `node.cpp`. -/
def Delivery.outer : Delivery n → Bool
  | .act a => a.outer
  | .again _ => true

structure RoleInv (config : Fin n → RaftConfig) (s : Cluster n) : Prop where
  node : ∀ i, Held config i (s.node i)
  threads : ∀ th ∈ s.threads, ∀ sec ∈ th.2, sec.inner = true ∧ ∀ id, Credible config id sec
  packets : ∀ p ∈ s.net, CrediblePacket config p
  unbroken : Unbroken s

theorem unbroken_genuine (addresses : GenuineAddresses config) (i : Fin n) :
    (config i).Unbroken :=
  ⟨(printable_of_solid (addresses.own i).host.solid).newline,
    fun p hp => (printable_of_solid (addresses.peers i p hp).host.solid).newline⟩

theorem roleInv_start (ids : DistinctIds config) (addresses : GenuineAddresses config)
    (now : Fin n → ℕ) : RoleInv config (Cluster.start now config) := by
  refine ⟨fun i => ⟨?_, fun c hc => ?_, addresses.room i, ?_, Nat.zero_le _, ?_, ?_⟩,
    fun _ hth => absurd hth List.not_mem_nil, fun _ hp => absurd hp List.not_mem_nil,
    unbroken_start (unbroken_genuine addresses)⟩
  · have hcopy : copyText 64 (config i).host = (config i).host :=
      copyText_of_isToken (addresses.own i).host
    exact congrArg (fun host => ((config i).id, host, (config i).port)) hcopy
  · obtain ⟨p, hp, rfl⟩ := List.mem_map.mp hc
    exact ⟨addresses.peers i p hp, ids.others i p hp⟩
  · exact
      { id := (ids.range i).2.trans (by norm_num)
        term := by norm_num [Cluster.start, raftNodeInit]
        commit := by norm_num [Cluster.start, raftNodeInit]
        room := Nat.zero_le _
        terms := fun d hd => absurd hd List.not_mem_nil
        indexed := fun k d hd => by cases hd }
  · have hne : (-1 : ℤ) ≠ (config i).id := by omega
    exact .of_follower hne
  · intro hrole
    cases hrole

theorem credible_of_outer (h : sec.outer = true) :
    sec.inner = true ∧ ∀ id, Credible config id sec := by
  cases sec with
  | tickerLoop | raftSubmitCommand | requestClusterJoin | requestClusterLeave =>
    exact ⟨rfl, fun _ => trivial⟩
  | _ => cases h

/-- What a thread enters after a credible section is credible at every node. -/
theorem credible_todo {id : ℕ} (credible : Credible config id sec)
    (he : RaftKv.exec env sec x = some e) {next : Section} (hn : next ∈ e.todo) :
    next.inner = true ∧ ∀ id, Credible config id next := by
  have hfollows := exec_follows he hn
  have hinner := Section.inner_of_follows hfollows
  refine ⟨hinner, fun id' => ?_⟩
  cases next with
  | announcePeerToKnownNodes peerId host port exceptId =>
    cases sec with
    | handleJoin | handlePeerAnnounce =>
      rcases of_decide_eq_true hfollows with heq | heq
      · obtain ⟨rfl, rfl, rfl, -⟩ := Section.announcePeerToKnownNodes.inj heq
        exact credible
      · cases heq
    | _ => simp [Section.follows] at hfollows
  | handleAppendEntries | handleJoin | handlePeerAnnounce => cases hinner
  | _ => trivial

/-- A credible section of node `i` keeps the invariant. -/
theorem RoleInv.run (ids : DistinctIds config) (addresses : GenuineAddresses config)
    (h : RoleInv config s) (fits : Fits sec.numbers) (credible : Credible config (s.node i).id sec)
    (he : exec env sec (s.node i) = some e) {rest : List Section}
    {threads : List (Fin n × List Section)} {net : List Packet}
    (hrest : ∀ next ∈ rest, next.inner = true ∧ ∀ id, Credible config id next)
    (hthreads : ∀ th ∈ threads, ∀ next ∈ th.2, next.inner = true ∧ ∀ id, Credible config id next)
    (hnet : ∀ p ∈ net, CrediblePacket config p)
    (unbroken : Unbroken ⟨update s.node i e.node, (i, e.todo ++ rest) :: threads, e.sends ++ net⟩) :
    RoleInv config ⟨update s.node i e.node, (i, e.todo ++ rest) :: threads, e.sends ++ net⟩ := by
  refine ⟨fun j => ?_, fun th hth next hn => ?_, fun p hp => ?_, unbroken⟩
  · by_cases hj : j = i
    · subst hj
      simp only [update_self]
      exact (h.node j).exec ids fits credible he
    · simp only [update_of_ne hj]
      exact h.node j
  · rcases List.mem_cons.mp hth with rfl | hth
    · rcases List.mem_append.mp hn with hn | hn
      · exact credible_todo credible he hn
      · exact hrest next hn
    · exact hthreads th hth next hn
  · rcases List.mem_append.mp hp with hp | hp
    · exact (h.node i).sends_credible addresses credible he hp
    · exact hnet p hp

theorem RoleInv.step (ids : DistinctIds config) (addresses : GenuineAddresses config)
    (h : RoleInv config s) {d : Delivery n} (outer : d.outer = true) (ok : d.Unbroken)
    (hstep : s.stepAgain d = some s') : RoleInv config s' := by
  have unbroken := h.unbroken.stepAgain ok hstep
  cases d with
  | act a =>
    rcases Cluster.step_cases hstep with ⟨pre, p, post, hnet, rfl⟩ |
      ⟨i, env, sec, rest, threads, net, e, -, hsrc, he, rfl⟩
    · refine ⟨h.node, h.threads, fun q hq => h.packets q ?_, unbroken⟩
      rw [hnet]
      rcases List.mem_append.mp hq with hq | hq
      · exact List.mem_append_left _ hq
      · exact List.mem_append_right _ (List.mem_cons_of_mem _ hq)
    · have ofInner : sec.inner = true ∧ (∀ id, Credible config id sec) →
          Fits sec.numbers ∧ Credible config (s.node i).id sec := fun hsec =>
        ⟨Section.Enterable.fits (Or.inr hsec.1), hsec.2 _⟩
      have handled : ∀ p, CrediblePacket config p →
          p.host = (s.node i).host ∧ p.port = (s.node i).port → p.line.handler = some sec →
          Fits sec.numbers ∧ Credible config (s.node i).id sec := by
        intro p hp address parsed
        obtain ⟨hid, hrest⟩ := Prod.mk.inj (h.node i).self
        obtain ⟨hhost, hport⟩ := Prod.mk.inj hrest
        obtain ⟨text, -, hline⟩ := Option.bind_eq_some_iff.mp parsed
        rw [hid]
        exact ⟨Section.Enterable.fits (Or.inl ⟨text, hline⟩),
          hp i sec ⟨address.1.trans hhost, address.2.trans hport⟩ parsed⟩
      have horigin := hsrc.origin h.unbroken.net
      obtain ⟨⟨fits, credible⟩, hrest, hthreads, hnet⟩ := horigin.carries
        (P := fun sec => Fits sec.numbers ∧ Credible config (s.node i).id sec)
        h.threads h.packets (by rintro env rfl; exact ofInner (credible_of_outer outer)) ofInner
        handled
      exact h.run ids addresses fits credible he hrest hthreads hnet unbroken
  | again k =>
    obtain ⟨p, hp, rfl⟩ := Option.map_eq_some_iff.mp hstep
    refine ⟨h.node, h.threads, fun q hq => ?_, unbroken⟩
    rcases List.mem_cons.mp hq with rfl | hq
    · exact h.packets q (List.mem_of_getElem? hp)
    · exact h.packets q hq

/-- A forwarded command goes to a peer in the table. -/
theorem forwards_to_peer (he : exec env sec x = some e) {p : Packet} (hp : p ∈ e.sends)
    {source : ℕ} {op : KvOp} {key value : Text} (hline : p.line = .cl source op key value) :
    ∃ peer ∈ x.peers, p.host = peer.host ∧ p.port = peer.port := by
  have hkind := exec_sends he hp
  rw [hline] at hkind
  cases sec with
  | raftSubmitCommand op' key' value' | handleClientForward source' op' key' value' =>
    obtain rfl := Option.some.inj he
    generalize hsubmit : raftSubmitCommand env x op' key' value' = e at hp
    cases submission hsubmit with
    | refused | leads => cases hp
    | forwards checked follows target =>
      simp only [sendToPeer] at hp
      split at hp
      · rename_i peer found
        rw [List.mem_singleton.mp hp]
        exact ⟨peer, List.mem_of_find?_eq_some found, rfl, rfl⟩
      · cases hp
  | _ => cases hkind

/-- Role coherence, in a cluster whose members come and go, with lines lost, repeated and reordered:
when no table starts with the address of a node under the id of another, and no value of a deletion
has a newline in it, every post is coherent, and no node forwards a command to itself. -/
theorem role_coherence (ids : DistinctIds config) (addresses : GenuineAddresses config)
    {now : Fin n → ℕ} (run : Reach Cluster.stepAgain (fun _ d => d.outer = true ∧ d.Unbroken)
      (Cluster.start now config) s) (i : Fin n) :
    Coherent (s.node i).id (s.node i).post ∧
    ∀ env sec e, exec env sec (s.node i) = some e → ∀ p ∈ e.sends, ∀ source op key value,
      p.line = .cl source op key value →
      ¬(p.host = (s.node i).host ∧ p.port = (s.node i).port) := by
  have h : RoleInv config s := by
    refine run.invariant (roleInv_start ids addresses now) ?_
    rintro s d s' - h ⟨outer, ok⟩ hstep
    exact h.step ids addresses outer ok hstep
  refine ⟨(h.node i).coherent, ?_⟩
  intro env sec e he p hp source op key value hline
  obtain ⟨peer, hpeer, hhost, hport⟩ := forwards_to_peer he hp hline
  rw [hhost, hport]
  exact (h.node i).elsewhere hpeer

theorem distinctIds_trio : DistinctIds trioConfig :=
  ⟨by decide, by decide, by decide⟩

theorem genuineAddresses_trio : GenuineAddresses trioConfig := by
  have host : IsToken 63 (bytes "127.0.0.1") :=
    ⟨by decide, by decide +kernel, by decide⟩
  have genuine : ∀ id < 10, Genuine trioConfig (id, bytes "127.0.0.1", 9000 + id) := by
    intro id hid
    have hport : 9000 + id < 2 ^ 16 := by omega
    refine ⟨by omega, host, hport, fun j _ hj => ?_⟩
    simp only [trioConfig] at hj ⊢
    omega
  refine ⟨fun i => ?_, fun i p hp => ?_, by decide⟩
  · have hi := genuine (i + 1) (by omega)
    rwa [show 9000 + (i.val + 1) = 9001 + i by omega] at hi
  · obtain ⟨id, hid, rfl⟩ := List.mem_map.mp hp
    have hmem := (List.mem_filter.mp hid).1
    simp only [List.mem_cons, List.not_mem_nil, or_false] at hmem
    exact genuine id (by omega)

/-- Node 1 is elected and leads, and node 2 follows it. -/
theorem role_coherence_trio : ∃ s,
    Reach Cluster.stepAgain (fun _ d => d.outer = true ∧ d.Unbroken) trio s ∧
    (s.node 0).role = .leader ∧ Coherent (s.node 0).id (s.node 0).post ∧
    (s.node 1).leaderId = 1 ∧ Coherent (s.node 1).id (s.node 1).post := by
  let more : List (Action 3) := [.resume 0 still, .deliver 0 node2 still]
  have hrun : (runList Cluster.stepAgain (fun _ d => decide (d.outer = true ∧ d.Unbroken)) trio
      ((trioBroadcast ++ more).map .act)).any (fun s =>
        (s.node 0).role = .leader ∧ (s.node 1).leaderId = 1) = true := by
    decide +kernel
  obtain ⟨s, run, hs⟩ := exists_reach (fun s d => of_decide_eq_true) hrun
  obtain ⟨hlead, hleader⟩ := of_decide_eq_true hs
  exact ⟨s, run, hlead, (role_coherence distinctIds_trio genuineAddresses_trio run 0).1, hleader,
    (role_coherence distinctIds_trio genuineAddresses_trio run 1).1⟩

/-! ### The address of a node under another id -/

/-- Node 1 lists node 3, and node 3 lists node 1, under the ids 1 and 2.  Node 2 lists no one. -/
def mirrorConfig (i : Fin 3) : RaftConfig :=
  { trioConfig i with
    peers := if i.val = 0 then [trioPeer 3]
      else if i.val = 1 then []
      else [trioPeer 1, ⟨2, bytes "127.0.0.1", 9001, 1, 0⟩] }

/-- Node 1 joins node 3, which tells it of peer 2 at its own address.  Then node 1 is elected by
node 3, and broadcasts to its two peers. -/
def mirrorRun : List (Action 3) :=
  [.enter node1 still .requestClusterJoin, .deliver 0 node3 still, .resume 0 still,
    .deliver 2 node1 still, .enter node1 ⟨2000, true⟩ (.tickerLoop 0), .resume 0 still,
    .deliver 0 node3 still, .deliver 0 node1 still, .resume 0 still, .resume 0 still,
    .resume 0 still, .deliver 0 node1 still]

/-- Node 1 follows itself. -/
theorem follows_itself : ¬∀ (n : ℕ) (now : Fin n → ℕ) (config : Fin n → RaftConfig),
    DistinctIds config → ∀ s, Reach Cluster.stepAgain (fun _ d => d.outer = true)
      (Cluster.start now config) s → ∀ i, Coherent (s.node i).id (s.node i).post := by
  intro h
  have ids : DistinctIds mirrorConfig := ⟨by decide, by decide, by decide⟩
  have hrun : (runList Cluster.stepAgain (fun _ d => d.outer)
      (Cluster.start (fun _ => 0) mirrorConfig) (mirrorRun.map .act)).any (fun s =>
        (s.node 0).role = .follower ∧ (s.node 0).leaderId = (s.node 0).id) = true := by
    decide +kernel
  obtain ⟨s, run, hs⟩ := exists_reach (fun s d => id) hrun
  obtain ⟨hrole, hleader⟩ := of_decide_eq_true hs
  exact (h 3 _ _ ids s run 0).follower hrole hleader

end RaftKv
