import RaftKv.Lines
import RaftKv.Shape

/-! The commands of user calls on their way through `CL` lines.  `Traced` is a cluster that keeps
the number of the user call with every line and every append that come from it.  A command is in one
place: on its way in a `CL` line, or appended, or given up, as long as what is sent is one line. -/

namespace RaftKv

open Function Runs Stdio

/-- A cluster, and where the commands of the user calls of `raft_submit_command` are.  A thread has
the call that it is in, and a line and a thread the call that their command comes from. -/
structure Traced (n : ℕ) where
  node : Fin n → RaftNode
  threads : List ((Option ℕ × Option ℕ) × Fin n × List Section)
  net : List (Option ℕ × Packet)
  /-- the number of calls so far -/
  calls : ℕ
  /-- the calls of the successes of `append_entry_locked` -/
  appended : List (Option ℕ)
  /-- the values that the calls have returned -/
  returned : List (ℕ × ℤ)

/-- The sections in which `raft_submit_command` can call `append_entry_locked`. -/
def Section.submits : Section → Bool
  | .raftSubmitCommand .. | .handleClientForward .. => true
  | _ => false

/-- A call by a user. -/
def Section.isCall : Section → Bool
  | .raftSubmitCommand .. => true
  | _ => false

variable {n : ℕ}

namespace Traced

/-- A thread in call `user` runs `sec`, which handles the command of call `call`, and has `rest`
left. -/
def run (t : Traced n) (user call : Option ℕ) (i : Fin n) (env : Env) (sec : Section)
    (rest : List Section) : Option (Traced n) :=
  (exec env sec (t.node i)).map fun e =>
    { t with
      node := update t.node i e.node
      threads := ((user, none), i, e.todo ++ rest) :: t.threads
      net := e.sends.map (fun p => (call, p)) ++ t.net
      appended :=
        (if sec.submits ∧ (t.node i).logCount < e.node.logCount then [call] else []) ++ t.appended
      returned := (match user, e.ret with
        | some c, some r => [(c, r)]
        | _, _ => []) ++ t.returned }

def step (t : Traced n) : Action n → Option (Traced n)
  | .enter i env sec =>
    if sec.isCall then
      { t with calls := t.calls + 1 }.run (some t.calls) (some t.calls) i env sec []
    else t.run none none i env sec []
  | .resume k env =>
    match t.threads[k]? with
    | some ((user, call), i, sec :: rest) =>
      { t with threads := t.threads.eraseIdx k }.run user call i env sec rest
    | _ => none
  | .deliver k i env m =>
    match t.net[k]? with
    | some (call, p) =>
      if p.host = (t.node i).host ∧ p.port = (t.node i).port then
        let calls := p.line.handlers
        match calls[m]? with
        | some sec =>
          { t with
            threads := (calls.eraseIdx m).map (fun other => ((none, call), i, [other])) ++ t.threads
            net := t.net.eraseIdx k }.run none call i env sec []
        | none => if calls = [] then some { t with net := t.net.eraseIdx k } else none
      else none
    | none => none
  | .lose k => if k < t.net.length then some { t with net := t.net.eraseIdx k } else none

def start (now : Fin n → ℕ) (config : Fin n → RaftConfig) : Traced n where
  node i := raftNodeInit (now i) (config i)
  threads := []
  net := []
  calls := 0
  appended := []
  returned := []

/-- The cluster without the numbers of the calls. -/
def erase (t : Traced n) : Cluster n where
  node := t.node
  threads := t.threads.map Prod.snd
  net := t.net.map Prod.snd

end Traced

variable {t t' : Traced n} {x : RaftNode} {env : Env} {sec : Section} {e : Effect}

/-! ### The cluster below -/

theorem erase_run (t : Traced n) (user call : Option ℕ) (i : Fin n) (env : Env) (sec : Section)
    (rest : List Section) :
    (t.run user call i env sec rest).map Traced.erase = t.erase.run i env sec rest := by
  unfold Traced.run Cluster.run
  rw [Option.map_map]
  refine congrArg (fun f => Option.map f (exec env sec (t.node i))) ?_
  funext e
  simp [Traced.erase, comp_def]

/-- A traced step is a step of the cluster. -/
theorem erase_step (t : Traced n) (a : Action n) :
    (t.step a).map Traced.erase = t.erase.step a := by
  cases a with
  | enter i env sec =>
    simp only [Traced.step]
    split
    · exact erase_run { t with calls := t.calls + 1 } _ _ i env sec []
    · exact erase_run t _ _ i env sec []
  | resume k env =>
    simp only [Traced.step, Cluster.step]
    rw [show t.erase.threads[k]? = t.threads[k]?.map Prod.snd from List.getElem?_map ..]
    cases t.threads[k]? with
    | none => rfl
    | some th =>
      obtain ⟨⟨user, call⟩, i, secs⟩ := th
      cases secs with
      | nil => rfl
      | cons sec rest =>
        refine (erase_run { t with threads := t.threads.eraseIdx k } _ _ i env sec rest).trans ?_
        simp only [Traced.erase, Option.map_some, List.eraseIdx_map]
  | deliver k i env m =>
    simp only [Traced.step, Cluster.step]
    rw [show t.erase.net[k]? = t.net[k]?.map Prod.snd from List.getElem?_map ..]
    cases t.net[k]? with
    | none => rfl
    | some q =>
      obtain ⟨call, p⟩ := q
      simp only [Option.map_some]
      have herase : t.erase.node i = t.node i := rfl
      rw [herase]
      by_cases haddr : p.host = (t.node i).host ∧ p.port = (t.node i).port
      · simp only [if_pos haddr]
        cases p.line.handlers[m]? with
        | none =>
          by_cases hnone : p.line.handlers = []
          · simp only [hnone, if_true, Option.map_some, Traced.erase, List.eraseIdx_map]
          · simp only [hnone, if_false, Option.map_none]
        | some sec =>
          refine (erase_run _ none call i env sec []).trans ?_
          simp only [Traced.erase, List.eraseIdx_map, List.map_append, List.map_map, comp_def]
      · simp only [if_neg haddr, Option.map_none]
  | lose k =>
    simp only [Traced.step, Cluster.step]
    rw [show t.erase.net.length = t.net.length from List.length_map _]
    split
    · simp only [Option.map_some, Traced.erase, List.eraseIdx_map]
    · rfl

/-! ### One section -/

/-- A submission appends, or sends one line, or does neither, and it does neither when it fails. -/
theorem raftSubmitCommand_once (env : Env) (x : RaftNode) (op : KvOp) (key value : Text) :
    let e := raftSubmitCommand env x op key value
    (x.logCount < e.node.logCount → e.sends = []) ∧ e.sends.length ≤ 1 ∧
      ∀ r, e.ret = some r → r ≠ 0 → e.sends = [] ∧ ¬x.logCount < e.node.logCount := by
  intro e
  have he : raftSubmitCommand env x op key value = e := rfl
  clear_value e
  cases submission he with
  | refused => exact ⟨fun _ => rfl, Nat.zero_le _, fun _ _ _ => ⟨rfl, lt_irrefl _⟩⟩
  | leads => exact ⟨fun _ => rfl, Nat.zero_le _, fun r hr => by cases hr⟩
  | forwards =>
    refine ⟨fun h => absurd h (lt_irrefl _), ?_, ?_⟩
    · dsimp only [sendToPeer]
      split
      · exact le_rfl
      · exact Nat.zero_le _
    · intro r hr hne
      exact absurd (Option.some.inj hr).symm hne

theorem exec_submit (he : exec env sec x = some e) (h : sec.submits = true) :
    (x.logCount < e.node.logCount → e.sends = []) ∧ e.sends.length ≤ 1 ∧
      ∀ r, e.ret = some r → r ≠ 0 → e.sends = [] ∧ ¬x.logCount < e.node.logCount := by
  cases sec with
  | raftSubmitCommand op key value =>
    obtain rfl := Option.some.inj he
    exact raftSubmitCommand_once env x op key value
  | handleClientForward source op key value =>
    obtain rfl := Option.some.inj he
    obtain ⟨h1, h2, -⟩ := raftSubmitCommand_once env x op key value
    exact ⟨h1, h2, fun r hr => by cases hr⟩
  | _ => cases h

/-- A section that submits nothing returns 0, or does not return. -/
theorem exec_ret (he : exec env sec x = some e) (h : sec.submits = false) {r : ℤ}
    (hr : e.ret = some r) : r = 0 := by
  have silent : e.ret = none → r = 0 := by
    intro hnone
    rw [hnone] at hr
    cases hr
  cases sec with
  | raftSubmitCommand | handleClientForward => cases h
  | submitPeerless =>
    obtain rfl := Option.some.inj he
    unfold submitPeerless at hr
    split at hr
    · cases hr
    · exact (Option.some.inj hr).symm
  | submitCommit =>
    obtain ⟨y, -, he⟩ := Option.bind_eq_some_iff.mp he
    obtain rfl := Option.some.inj he
    exact (Option.some.inj hr).symm
  | startElection =>
    obtain rfl := Option.some.inj he
    apply silent
    rw [startElection_eq]
    split <;> rfl
  | handleRequestVoteResponse t v granted =>
    apply silent
    cases voteResponse (Option.some.inj he) with
    | observes | ignores | counts | wins => rfl
  | handleAppendEntries t l p pt lc has d =>
    apply silent
    rcases handleAppendEntries_cases rfl he with ⟨-, -, log, y, -, -, rfl⟩ | ⟨-, rfl⟩
    · rfl
    · rfl
  | handleAppendResponse t p success m =>
    apply silent
    cases appendResponse he with
    | observes | ignores | takes | backs => rfl
  | sendAppendToPeer id =>
    apply silent
    cases transmission he with
    | unknown | sends => rfl
  | tickerLoop lastHeartbeat =>
    apply silent
    cases tickerRound (Option.some.inj he) with
    | stands | beats | waits => rfl
  | tickerMark | broadcastAppend | handleRequestVote _ _ _ _ | handleJoin _ _ _
  | sendPeerCatalog _ _ | handlePeerAnnounce _ _ _ | announcePeerToKnownNodes _ _ _ _
  | handleLeave _ | announceLeaveToKnownNodes _ | requestClusterJoin | requestClusterLeave =>
    obtain rfl := Option.some.inj he
    exact silent rfl

/-- Only submissions send `CL` lines, and they send no others. -/
theorem sends_cl {line : Line} (h : sec.sends line = true) :
    line.tag = bytes "CL" ↔ sec.submits = true := by
  constructor
  · intro htag
    cases line with
    | cl =>
      cases sec with
      | raftSubmitCommand | handleClientForward => rfl
      | _ => cases h
    | _ =>
      simp only [Line.tag] at htag
      exact absurd htag (by decide)
  · intro hsubmits
    cases sec with
    | raftSubmitCommand | handleClientForward =>
      cases line with
      | cl => rfl
      | _ => cases h
    | _ => cases hsubmits

theorem Section.submits_of_follows {next : Section} (h : sec.follows next = true) :
    next.submits = false := by
  cases next with
  | raftSubmitCommand | handleClientForward => cases sec <;> simp [Section.follows] at h
  | _ => rfl

/-! ### The invariant -/

/-- Every command is in at most one place, under a number that has been given out. -/
structure Conserved (t : Traced n) : Prop where
  once : ∀ c, t.appended.count (some c) + (t.net.map Prod.fst).count (some c) ≤ 1
  appended_lt : ∀ c, some c ∈ t.appended → c < t.calls
  net_lt : ∀ c, some c ∈ t.net.map Prod.fst → c < t.calls
  threads_lt : ∀ th ∈ t.threads, ∀ c, th.1.1 = some c → c < t.calls
  returned_lt : ∀ c r, (c, r) ∈ t.returned → c < t.calls
  failed : ∀ c r, (c, r) ∈ t.returned → r ≠ 0 → some c ∉ t.appended ∧ some c ∉ t.net.map Prod.fst
  named : none ∉ t.appended
  carried : ∀ q ∈ t.net, q.1.isSome = true ↔ q.2.line.tag = bytes "CL"
  later : ∀ th ∈ t.threads, th.1.2 = none ∧ ∀ next ∈ th.2.2, next.submits = false

/-- A section can run in call `user` with the command of call `call`, which is in no other place. -/
structure Loose (t : Traced n) (user call : Option ℕ) (sec : Section) : Prop where
  submits : call.isSome = true ↔ sec.submits = true
  appended : ∀ c, call = some c → some c ∉ t.appended
  net : ∀ c, call = some c → some c ∉ t.net.map Prod.fst
  lt : ∀ c, call = some c → c < t.calls
  returned : ∀ c r, call = some c → (c, r) ∈ t.returned → r = 0
  user_lt : ∀ c, user = some c → c < t.calls
  user_call : ∀ c, user = some c → sec.submits = true → call = some c

/-- A section without a command can run in any call. -/
theorem Loose.idle {user : Option ℕ} (submits : sec.submits = false)
    (user_lt : ∀ c, user = some c → c < t.calls) : Loose t user none sec where
  submits := by
    rw [submits]
    exact Iff.rfl
  appended c hc := by cases hc
  net c hc := by cases hc
  lt c hc := by cases hc
  returned c r hc := by cases hc
  user_lt := user_lt
  user_call c _ hs := by
    rw [submits] at hs
    cases hs

section Put

variable {user call o : Option ℕ} {sends : List Packet} {ret : Option ℤ} {c : ℕ} {r : ℤ}

theorem mem_grown {P : Prop} [Decidable P] (h : o ∈ if P then [call] else []) : o = call ∧ P := by
  split at h
  · rename_i hcond
    exact ⟨List.mem_singleton.mp h, hcond⟩
  · cases h

theorem mem_sent (h : o ∈ (sends.map fun p => (call, p)).map Prod.fst) :
    o = call ∧ sends ≠ [] := by
  rw [List.map_map] at h
  obtain ⟨p, hp, rfl⟩ := List.mem_map.mp h
  exact ⟨rfl, List.ne_nil_of_mem hp⟩

theorem mem_returned (h : (c, r) ∈ match user, ret with
    | some c, some r => [(c, r)]
    | _, _ => []) : user = some c ∧ ret = some r := by
  cases user with
  | none => cases h
  | some c' =>
    cases ret with
    | none => cases h
    | some r' =>
      obtain ⟨rfl, rfl⟩ := Prod.mk.inj (List.mem_singleton.mp h)
      exact ⟨rfl, rfl⟩

/-- A submission puts its command in one place at most. -/
theorem count_put (he : exec env sec x = some e) (hsubmits : sec.submits = true)
    (call o : Option ℕ) :
    (if sec.submits ∧ x.logCount < e.node.logCount then [call] else []).count o +
      ((e.sends.map fun p => (call, p)).map Prod.fst).count o ≤ 1 := by
  obtain ⟨happend, hone, -⟩ := exec_submit he hsubmits
  have hsends : ((e.sends.map fun p => (call, p)).map Prod.fst).count o ≤ e.sends.length := by
    refine List.count_le_length.trans ?_
    rw [List.length_map, List.length_map]
  split
  · rename_i hcond
    rw [happend hcond.2]
    exact List.count_le_length
  · rw [List.count_nil, Nat.zero_add]
    exact hsends.trans hone

end Put

theorem Conserved.run (h : Conserved t) {user call : Option ℕ} (loose : Loose t user call sec)
    {i : Fin n} {rest : List Section} (hrest : ∀ next ∈ rest, next.submits = false)
    (hrun : t.run user call i env sec rest = some t') : Conserved t' := by
  obtain ⟨e, he, rfl⟩ := Option.map_eq_some_iff.mp hrun
  constructor
  · intro c
    rw [List.map_append, List.count_append, List.count_append]
    by_cases hc : call = some c
    · have hput := count_put he (loose.submits.mp (by rw [hc]; rfl)) call (some c)
      rwa [List.count_eq_zero_of_not_mem (loose.appended c hc),
        List.count_eq_zero_of_not_mem (loose.net c hc), Nat.add_zero, Nat.add_zero]
    · rw [List.count_eq_zero_of_not_mem fun hm => hc (mem_grown hm).1.symm,
        List.count_eq_zero_of_not_mem fun hm => hc (mem_sent hm).1.symm, Nat.zero_add, Nat.zero_add]
      exact h.once c
  · intro c hc
    rcases List.mem_append.mp hc with hc | hc
    · exact loose.lt c (mem_grown hc).1.symm
    · exact h.appended_lt c hc
  · intro c hc
    rw [List.map_append] at hc
    rcases List.mem_append.mp hc with hc | hc
    · exact loose.lt c (mem_sent hc).1.symm
    · exact h.net_lt c hc
  · intro th hth c hc
    rcases List.mem_cons.mp hth with rfl | hth
    · exact loose.user_lt c hc
    · exact h.threads_lt th hth c hc
  · intro c r hcr
    rcases List.mem_append.mp hcr with hcr | hcr
    · exact loose.user_lt c (mem_returned hcr).1
    · exact h.returned_lt c r hcr
  · intro c r hcr hne
    rw [List.map_append, List.mem_append, List.mem_append, not_or, not_or]
    rcases List.mem_append.mp hcr with hcr | hold
    · -- the call fails in this section
      obtain ⟨huser, hr⟩ := mem_returned hcr
      cases hsubmits : sec.submits with
      | false => exact absurd (exec_ret he hsubmits hr) hne
      | true =>
        have hcall := loose.user_call c huser hsubmits
        obtain ⟨-, -, hfails⟩ := exec_submit he hsubmits
        obtain ⟨hquiet, hkept⟩ := hfails r hr hne
        exact ⟨⟨fun hm => hkept (mem_grown hm).2.2, loose.appended c hcall⟩,
          fun hm => (mem_sent hm).2 hquiet, loose.net c hcall⟩
    · -- it has failed before
      have hcall : ∀ o : Option ℕ, o = call → o ≠ some c := by
        rintro o rfl rfl
        exact hne (loose.returned c r rfl hold)
      obtain ⟨h1, h2⟩ := h.failed c r hold hne
      exact ⟨⟨fun hm => hcall _ (mem_grown hm).1 rfl, h1⟩,
        fun hm => hcall _ (mem_sent hm).1 rfl, h2⟩
  · intro hnone
    rcases List.mem_append.mp hnone with hnone | hnone
    · obtain ⟨hcall, hsubmits, -⟩ := mem_grown hnone
      have := loose.submits.mpr hsubmits
      rw [← hcall] at this
      cases this
    · exact h.named hnone
  · intro q hq
    rcases List.mem_append.mp hq with hq | hq
    · obtain ⟨p, hp, rfl⟩ := List.mem_map.mp hq
      exact loose.submits.trans (sends_cl (exec_sends he hp)).symm
    · exact h.carried q hq
  · intro th hth
    rcases List.mem_cons.mp hth with rfl | hth
    · refine ⟨rfl, fun next hn => ?_⟩
      rcases List.mem_append.mp hn with hn | hn
      · exact Section.submits_of_follows (exec_follows he hn)
      · exact hrest next hn
    · exact h.later th hth

/-- Without one of its lines a cluster is still in order. -/
theorem Conserved.take (h : Conserved t) {pre post : List (Option ℕ × Packet)}
    {q : Option ℕ × Packet} (split : t.net = pre ++ q :: post) :
    Conserved { t with net := pre ++ post } ∧ ∀ c, q.1 = some c →
      some c ∉ (pre ++ post).map Prod.fst := by
  have hmem : ∀ p ∈ pre ++ post, p ∈ t.net := fun p hp =>
    split ▸ List.perm_middle.mem_iff.mpr (List.mem_cons_of_mem _ hp)
  have hfst : ∀ o ∈ (pre ++ post).map Prod.fst, o ∈ t.net.map Prod.fst := by
    intro o ho
    obtain ⟨p, hp, rfl⟩ := List.mem_map.mp ho
    exact List.mem_map_of_mem (hmem p hp)
  have hcount : ∀ c, (t.net.map Prod.fst).count c =
      ((pre ++ post).map Prod.fst).count c + if q.1 = c then 1 else 0 := by
    intro c
    rw [split]
    simp only [List.map_append, List.map_cons, List.count_append, List.count_cons, beq_iff_eq]
    omega
  refine ⟨⟨?_, h.appended_lt, fun c hc => h.net_lt c (hfst _ hc), h.threads_lt, h.returned_lt, ?_,
    h.named, fun p hp => h.carried p (hmem p hp), h.later⟩, ?_⟩
  · intro c
    have honce := h.once c
    rw [hcount] at honce
    change t.appended.count (some c) + ((pre ++ post).map Prod.fst).count (some c) ≤ 1
    omega
  · intro c r hcr hne
    obtain ⟨h1, h2⟩ := h.failed c r hcr hne
    exact ⟨h1, fun hm => h2 (hfst _ hm)⟩
  · intro c hc hm
    have honce := h.once c
    rw [hcount, if_pos hc] at honce
    have hpos := List.count_pos_iff.mpr hm
    omega

/-- A user call has a new command. -/
theorem Conserved.loose_call (h : Conserved t) (hsubmits : sec.submits = true) :
    Loose { t with calls := t.calls + 1 } (some t.calls) (some t.calls) sec := by
  refine ⟨⟨fun _ => hsubmits, fun _ => rfl⟩, ?_, ?_, ?_, ?_, ?_, fun c hc _ => hc⟩
  · rintro c hc hm
    obtain rfl := Option.some.inj hc
    exact absurd (h.appended_lt _ hm) (lt_irrefl _)
  · rintro c hc hm
    obtain rfl := Option.some.inj hc
    exact absurd (h.net_lt _ hm) (lt_irrefl _)
  · rintro c hc
    obtain rfl := Option.some.inj hc
    exact Nat.lt_succ_self _
  · rintro c r hc hcr
    obtain rfl := Option.some.inj hc
    exact absurd (h.returned_lt _ r hcr) (lt_irrefl _)
  · rintro c hc
    obtain rfl := Option.some.inj hc
    exact Nat.lt_succ_self _

/-- The handler of a line has the command of the line. -/
theorem Conserved.loose_line (h : Conserved t) {call : Option ℕ} {p : Packet}
    (hq : (call, p) ∈ t.net) {net : List (Option ℕ × Packet)}
    (hout : ∀ c, call = some c → some c ∉ net.map Prod.fst) (hsec : p.line.handler = some sec) :
    Loose { t with net } none call sec := by
  have hmem : call ∈ t.net.map Prod.fst := List.mem_map.mpr ⟨_, hq, rfl⟩
  have htag := Line.handler_tag hsec
  have hsubmits : call.isSome = true ↔ sec.submits = true := by
    rw [h.carried _ hq, ← htag]
    cases sec with
    | handleClientForward => exact ⟨fun _ => rfl, fun _ => rfl⟩
    | raftSubmitCommand => exact absurd htag.symm (Line.isTag p.line).ne_nil
    | _ =>
      refine ⟨fun heq => absurd heq ?_, fun hs => by cases hs⟩
      simp only [Section.tag]
      decide
  refine ⟨hsubmits, ?_, hout, ?_, ?_, ?_, ?_⟩
  · rintro c rfl hm
    have honce := h.once c
    have h1 : 0 < t.appended.count (some c) := List.count_pos_iff.mpr hm
    have h2 : 0 < (t.net.map Prod.fst).count (some c) := List.count_pos_iff.mpr hmem
    omega
  · rintro c rfl
    exact h.net_lt c hmem
  · rintro c r rfl hcr
    by_contra hne
    exact (h.failed c r hcr hne).2 hmem
  · intro c hc
    cases hc
  · intro c hc
    cases hc

/-- The cluster below is in a state in which what is sent is one line. -/
theorem Conserved.step (h : Conserved t) (unbroken : Unbroken t.erase) {a : Action n}
    (inner : a.inner = true) (hstep : t.step a = some t') : Conserved t' := by
  cases a with
  | enter i env sec =>
    simp only [Traced.step] at hstep
    split at hstep
    · rename_i hcall
      have hnew : Conserved { t with calls := t.calls + 1 } :=
        ⟨h.once, fun c hc => (h.appended_lt c hc).trans (Nat.lt_succ_self _),
          fun c hc => (h.net_lt c hc).trans (Nat.lt_succ_self _),
          fun th hth c hc => (h.threads_lt th hth c hc).trans (Nat.lt_succ_self _),
          fun c r hcr => (h.returned_lt c r hcr).trans (Nat.lt_succ_self _), h.failed, h.named,
          h.carried, h.later⟩
      have hsubmits : sec.submits = true := by
        cases sec with
        | raftSubmitCommand => rfl
        | _ => cases hcall
      exact hnew.run (h.loose_call hsubmits) (fun next hn => absurd hn List.not_mem_nil) hstep
    · rename_i hcall
      have hsubmits : sec.submits = false := by
        cases sec with
        | raftSubmitCommand => exact absurd rfl hcall
        | handleClientForward => cases inner
        | _ => rfl
      exact h.run (.idle hsubmits fun c hc => by cases hc)
        (fun next hn => absurd hn List.not_mem_nil) hstep
  | resume k env =>
    simp only [Traced.step] at hstep
    split at hstep
    · rename_i user call i sec rest hk
      have hth : ((user, call), i, sec :: rest) ∈ t.threads := List.mem_of_getElem? hk
      obtain ⟨hcall, hlater⟩ := h.later _ hth
      obtain rfl : call = none := hcall
      have hmem : ∀ th ∈ t.threads.eraseIdx k, th ∈ t.threads := fun th hth =>
        List.mem_of_mem_eraseIdx hth
      have hless : Conserved { t with threads := t.threads.eraseIdx k } :=
        ⟨h.once, h.appended_lt, h.net_lt, fun th hth => h.threads_lt th (hmem th hth),
          h.returned_lt, h.failed, h.named, h.carried, fun th hth => h.later th (hmem th hth)⟩
      exact hless.run (.idle (hlater sec List.mem_cons_self) (h.threads_lt _ hth))
        (fun next hn => hlater next (List.mem_cons_of_mem _ hn)) hstep
    · cases hstep
  | deliver k i env m =>
    simp only [Traced.step] at hstep
    split at hstep
    · rename_i call p hk
      have hline : p.line.Unbroken :=
        unbroken.net p (List.mem_map_of_mem (List.mem_of_getElem? hk))
      obtain ⟨pre, post, hnet, herase⟩ := Cluster.exists_split hk
      obtain ⟨hless, hout⟩ := h.take hnet
      rw [herase] at hstep
      split at hstep
      · split at hstep
        · rename_i sec hsec
          obtain ⟨hsec, hothers⟩ := hline.handler_eq hsec
          rw [hothers] at hstep
          exact hless.run (h.loose_line (List.mem_of_getElem? hk) hout hsec)
            (fun next hn => absurd hn List.not_mem_nil) hstep
        · split at hstep
          · obtain rfl := Option.some.inj hstep
            exact hless
          · cases hstep
      · cases hstep
    · cases hstep
  | lose k =>
    simp only [Traced.step] at hstep
    split at hstep
    · rename_i hk
      obtain ⟨pre, post, hnet, herase⟩ := Cluster.exists_split (List.getElem?_eq_getElem hk)
      rw [herase] at hstep
      obtain rfl := Option.some.inj hstep
      exact (h.take hnet).1
    · cases hstep

theorem conserved_start (now : Fin n → ℕ) (config : Fin n → RaftConfig) :
    Conserved (Traced.start now config) where
  once _ := Nat.zero_le _
  appended_lt c hc := by cases hc
  net_lt c hc := by cases hc
  threads_lt th hth := by cases hth
  returned_lt c r hcr := by cases hcr
  failed c r hcr := by cases hcr
  named hc := by cases hc
  carried q hq := by cases hq
  later th hth := by cases hth

/-- No call leads to more than one success of `append_entry_locked` over all nodes, and a call that
returns another value than 0 to none. -/
def CommandsOnce (t : Traced n) : Prop :=
  (∀ c, t.appended.count (some c) ≤ 1) ∧
    ∀ c r, (c, r) ∈ t.returned → r ≠ 0 → some c ∉ t.appended

/-- In every run in which what is sent is one line, each success of `append_entry_locked` comes from
a user call, and no command is duplicated. -/
theorem command_once {now : Fin n → ℕ} {config : Fin n → RaftConfig}
    (hosts : ∀ i, (config i).Unbroken)
    (run : Reach Traced.step (fun _ a => a.inner = true ∧ a.Unbroken) (Traced.start now config) t) :
    none ∉ t.appended ∧ CommandsOnce t := by
  obtain ⟨h, -⟩ : Conserved t ∧ Unbroken t.erase := by
    refine run.invariant (P := fun t => Conserved t ∧ Unbroken t.erase)
      ⟨conserved_start now config, unbroken_start hosts⟩ ?_
    rintro t a t' - ⟨h, unbroken⟩ ⟨inner, ok⟩ hstep
    refine ⟨h.step unbroken inner hstep, unbroken.step ok ?_⟩
    rw [← erase_step, hstep, Option.map_some]
  refine ⟨h.named, fun c => ?_, fun c r hcr hne => (h.failed c r hcr hne).1⟩
  exact (Nat.le_add_right _ _).trans (h.once c)

/-- A command of a user of node 2 goes to node 1, which leads and appends it, and one of a user of
node 3, which knows no leader, fails. -/
def trioForward : List (Action 3) :=
  [.enter node1 still .startElection, .deliver 0 node2 still, .deliver 0 node1 still,
    .enter node1 still (.sendAppendToPeer 2), .deliver 0 node2 still,
    .enter node2 still (.raftSubmitCommand .set (bytes "k") (bytes "a")), .deliver 0 node1 still,
    .enter node3 still (.raftSubmitCommand .set (bytes "k") (bytes "b"))]

theorem command_once_trio : ∃ t, Reach Traced.step (fun _ a => a.inner = true ∧ a.Unbroken)
      (Traced.start (fun _ => 0) trioConfig) t ∧
    t.appended = [some 0] ∧ (1, -2) ∈ t.returned ∧ t.appended.count (some 0) ≤ 1 ∧
    some 1 ∉ t.appended := by
  have hrun : (runList Traced.step (fun _ a => decide (a.inner = true ∧ a.Unbroken))
      (Traced.start (fun _ => 0) trioConfig) trioForward).any
      (fun t => t.appended = [some 0] ∧ (1, -2) ∈ t.returned) = true := by
    decide +kernel
  obtain ⟨t, run, ht⟩ := exists_reach (fun t a => of_decide_eq_true) hrun
  obtain ⟨happended, hreturned⟩ := of_decide_eq_true ht
  obtain ⟨-, hcount, hfailed⟩ := command_once (by decide) run
  exact ⟨t, run, happended, hreturned, hcount 0, hfailed 1 _ hreturned (by decide)⟩

/-- A deletion at node 2 has a value that ends in a `CL` line, and node 1 leads. -/
def trioSmuggle : List (Action 3) :=
  [.enter node1 still .startElection, .deliver 0 node2 still, .deliver 0 node1 still,
    .enter node1 still (.sendAppendToPeer 2), .deliver 0 node2 still,
    .enter node2 still (.raftSubmitCommand .del (bytes "k") (bytes "x\nCL 2 SET a b")),
    .deliver 0 node1 still, .resume 1 still]

/-- One call of `raft_submit_command` leads to two entries. -/
theorem command_twice : ¬∀ (n : ℕ) (now : Fin n → ℕ) (config : Fin n → RaftConfig),
    ∀ t, Reach Traced.step (fun _ a => a.inner = true) (Traced.start now config) t →
    CommandsOnce t := by
  intro h
  have hrun : (runList Traced.step (fun _ a => a.inner) (Traced.start (fun _ => 0) trioConfig)
      trioSmuggle).any (fun t => t.appended = [some 0, some 0]) = true := by
    decide +kernel
  obtain ⟨t, run, ht⟩ := exists_reach (fun t a ha => ha) hrun
  have hcount := (h 3 _ _ t run).1 0
  rw [of_decide_eq_true ht] at hcount
  exact absurd hcount (by decide)

end RaftKv
