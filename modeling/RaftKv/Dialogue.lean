import RaftKv.Applying
import RaftKv.Bounds
import RaftKv.Console
import RaftKv.Store

/-! What the console of a lone node says.  A node without peers elects itself when its first timeout
has passed, and from then on its console is that of a map, whatever its ticker does in between. -/

namespace RaftKv

open Function Runs Stdio

attribute [local irreducible] toInt32

/-! ### The map behind the answers -/

/-- What the answers depend on: the map, the number of commands in the log, and whether the node has
elected itself. -/
structure Book where
  items : Text → Option Text
  taken : ℕ
  elected : Bool

namespace Book

def empty : Book := ⟨fun _ => none, 0, false⟩

def elect (b : Book) : Book := { b with elected := true }

/-- The book after a command that writes.  The command is dropped when the node has not elected
itself, and when its log is full. -/
def write (b : Book) (p : ParsedCommand) : Book :=
  if b.elected ∧ b.taken < raftMaxLog then
    { b with
      items := update b.items p.key (if p.op = .set then some p.value else none)
      taken := b.taken + 1 }
  else b

def stateRow (b : Book) (id : ℕ) : Text :=
  printf (format "node=%u role=%s term=%u leader=%s peers=%u commit=%u applied=%u log=%u\n".toList)
    [.u id, .s (if b.elected then bytes "leader" else bytes "follower"),
      .u (if b.elected then 1 else 0), .s (signed (if b.elected then toInt32 id else -1)), .u 0,
      .u b.taken, .u b.taken, .u b.taken]

end Book

/-- What a lone node answers to a line, and the book then. -/
inductive Answer (id : ℕ) (b : Book) (line : Text) : Text → Book → Prop
  | state (h : line = bytes "state") : Answer id b line (b.stateRow id) b
  /-- the pairs of the map in some order, each once -/
  | store (h : line = bytes "show") {pairs : List (Text × Text)}
      (once : (pairs.map Prod.fst).Nodup)
      (same : ∀ key value, (key, value) ∈ pairs ↔ b.items key = some value) :
      Answer id b line (printf (format "store contains %u item(s)\n".toList) [.u pairs.length] ++
        pairs.flatMap fun p => printPair p.1 p.2) b
  | bad (h : line ≠ bytes "state" ∧ line ≠ bytes "show") (no : ∀ p, ¬Grammar (found line) p) :
      Answer id b line (bytes "bad command\n") b
  | got {key value : Text} (asks : Grammar (found line) ⟨.none, key, []⟩)
      (h : b.items key = some value) : Answer id b line (printPair key value) b
  | missing {key : Text} (asks : Grammar (found line) ⟨.none, key, []⟩)
      (h : b.items key = none) : Answer id b line (printMissing key) b
  | written {p : ParsedCommand} (asks : Grammar (found line) p) (op : p.op ≠ .none) :
      Answer id b line [] (b.write p)

/-- The lines that have been answered, all that has been printed, and the book. -/
inductive Dialogue (id : ℕ) : List Text → Text → Book → Prop
  | start : Dialogue id [] [] .empty
  | elect {lines : List Text} {out : Text} {b : Book} (h : Dialogue id lines out b) :
      Dialogue id lines out b.elect
  | answer {lines : List Text} {out reply : Text} {b c : Book} {line : Text}
      (h : Dialogue id lines out b) (told : Answer id b line reply c) :
      Dialogue id (lines ++ [line]) (out ++ reply) c

/-- The lines of the input that the console answers: those before the first that ends it. -/
def session (input : Text) : List Text := (consoleLines input).takeWhile fun line => !quits line

section Session

variable {input stored rest : Text}

theorem session_none (h : fgets raftMaxLine input = none) : session input = [] := by
  rw [fgets_eq_none.mp h, session, consoleLines_nil]
  rfl

theorem session_quits (h : fgets raftMaxLine input = some (stored, rest))
    (hq : quits (consoleLine stored) = true) : session input = [] := by
  rw [session, consoleLines_some h, List.takeWhile_cons_of_neg (by simp [hq])]

theorem session_some (h : fgets raftMaxLine input = some (stored, rest))
    (hq : quits (consoleLine stored) = false) :
    session input = consoleLine stored :: session rest := by
  rw [session, consoleLines_some h, List.takeWhile_cons_of_pos (by simp [hq]), session]

end Session

/-! ### Commands -/

section Commands

variable {line : Text} {p out : ParsedCommand}

/-- The texts that the parser finds are tokens that fit. -/
theorem grammar_valid (h : Grammar (found line) p) :
    isValidToken p.key raftMaxKey = true ∧
      (p.op = .set → isValidToken p.value raftMaxValue = true) ∧
      copyText raftMaxKey p.key = p.key ∧ copyText raftMaxValue p.value = p.value := by
  have hkey : ∀ {key}, (found line)[1]? = some key →
      isValidToken key raftMaxKey = true ∧ copyText raftMaxKey key = key := by
    intro key h
    obtain ⟨_, hwidth, htoken⟩ := found_isToken h
    obtain rfl := Option.some.inj hwidth
    exact ⟨isValidToken_of_isToken htoken, copyText_of_isToken htoken⟩
  have hvalue : ∀ {value}, (found line)[2]? = some value →
      isValidToken value raftMaxValue = true ∧ copyText raftMaxValue value = value := by
    intro value h
    obtain ⟨_, hwidth, htoken⟩ := found_isToken h
    obtain rfl := Option.some.inj hwidth
    exact ⟨isValidToken_of_isToken htoken, copyText_of_isToken htoken⟩
  generalize hws : found line = ws at h
  cases h with
  | set =>
    obtain ⟨valid, copied⟩ := hkey (congrArg (·[1]?) hws)
    obtain ⟨valid', copied'⟩ := hvalue (congrArg (·[2]?) hws)
    exact ⟨valid, fun _ => valid', copied, copied'⟩
  | del | get =>
    obtain ⟨valid, copied⟩ := hkey (congrArg (·[1]?) hws)
    exact ⟨valid, fun hop => (by cases hop), copied, rfl⟩

/-- The parser takes what it finds as the grammar does. -/
theorem parse_of_grammar (h : Grammar (found line) p) :
    parseKvCommand (some line) out = (0, p) := by
  rw [parseKvCommand_found]
  generalize found line = ws at h
  cases h with
  | set => rfl
  | del => rfl
  | get => rfl

theorem value_of_get {ws : List Text} {key value : Text} (h : Grammar ws ⟨.none, key, value⟩) :
    value = [] := by
  cases h with
  | get => rfl

theorem eq_cons_of_tail {tag : Text} {ws args : List Text} (htag : ws[0]? = some tag)
    (htail : ws.tail = args) : ws = tag :: args := by
  cases ws with
  | nil => cases htag
  | cons w ws => rw [← Option.some.inj htag, ← htail, List.tail_cons]

theorem grammar_of_parse (h : (parseKvCommand (some line) out).1 = 0) :
    Grammar (found line) (parseKvCommand (some line) out).2 := by
  have hlength : ∀ {i : ℕ} {t : Text}, (found line)[i]? = some t →
      ∃ width, [15, 63, 255][i]? = some width ∧ 1 ≤ t.length ∧ t.length ≤ width := by
    intro i t h
    obtain ⟨width, hwidth, htoken⟩ := found_isToken h
    exact ⟨width, hwidth, List.length_pos_iff.mpr htoken.ne_nil, htoken.fits⟩
  have hkey : ∀ {key : Text}, (found line)[1]? = some key → 1 ≤ key.length ∧ key.length ≤ 63 := by
    intro key h
    obtain ⟨_, hwidth, hle⟩ := hlength h
    obtain rfl := Option.some.inj hwidth
    exact hle
  have hvalue : ∀ {value : Text}, (found line)[2]? = some value →
      1 ≤ value.length ∧ value.length ≤ 255 := by
    intro value h
    obtain ⟨_, hwidth, hle⟩ := hlength h
    obtain rfl := Option.some.inj hwidth
    exact hle
  rw [parseKvCommand_found] at h ⊢
  generalize found line = ws at h hkey hvalue ⊢
  split at h
  · rename_i htag
    split at h
    · rename_i key value htail
      obtain rfl := eq_cons_of_tail htag htail
      exact .set (hkey rfl) (hvalue rfl)
    · cases h
  · split at h
    · rename_i htag
      split at h
      · rename_i key htail
        obtain rfl := eq_cons_of_tail htag htail
        exact .del (hkey rfl)
      · cases h
    · split at h
      · rename_i htag
        split at h
        · rename_i key htail
          obtain rfl := eq_cons_of_tail htag htail
          exact .get (hkey rfl)
        · cases h
      · cases h

end Commands

/-! ### The node -/

/-- The node is alone and has what the book says. -/
structure Lone (id : ℕ) (b : Book) (x : RaftNode) : Prop where
  id_eq : x.id = id
  peers : x.peers = []
  role : x.role = if b.elected then .leader else .follower
  term : x.currentTerm = if b.elected then 1 else 0
  leader : x.leaderId = if b.elected then toInt32 id else -1
  log : x.logCount = b.taken
  commit : x.commitIndex = b.taken
  applied : x.lastApplied = b.taken
  fits : b.taken ≤ raftMaxLog
  store : x.store.WellFormed
  entries : x.store.entries = b.items
  room : x.store.count ≤ b.taken

section Node

variable {id : ℕ} {b : Book} {x : RaftNode} {line : Text} {p : ParsedCommand}

theorem lone_init (now : ℕ) {config : RaftConfig} (peerless : config.peers = []) :
    Lone config.id .empty (raftNodeInit now config) where
  id_eq := rfl
  peers := peerless
  role := rfl
  term := rfl
  leader := rfl
  log := rfl
  commit := rfl
  applied := rfl
  fits := Nat.zero_le _
  store := wellFormed_zero
  entries := funext entries_zero
  room := Nat.zero_le _

/-- Its own vote is a majority. -/
theorem Lone.elect (h : Lone id b x) (first : b.elected = false) (now : ℕ) :
    (startElection now x).sends = [] ∧ (startElection now x).todo = [.broadcastAppend] ∧
      Lone id b.elect (startElection now x).node := by
  have hterm : x.currentTerm = 0 := by rw [h.term, first]; rfl
  have hone : toInt32 1 = 1 := @toInt32_of_lt 1 (by norm_num)
  unfold startElection
  rw [if_pos (by simp [majorityCount, RaftNode.peerCount, h.peers, hone])]
  refine ⟨rfl, rfl, ?_⟩
  constructor
  · exact h.id_eq
  · simp [becomeLeaderLocked, RaftNode.logEvent, h.peers]
  · rfl
  · simp [becomeLeaderLocked, RaftNode.logEvent, hterm, Book.elect]
  · simp [becomeLeaderLocked, RaftNode.logEvent, h.id_eq, Book.elect]
  · exact h.log
  · exact h.commit
  · exact h.applied
  · exact h.fits
  · exact h.store
  · exact h.entries
  · exact h.room

theorem checked_of_grammar (asks : Grammar (found line) p) (op : p.op ≠ .none) :
    Checked p.op p.key p.value := by
  obtain ⟨hkey, hvalue, -, -⟩ := grammar_valid asks
  constructor
  · rintro (⟨hset, hdel⟩ | hbad)
    · cases hop : p.op with
      | none => exact op hop
      | set => exact hset hop
      | del => exact hdel hop
    · rw [hkey] at hbad
      cases hbad
  · rintro ⟨hop, hbad⟩
    rw [hvalue hop] at hbad
    cases hbad

/-- The store takes a command of the grammar when it has a free slot. -/
theorem kvApply_book {store : KvStore} (h : store.WellFormed) (room : store.count < raftMaxLog)
    (asks : Grammar (found line) p) (op : p.op ≠ .none) :
    (kvApply store p.op p.key p.value).2.WellFormed ∧
      (kvApply store p.op p.key p.value).2.entries =
        update store.entries p.key (if p.op = .set then some p.value else none) := by
  have checked := checked_of_grammar asks op
  rcases kvApply_cases h p.op p.key p.value with ⟨-, refuses, -⟩ | ⟨⟨-, hwf, hmap⟩, -⟩
  · rcases refuses with hkey | hop | ⟨hop, hbad⟩ | ⟨-, -, hfull⟩
    · exact absurd (Or.inr (by rw [hkey]; rfl)) checked.key
    · exact absurd (Or.inl hop) checked.key
    · exact absurd ⟨hop, by rw [hbad]; rfl⟩ checked.value
    · rw [h.count] at room
      exact absurd hfull room.ne
  · exact ⟨hwf, hmap⟩

/-- What `append_entry_locked` and the commit without peers make of a command. -/
theorem Lone.write (h : Lone id b x) (elected : b.elected = true) (asks : Grammar (found line) p)
    (op : p.op ≠ .none) {y z : RaftNode} (hy : y = (appendEntryLocked x p.op p.key p.value).2)
    (hz : applyCommittedLocked { y with commitIndex := y.logCount } = some z) :
    Lone id (b.write p) z := by
  obtain ⟨rfl, -⟩ := applyCommittedLocked_eq hz
  have hlog := h.log
  unfold appendEntryLocked at hy
  by_cases room : x.logCount < raftMaxLog
  · rw [if_neg (not_le.mpr room)] at hy
    obtain ⟨-, -, hkey, hvalue⟩ := grammar_valid asks
    rw [hkey, hvalue] at hy
    have hnew : (y.log.take y.logCount).drop y.lastApplied =
        [⟨x.logCount + 1, x.currentTerm, p.op, p.key, p.value⟩] := by
      rw [RaftNode.logCount, List.take_length, hy]
      exact List.drop_left' (hlog.trans h.applied.symm)
    have hcount : y.logCount = b.taken + 1 := by
      rw [RaftNode.logCount, hy, List.length_append, List.length_singleton]
      exact congrArg (· + 1) hlog
    have hwrite : b.write p = { b with
        items := update b.items p.key (if p.op = .set then some p.value else none)
        taken := b.taken + 1 } := by
      rw [Book.write, if_pos ⟨elected, hlog ▸ room⟩]
    obtain ⟨hwf, hmap⟩ := kvApply_book h.store (h.room.trans_lt (hlog ▸ room)) asks op
    have hle := kvApply_count_le x.store p.op p.key p.value
    have hroom := h.room
    rw [hwrite]
    simp only [RaftNode.replayed, hnew, replay, List.foldl_cons, List.foldl_nil]
    subst hy
    exact
      { id_eq := h.id_eq
        peers := h.peers
        role := h.role
        term := h.term
        leader := h.leader
        log := hcount
        commit := hcount
        applied := congrArg (· + 1) h.applied
        fits := hlog ▸ room
        store := hwf
        entries := hmap.trans (by rw [h.entries])
        room := by dsimp only; omega }
  · rw [if_pos (not_lt.mp room)] at hy
    subst hy
    have hnone : (y.log.take y.logCount).drop y.lastApplied = [] := by
      rw [RaftNode.logCount, List.take_length]
      exact List.drop_eq_nil_of_le (hlog.trans h.applied.symm).le
    have hwrite : b.write p = b := by
      rw [Book.write, if_neg fun hroom => room (hlog ▸ hroom.2)]
    rw [hwrite]
    simp only [RaftNode.replayed, hnone, replay, List.foldl_nil]
    exact { h with commit := hlog }

theorem Lone.state (h : Lone id b x) : printState x = b.stateRow id := by
  rw [printState, Book.stateRow, RaftNode.peerCount, h.id_eq, h.role, h.term, h.leader, h.peers,
    h.log, h.commit, h.applied]
  cases b.elected <;> rfl

/-- The rows of `print_store` are those of the used slots. -/
theorem rows_eq (items : List KvItem) :
    (items.flatMap fun item => if item.used then printPair item.key item.value else []) =
      (items.map KvItem.slot).reduceOption.flatMap fun p => printPair p.1 p.2 := by
  induction items with
  | nil => rfl
  | cons item items ih =>
    rw [List.flatMap_cons, List.map_cons, ih, KvItem.slot]
    cases item.used with
    | false => rfl
    | true => rfl

theorem length_pairs (items : List KvItem) :
    (items.map KvItem.slot).reduceOption.length = items.countP fun item => item.used := by
  induction items with
  | nil => rfl
  | cons item items ih =>
    rw [List.map_cons, List.countP_cons, ← ih, KvItem.slot]
    cases item.used with
    | false => rfl
    | true => rfl

theorem Lone.rows (h : Lone id b x) : Answer id b (bytes "show") (printStore x) b := by
  rw [printStore, rows_eq, h.store.count, ← length_pairs]
  refine .store rfl h.store.distinct.nodup_keys fun key value => ?_
  rw [← h.entries]
  exact Slots.mem_pairs h.store.distinct

theorem Lone.get (h : Lone id b x) {key : Text} (asks : Grammar (found line) ⟨.none, key, []⟩) :
    kvGet x.store key raftMaxValue = (b.items key).elim (.error (-1)) .ok := by
  rw [kvGet_eq h.store (grammar_valid asks).1 le_rfl, h.entries]

end Node

/-! ### The ticker -/

/-- What the thread of `ticker_loop` has left.  Only a node that has not elected itself is about
to. -/
inductive Ticks (elected : Bool) : List Section → Prop
  | waits (t : ℕ) : Ticks elected [.tickerLoop t]
  | elects (t : ℕ) (first : elected = false) : Ticks elected [.startElection, .tickerLoop t]
  | elected (t : ℕ) : Ticks elected [.broadcastAppend, .tickerLoop t]
  | beats : Ticks elected [.broadcastAppend, .tickerMark]
  | marks : Ticks elected [.tickerMark]
  | stopped : Ticks elected []

section Ticker

variable {x : RaftNode} {elected : Bool} {env : Env} {sec : Section} {rest : List Section}
  {e : Effect}

/-- The ticker of a node without peers changes nothing before and after the election. -/
theorem Ticks.exec (h : Ticks elected (sec :: rest)) (peers : x.peers = [])
    (lead : x.role = .leader ↔ elected = true) (he : exec env sec x = some e) :
    (e.node = x ∧ e.sends = [] ∧ Ticks elected (e.todo ++ rest)) ∨
      ∃ t, sec = .startElection ∧ rest = [.tickerLoop t] ∧ elected = false := by
  have hbroadcast : broadcastAppend x = { node := x } := by
    rw [broadcastAppend, peers]
    rfl
  cases h with
  | waits t =>
    obtain rfl := Option.some.inj he
    unfold tickerLoop
    dsimp only
    split
    · rename_i hdue
      exact Or.inl ⟨rfl, rfl, .elects t (by simpa [lead] using hdue.1)⟩
    · split
      · exact Or.inl ⟨rfl, rfl, .beats⟩
      · exact Or.inl ⟨rfl, rfl, .waits t⟩
  | elects t first => exact Or.inr ⟨t, rfl, rfl, first⟩
  | elected t =>
    obtain rfl := Option.some.inj he
    rw [hbroadcast]
    exact Or.inl ⟨rfl, rfl, .waits t⟩
  | beats =>
    obtain rfl := Option.some.inj he
    rw [hbroadcast]
    exact Or.inl ⟨rfl, rfl, .marks⟩
  | marks =>
    obtain rfl := Option.some.inj he
    exact Or.inl ⟨rfl, rfl, .waits _⟩

end Ticker

/-! ### The console along a run -/

/-- Where the thread of the console is when it has answered `lines` of `all`. -/
inductive Stands (id : ℕ) (all : List Text) (b : Book) (lines : List Text) (c : Console) : Prop
  | loop (place : c.stdin = .loop ∨ c.stdin = .submits []) (holds : Lone id b c.node)
      (running : c.running = true) (left : lines ++ session c.input = all)
  | calls {line : Text} {p : ParsedCommand}
      (place : c.stdin = .submits [.raftSubmitCommand p.op p.key p.value])
      (holds : Lone id b c.node) (running : c.running = true) (asks : Grammar (found line) p)
      (op : p.op ≠ .none) (left : lines ++ line :: session c.input = all)
  | takes {line : Text} {p : ParsedCommand} {rest : List Section} {x : RaftNode}
      (place : c.stdin = .submits rest)
      (sections : rest = [.broadcastAppend, .submitPeerless] ∨ rest = [.submitPeerless] ∨
        rest = [.submitCommit])
      (holds : Lone id b x) (elected : b.elected = true)
      (node : c.node = (appendEntryLocked x p.op p.key p.value).2)
      (running : c.running = true) (asks : Grammar (found line) p)
      (op : p.op ≠ .none) (left : lines ++ line :: session c.input = all)
  | stops {rest : List Section} (place : c.stdin = .stops rest)
      (sections : rest = [.requestClusterLeave] ∨ rest = []) (holds : Lone id b c.node)
      (left : lines = all)
  | ended (place : c.stdin = .ended) (holds : Lone id b c.node) (left : lines = all)

/-- The run is the dialogue of `lines` with the book. -/
structure Follows (id : ℕ) (all : List Text) (c : Console) (b : Book) (lines : List Text) :
    Prop where
  said : Dialogue id lines c.output b
  stands : Stands id all b lines c
  ticks : Ticks b.elected c.ticker
  net : c.net = []

section Runs

variable {id : ℕ} {all lines : List Text} {b : Book} {c c' : Console} {env : Env}

theorem appended_node (x : RaftNode) (p : ParsedCommand) :
    (appendEntryLocked x p.op p.key p.value).2.peers = x.peers ∧
      (appendEntryLocked x p.op p.key p.value).2.role = x.role := by
  unfold appendEntryLocked
  split <;> exact ⟨rfl, rfl⟩

theorem Lone.lead {x : RaftNode} (h : Lone id b x) : x.role = .leader ↔ b.elected = true := by
  rw [h.role]
  cases b.elected <;> simp

theorem Stands.node (h : Stands id all b lines c) :
    c.node.peers = [] ∧ (c.node.role = .leader ↔ b.elected = true) := by
  cases h with
  | loop place holds => exact ⟨holds.peers, holds.lead⟩
  | calls place holds => exact ⟨holds.peers, holds.lead⟩
  | takes place sections holds elected node =>
    obtain ⟨hpeers, hrole⟩ := appended_node _ _
    rw [node, hpeers, hrole]
    exact ⟨holds.peers, holds.lead⟩
  | stops place sections holds => exact ⟨holds.peers, holds.lead⟩
  | ended place holds => exact ⟨holds.peers, holds.lead⟩

/-- The console prints the answer to a line and is ready for the next. -/
theorem Follows.answered (h : Follows id all c b lines) (holds : Lone id b c.node)
    (running : c.running = true) {line reply input : Text} (place : c.stdin = .loop)
    (told : Answer id b line reply b) (left : lines ++ line :: session input = all) :
    Follows id all { c with input, output := c.output ++ reply } b (lines ++ [line]) where
  said := h.said.answer told
  stands := .loop (Or.inl place) holds running (by rw [List.append_assoc]; exact left)
  ticks := h.ticks
  net := h.net

/-- One round of the loop, from its head. -/
theorem Follows.round (h : Follows id all c b lines) (holds : Lone id b c.node)
    (running : c.running = true) (place : c.stdin = .loop)
    (left : lines ++ session c.input = all) :
    ∃ lines', Follows id all c.stdinLoop b lines' := by
  rw [Console.stdinLoop, if_pos running]
  split
  · rename_i hend
    rw [session_none hend, List.append_nil] at left
    exact ⟨lines, h.said, .ended rfl holds left, h.ticks, h.net⟩
  · rename_i stored rest hread
    unfold Console.handleLine
    split
    · rename_i hq
      rw [session_quits hread hq, List.append_nil] at left
      exact ⟨lines, h.said, .stops rfl (Or.inl rfl) holds left, h.ticks, h.net⟩
    · rename_i hq
      rw [session_some hread (Bool.not_eq_true _ ▸ hq)] at left
      generalize consoleLine stored = line at left
      split
      · rename_i hstate
        exact ⟨_, h.answered holds running place (holds.state ▸ .state hstate) left⟩
      · rename_i hstate
        split
        · rename_i hshow
          exact ⟨_, h.answered holds running place (hshow ▸ holds.rows) left⟩
        · rename_i hshow
          by_cases hasks : ∃ p, Grammar (found line) p
          · obtain ⟨⟨op, key, value⟩, asks⟩ := hasks
            simp only [parse_of_grammar asks, ne_eq, not_true_eq_false, if_false]
            by_cases hop : op = .none
            · subst hop
              obtain rfl := value_of_get asks
              rw [if_pos rfl, holds.get asks]
              cases hitem : b.items key with
              | none => exact ⟨_, h.answered holds running place (.missing asks hitem) left⟩
              | some v => exact ⟨_, h.answered holds running place (.got asks hitem) left⟩
            · rw [if_neg hop]
              exact ⟨lines, h.said, .calls rfl holds running asks hop left, h.ticks, h.net⟩
          · have hrc : (parseKvCommand (some line) ⟨.none, [], []⟩).1 ≠ 0 := fun hzero =>
              hasks ⟨_, grammar_of_parse hzero⟩
            simp only [if_pos hrc]
            exact ⟨_, h.answered holds running place
              (.bad ⟨hstate, hshow⟩ fun p asks => hasks ⟨p, asks⟩) left⟩

/-- The thread of the console after a section of `raft_submit_command` at a node that leads. -/
theorem Follows.taking (h : Follows id all c b lines) {line : Text} {p : ParsedCommand}
    {sec : Section} {rest : List Section} {x : RaftNode} {e : Effect}
    (sections : sec :: rest = [.broadcastAppend, .submitPeerless] ∨
      sec :: rest = [.submitPeerless] ∨ sec :: rest = [.submitCommit])
    (holds : Lone id b x) (elected : b.elected = true)
    (node : c.node = (appendEntryLocked x p.op p.key p.value).2) (running : c.running = true)
    (asks : Grammar (found line) p) (op : p.op ≠ .none)
    (left : lines ++ line :: session c.input = all) (he : exec env sec c.node = some e) :
    ∃ b' lines', Follows id all
      { c with node := e.node, net := e.sends ++ c.net, stdin := .submits (e.todo ++ rest) }
      b' lines' := by
  have peers : c.node.peers = [] := by
    rw [node, (appended_node x p).1]
    exact holds.peers
  rcases sections with hsec | hsec | hsec
  · obtain ⟨rfl, rfl⟩ := List.cons.inj hsec
    obtain rfl := Option.some.inj he
    rw [broadcastAppend, peers]
    exact ⟨b, lines, h.said, .takes rfl (Or.inr (Or.inl rfl)) holds elected node running asks op
      left, h.ticks, h.net⟩
  · obtain ⟨rfl, rfl⟩ := List.cons.inj hsec
    obtain rfl := Option.some.inj he
    have hnone : c.node.peerCount = 0 := by rw [RaftNode.peerCount, peers]; rfl
    rw [submitPeerless, if_pos hnone]
    exact ⟨b, lines, h.said, .takes rfl (Or.inr (Or.inr rfl)) holds elected node running asks op
      left, h.ticks, h.net⟩
  · obtain ⟨rfl, rfl⟩ := List.cons.inj hsec
    obtain ⟨z, hz, heff⟩ := Option.bind_eq_some_iff.mp he
    obtain rfl := Option.some.inj heff
    have hwritten := holds.write elected asks op node hz
    have hbook : (b.write p).elected = b.elected := by
      unfold Book.write
      split <;> rfl
    refine ⟨b.write p, lines ++ [line], ?_, .loop (Or.inr rfl) hwritten running ?_, ?_, h.net⟩
    · simpa using h.said.answer (.written asks op)
    · rw [List.append_assoc]
      exact left
    · rw [hbook]
      exact h.ticks

/-- The first section of `raft_submit_command`. -/
theorem Follows.calling (h : Follows id all c b lines) {line : Text} {p : ParsedCommand}
    (holds : Lone id b c.node) (running : c.running = true) (asks : Grammar (found line) p)
    (op : p.op ≠ .none) (left : lines ++ line :: session c.input = all) {e : Effect}
    (he : exec env (.raftSubmitCommand p.op p.key p.value) c.node = some e) :
    ∃ b' lines', Follows id all
      { c with node := e.node, net := e.sends ++ c.net, stdin := .submits (e.todo ++ []) }
      b' lines' := by
  have checked := checked_of_grammar asks op
  obtain rfl := Option.some.inj he
  by_cases elected : b.elected = true
  · rw [raftSubmitCommand_leader checked (holds.lead.mpr elected)]
    exact ⟨b, lines, h.said, .takes rfl (Or.inl rfl) holds elected rfl running asks op left,
      h.ticks, h.net⟩
  · have hleader : ¬0 ≤ c.node.leaderId := by
      rw [holds.leader, if_neg elected]
      decide
    have hdrop : b.write p = b := by
      rw [Book.write, if_neg fun hw => elected hw.1]
    rw [raftSubmitCommand, if_neg checked.key, if_neg checked.value,
      if_neg fun hlead => elected (holds.lead.mp hlead), if_neg fun hto => hleader hto.1]
    refine ⟨b, lines ++ [line], ?_, .loop (Or.inr rfl) holds running ?_, h.ticks, h.net⟩
    · simpa [hdrop] using h.said.answer (.written asks op)
    · rw [List.append_assoc]
      exact left

/-- What the ticker leaves alone. -/
theorem Stands.congr (h : Stands id all b lines c) (hnode : c'.node = c.node)
    (hstdin : c'.stdin = c.stdin) (hrunning : c'.running = c.running)
    (hinput : c'.input = c.input) : Stands id all b lines c' := by
  cases h with
  | loop place holds running left =>
    exact .loop (hstdin ▸ place) (hnode ▸ holds) (hrunning.trans running) (hinput ▸ left)
  | calls place holds running asks op left =>
    exact .calls (hstdin.trans place) (hnode ▸ holds) (hrunning.trans running) asks op
      (hinput ▸ left)
  | takes place sections holds elected node running asks op left =>
    exact .takes (hstdin.trans place) sections holds elected (hnode.trans node)
      (hrunning.trans running) asks op (hinput ▸ left)
  | stops place sections holds left =>
    exact .stops (hstdin.trans place) sections (hnode ▸ holds) left
  | ended place holds left => exact .ended (hstdin.trans place) (hnode ▸ holds) left

theorem Stands.holds (h : Stands id all b lines c) (first : b.elected = false) :
    Lone id b c.node := by
  cases h with
  | loop place holds => exact holds
  | calls place holds => exact holds
  | takes place sections holds elected =>
    rw [first] at elected
    cases elected
  | stops place sections holds => exact holds
  | ended place holds => exact holds

/-- The election finds the console where it was. -/
theorem Stands.elect (h : Stands id all b lines c) (first : b.elected = false) {now : ℕ}
    (hnode : c'.node = (startElection now c.node).node) (hstdin : c'.stdin = c.stdin)
    (hrunning : c'.running = c.running) (hinput : c'.input = c.input) :
    Stands id all b.elect lines c' := by
  cases h with
  | loop place holds running left =>
    exact .loop (hstdin ▸ place) (hnode ▸ (holds.elect first now).2.2) (hrunning.trans running)
      (hinput ▸ left)
  | calls place holds running asks op left =>
    exact .calls (hstdin.trans place) (hnode ▸ (holds.elect first now).2.2)
      (hrunning.trans running) asks op (hinput ▸ left)
  | takes place sections holds elected =>
    rw [first] at elected
    cases elected
  | stops place sections holds left =>
    exact .stops (hstdin.trans place) sections (hnode ▸ (holds.elect first now).2.2) left
  | ended place holds left =>
    exact .ended (hstdin.trans place) (hnode ▸ (holds.elect first now).2.2) left

theorem Follows.ticker (h : Follows id all c b lines) (hstep : c.step (.ticker env) = some c') :
    ∃ b', Follows id all c' b' lines := by
  rcases Console.step_ticker hstep with rfl | ⟨sec, rest, e, hticker, he, rfl⟩
  · exact ⟨b, h.said, h.stands.congr rfl rfl rfl rfl, .stopped, h.net⟩
  · have ticks := h.ticks
    rw [hticker] at ticks
    rcases ticks.exec h.stands.node.1 h.stands.node.2 he with
      ⟨hnode, hsends, hnext⟩ | ⟨t, rfl, rfl, first⟩
    · exact ⟨b, h.said, h.stands.congr hnode rfl rfl rfl, hnext, by rw [hsends]; exact h.net⟩
    · obtain rfl := Option.some.inj he
      obtain ⟨hsends, htodo, -⟩ := (h.stands.holds first).elect first env.now
      refine ⟨b.elect, h.said.elect, h.stands.elect first rfl rfl rfl rfl, ?_, ?_⟩
      · rw [htodo]
        exact .elected t
      · rw [hsends]
        exact h.net

/-- Every step of a thread goes on with the dialogue. -/
theorem Follows.step (h : Follows id all c b lines) {a : ConsoleAction}
    (hstep : c.step a = some c') : ∃ b' lines', Follows id all c' b' lines' := by
  cases a with
  | ticker env =>
    obtain ⟨b', h'⟩ := h.ticker hstep
    exact ⟨b', lines, h'⟩
  | stdin env =>
    cases h.stands with
    | loop place holds running left =>
      rcases place with place | place
      · simp only [Console.step, place] at hstep
        obtain rfl := Option.some.inj hstep
        exact ⟨b, h.round holds running place left⟩
      · simp only [Console.step, place] at hstep
        obtain rfl := Option.some.inj hstep
        exact ⟨b, lines, h.said, .loop (Or.inl rfl) holds running left, h.ticks, h.net⟩
    | calls place holds running asks op left =>
      obtain ⟨e, he, rfl⟩ := Console.step_submits place hstep
      exact h.calling holds running asks op left he
    | @takes line p rest x place sections holds elected node running asks op left =>
      cases rest with
      | nil => simp at sections
      | cons sec rest =>
        obtain ⟨e, he, rfl⟩ := Console.step_submits place hstep
        exact h.taking sections holds elected node running asks op left he
    | stops place sections holds left =>
      rcases sections with rfl | rfl
      · obtain ⟨e, he, rfl⟩ := Console.step_stops place hstep
        obtain rfl := Option.some.inj he
        refine ⟨b, lines, h.said, .stops rfl (Or.inr rfl) holds left, h.ticks, ?_⟩
        simpa [requestClusterLeave, sendToAll, holds.peers] using h.net
      · simp only [Console.step, place] at hstep
        obtain rfl := Option.some.inj hstep
        exact ⟨b, lines, h.said, .ended rfl holds left, h.ticks, h.net⟩
    | ended place => simp [Console.step, place] at hstep

/-! ### The console comes to its end -/

/-- A bound on the steps of the console's thread in a section and in those that the section leads to
at a node without peers. -/
def Section.effort : Section → ℕ
  | .raftSubmitCommand .. => 4
  | .submitPeerless => 2
  | .broadcastAppend | .submitCommit | .requestClusterLeave => 1
  | _ => 0

def effortOf (rest : List Section) : ℕ := (rest.map Section.effort).sum

def StdinThread.effort : StdinThread → ℕ
  | .loop => 1
  | .submits rest => effortOf rest + 2
  | .stops rest => effortOf rest + 1
  | .ended => 0

def Console.effort (c : Console) : ℕ := 8 * c.input.length + c.stdin.effort

theorem exec_effort {x : RaftNode} {sec : Section} (peers : x.peers = [])
    (hsec : 0 < sec.effort) :
    ∃ e, exec env sec x = some e ∧ effortOf e.todo < sec.effort := by
  cases sec with
  | raftSubmitCommand op key value =>
    obtain ⟨e, he⟩ : ∃ e, raftSubmitCommand env x op key value = e := ⟨_, rfl⟩
    refine ⟨e, congrArg some he, ?_⟩
    cases submission he <;> simp [effortOf, Section.effort]
  | submitPeerless =>
    refine ⟨_, rfl, ?_⟩
    unfold submitPeerless
    split <;> simp [effortOf, Section.effort]
  | broadcastAppend =>
    refine ⟨_, rfl, ?_⟩
    simp [broadcastAppend, peers, effortOf, Section.effort]
  | submitCommit =>
    obtain ⟨z, hz⟩ := Option.isSome_iff_exists.mp
      (@applyCommittedLocked_isSome { x with commitIndex := x.logCount } le_rfl)
    refine ⟨{ node := z, ret := some 0 }, ?_, Nat.one_pos⟩
    simp only [exec, submitCommit, hz, Option.bind_eq_bind, Option.bind_some]
  | requestClusterLeave => exact ⟨_, rfl, Nat.one_pos⟩
  | _ => exact absurd hsec (by simp [Section.effort])

theorem effortOf_run {todo rest : List Section} {sec : Section} (h : effortOf todo < sec.effort) :
    effortOf (todo ++ rest) < effortOf (sec :: rest) := by
  rw [effortOf, effortOf, List.map_append, List.sum_append, List.map_cons, List.sum_cons]
  exact Nat.add_lt_add_right h _

theorem Console.effort_handleLine (place : c.stdin = .loop) (line : Text) :
    (c.handleLine line).input = c.input ∧ (c.handleLine line).stdin.effort ≤ 6 := by
  unfold Console.handleLine
  split
  · refine ⟨rfl, ?_⟩
    dsimp only [StdinThread.effort]
    split <;> decide
  · split
    · exact ⟨rfl, by rw [place]; decide⟩
    · split
      · exact ⟨rfl, by rw [place]; decide⟩
      · dsimp only
        split
        · exact ⟨rfl, by rw [place]; decide⟩
        · split
          · split
            · exact ⟨rfl, by rw [place]; decide⟩
            · exact ⟨rfl, by rw [place]; decide⟩
          · exact ⟨rfl, le_rfl⟩

theorem Stands.effort (h : Stands id all b lines c) {rest : List Section}
    (place : c.stdin = .submits rest ∨ c.stdin = .stops rest) :
    ∀ sec ∈ rest, 0 < sec.effort := by
  have mine : ∀ {r : List Section}, c.stdin = .submits r ∨ c.stdin = .stops r → r = rest := by
    intro r hr
    rcases place with place | place
    · rw [place] at hr
      simpa [eq_comm] using hr
    · rw [place] at hr
      simpa [eq_comm] using hr
  cases h with
  | loop loops =>
    rcases loops with loops | loops
    · rw [loops] at place
      simp at place
    · rw [← mine (Or.inl loops)]
      simp
  | calls calls =>
    rw [← mine (Or.inl calls)]
    simp [Section.effort]
  | takes takes sections =>
    rw [← mine (Or.inl takes)]
    rcases sections with rfl | rfl | rfl <;> simp [Section.effort]
  | stops stops sections =>
    rw [← mine (Or.inr stops)]
    rcases sections with rfl | rfl <;> simp [Section.effort]
  | ended ends =>
    rw [ends] at place
    simp at place

/-- The thread of the console can go on, and has less to do then. -/
theorem Follows.advance (h : Follows id all c b lines) (hopen : c.stdin ≠ .ended) :
    ∃ c', c.step (.stdin still) = some c' ∧ c'.effort < c.effort := by
  have peers := h.stands.node.1
  have hefforts := @h.stands.effort
  cases place : c.stdin with
  | loop =>
    refine ⟨c.stdinLoop, by simp only [Console.step, place], ?_⟩
    have hended : { c with stdin := .ended }.effort < c.effort := by
      simp [Console.effort, place, StdinThread.effort]
    unfold Console.stdinLoop
    split
    · split
      · exact hended
      · rename_i stored rest hread
        have hless := length_fgets (by decide) hread
        obtain ⟨hinput, hle⟩ := @Console.effort_handleLine { c with input := rest } place
          (consoleLine stored)
        have hloop : c.stdin.effort = 1 := by rw [place]; rfl
        rw [Console.effort, Console.effort, hinput, hloop]
        dsimp only
        omega
    · exact hended
  | submits rest =>
    cases rest with
    | nil =>
      refine ⟨{ c with stdin := .loop }, by simp only [Console.step, place], ?_⟩
      simp [Console.effort, place, StdinThread.effort, effortOf]
    | cons sec rest =>
      obtain ⟨e, he, hless⟩ := @exec_effort still c.node sec peers
        (hefforts (Or.inl place) sec List.mem_cons_self)
      refine ⟨_, by simp only [Console.step, place, Console.run, he]; rfl, ?_⟩
      simpa [Console.effort, place, StdinThread.effort] using effortOf_run hless
  | stops rest =>
    cases rest with
    | nil =>
      refine ⟨{ c with running := false, stdin := .ended }, by simp only [Console.step, place], ?_⟩
      simp [Console.effort, place, StdinThread.effort, effortOf]
    | cons sec rest =>
      obtain ⟨e, he, hless⟩ := @exec_effort still c.node sec peers
        (hefforts (Or.inr place) sec List.mem_cons_self)
      refine ⟨_, by simp only [Console.step, place, Console.run, he]; rfl, ?_⟩
      simpa [Console.effort, place, StdinThread.effort] using effortOf_run hless
  | ended => exact absurd place hopen

/-- From every state of a run, the console comes to its end. -/
theorem Follows.finishes (h : Follows id all c b lines) :
    ∃ c', Reach Console.step (fun _ _ => True) c c' ∧ c'.stdin = .ended := by
  induction hn : c.effort using Nat.strong_induction_on generalizing c b lines with
  | _ k ih =>
    by_cases hopen : c.stdin = .ended
    · exact ⟨c, .refl, hopen⟩
    · obtain ⟨c1, hstep, hless⟩ := h.advance hopen
      obtain ⟨b1, lines1, h1⟩ := h.step hstep
      obtain ⟨c2, run, hend⟩ := ih _ (hn ▸ hless) h1 rfl
      exact ⟨c2, (Reach.tail .refl trivial hstep).trans run, hend⟩

theorem Stands.begins (h : Stands id all b lines c) :
    lines <+: all ∧ (c.stdin = .ended → lines = all) := by
  cases h with
  | loop place holds running left =>
    refine ⟨⟨_, left⟩, fun hend => ?_⟩
    simp [hend] at place
  | calls place holds running asks op left =>
    refine ⟨⟨_, left⟩, fun hend => ?_⟩
    simp [hend] at place
  | takes place sections holds elected node running asks op left =>
    refine ⟨⟨_, left⟩, fun hend => ?_⟩
    simp [hend] at place
  | stops place sections holds left => exact ⟨left ▸ List.prefix_rfl, fun _ => left⟩
  | ended place holds left => exact ⟨left ▸ List.prefix_rfl, fun _ => left⟩

/-- Whatever its console reads and however the threads take turns, a node without peers says what
the map says, sends nothing, and can answer every line up to the one that ends the console. -/
theorem console_answers {now : ℕ} {config : RaftConfig} {input : Text}
    (peerless : config.peers = [])
    (run : Reach Console.step (fun _ _ => True) (.start now config input) c) :
    (∃ lines b, Dialogue config.id lines c.output b ∧ lines <+: session input ∧
      (c.stdin = .ended → lines = session input)) ∧ c.net = [] ∧
      ∃ c', Reach Console.step (fun _ _ => True) c c' ∧ c'.stdin = .ended := by
  have h0 : Follows config.id (session input) (.start now config input) .empty [] :=
    ⟨.start, .loop (Or.inl rfl) (lone_init now peerless) rfl rfl, .waits 0, rfl⟩
  obtain ⟨b, lines, h⟩ : ∃ b lines, Follows config.id (session input) c b lines := by
    refine run.invariant (P := fun c => ∃ b lines, Follows config.id (session input) c b lines)
      ⟨.empty, [], h0⟩ ?_
    rintro c a c' - ⟨b, lines, h⟩ - hstep
    exact h.step hstep
  obtain ⟨hbegins, hall⟩ := h.stands.begins
  exact ⟨⟨lines, b, h.said, hbegins, hall⟩, h.net, h.finishes⟩

/-- A node without peers. -/
def soloConfig : RaftConfig := ⟨1, bytes "127.0.0.1", 9001, []⟩

def soloLines : List Text := [bytes "set k a", bytes "del k", bytes "get k", bytes "quit"]

/-- A command before the election, the election, and then all other lines. -/
def soloActions : List ConsoleAction :=
  List.replicate 3 (.stdin still) ++ List.replicate 2 (.ticker ⟨5000, true⟩) ++
    List.replicate 10 (.stdin still)

/-- The value that is set before the election is lost. -/
theorem console_answers_solo : ∃ c, Reach Console.step (fun _ _ => True)
      (.start 0 soloConfig (soloLines.flatMap fun line => line ++ [10])) c ∧ c.stdin = .ended ∧
    c.output = bytes "k is not found\n" ∧ ∃ b, Dialogue 1 (soloLines.take 3) c.output b := by
  have hrun : (runList Console.step (fun _ _ => true)
      (.start 0 soloConfig (soloLines.flatMap fun line => line ++ [10])) soloActions).any
      (fun c => c.stdin = .ended ∧ c.output = bytes "k is not found\n") = true := by
    decide +kernel
  obtain ⟨c, run, hc⟩ : ∃ c, Reach Console.step (fun _ _ => True) _ c ∧ _ :=
    exists_reach (fun _ _ _ => trivial) hrun
  obtain ⟨hend, hout⟩ := of_decide_eq_true hc
  obtain ⟨⟨lines, b, said, -, hall⟩, -⟩ := @console_answers c 0 soloConfig _ rfl run
  have hlines : lines = soloLines.take 3 := by
    rw [hall hend, session, consoleLines_lines (by decide)]
    decide
  exact ⟨c, run, hend, hout, b, hlines ▸ said⟩

end Runs

end RaftKv
