import RaftKv.Framing

/-! The reading side of a connection in `src/network.cpp`: the lines that `read_connection` hands
to `pool_submit` are those of the byte stream, however `recv` cuts the stream into chunks. -/

namespace RaftKv

open Stdio Segments

/-- A connection by the `length` bytes of its buffer that are in use. -/
structure Connection where
  buffer : Text
  deriving DecidableEq

def Connection.length (connection : Connection) : ℕ := connection.buffer.length

/-- The connection that `accept_connections` makes. -/
def Connection.empty : Connection := { buffer := [] }

/-- The bytes that `recv` may add: `sizeof(connection->buffer) - connection->length - 1`. -/
def Connection.remaining (connection : Connection) : ℕ :=
  2 * raftMaxLine - connection.length - 1

/-- What a call of `recv` returns: a chunk, would-block, or the end of the connection, which
`recv` reports by zero or by another error. -/
inductive Recv
  | bytes (chunk : Text)
  | wouldBlock
  | ended
  deriving DecidableEq

/-- The line of the `lineLen` bytes from `start`, as `memcpy` and the stripping of a carriage return
leave it: the bytes before the terminator that the function stores. -/
def submittedLine (buffer : Text) (start lineLen : ℕ) : Text :=
  let lineLen := if lineLen ≥ raftMaxLine then raftMaxLine - 1 else lineLen
  let line := (buffer.drop start).take lineLen
  if line.getLast? = some 13 then line.dropLast else line

/-- The loop of `dispatch_complete_lines` over the `count` bytes from `i` on: the lines it submits,
and the last value of `start`. -/
def dispatchFrom (buffer : Text) : (count i start : ℕ) → List Text × ℕ
  | 0, _, start => ([], start)
  | count + 1, i, start =>
    if buffer[i]? ≠ some 10 then
      dispatchFrom buffer count (i + 1) start
    else
      let rest := dispatchFrom buffer count (i + 1) (i + 1)
      (submittedLine buffer start (i - start) :: rest.1, rest.2)

/-- The lines submitted, and the connection left. -/
def dispatchCompleteLines (connection : Connection) : List Text × Connection :=
  let (lines, start) := dispatchFrom connection.buffer connection.length 0 0
  (lines, if start > 0 then { buffer := connection.buffer.drop start } else connection)

/-- What the calls of `read_connection` did: the lines they submitted, the values that
`connection->length` had, and the connection, if they did not close it. -/
structure Reading where
  lines : List Text
  lengths : List ℕ
  connection : Option Connection

/-- The calls of `read_connection` on a connection while `recv` gives `results`.  At would-block the
function returns, and `network_loop` calls it again with the connection as it was left. -/
def readConnection (connection : Connection) (results : List Recv) : Reading :=
  if connection.remaining = 0 then
    { lines := [], lengths := [], connection := none }
  else
    match results with
    | [] => { lines := [], lengths := [], connection := some connection }
    | .bytes chunk :: results =>
      let filled : Connection := { buffer := connection.buffer ++ chunk }
      let (lines, left) := dispatchCompleteLines filled
      let reading := readConnection left results
      { reading with
        lines := lines ++ reading.lines
        lengths := filled.length :: left.length :: reading.lengths }
    | .wouldBlock :: results => readConnection connection results
    | .ended :: _ => { lines := [], lengths := [], connection := none }

/-- `recv` returns between one byte and as many as it was asked for, while the connection is
read. -/
def Cut (connection : Connection) : List Recv → Prop
  | [] => True
  | .bytes chunk :: results =>
    connection.remaining ≠ 0 →
      (1 ≤ chunk.length ∧ chunk.length ≤ connection.remaining) ∧
        Cut (dispatchCompleteLines { buffer := connection.buffer ++ chunk }).2 results
  | .wouldBlock :: results => Cut connection results
  | .ended :: _ => True

instance Cut.decidable : (connection : Connection) → (results : List Recv) →
    Decidable (Cut connection results)
  | _, [] => .isTrue trivial
  | connection, .bytes chunk :: results =>
    have := Cut.decidable (dispatchCompleteLines { buffer := connection.buffer ++ chunk }).2 results
    inferInstanceAs (Decidable (_ → _ ∧ _))
  | connection, .wouldBlock :: results => Cut.decidable connection results
  | _, .ended :: _ => .isTrue trivial

/-- The byte stream of the connection, up to its end. -/
def streamOf : List Recv → Text
  | [] => []
  | .bytes chunk :: results => chunk ++ streamOf results
  | .wouldBlock :: results => streamOf results
  | .ended :: _ => []

/-! ### The buffer -/

theorem submittedLine_eq {buffer : Text} {start lineLen : ℕ} :
    submittedLine buffer start lineLen = cutLine ((buffer.drop start).take lineLen) := by
  have : (if lineLen ≥ raftMaxLine then raftMaxLine - 1 else lineLen) =
      min (raftMaxLine - 1) lineLen := by
    split <;> simp only [raftMaxLine] at * <;> omega
  simp only [submittedLine, cutLine, this, List.take_take]

/-- The loop submits the terminated lines of what it has not submitted yet, of which it has seen
the bytes before `i`. -/
theorem dispatchFrom_eq (buffer : Text) (count i start : ℕ) (hi : start ≤ i)
    (hcount : i + count = buffer.length)
    (hseen : 10 ∉ (buffer.drop start).take (i - start)) :
    (dispatchFrom buffer count i start).1 =
        (terminated 10 (buffer.drop start)).map cutLine ∧
      buffer.drop (dispatchFrom buffer count i start).2 =
        unterminated 10 (buffer.drop start) := by
  induction count generalizing i start with
  | zero =>
    have hend : 10 ∉ buffer.drop start := by
      rwa [List.take_of_length_le (by simp; omega)] at hseen
    simp [dispatchFrom, terminated_of_not_mem hend, unterminated_of_not_mem hend]
  | succ count ih =>
    have hlt : i < buffer.length := by omega
    have hget : (buffer.drop start)[i - start]? = some buffer[i] := by
      rw [List.getElem?_drop, show start + (i - start) = i by omega, List.getElem?_eq_getElem hlt]
    rw [dispatchFrom]
    split
    · rename_i hb
      refine ih (i + 1) start (by omega) (by omega) ?_
      rw [show i + 1 - start = i - start + 1 by omega, List.take_add_one, hget]
      rw [List.getElem?_eq_getElem hlt] at hb
      simp only [Option.toList_some, List.mem_append, List.mem_singleton, not_or]
      exact ⟨hseen, fun h => hb (by rw [h])⟩
    · rename_i hb
      obtain ⟨hlines, hrest⟩ := ih (i + 1) (i + 1) (le_refl _) (by omega) (by simp)
      have hnewline : buffer[i] = 10 := by
        simpa [List.getElem?_eq_getElem hlt] using hb
      have hdrop : buffer.drop start =
          (buffer.drop start).take (i - start) ++ 10 :: buffer.drop (i + 1) := by
        conv_lhs => rw [← List.take_append_drop (i - start) (buffer.drop start)]
        rw [List.drop_drop, show start + (i - start) = i by omega,
          List.drop_eq_getElem_cons hlt, hnewline]
      simp only [submittedLine_eq]
      rw [hlines, hrest]
      generalize (buffer.drop start).take (i - start) = line at *
      rw [hdrop, terminated_append_cons hseen, unterminated_append_cons hseen]
      exact ⟨rfl, rfl⟩

/-- `dispatch_complete_lines` submits the terminated lines of the buffer and keeps the rest. -/
theorem dispatchCompleteLines_eq (connection : Connection) :
    dispatchCompleteLines connection =
      ((terminated 10 connection.buffer).map cutLine,
        { buffer := unterminated 10 connection.buffer }) := by
  obtain ⟨hlines, hrest⟩ := dispatchFrom_eq connection.buffer connection.length 0 0 (le_refl _)
    (by simp [Connection.length]) (by simp)
  rw [List.drop_zero] at hlines hrest
  simp only [dispatchCompleteLines, hlines, ← hrest, Prod.mk.injEq, true_and]
  split
  · rfl
  · rename_i h
    rw [show (dispatchFrom connection.buffer connection.length 0 0).2 = 0 by omega, List.drop_zero]

/-! ### Runs of `recv` -/

theorem readConnection_full {connection : Connection} (hfull : connection.remaining = 0)
    (results : List Recv) :
    readConnection connection results = { lines := [], lengths := [], connection := none } := by
  rw [readConnection.eq_def, if_pos hfull]

theorem readConnection_nil {connection : Connection} (hopen : connection.remaining ≠ 0) :
    readConnection connection [] =
      { lines := [], lengths := [], connection := some connection } := by
  rw [readConnection, if_neg hopen]

theorem readConnection_bytes {connection : Connection} (hopen : connection.remaining ≠ 0)
    (chunk : Text) (results : List Recv) :
    readConnection connection (.bytes chunk :: results) =
      let buffer := connection.buffer ++ chunk
      let left : Connection := { buffer := unterminated 10 buffer }
      let reading := readConnection left results
      { reading with
        lines := (terminated 10 buffer).map cutLine ++ reading.lines
        lengths := buffer.length :: left.length :: reading.lengths } := by
  rw [readConnection, if_neg hopen]
  simp only [dispatchCompleteLines_eq, Connection.length]

theorem readConnection_wouldBlock {connection : Connection} (hopen : connection.remaining ≠ 0)
    (results : List Recv) :
    readConnection connection (.wouldBlock :: results) = readConnection connection results := by
  rw [readConnection, if_neg hopen]

theorem readConnection_ended {connection : Connection} (hopen : connection.remaining ≠ 0)
    (results : List Recv) :
    readConnection connection (.ended :: results) =
      { lines := [], lengths := [], connection := none } := by
  rw [readConnection, if_neg hopen]

/-- A connection between two calls of `recv`. -/
structure Connection.Open (connection : Connection) : Prop where
  noNewline : 10 ∉ connection.buffer
  length_le : connection.length ≤ 2 * raftMaxLine - 1

theorem tooLong_of_full {connection : Connection} (hfull : connection.remaining = 0) :
    TooLong connection.buffer := by
  simp only [Connection.remaining, Connection.length, TooLong] at hfull ⊢
  omega

theorem not_tooLong_of_room {connection : Connection} (hopen : connection.remaining ≠ 0) :
    ¬ TooLong connection.buffer := by
  simp only [Connection.remaining, Connection.length, TooLong] at hopen ⊢
  omega

/-- A full buffer begins a line of the stream that is too long. -/
theorem Connection.Open.tooLong_stream {connection : Connection} (ok : connection.Open)
    (hfull : connection.remaining = 0) (stream : Text) :
    ∃ line ∈ (connection.buffer ++ stream).splitOn 10, TooLong line := by
  obtain ⟨segment, rest, hsplit⟩ := splitOn_extend ok.noNewline stream
  refine ⟨connection.buffer ++ segment, by simp [hsplit], ?_⟩
  have := tooLong_of_full hfull
  simp only [TooLong, List.length_append] at this ⊢
  omega

/-- A received chunk leaves the lengths in bounds, and ends no line that is too long. -/
theorem Connection.Open.bytes {connection : Connection} {chunk : Text}
    (hroom : chunk.length ≤ connection.remaining) (hopen : connection.remaining ≠ 0) :
    (connection.buffer ++ chunk).length ≤ 2 * raftMaxLine - 1 ∧
      (∀ line ∈ terminated 10 (connection.buffer ++ chunk), ¬ TooLong line) ∧
      Connection.Open { buffer := unterminated 10 (connection.buffer ++ chunk) } := by
  have hlen : (connection.buffer ++ chunk).length ≤ 2 * raftMaxLine - 1 := by
    simp only [Connection.remaining, Connection.length, List.length_append] at *
    omega
  refine ⟨hlen, fun line hl => ?_, not_mem_unterminated _, ?_⟩
  · have := length_lt_of_mem hl
    simp only [TooLong]
    omega
  · exact (length_unterminated_le _).trans hlen

/-- The lines that a connection submits are the lines of its bytes and of the stream that
follows. -/
theorem Connection.Open.lines {connection : Connection} (ok : connection.Open)
    {results : List Recv} (cut : Cut connection results) :
    (readConnection connection results).lines =
      framed (connection.buffer ++ streamOf results) := by
  induction results generalizing connection with
  | nil =>
    rw [streamOf, List.append_nil, framed_of_not_mem ok.noNewline, readConnection]
    split <;> rfl
  | cons result results ih =>
    by_cases hopen : connection.remaining = 0
    · rw [readConnection_full hopen, framed_tooLong ok.noNewline (tooLong_of_full hopen)]
    cases result with
    | bytes chunk =>
      obtain ⟨⟨_, hroom⟩, hcut⟩ := cut hopen
      obtain ⟨_, hshort, ok'⟩ := Connection.Open.bytes hroom hopen
      rw [dispatchCompleteLines_eq] at hcut
      rw [readConnection_bytes hopen, streamOf]
      simp only
      rw [ih ok' hcut, ← List.append_assoc, framed_append hshort]
    | wouldBlock =>
      rw [readConnection_wouldBlock hopen]
      exact ih ok cut
    | ended =>
      rw [readConnection_ended hopen, streamOf, List.append_nil, framed_of_not_mem ok.noNewline]

/-- The connection is closed when `recv` reports its end, or at a line that is too long. -/
theorem Connection.Open.closed {connection : Connection} (ok : connection.Open)
    {results : List Recv} (cut : Cut connection results) :
    (readConnection connection results).connection = none ↔
      Recv.ended ∈ results ∨
        ∃ line ∈ (connection.buffer ++ streamOf results).splitOn 10, TooLong line := by
  induction results generalizing connection with
  | nil =>
    rw [streamOf, List.append_nil, List.splitOn_eq_singleton ok.noNewline]
    by_cases hopen : connection.remaining = 0
    · simpa [readConnection_full hopen] using tooLong_of_full hopen
    · simpa [readConnection_nil hopen] using not_tooLong_of_room hopen
  | cons result results ih =>
    by_cases hopen : connection.remaining = 0
    · rw [readConnection_full hopen]
      exact iff_of_true rfl (.inr (ok.tooLong_stream hopen _))
    cases result with
    | bytes chunk =>
      obtain ⟨⟨_, hroom⟩, hcut⟩ := cut hopen
      obtain ⟨_, hshort, ok'⟩ := Connection.Open.bytes hroom hopen
      rw [dispatchCompleteLines_eq] at hcut
      rw [readConnection_bytes hopen, streamOf, ← List.append_assoc, splitOn_append]
      simp only
      rw [ih ok' hcut]
      simp only [List.mem_cons, reduceCtorEq, false_or, List.mem_append]
      refine or_congr_right ⟨fun ⟨line, hl, hlong⟩ => ⟨line, .inr hl, hlong⟩, ?_⟩
      rintro ⟨line, hl | hl, hlong⟩
      · exact absurd hlong (hshort line hl)
      · exact ⟨line, hl, hlong⟩
    | wouldBlock =>
      rw [readConnection_wouldBlock hopen]
      simpa [streamOf] using ih ok cut
    | ended => simp [readConnection_ended hopen]

/-- No length of the connection exceeds the buffer less the byte for the terminator. -/
theorem Connection.Open.lengths {connection : Connection} {results : List Recv}
    (cut : Cut connection results) :
    ∀ length ∈ (readConnection connection results).lengths, length ≤ 2 * raftMaxLine - 1 := by
  induction results generalizing connection with
  | nil =>
    rw [readConnection]
    split <;> simp
  | cons result results ih =>
    by_cases hopen : connection.remaining = 0
    · simp [readConnection_full hopen]
    cases result with
    | bytes chunk =>
      obtain ⟨⟨_, hroom⟩, hcut⟩ := cut hopen
      obtain ⟨hlen, _, ok'⟩ := Connection.Open.bytes hroom hopen
      rw [dispatchCompleteLines_eq] at hcut
      rw [readConnection_bytes hopen]
      simp only [List.mem_cons]
      rintro length (rfl | rfl | hl)
      · exact hlen
      · exact ok'.length_le
      · exact ih hcut length hl
    | wouldBlock =>
      rw [readConnection_wouldBlock hopen]
      exact ih cut
    | ended => simp [readConnection_ended hopen]

/-- Framing does not depend on how the stream is cut: the lines submitted are the cut lines of the
stream before the first that is too long, at which the connection is closed. -/
theorem framing {results : List Recv} (cut : Cut .empty results) :
    (readConnection .empty results).lines = framed (streamOf results) ∧
      ((readConnection .empty results).connection = none ↔
        Recv.ended ∈ results ∨ ∃ line ∈ (streamOf results).splitOn 10, TooLong line) ∧
      ∀ length ∈ (readConnection .empty results).lengths, length ≤ 2047 := by
  have ok : Connection.Open .empty :=
    ⟨by simp [Connection.empty], by simp [Connection.empty, Connection.length]⟩
  exact ⟨ok.lines cut, ok.closed cut, Connection.Open.lengths cut⟩

/-- Two lines in three chunks, one of which ends between a carriage return and its newline. -/
theorem framing_split :
    (readConnection .empty [.bytes (bytes "LEAVE 3\r"), .wouldBlock, .bytes (bytes "\nPEER"),
      .bytes (bytes " 4 h 1\nJO"), .ended]).lines = [bytes "LEAVE 3", bytes "PEER 4 h 1"] :=
  (@framing [.bytes (bytes "LEAVE 3\r"), .wouldBlock, .bytes (bytes "\nPEER"),
    .bytes (bytes " 4 h 1\nJO"), .ended] (by decide +kernel)).1.trans (by decide +kernel)

end RaftKv
