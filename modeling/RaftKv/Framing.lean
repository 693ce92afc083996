import RaftKv.Segments
import RaftKv.Types

/-! The lines that a receiver makes of the bytes it gets: what a newline ends, as
`dispatch_complete_lines` in `src/network.cpp` hands it to `pool_submit`. -/

namespace RaftKv

open Stdio Segments

/-- A line cut to its first bytes, and then stripped of one trailing carriage return. -/
def cutLine (line : Text) : Text :=
  let line := line.take (raftMaxLine - 1)
  if line.getLast? = some 13 then line.dropLast else line

/-- A line that does not fit in the buffer with its newline. -/
def TooLong (line : Text) : Prop := 2 * raftMaxLine - 1 ≤ line.length

instance (line : Text) : Decidable (TooLong line) := inferInstanceAs (Decidable (_ ≤ _))

/-- The lines to submit of a stream: those that a newline ends, before the first that is too
long. -/
def framed (stream : Text) : List Text :=
  ((terminated 10 stream).takeWhile fun line => ¬ TooLong line).map cutLine

variable {stream rest line : Text}

theorem framed_of_not_mem (h : 10 ∉ stream) : framed stream = [] := by
  simp [framed, terminated_of_not_mem h]

theorem framed_append_cons (h : 10 ∉ line) (short : ¬TooLong line) :
    framed (line ++ 10 :: rest) = cutLine line :: framed rest := by
  rw [framed, terminated_append_cons h, List.takeWhile_cons_of_pos (by simpa using short),
    List.map_cons, framed]

/-- The lines before the first that is too long come with the part of the stream they are in. -/
theorem framed_append (h : ∀ line ∈ terminated 10 stream, ¬ TooLong line) :
    framed (stream ++ rest) =
      (terminated 10 stream).map cutLine ++ framed (unterminated 10 stream ++ rest) := by
  have hall : ∀ line ∈ terminated 10 stream, decide (¬ TooLong line) = true :=
    fun line hl => decide_eq_true (h line hl)
  rw [framed, terminated_append, List.takeWhile_append_of_pos hall, List.map_append, framed]

/-- Nothing is submitted after the start of a line that is too long. -/
theorem framed_tooLong (h : 10 ∉ stream) (hlong : TooLong stream) :
    framed (stream ++ rest) = [] := by
  obtain ⟨segment, tail, hsplit⟩ := splitOn_extend h rest
  have hseg : TooLong (stream ++ segment) := by
    simp only [TooLong, List.length_append] at hlong ⊢
    omega
  have : (terminated 10 (stream ++ rest)).takeWhile (fun line => ¬ TooLong line) = [] := by
    rw [terminated, hsplit]
    cases tail with
    | nil => rfl
    | cons line tail =>
      rw [List.dropLast_cons_of_ne_nil (by simp), List.takeWhile_cons_of_neg (by simpa using hseg)]
  rw [framed, this, List.map_nil]

theorem cutLine_of_short (short : line.length ≤ raftMaxLine - 1)
    (noReturn : line.getLast? ≠ some 13) : cutLine line = line := by
  rw [cutLine, List.take_of_length_le short, if_neg noReturn]

/-- Cutting a short line keeps everything before a blank in it. -/
theorem cutLine_blank {header : Text} (short : (header ++ 32 :: rest).length ≤ raftMaxLine - 1) :
    cutLine (header ++ 32 :: rest) = header ++ 32 :: cutLine rest := by
  have short' : rest.length ≤ raftMaxLine - 1 := by
    simp only [List.length_append, List.length_cons] at short
    omega
  rw [cutLine, cutLine, List.take_of_length_le short, List.take_of_length_le short']
  rcases List.eq_nil_or_concat rest with rfl | ⟨rest, c, rfl⟩
  · simp
  · have hlast : (header ++ 32 :: (rest ++ [c])).getLast? = some c := by
      rw [← List.cons_append, ← List.append_assoc, List.getLast?_concat]
    have hdrop : (header ++ 32 :: (rest ++ [c])).dropLast = header ++ 32 :: rest := by
      rw [← List.cons_append, ← List.append_assoc, List.dropLast_concat]
    simp only [List.concat_eq_append, hlast, hdrop, List.getLast?_concat, List.dropLast_concat]
    split <;> rfl

end RaftKv
