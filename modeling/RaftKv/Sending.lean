import RaftKv.Connection
import RaftKv.Refine.Invariant

/-! A line on its way from `connect_send` to `pool_submit`.  The sender gives a connection of its
own as much of the line as the system takes, and the receiver submits the line when all of it has
come, and nothing before. -/

namespace RaftKv

open Stdio Segments

/-! ### The sender -/

/-- What `connect` does: it returns 0, it goes on in the background, or it fails. -/
inductive Connecting
  | done
  | inProgress
  | failed
  deriving DecidableEq

/-- What the calls of `connect_send` return, in their order: `socket` a descriptor, `inet_pton` 1 or
not, `connect`, `poll`, `getsockopt` an error number, and `send` the bytes that it has room for, of
which it takes at most the whole line.  `none` is a failure. -/
structure SendCalls where
  socket : Option ℕ
  address : Bool
  connect : Connecting
  poll : ℤ
  soError : Option ℤ
  room : Option ℕ

/-- What `connect_send` leaves: its return value, the bytes that the connection has taken, if there
was one, and the descriptor that it has closed. -/
structure Sending where
  ret : ℤ
  bytes : Option Text
  closed : Option ℕ

def connectSend (calls : SendCalls) (line : Text) : Sending :=
  match calls.socket with
  | none => { ret := -1, bytes := none, closed := none }
  | some fd =>
    if ¬ calls.address then { ret := -2, bytes := none, closed := some fd }
    else if calls.connect = .failed then { ret := -3, bytes := none, closed := some fd }
    else if calls.connect = .inProgress ∧ calls.poll ≤ 0 then
      { ret := -4, bytes := none, closed := some fd }
    else if calls.connect = .inProgress ∧ calls.soError ≠ some 0 then
      { ret := -5, bytes := none, closed := some fd }
    else
      match calls.room with
      | none => { ret := -6, bytes := some [], closed := some fd }
      | some room =>
        let sent := min room line.length
        { ret := if sent ≠ line.length then -6 else 0
          bytes := some (line.take sent)
          closed := some fd }

variable {calls : SendCalls} {line text : Text}

/-- `connect_send` closes the descriptor that it opens. -/
theorem connectSend_closed : (connectSend calls line).closed = calls.socket := by
  unfold connectSend
  cases calls.socket with
  | none => rfl
  | some fd =>
    cases calls.room
    all_goals
      dsimp only
      repeat' split
      all_goals rfl

/-- The connection takes the first bytes of the line, and all of them exactly when `connect_send`
returns 0. -/
theorem connectSend_bytes (hline : line ≠ []) :
    (∀ bytes ∈ (connectSend calls line).bytes, bytes <+: line) ∧
      ((connectSend calls line).ret = 0 ↔ (connectSend calls line).bytes = some line) := by
  have none_of_it : ∀ {ret : ℤ}, ret ≠ 0 → (∀ bytes ∈ (none : Option Text), bytes <+: line) ∧
      (ret = 0 ↔ none = some line) := fun hret =>
    ⟨fun _ hbytes => (by cases hbytes), iff_of_false hret (by simp)⟩
  have some_of_it : ∀ sent, sent ≤ line.length →
      (∀ bytes ∈ some (line.take sent), bytes <+: line) ∧
      ((if sent ≠ line.length then -6 else 0 : ℤ) = 0 ↔ some (line.take sent) = some line) := by
    intro sent hle
    refine ⟨fun bytes hbytes => Option.mem_some.mp hbytes ▸ List.take_prefix .., ?_⟩
    rw [Option.some.injEq, List.take_eq_self_iff]
    split <;> omega
  unfold connectSend
  cases calls.socket with
  | none => exact none_of_it (by simp)
  | some fd =>
    dsimp only
    split
    · exact none_of_it (by simp)
    split
    · exact none_of_it (by simp)
    split
    · exact none_of_it (by simp)
    split
    · exact none_of_it (by simp)
    cases calls.room with
    | none =>
      have := some_of_it 0 (Nat.zero_le _)
      rwa [List.take_zero, if_pos (List.length_pos_of_ne_nil hline).ne] at this
    | some room => exact some_of_it _ (Nat.min_le_right ..)

/-! ### Lines in one piece -/

/-- What is written of a line is a text of words and blanks with a newline at its end. -/
structure OneLine (wire text : Text) : Prop where
  wire_eq : wire = text ++ [10]
  plain : Printable text
  fits : text.length < raftMaxLine - 1

namespace OneLine

variable {wire : Text}

theorem framed_eq (h : OneLine wire text) : framed wire = [text] := by
  rw [← h.plain.cutLine_eq h.fits.le, ← framed_line h.plain.newline h.fits,
    List.take_of_length_le, h.wire_eq]
  have := h.fits
  simp only [List.length_append, List.length_singleton]
  omega

theorem handlers_eq {line : Line} (h : OneLine line.wire text) :
    line.handlers = (raftHandleLine text).toList := by
  rw [Line.handlers, h.framed_eq, List.filterMap_cons, List.filterMap_nil]
  split <;> rename_i parsed <;> rw [parsed] <;> rfl

/-- Before its last byte the line has no newline. -/
theorem newline_notMem (h : OneLine wire text) {bytes rest : Text} (hwire : wire = bytes ++ rest)
    (more : rest ≠ []) : 10 ∉ bytes := by
  obtain ⟨rest, c, rfl⟩ := (List.eq_nil_or_concat rest).resolve_left more
  have heq : text ++ [10] = (bytes ++ rest) ++ [c] := by
    rw [← h.wire_eq, hwire, List.concat_eq_append, List.append_assoc]
  have := (List.append_inj' heq rfl).1
  intro hmem
  exact h.plain.newline (this ▸ List.mem_append_left rest hmem)

end OneLine

section Lines

/-- A tag, some numbers and a text make one line. -/
theorem oneLine_text {tag t : Text} {ns : List ℕ} (htag : IsTag tag) (hns : Fits ns)
    (hlen : ns.length ≤ 8) (plain : Printable t) (short : t.length ≤ 900) :
    OneLine ((tag ++ (fields ns ++ (t ++ [10]))).take (raftMaxLine - 1))
      (tag ++ (fields ns ++ t)) := by
  have hl := length_header_lt htag hns hlen
  simp only [List.length_append] at hl
  refine ⟨?_, htag.printable.append ((printable_fields ns).append plain), ?_⟩
  · rw [List.take_of_length_le, List.append_assoc, List.append_assoc]
    simp only [List.length_append, List.length_singleton, raftMaxLine]
    omega
  · simp only [List.length_append, raftMaxLine]
    omega

theorem oneLine_numbers {tag : Text} {ns : List ℕ} {f : String} (htag : IsTag tag) (hns : Fits ns)
    (hlen : ns.length ≤ 8)
    (hf : format f.toList = tag.map .lit ++ (fieldDirectives ns.length ++ [.lit 10])) :
    OneLine (snprintf raftMaxLine f (ns.map .u)) (tag ++ (fields ns ++ [])) := by
  have hw : printf (format f.toList) (ns.map .u) = tag ++ (fields ns ++ ([] ++ [10])) := by
    rw [hf, printf_lits]
    congr 1
    simpa [printf] using printf_fields ns [.lit 10] []
  rw [snprintf, hw]
  exact oneLine_text htag hns hlen (fun c hc => absurd hc List.not_mem_nil) (Nat.zero_le _)

theorem oneLine_command {tag : Text} {ns : List ℕ} {op : KvOp} {key value : Text}
    (htag : IsTag tag) (hns : Fits ns) (hlen : ns.length ≤ 8) (h : ValidCommand op key value) :
    OneLine ((tag ++ (fields ns ++ 32 :: (commandText op key value ++ [10]))).take
      (raftMaxLine - 1)) (tag ++ (fields ns ++ 32 :: commandText op key value)) := by
  have hshort := h.fits
  refine @oneLine_text _ (32 :: commandText op key value) _ htag hns hlen
    (printable_commandText h).blank ?_
  rw [List.length_cons]
  omega

variable {n : ℕ} {P : Prop} {R : Roster n} {α : Type} {V : View α}
  {g : Consensus.Ledger (Fin n) α} {j : Fin n}

/-- The lines of a cluster with fixed tables are written in one piece. -/
theorem LineSim.oneLine {line : Line} (h : LineSim P R V g j line)
    (valid : ∀ {op key value}, V.clean op key value → ValidCommand op key value) :
    ∃ text, OneLine line.wire text := by
  cases line with
  | rv t c li lt => exact ⟨_, @oneLine_numbers _ [t, c, li, lt] _ isTag_rv h.1 (by simp) rfl⟩
  | rvr t v granted => exact ⟨_, @oneLine_numbers _ [t, v, granted] _ isTag_rvr h.1 (by simp) rfl⟩
  | ae t l p pt lc entry =>
    cases entry with
    | none =>
      have fits := h.1
      have fits8 : Fits [t, l, p, pt, lc, 0, 0, 0] := by
        intro m hm
        have hm' : m ∈ [t, l, p, pt, lc] ∨ m = 0 := by
          simp only [List.mem_cons, List.not_mem_nil, or_false] at hm ⊢
          omega
        rcases hm' with hm' | rfl
        · exact fits m hm'
        · norm_num
      have plain : ∀ c ∈ bytes " NONE - -", c = 32 ∨ isspace c = false := by
        have := List.all_eq_true.mp
          (show (bytes " NONE - -").all (fun c => c == 32 || !isspace c) = true by decide)
        simpa using this
      rw [wire_ae_none]
      exact ⟨_, @oneLine_text _ (bytes " NONE - -") _ isTag_ae fits8 (by simp) plain (by decide)⟩
    | some e =>
      have fits := h.ae_fits
      obtain ⟨-, -, w, -, appends, -⟩ := h
      obtain ⟨-, -, hclean⟩ := appends.last e rfl
      rw [wire_ae_some]
      exact ⟨_, oneLine_command isTag_ae fits (by simp) (valid hclean)⟩
  | aer t f success m =>
    exact ⟨_, @oneLine_numbers _ [t, f, success, m] _ isTag_aer h.aer_fits (by simp) rfl⟩
  | cl src op key value =>
    rw [wire_cl]
    exact ⟨_, oneLine_command isTag_cl (by simpa [Fits] using h.1) (by simp) (valid h.2)⟩
  | join _ _ _ | peer _ _ _ | leave _ => exact h.elim

end Lines

end RaftKv
