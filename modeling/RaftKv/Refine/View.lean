import RaftKv.Outcomes

/-! What of a log entry survives a line.  A `View` is the part of an entry that the history of the
cluster is told in, with the commands for which the lines keep that part: the term of an entry
survives any command without a newline in it, the whole entry a clean one. -/

namespace RaftKv

open Stdio

structure View (α : Type) where
  view : RaftLogEntry → α
  term : α → ℕ
  clean : KvOp → Text → Text → Prop
  term_view : ∀ e, term (view e) = e.term
  unbroken : ∀ {op key value}, clean op key value → 10 ∉ key ∧ 10 ∉ value
  cut : ∀ {op key value}, clean op key value →
    clean op (copyText raftMaxKey key) (copyText raftMaxValue value)
  entry : ∀ {t l p pt lc e sec}, Fits [t, l, p, pt, lc, 1, e.index, e.term] →
    clean e.op e.key e.value → (Line.ae t l p pt lc (some e)).handler = some sec →
    ∃ e', sec = .handleAppendEntries t l p pt lc 1 e' ∧ e'.index = e.index ∧
      view e' = view e ∧ clean e'.op e'.key e'.value
  forward : ∀ {src op key value sec}, src < 2 ^ 32 → clean op key value →
    (Line.cl src op key value).handler = some sec →
    ∃ op' key' value', sec = .handleClientForward src op' key' value' ∧ clean op' key' value'

/-- The command is clean, if `raft_submit_command` accepts it. -/
def View.Accepts {α : Type} (V : View α) (op : KvOp) (key value : Text) : Prop :=
  ¬((op ≠ .set ∧ op ≠ .del) ∨ !isValidToken key raftMaxKey) →
    ¬(op = .set ∧ !isValidToken value raftMaxValue) → V.clean op key value

/-- The term of an entry, under commands without a newline in them. -/
def termView : View ℕ where
  view e := e.term
  term := id
  clean _ key value := 10 ∉ key ∧ 10 ∉ value
  term_view _ := rfl
  unbroken h := h
  cut h := ⟨fun hc => h.1 (List.mem_of_mem_take hc), fun hc => h.2 (List.mem_of_mem_take hc)⟩
  entry hfit _ hsec := by
    rcases Line.handler_ae_some hfit with h | ⟨e', h, hindex, hterm⟩
    · rw [h] at hsec
      cases hsec
    · obtain rfl := Option.some.inj (hsec.symm.trans h)
      exact ⟨e', rfl, hindex, hterm, unbroken_of_handler h⟩
  forward hsrc _ hsec := by
    obtain ⟨op', key', value', rfl⟩ := Line.handler_cl hsrc hsec
    exact ⟨op', key', value', rfl, unbroken_of_handler hsec⟩

theorem ValidCommand.unbroken {op : KvOp} {key value : Text} (h : ValidCommand op key value) :
    10 ∉ key ∧ 10 ∉ value := by
  refine ⟨newline_of_isValidToken h.valid_key, ?_⟩
  rcases h.valid_value with rfl | hv
  · exact List.not_mem_nil
  · exact newline_of_isValidToken hv

/-- `raft_submit_command` accepts no newline in a key, and none in a value that is set. -/
theorem termView_accepts {op : KvOp} {key value : Text} (h : op = .del → 10 ∉ value) :
    termView.Accepts op key value := fun hkey hvalue => newline_of_checked ⟨hkey, hvalue⟩ h

/-- The whole entry, under clean commands. -/
def entryView : View RaftLogEntry where
  view e := e
  term e := e.term
  clean := CleanCommand
  term_view _ := rfl
  unbroken h := h.toValidCommand.unbroken
  cut hc := by
    rw [hc.copyText_eq.1, hc.copyText_eq.2]
    exact hc
  entry hfit hc hsec := by
    rw [Line.handler_ae_valid hfit hc.toValidCommand, unplaced_eq hc.key_ne,
      unplaced_eq hc.value_ne] at hsec
    exact ⟨_, (Option.some.inj hsec).symm, rfl, rfl, hc⟩
  forward hsrc hc hsec := by
    rw [Line.handler_cl_clean hsrc hc] at hsec
    exact ⟨_, _, _, (Option.some.inj hsec).symm, hc⟩

end RaftKv
