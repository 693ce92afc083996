import RaftKv.Network

/-! What the receiver makes of each line that a node writes: `Line.handler` gives back the fields
of the `RV`, `RVR`, `AE` and `AER` lines, and the command of an `AE` or `CL` line when its key and
value are tokens other than the placeholder. -/

namespace RaftKv

open Stdio

/-- The numbers of a line are `uint32_t` values. -/
def Fits (ns : List ℕ) : Prop := ∀ n ∈ ns, n < 2 ^ 32

theorem stops_blank (t : Text) : Stops (32 :: t) := by
  intro c hc
  obtain rfl : c = 32 := by simpa using hc.symm
  decide

theorem stops_nil : Stops [] := by
  intro c hc
  cases hc

theorem stops_head_nil : ∀ c ∈ ([] : Text).head?, isspace c = true := by
  intro c hc
  cases hc

theorem blank_fields (ns : List ℕ) : ∀ c ∈ (fields ns).head?, isspace c = true := by
  intro c hc
  cases ns with
  | nil => cases hc
  | cons n ns =>
    obtain rfl : c = 32 := by simpa using hc.symm
    decide

theorem blank_fields_append (ns : List ℕ) (t : Text) :
    ∀ c ∈ (fields ns ++ 32 :: t).head?, isspace c = true := by
  intro c hc
  cases ns with
  | nil =>
    obtain rfl : c = 32 := by simpa using hc.symm
    decide
  | cons n ns =>
    obtain rfl : c = 32 := by simpa using hc.symm
    decide

theorem printf_fields (ns : List ℕ) (fmt : List Directive) (args : List Arg) :
    printf (fieldDirectives ns.length ++ fmt) (ns.map .u ++ args) =
      fields ns ++ printf fmt args := by
  induction ns with
  | nil => rfl
  | cons n ns ih => simp [fieldDirectives, printf, ih]

theorem printf_lits (tag : Text) (fmt : List Directive) (args : List Arg) :
    printf (tag.map .lit ++ fmt) args = tag ++ printf fmt args := by
  induction tag with
  | nil => rfl
  | cons c tag ih => simp [printf, ih]

/-- The tags of the protocol's lines. -/
def IsTag (tag : Text) : Prop := IsToken 7 tag

/-- The only white space of a text are blanks. -/
def Printable (t : Text) : Prop := ∀ c ∈ t, c = 32 ∨ isspace c = false

theorem printable_of_solid {t : Text} (h : ∀ c ∈ t, isspace c = false) : Printable t :=
  fun c hc => Or.inr (h c hc)

theorem printable_of_all {t : Text} (h : t.all (fun c => c == 32 || !isspace c) = true) :
    Printable t := by
  simpa [Printable] using h

theorem printable_fields (ns : List ℕ) : Printable (fields ns) := by
  intro c hc
  simp only [fields, List.mem_flatMap, List.mem_cons] at hc
  obtain ⟨n, -, rfl | hc⟩ := hc
  · exact Or.inl rfl
  · exact Or.inr (not_isspace_of_isdigit (isdigit_decimal hc))

namespace Printable

variable {t t' : Text}

theorem append (h : Printable t) (h' : Printable t') : Printable (t ++ t') :=
  fun c hc => (List.mem_append.mp hc).elim (h c) (h' c)

theorem blank (h : Printable t) : Printable (32 :: t) :=
  fun c hc => (List.mem_cons.mp hc).elim Or.inl (h c)

theorem newline (h : Printable t) : 10 ∉ t := fun hc =>
  (h 10 hc).elim (by decide) (by decide)

theorem cutLine_eq (h : Printable t) (short : t.length ≤ raftMaxLine - 1) : cutLine t = t :=
  cutLine_of_short short fun hlast =>
    (h 13 (List.mem_of_getLast? hlast)).elim (by decide) (by decide)

end Printable

theorem IsTag.printable {tag : Text} (h : IsTag tag) : Printable tag := printable_of_solid h.solid

theorem sscanf_type {tag rest : Text} (h : IsTag tag)
    (hrest : ∀ c ∈ rest.head?, isspace c = true) :
    sscanf (format "%7s".toList) (tag ++ rest) = [.s tag] := by
  rw [show format "%7s".toList = [.s (some 7)] by decide, sscanf_token_first h hrest]
  rfl

theorem not_tooLong {l : Text} (h : l.length ≤ raftMaxLine) : ¬TooLong l := by
  simp only [TooLong, raftMaxLine] at h ⊢
  omega

theorem framed_line {l : Text} (h : 10 ∉ l) (hlen : l.length < raftMaxLine - 1) :
    framed ((l ++ [10]).take (raftMaxLine - 1)) = [cutLine l] := by
  rw [List.take_of_length_le (by simpa using hlen),
    framed_append_cons h (not_tooLong (by omega)), framed_of_not_mem List.not_mem_nil]

theorem received_line {l : Text} (h : Printable l) (hlen : l.length < raftMaxLine - 1) :
    received ((l ++ [10]).take (raftMaxLine - 1)) = some l := by
  rw [received, framed_line h.newline hlen, h.cutLine_eq hlen.le, List.head?_cons]

/-- The first line of what is sent starts as that does, up to a blank. -/
theorem received_blank {header t : Text} (h10 : 10 ∉ header)
    (short : header.length < raftMaxLine - 1) :
    received ((header ++ 32 :: t).take (raftMaxLine - 1)) = none ∨
    ∃ t', received ((header ++ 32 :: t).take (raftMaxLine - 1)) = some (header ++ 32 :: t') := by
  obtain ⟨m, hm⟩ : ∃ m, raftMaxLine - 1 = header.length + (m + 1) :=
    ⟨raftMaxLine - 1 - header.length - 1, by omega⟩
  rw [hm, List.take_length_add_append, List.take_succ_cons, received]
  have hlen : (t.take m).length ≤ m := List.length_take_le ..
  generalize t.take m = t at *
  by_cases hmem : 10 ∈ t
  · obtain ⟨line, tail, rfl, hline⟩ := List.eq_append_cons_of_mem hmem
    have hfits : (header ++ 32 :: line).length ≤ raftMaxLine - 1 := by
      simp only [List.length_append, List.length_cons] at hlen ⊢
      omega
    have hnew : 10 ∉ header ++ 32 :: line := by simp [h10, hline]
    refine Or.inr ⟨cutLine line, ?_⟩
    rw [← List.cons_append, ← List.append_assoc,
      framed_append_cons hnew (not_tooLong (by omega)), List.head?_cons, cutLine_blank hfits]
  · rw [framed_of_not_mem (by simp [h10, hmem])]
    exact Or.inl rfl

section Header

variable {tag : Text} {ns : List ℕ} (htag : IsTag tag) (hns : Fits ns) (hlen : ns.length ≤ 8)
include htag hns hlen

theorem length_header_lt : (tag ++ fields ns).length < 100 := by
  have h1 := htag.fits
  have h2 := length_fields_le hns
  simp only [List.length_append]
  omega

/-- The receiver gets the numbers of a line whole, whatever text comes after them. -/
theorem received_text (t : Text) :
    received ((tag ++ (fields ns ++ 32 :: t)).take (raftMaxLine - 1)) = none ∨
    ∃ t', received ((tag ++ (fields ns ++ 32 :: t)).take (raftMaxLine - 1)) =
      some (tag ++ (fields ns ++ 32 :: t')) := by
  have hl := length_header_lt htag hns hlen
  have h10 : 10 ∉ tag ++ fields ns := (htag.printable.append (printable_fields ns)).newline
  rw [← List.append_assoc]
  refine (@received_blank _ t h10 (hl.trans_le (by decide))).imp id ?_
  rintro ⟨t', h⟩
  exact ⟨t', by rw [h, List.append_assoc]⟩

end Header

theorem isToken_of_isValidToken {text : Text} {m : ℕ} (h : isValidToken text (m + 1)) :
    IsToken m text := by
  simp only [isValidToken, ne_eq, Bool.and_eq_true, decide_eq_true_eq, List.all_eq_true,
    Bool.not_eq_true'] at h
  exact ⟨by simpa using h.1.1, h.2, by omega⟩

theorem newline_of_isValidToken {text : Text} {m : ℕ} (h : isValidToken text (m + 1)) :
    10 ∉ text := (printable_of_solid (isToken_of_isValidToken h).solid).newline

theorem isTag_rv : IsTag (bytes "RV") := isToken_of_isValidToken (by decide)
theorem isTag_rvr : IsTag (bytes "RVR") := isToken_of_isValidToken (by decide)
theorem isTag_ae : IsTag (bytes "AE") := isToken_of_isValidToken (by decide)
theorem isTag_aer : IsTag (bytes "AER") := isToken_of_isValidToken (by decide)
theorem isTag_cl : IsTag (bytes "CL") := isToken_of_isValidToken (by decide)

theorem received_numbers {tag : Text} {ns : List ℕ} {f : String} (htag : IsTag tag)
    (hns : Fits ns) (hlen : ns.length ≤ 8)
    (hf : format f.toList = tag.map .lit ++ (fieldDirectives ns.length ++ [.lit 10])) :
    received (snprintf raftMaxLine f (ns.map .u)) = some (tag ++ fields ns) := by
  have hl := length_header_lt htag hns hlen
  have hw : printf (format f.toList) (ns.map .u) = (tag ++ fields ns) ++ [10] := by
    rw [hf, printf_lits, List.append_assoc]
    congr 1
    simpa [printf] using printf_fields ns [.lit 10] []
  rw [snprintf, hw]
  exact received_line (htag.printable.append (printable_fields ns)) (hl.trans_le (by decide))

theorem sscanf_numbers {tag : Text} {ns : List ℕ} {f : String} (htag : IsTag tag) (hns : Fits ns)
    (hf : format f.toList = tag.map .lit ++ fieldDirectives ns.length) :
    sscanf (format f.toList) (tag ++ fields ns) = ns.map .u := by
  have h := @sscanf_fields ns [] [] hns stops_nil
  rw [List.append_nil, List.append_nil] at h
  rw [hf, sscanf_lits htag.solid, h]
  exact List.append_nil _

theorem sscanf_header {tag t : Text} {ns : List ℕ} {f : String} {fmt : List Directive}
    (htag : IsTag tag) (hns : Fits ns)
    (hf : format f.toList = tag.map .lit ++ (fieldDirectives ns.length ++ fmt)) :
    sscanf (format f.toList) (tag ++ (fields ns ++ 32 :: t)) =
      ns.map .u ++ sscanf fmt (32 :: t) := by
  rw [hf, sscanf_lits htag.solid, sscanf_fields hns (stops_blank t)]

theorem Line.handler_rv {t c li lt : ℕ} (h : Fits [t, c, li, lt]) :
    (Line.rv t c li lt).handler = some (.handleRequestVote t c li lt) := by
  have hw : received (Line.rv t c li lt).wire = some (bytes "RV" ++ fields [t, c, li, lt]) :=
    @received_numbers _ [t, c, li, lt] _ isTag_rv h (by simp) rfl
  rw [Line.handler, hw, Option.bind_some, raftHandleLine, sscanf_type isTag_rv (blank_fields _)]
  simp only [if_true, @sscanf_numbers _ [t, c, li, lt] "RV %u %u %u %u" isTag_rv h rfl, List.map]

theorem Line.handler_rvr {t v granted : ℕ} (h : Fits [t, v, granted]) :
    (Line.rvr t v granted).handler = some (.handleRequestVoteResponse t v granted) := by
  have hw : received (Line.rvr t v granted).wire = some (bytes "RVR" ++ fields [t, v, granted]) :=
    @received_numbers _ [t, v, granted] _ isTag_rvr h (by simp) rfl
  rw [Line.handler, hw, Option.bind_some, raftHandleLine, sscanf_type isTag_rvr (blank_fields _)]
  simp only [show bytes "RVR" ≠ bytes "RV" by decide, if_true, if_false,
    @sscanf_numbers _ [t, v, granted] "RVR %u %u %u" isTag_rvr h rfl, List.map]

theorem Line.handler_aer {t f success m : ℕ} (h : Fits [t, f, success, m]) :
    (Line.aer t f success m).handler = some (.handleAppendResponse t f success m) := by
  have hw : received (Line.aer t f success m).wire =
      some (bytes "AER" ++ fields [t, f, success, m]) :=
    @received_numbers _ [t, f, success, m] _ isTag_aer h (by simp) rfl
  rw [Line.handler, hw, Option.bind_some, raftHandleLine, sscanf_type isTag_aer (blank_fields _)]
  simp only [show bytes "AER" ≠ bytes "RV" by decide, show bytes "AER" ≠ bytes "RVR" by decide,
    show bytes "AER" ≠ bytes "AE" by decide, if_true, if_false,
    @sscanf_numbers _ [t, f, success, m] "AER %u %u %u %u" isTag_aer h rfl, List.map]

/-! ### Lines with a command -/

/-- The three texts at the end of an `AE` line. -/
def commandDirectives : List Directive :=
  [.lit 32, .s (some 15), .lit 32, .s (some 63), .lit 32, .s (some 255)]

/-- `op`, `key` and `value` as the lines carry them. -/
def commandText (op : KvOp) (key value : Text) : Text :=
  opName op ++ (32 :: (key ++ (32 :: (if value = [] then bytes "-" else value))))

theorem sscanf_strings (fmt : List Directive) (t : Text) (h : ∀ d ∈ fmt, d ≠ .u) :
    ∃ ts : List Text, sscanf fmt t = ts.map .s ∧
      ts.length ≤ fmt.countP fun d => d matches .s _ := by
  induction fmt generalizing t with
  | nil => exact ⟨[], rfl, by simp⟩
  | cons d fmt ih =>
    have ih := fun t => ih t fun x hx => h x (List.mem_cons_of_mem _ hx)
    cases d with
    | u => exact absurd rfl (h .u List.mem_cons_self)
    | lit c =>
      rw [sscanf.eq_def, List.countP_cons_of_neg (by simp)]
      dsimp only
      split
      · exact ih _
      · split
        · split
          · exact ih _
          · exact ⟨[], rfl, by simp⟩
        · exact ⟨[], rfl, by simp⟩
    | s width =>
      rw [sscanf, List.countP_cons_of_pos (by simp)]
      split
      · rename_i token rest _
        obtain ⟨ts, h1, h2⟩ := ih rest
        exact ⟨token :: ts, by simp [h1], by simpa using h2⟩
      · exact ⟨[], rfl, by simp⟩

theorem wire_ae_none (t l p pt lc : ℕ) :
    (Line.ae t l p pt lc none).wire =
      (bytes "AE" ++ (fields [t, l, p, pt, lc, 0, 0, 0] ++ bytes " NONE - -\n")).take
        (raftMaxLine - 1) := by
  rw [Line.wire, snprintf, show format "AE %u %u %u %u %u 0 0 0 NONE - -\n".toList =
    (bytes "AE").map .lit ++ (fieldDirectives 5 ++ (bytes " 0 0 0 NONE - -\n").map .lit) by decide,
    printf_lits]
  have h := printf_fields [t, l, p, pt, lc] ((bytes " 0 0 0 NONE - -\n").map .lit) []
  refine congrArg (fun x => (bytes "AE" ++ x).take (raftMaxLine - 1)) (h.trans ?_)
  rw [show bytes " 0 0 0 NONE - -\n" = fields [0, 0, 0] ++ bytes " NONE - -\n" by decide,
    ← List.append_nil (List.map Directive.lit _), printf_lits]
  simp [printf]

/-- The entry that a heartbeat's line is read as. -/
def noEntry : RaftLogEntry := ⟨0, 0, .none, [], []⟩

theorem Line.handler_ae_none {t l p pt lc : ℕ} (h : Fits [t, l, p, pt, lc]) :
    (Line.ae t l p pt lc none).handler =
      some (.handleAppendEntries t l p pt lc 0 noEntry) := by
  have h8 : Fits [t, l, p, pt, lc, 0, 0, 0] := by
    intro n hn
    have hn' : n ∈ [t, l, p, pt, lc] ∨ n = 0 := by
      simp only [List.mem_cons, List.not_mem_nil, or_false] at hn ⊢
      omega
    rcases hn' with hn' | rfl
    · exact h n hn'
    · norm_num
  have hlen := length_header_lt isTag_ae h8 (by simp)
  have hw : received (Line.ae t l p pt lc none).wire = some
      (bytes "AE" ++ (fields [t, l, p, pt, lc, 0, 0, 0] ++ 32 :: bytes "NONE - -")) := by
    rw [wire_ae_none, show bytes " NONE - -\n" = 32 :: bytes "NONE - -" ++ [10] by decide,
      ← List.append_assoc, ← List.append_assoc, List.append_assoc (bytes "AE")]
    refine received_line ?_ ?_
    · exact isTag_ae.printable.append
        ((printable_fields _).append (printable_of_all (by decide)))
    · simp only [List.length_append, raftMaxLine] at hlen ⊢
      have : (32 :: bytes "NONE - -").length = 9 := by decide
      omega
  rw [Line.handler, hw, Option.bind_some, raftHandleLine,
    sscanf_type isTag_ae (blank_fields_append _ _)]
  simp only [show bytes "AE" ≠ bytes "RV" by decide, show bytes "AE" ≠ bytes "RVR" by decide,
    if_true, if_false, @sscanf_header _ _ [t, l, p, pt, lc, 0, 0, 0]
      "AE %u %u %u %u %u %u %u %u %15s %63s %255s" commandDirectives isTag_ae h8 rfl]
  rw [show sscanf commandDirectives (32 :: bytes "NONE - -") =
    [.s (bytes "NONE"), .s (bytes "-"), .s (bytes "-")] by decide]
  rfl

theorem wire_ae_some (t l p pt lc : ℕ) (e : RaftLogEntry) :
    (Line.ae t l p pt lc (some e)).wire =
      (bytes "AE" ++ (fields [t, l, p, pt, lc, 1, e.index, e.term] ++
        32 :: (commandText e.op e.key e.value ++ [10]))).take (raftMaxLine - 1) := by
  rw [Line.wire, snprintf, show format "AE %u %u %u %u %u 1 %u %u %s %s %s\n".toList =
    (bytes "AE").map .lit ++ (fieldDirectives 5 ++ ((bytes " 1").map .lit ++ (fieldDirectives 2 ++
      [.lit 32, .s none, .lit 32, .s none, .lit 32, .s none, .lit 10]))) by decide, printf_lits]
  have h := printf_fields [t, l, p, pt, lc] ((bytes " 1").map .lit ++ (fieldDirectives 2 ++
    [.lit 32, .s none, .lit 32, .s none, .lit 32, .s none, .lit 10]))
    ([e.index, e.term].map .u ++ [.s (opName e.op), .s e.key,
      .s (if e.value = [] then bytes "-" else e.value)])
  have h' := printf_fields [e.index, e.term]
    [.lit 32, .s none, .lit 32, .s none, .lit 32, .s none, .lit 10]
    [.s (opName e.op), .s e.key, .s (if e.value = [] then bytes "-" else e.value)]
  refine congrArg (fun x => (bytes "AE" ++ x).take (raftMaxLine - 1)) (h.trans ?_)
  rw [printf_lits]
  refine (congrArg (fun x => fields [t, l, p, pt, lc] ++ (bytes " 1" ++ x)) h').trans ?_
  rw [show bytes " 1" = fields [1] by decide]
  simp [printf, commandText]

/-- The command that a replication line is read as, when its text is. -/
theorem sscanf_command {op : KvOp} {key value : Text} (hop : op ≠ .none) (hkey : IsToken 63 key)
    (hvalue : value = [] ∨ IsToken 255 value) :
    sscanf commandDirectives (32 :: commandText op key value) =
      [.s (opName op), .s key, .s (if value = [] then bytes "-" else value)] := by
  have hname : IsToken 15 (opName op) := by
    cases op
    · exact absurd rfl hop
    · exact isToken_of_isValidToken (by decide)
    · exact isToken_of_isValidToken (by decide)
  have hval : IsToken 255 (if value = [] then bytes "-" else value) := by
    split
    · exact isToken_of_isValidToken (by decide)
    · rename_i hne
      exact hvalue.resolve_left hne
  have blank : ∀ t : Text, ∀ c ∈ (32 :: t).head?, isspace c = true := by
    intro t c hc
    obtain rfl : c = 32 := by simpa using hc.symm
    decide
  have hlast := @sscanf_token 255 _ [] [] hval stops_head_nil
  rw [List.append_nil] at hlast
  rw [commandDirectives, commandText, sscanf_token hname (blank _), sscanf_token hkey (blank _),
    hlast]
  rfl

/-- An `AE` line with an entry is not read, or read with its numbers. -/
theorem Line.handler_ae_some {t l p pt lc : ℕ} {e : RaftLogEntry}
    (h : Fits [t, l, p, pt, lc, 1, e.index, e.term]) :
    (Line.ae t l p pt lc (some e)).handler = none ∨
    ∃ e', (Line.ae t l p pt lc (some e)).handler =
      some (.handleAppendEntries t l p pt lc 1 e') ∧ e'.index = e.index ∧ e'.term = e.term := by
  rw [Line.handler, wire_ae_some]
  rcases received_text isTag_ae h (by simp) (commandText e.op e.key e.value ++ [10]) with
    hw | ⟨text, hw⟩
  · exact Or.inl (by rw [hw]; rfl)
  · rw [hw, Option.bind_some, raftHandleLine, sscanf_type isTag_ae (blank_fields_append _ _)]
    simp only [show bytes "AE" ≠ bytes "RV" by decide, show bytes "AE" ≠ bytes "RVR" by decide,
      if_true, if_false, @sscanf_header _ _ [t, l, p, pt, lc, 1, e.index, e.term]
        "AE %u %u %u %u %u %u %u %u %15s %63s %255s" commandDirectives isTag_ae h rfl]
    obtain ⟨ts, hts, hlen⟩ := sscanf_strings commandDirectives (32 :: text) (by decide)
    have hlen' : ts.length ≤ 3 := hlen
    rw [hts]
    match ts, hlen' with
    | [], _ | [_], _ | [_, _], _ => exact Or.inl rfl
    | [a, b, c], _ => exact Or.inr ⟨_, rfl, rfl, rfl⟩

/-! ### Commands -/

/-- A command that `raft_submit_command` accepts; a deletion has no value. -/
structure ValidCommand (op : KvOp) (key value : Text) : Prop where
  op_ne : op ≠ .none
  valid_key : isValidToken key raftMaxKey
  valid_value : value = [] ∨ isValidToken value raftMaxValue

/-- A command whose key and value are not the placeholder of the lines. -/
structure CleanCommand (op : KvOp) (key value : Text) : Prop extends ValidCommand op key value where
  key_ne : key ≠ bytes "-"
  value_ne : value ≠ bytes "-"

/-- What the receiver makes of a key or a value. -/
def unplaced (text : Text) : Text := if text = bytes "-" then [] else text

theorem unplaced_eq {text : Text} (h : text ≠ bytes "-") : unplaced text = text := if_neg h

theorem copyText_of_isToken {text : Text} {m : ℕ} (h : IsToken m text) :
    copyText (m + 1) text = text :=
  List.take_of_length_le h.fits

theorem ValidCommand.isToken_value {op : KvOp} {key value : Text} (h : ValidCommand op key value) :
    value = [] ∨ IsToken 255 value :=
  h.valid_value.imp id isToken_of_isValidToken

theorem ValidCommand.copyText_eq {op : KvOp} {key value : Text} (h : ValidCommand op key value) :
    copyText raftMaxKey key = key ∧ copyText raftMaxValue value = value := by
  refine ⟨copyText_of_isToken (isToken_of_isValidToken h.valid_key), ?_⟩
  rcases h.isToken_value with rfl | hv
  · rfl
  · exact copyText_of_isToken hv

theorem opFromName_opName (op : KvOp) : opFromName (opName op) = op := by
  cases op <;> decide

theorem copyText_unplaced {text : Text} {m : ℕ} (h : IsToken m text) :
    copyText (m + 1) (unplaced text) = unplaced text := by
  unfold unplaced
  split
  · simp [copyText]
  · exact copyText_of_isToken h

theorem printable_commandText {op : KvOp} {key value : Text} (h : ValidCommand op key value) :
    Printable (commandText op key value) := by
  have hname : Printable (opName op) := printable_of_all (by cases op <;> decide)
  have hval : Printable (if value = [] then bytes "-" else value) := by
    split
    · exact printable_of_all (by decide)
    · rename_i hne
      exact printable_of_solid (h.isToken_value.resolve_left hne).solid
  have hkey := printable_of_solid (isToken_of_isValidToken h.valid_key).solid
  exact hname.append (hkey.append hval.blank).blank

theorem length_commandText_le {op : KvOp} {key value : Text} (hkey : key.length < raftMaxKey)
    (hvalue : value.length < raftMaxValue) : (commandText op key value).length ≤ 324 := by
  have hname : (opName op).length ≤ 4 := by cases op <;> decide
  have hshown : (if value = [] then bytes "-" else value).length ≤ 255 := by
    split
    · decide
    · simp only [raftMaxValue] at hvalue
      omega
  simp only [raftMaxKey] at hkey
  simp only [commandText, List.length_append, List.length_cons]
  omega

theorem ValidCommand.fits {op : KvOp} {key value : Text} (h : ValidCommand op key value) :
    (commandText op key value).length ≤ 324 := by
  refine length_commandText_le ?_ ?_
  · exact Nat.lt_succ_of_le (isToken_of_isValidToken h.valid_key).fits
  · rcases h.isToken_value with rfl | hv
    · decide
    · exact Nat.lt_succ_of_le hv.fits

/-- A line with a valid command fits, and its whole text is received. -/
theorem received_command {tag : Text} {ns : List ℕ} {op : KvOp} {key value : Text}
    (htag : IsTag tag) (hns : Fits ns) (hlen : ns.length ≤ 8) (h : ValidCommand op key value) :
    (tag ++ (fields ns ++ 32 :: (commandText op key value ++ [10]))).length < raftMaxLine - 1 ∧
    received ((tag ++ (fields ns ++ 32 :: (commandText op key value ++ [10]))).take
      (raftMaxLine - 1)) = some (tag ++ (fields ns ++ 32 :: commandText op key value)) := by
  have hl := length_header_lt htag hns hlen
  have hlong := h.fits
  have heq : tag ++ (fields ns ++ 32 :: (commandText op key value ++ [10])) =
      tag ++ (fields ns ++ 32 :: commandText op key value) ++ [10] := by simp
  have hlt : (tag ++ (fields ns ++ 32 :: commandText op key value)).length + 1 <
      raftMaxLine - 1 := by
    simp only [List.length_append, List.length_cons, raftMaxLine] at hl ⊢
    omega
  rw [heq]
  refine ⟨?_, received_line ?_ (by omega)⟩
  · rw [List.length_append]
    exact hlt
  · exact htag.printable.append ((printable_fields ns).append (printable_commandText h).blank)

/-- An `AE` line with a valid command is read as that command, but for a key or a value that is the
placeholder. -/
theorem Line.handler_ae_valid {t l p pt lc : ℕ} {e : RaftLogEntry}
    (h : Fits [t, l, p, pt, lc, 1, e.index, e.term]) (hv : ValidCommand e.op e.key e.value) :
    (Line.ae t l p pt lc (some e)).handler = some (.handleAppendEntries t l p pt lc 1
      { e with key := unplaced e.key, value := unplaced e.value }) := by
  rw [Line.handler, wire_ae_some, (received_command isTag_ae h (by simp) hv).2, Option.bind_some,
    raftHandleLine, sscanf_type isTag_ae (blank_fields_append _ _)]
  simp only [show bytes "AE" ≠ bytes "RV" by decide, show bytes "AE" ≠ bytes "RVR" by decide,
    if_true, if_false, @sscanf_header _ _ [t, l, p, pt, lc, 1, e.index, e.term]
      "AE %u %u %u %u %u %u %u %u %15s %63s %255s" commandDirectives isTag_ae h rfl]
  have hkey := isToken_of_isValidToken hv.valid_key
  have hread : copyText raftMaxValue (unplaced (if e.value = [] then bytes "-" else e.value)) =
      unplaced e.value := by
    rcases hv.isToken_value with h0 | h0
    · rw [h0]
      decide
    · rw [if_neg h0.ne_nil]
      exact copyText_unplaced h0
  rw [sscanf_command hv.op_ne hkey hv.isToken_value]
  simp only [List.map, List.cons_append, List.nil_append, opFromName_opName]
  exact congrArg some (congrArg (Section.handleAppendEntries t l p pt lc 1)
    (congrArg₂ (RaftLogEntry.mk e.index e.term e.op) (copyText_unplaced hkey) hread))

theorem wire_cl (src : ℕ) (op : KvOp) (key value : Text) :
    (Line.cl src op key value).wire =
      (bytes "CL" ++ (fields [src] ++ 32 :: (commandText op key value ++ [10]))).take
        (raftMaxLine - 1) := by
  rw [Line.wire, snprintf, show format "CL %u %s %s %s\n".toList =
    (bytes "CL").map .lit ++ (fieldDirectives 1 ++
      [.lit 32, .s none, .lit 32, .s none, .lit 32, .s none, .lit 10]) by decide, printf_lits]
  have h := printf_fields [src] [.lit 32, .s none, .lit 32, .s none, .lit 32, .s none, .lit 10]
    [.s (opName op), .s key, .s (if value = [] then bytes "-" else value)]
  refine congrArg (fun x => (bytes "CL" ++ x).take (raftMaxLine - 1)) (h.trans ?_)
  simp [printf, commandText]

/-- A `CL` line leads to a forwarded command or to nothing. -/
theorem Line.handler_cl {src : ℕ} {op : KvOp} {key value : Text} {sec : Section}
    (hsrc : src < 2 ^ 32) (h : (Line.cl src op key value).handler = some sec) :
    ∃ op' key' value', sec = .handleClientForward src op' key' value' := by
  have hfit : Fits [src] := by simpa [Fits] using hsrc
  rw [Line.handler, wire_cl] at h
  rcases received_text isTag_cl hfit (by simp) (commandText op key value ++ [10]) with
    hw | ⟨text, hw⟩
  · rw [hw] at h
    cases h
  · rw [hw, Option.bind_some, raftHandleLine, sscanf_type isTag_cl (blank_fields_append _ _)] at h
    simp only [show bytes "CL" ≠ bytes "RV" by decide, show bytes "CL" ≠ bytes "RVR" by decide,
      show bytes "CL" ≠ bytes "AE" by decide, show bytes "CL" ≠ bytes "AER" by decide,
      show bytes "CL" ≠ bytes "JOIN" by decide, show bytes "CL" ≠ bytes "PEER" by decide,
      show bytes "CL" ≠ bytes "LEAVE" by decide, if_true, if_false,
      @sscanf_header _ _ [src] "CL %u %15s %63s %255s" commandDirectives isTag_cl hfit rfl] at h
    obtain ⟨ts, hts, hlen⟩ := sscanf_strings commandDirectives (32 :: text) (by decide)
    have hlen' : ts.length ≤ 3 := hlen
    rw [hts] at h
    match ts, hlen' with
    | [], _ | [_], _ => cases h
    | [_, _], _ | [_, _, _], _ => exact ⟨_, _, _, (Option.some.inj h).symm⟩

/-- A `CL` line with a valid command is read as that command, but for a value that is the
placeholder. -/
theorem Line.handler_cl_valid {src : ℕ} {op : KvOp} {key value : Text} (hsrc : src < 2 ^ 32)
    (hv : ValidCommand op key value) : (Line.cl src op key value).handler =
      some (.handleClientForward src op key (unplaced value)) := by
  have hfit : Fits [src] := by simpa [Fits] using hsrc
  rw [Line.handler, wire_cl, (received_command isTag_cl hfit (by simp) hv).2,
    Option.bind_some, raftHandleLine, sscanf_type isTag_cl (blank_fields_append _ _)]
  simp only [show bytes "CL" ≠ bytes "RV" by decide, show bytes "CL" ≠ bytes "RVR" by decide,
    show bytes "CL" ≠ bytes "AE" by decide, show bytes "CL" ≠ bytes "AER" by decide,
    show bytes "CL" ≠ bytes "JOIN" by decide, show bytes "CL" ≠ bytes "PEER" by decide,
    show bytes "CL" ≠ bytes "LEAVE" by decide, if_true, if_false,
    @sscanf_header _ _ [src] "CL %u %15s %63s %255s" commandDirectives isTag_cl hfit rfl]
  rw [sscanf_command hv.op_ne (isToken_of_isValidToken hv.valid_key) hv.isToken_value]
  have hread : unplaced (if value = [] then bytes "-" else value) = unplaced value := by
    split
    · rename_i h0
      rw [h0]
      decide
    · rfl
  simp only [List.map, List.cons_append, List.nil_append, opFromName_opName]
  exact congrArg (fun v => some (Section.handleClientForward src op key v)) hread

/-- A `CL` line with a clean command is read as that command. -/
theorem Line.handler_cl_clean {src : ℕ} {op : KvOp} {key value : Text} (hsrc : src < 2 ^ 32)
    (hc : CleanCommand op key value) :
    (Line.cl src op key value).handler = some (.handleClientForward src op key value) := by
  rw [Line.handler_cl_valid hsrc hc.toValidCommand, unplaced_eq hc.value_ne]

/-! ### Lines without a newline in them -/

/-- No newline stands in the texts of an entry. -/
def RaftLogEntry.Unbroken (e : RaftLogEntry) : Prop := 10 ∉ e.key ∧ 10 ∉ e.value

/-- No newline stands in the texts of a line. -/
def Line.Unbroken : Line → Prop
  | .ae _ _ _ _ _ (some entry) => entry.Unbroken
  | .join _ host _ | .peer _ host _ => 10 ∉ host
  | .cl _ _ key value => 10 ∉ key ∧ 10 ∉ value
  | _ => True

/-- No newline stands in the texts of a section, or `raft_submit_command` refuses it. -/
def Section.Unbroken : Section → Prop
  | .handleAppendEntries _ _ _ _ _ _ incoming => incoming.Unbroken
  | .raftSubmitCommand op _ value => op = .del → 10 ∉ value
  | .handleClientForward _ _ key value => 10 ∉ key ∧ 10 ∉ value
  | .handleJoin _ host _ | .sendPeerCatalog host _ | .handlePeerAnnounce _ host _
  | .announcePeerToKnownNodes _ host _ _ => 10 ∉ host
  | _ => True

/-- What a format with a newline at its end writes has a newline at its end at most. -/
theorem printf_newline {fmt : List Directive} {args : List Arg} (lits : .lit 10 ∉ fmt)
    (texts : ∀ t, .s t ∈ args → 10 ∉ t) : ∃ l, 10 ∉ l ∧
      (printf (fmt ++ [.lit 10]) args = l ∨ printf (fmt ++ [.lit 10]) args = l ++ [10]) := by
  induction fmt generalizing args with
  | nil => exact ⟨[], List.not_mem_nil, Or.inr rfl⟩
  | cons d fmt ih =>
    have lits' : .lit 10 ∉ fmt := fun h => lits (List.mem_cons_of_mem d h)
    have put : ∀ {head : Text} {args : List Arg}, 10 ∉ head → (∀ t, .s t ∈ args → 10 ∉ t) →
        ∃ l, 10 ∉ l ∧ (head ++ printf (fmt ++ [.lit 10]) args = l ∨
          head ++ printf (fmt ++ [.lit 10]) args = l ++ [10]) := by
      intro head args hhead htexts
      obtain ⟨l, hl, hprint⟩ := ih lits' htexts
      refine ⟨head ++ l, by simp [hhead, hl], hprint.imp (fun h => by rw [h]) fun h => ?_⟩
      rw [h, List.append_assoc]
    cases d with
    | lit c =>
      have hc : 10 ∉ [c] := by
        rw [List.mem_singleton]
        rintro rfl
        exact lits List.mem_cons_self
      exact put hc texts
    | u =>
      rcases args with _ | ⟨n | t, args⟩
      · exact ⟨[], List.not_mem_nil, Or.inl rfl⟩
      · refine put (fun hc => ?_) fun t ht => texts t (List.mem_cons_of_mem _ ht)
        exact absurd (isdigit_decimal hc) (by decide)
      · exact ⟨[], List.not_mem_nil, Or.inl rfl⟩
    | s width =>
      rcases args with _ | ⟨n | t, args⟩
      · exact ⟨[], List.not_mem_nil, Or.inl rfl⟩
      · exact ⟨[], List.not_mem_nil, Or.inl rfl⟩
      · exact put (texts t List.mem_cons_self) fun t ht => texts t (List.mem_cons_of_mem _ ht)

/-- What `snprintf` writes of texts without a newline is no more than one line. -/
theorem framed_snprintf {f : String} {fmt : List Directive} {args : List Arg}
    (hf : format f.toList = fmt ++ [.lit 10]) (lits : .lit 10 ∉ fmt)
    (texts : ∀ t, .s t ∈ args → 10 ∉ t) : (framed (snprintf raftMaxLine f args)).length ≤ 1 := by
  obtain ⟨l, hl, hprint⟩ := printf_newline lits texts
  have none_of_it : ∀ m, (framed (l.take m)).length ≤ 1 := fun m => by
    rw [framed_of_not_mem fun h => hl (List.mem_of_mem_take h)]
    exact Nat.zero_le 1
  rw [snprintf, hf]
  rcases hprint with hprint | hprint
  · rw [hprint]
    exact none_of_it _
  · rw [hprint]
    by_cases hlen : l.length < raftMaxLine - 1
    · rw [framed_line hl hlen]
      exact le_rfl
    · rw [List.take_append_of_le_length (not_lt.mp hlen)]
      exact none_of_it _

theorem Line.Unbroken.framed_le {line : Line} (h : line.Unbroken) :
    (framed line.wire).length ≤ 1 := by
  have newline_opName : ∀ op : KvOp, 10 ∉ opName op := fun op => by cases op <;> decide
  have newline_shown : ∀ {value : Text}, 10 ∉ value →
      10 ∉ if value = [] then bytes "-" else value := by
    intro value hvalue
    split
    · decide
    · exact hvalue
  have numbers : ∀ (ns : List ℕ) t, .s t ∈ ns.map Arg.u → 10 ∉ t := fun ns t ht => by
    obtain ⟨n, -, hn⟩ := List.mem_map.mp ht
    cases hn
  cases line with
  | rv t c li lt =>
    exact @framed_snprintf _ (format "RV %u %u %u %u".toList) _ rfl (by decide)
      (numbers [t, c, li, lt])
  | rvr t v granted =>
    exact @framed_snprintf _ (format "RVR %u %u %d".toList) _ rfl (by decide)
      (numbers [t, v, granted])
  | ae t l p pt lc entry =>
    cases entry with
    | none =>
      exact @framed_snprintf _ (format "AE %u %u %u %u %u 0 0 0 NONE - -".toList) _ rfl (by decide)
        (numbers [t, l, p, pt, lc])
    | some e =>
      refine @framed_snprintf _ (format "AE %u %u %u %u %u 1 %u %u %s %s %s".toList) _ rfl
        (by decide) ?_
      simp only [List.mem_cons, reduceCtorEq, Arg.s.injEq, false_or, List.not_mem_nil, or_false]
      rintro t (rfl | rfl | rfl)
      · exact newline_opName e.op
      · exact h.1
      · exact newline_shown h.2
  | aer t f success m =>
    exact @framed_snprintf _ (format "AER %u %u %d %u".toList) _ rfl (by decide)
      (numbers [t, f, success, m])
  | join id host port =>
    refine @framed_snprintf _ (format "JOIN %u %s %u".toList) _ rfl (by decide) ?_
    intro t ht
    obtain rfl : t = host := by simpa using ht
    exact h
  | peer id host port =>
    refine @framed_snprintf _ (format "PEER %u %s %u".toList) _ rfl (by decide) ?_
    intro t ht
    obtain rfl : t = host := by simpa using ht
    exact h
  | leave id =>
    exact @framed_snprintf _ (format "LEAVE %u".toList) _ rfl (by decide) (numbers [id])
  | cl src op key value =>
    refine @framed_snprintf _ (format "CL %u %s %s %s".toList) _ rfl (by decide) ?_
    simp only [List.mem_cons, reduceCtorEq, Arg.s.injEq, false_or, List.not_mem_nil, or_false]
    rintro t (rfl | rfl | rfl)
    · exact newline_opName op
    · exact h.1
    · exact newline_shown h.2

/-- A line without a newline in its texts leads to one handler call at most. -/
theorem Line.Unbroken.handlers_eq {line : Line} (h : line.Unbroken) :
    line.handlers = line.handler.toList := by
  have hle := h.framed_le
  rw [handlers, handler, received]
  rcases hlines : framed line.wire with _ | ⟨first, _ | ⟨second, rest⟩⟩
  · rfl
  · rw [List.head?_cons, Option.bind_some, List.filterMap_cons, List.filterMap_nil]
    cases raftHandleLine first <;> rfl
  · rw [hlines] at hle
    simp only [List.length_cons] at hle
    omega

theorem Line.Unbroken.handlers_singleton {line : Line} {sec : Section} (h : line.Unbroken)
    (parsed : line.handler = some sec) : line.handlers = [sec] := by
  rw [h.handlers_eq, parsed, Option.toList_some]

theorem Line.Unbroken.handler_eq {line : Line} {m : ℕ} {sec : Section} (h : line.Unbroken)
    (parsed : line.handlers[m]? = some sec) :
    line.handler = some sec ∧ line.handlers.eraseIdx m = [] := by
  rw [h.handlers_eq] at parsed ⊢
  cases hsec : line.handler with
  | none =>
    rw [hsec] at parsed
    cases parsed
  | some sec' =>
    rw [hsec, Option.toList_some, List.getElem?_singleton] at parsed
    split at parsed
    · rename_i hm
      rw [hm]
      exact ⟨parsed, rfl⟩
    · cases parsed

/-- The texts that a handler call gets were read by `sscanf`, and no newline stands in them. -/
theorem unbroken_of_raftHandleLine {line : Text} {sec : Section}
    (h : raftHandleLine line = some sec) : sec.Unbroken := by
  obtain ⟨_, fmt, args, -, hargs, call⟩ := handlerCall h
  have read : ∀ text, .s text ∈ args → 10 ∉ text := fun text ht hc => by
    rw [← hargs] at ht
    exact absurd (solid_of_mem_sscanf ht 10 hc) (by decide)
  have unplaced : ∀ {text : Text}, 10 ∉ text → 10 ∉ if text = bytes "-" then [] else text := by
    intro text htext
    split
    · exact List.not_mem_nil
    · exact htext
  cases call with
  | rv | rvr | aer | leave => trivial
  | ae t id a b c d index entryTerm opText key value =>
    exact ⟨fun hc => unplaced (read key (by simp)) (List.mem_of_mem_take hc),
      fun hc => unplaced (read value (by simp)) (List.mem_of_mem_take hc)⟩
  | join id a host | peer id a host => exact read host (by simp)
  | clKey id opText key => exact ⟨read key (by simp), List.not_mem_nil⟩
  | cl id opText key value => exact ⟨read key (by simp), unplaced (read value (by simp))⟩

theorem unbroken_of_handler {line : Line} {sec : Section} (h : line.handler = some sec) :
    sec.Unbroken := by
  obtain ⟨text, -, hsec⟩ := Option.bind_eq_some_iff.mp h
  exact unbroken_of_raftHandleLine hsec

end RaftKv
