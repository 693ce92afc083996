import RaftKv.Codec
import RaftKv.Words

/-! `parse_kv_command` against the grammar of the command line: what it accepts follows from the
words of the line alone. -/

namespace RaftKv

open Stdio

/-- What the pointers `op`, `key` and `value` of `parse_kv_command` point at. -/
structure ParsedCommand where
  op : KvOp
  key : Text
  value : Text
  deriving DecidableEq

/-- The text that an argument of `sscanf` points at, when nothing was stored in its zeroed array. -/
def storedText : Option Arg → Text
  | some (.s t) => t
  | _ => []

/-- `parse_kv_command`: its result, and what its pointers point at afterwards. -/
def parseKvCommand (line : Option Text) (out : ParsedCommand) : ℤ × ParsedCommand :=
  match line with
  | none => (-1, out)
  | some line =>
    let stored := sscanf (format "%15s %63s %255s".toList) line
    let fields := stored.length
    let command := storedText stored[0]?
    let localKey := storedText stored[1]?
    let localValue := storedText stored[2]?
    if 1 ≤ fields ∧ command = bytes "set" then
      if fields ≠ 3 ∨ !isValidToken localKey raftMaxKey ∨ !isValidToken localValue raftMaxValue then
        (-2, out)
      else (0, ⟨.set, copyText raftMaxKey localKey, copyText raftMaxValue localValue⟩)
    else if 1 ≤ fields ∧ command = bytes "del" then
      if fields ≠ 2 ∨ !isValidToken localKey raftMaxKey then (-2, out)
      else (0, ⟨.del, copyText raftMaxKey localKey, []⟩)
    else if 1 ≤ fields ∧ command = bytes "get" then
      if fields ≠ 2 ∨ !isValidToken localKey raftMaxKey then (-2, out)
      else (0, ⟨.none, copyText raftMaxKey localKey, []⟩)
    else (-3, out)

/-- The command lines, as lists of words, and what they stand for. -/
inductive Grammar : List Text → ParsedCommand → Prop
  | set {key value : Text} (hkey : 1 ≤ key.length ∧ key.length ≤ 63)
      (hvalue : 1 ≤ value.length ∧ value.length ≤ 255) :
      Grammar [bytes "set", key, value] ⟨.set, key, value⟩
  | del {key : Text} (hkey : 1 ≤ key.length ∧ key.length ≤ 63) :
      Grammar [bytes "del", key] ⟨.del, key, []⟩
  | get {key : Text} (hkey : 1 ≤ key.length ∧ key.length ≤ 63) :
      Grammar [bytes "get", key] ⟨.none, key, []⟩

/-- A NULL line has no words. -/
def lineWords (line : Option Text) : List Text := line.elim [] words

/-- `parse_kv_command` accepts the line as its grammar says, and else leaves everything as it is. -/
structure ParsesExactly (line : Option Text) (out : ParsedCommand) : Prop where
  accepts : (parseKvCommand line out).1 = 0 ↔ ∃ c, Grammar (lineWords line) c
  result : (parseKvCommand line out).1 = 0 →
    Grammar (lineWords line) (parseKvCommand line out).2
  refuses : (parseKvCommand line out).1 ≠ 0 →
    (parseKvCommand line out).1 < 0 ∧ (parseKvCommand line out).2 = out

variable {line : Text} {out : ParsedCommand}

/-! ### What `sscanf` finds -/

/-- The texts that `sscanf` stores of a line. -/
def found (line : Text) : List Text := scanWords [15, 63, 255] (words line)

theorem sscanf_found (line : Text) :
    sscanf (format "%15s %63s %255s".toList) line = (found line).map .s :=
  @sscanf_words_first 15 [63, 255] (by simp) line

theorem storedText_found (i : ℕ) :
    storedText ((found line).map Arg.s)[i]? = (found line)[i]?.getD [] := by
  rw [List.getElem?_map]
  cases (found line)[i]? <;> rfl

theorem isValidToken_of_isToken {text : Text} {m : ℕ} (h : IsToken m text) :
    isValidToken text (m + 1) = true := by
  have hlt := h.fits
  simp only [isValidToken, ne_eq, Bool.and_eq_true, decide_eq_true_eq, List.all_eq_true,
    Bool.not_eq_true']
  exact ⟨⟨by simpa using h.ne_nil, by omega⟩, h.solid⟩

/-- The token tests of `parse_kv_command` never fail on what `sscanf` has stored. -/
theorem found_isToken {i : ℕ} {t : Text} (h : (found line)[i]? = some t) :
    ∃ width, [15, 63, 255][i]? = some width ∧ IsToken width t :=
  scanWords_isToken (by simp) (fun _ hw => isToken_of_mem_words hw) h

/-- The arguments of a command: none, a key that fits alone or with more behind it, or a key that is
cut. -/
inductive Arguments : List Text → List Text → Prop
  | none : Arguments [] []
  | key {key : Text} (fits : key.length ≤ 63) : Arguments [key] [key]
  | value {key value : Text} (more : List Text) (fits : key.length ≤ 63) :
      Arguments (key :: value :: more) [key, value.take 255]
  | cut {key : Text} (more : List Text) (long : 63 < key.length) :
      Arguments (key :: more) [key.take 63, (key.drop 63).take 255]

theorem arguments (args : List Text) : Arguments args (scanWords [63, 255] args) := by
  cases args with
  | nil => exact .none
  | cons key rest =>
    rcases le_or_gt key.length 63 with fits | long
    · rw [scanWords, if_pos fits, List.take_of_length_le fits]
      cases rest with
      | nil => exact .key fits
      | cons value more => exact .value more fits
    · rw [scanWords, if_neg (not_le.mpr long)]
      exact .cut rest long

theorem found_of_words {tag : Text} {args : List Text} (hshort : tag.length ≤ 15)
    (hw : words line = tag :: args) : found line = tag :: scanWords [63, 255] args := by
  rw [found, hw, scanWords, if_pos hshort, List.take_of_length_le hshort]

/-- A first word that is too long for its array is none of the commands. -/
theorem words_of_found {tag : Text} (hshort : tag.length < 15) (h : (found line)[0]? = some tag) :
    ∃ args, words line = tag :: args := by
  rw [found] at h
  cases hw : words line with
  | nil => simp [hw, scanWords] at h
  | cons a args =>
    obtain rfl : a.take 15 = tag := by simpa [hw, scanWords] using h
    rw [List.length_take] at hshort
    exact ⟨args, by rw [List.take_of_length_le (by omega)]⟩

/-! ### What the parser makes of it -/

/-- `parse_kv_command` decides by the number of texts: the token tests never fail. -/
theorem parseKvCommand_found : parseKvCommand (some line) out =
    if (found line)[0]? = some (bytes "set") then
      match (found line).tail with
      | [key, value] => (0, ⟨.set, key, value⟩)
      | _ => (-2, out)
    else if (found line)[0]? = some (bytes "del") then
      match (found line).tail with
      | [key] => (0, ⟨.del, key, []⟩)
      | _ => (-2, out)
    else if (found line)[0]? = some (bytes "get") then
      match (found line).tail with
      | [key] => (0, ⟨.none, key, []⟩)
      | _ => (-2, out)
    else (-3, out) := by
  have hkey : ∀ {key}, (found line)[1]? = some key →
      isValidToken key raftMaxKey = true ∧ copyText raftMaxKey key = key := by
    intro key h
    obtain ⟨_, hwidth, htoken⟩ := found_isToken h
    obtain rfl := Option.some.inj hwidth
    exact ⟨isValidToken_of_isToken htoken, copyText_of_isToken htoken⟩
  have hvalue : ∀ {value}, (found line)[2]? = some value →
      isValidToken value raftMaxValue = true ∧ copyText raftMaxValue value = value := by
    intro value h
    obtain ⟨_, hwidth, htoken⟩ := found_isToken h
    obtain rfl := Option.some.inj hwidth
    exact ⟨isValidToken_of_isToken htoken, copyText_of_isToken htoken⟩
  have hlast : (found line)[3]? = none := by
    by_contra h
    obtain ⟨t, ht⟩ := Option.ne_none_iff_exists'.mp h
    obtain ⟨_, hwidth, -⟩ := found_isToken ht
    cases hwidth
  simp only [parseKvCommand, sscanf_found, storedText_found, List.length_map]
  match h : found line with
  | [] => simp
  | [command] => simp
  | [command, key] =>
    obtain ⟨valid, copied⟩ := @hkey key (by rw [h]; rfl)
    simp [valid, copied]
  | [command, key, value] =>
    obtain ⟨valid, copied⟩ := @hkey key (by rw [h]; rfl)
    obtain ⟨valid', copied'⟩ := @hvalue value (by rw [h]; rfl)
    simp [valid, copied, valid', copied']
  | _ :: _ :: _ :: _ :: _ => simp [h] at hlast

/-! ### Where the parser and the grammar agree -/

theorem ParsesExactly.of_accepted {c : ParsedCommand}
    (hparse : parseKvCommand (some line) out = (0, c)) (hc : Grammar (words line) c) :
    ParsesExactly (some line) out where
  accepts := by simpa [hparse] using ⟨c, hc⟩
  result _ := by rw [hparse]; exact hc
  refuses h := absurd (by rw [hparse]) h

theorem ParsesExactly.of_refused {r : ℤ} (hparse : parseKvCommand (some line) out = (r, out))
    (hr : r < 0) (hno : ∀ c, ¬Grammar (words line) c) : ParsesExactly (some line) out where
  accepts := by
    rw [hparse]
    exact iff_of_false hr.ne fun ⟨c, hc⟩ => hno c hc
  result h := absurd (by rwa [hparse] at h) hr.ne
  refuses _ := by rw [hparse]; exact ⟨hr, rfl⟩

theorem length_of_words {ws : List Text} {w : Text} (hw : words line = ws) (h : w ∈ ws) :
    1 ≤ w.length :=
  List.length_pos_iff.mpr (isToken_of_mem_words (hw ▸ h)).ne_nil

/-- `del` and `get` take their one argument whole or not at all. -/
theorem parsesExactly_key {tag : Text} {args : List Text} {op : KvOp}
    (hw : words line = tag :: args)
    (hparse : parseKvCommand (some line) out = match scanWords [63, 255] args with
      | [key] => (0, ⟨op, key, []⟩)
      | _ => (-2, out))
    (hgrammar : ∀ ws c, Grammar (tag :: ws) c ↔
      ∃ key, ws = [key] ∧ c = ⟨op, key, []⟩ ∧ 1 ≤ key.length ∧ key.length ≤ 63) :
    ParsesExactly (some line) out := by
  have harg := arguments args
  generalize scanWords [63, 255] args = s at hparse harg
  cases harg with
  | none =>
    refine .of_refused hparse (by norm_num) fun c hc => ?_
    rw [hw, hgrammar] at hc
    obtain ⟨_, h, -⟩ := hc
    exact absurd h (List.cons_ne_nil _ _).symm
  | @key key fits =>
    refine .of_accepted hparse ?_
    rw [hw, hgrammar]
    exact ⟨key, rfl, rfl, length_of_words hw (by simp), fits⟩
  | @value key value more fits =>
    refine .of_refused hparse (by norm_num) fun c hc => ?_
    rw [hw, hgrammar] at hc
    obtain ⟨_, h, -⟩ := hc
    exact absurd (List.cons.inj h).2 (List.cons_ne_nil _ _)
  | @cut key more long =>
    refine .of_refused hparse (by norm_num) fun c hc => ?_
    rw [hw, hgrammar] at hc
    obtain ⟨_, h, -, -, hfits⟩ := hc
    obtain rfl := (List.cons.inj h).1
    omega

/-- The words after `set` that the parser takes as the grammar does. -/
def SetFits (args : List Text) : Prop :=
  ∀ key rest, args = key :: rest → key.length ≤ 63 ∧
    (rest = [] ∨ ∃ value, rest = [value] ∧ value.length ≤ 255)

theorem grammar_set {args : List Text} {c : ParsedCommand} :
    Grammar (bytes "set" :: args) c ↔ ∃ key value, args = [key, value] ∧ c = ⟨.set, key, value⟩ ∧
      (1 ≤ key.length ∧ key.length ≤ 63) ∧ 1 ≤ value.length ∧ value.length ≤ 255 := by
  constructor
  · intro h
    generalize hws : bytes "set" :: args = ws at h
    cases h with
    | set hkey hvalue => exact ⟨_, _, (List.cons.inj hws).2, rfl, hkey, hvalue⟩
    | del => exact absurd (List.cons.inj hws).1 (by decide)
    | get => exact absurd (List.cons.inj hws).1 (by decide)
  · rintro ⟨key, value, rfl, rfl, hkey, hvalue⟩
    exact .set hkey hvalue

theorem grammar_del (args : List Text) (c : ParsedCommand) :
    Grammar (bytes "del" :: args) c ↔ ∃ key, args = [key] ∧ c = ⟨.del, key, []⟩ ∧
      1 ≤ key.length ∧ key.length ≤ 63 := by
  constructor
  · intro h
    generalize hws : bytes "del" :: args = ws at h
    cases h with
    | set => exact absurd (List.cons.inj hws).1 (by decide)
    | del hkey => exact ⟨_, (List.cons.inj hws).2, rfl, hkey⟩
    | get => exact absurd (List.cons.inj hws).1 (by decide)
  · rintro ⟨key, rfl, rfl, hkey⟩
    exact .del hkey

theorem grammar_get (args : List Text) (c : ParsedCommand) :
    Grammar (bytes "get" :: args) c ↔ ∃ key, args = [key] ∧ c = ⟨.none, key, []⟩ ∧
      1 ≤ key.length ∧ key.length ≤ 63 := by
  constructor
  · intro h
    generalize hws : bytes "get" :: args = ws at h
    cases h with
    | set => exact absurd (List.cons.inj hws).1 (by decide)
    | del => exact absurd (List.cons.inj hws).1 (by decide)
    | get hkey => exact ⟨_, (List.cons.inj hws).2, rfl, hkey⟩
  · rintro ⟨key, rfl, rfl, hkey⟩
    exact .get hkey

/-- `set` takes what fits its arrays, and otherwise goes on inside the word or drops the rest. -/
theorem parsesExactly_set {args : List Text} (hw : words line = bytes "set" :: args)
    (hparse : parseKvCommand (some line) out = match scanWords [63, 255] args with
      | [key, value] => (0, ⟨.set, key, value⟩)
      | _ => (-2, out)) : ParsesExactly (some line) out ↔ SetFits args := by
  have harg := arguments args
  generalize scanWords [63, 255] args = s at hparse harg
  cases harg with
  | none =>
    refine iff_of_true (.of_refused hparse (by norm_num) fun c hc => ?_) fun _ _ h =>
      absurd h (List.cons_ne_nil _ _).symm
    rw [hw, grammar_set] at hc
    obtain ⟨_, _, h, -⟩ := hc
    exact absurd h (List.cons_ne_nil _ _).symm
  | @key key fits =>
    refine iff_of_true (.of_refused hparse (by norm_num) fun c hc => ?_) fun _ _ h => ?_
    · rw [hw, grammar_set] at hc
      obtain ⟨_, _, h, -⟩ := hc
      exact absurd (List.cons.inj h).2 (List.cons_ne_nil _ _).symm
    · obtain ⟨rfl, rfl⟩ := List.cons.inj h
      exact ⟨fits, Or.inl rfl⟩
  | @value key value more fits =>
    constructor
    · intro h
      have hc := h.result (by rw [hparse])
      rw [hparse, lineWords, Option.elim_some, hw, grammar_set] at hc
      obtain ⟨key', value', hargs, hcommand, -, -, hle⟩ := hc
      rintro _ _ heq
      obtain ⟨rfl, rfl⟩ := List.cons.inj heq
      obtain ⟨rfl, hrest⟩ := List.cons.inj hargs
      exact ⟨fits, Or.inr ⟨value', hrest, hle⟩⟩
    · intro h
      obtain ⟨-, h | ⟨_, hrest, hle⟩⟩ := h _ _ rfl
      · exact absurd h (List.cons_ne_nil _ _)
      · obtain ⟨rfl, rfl⟩ := List.cons.inj hrest
        rw [List.take_of_length_le hle] at hparse
        refine .of_accepted hparse ?_
        rw [hw]
        exact .set ⟨length_of_words hw (by simp), fits⟩ ⟨length_of_words hw (by simp), hle⟩
  | @cut key more long =>
    refine iff_of_false (fun h => ?_) fun h => ?_
    · have hc := h.result (by rw [hparse])
      rw [hparse, lineWords, Option.elim_some, hw, grammar_set] at hc
      obtain ⟨key', _, hargs, -, ⟨-, hle⟩, -⟩ := hc
      obtain rfl := (List.cons.inj hargs).1
      omega
    · exact absurd (h _ _ rfl).1 (not_le.mpr long)

/-- The parser accepts exactly its grammar on a line if and only if the arguments of a `set` are
within their arrays and nothing follows them. -/
theorem parse_exact_iff (line : Option Text) (out : ParsedCommand) :
    ParsesExactly line out ↔ ∀ args, lineWords line = bytes "set" :: args → SetFits args := by
  cases line with
  | none =>
    refine iff_of_true ⟨iff_of_false (by simp [parseKvCommand]) ?_, fun h => ?_, fun _ => ?_⟩ ?_
    · rintro ⟨c, hc⟩
      cases hc
    · exact absurd h (by simp [parseKvCommand])
    · simp [parseKvCommand]
    · exact fun _ h => absurd h (List.cons_ne_nil _ _).symm
  | some line =>
    have hparse := @parseKvCommand_found line out
    simp only [lineWords, Option.elim_some]
    by_cases hset : (found line)[0]? = some (bytes "set")
    · obtain ⟨args, hw⟩ := words_of_found (by decide) hset
      rw [if_pos hset, found_of_words (by decide) hw] at hparse
      rw [parsesExactly_set hw hparse, hw]
      exact ⟨fun h _ heq => (List.cons.inj heq).2 ▸ h, fun h => h args rfl⟩
    · have hother : ∀ args, words line ≠ bytes "set" :: args := by
        intro args hw
        rw [found_of_words (by decide) hw] at hset
        exact hset rfl
      rw [if_neg hset] at hparse
      refine iff_of_true ?_ fun args hw => absurd hw (hother args)
      by_cases hdel : (found line)[0]? = some (bytes "del")
      · obtain ⟨args, hw⟩ := words_of_found (by decide) hdel
        rw [if_pos hdel, found_of_words (by decide) hw] at hparse
        exact parsesExactly_key hw hparse grammar_del
      rw [if_neg hdel] at hparse
      by_cases hget : (found line)[0]? = some (bytes "get")
      · obtain ⟨args, hw⟩ := words_of_found (by decide) hget
        rw [if_pos hget, found_of_words (by decide) hw] at hparse
        exact parsesExactly_key hw hparse grammar_get
      rw [if_neg hget] at hparse
      refine .of_refused hparse (by norm_num) fun c hc => ?_
      generalize hw : words line = ws at hc
      cases hc with
      | set => exact hother _ hw
      | del =>
        rw [found_of_words (by decide) hw] at hdel
        exact hdel rfl
      | get =>
        rw [found_of_words (by decide) hw] at hget
        exact hget rfl

/-- A word behind the value of a `set` is dropped. -/
theorem parse_trailing : ¬∀ line out, ParsesExactly line out := by
  intro h
  have hc := (h (some (bytes "set k v extra")) ⟨.none, [], []⟩).result (by decide +kernel)
  have hw : lineWords (some (bytes "set k v extra")) =
      [bytes "set", bytes "k", bytes "v", bytes "extra"] := by decide +kernel
  rw [hw] at hc
  cases hc

end RaftKv
