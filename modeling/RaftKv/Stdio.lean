import Mathlib.Data.List.DropRight
import Mathlib.Data.Nat.Digits.Lemmas
import Mathlib.Tactic.IntervalCases
import Mathlib.Tactic.Ring

/-! The part of C's `stdio` and `ctype` that line protocols use: `snprintf` and `sscanf` for `%u`,
`%d` and `%s` in the "C" locale, over texts as lists of the bytes before the terminating NUL. -/

namespace Stdio

abbrev Text := List UInt8

/-- The bytes of a literal. -/
def bytes (s : String) : Text := s.toList.map fun c => UInt8.ofNat c.toNat

def isspace (c : UInt8) : Bool := c == 32 || (9 ≤ c && c ≤ 13)

def isdigit (c : UInt8) : Bool := 48 ≤ c && c ≤ 57

inductive Directive
  | lit (c : UInt8)
  | u
  /-- with the maximal width, when the format gives one -/
  | s (width : Option ℕ)
  deriving DecidableEq

/-- The directives of a format.  `%d` is used for nonnegative values only and reads as `%u`. -/
def format : List Char → List Directive
  | '%' :: 'u' :: r | '%' :: 'd' :: r => .u :: format r
  | '%' :: 's' :: r => .s none :: format r
  | '%' :: a :: 's' :: r => .s (some (a.toNat - 48)) :: format r
  | '%' :: a :: b :: 's' :: r => .s (some (10 * (a.toNat - 48) + (b.toNat - 48))) :: format r
  | '%' :: a :: b :: c :: 's' :: r =>
    .s (some (100 * (a.toNat - 48) + 10 * (b.toNat - 48) + (c.toNat - 48))) :: format r
  | c :: r => .lit (UInt8.ofNat c.toNat) :: format r
  | [] => []

inductive Arg
  | u (n : ℕ)
  | s (t : Text)
  deriving DecidableEq

/-- The decimal digits of `n`, as `%u` prints them. -/
def decimal (n : ℕ) : Text :=
  if n = 0 then [48] else (Nat.digits 10 n).reverse.map fun d => UInt8.ofNat (48 + d)

def printf : List Directive → List Arg → Text
  | .lit c :: fmt, args => c :: printf fmt args
  | .u :: fmt, .u n :: args => decimal n ++ printf fmt args
  | .s _ :: fmt, .s t :: args => t ++ printf fmt args
  | _, _ => []

/-- `snprintf` into `size` bytes, the last of which is for the NUL. -/
def snprintf (size : ℕ) (fmt : String) (args : List Arg) : Text :=
  (printf (format fmt.toList) args).take (size - 1)

def decimalValue (ds : Text) : ℕ := ds.foldl (fun v c => 10 * v + (c.toNat - 48)) 0

/-- `strtoul` of the digits `ds`, which saturates and negates in 64 bits, stored in 32 bits. -/
def strtoul (negative : Bool) (ds : Text) : ℕ :=
  let v := decimalValue ds
  (if 2 ^ 64 ≤ v then 2 ^ 64 - 1 else if negative then (2 ^ 64 - v) % 2 ^ 64 else v) % 2 ^ 32

/-- The sign that `%u` accepts before the digits, and the text after it. -/
def scanSign : Text → Bool × Text
  | 45 :: t => (true, t)
  | 43 :: t => (false, t)
  | t => (false, t)

/-- `%u`: the value and the text after it. -/
def scanUnsigned (t : Text) : Option (ℕ × Text) :=
  let (negative, t) := scanSign (t.dropWhile isspace)
  if t.takeWhile isdigit = [] then none
  else some (strtoul negative (t.takeWhile isdigit), t.dropWhile isdigit)

/-- `%s`: the token and the text after it. -/
def scanString (width : Option ℕ) (t : Text) : Option (Text × Text) :=
  let t := t.dropWhile isspace
  let whole := t.takeWhile fun c => !isspace c
  let token := width.elim whole whole.take
  if token = [] then none else some (token, t.drop token.length)

/-- `%[^c]`, where `c` is `stop`: a text that is not empty, and the text after it. -/
def scanUntil (width : ℕ) (stop : UInt8) (t : Text) : Option (Text × Text) :=
  let token := (t.takeWhile fun c => c ≠ stop).take width
  if token = [] then none else some (token, t.drop token.length)

/-- A byte of the format that is no white space: the text after it. -/
def scanByte (c : UInt8) : Text → Option Text
  | x :: t => if x = c then some t else none
  | [] => none

/-- `strtoul(t, NULL, 10)`, stored in 32 bits; 0 when there is no number. -/
def strtoulText (t : Text) : ℕ :=
  let (negative, t) := scanSign (t.dropWhile isspace)
  strtoul negative (t.takeWhile isdigit)

/-- The values that `sscanf` stores, in order, up to the first directive that fails. -/
def sscanf : List Directive → Text → List Arg
  | [], _ => []
  | .lit c :: fmt, t =>
    if isspace c then sscanf fmt (t.dropWhile isspace)
    else match t with
      | x :: t => if x = c then sscanf fmt t else []
      | [] => []
  | .u :: fmt, t =>
    match scanUnsigned t with
    | some (n, t) => .u n :: sscanf fmt t
    | none => []
  | .s width :: fmt, t =>
    match scanString width t with
    | some (token, t) => .s token :: sscanf fmt t
    | none => []

example : sscanf (format "AB %u %3s".toList) (bytes "AB  -1\tabcd") =
    [.u 4294967295, .s (bytes "abc")] := by decide

/-- A number that `%u` stores fits in 32 bits. -/
theorem lt_of_mem_sscanf {fmt : List Directive} {t : Text} {n : ℕ} (h : .u n ∈ sscanf fmt t) :
    n < 2 ^ 32 := by
  induction fmt generalizing t with
  | nil => cases h
  | cons d fmt ih =>
    cases d with
    | lit c =>
      unfold sscanf at h
      split at h
      · exact ih h
      · split at h
        · split at h
          · exact ih h
          · cases h
        · cases h
    | u =>
      rw [sscanf] at h
      split at h
      · rename_i m t' hscan
        rcases List.mem_cons.mp h with heq | h
        · obtain rfl := Arg.u.inj heq
          unfold scanUnsigned at hscan
          dsimp only at hscan
          split at hscan
          · cases hscan
          · rw [← (Prod.mk.inj (Option.some.inj hscan)).1, strtoul]
            exact Nat.mod_lt _ (by norm_num)
        · exact ih h
      · cases h
    | s width =>
      rw [sscanf] at h
      split at h
      · rcases List.mem_cons.mp h with heq | h
        · cases heq
        · exact ih h
      · cases h

theorem solid_of_scanString {width : Option ℕ} {t token rest : Text}
    (h : scanString width t = some (token, rest)) : ∀ c ∈ token, isspace c = false := by
  unfold scanString at h
  dsimp only at h
  split at h
  · cases h
  · rw [← (Prod.mk.inj (Option.some.inj h)).1]
    intro c hc
    have hwhole : c ∈ (t.dropWhile isspace).takeWhile fun c => !isspace c := by
      cases width with
      | none => exact hc
      | some width => exact List.mem_of_mem_take hc
    simpa using List.mem_takeWhile_imp hwhole

/-- A text that `%s` stores has no white space in it. -/
theorem solid_of_mem_sscanf {fmt : List Directive} {t text : Text} (h : .s text ∈ sscanf fmt t) :
    ∀ c ∈ text, isspace c = false := by
  induction fmt generalizing t with
  | nil => cases h
  | cons d fmt ih =>
    cases d with
    | lit c =>
      unfold sscanf at h
      split at h
      · exact ih h
      · split at h
        · split at h
          · exact ih h
          · cases h
        · cases h
    | u =>
      rw [sscanf] at h
      split at h
      · rcases List.mem_cons.mp h with heq | h
        · cases heq
        · exact ih h
      · cases h
    | s width =>
      rw [sscanf] at h
      split at h
      · rename_i token t' hscan
        rcases List.mem_cons.mp h with heq | h
        · obtain rfl := Arg.s.inj heq
          exact solid_of_scanString hscan
        · exact ih h
      · cases h

/-! ### Decimal fields -/

theorem digit_byte {d : ℕ} (h : d < 10) :
    isdigit (UInt8.ofNat (48 + d)) = true ∧ (UInt8.ofNat (48 + d)).toNat - 48 = d := by
  interval_cases d <;> decide

theorem isdigit_decimal {n : ℕ} {c : UInt8} (h : c ∈ decimal n) : isdigit c = true := by
  unfold decimal at h
  split at h
  · obtain rfl : c = 48 := by simpa using h
    decide
  · simp only [List.mem_map, List.mem_reverse] at h
    obtain ⟨d, hd, rfl⟩ := h
    exact (digit_byte (Nat.digits_lt_base (by norm_num) hd)).1

theorem not_isspace_of_isdigit {c : UInt8} (h : isdigit c = true) : isspace c = false := by
  simp only [isdigit, isspace, Bool.and_eq_true, decide_eq_true_eq, Bool.or_eq_false_iff,
    Bool.and_eq_false_iff, decide_eq_false_iff_not, beq_eq_false_iff_ne, UInt8.le_iff_toNat_le,
    ne_eq, ← UInt8.toNat_inj] at h ⊢
  simp only [UInt8.reduceToNat] at h ⊢
  omega

theorem decimal_ne_nil (n : ℕ) : decimal n ≠ [] := by
  unfold decimal
  split
  · simp
  · rename_i h
    simpa [Nat.digits_ne_nil_iff_ne_zero] using h

theorem decimalValue_decimal (n : ℕ) : decimalValue (decimal n) = n := by
  unfold decimalValue decimal
  split
  · rename_i h
    rw [h]
    decide
  · rw [List.foldl_map, List.foldl_reverse]
    conv_rhs => rw [← Nat.ofDigits_digits 10 n, Nat.ofDigits_eq_foldr]
    have hd : ∀ d ∈ Nat.digits 10 n, d < 10 := fun d => Nat.digits_lt_base (by norm_num)
    generalize Nat.digits 10 n = ds at hd
    induction ds with
    | nil => rfl
    | cons d ds ih =>
      rw [List.foldr_cons, List.foldr_cons, ih fun x hx => hd x (List.mem_cons_of_mem _ hx),
        (digit_byte (hd d List.mem_cons_self)).2]
      push_cast
      ring

theorem length_decimal_le {n k : ℕ} (h : n < 10 ^ (k + 1)) : (decimal n).length ≤ k + 1 := by
  unfold decimal
  split
  · simp
  · simpa using (Nat.digits_length_le_iff (by norm_num) n).mpr h

/-- Decimal fields, each after a blank. -/
def fields (ns : List ℕ) : Text := ns.flatMap fun n => 32 :: decimal n

@[simp] theorem fields_nil : fields [] = [] := rfl

@[simp] theorem fields_cons (n : ℕ) (ns : List ℕ) :
    fields (n :: ns) = 32 :: (decimal n ++ fields ns) := by
  simp [fields]

theorem length_fields_le {ns : List ℕ} (h : ∀ n ∈ ns, n < 2 ^ 32) :
    (fields ns).length ≤ 11 * ns.length := by
  induction ns with
  | nil => simp
  | cons n ns ih =>
    have h1 := ih fun m hm => h m (List.mem_cons_of_mem _ hm)
    have h2 : (decimal n).length ≤ 9 + 1 :=
      length_decimal_le ((h n List.mem_cons_self).trans (by norm_num))
    simp only [fields_cons, List.length_cons, List.length_append]
    omega

/-- What may follow a decimal field: nothing, or no digit. -/
def Stops (rest : Text) : Prop := ∀ c ∈ rest.head?, isdigit c = false

theorem stops_fields {ns : List ℕ} {rest : Text} (h : Stops rest) : Stops (fields ns ++ rest) := by
  cases ns with
  | nil => simpa using h
  | cons n ns =>
    intro c hc
    obtain rfl : c = 32 := by simpa using hc.symm
    decide

theorem takeWhile_decimal {n : ℕ} {rest : Text} (h : Stops rest) :
    (decimal n ++ rest).takeWhile isdigit = decimal n ∧
      (decimal n ++ rest).dropWhile isdigit = rest := by
  have hall : ∀ c ∈ decimal n, isdigit c = true := fun c => isdigit_decimal
  have hrest : rest.takeWhile isdigit = [] ∧ rest.dropWhile isdigit = rest := by
    cases rest with
    | nil => exact ⟨rfl, rfl⟩
    | cons c rest => simp [h c (by simp)]
  rw [List.takeWhile_append_of_pos hall, List.dropWhile_append_of_pos hall, hrest.1, hrest.2]
  simp

theorem scanUnsigned_decimal {n : ℕ} {rest : Text} (hn : n < 2 ^ 32) (h : Stops rest) :
    scanUnsigned (32 :: (decimal n ++ rest)) = some (n, rest) := by
  obtain ⟨c, ds, hc⟩ := List.exists_cons_of_ne_nil (decimal_ne_nil n)
  have hdigit : isdigit c = true := isdigit_decimal (hc ▸ List.mem_cons_self)
  have hskip : (32 :: (decimal n ++ rest)).dropWhile isspace = decimal n ++ rest := by
    rw [List.dropWhile_cons_of_pos (by decide), hc, List.cons_append,
      List.dropWhile_cons_of_neg (by simp [not_isspace_of_isdigit hdigit])]
  have hsign : scanSign (decimal n ++ rest) = (false, decimal n ++ rest) := by
    rw [hc, List.cons_append]
    unfold scanSign
    split
    · rename_i heq
      rw [(List.cons.inj heq).1] at hdigit
      exact absurd hdigit (by decide)
    · rename_i heq
      rw [(List.cons.inj heq).1] at hdigit
      exact absurd hdigit (by decide)
    · rfl
  obtain ⟨htake, hdrop⟩ := takeWhile_decimal (n := n) h
  simp only [scanUnsigned, hskip, hsign, htake, hdrop, decimal_ne_nil, if_false]
  rw [strtoul, decimalValue_decimal]
  simp only [Bool.false_eq_true, if_false]
  rw [if_neg (by omega), Nat.mod_eq_of_lt hn]

/-- The directives that read `k` decimal fields. -/
def fieldDirectives : ℕ → List Directive
  | 0 => []
  | k + 1 => .lit 32 :: .u :: fieldDirectives k

theorem sscanf_blank {fmt : List Directive} {t : Text} :
    sscanf (.lit 32 :: fmt) (32 :: t) = sscanf fmt (t.dropWhile isspace) := by
  simp [sscanf, show isspace 32 = true by decide, List.dropWhile_cons_of_pos]

theorem sscanf_skip_u {fmt : List Directive} {t : Text} :
    sscanf (.u :: fmt) (t.dropWhile isspace) = sscanf (.u :: fmt) (32 :: t) := by
  simp [sscanf, scanUnsigned, show isspace 32 = true by decide, List.dropWhile_cons_of_pos,
    List.dropWhile_idempotent]

theorem sscanf_fields {ns : List ℕ} {fmt : List Directive} {rest : Text}
    (hn : ∀ n ∈ ns, n < 2 ^ 32) (h : Stops rest) :
    sscanf (fieldDirectives ns.length ++ fmt) (fields ns ++ rest) =
      ns.map .u ++ sscanf fmt rest := by
  induction ns with
  | nil => rfl
  | cons n ns ih =>
    have hstop : Stops (fields ns ++ rest) := stops_fields h
    have hscan := scanUnsigned_decimal (hn n List.mem_cons_self) hstop
    rw [fields_cons, List.length_cons, fieldDirectives, List.cons_append, List.cons_append,
      List.cons_append, List.append_assoc, sscanf_blank, sscanf_skip_u, sscanf, hscan]
    simp only [List.map_cons, List.cons_append]
    rw [ih fun m hm => hn m (List.mem_cons_of_mem _ hm)]

/-- Reading past literal bytes that are not white space. -/
theorem sscanf_lits {tag : Text} {fmt : List Directive} {t : Text}
    (h : ∀ c ∈ tag, isspace c = false) :
    sscanf (tag.map .lit ++ fmt) (tag ++ t) = sscanf fmt t := by
  induction tag with
  | nil => rfl
  | cons c tag ih =>
    simp [sscanf, h c List.mem_cons_self, ih fun x hx => h x (List.mem_cons_of_mem _ hx)]

/-- A token: not empty, no white space, and within the width. -/
structure IsToken (width : ℕ) (t : Text) : Prop where
  ne_nil : t ≠ []
  solid : ∀ c ∈ t, isspace c = false
  fits : t.length ≤ width

theorem scanString_token {width : ℕ} {t rest : Text} (h : IsToken width t)
    (hrest : ∀ c ∈ rest.head?, isspace c = true) :
    scanString (some width) (t ++ rest) = some (t, rest) := by
  obtain ⟨c, cs, rfl⟩ := List.exists_cons_of_ne_nil h.ne_nil
  have hskip : (c :: cs ++ rest).dropWhile isspace = c :: cs ++ rest := by
    rw [List.cons_append, List.dropWhile_cons_of_neg (by simp [h.solid c List.mem_cons_self])]
  have hwhole : (c :: cs ++ rest).takeWhile (fun c => !isspace c) = c :: cs := by
    rw [List.takeWhile_append_of_pos fun x hx => by simp [h.solid x hx]]
    cases rest with
    | nil => simp
    | cons x rest => simp [hrest x (by simp)]
  simp only [scanString, hskip, hwhole, Option.elim_some]
  rw [List.take_of_length_le h.fits]
  simp

theorem sscanf_token {width : ℕ} {t rest : Text} {fmt : List Directive} (h : IsToken width t)
    (hrest : ∀ c ∈ rest.head?, isspace c = true) :
    sscanf (.lit 32 :: .s (some width) :: fmt) (32 :: (t ++ rest)) =
      .s t :: sscanf fmt rest := by
  obtain ⟨c, cs, rfl⟩ := List.exists_cons_of_ne_nil h.ne_nil
  rw [sscanf_blank, List.cons_append,
    List.dropWhile_cons_of_neg (by simp [h.solid c List.mem_cons_self]), ← List.cons_append,
    sscanf, scanString_token h hrest]

theorem sscanf_token_first {width : ℕ} {t rest : Text} {fmt : List Directive}
    (h : IsToken width t) (hrest : ∀ c ∈ rest.head?, isspace c = true) :
    sscanf (.s (some width) :: fmt) (t ++ rest) = .s t :: sscanf fmt rest := by
  rw [sscanf, scanString_token h hrest]

/-! ### Signed numbers and lines of input -/

/-- What `%d` prints. -/
def signed (z : ℤ) : Text := if z < 0 then 45 :: decimal z.natAbs else decimal z.natAbs

/-- `fgets` into `size` bytes: what it stores, which ends with the first newline or when the array
is full, and the input after it; `none` at the end of the input. -/
def fgets (size : ℕ) (input : Text) : Option (Text × Text) :=
  if input = [] then none
  else
    let stored := (input.take (size - 1)).take ((input.takeWhile fun c => c ≠ 10).length + 1)
    some (stored, input.drop stored.length)

example : fgets 4 (bytes "ab\ncde") = some (bytes "ab\n", bytes "cde") := by decide

theorem fgets_eq_none {size : ℕ} {input : Text} : fgets size input = none ↔ input = [] := by
  unfold fgets
  split
  · simp [*]
  · simp [*]

/-- Something is read when the array has room for it. -/
theorem length_fgets {size : ℕ} {input stored rest : Text} (room : 2 ≤ size)
    (h : fgets size input = some (stored, rest)) : rest.length < input.length := by
  unfold fgets at h
  split at h
  · cases h
  · rename_i hne
    have hpos := List.length_pos_iff.mpr hne
    obtain ⟨rfl, rfl⟩ := Prod.mk.inj (Option.some.inj h)
    simp only [List.length_drop, List.length_take]
    omega

/-- A line that fits is read whole. -/
theorem fgets_line {size : ℕ} {line : Text} (rest : Text) (hline : ∀ c ∈ line, c ≠ 10)
    (fits : line.length + 1 < size) :
    fgets size (line ++ 10 :: rest) = some (line ++ [10], rest) := by
  have hfirst : (line ++ 10 :: rest).takeWhile (fun c => c ≠ 10) = line := by
    rw [List.takeWhile_append_of_pos fun c hc => by simpa using hline c hc]
    simp
  have hstored : ((line ++ 10 :: rest).take (size - 1)).take (line.length + 1) = line ++ [10] := by
    rw [List.take_take, Nat.min_eq_left (by omega), List.take_length_add_append]
    rfl
  have hne : line ++ 10 :: rest ≠ [] := by simp
  simp only [fgets, if_neg hne, hfirst, hstored, Option.some.injEq, Prod.mk.injEq, true_and]
  rw [List.length_append, List.length_singleton, List.drop_length_add_append]
  rfl

end Stdio
