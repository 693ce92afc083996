import RaftKv.Stdio

/-! The words of a text, and what `%s` directives with maximal widths find of them: a word that is
longer than the width is cut, and the next directive goes on inside it. -/

namespace Stdio

/-- The maximal runs of bytes that are no white space. -/
def words (t : Text) : List Text := (t.splitOnP isspace).filter fun w => w ≠ []

/-- What directives with the given widths find, one after the other, when the words are `ws`. -/
def scanWords : List ℕ → List Text → List Text
  | w :: widths, a :: as =>
    a.take w :: scanWords widths (if a.length ≤ w then as else a.drop w :: as)
  | _, _ => []

/-- The format that reads one word for each width. -/
def wordDirectives (widths : List ℕ) : List Directive :=
  widths.flatMap fun w => [.lit 32, .s (some w)]

@[simp] theorem words_nil : words [] = [] := by simp [words, List.splitOnP_nil]

theorem words_cons_space {c : UInt8} (h : isspace c = true) (t : Text) :
    words (c :: t) = words t := by
  rw [words, List.splitOnP_cons_eq_if_modifyHead, if_pos h, List.filter_cons_of_neg (by simp),
    words]

theorem words_solid {w : Text} (hne : w ≠ []) (h : ∀ c ∈ w, isspace c = false) :
    words w = [w] := by
  rw [words, List.splitOnP_eq_singleton h, List.filter_cons_of_pos (by simpa using hne),
    List.filter_nil]

theorem words_solid_append {w t : Text} (hne : w ≠ []) (h : ∀ c ∈ w, isspace c = false)
    (ht : ∀ c ∈ t.head?, isspace c = true) : words (w ++ t) = w :: words t := by
  cases t with
  | nil => rw [List.append_nil, words_solid hne h, words_nil]
  | cons c t =>
    have hc : isspace c = true := ht c rfl
    rw [words_cons_space hc, words, List.splitOnP_append_cons_of_forall_mem h c hc,
      List.filter_cons_of_pos (by simpa using hne), words]

theorem words_dropWhile (t : Text) : words (t.dropWhile isspace) = words t := by
  induction t with
  | nil => rfl
  | cons c t ih =>
    cases hc : isspace c with
    | true => rw [List.dropWhile_cons_of_pos hc, ih, words_cons_space hc]
    | false => rw [List.dropWhile_cons_of_neg (by simp [hc])]

/-- A text starts with white space, and then with its first word, which white space or the end
follows. -/
theorem words_cases (t : Text) :
    (t.dropWhile isspace = [] ∧ words t = []) ∨
    ∃ w rest, t.dropWhile isspace = w ++ rest ∧ w ≠ [] ∧ (∀ c ∈ w, isspace c = false) ∧
      (∀ c ∈ rest.head?, isspace c = true) ∧ words t = w :: words rest := by
  have hwords := words_dropWhile t
  cases hs : t.dropWhile isspace with
  | nil => exact Or.inl ⟨rfl, by rw [← hwords, hs, words_nil]⟩
  | cons c s =>
    have hc : isspace c = false := by
      have h := List.head?_dropWhile_not isspace t
      simpa [hs] using h
    have hsolid : ∀ x ∈ (c :: s).takeWhile (fun c => !isspace c), isspace x = false := by
      intro x hx
      simpa using List.mem_takeWhile_imp hx
    have hrest : ∀ x ∈ ((c :: s).dropWhile fun c => !isspace c).head?, isspace x = true := by
      intro x hx
      have h := List.head?_dropWhile_not (fun c => !isspace c) (c :: s)
      rw [Option.mem_def.mp hx] at h
      simpa using h
    have hne : (c :: s).takeWhile (fun c => !isspace c) ≠ [] := by
      rw [List.takeWhile_cons_of_pos (by simp [hc])]
      exact List.cons_ne_nil _ _
    refine Or.inr ⟨_, _, List.takeWhile_append_dropWhile.symm, hne, hsolid, hrest, ?_⟩
    rw [← hwords, hs, ← words_solid_append hne hsolid hrest, List.takeWhile_append_dropWhile]

theorem isToken_of_mem_words {t w : Text} (h : w ∈ words t) : IsToken w.length w := by
  induction hws : words t generalizing t with
  | nil => exact absurd (hws ▸ h) List.not_mem_nil
  | cons a as ih =>
    rcases words_cases t with ⟨-, hnone⟩ | ⟨b, rest, -, hne, hsolid, -, hwords⟩
    · rw [hnone] at hws
      exact absurd hws (List.cons_ne_nil _ _).symm
    · rw [hwords] at h hws
      rcases List.mem_cons.mp h with rfl | hrest
      · exact ⟨hne, hsolid, le_rfl⟩
      · exact ih hrest (List.cons.inj hws).2

/-- What `%s` leaves for the next directive. -/
theorem words_drop {w rest : Text} (hsolid : ∀ c ∈ w, isspace c = false)
    (hrest : ∀ c ∈ rest.head?, isspace c = true) (width : ℕ) :
    words ((w ++ rest).drop (w.take width).length) =
      if w.length ≤ width then words rest else w.drop width :: words rest := by
  split
  · rename_i hle
    rw [List.take_of_length_le hle, List.drop_left]
  · rename_i hgt
    have hlt := not_le.mp hgt
    rw [List.length_take, min_eq_left hlt.le, List.drop_append_of_le_length hlt.le]
    exact words_solid_append (by simpa using hlt) (fun c hc => hsolid c (List.mem_of_mem_drop hc))
      hrest

theorem scanString_words {width : ℕ} (hpos : 0 < width) (t : Text) :
    (scanString (some width) t = none ∧ words t = []) ∨
    ∃ w ws rest, words t = w :: ws ∧ scanString (some width) t = some (w.take width, rest) ∧
      words rest = if w.length ≤ width then ws else w.drop width :: ws := by
  rcases words_cases t with ⟨hskip, hwords⟩ | ⟨w, rest, hskip, hne, hsolid, hrest, hwords⟩
  · exact Or.inl ⟨by simp [scanString, hskip], hwords⟩
  · have hwhole : (w ++ rest).takeWhile (fun c => !isspace c) = w := by
      rw [List.takeWhile_append_of_pos fun c hc => by simp [hsolid c hc]]
      cases rest with
      | nil => simp
      | cons c rest => simp [hrest c rfl]
    have htake : w.take width ≠ [] := by
      simp only [ne_eq, List.take_eq_nil_iff, not_or]
      exact ⟨hpos.ne', hne⟩
    refine Or.inr ⟨w, words rest, _, hwords, ?_, words_drop hsolid hrest width⟩
    simp only [scanString, hskip, hwhole, Option.elim_some, if_neg htake]

/-- What is found is a token within the width of its place. -/
theorem scanWords_isToken {widths : List ℕ} {ws : List Text} (hpos : ∀ w ∈ widths, 0 < w)
    (hws : ∀ w ∈ ws, IsToken w.length w) {i : ℕ} {t : Text}
    (h : (scanWords widths ws)[i]? = some t) :
    ∃ width, widths[i]? = some width ∧ IsToken width t := by
  induction widths generalizing ws i with
  | nil => simp [scanWords] at h
  | cons width widths ih =>
    cases ws with
    | nil => simp [scanWords] at h
    | cons a as =>
      have ha := hws a List.mem_cons_self
      cases i with
      | zero =>
        obtain rfl : a.take width = t := by simpa [scanWords] using h
        refine ⟨width, rfl, ?_, fun c hc => ha.solid c (List.mem_of_mem_take hc),
          List.length_take_le _ _⟩
        simp only [ne_eq, List.take_eq_nil_iff, not_or]
        exact ⟨(hpos width List.mem_cons_self).ne', ha.ne_nil⟩
      | succ i =>
        rw [scanWords, List.getElem?_cons_succ] at h
        refine ih (fun w hw => hpos w (List.mem_cons_of_mem _ hw)) (fun w hw => ?_) h
        split at hw
        · exact hws w (List.mem_cons_of_mem _ hw)
        · rename_i hlong
          rcases List.mem_cons.mp hw with rfl | hw
          · exact ⟨by simpa using hlong, fun c hc => ha.solid c (List.mem_of_mem_drop hc), le_rfl⟩
          · exact hws w (List.mem_cons_of_mem _ hw)

/-- `sscanf` sees of a text only its words. -/
theorem sscanf_words {widths : List ℕ} (hpos : ∀ w ∈ widths, 0 < w) (t : Text) :
    sscanf (wordDirectives widths) t = (scanWords widths (words t)).map .s := by
  induction widths generalizing t with
  | nil => simp [wordDirectives, sscanf, scanWords]
  | cons width widths ih =>
    have hblank : sscanf (wordDirectives (width :: widths)) t =
        sscanf (.s (some width) :: wordDirectives widths) (t.dropWhile isspace) := by
      simp [wordDirectives, sscanf, show isspace 32 = true by decide]
    rw [hblank, sscanf, ← words_dropWhile t]
    rcases scanString_words (hpos width List.mem_cons_self) (t.dropWhile isspace) with
      ⟨hscan, hwords⟩ | ⟨w, ws, rest, hwords, hscan, hrest⟩
    · rw [hscan, hwords]
      rfl
    · rw [hscan, hwords, scanWords, List.map_cons, ← hrest,
        ← ih (fun w hw => hpos w (List.mem_cons_of_mem _ hw))]

/-- The blank before the first word makes no difference. -/
theorem sscanf_words_first {width : ℕ} {widths : List ℕ} (hpos : ∀ w ∈ width :: widths, 0 < w)
    (t : Text) : sscanf (.s (some width) :: wordDirectives widths) t =
      (scanWords (width :: widths) (words t)).map .s := by
  have hblank : sscanf (.s (some width) :: wordDirectives widths) t =
      sscanf (wordDirectives (width :: widths)) t := by
    simp [wordDirectives, sscanf, scanString, List.dropWhile_idempotent,
      show isspace 32 = true by decide]
  rw [hblank, sscanf_words hpos]

end Stdio
