import Smali.Proofs.Places

/-!
# Lines that start with a directive

A line that starts with a point and a keyword has the directive of that keyword, and what
stands behind the keyword are its arguments.
-/

namespace Smali

/-- Blanks around a text do not matter to its line. -/
theorem lineOf_trim (t : Text) : lineOf (Text.trim t) = lineOf t := by
  rw [← unplaced_ofText_eq_lineOf 1 t, unplaced_ofText]
  rfl

/-- A word that ends before the rest of a line. -/
theorem takeWhile_word {word rest : Text} (hword : ∀ c ∈ word, endsWord c = false)
    (hrest : ∀ c ∈ rest.head?, endsWord c = true) :
    (word ++ rest).takeWhile (!endsWord ·) = word ∧
      (word ++ rest).dropWhile (!endsWord ·) = rest := by
  have hfirst : rest.takeWhile (!endsWord ·) = [] ∧ rest.dropWhile (!endsWord ·) = rest := by
    cases rest with
    | nil => exact ⟨rfl, rfl⟩
    | cons c rest => simp [hrest c rfl]
  have hall : ∀ c ∈ word, (!endsWord c) = true := fun c hc => by rw [hword c hc]; rfl
  rw [List.takeWhile_append_of_pos hall, List.dropWhile_append_of_pos hall, hfirst.1, hfirst.2,
    List.append_nil]
  exact ⟨rfl, rfl⟩

/-- A word at the start of a line. -/
theorem scan_word_append (number column : Nat) {c : Char} {word rest : Text}
    (hc : startsWord c = true) (hword : ∀ d ∈ word, endsWord d = false)
    (hrest : ∀ d ∈ rest.head?, endsWord d = true) {kind : TokenKind}
    (hkind : classify (c :: word) ⟨number, column⟩ = .ok kind) :
    scan number column (c :: word ++ rest) =
      (scan number (column + (c :: word).length) rest).map
        (.push kind (c :: word) ⟨number, column⟩) := by
  obtain ⟨htake, hdrop⟩ := takeWhile_word hword hrest
  rw [List.cons_append, scan_word _ _ hc, htake, hdrop, hkind]

/-- The keyword of a directive as the source has it. -/
structure IsKeyword (word : Text) : Prop where
  /-- It starts with a point and a letter. -/
  directive : isDirectiveWord word = true
  /-- Nothing in it ends a word. -/
  word : ∀ c ∈ word, endsWord c = false

/-- A word whose characters have been looked through. -/
theorem IsKeyword.of_all {word : Text} (hdirective : isDirectiveWord word = true)
    (hword : word.all (!endsWord ·) = true) : IsKeyword word where
  directive := hdirective
  word c hc := by
    have hends := List.all_eq_true.mp hword c hc
    simpa using hends

/-- The line of a directive. -/
theorem lineOf_directive {word rest : Text} (h : IsKeyword word)
    (hrest : ∀ c ∈ rest.head?, endsWord c = true) :
    lineOf (word ++ rest) = (scan 1 (1 + word.length) rest).toOption.map fun s =>
      (s.push .directive word ⟨1, 1⟩).line := by
  obtain ⟨hdirective, hword⟩ := h
  cases word with
  | nil => exact absurd hdirective Bool.false_ne_true
  | cons c word =>
    obtain rfl : c = '.' := by
      unfold isDirectiveWord at hdirective
      split at hdirective
      · rename_i heq
        exact (List.cons.inj heq).1
      · exact absurd hdirective Bool.false_ne_true
    have hnot : ¬('.' :: word = ['.', '.'] ∨ '.' :: word = ['-', '>']) := by
      rintro (heq | heq)
      · rw [heq] at hdirective
        exact absurd hdirective (by decide)
      · exact absurd (List.cons.inj heq).1 (by decide)
    have hkind : classify ('.' :: word) ⟨1, 1⟩ = .ok .directive := by
      rw [classify, if_neg hnot, if_pos hdirective]
    unfold lineOf
    rw [scan_word_append 1 1 (by decide) (fun d hd => hword d (List.mem_cons_of_mem _ hd)) hrest
      hkind, toOption_map, Option.map_map]
    rfl

/-- The directive of such a line. -/
theorem directive?_push (s : Scanned) (word : Text) (position : Position) :
    (s.push .directive word position).line.directive? = some (.ofKeyword word) := rfl

/-- The same from its text. -/
theorem directive?_of_lineOf {word rest : Text} (h : IsKeyword word)
    (hrest : ∀ c ∈ rest.head?, endsWord c = true) {l : Line}
    (hl : lineOf (word ++ rest) = some l) : l.directive? = some (.ofKeyword word) := by
  rw [lineOf_directive h hrest] at hl
  obtain ⟨s, -, rfl⟩ := Option.map_eq_some_iff.mp hl
  exact directive?_push s word ⟨1, 1⟩

/-- The arguments of such a line. -/
theorem arguments_push (s : Scanned) {word : Text} (hword : IsKeyword word)
    (position : Position) :
    (s.push .directive word position).line.arguments = Text.trim s.text := by
  have hblank : ∀ c ∈ word, Text.isBlank c = false := by
    intro c hc
    have := hword.word c hc
    simp only [endsWord, Bool.or_eq_false_iff] at this
    exact this.1.1.1.1.1.1
  have hleft : Text.trimLeft (word ++ s.text) = word ++ s.text := by
    cases word with
    | nil => exact absurd hword.directive Bool.false_ne_true
    | cons c word =>
      exact List.dropWhile_cons_of_neg (by simp [hblank c List.mem_cons_self])
  have htext : Text.trim (word ++ s.text) = word ++ Text.trimRight s.text := by
    rw [Text.trim, hleft, Text.trimRight_append_of_last fun c hc =>
      hblank c (List.mem_of_getLast? hc)]
  have harguments : (s.push .directive word position).line.arguments =
      Text.trim ((Text.trim (word ++ s.text)).drop word.length) := rfl
  rw [harguments, htext, List.drop_left, Text.trim_trimRight]

end Smali
