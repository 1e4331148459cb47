import Smali.Proofs.CodeTexts
import Smali.Proofs.Flags

/-!
# Words of lines

Words with a space between each two are code, and the reader finds them again. The flags of a
declaration are such words: a set of flags is written with the keywords of its members, and it is
read from them.
-/

namespace Smali

open Text

/-! ## Words with spaces -/

namespace IsWord

variable {w : Text}

/-- A word is not empty. -/
theorem ne_nil (h : IsWord w) : w ≠ [] := by
  obtain ⟨c, rest, rfl, -⟩ := h.starts
  exact List.cons_ne_nil c rest

/-- There is no blank in a word. -/
theorem isBlank (h : IsWord w) {c : Char} (hc : c ∈ w) : Text.isBlank c = false := by
  have hends := h.word c hc
  simp only [endsWord, Bool.or_eq_false_iff] at hends
  exact hends.1.1.1.1.1.1

/-- There are no blanks around a word. -/
theorem isTrimmed (h : IsWord w) : IsTrimmed w :=
  ⟨fun _ hc => h.isBlank (List.mem_of_mem_head? hc),
    fun _ hc => h.isBlank (List.mem_of_getLast? hc)⟩

end IsWord

namespace Text

/-- Trimmed texts at both ends. -/
theorem IsTrimmed.append {t u : Text} (ht : IsTrimmed t) (hne : t ≠ []) (hu : IsTrimmed u)
    (hne' : u ≠ []) (middle : Text) : IsTrimmed (t ++ (middle ++ u)) := by
  refine ⟨fun c hc => ?_, fun c hc => ?_⟩
  · rw [List.head?_append_of_ne_nil t hne] at hc
    exact ht.1 c hc
  · rw [List.getLast?_append_of_ne_nil _ (List.append_ne_nil_of_right_ne_nil _ hne'),
      List.getLast?_append_of_ne_nil _ hne'] at hc
    exact hu.2 c hc

/-- The words on both sides of a blank. -/
theorem words_append (t u : Text) {c : Char} (hc : isBlank c = true) :
    words (t ++ c :: u) = words t ++ words u := by
  rw [words, List.splitOnP_append_cons t u hc, List.filter_append]
  rfl

/-- The words of a word. -/
theorem words_of_isWord {w : Text} (h : IsWord w) : words w = [w] := by
  rw [words, List.splitOnP_eq_singleton fun c hc => h.isBlank hc]
  simp [h.ne_nil]

/-- The words of words. -/
theorem words_intercalate {ws : List Text} (h : ∀ w ∈ ws, IsWord w) :
    words ([' '].intercalate ws) = ws := by
  induction ws with
  | nil => rfl
  | cons w more ih =>
    obtain ⟨hw, hmore⟩ := List.forall_mem_cons.mp h
    cases more with
    | nil => rw [List.intercalate_singleton, words_of_isWord hw]
    | cons second more =>
      rw [List.intercalate_cons_cons, List.append_assoc, List.singleton_append,
        words_append _ _ rfl, words_of_isWord hw, ih hmore]
      rfl

end Text

/-- Words with spaces are code. -/
theorem isCode_words {ws : List Text} (h : ∀ w ∈ ws, IsWord w) :
    IsCode ([' '].intercalate ws) := by
  induction ws with
  | nil => exact .nil
  | cons w more ih =>
    obtain ⟨hw, hmore⟩ := List.forall_mem_cons.mp h
    cases more with
    | nil => exact List.intercalate_singleton ▸ .of_isWord hw
    | cons second more =>
      rw [List.intercalate_cons_cons, List.append_assoc]
      exact .word hw (by rintro _ ⟨⟩; rfl) (.space (ih hmore))

/-- Words with spaces are a text. -/
theorem words_ne_nil {ws : List Text} (h : ∀ w ∈ ws, IsWord w) (hne : ws ≠ []) :
    [' '].intercalate ws ≠ [] := by
  obtain ⟨w, more, rfl⟩ := List.exists_cons_of_ne_nil hne
  have hw := (h w List.mem_cons_self).ne_nil
  cases more with
  | nil => exact List.intercalate_singleton ▸ hw
  | cons second more =>
    rw [List.intercalate_cons_cons, List.append_assoc]
    exact List.append_ne_nil_of_left_ne_nil hw _

/-- There are no blanks around words with spaces. -/
theorem isTrimmed_words {ws : List Text} (h : ∀ w ∈ ws, IsWord w) :
    IsTrimmed ([' '].intercalate ws) := by
  induction ws with
  | nil => exact ⟨fun c hc => absurd hc (Option.not_mem_none c),
      fun c hc => absurd hc (Option.not_mem_none c)⟩
  | cons w more ih =>
    obtain ⟨hw, hmore⟩ := List.forall_mem_cons.mp h
    cases more with
    | nil => exact List.intercalate_singleton ▸ hw.isTrimmed
    | cons second more =>
      rw [List.intercalate_cons_cons, List.append_assoc]
      exact hw.isTrimmed.append hw.ne_nil (ih hmore) (words_ne_nil hmore (List.cons_ne_nil _ _)) [' ']

/-- A character that ends words stands between words only if it is the space. -/
theorem not_mem_words {ws : List Text} (h : ∀ w ∈ ws, IsWord w) {c : Char}
    (hends : endsWord c = true) (hc : c ≠ ' ') : c ∉ [' '].intercalate ws := by
  induction ws with
  | nil => exact List.not_mem_nil
  | cons w more ih =>
    obtain ⟨hw, hmore⟩ := List.forall_mem_cons.mp h
    have hnot : c ∉ w := fun hmem => Bool.false_ne_true ((hw.word c hmem).symm.trans hends)
    cases more with
    | nil => exact List.intercalate_singleton ▸ hnot
    | cons second more =>
      rw [List.intercalate_cons_cons, List.mem_append, List.mem_append, List.mem_singleton]
      exact not_or.mpr ⟨not_or.mpr ⟨hnot, hc⟩, ih hmore⟩

/-! ## Flags -/

/-- A keyword is a word. -/
theorem Flag.isWord_keyword (f : Flag) : IsWord f.keyword := by
  have hname : f.keyword.IsIdentifier := by cases f <;> decide
  exact hname.isWord

/-- The keywords of a set are words. -/
theorem Access.isWord_of_mem_keywords {a : Access} {w : Text} (h : w ∈ a.keywords) : IsWord w := by
  obtain ⟨f, -, rfl⟩ := List.mem_map.mp h
  exact f.isWord_keyword

/-! ## Counts -/

namespace Text

/-- The numeral of a number has a digit. -/
theorem decimal_ne_nil (n : Nat) : decimal n ≠ [] :=
  List.ne_nil_of_length_pos Nat.length_toDigits_pos

/-- The numeral of a number consists of digits. -/
theorem isDigit_of_mem_decimal {n : Nat} {c : Char} (h : c ∈ decimal n) : isDigit c = true := by
  obtain ⟨d, hd, rfl⟩ := digitChar_of_mem_toDigits (by omega) h
  have hall : ∀ d < 10, isDigit d.digitChar = true := by decide
  exact hall d hd

/-- Digits in a row are a numeral. -/
theorem isNumeral_of_isDigit {t : Text} (hne : t ≠ []) (h : ∀ c ∈ t, isDigit c = true) :
    Literal.isNumeral t = true := by
  have hnot : ∀ {c : Char}, c ∈ t → ∀ d, isDigit d = false → c ≠ d := by
    rintro c hc d hd rfl
    exact Bool.false_ne_true (hd.symm.trans (h c hc))
  have hsign : Literal.Numeral.takeSign t = (false, t) := by
    unfold Literal.Numeral.takeSign
    split
    · exact absurd rfl (hnot List.mem_cons_self '-' rfl)
    · exact absurd rfl (hnot List.mem_cons_self '+' rfl)
    · rfl
  have hspan : t.takeWhile isDigit = t ∧ t.dropWhile isDigit = [] :=
    ⟨List.takeWhile_eq_self_iff.mpr h, List.dropWhile_eq_nil_iff.mpr h⟩
  have hdecimal : Literal.Numeral.parseDecimal? false t = some (.decimal false t none none none) := by
    unfold Literal.Numeral.parseDecimal?
    dsimp only
    rw [hspan.1, hspan.2, if_neg (by simpa using hne)]
    rfl
  unfold Literal.isNumeral Literal.Numeral.parse?
  rw [hsign]
  split
  · rename_i heq
    obtain ⟨-, rfl⟩ := Prod.mk.inj heq
    exact absurd rfl (hnot (List.mem_cons_of_mem _ List.mem_cons_self) 'x' rfl)
  · rename_i heq
    obtain ⟨-, rfl⟩ := Prod.mk.inj heq
    exact absurd rfl (hnot (List.mem_cons_of_mem _ List.mem_cons_self) 'X' rfl)
  · rename_i heq
    obtain ⟨rfl, rfl⟩ := Prod.mk.inj heq
    rw [hdecimal]
    rfl

/-- The numeral of a number is a word. -/
theorem isWord_decimal (n : Nat) : IsWord (decimal n) := by
  have hchars : ∀ c ∈ decimal n, isReferenceChar c = true := by
    intro c hc
    obtain ⟨d, hd, rfl⟩ := digitChar_of_mem_toDigits (by omega) hc
    exact Literal.isReferenceChar_digitChar (by omega)
  obtain ⟨c, rest, heq⟩ := List.exists_cons_of_ne_nil (decimal_ne_nil n)
  refine ⟨⟨c, rest, heq, ?_⟩, fun d hd => endsWord_of_isReferenceChar (hchars d hd), fun _ => ?_⟩
  · exact startsWord_of_isReferenceChar (hchars c (heq ▸ List.mem_cons_self))
  · exact isNumeral_of_isDigit (decimal_ne_nil n) fun _ => isDigit_of_mem_decimal

/-- A count is read from its numeral. -/
theorem countBelow?_decimal {bound n : Nat} (h : n < bound) :
    countBelow? bound (decimal n) = some n := by
  have hplus : dropPlus (decimal n) = decimal n := by
    unfold dropPlus
    split
    · rename_i heq
      have hdigit := isDigit_of_mem_decimal (n := n) (heq ▸ List.mem_cons_self)
      exact absurd hdigit (by decide)
    · rfl
  have hvalue : valueIn 10 (decimal n) = n := valueIn_toDigits (by omega) (by omega) n
  have hread : decimal? (decimal n) = some n := by
    unfold decimal?
    rw [hvalue, if_pos]
    simpa [decimal_ne_nil] using fun c => isDigit_of_mem_decimal
  rw [countBelow?, hplus, hread]
  simpa using h

end Text

/-! ## Declarations -/

/-- The words of a declaration: its flags and a last word. -/
def declarationWords (access : Access) (word : Text) : List Text := access.keywords ++ [word]

/-- A line with flags. -/
theorem directiveLine_eq (directive : Text) (access : Access) (word tail : Text) :
    Writer.directiveLine directive access (word ++ tail) =
      directive ++ ' ' :: ([' '].intercalate (declarationWords access word) ++ tail) := by
  have hwords : [' '].intercalate (declarationWords access word) =
      (if access.isEmpty then [] else access.render ++ [' ']) ++ word := by
    unfold declarationWords
    split
    · rename_i hempty
      rw [Access.keywords_eq_nil.mpr hempty]
      exact List.intercalate_singleton
    · rename_i hempty
      have hne := mt Access.keywords_eq_nil.mp hempty
      rw [Access.render]
      generalize access.keywords = ws at hne
      induction ws with
      | nil => exact absurd rfl hne
      | cons w more ih =>
        cases more with
        | nil => simp
        | cons second more =>
          rw [List.cons_append, List.cons_append, List.intercalate_cons_cons, ← List.cons_append,
            ih (List.cons_ne_nil _ _), List.intercalate_cons_cons]
          simp only [List.append_assoc]
  unfold Writer.directiveLine
  rw [hwords]
  split <;> simp

variable (access : Access) {word : Text} (hword : IsWord word)
include hword

/-- The words of a declaration are words. -/
theorem isWord_declarationWords : ∀ w ∈ declarationWords access word, IsWord w :=
  List.forall_mem_append.mpr
    ⟨fun _ hw => Access.isWord_of_mem_keywords hw, List.forall_mem_singleton.mpr hword⟩

/-- Flags and last word are read from a declaration. -/
theorem Line.splitAccess_declarationWords (l : Line) :
    l.splitAccess ([' '].intercalate (declarationWords access word)) = .ok (access, word) := by
  have hwords := words_intercalate (isWord_declarationWords access hword)
  have hlast : (declarationWords access word).getLast? = some word := List.getLast?_concat
  have hflags : (declarationWords access word).dropLast = access.keywords := List.dropLast_concat
  unfold splitAccess
  rw [hwords]
  dsimp only
  rw [hlast]
  dsimp only
  rw [hflags, Access.ofKeywords_keywords]

end Smali
