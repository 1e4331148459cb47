import Smali.Proofs.Divisions
import Smali.Proofs.ValueLines

/-!
# The elements of written arrays

A text with the code lines of an array has the shape of an array, whose elements are texts with
the code lines of the values, one for each, if the written forms of the values are the parts of
their list. On one line the values stand between commas with a blank behind them; on several lines a
comma ends the last line of each value but the last. The text of a plain value is level, so that no
other comma counts.
-/

namespace Smali.Literal

open Text

/-! ## Shape -/

/-- A text with one code line, without the blanks around it. -/
theorem trim_of_codeLines_eq_singleton {t l : Text} (h : codeLines t = [l]) : trim t = l := by
  have hl : IsCodeLine l := isCodeLine_of_mem_codeLines (h ▸ List.mem_cons_self)
  obtain ⟨before, after, hbefore, hafter, rfl⟩ := exists_of_codeLines_eq_singleton h
  rw [trim_append_left hbefore, trim_append_right hafter, hl.trimmed.trim_eq]

/-- A text between braces has the shape of an array. -/
theorem shape_braced (inner : Text) :
    shape ('\x7b' :: (inner ++ ['\x7d'])) = .array (splitElements inner) := by
  have harray : arrayShape ('\x7b' :: (inner ++ ['\x7d'])) = .array (splitElements inner) := by
    rw [arrayShape, List.getLast?_concat, if_pos rfl, List.dropLast_concat]
  have hopening : Text.startsWith ('\x7b' :: (inner ++ ['\x7d'])) opening = false := rfl
  have henum : Text.after? ".enum" ('\x7b' :: (inner ++ ['\x7d'])) = none := rfl
  unfold shape
  rw [if_neg (by simp), if_neg (ne_of_head? (by decide) (by decide : '\x7b' ≠ 'n')),
    if_neg (ne_of_head? (by decide) (by decide : '\x7b' ≠ 't')),
    if_neg (ne_of_head? (by decide) (by decide : '\x7b' ≠ 'f')), hopening,
    if_neg Bool.false_ne_true, henum]
  exact (if_pos rfl).trans harray

/-- A text between braces has no blanks at its ends. -/
theorem isTrimmed_braced (inner : Text) : IsTrimmed ('\x7b' :: (inner ++ ['\x7d'])) := by
  refine ⟨fun c hc => Option.some.inj hc ▸ rfl, fun c hc => ?_⟩
  rw [← List.cons_append, List.getLast?_concat] at hc
  exact Option.some.inj hc ▸ rfl

/-- It is read as the array of what stands between the commas. -/
theorem decode_braced (inner : Text) :
    decode ('\x7b' :: (inner ++ ['\x7d'])) = ((splitElements inner).mapM decode).map .array :=
  decode_of_array ((congrArg shape (isTrimmed_braced inner).trim_eq).trans (shape_braced inner))

/-- The written form of an array on one line has the shape of an array. -/
theorem shape_encodeArray {parts : List Text} (hparts : AreParts parts)
    (h : ∀ part ∈ parts, IsCodeLine part) : shape (encodeArray parts) = .array parts := by
  have hany : parts.any (·.contains '\n') = false := by
    rw [List.any_eq_false]
    intro part hpart
    rw [List.contains_eq_mem, decide_eq_true_iff]
    exact (h part hpart).inline
  have htidy : ∀ part ∈ parts, part ≠ [] ∧ IsTrimmed part :=
    fun part hpart => ⟨(h part hpart).ne_nil, (h part hpart).trimmed⟩
  unfold encodeArray
  split
  · rename_i hempty
    rw [List.isEmpty_iff.mp hempty]
    exact shape_braced []
  · have htext : '\x7b' :: ' ' :: [',', ' '].intercalate parts ++ [' ', '\x7d'] =
        '\x7b' :: ([' '] ++ [',', ' '].intercalate parts ++ [' '] ++ ['\x7d']) := by simp
    rw [hany, if_neg Bool.false_ne_true, htext, shape_braced,
      splitElements_intercalate hparts htidy (by decide) (by decide)]

/-! ## Elements -/

/-- Whether the texts have the code lines of the values. -/
def AreWritten (parts : List Text) (values : List Value) : Prop :=
  List.Forall₂ (fun part v => codeLines part = v.lines) parts values

/-- Plain values are the parts of their list. -/
theorem areParts_encode {values : List Value} (h : ∀ v ∈ values, v.IsPlain) :
    AreParts (values.map Value.encode) := by
  refine areParts_of_isClosed fun part hpart => ?_
  obtain ⟨v, hv, rfl⟩ := List.mem_map.mp hpart
  exact ((h v hv).isLevel rfl).isClosed

section Parts

variable {values : List Value} (htidy : ∀ v ∈ values, v.IsTidy)
  (hparts : AreParts (values.map Value.encode))

include htidy

/-- Blanks around the texts do not matter. -/
theorem AreWritten.trim {parts : List Text} (h : AreWritten parts values) :
    AreWritten ((parts.map Text.trim).filter (!·.isEmpty)) values := by
  induction h with
  | nil => exact .nil
  | @cons part v parts values hpart hrest ih =>
    have hne : (Text.trim part).isEmpty = false := by
      rw [Bool.eq_false_iff, ne_eq, List.isEmpty_iff, trim_eq_nil, ← codeLines_eq_nil, hpart]
      exact (htidy v List.mem_cons_self).lines_ne_nil
    rw [List.map_cons, List.filter_cons_of_pos (by rw [hne]; rfl)]
    exact .cons ((codeLines_trim part).trans hpart)
      (ih fun v hv => htidy v (List.mem_cons_of_mem _ hv))

include hparts

/-- Values one below the other. -/
theorem areWritten_of_stackedLines (hne : values ≠ []) {inner : Text}
    (h : codeLines inner = stackedLines (values.map Value.lines)) :
    AreWritten (partsFrom .outside 0 inner) values := by
  induction values generalizing inner with
  | nil => exact absurd rfl hne
  | cons v more ih =>
    have hv := htidy v List.mem_cons_self
    have hmore : ∀ v ∈ more, v.IsTidy := fun v hv => htidy v (List.mem_cons_of_mem _ hv)
    cases more with
    | nil =>
      rw [partsFrom_of_isUndivided ((isUndivided_congr h).mpr hparts)]
      exact .cons h .nil
    | cons next more =>
      obtain ⟨front, l, heq⟩ := (List.eq_nil_or_concat' _).resolve_left hv.lines_ne_nil
      have hl : IsCodeLine l :=
        Value.isCodeLine_of_mem_lines (heq ▸ List.mem_append_right _ List.mem_cons_self)
      have hnext : stackedLines ((next :: more).map Value.lines) ≠ [] :=
        stackedLines_ne_nil (List.cons_ne_nil _ _) fun ls hls => by
          obtain ⟨w, hw, rfl⟩ := List.mem_map.mp hls
          exact (hmore w hw).lines_ne_nil
      obtain ⟨u, rest, rfl, hu, hrest⟩ := exists_of_codeLines_eq_append _ hnext h
      have hcomma := hu.codeLines_eq
      rw [heq, commaed_concat] at hcomma
      obtain ⟨part, w, rfl, hpart, hw⟩ := exists_of_codeLines_eq_comma hl hcomma
      rw [← heq] at hpart
      rw [List.append_assoc, List.cons_append,
        partsFrom_of_isClosed ((isClosed_congr hpart).mpr hparts.1)]
      exact .cons hpart (ih hmore hparts.2 (List.cons_ne_nil _ _)
        ((codeLines_append_left hw rest).trans hrest))

/-- A text with the lines of values below each other between braces has the shape of an array. -/
theorem exists_shape_stacked (hne : values ≠ []) {t : Text}
    (ht : codeLines t = ['\x7b'] :: (stackedLines (values.map Value.lines) ++ [['\x7d']])) :
    ∃ parts, shape (trim t) = .array parts ∧ AreWritten parts values := by
  obtain ⟨before, rest, hbefore, rfl, hrest⟩ := exists_of_codeLines_eq_cons ht
  obtain ⟨inner, after, rfl, hinner, hafter⟩ := exists_of_codeLines_eq_concat hrest
  have htrim : trim (before ++ (['\x7b'] ++ (inner ++ (['\x7d'] ++ after)))) =
      '\x7b' :: (inner ++ ['\x7d']) := by
    have htext : ['\x7b'] ++ (inner ++ (['\x7d'] ++ after)) =
        '\x7b' :: (inner ++ ['\x7d']) ++ after := by simp
    rw [trim_append_left hbefore, htext, trim_append_right hafter,
      (isTrimmed_braced inner).trim_eq]
  exact ⟨_, htrim ▸ shape_braced inner,
    (areWritten_of_stackedLines htidy hparts hne hinner.codeLines_eq).trim htidy⟩

/-- A text with the code lines of an array has the shape of an array of its values. -/
theorem exists_shape_array {t : Text} (ht : codeLines t = (Value.array values).lines) :
    ∃ parts, shape (trim t) = .array parts ∧ AreWritten parts values := by
  by_cases hbroken : ∃ v ∈ values, ¬v.IsInline
  · -- the braces stand on lines of their own
    have hne : values ≠ [] := by
      rintro rfl
      obtain ⟨v, hv, -⟩ := hbroken
      exact List.not_mem_nil hv
    exact exists_shape_stacked htidy hparts hne (ht.trans (Value.lines_array htidy hbroken))
  · -- all is on one line
    have hinline : ∀ v ∈ values, v.IsInline := by
      intro v hv
      by_contra hnot
      exact hbroken ⟨v, hv, hnot⟩
    rw [(Value.isTidy_array values).lines_of_isInline (Value.isInline_array hinline)] at ht
    refine ⟨values.map Value.encode, ?_, ?_⟩
    · rw [trim_of_codeLines_eq_singleton ht, Value.encode_array]
      refine shape_encodeArray hparts fun part hpart => ?_
      obtain ⟨v, hv, rfl⟩ := List.mem_map.mp hpart
      exact ⟨hinline v hv, (htidy v hv).trimmed, (htidy v hv).ne_nil⟩
    · exact List.forall₂_map_left_iff.mpr (List.forall₂_same.mpr fun _ _ => rfl)

end Parts

end Smali.Literal
