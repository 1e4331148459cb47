import Smali.Proofs.AcceptedValues

/-!
# Values that are kept

A value that was read is written in a form of its own, and this form need not be read as the value.
It is if each element of an annotation in it is gathered with its lines and no others, and if the
written forms of the values of an array are the parts of their list. A scalar with a line end in it
may stand alone or inside an annotation, where no line is indented; in an array outside annotations
it changes with the indentation.
-/

namespace Smali

open Text Literal

namespace Literal

/-- What stands in front of the value of an element. -/
def heading : Text → Text
  | [] => "= "
  | name => name ++ " = "

/-- A heading starts a line. -/
theorem heading_of_isElementName {name : Text} (h : name.IsElementName) :
    IsInline (heading name) ∧ (∀ c ∈ (heading name).head?, isBlank c = false) ∧
      ∀ t, codeLines (name ++ " = " ++ t) = codeLines (heading name ++ t) := by
  cases name with
  | nil =>
    exact ⟨by decide, by rintro _ ⟨⟩; rfl, fun t => codeLines_append_left (by decide : IsBlank " ") _⟩
  | cons c name =>
    refine ⟨isInline_append.mpr ⟨h.inline, by decide⟩, ?_, fun t => rfl⟩
    rintro d ⟨⟩
    exact h.trimmed.1 c rfl

/-- The name and the value are found again on the line. -/
theorem cut?_heading {name : Text} (h : name.IsElementName) {l : Text} (hl : IsCodeLine l) :
    ∃ before after, Text.cut? (· == '=') (heading name ++ l) = some (before, after) ∧
      trim before = name ∧ trim after = l := by
  have htrim : trim ([' '] ++ l) = l :=
    (trim_append_left (by decide) l).trans hl.trimmed.trim_eq
  cases name with
  | nil => exact ⟨[], [' '] ++ l, rfl, rfl, htrim⟩
  | cons c name =>
    have hequals : '=' ∉ (c :: name) ++ [' '] := by
      have hname := h.noEquals
      simpa using hname
    have htext : heading (c :: name) ++ l = ((c :: name) ++ [' ']) ++ '=' :: ([' '] ++ l) := by
      simp [heading]
    exact ⟨(c :: name) ++ [' '], [' '] ++ l, htext ▸ cut?_of_not_mem hequals _,
      (trim_append_right (by decide) _).trans h.trimmed.trim_eq, htrim⟩

/-- A line with an equals sign is no closing line. -/
theorem ne_closing_of_cut? {line before after : Text}
    (h : Text.cut? (· == '=') line = some (before, after)) : line ≠ closing := by
  have hnone : Text.cut? (· == '=') closing = none := by decide
  rintro rfl
  rw [hnone] at h
  cases h

end Literal

namespace Value

/-- Whether the lines of a value are gathered as the value of an element, with no others. -/
def IsGathered (v : Value) : Prop :=
  ∃ first rest, v.lines = first :: rest ∧ isGathered first rest = true

/-- Whether a value may stand, in an annotation if `gathered` is set, and is read as it was
written. -/
inductive IsKept : Bool → Value → Prop
  /-- A scalar, on one line if its lines are indented. -/
  | scalar {gathered : Bool} {v : Value} (hs : v.IsScalar)
      (inline : gathered = false → v.IsInline) : IsKept gathered v
  /-- An array whose values are the parts of their list. -/
  | array {gathered : Bool} {values : List Value} (parts : AreParts (values.map encode))
      (h : ∀ v ∈ values, IsKept gathered v) : IsKept gathered (.array values)
  /-- An annotation whose elements are gathered one by one. -/
  | annotated {gathered : Bool} {type : TypeName} {elements : List (Text × Value)}
      (whole : ∀ e ∈ elements, e.2.IsGathered) (h : ∀ e ∈ elements, IsKept true e.2) :
      IsKept gathered (.annotated type elements)

/-- The lines of a value behind the name of an element. -/
theorem IsTidy.codeLines_heading {v : Value} (h : v.IsTidy) {name : Text}
    (hname : name.IsElementName) :
    codeLines (name ++ " = " ++ v.encode) = v.lines.modifyHead (heading name ++ ·) := by
  obtain ⟨hinline, hhead, hlines⟩ := heading_of_isElementName hname
  obtain ⟨c, hc, hblank⟩ := h.exists_head?
  rw [hlines]
  exact codeLines_prefix hinline hhead hc hblank

/-- The elements of an annotation are found again on its lines. -/
theorem outlines_of_isGathered {elements : List (Text × Value)}
    (hnames : ∀ e ∈ elements, e.1.IsElementName) (h : ∀ e ∈ elements, e.2.IsGathered)
    (rest : List Text) :
    Outlines (elements.flatMap (fun e => e.2.lines.modifyHead (heading e.1 ++ ·)) ++
      closing :: rest) (elements.map fun e => (e.1, ['\n'].intercalate e.2.lines)) := by
  induction elements with
  | nil => exact .closing rest
  | cons e elements ih =>
    obtain ⟨first, more, hlines, hgathered⟩ := h e List.mem_cons_self
    obtain ⟨before, after, hcut, hbefore, hafter⟩ := cut?_heading (hnames e List.mem_cons_self)
      (isCodeLine_of_mem_lines (hlines ▸ List.mem_cons_self))
    have hrest := ih (fun e he => hnames e (List.mem_cons_of_mem _ he))
      fun e he => h e (List.mem_cons_of_mem _ he)
    have helement := Outlines.element (ne_closing_of_cut? hcut) hcut (hafter.symm ▸ hgathered) hrest
    rw [hbefore, hafter, below_eq_intercalate] at helement
    rw [List.flatMap_cons, List.map_cons, hlines, List.modifyHead_cons, List.cons_append,
      List.cons_append, List.append_assoc]
    exact helement

/-- A kept value is read from any text with its lines. -/
theorem decode_of_isKept {gathered : Bool} {v : Value} (h : IsAccepted gathered v)
    (hkept : IsKept gathered v) {t : Text} (ht : codeLines t = v.lines)
    (htight : gathered = true → t.IsTight) : decode t = .ok v := by
  induction h generalizing t with
  | @scalar gathered v tidy shape tight =>
    have htrim : trim t = v.encode := by
      cases gathered with
      | false =>
        have hinline : v.IsInline := by
          cases hkept with
          | scalar _ inline => exact inline rfl
          | array => exact absurd (isScalar_of_leaf shape) id
          | annotated => exact absurd (isScalar_of_leaf shape) id
        rw [tidy.lines_of_isInline hinline] at ht
        exact trim_of_codeLines_eq_singleton ht
      | true => exact ((htight rfl).trim_congr (tight rfl) ht).trans tidy.trimmed.trim_eq
    exact decode_of_leaf (htrim ▸ shape)
  | @array gathered values h ih =>
    obtain ⟨hparts, hkept⟩ : AreParts (values.map encode) ∧ ∀ v ∈ values, IsKept gathered v := by
      cases hkept with
      | scalar hs => exact absurd hs id
      | array parts h => exact ⟨parts, h⟩
    obtain ⟨parts, hshape, hwritten⟩ := exists_shape_array (fun v hv => (h v hv).isTidy) hparts ht
    have htights : ∀ part ∈ parts, gathered = true → part.IsTight :=
      fun part hpart hg => isTight_of_array_shape hshape (htight hg).trim hpart
    have hdecode : parts.mapM decode = .ok values :=
      mapM_eq_ok_iff.mpr (forall₂_imp_of_mem ((List.forall₂_and_left _ _).mpr ⟨htights, hwritten⟩)
        fun v hv part hpart => ih v hv (hkept v hv) hpart.2 hpart.1)
    rw [decode_of_array hshape, hdecode]
    rfl
  | @annotated gathered type elements parses line names h ih =>
    obtain ⟨hwhole, hkept⟩ : (∀ e ∈ elements, e.2.IsGathered) ∧
        ∀ e ∈ elements, IsKept true e.2 := by
      cases hkept with
      | scalar hs => exact absurd hs id
      | annotated whole h => exact ⟨whole, h⟩
    rw [lines_annotated line fun e he => (h e he).isTidy.codeLines_heading (names e he)] at ht
    have hparse : TypeName.parse (trim (' ' :: type.descriptor)) = .ok type := by
      have htrim : trim (' ' :: type.descriptor) = type.descriptor :=
        (trim_append_left (by decide : IsBlank [' ']) _).trans line.trimmed.trim_eq
      rw [htrim, parses]
    have hshape := shape_of_opening ht hparse
    rw [outline_eq_iff.mpr (outlines_of_isGathered names hwhole [])] at hshape
    have hdecode : ((elements.map fun e => (e.1, ['\n'].intercalate e.2.lines)).mapM fun e =>
        (decode e.2).map fun v => (e.1, v)) = .ok elements := by
      refine mapM_eq_ok_iff.mpr (List.forall₂_map_left_iff.mpr (List.forall₂_same.mpr ?_))
      intro e he
      have hcode : ∀ l ∈ e.2.lines, IsCodeLine l := fun l hl => isCodeLine_of_mem_lines hl
      have hlines := codeLines_intercalate hcode
      rw [ih e he (hkept e he) hlines fun _ => isTight_intercalate hcode]
      rfl
    rw [decode_of_annotated hshape]
    dsimp only
    rw [hdecode]
    rfl

end Value

end Smali
