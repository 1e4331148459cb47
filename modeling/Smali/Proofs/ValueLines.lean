import Smali.Proofs.Scalars
import Mathlib.Data.List.ModifyLast

/-!
# The lines of values

The written form of a plain value has its first character and its last one on code lines, and its
code lines are made from those of the values in it. An array with a value of several lines puts
a comma behind the last line of each value but the last; an annotation puts a name in front of the
first line of each value. The scan for braces comes back to its depth behind the lines of a value.
-/

namespace Smali

open Text Literal

instance (v : Value) : Decidable v.IsInline := inferInstanceAs (Decidable (IsInline v.encode))

/-- The code lines of the written form of a value. -/
def Value.lines (v : Value) : List Text := codeLines v.encode

/-- Whether the written form of a value has its first and its last character on code lines. -/
structure Value.IsTidy (v : Value) : Prop where
  /-- There is a written form. -/
  ne_nil : v.encode ≠ []
  /-- It has no blanks at its ends. -/
  trimmed : IsTrimmed v.encode

namespace Literal

/-- Lines with a comma behind the last. -/
def commaed (ls : List Text) : List Text := ls.modifyLast (· ++ [','])

/-- The lines of array elements that stand one below the other. -/
def stackedLines : List (List Text) → List Text
  | [] => []
  | [ls] => ls
  | ls :: more => commaed ls ++ stackedLines more

/-- Lines with a name in front of the first. -/
def namedLines (name : Text) (ls : List Text) : List Text := ls.modifyHead (name ++ " = " ++ ·)

/-- The comma stands behind the last line. -/
theorem commaed_concat (ls : List Text) (l : Text) :
    commaed (ls ++ [l]) = ls ++ [l ++ [',']] := List.modifyLast_concat _ _ _

/-- Values one below the other have lines if each of them has. -/
theorem stackedLines_ne_nil {parts : List (List Text)} (hne : parts ≠ [])
    (h : ∀ ls ∈ parts, ls ≠ []) : stackedLines parts ≠ [] := by
  cases parts with
  | nil => exact absurd rfl hne
  | cons ls more =>
    have hls := h ls List.mem_cons_self
    cases more with
    | nil => exact hls
    | cons next more =>
      obtain ⟨front, l, rfl⟩ := (List.eq_nil_or_concat' _).resolve_left hls
      rw [stackedLines, commaed_concat]
      · simp
      · exact List.cons_ne_nil _ _

/-- The name stands in the first line. -/
theorem namedLines_cons (name l : Text) (ls : List Text) :
    namedLines name (l :: ls) = (name ++ " = " ++ l) :: ls := rfl

/-! ## Indented texts -/

/-- Whole lines behind four spaces each. -/
theorem leads_of_indentation (ls : List Text) :
    Leads (ls.map fun line => "    " ++ line ++ ['\n']).flatten (ls.flatMap codeLines) := by
  induction ls with
  | nil => exact fun x => rfl
  | cons l ls ih =>
    have hline := leads_newline ("    " ++ l)
    rw [codeLines_append_left (by decide : IsBlank "    ")] at hline
    exact hline.append ih

/-- The code lines of a text are those of its lines. -/
theorem flatMap_codeLines_lines (t : Text) : (Text.lines t).flatMap codeLines = codeLines t := by
  have hlines : ∀ ls : List Text, (∀ l ∈ ls, IsInline l) →
      ls.flatMap codeLines = (ls.map trim).filter (!·.isEmpty) := by
    intro ls h
    induction ls with
    | nil => rfl
    | cons l ls ih =>
      rw [List.flatMap_cons, codeLines_of_not_mem (h l List.mem_cons_self), List.map_cons,
        ih fun l hl => h l (List.mem_cons_of_mem _ hl)]
      cases hl : (trim l).isEmpty <;> simp [hl]
  exact hlines _ fun _ => isInline_of_mem_lines

/-- Indenting a text does not matter to its code lines. -/
theorem leads_indented (t : Text) : Leads (indented t) (codeLines t) := by
  have hlead := leads_of_indentation (Text.lines t)
  rwa [flatMap_codeLines_lines] at hlead

end Literal

namespace Value

/-! ## Written forms -/

/-- The lines of annotation elements, one element after another. -/
theorem encodeElements_eq (elements : List (Text × Value)) :
    encodeElements elements =
      (elements.map fun e => indented (e.1 ++ " = " ++ e.2.encode)).flatten := by
  induction elements with
  | nil => rfl
  | cons e elements ih => exact congrArg (indented (e.1 ++ " = " ++ e.2.encode) ++ ·) ih

/-- A nested annotation is written between its opening and its closing line. -/
theorem encode_annotated (type : TypeName) (elements : List (Text × Value)) :
    (annotated type elements).encode = ".subannotation " ++ type.descriptor ++ '\n' ::
      ((elements.map fun e => indented (e.1 ++ " = " ++ e.2.encode)).flatten ++ closing) := by
  have htext : (annotated type elements).encode = ".subannotation " ++ type.descriptor ++ ['\n'] ++
      encodeElements elements ++ closing := rfl
  rw [htext, encodeElements_eq, List.append_assoc, List.append_assoc]
  rfl

/-- A nested annotation takes several lines. -/
theorem not_isInline_annotated (type : TypeName) (elements : List (Text × Value)) :
    ¬(annotated type elements).IsInline := by
  rw [Value.IsInline, encode_annotated]
  exact fun h => h (List.mem_append_right _ List.mem_cons_self)

/-- An array is written between braces. -/
theorem exists_encode_array (values : List Value) :
    ∃ middle, (array values).encode = '\x7b' :: (middle ++ ['\x7d']) := by
  rw [encode_array, encodeArray]
  split
  · exact ⟨[], rfl⟩
  · split
    · exact ⟨'\n' :: stacked (values.map encode), rfl⟩
    · exact ⟨' ' :: ([',', ' '].intercalate (values.map encode) ++ [' ']), by simp⟩

/-- The written form of an array stands between its braces. -/
theorem isTidy_array (values : List Value) : (array values).IsTidy := by
  obtain ⟨middle, hmiddle⟩ := exists_encode_array values
  have hlast : (array values).encode.getLast? = some '\x7d' := by
    rw [hmiddle, ← List.cons_append, List.getLast?_concat]
  exact ⟨hmiddle ▸ List.cons_ne_nil _ _,
    isTrimmed_of_ends (congrArg List.head? hmiddle) hlast rfl rfl⟩

/-- The written form of an annotation stands between its words. -/
theorem isTidy_annotated (type : TypeName) (elements : List (Text × Value)) :
    (annotated type elements).IsTidy := by
  have hlast : (annotated type elements).encode.getLast? = some 'n' := by
    rw [encode_annotated, ← List.cons_append, ← List.append_assoc,
      List.getLast?_append_of_ne_nil _ (by decide)]
    rfl
  exact ⟨encode_annotated type elements ▸ List.cons_ne_nil _ _,
    isTrimmed_of_ends (congrArg List.head? (encode_annotated type elements)) hlast rfl rfl⟩

/-- The written form of a plain value has no blanks at its ends. -/
theorem IsPlain.isTidy {v : Value} (h : v.IsPlain) : v.IsTidy := by
  cases v with
  | array values => exact isTidy_array values
  | annotated type elements => exact isTidy_annotated type elements
  | _ =>
    obtain ⟨hline, -⟩ := h.encode_scalar trivial
    exact ⟨hline.ne_nil, hline.trimmed⟩

/-- There is a first character. -/
theorem IsTidy.exists_head? {v : Value} (h : v.IsTidy) :
    ∃ c, v.encode.head? = some c ∧ isBlank c = false := by
  obtain ⟨hne, htrim⟩ := h
  obtain ⟨c, rest, heq⟩ := List.exists_cons_of_ne_nil hne
  exact ⟨c, by rw [heq]; rfl, htrim.1 c (by rw [heq]; rfl)⟩

/-! ## Lines -/

/-- The lines of a value are code lines. -/
theorem isCodeLine_of_mem_lines {v : Value} {l : Text} (h : l ∈ v.lines) : IsCodeLine l :=
  isCodeLine_of_mem_codeLines h

/-- A value on one line. -/
theorem IsTidy.lines_of_isInline {v : Value} (h : v.IsTidy) (hinline : v.IsInline) :
    v.lines = [v.encode] :=
  codeLines_of_isTrimmed hinline h.trimmed h.ne_nil

/-- There is a code line. -/
theorem IsTidy.lines_ne_nil {v : Value} (h : v.IsTidy) : v.lines ≠ [] := by
  obtain ⟨c, hc, hblank⟩ := h.exists_head?
  intro hnil
  have hmem := codeLines_eq_nil.mp hnil c (List.mem_of_mem_head? hc)
  rw [hblank] at hmem
  exact Bool.noConfusion hmem

/-- A scalar is on one line. -/
theorem IsPlain.isInline_scalar {v : Value} (h : v.IsPlain) (hs : v.IsScalar) : v.IsInline :=
  (h.encode_scalar hs).1.inline

/-- The lines of a value behind the name of an element. -/
theorem IsTidy.codeLines_named {v : Value} (h : v.IsTidy) {name : Text}
    (hname : name.IsIdentifier) :
    codeLines (name ++ " = " ++ v.encode) = namedLines name v.lines := by
  obtain ⟨c, hc, hblank⟩ := h.exists_head?
  have hbare := hname.isBare.isCodeLine
  refine codeLines_prefix (isInline_append.mpr ⟨hbare.inline, by decide⟩) ?_ hc hblank
  intro d hd
  rw [List.head?_append_of_ne_nil name hbare.ne_nil] at hd
  exact hbare.trimmed.1 d hd

/-- The lines of a value in front of a comma. -/
theorem IsTidy.codeLines_commaed {v : Value} (h : v.IsTidy) :
    codeLines (v.encode ++ [',']) = commaed v.lines := by
  obtain ⟨ls, l, heq⟩ := (List.eq_nil_or_concat' _).resolve_left h.lines_ne_nil
  rw [heq, commaed_concat]
  exact codeLines_suffix heq h.trimmed.2 (by decide) (by rintro _ ⟨⟩; rfl)

/-- The lines of a nested annotation are those of its elements between two more. -/
theorem lines_annotated {type : TypeName} {elements : List (Text × Value)}
    (htype : IsCodeLine type.descriptor) {ls : Text × Value → List Text}
    (h : ∀ e ∈ elements, codeLines (e.1 ++ " = " ++ e.2.encode) = ls e) :
    (annotated type elements).lines =
      (".subannotation " ++ type.descriptor) :: (elements.flatMap ls ++ [closing]) := by
  have hheader : IsCodeLine (".subannotation " ++ type.descriptor) :=
    htype.append_left (by decide) (by rintro _ ⟨⟩; rfl)
  have helements : Leads (elements.map fun e => indented (e.1 ++ " = " ++ e.2.encode)).flatten
      (elements.flatMap ls) := by
    induction elements with
    | nil => exact fun x => rfl
    | cons e elements ih =>
      have hfirst := leads_indented (e.1 ++ " = " ++ e.2.encode)
      rw [h e List.mem_cons_self] at hfirst
      exact hfirst.append (ih fun e he => h e (List.mem_cons_of_mem _ he))
  have hclosing : IsCodeLine closing :=
    ⟨by decide, isTrimmed_of_ends rfl rfl rfl rfl, by decide⟩
  rw [Value.lines, encode_annotated, codeLines_append, hheader.codeLines_eq, helements,
    hclosing.codeLines_eq]
  rfl

/-- The lines of a plain annotation. -/
theorem IsPlain.lines_annotated {type : TypeName} {elements : List (Text × Value)}
    (htype : type.IsPlain) (hnames : ∀ e ∈ elements, e.1.IsIdentifier)
    (hvalues : ∀ e ∈ elements, e.2.IsPlain) :
    (Value.annotated type elements).lines = (".subannotation " ++ type.descriptor) ::
      (elements.flatMap (fun e => namedLines e.1 e.2.lines) ++ [closing]) :=
  Value.lines_annotated htype.isBare.isCodeLine fun e he =>
    (hvalues e he).isTidy.codeLines_named (hnames e he)

/-- The lines of an array on one line. -/
theorem isInline_array {values : List Value} (h : ∀ v ∈ values, v.IsInline) :
    (array values).IsInline := by
  rw [Value.IsInline, encode_array]
  refine isInline_encodeArray fun part hpart => ?_
  obtain ⟨v, hv, rfl⟩ := List.mem_map.mp hpart
  exact h v hv

/-- The values of an array on one line are on one line. -/
theorem isInline_of_isInline_array {values : List Value} (h : (array values).IsInline) :
    ∀ v ∈ values, v.IsInline := by
  intro v hv
  by_contra hbroken
  have hne : (values.map encode).isEmpty = false := by
    cases values with
    | nil => exact absurd hv List.not_mem_nil
    | cons _ _ => rfl
  have hany : (values.map encode).any (·.contains '\n') = true := by
    refine List.any_eq_true.mpr ⟨v.encode, List.mem_map_of_mem hv, ?_⟩
    rw [List.contains_eq_mem, decide_eq_true_iff]
    exact Decidable.not_not.mp hbroken
  rw [Value.IsInline, encode_array, encodeArray, hne, hany] at h
  exact h (List.mem_cons_of_mem _ List.mem_cons_self)

/-- The lines of array elements one below the other. -/
theorem leads_stacked {values : List Value} (h : ∀ v ∈ values, v.IsTidy) :
    Leads (stacked (values.map encode)) (stackedLines (values.map lines)) := by
  induction values with
  | nil => exact fun x => rfl
  | cons v values ih =>
    have hv := h v List.mem_cons_self
    cases values with
    | nil => exact leads_indented v.encode
    | cons w values =>
      have hfirst := leads_indented (v.encode ++ [','])
      rw [hv.codeLines_commaed] at hfirst
      exact hfirst.append (ih fun v hv => h v (List.mem_cons_of_mem _ hv))

/-- The lines of an array on several lines. -/
theorem lines_array {values : List Value} (h : ∀ v ∈ values, v.IsTidy)
    (hbroken : ∃ v ∈ values, ¬v.IsInline) :
    (Value.array values).lines = ['\x7b'] :: (stackedLines (values.map lines) ++ [['\x7d']]) := by
  obtain ⟨v, hv, hbroken⟩ := hbroken
  have hne : (values.map encode).isEmpty = false := by
    cases values with
    | nil => exact absurd hv List.not_mem_nil
    | cons _ _ => rfl
  have hany : (values.map encode).any (·.contains '\n') = true := by
    refine List.any_eq_true.mpr ⟨v.encode, List.mem_map_of_mem hv, ?_⟩
    rw [List.contains_eq_mem, decide_eq_true_iff]
    exact Decidable.not_not.mp hbroken
  have htext : (Value.array values).encode =
      ['\x7b'] ++ '\n' :: (stacked (values.map encode) ++ ['\x7d']) := by
    rw [encode_array, encodeArray, hne, hany]
    rfl
  rw [Value.lines, htext, codeLines_append, leads_stacked h]
  rfl

end Value

/-! ## Depth -/

namespace Literal

/-- A text that comes back to depth one makes a level text between braces. -/
theorem isLevel_braced {t : Text} (h : scanTo (.outside, 1) t = some (.outside, 1)) :
    IsLevel ('\x7b' :: (t ++ ['\x7d'])) := by
  have hopen : scanStep (.outside, 0) '\x7b' = some (.outside, 1) := rfl
  unfold IsLevel
  rw [scanTo_cons, hopen, Option.bind_some, scanTo_append, h]
  rfl

/-- Level texts with commas between them come back to depth one. -/
theorem scanTo_intercalate {parts : List Text} (h : ∀ part ∈ parts, IsLevel part) :
    scanTo (.outside, 1) ([',', ' '].intercalate parts) = some (.outside, 1) := by
  induction parts with
  | nil => rfl
  | cons part more ih =>
    have hpart := (h part List.mem_cons_self).scanTo_eq 1
    have hmore := ih fun part hpart => h part (List.mem_cons_of_mem _ hpart)
    cases more with
    | nil => rw [List.intercalate_singleton, hpart]
    | cons second more =>
      have hcomma : scanTo (.outside, 1) [',', ' '] = some (.outside, 1) := rfl
      rw [List.intercalate_cons_cons, scanTo_append, scanTo_append, hpart, Option.bind_some,
        hcomma, Option.bind_some, hmore]

/-- The written form of an array of level texts on one line is level. -/
theorem isLevel_encodeArray {parts : List Text} (h : ∀ part ∈ parts, IsLevel part)
    (hinline : ∀ part ∈ parts, IsInline part) : IsLevel (encodeArray parts) := by
  unfold encodeArray
  split
  · decide
  · have hany : parts.any (·.contains '\n') = false := by
      rw [List.any_eq_false]
      intro part hpart
      rw [List.contains_eq_mem, decide_eq_true_iff]
      exact hinline part hpart
    have hblank : scanTo (.outside, 1) [' '] = some (.outside, 1) := rfl
    have hmiddle : scanTo (.outside, 1) ([' '] ++ [',', ' '].intercalate parts ++ [' ']) =
        some (.outside, 1) := by
      rw [scanTo_append, scanTo_append, hblank, Option.bind_some, scanTo_intercalate h]
      exact hblank
    have hlevel := isLevel_braced hmiddle
    rw [hany, if_neg Bool.false_ne_true]
    simpa using hlevel

/-- Below depth zero a comma behind the last line does not matter. -/
theorem spans_commaed {ls : List Text} (hne : ls ≠ []) (h : Spans 0 0 ls 0) :
    Spans 1 1 (commaed ls) 1 := by
  obtain ⟨front, l, rfl⟩ := (List.eq_nil_or_concat' _).resolve_left hne
  rw [commaed_concat]
  exact (h.add 1).comma

/-- Nor do commas between values. -/
theorem spans_stackedLines (parts : List (List Text))
    (h : ∀ ls ∈ parts, ls ≠ [] ∧ Spans 0 0 ls 0) : Spans 1 1 (stackedLines parts) 1 := by
  induction parts with
  | nil => exact .nil 1
  | cons ls more ih =>
    obtain ⟨hne, hls⟩ := h ls List.mem_cons_self
    have hmore := ih fun ls hls => h ls (List.mem_cons_of_mem _ hls)
    cases more with
    | nil => exact hls.add 1
    | cons next more => exact (spans_commaed hne hls).append hmore

/-- A name does not matter to the depth of lines. -/
theorem spans_namedLines {name : Text} (hname : name.IsIdentifier) {ls : List Text}
    (h : Spans 0 0 ls 0) : Spans 0 0 (namedLines name ls) 0 :=
  h.prefix_first (hname.isBare.isLevel.append (by decide))

end Literal

/-- The scan comes back to its depth behind the lines of a plain value. -/
theorem Value.IsPlain.spans {v : Value} (h : v.IsPlain) : Spans 0 0 v.lines 0 := by
  induction v, h using Value.IsPlain.induction_on with
  | scalar v h hs =>
    rw [h.isTidy.lines_of_isInline (h.isInline_scalar hs)]
    exact .singleton (h.encode_scalar hs).2
  | array values h ih =>
    by_cases hbroken : ∃ v ∈ values, ¬v.IsInline
    · rw [lines_array (fun v hv => (h v hv).isTidy) hbroken]
      have hstacked := spans_stackedLines (values.map lines) fun ls hls => by
        obtain ⟨v, hv, rfl⟩ := List.mem_map.mp hls
        exact ⟨(h v hv).isTidy.lines_ne_nil, ih v hv⟩
      have hopen : scanTo (.outside, 0) ['\x7b'] = some (.outside, 1) := rfl
      have hclose : scanTo (.outside, 1) ['\x7d'] = some (.outside, 0) := rfl
      exact .cons hopen (Nat.zero_le _) ((hstacked.lower (Nat.zero_le _)).append
        (.cons hclose (Nat.zero_le _) (.nil 0)))
    · have hinline : ∀ v ∈ values, v.IsInline := by
        intro v hv
        by_contra hnot
        exact hbroken ⟨v, hv, hnot⟩
      rw [(isTidy_array values).lines_of_isInline (isInline_array hinline)]
      refine .singleton ?_
      rw [encode_array]
      refine isLevel_encodeArray (fun part hpart => ?_) fun part hpart => ?_
      · obtain ⟨v, hv, rfl⟩ := List.mem_map.mp hpart
        exact (ih v hv).scanTo_eq
      · obtain ⟨v, hv, rfl⟩ := List.mem_map.mp hpart
        exact hinline v hv
  | annotated type elements htype hnames hvalues ih =>
    rw [IsPlain.lines_annotated htype hnames hvalues]
    have helements : Spans 0 0 (elements.flatMap fun e => namedLines e.1 e.2.lines) 0 := by
      clear htype hvalues
      induction elements with
      | nil => exact .nil 0
      | cons e elements ihe =>
        exact (spans_namedLines (hnames e List.mem_cons_self) (ih e List.mem_cons_self)).append
          (ihe (fun e he => hnames e (List.mem_cons_of_mem _ he))
            fun e he => ih e (List.mem_cons_of_mem _ he))
    have hheader : IsLevel (".subannotation " ++ type.descriptor) :=
      IsLevel.append (by decide) htype.isBare.isLevel
    exact (Spans.singleton hheader).append (helements.append (.singleton (by decide)))

/-- A text with the code lines of a plain value is level. -/
theorem Value.IsPlain.isLevel {v : Value} (h : v.IsPlain) {t : Text}
    (ht : codeLines t = v.lines) : IsLevel t := by
  have hspans := h.spans
  rw [← ht] at hspans
  exact hspans.scanTo_eq

end Smali
