import Smali.Proofs.ArrayParts
import Smali.Proofs.Feints

/-!
# Which values are read back

A plain value is read from its written form exactly if no line of it is taken for an opening line
that is none. An element of an annotation that is on one line must not feign an opening. An element
that is an annotation itself must be calm, since its lines are counted. The lines of an array are
not counted, so what stands in an array is read on its own. That the reading depends on nothing but
the code lines carries the induction: the texts of the parts are indented in other ways than their
written forms.
-/

namespace Smali

open Text Literal

/-- Whether an element with this value is not read to its end but further, or not to its end. -/
def Value.Misleads : Value → Prop
  | .annotated type elements => ¬(Value.annotated type elements).IsCalm
  | v => v.Feigns

/-- Whether no element of an annotation in the value misleads. -/
inductive Value.IsReadable : Value → Prop
  /-- A scalar. -/
  | scalar {v : Value} (h : v.IsScalar) : IsReadable v
  /-- An array. -/
  | array {values : List Value} (h : ∀ v ∈ values, IsReadable v) : IsReadable (.array values)
  /-- A nested annotation. -/
  | annotated {type : TypeName} {elements : List (Text × Value)}
      (hlines : ∀ e ∈ elements, ¬e.2.Misleads) (h : ∀ e ∈ elements, IsReadable e.2) :
      IsReadable (.annotated type elements)

namespace Literal

/-! ## Values over several lines -/

/-- A text with more lines below. -/
def below (t : Text) (ls : List Text) : Text := t ++ ls.flatMap ('\n' :: ·)

/-- One line and more lines below. -/
theorem below_cons (t l : Text) (ls : List Text) :
    below t (l :: ls) = below (t ++ '\n' :: l) ls := by simp [below]

/-- Lines and more lines below. -/
theorem below_append (t : Text) (ls more : List Text) :
    below t (ls ++ more) = below (below t ls) more := by simp [below]

/-- The code lines of a text with more lines below. -/
theorem codeLines_below {t : Text} {ls : List Text} (h : ∀ l ∈ ls, IsCodeLine l) :
    codeLines (below t ls) = codeLines t ++ ls := by
  induction ls generalizing t with
  | nil => simp [below]
  | cons l ls ih =>
    rw [below_cons, ih fun l hl => h l (List.mem_cons_of_mem _ hl), codeLines_append,
      (h l List.mem_cons_self).codeLines_eq, List.append_assoc]
    rfl

/-- Lines that do not end the nested annotations they stand in. -/
theorem outline_of_counts {count last : Nat} {ls : List Text} (h : Counts count ls last)
    (type name value : Text) (rest : List Text) :
    outline type (.nested name value count) (ls ++ rest) =
      outline type (.nested name (below value ls) last) rest := by
  induction h generalizing value with
  | nil => simp [below]
  | opens line _ ih => rw [List.cons_append, outline, if_pos line, ih, below_cons]
  | closes line closing _ ih =>
    rw [List.cons_append, outline, line, closing, if_neg Bool.false_ne_true, if_pos rfl,
      if_neg (by omega), Nat.add_sub_assoc (by omega), ih, below_cons]
  | other line closing _ ih =>
    rw [List.cons_append, outline, line, closing, if_neg Bool.false_ne_true,
      if_neg Bool.false_ne_true, ih, below_cons]

/-- Lines that do not end the array they stand in. -/
theorem outline_of_spans {depth last : Nat} {ls : List Text} (h : Spans 1 depth ls last)
    (type name value : Text) (rest : List Text) :
    outline type (.braces name value depth) (ls ++ rest) =
      outline type (.braces name (below value ls) last) rest := by
  induction h generalizing value with
  | nil => simp [below]
  | cons line above _ ih =>
    have hdepth := depthFrom_of_scanTo line
    rw [List.cons_append, outline, braceDepth, hdepth, if_neg (by omega), ih, below_cons]

/-- If the count is too high, then the annotation is not closed by its closing line. -/
theorem flaw_of_adds {ls : List Text} {n : Nat} (h : Adds ls n) (type name value : Text)
    (count : Nat) :
    (outline type (.nested name value (count + 1)) (ls ++ [closing])).flaw ≠ none := by
  have hopens : opensAnnotation closing = false := by decide
  have hcloses : closesAnnotation closing = true := by decide
  rw [outline_of_counts (h count), outline, hopens, hcloses, if_neg Bool.false_ne_true,
    if_pos rfl]
  split
  · exact Option.some_ne_none _
  · exact Option.some_ne_none _

/-- The first line of an element. -/
theorem outline_named {name l : Text} (hname : name.IsIdentifier) (hl : IsCodeLine l)
    (type : Text) (rest : List Text) :
    outline type .none ((name ++ " = " ++ l) :: rest) =
      if opensAnnotation l then outline type (.nested name l 1) rest
      else if l.head? = some '\x7b' ∧ 0 < braceDepth l then
        outline type (.braces name l (braceDepth l)) rest
      else (outline type .none rest).add name l := by
  have hequals : '=' ∉ name ++ [' '] := by
    have hmem : '=' ∉ name := hname.isBare.not_mem (by decide)
    simp [hmem]
  have htext : name ++ " = " ++ l = (name ++ [' ']) ++ '=' :: ([' '] ++ l) := by simp
  have hclosing : name ++ " = " ++ l ≠ closing := by
    have hne := (isOrdinary_named hname l).not_closing []
    rwa [List.append_nil] at hne
  have hbefore : trim (name ++ [' ']) = name :=
    (trim_append_right (by decide) name).trans hname.isBare.isCodeLine.trimmed.trim_eq
  have hafter : trim ([' '] ++ l) = l :=
    (trim_append_left (by decide) l).trans hl.trimmed.trim_eq
  rw [outline, if_neg hclosing, htext, cut?_of_not_mem hequals]
  dsimp only
  rw [hbefore, hafter]

/-! ## Elements of annotations -/

/-- An array that takes several lines has its first line to itself. -/
theorem broken_array {values : List Value} (h : ∀ v ∈ values, v.IsPlain)
    (hinline : ¬(Value.array values).IsInline) :
    (Value.array values).lines =
      ['\x7b'] :: (stackedLines (values.map Value.lines) ++ [['\x7d']]) := by
  refine Value.lines_array (fun v hv => (h v hv).isTidy) ?_
  by_contra hall
  exact hinline (Value.isInline_array (by simpa using hall))

/-- An element that does not mislead is read with its lines and no others. -/
theorem exists_outline_element {v : Value} (h : v.IsPlain) (hgood : ¬v.Misleads) {name : Text}
    (hname : name.IsIdentifier) (type : Text) :
    ∃ text, codeLines text = v.lines ∧ ∀ rest,
      outline type .none (namedLines name v.lines ++ rest) =
        (outline type .none rest).add name text := by
  by_cases hinline : v.IsInline
  · -- the text ends on the line
    have hlines := h.isTidy.lines_of_isInline hinline
    have hcode : IsCodeLine v.encode := Value.isCodeLine_of_mem_lines (hlines ▸ List.mem_cons_self)
    have hordinary : IsOrdinary v.encode := by
      have hempty := isOrdinary_encode h hinline []
      rwa [List.append_nil] at hempty
    have hfeigns : ¬FeignsOpening v.encode := by
      intro hfeigns
      refine hgood ?_
      cases v with
      | annotated type elements => exact absurd hinline (Value.not_isInline_annotated type elements)
      | _ => exact ⟨hinline, hfeigns⟩
    have hdepth := (h.isLevel (t := v.encode) rfl).braceDepth_eq
    refine ⟨v.encode, rfl, fun rest => ?_⟩
    rw [hlines, namedLines_cons, List.singleton_append, outline_named hname hcode,
      if_neg (mt hordinary.opensAnnotation_iff.mp hfeigns), if_neg (by omega)]
  · cases v with
    | array values =>
      -- the count of braces is back at the last line
      have hplain := h.of_array
      have hlines := broken_array hplain hinline
      have hspans := spans_stackedLines (values.map Value.lines) fun ls hls => by
        obtain ⟨v, hv, rfl⟩ := List.mem_map.mp hls
        exact ⟨(hplain v hv).isTidy.lines_ne_nil, (hplain v hv).spans⟩
      have hbrace : IsCodeLine ['\x7b'] :=
        ⟨by decide, isTrimmed_of_ends rfl rfl rfl rfl, by decide⟩
      refine ⟨below ['\x7b'] (stackedLines (values.map Value.lines) ++ [['\x7d']]), ?_,
        fun rest => ?_⟩
      · have hmore := fun l hl =>
          Value.isCodeLine_of_mem_lines (l := l) (hlines ▸ List.mem_cons_of_mem _ hl)
        rw [codeLines_below hmore,
          hbrace.codeLines_eq, hlines]
        rfl
      · have hopen : opensAnnotation ['\x7b'] = false := by decide
        have hdepth : braceDepth ['\x7b'] = ((1 : Nat) : Int) := rfl
        have hend : ((1 : Nat) : Int) + braceDepth ['\x7d'] ≤ 0 := by decide
        rw [hlines, namedLines_cons, List.cons_append, outline_named hname hbrace, hopen,
          if_neg Bool.false_ne_true, if_pos ⟨rfl, by decide⟩, hdepth, List.append_assoc,
          outline_of_spans hspans, List.singleton_append, outline, if_pos hend, below_append]
        simp [below]
    | annotated annotation elements =>
      -- the count of annotations is back at the last line
      obtain ⟨htype, hnames, hvalues⟩ := h.of_annotated
      have hcalm := Value.isCalm_annotated.mp (not_not.mp hgood)
      obtain ⟨n, hn, hadds⟩ := Value.adds_namedLines hnames fun e he => (hvalues e he).isCounted
      obtain rfl := hn.mpr hcalm
      have hlines := Value.IsPlain.lines_annotated htype hnames hvalues
      have hheader : IsCodeLine (".subannotation " ++ annotation.descriptor) :=
        Value.isCodeLine_of_mem_lines (hlines ▸ List.mem_cons_self)
      have hopens : opensAnnotation (".subannotation " ++ annotation.descriptor) = true :=
        opensAnnotation_iff.mpr (.inl ⟨' ' :: annotation.descriptor, rfl⟩)
      have hclosing : opensAnnotation closing = false ∧ closesAnnotation closing = true := by decide
      refine ⟨below (".subannotation " ++ annotation.descriptor)
        (elements.flatMap (fun e => namedLines e.1 e.2.lines) ++ [closing]), ?_, fun rest => ?_⟩
      · have hmore := fun l hl =>
          Value.isCodeLine_of_mem_lines (l := l) (hlines ▸ List.mem_cons_of_mem _ hl)
        rw [codeLines_below hmore,
          hheader.codeLines_eq, hlines]
        rfl
      · rw [hlines, namedLines_cons, List.cons_append, outline_named hname hheader, if_pos hopens,
          List.append_assoc, outline_of_counts (hadds 0), List.singleton_append, outline,
          hclosing.1, hclosing.2, if_neg Bool.false_ne_true, if_pos rfl, if_pos (by omega),
          below_append]
        simp [below]
    | _ => exact absurd (h.isInline_scalar trivial) hinline

/-- An element that misleads leaves the annotation open, whatever elements follow. -/
theorem flaw_of_misleads {v : Value} (h : v.IsPlain) (hbad : v.Misleads) {name : Text}
    (hname : name.IsIdentifier) {more : List Text} {n : Nat} (hmore : Adds more n) (type : Text) :
    (outline type .none (namedLines name v.lines ++ (more ++ [closing]))).flaw ≠ none := by
  cases v with
  | annotated annotation elements =>
    -- the count is too high at the line that closes the element
    obtain ⟨htype, hnames, hvalues⟩ := h.of_annotated
    obtain ⟨m, hm, hadds⟩ := Value.adds_namedLines hnames fun e he => (hvalues e he).isCounted
    have hpos : m ≠ 0 := fun hzero => hbad (Value.isCalm_annotated.mpr (hm.mp hzero))
    obtain ⟨k, rfl⟩ := Nat.exists_eq_succ_of_ne_zero hpos
    have hlines := Value.IsPlain.lines_annotated htype hnames hvalues
    have hheader : IsCodeLine (".subannotation " ++ annotation.descriptor) :=
      Value.isCodeLine_of_mem_lines (hlines ▸ List.mem_cons_self)
    have hopens : opensAnnotation (".subannotation " ++ annotation.descriptor) = true :=
      opensAnnotation_iff.mpr (.inl ⟨' ' :: annotation.descriptor, rfl⟩)
    have hclosing : opensAnnotation closing = false ∧ closesAnnotation closing = true := by decide
    rw [hlines, namedLines_cons, List.cons_append, outline_named hname hheader, if_pos hopens,
      List.append_assoc, outline_of_counts (hadds 0), List.singleton_append, outline,
      hclosing.1, hclosing.2, if_neg Bool.false_ne_true, if_pos rfl, if_neg (by omega)]
    have hcount : 0 + 1 + k.succ - 1 = k + 1 := by omega
    rw [hcount]
    exact flaw_of_adds hmore type name _ k
  | _ =>
    -- the first line opens an annotation that is none
    obtain ⟨hinline, hfeigns⟩ := hbad
    have hlines := h.isTidy.lines_of_isInline hinline
    rw [hlines, namedLines_cons, List.singleton_append,
      outline_named hname (Value.isCodeLine_of_mem_lines (hlines ▸ List.mem_cons_self)),
      if_pos (opensAnnotation_iff.mpr (.inr hfeigns))]
    exact flaw_of_adds hmore type name _ 0

/-! ## Annotations -/

/-- Whether the texts have the names of the elements and the code lines of their values. -/
def AreElements (texts : List (Text × Text)) (elements : List (Text × Value)) : Prop :=
  List.Forall₂ (fun t e => t.1 = e.1 ∧ codeLines t.2 = e.2.lines) texts elements

section Elements

variable {elements : List (Text × Value)} (hnames : ∀ e ∈ elements, e.1.IsIdentifier)
  (hvalues : ∀ e ∈ elements, e.2.IsPlain)

include hnames hvalues

/-- If no element misleads, each is read with its lines. -/
theorem exists_outline_elements (hgood : ∀ e ∈ elements, ¬e.2.Misleads) (type : Text) :
    ∃ texts, outline type .none (elements.flatMap (fun e => namedLines e.1 e.2.lines) ++
      [closing]) = ⟨texts, none⟩ ∧ AreElements texts elements := by
  induction elements with
  | nil => exact ⟨[], rfl, .nil⟩
  | cons e elements ih =>
    obtain ⟨text, htext, hstep⟩ := exists_outline_element (hvalues e List.mem_cons_self)
      (hgood e List.mem_cons_self) (hnames e List.mem_cons_self) type
    obtain ⟨texts, hrest, htexts⟩ := ih (fun e he => hnames e (List.mem_cons_of_mem _ he))
      (fun e he => hvalues e (List.mem_cons_of_mem _ he))
      fun e he => hgood e (List.mem_cons_of_mem _ he)
    refine ⟨(e.1, text) :: texts, ?_, .cons ⟨rfl, htext⟩ htexts⟩
    rw [List.flatMap_cons, List.append_assoc, hstep, hrest]
    rfl

/-- An annotation that is closed by its closing line holds no element that misleads. -/
theorem not_misleads_of_outline (type : Text)
    (h : (outline type .none (elements.flatMap (fun e => namedLines e.1 e.2.lines) ++
      [closing])).flaw = none) : ∀ e ∈ elements, ¬e.2.Misleads := by
  induction elements with
  | nil => exact fun e he => absurd he List.not_mem_nil
  | cons e elements ih =>
    have hnames' := fun e he => hnames e (List.mem_cons_of_mem _ he)
    have hvalues' := fun e he => hvalues e (List.mem_cons_of_mem _ he)
    rw [List.flatMap_cons, List.append_assoc] at h
    have hfirst : ¬e.2.Misleads := by
      intro hbad
      obtain ⟨n, -, hmore⟩ := Value.adds_namedLines hnames' fun e he => (hvalues' e he).isCounted
      exact flaw_of_misleads (hvalues e List.mem_cons_self) hbad (hnames e List.mem_cons_self)
        hmore type h
    obtain ⟨text, -, hstep⟩ := exists_outline_element (hvalues e List.mem_cons_self) hfirst
      (hnames e List.mem_cons_self) type
    rw [hstep] at h
    exact List.forall_mem_cons.mpr ⟨hfirst, ih hnames' hvalues' h⟩

end Elements

/-- A text whose first code line opens an annotation has the shape of one. -/
theorem shape_of_opening {type : TypeName} {after : Text} {ls : List Text} {t : Text}
    (ht : codeLines t = (opening ++ after) :: ls) (htype : TypeName.parse (trim after) = .ok type) :
    shape (trim t) = .annotated type (outline type.descriptor .none ls) := by
  have hstarts : Text.startsWith (trim t) opening = true := by
    obtain ⟨before, rest, hbefore, rfl, -⟩ := exists_of_codeLines_eq_cons ht
    exact startsWith_trim_iff.mpr ⟨before, after ++ rest, by rw [List.append_assoc], hbefore⟩
  have hafter : Text.after? opening (opening ++ after) = some after := rfl
  have hannotation : annotationShape (trim t) =
      .annotated type (outline type.descriptor .none ls) := by
    rw [annotationShape, codeLines_trim, ht]
    dsimp only
    rw [hafter]
    dsimp only
    rw [htype]
  obtain ⟨rest, hrest⟩ := startsWith_iff.mp hstarts
  have hne : ∀ {word : Text} {d : Char}, word.head? = some d → '.' ≠ d → trim t ≠ word := by
    intro word d hword hd
    rw [hrest]
    exact ne_of_head? hword hd
  have hempty : ¬(trim t).isEmpty = true := by
    rw [hrest]
    exact Bool.false_ne_true
  unfold shape
  rw [if_neg hempty, if_neg (hne (by decide) (by decide : '.' ≠ 'n')),
    if_neg (hne (by decide) (by decide : '.' ≠ 't')),
    if_neg (hne (by decide) (by decide : '.' ≠ 'f')), if_pos hstarts, hannotation]

/-- A text with the code lines of an annotation has the shape of one. -/
theorem shape_annotated {type : TypeName} (htype : type.IsPlain) {ls : List Text} {t : Text}
    (ht : codeLines t = (".subannotation " ++ type.descriptor) :: ls) :
    shape (trim t) = .annotated type (outline type.descriptor .none ls) := by
  have htrim : trim (' ' :: type.descriptor) = type.descriptor :=
    (trim_append_left (w := [' ']) (by decide) _).trans htype.isBare.isCodeLine.trimmed.trim_eq
  have hlines : codeLines t = (opening ++ ' ' :: type.descriptor) :: ls := ht
  exact shape_of_opening hlines (htrim.symm ▸ TypeName.parse_descriptor htype.wellFormed)

end Literal

/-! ## Reading back -/

/-- A relation that follows from another one for the elements of the second list. -/
theorem forall₂_imp_of_mem {α β : Type} {R S : α → β → Prop} {as : List α} {bs : List β}
    (h : List.Forall₂ R as bs) (himp : ∀ b ∈ bs, ∀ a, R a b → S a b) : List.Forall₂ S as bs := by
  induction h with
  | nil => exact .nil
  | cons hab _ ih =>
    exact .cons (himp _ List.mem_cons_self _ hab)
      (ih fun b hb => himp b (List.mem_cons_of_mem _ hb))

/-- An element on the right has a partner on the left in two relations. -/
theorem exists_of_forall₂_of_forall₂ {α β γ : Type} {R : α → β → Prop} {S : α → γ → Prop}
    {as : List α} {bs : List β} {cs : List γ} (h : List.Forall₂ R as bs)
    (hS : List.Forall₂ S as cs) {b : β} (hb : b ∈ bs) : ∃ a c, R a b ∧ S a c := by
  induction h generalizing cs with
  | nil => exact absurd hb List.not_mem_nil
  | cons hab _ ih =>
    cases hS with
    | cons hac hrest =>
      cases hb with
      | head => exact ⟨_, _, hab, hac⟩
      | tail _ hb => exact ih hrest hb

namespace Value

/-- A readable value is read from any text with its code lines. -/
theorem IsPlain.decode_of_lines {v : Value} (h : v.IsPlain) (hreadable : v.IsReadable) {t : Text}
    (ht : codeLines t = v.lines) : decode t = .ok v := by
  -- the texts of the parts have the code lines of the parts, so that the induction reads them
  induction v, h using Value.IsPlain.induction_on generalizing t with
  | scalar v h hs =>
    rw [h.isTidy.lines_of_isInline (h.isInline_scalar hs)] at ht
    exact decode_of_leaf (trim_of_codeLines_eq_singleton ht ▸ h.shape_encode hs)
  | array values h ih =>
    have hvalues : ∀ v ∈ values, v.IsReadable := by
      cases hreadable with
      | scalar hs => exact absurd hs id
      | array hvalues => exact hvalues
    obtain ⟨parts, hshape, hparts⟩ := exists_shape_array (fun v hv => (h v hv).isTidy)
      (areParts_encode h) ht
    have hdecode : parts.mapM decode = .ok values := mapM_eq_ok_iff.mpr
      (forall₂_imp_of_mem hparts fun v hv part hpart => ih v hv (hvalues v hv) hpart)
    rw [decode_of_array hshape, hdecode]
    rfl
  | annotated type elements htype hnames hvalues ih =>
    obtain ⟨hgood, hreadable⟩ : (∀ e ∈ elements, ¬e.2.Misleads) ∧
        ∀ e ∈ elements, e.2.IsReadable := by
      cases hreadable with
      | scalar hs => exact absurd hs id
      | annotated hgood hreadable => exact ⟨hgood, hreadable⟩
    rw [IsPlain.lines_annotated htype hnames hvalues] at ht
    obtain ⟨texts, houtline, htexts⟩ :=
      exists_outline_elements hnames hvalues hgood type.descriptor
    have hshape := shape_annotated htype ht
    rw [houtline] at hshape
    have hdecode : (texts.mapM fun t => (decode t.2).map fun v => (t.1, v)) = .ok elements := by
      refine mapM_eq_ok_iff.mpr (forall₂_imp_of_mem htexts fun e he t ht => ?_)
      rw [ih e he (hreadable e he) ht.2, ht.1]
      rfl
    rw [decode_of_annotated hshape]
    dsimp only
    rw [hdecode]
    rfl

/-- A value that is read at all is readable. -/
theorem IsPlain.isReadable_of_decode {v w : Value} (h : v.IsPlain) {t : Text}
    (ht : codeLines t = v.lines) (hdecode : decode t = .ok w) : v.IsReadable := by
  induction v, h using Value.IsPlain.induction_on generalizing t w with
  | scalar v h hs => exact .scalar hs
  | array values h ih =>
    obtain ⟨parts, hshape, hparts⟩ := exists_shape_array (fun v hv => (h v hv).isTidy)
      (areParts_encode h) ht
    rw [decode_of_array hshape] at hdecode
    obtain ⟨results, hresults, -⟩ := exists_of_map_eq_ok hdecode
    refine .array fun v hv => ?_
    obtain ⟨part, result, hpart, hresult⟩ :=
      exists_of_forall₂_of_forall₂ hparts (mapM_eq_ok_iff.mp hresults) hv
    exact ih v hv hpart hresult
  | annotated type elements htype hnames hvalues ih =>
    rw [IsPlain.lines_annotated htype hnames hvalues] at ht
    have hshape := shape_annotated htype ht
    rw [decode_of_annotated hshape] at hdecode
    obtain ⟨results, hresults, hflaw⟩ := exists_of_bind_eq_ok hdecode
    have hgood : ∀ e ∈ elements, ¬e.2.Misleads := by
      refine not_misleads_of_outline hnames hvalues type.descriptor ?_
      cases ho : (outline type.descriptor .none
          (elements.flatMap (fun e => namedLines e.1 e.2.lines) ++ [closing])).flaw with
      | none => rfl
      | some flaw => rw [ho] at hflaw; cases hflaw
    obtain ⟨texts, houtline, htexts⟩ :=
      exists_outline_elements hnames hvalues hgood type.descriptor
    rw [houtline] at hresults
    refine .annotated hgood fun e he => ?_
    obtain ⟨text, result, htext, hresult⟩ :=
      exists_of_forall₂_of_forall₂ htexts (mapM_eq_ok_iff.mp hresults) he
    obtain ⟨value, hvalue, -⟩ := exists_of_map_eq_ok hresult
    exact ih e he htext.2 hvalue

end Value

/-- A plain value is read from its written form exactly if it is readable. -/
theorem decode_encode_iff (v : Value) (h : v.IsPlain) :
    decode v.encode = .ok v ↔ v.IsReadable :=
  ⟨fun hdecode => h.isReadable_of_decode rfl hdecode,
    fun hreadable => h.decode_of_lines hreadable rfl⟩

/-- Two nested annotations, one of them in an array next to a text with an equals sign. -/
def Value.twoNested : Value :=
  .annotated (.object "a/B")
    [("x", .array [.string "=\x7d, \"", .annotated (.object "C") [("y", .int (-1))]]),
      ("z", .annotated (.object "D") [("w", .array [.char '=', .null])])]

/-- It is read back, since no line of it feigns an opening. -/
theorem decode_encode_twoNested :
    Value.twoNested.IsPlain ∧ decode Value.twoNested.encode = .ok Value.twoNested := by
  have hobject : ∀ name : Text, name.IsIdentifier → name.all TypeName.isNameChar = true →
      (TypeName.object name).IsPlain := fun name hname hchars =>
    ⟨⟨hname.ne_nil, List.all_eq_true.mp hchars⟩,
      fun _ hmem => Option.some.inj hmem ▸ hname.isClassName⟩
  have hfirst : (TypeName.object "a/B").IsPlain := by
    refine ⟨by decide, fun _ hmem => Option.some.inj hmem ▸ ?_⟩
    exact ⟨[['a'], ['B']], by decide, by decide, rfl⟩
  have hplain : Value.twoNested.IsPlain := by
    refine .annotated hfirst (by decide) ?_
    simp only [List.forall_mem_cons]
    refine ⟨.array ?_, .annotated (hobject "D" (by decide) rfl) (by decide) ?_,
      List.forall_mem_nil _⟩
    · simp only [List.forall_mem_cons]
      refine ⟨.string _, .annotated (hobject "C" (by decide) rfl) (by decide) ?_,
        List.forall_mem_nil _⟩
      simpa using Value.IsPlain.int (-1)
    · simp only [List.forall_mem_cons]
      refine ⟨.array ?_, List.forall_mem_nil _⟩
      simp only [List.forall_mem_cons]
      exact ⟨.char '=', .null, List.forall_mem_nil _⟩
  refine ⟨hplain, (decode_encode_iff _ hplain).mpr (.annotated ?_ ?_)⟩
  · simp only [List.forall_mem_cons]
    refine ⟨fun hfeigns => absurd hfeigns.1 (by decide), fun hcalm => hcalm (.annotated ?_),
      List.forall_mem_nil _⟩
    simp only [List.forall_mem_cons]
    exact ⟨.inline (by decide), List.forall_mem_nil _⟩
  · simp only [List.forall_mem_cons]
    refine ⟨.array ?_, .annotated ?_ ?_, List.forall_mem_nil _⟩
    · simp only [List.forall_mem_cons]
      refine ⟨.scalar trivial, .annotated ?_ ?_, List.forall_mem_nil _⟩
      · simp only [List.forall_mem_cons]
        exact ⟨fun hfeigns => absurd hfeigns.2 (by decide), List.forall_mem_nil _⟩
      · simp only [List.forall_mem_cons]
        exact ⟨.scalar trivial, List.forall_mem_nil _⟩
    · simp only [List.forall_mem_cons]
      exact ⟨fun hfeigns => absurd hfeigns.2 (by decide), List.forall_mem_nil _⟩
    · simp only [List.forall_mem_cons]
      refine ⟨.array ?_, List.forall_mem_nil _⟩
      simp only [List.forall_mem_cons]
      exact ⟨.scalar trivial, .scalar trivial, List.forall_mem_nil _⟩

/-- An annotation whose only element is a text that feigns an opening is not read back. -/
theorem feigned_opening_not_read :
    (Value.annotated (.object "a") [("x", .string "=.subannotation")]).IsPlain ∧
      decode (Value.annotated (.object "a") [("x", .string "=.subannotation")]).encode ≠
        .ok (.annotated (.object "a") [("x", .string "=.subannotation")]) := by
  have htype : (TypeName.object "a").IsPlain :=
    ⟨by decide, fun _ hmem => Option.some.inj hmem ▸ IsIdentifier.isClassName (by decide)⟩
  have hplain : (Value.annotated (.object "a") [("x", .string "=.subannotation")]).IsPlain :=
    .annotated htype (by decide) (by simpa using Value.IsPlain.string "=.subannotation")
  refine ⟨hplain, fun hdecode => ?_⟩
  cases hplain.isReadable_of_decode rfl hdecode with
  | scalar hs => exact hs
  | annotated hlines h =>
    have hfeigns : (Value.string "=.subannotation").Feigns :=
      ⟨by decide, by decide⟩
    exact hlines _ List.mem_cons_self hfeigns

end Smali
