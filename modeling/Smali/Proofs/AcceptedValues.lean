import Smali.Proofs.Divisions
import Smali.Proofs.Gathering

/-!
# Values as they are read

The names in a value that was read need not be plain: they may hold quotes, braces, commas and even
line ends. Still a scalar is read back from its written form, the name of an element holds neither
an equals sign nor a line end, and what was gathered from the lines of an annotation is tight. These
facts are all that the reading of the written form needs to know of where a value comes from.
-/

namespace Smali

open Text Literal

/-- Whether a value holds no floating-point number. -/
inductive Value.IsFloatless : Value → Prop
  /-- A scalar of another kind. -/
  | scalar {v : Value} (hs : v.IsScalar) (hsingle : ∀ bits, v ≠ .float bits)
      (hdouble : ∀ bits, v ≠ .double bits) : IsFloatless v
  /-- An array. -/
  | array {values : List Value} (h : ∀ v ∈ values, IsFloatless v) : IsFloatless (.array values)
  /-- A nested annotation. -/
  | annotated {type : TypeName} {elements : List (Text × Value)}
      (h : ∀ e ∈ elements, IsFloatless e.2) : IsFloatless (.annotated type elements)

/-- The name of an element as it may be read. -/
structure Text.IsElementName (name : Text) : Prop where
  /-- It is on one line. -/
  inline : name.IsInline
  /-- It has no blanks around it. -/
  trimmed : name.IsTrimmed
  /-- It ends in front of the first equals sign. -/
  noEquals : '=' ∉ name

/-- What is known of a value that was read, from the lines of an annotation if `gathered` is set. -/
inductive Value.IsAccepted : Bool → Value → Prop
  /-- A scalar is read back. -/
  | scalar {gathered : Bool} {v : Value} (tidy : v.IsTidy) (shape : Literal.shape v.encode = .leaf (.ok v))
      (tight : gathered = true → v.encode.IsTight) : IsAccepted gathered v
  /-- An array. -/
  | array {gathered : Bool} {values : List Value} (h : ∀ v ∈ values, IsAccepted gathered v) :
      IsAccepted gathered (.array values)
  /-- A nested annotation. -/
  | annotated {gathered : Bool} {type : TypeName} {elements : List (Text × Value)}
      (parses : TypeName.parse type.descriptor = .ok type) (line : IsCodeLine type.descriptor)
      (names : ∀ e ∈ elements, e.1.IsElementName) (h : ∀ e ∈ elements, IsAccepted true e.2) :
      IsAccepted gathered (.annotated type elements)

namespace Value

/-- No floating-point number in the values of an array. -/
theorem IsFloatless.of_array {values : List Value} (h : (Value.array values).IsFloatless) :
    ∀ v ∈ values, v.IsFloatless := by
  cases h with
  | scalar hs => exact absurd hs id
  | array h => exact h

/-- Nor in those of an annotation. -/
theorem IsFloatless.of_annotated {type : TypeName} {elements : List (Text × Value)}
    (h : (Value.annotated type elements).IsFloatless) : ∀ e ∈ elements, e.2.IsFloatless := by
  cases h with
  | scalar hs => exact absurd hs id
  | annotated h => exact h

/-- Such a value is no single-precision number. -/
theorem IsFloatless.ne_float {v : Value} (h : v.IsFloatless) (bits : UInt32) : v ≠ float bits := by
  cases h with
  | scalar _ hsingle _ => exact hsingle bits
  | array => exact Value.noConfusion
  | annotated => exact Value.noConfusion

/-- Nor is it a double-precision number. -/
theorem IsFloatless.ne_double {v : Value} (h : v.IsFloatless) (bits : UInt64) :
    v ≠ double bits := by
  cases h with
  | scalar _ _ hdouble => exact hdouble bits
  | array => exact Value.noConfusion
  | annotated => exact Value.noConfusion

/-- So it is an integer if it is a number. -/
theorem IsFloatless.isSimple {v : Value} (h : v.IsFloatless) (hnumber : v.IsNumber) :
    v.IsSimple := by
  cases hnumber with
  | int n => exact .int n
  | long n => exact .long n
  | short n => exact .short n
  | byte n => exact .byte n
  | float bits => exact absurd rfl (h.ne_float bits)
  | double bits => exact absurd rfl (h.ne_double bits)

/-- The written form of a value that was read has no blanks at its ends. -/
theorem IsAccepted.isTidy {gathered : Bool} {v : Value} (h : IsAccepted gathered v) : v.IsTidy := by
  cases h with
  | scalar tidy => exact tidy
  | array => exact isTidy_array _
  | annotated => exact isTidy_annotated _ _

end Value

namespace Literal

/-! ## Scalars -/

/-- An enum constant is read behind its keyword and a space. -/
theorem shape_enum {r : Text} (hr : IsTrimmed r) :
    shape (".enum " ++ r) = .leaf (enumeration r (".enum " ++ r)) := by
  have hshape : shape (".enum " ++ r) =
      .leaf (enumeration (trim (' ' :: r)) (".enum " ++ r)) := rfl
  have htrim : trim (' ' :: r) = r :=
    (trim_append_left (isBlank_cons.mpr ⟨rfl, isBlank_nil⟩) _).trans hr.trim_eq
  rw [hshape, htrim]

/-- A scalar is written as it was read, or it is an enum constant with other blanks behind its
keyword, or it is a number or quoted. -/
theorem cases_of_leaf {t : Text} {v : Value} (h : shape t = .leaf (.ok v)) (hv : v.IsFloatless) :
    v.encode = t ∨
      (∃ rest owner name type, t = ".enum" ++ rest ∧ v = .enumeration owner name type ∧
        reference (trim rest) = .ok (.field owner name type) ∧
          fieldReference owner name type = trim rest) ∨
      (∃ body, quotedText '"' t = .ok body ∧ v = .string body) ∨
      (∃ c, quotedText '\'' t = .ok [c] ∧ v = .char c) ∨
      (isNumeral t = true ∧ v.IsSimple) := by
  obtain ⟨rfl, rfl⟩ | ⟨rfl, rfl⟩ | ⟨rfl, rfl⟩ | ⟨rest, rfl, henum⟩ | hscalar :=
    cases_of_leaf_shape h
  · exact .inl rfl
  · exact .inl rfl
  · exact .inl rfl
  · obtain ⟨owner, name, type, hreference, rfl⟩ := reference_of_enumeration henum
    exact .inr (.inl ⟨rest, owner, name, type, rfl, rfl, hreference,
      encode_of_reference hreference⟩)
  · obtain hstring | hchar | hreference | hnumber | ⟨-, type, htype, rfl⟩ :=
      cases_of_scalar hscalar
    · exact .inr (.inr (.inl hstring))
    · exact .inr (.inr (.inr (.inl hchar)))
    · exact .inl (encode_of_reference hreference)
    · obtain (⟨bits, rfl⟩ | ⟨bits, rfl⟩) | ⟨numeral, hparse, hvalue⟩ := cases_of_number? hnumber
      · exact absurd rfl (hv.ne_float bits)
      · exact absurd rfl (hv.ne_double bits)
      · have hnumeral : isNumeral t = true := Option.isSome_iff_exists.mpr ⟨numeral, hparse⟩
        exact .inr (.inr (.inr (.inr ⟨hnumeral, hv.isSimple (isNumber_of_numeral hvalue)⟩)))
    · exact .inl (TypeName.descriptor_of_parse? htype)

/-- A scalar that was read is read back from its written form. -/
theorem isAccepted_of_leaf {gathered : Bool} {t : Text} {v : Value}
    (h : shape (trim t) = .leaf (.ok v)) (hv : v.IsFloatless)
    (htight : gathered = true → t.IsTight) : v.IsAccepted gathered := by
  have hsimple : v.IsSimple → v.IsAccepted gathered := by
    intro hsimple
    have hs := isScalar_of_leaf h
    have hline := (hsimple.isListed_scalar hs).line
    exact .scalar ⟨hline.ne_nil, hline.trimmed⟩ (hsimple.shape_encode hs)
      fun _ => hline.inline.isTight
  obtain hsame | ⟨rest, owner, name, type, htext, rfl, hreference, hrest⟩ | ⟨body, -, rfl⟩ |
    ⟨c, -, rfl⟩ | ⟨-, hnumber⟩ := cases_of_leaf h hv
  · refine .scalar ⟨?_, hsame ▸ isTrimmed_trim t⟩ (hsame ▸ h) fun hg => hsame ▸ (htight hg).trim
    rintro hnil
    rw [hsame] at hnil
    rw [hnil] at h
    cases h
  · have hencode : (Value.enumeration owner name type).encode = ".enum " ++ trim rest := by
      rw [Value.encode_enumeration, hrest]
    have hne : trim rest ≠ [] := by
      intro hnil
      rw [hnil] at hreference
      cases hreference
    have hlast : ∀ c ∈ (".enum ".toList ++ trim rest).getLast?, isBlank c = false := by
      intro c hc
      rw [List.getLast?_append_of_ne_nil _ hne] at hc
      exact (isTrimmed_trim rest).2 c hc
    refine .scalar ⟨?_, ?_⟩ ?_ fun hg => ?_
    · rw [hencode]
      exact List.cons_ne_nil _ _
    · rw [hencode]
      exact ⟨by rintro _ ⟨⟩; rfl, hlast⟩
    · rw [hencode, shape_enum (isTrimmed_trim rest), enumeration, hreference]
      rfl
    · have hwhole := (htight hg).trim
      rw [htext, ← List.append_nil rest] at hwhole
      rw [hencode]
      exact (IsTight.of_part hwhole).append_left (by decide)
  · exact hsimple (.string body)
  · exact hsimple (.char c)
  · exact hsimple hnumber

/-! ## Parts -/

/-- The parts of a list are parts of the text. -/
theorem infix_of_mem_partsFrom {t part : Text} (h : part ∈ partsFrom .outside 0 t) :
    part <:+: t := by
  generalize hparts : partsFrom .outside 0 t = parts at h
  induction parts generalizing t with
  | nil => exact absurd h List.not_mem_nil
  | cons first more ih =>
    obtain ⟨rfl, rfl, -⟩ | ⟨rest, rfl, -, hrest⟩ := exists_of_partsFrom hparts
    · exact List.mem_singleton.mp h ▸ List.infix_refl _
    · cases h with
      | head => exact (List.prefix_append _ _).isInfix
      | tail _ h =>
        have hsuffix : rest <:+ first ++ ',' :: rest := ⟨first ++ [','], by simp⟩
        exact (ih hrest h).trans hsuffix.isInfix

/-- The elements of a tight array are tight. -/
theorem isTight_of_array_shape {text part : Text} {parts : List Text}
    (h : shape text = .array parts) (ht : text.IsTight) (hpart : part ∈ parts) : part.IsTight := by
  obtain ⟨inner, rfl, rfl⟩ := exists_of_array_shape h
  obtain ⟨whole, hwhole, rfl⟩ := List.mem_map.mp (List.mem_filter.mp hpart).1
  obtain ⟨before, after, rfl⟩ := infix_of_mem_partsFrom hwhole
  have hwhole : IsTight (('\x7b' :: before) ++ (whole ++ (after ++ ['\x7d']))) := by simpa using ht
  exact hwhole.of_part

/-- A value with more lines below stands on its lines. -/
theorem below_eq_intercalate (t : Text) (ls : List Text) :
    below t ls = ['\n'].intercalate (t :: ls) := by
  induction ls generalizing t with
  | nil => simp [below]
  | cons l ls ih =>
    rw [List.intercalate_cons_cons, ← ih l]
    simp [below]

/-- What is gathered from code lines is tight. -/
theorem isTight_below {first : Text} {ls : List Text} (hinline : first.IsInline)
    (htrim : first.IsTrimmed) (hls : ∀ l ∈ ls, IsCodeLine l) (h : isGathered first ls = true) :
    IsTight (below first ls) := by
  by_cases hne : first = []
  · subst hne
    have hnil : ls = [] := List.isEmpty_iff.mp h
    rw [hnil]
    exact isInline_nil.isTight
  · rw [below_eq_intercalate]
    exact isTight_intercalate (List.forall_mem_cons.mpr ⟨⟨hinline, htrim, hne⟩, hls⟩)

/-- The names and the texts of elements. -/
theorem Outlines.isElementName_and_isTight {ls : List Text} {texts : List (Text × Text)}
    (h : Outlines ls texts) (hls : ∀ l ∈ ls, IsCodeLine l) :
    ∀ t ∈ texts, t.1.IsElementName ∧ t.2.IsTight := by
  induction h with
  | closing rest => exact fun t ht => absurd ht List.not_mem_nil
  | @element line before after ls more texts hline hcut hgathered _ ih =>
    obtain ⟨hfirst, hrest⟩ := List.forall_mem_cons.mp hls
    obtain ⟨hdone, hmore⟩ := List.forall_mem_append.mp hrest
    obtain ⟨c, -, rfl⟩ := eq_of_cut? hcut
    obtain ⟨hbefore, hafter⟩ := isInline_append.mp hfirst.inline
    have hvalue := (isInline_cons.mp hafter).2.of_subset (trim_subset after)
    refine List.forall_mem_cons.mpr ⟨⟨⟨hbefore.of_subset (trim_subset before),
      isTrimmed_trim before, fun hmem => not_mem_of_cut? hcut (trim_subset before hmem)⟩,
      isTight_below hvalue (isTrimmed_trim after) hdone hgathered⟩, ih hmore⟩

/-- The type, the lines and the elements of an annotation that was read. -/
theorem exists_of_annotated {text : Text} {type : TypeName} {o : Outline}
    (h : shape text = .annotated type o) (hflaw : o.flaw = none) :
    ∃ after rest, codeLines text = (opening ++ after) :: rest ∧
      TypeName.parse (trim after) = .ok type ∧ Outlines rest o.elements := by
  obtain ⟨after, rest, hlines, hparse, rfl⟩ := exists_of_annotated_shape h
  have hwhole : outline type.descriptor .none rest =
      ⟨(outline type.descriptor .none rest).elements, none⟩ := congrArg (Outline.mk _) hflaw
  exact ⟨after, rest, hlines, hparse, outline_eq_iff.mp hwhole⟩

end Literal

/-- What is known of every value that is read. -/
theorem Value.isAccepted_of_decode {t : Text} {v : Value} (h : decode t = .ok v)
    (hv : v.IsFloatless) {gathered : Bool} (htight : gathered = true → t.IsTight) :
    v.IsAccepted gathered := by
  induction t, v, h using decode_induction generalizing gathered with
  | leaf t v h hshape => exact isAccepted_of_leaf hshape hv htight
  | array t parts values h hshape hvalues =>
    refine .array fun v hmem => ?_
    obtain ⟨part, hpart, -, ih⟩ := exists_of_forall₂ hvalues hmem
    exact ih (hv.of_array v hmem)
      fun hg => isTight_of_array_shape hshape (htight hg).trim hpart
  | annotated t type o elements h hshape hflaw helements =>
    obtain ⟨after, rest, hlines, hparse, houtlines⟩ := exists_of_annotated hshape hflaw
    have hcode : ∀ l ∈ (opening ++ after) :: rest, IsCodeLine l :=
      fun l hl => isCodeLine_of_mem_codeLines (hlines ▸ hl)
    obtain ⟨hheader, hrest⟩ := List.forall_mem_cons.mp hcode
    have htexts := houtlines.isElementName_and_isTight hrest
    have hdescriptor := TypeName.descriptor_of_parse hparse
    refine .annotated (hdescriptor ▸ hparse) (hdescriptor ▸ ⟨?_, isTrimmed_trim after, ?_⟩) ?_ ?_
    · exact (isInline_append.mp hheader.inline).2.of_subset (trim_subset after)
    · intro hnil
      rw [hnil] at hparse
      cases hparse
    · intro e he
      obtain ⟨text, htext, hname, -⟩ := exists_of_forall₂ helements he
      exact hname ▸ (htexts text htext).1
    · intro e he
      obtain ⟨text, htext, -, -, ih⟩ := exists_of_forall₂ helements he
      exact ih (hv.of_annotated e he) fun _ => (htexts text htext).2

end Smali
