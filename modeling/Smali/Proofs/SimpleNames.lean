import Smali.Proofs.PlainNames

/-!
# Simple names

A simple name may hold almost any character. It must not hold those that references and lists are
cut at: blanks, parentheses, braces, commas, colons and quotes. A class name must not hold a
semicolon or an arrow either, since the first arrow of a reference ends its owner. Plain names are
simple.
-/

namespace Smali

namespace Text

/-! ## Characters -/

/-- A character that references and lists are not cut at. -/
def isSimpleChar (c : Char) : Bool :=
  !isBlank c && c != '(' && c != ')' && c != '\x7b' && c != '\x7d' && c != ',' && c != ':' &&
    c != '"' && c != '\''

/-- A character that is neither blank nor of any meaning to a scan for braces and commas. -/
def isSolidChar (c : Char) : Bool := !isBlank c && Literal.isInert c

/-- A simple character is solid. -/
theorem isSolidChar_of_isSimpleChar {c : Char} (h : isSimpleChar c = true) :
    isSolidChar c = true := by
  simp only [isSimpleChar, Bool.and_eq_true, Bool.not_eq_true', bne_iff_ne, ne_eq] at h
  simp only [isSolidChar, Literal.isInert, Bool.and_eq_true, Bool.not_eq_true', bne_iff_ne, ne_eq]
  obtain ⟨⟨⟨⟨⟨⟨⟨⟨hblank, -⟩, -⟩, hopen⟩, hclose⟩, hcomma⟩, -⟩, hdouble⟩, hsingle⟩ := h
  exact ⟨hblank, ⟨⟨⟨hdouble, hsingle⟩, hopen⟩, hclose⟩, hcomma⟩

/-- A character of a reference over plain names is solid. -/
theorem isSolidChar_of_isReferenceChar {c : Char} (h : isReferenceChar c = true) :
    isSolidChar c = true := by
  have hblank := isBlank_of_isReferenceChar h
  simp only [isSolidChar, Literal.isInert, Bool.and_eq_true, Bool.not_eq_true', bne_iff_ne, ne_eq]
  refine ⟨hblank, ⟨⟨⟨?_, ?_⟩, ?_⟩, ?_⟩, ?_⟩ <;> (rintro rfl; exact absurd h (by decide))

/-! ## Solid texts -/

/-- A text of such characters. -/
structure IsSolid (t : Text) : Prop where
  /-- It is not empty. -/
  ne_nil : t ≠ []
  /-- Its characters. -/
  chars : ∀ c ∈ t, isSolidChar c = true

namespace IsSolid

/-- Two solid texts. -/
theorem append {t u : Text} (ht : IsSolid t) (hu : ∀ c ∈ u, isSolidChar c = true) :
    IsSolid (t ++ u) :=
  ⟨List.append_ne_nil_of_left_ne_nil ht.ne_nil u, List.forall_mem_append.mpr ⟨ht.chars, hu⟩⟩

/-- None of its characters is blank. -/
theorem isBlank {t : Text} (h : IsSolid t) {c : Char} (hc : c ∈ t) : Text.isBlank c = false := by
  have hsolid := h.chars c hc
  simp only [isSolidChar, Bool.and_eq_true, Bool.not_eq_true'] at hsolid
  exact hsolid.1

/-- A solid text is a code line. -/
theorem isCodeLine {t : Text} (h : IsSolid t) : IsCodeLine t :=
  ⟨fun hc => absurd (h.isBlank hc) (by decide),
    ⟨fun _ hc => h.isBlank (List.mem_of_mem_head? hc),
      fun _ hc => h.isBlank (List.mem_of_getLast? hc)⟩, h.ne_nil⟩

/-- A solid text is level. -/
theorem isLevel {t : Text} (h : IsSolid t) : Literal.IsLevel t := by
  refine Literal.isLevel_of_isInert fun c hc => ?_
  have hsolid := h.chars c hc
  simp only [isSolidChar, Bool.and_eq_true] at hsolid
  exact hsolid.2

end IsSolid

/-- A bare text is solid. -/
theorem IsBare.isSolid {t : Text} (h : IsBare t) : IsSolid t :=
  ⟨h.ne_nil, fun c hc => isSolidChar_of_isReferenceChar (h.chars c hc)⟩

/-! ## Names -/

/-- A name of simple characters. -/
structure IsSimpleName (t : Text) : Prop where
  /-- It is not empty. -/
  ne_nil : t ≠ []
  /-- Its characters. -/
  chars : ∀ c ∈ t, isSimpleChar c = true

/-- A character that is not simple does not stand in a simple name. -/
theorem IsSimpleName.not_mem {t : Text} (h : IsSimpleName t) {c : Char}
    (hc : isSimpleChar c = false) : c ∉ t :=
  fun hmem => Bool.false_ne_true (hc.symm.trans (h.chars c hmem))

/-- A character of plain names is simple. -/
theorem isSimpleChar_of_isDescriptorChar {c : Char} (h : isDescriptorChar c = true) :
    isSimpleChar c = true := by
  have hblank := isBlank_of_isReferenceChar (isReferenceChar_of_isDescriptorChar h)
  simp only [isSimpleChar, Bool.and_eq_true, Bool.not_eq_true', bne_iff_ne, ne_eq]
  refine ⟨⟨⟨⟨⟨⟨⟨⟨hblank, ?_⟩, ?_⟩, ?_⟩, ?_⟩, ?_⟩, ?_⟩, ?_⟩, ?_⟩ <;>
    (rintro rfl; exact absurd h (by decide))

/-- An identifier is a simple name. -/
theorem IsIdentifier.isSimpleName {t : Text} (h : IsIdentifier t) : IsSimpleName t :=
  ⟨h.ne_nil, fun _ hc => isSimpleChar_of_isDescriptorChar
    (isDescriptorChar_of_isIdentifierChar (h.isIdentifierChar hc))⟩

/-- The name of a method is a simple name. -/
theorem IsMethodName.isSimpleName {t : Text} (h : IsMethodName t) : IsSimpleName t := by
  obtain h | rfl | rfl := h
  · exact h.isSimpleName
  · exact ⟨by decide, List.all_eq_true.mp rfl⟩
  · exact ⟨by decide, List.all_eq_true.mp rfl⟩

end Text

open Text

/-! ## Types -/

namespace TypeName

/-- A type that a descriptor denotes, with a simple class name. -/
structure IsSimple (type : TypeName) : Prop where
  /-- There is a descriptor. -/
  wellFormed : type.WellFormed
  /-- The characters of the class name. -/
  chars : ∀ name ∈ type.elementName?, ∀ c ∈ name, isSimpleChar c = true
  /-- There is no arrow in the class name. -/
  arrow : ∀ name ∈ type.elementName?, ¬"->".toList <:+: name

/-- A plain type is simple. -/
theorem IsPlain.isSimple {type : TypeName} (h : type.IsPlain) : type.IsSimple := by
  refine ⟨h.wellFormed, fun name hname c hc => ?_, fun name hname harrow => ?_⟩
  · exact isSimpleChar_of_isDescriptorChar ((h.className name hname).isDescriptorChar hc)
  · have hmem : '>' ∈ name := harrow.subset (by decide)
    exact absurd ((h.className name hname).isDescriptorChar hmem) (by decide)

/-- The characters of a descriptor with a simple class name. -/
theorem isSimpleChar_of_mem {type : TypeName}
    (h : ∀ name ∈ type.elementName?, ∀ c ∈ name, isSimpleChar c = true) {c : Char}
    (hc : c ∈ type.descriptor) : isSimpleChar c = true := by
  induction type with
  | primitive kind =>
    rw [descriptor, List.mem_singleton] at hc
    subst hc
    cases kind <;> rfl
  | array element dimensions ih =>
    cases List.mem_append.mp hc with
    | inl hc => rw [List.eq_of_mem_replicate hc]; rfl
    | inr hc => exact ih h hc
  | object name =>
    rw [descriptor, List.cons_append, List.mem_cons, List.mem_append, List.mem_singleton] at hc
    obtain rfl | hc | rfl := hc
    · rfl
    · exact h name rfl c hc
    · rfl
  | void =>
    rw [descriptor, List.mem_singleton] at hc
    rw [hc]
    rfl

/-- There is no arrow in a descriptor with a simple class name. -/
theorem not_arrow_descriptor {type : TypeName}
    (h : ∀ name ∈ type.elementName?, ¬"->".toList <:+: name) :
    ¬"->".toList <:+: type.descriptor := by
  have hcons : ∀ {c : Char} {t : Text}, c ≠ '-' → "->".toList <:+: c :: t → "->".toList <:+: t := by
    intro c t hc harrow
    obtain hstart | hrest := List.infix_cons_iff.mp harrow
    · exact absurd (List.cons_prefix_cons.mp hstart).1 (Ne.symm hc)
    · exact hrest
  induction type with
  | primitive kind => cases kind <;> decide
  | array element dimensions ih =>
    have hbrackets : ∀ {n : Nat}, "->".toList <:+: List.replicate n '[' ++ element.descriptor →
        "->".toList <:+: element.descriptor := by
      intro n harrow
      induction n with
      | zero => exact harrow
      | succ n ihn => exact ihn (hcons (by decide) harrow)
    exact fun harrow => ih h (hbrackets harrow)
  | object name =>
    intro harrow
    rw [descriptor, List.cons_append] at harrow
    obtain hend | hname := List.infix_concat_iff.mp (hcons (by decide) harrow)
    · obtain hnil | ⟨front, hfront, -⟩ := List.suffix_concat_iff.mp hend
      · exact absurd hnil (by decide)
      · have hlast := congrArg List.getLast? hfront
        rw [List.getLast?_concat] at hlast
        exact absurd hlast (by decide)
    · exact h name rfl hname
  | void => decide

/-- The characters of the descriptor of a simple type. -/
theorem IsSimple.isSimpleChar {type : TypeName} (h : type.IsSimple) {c : Char}
    (hc : c ∈ type.descriptor) : Text.isSimpleChar c = true := isSimpleChar_of_mem h.chars hc

/-- A character that stands in no such descriptor. -/
theorem IsSimple.not_mem {type : TypeName} (h : type.IsSimple) {c : Char}
    (hc : Text.isSimpleChar c = false) : c ∉ type.descriptor :=
  fun hmem => Bool.false_ne_true (hc.symm.trans (h.isSimpleChar hmem))

/-- Such a descriptor is solid. -/
theorem IsSimple.isSolid {type : TypeName} (h : type.IsSimple) : IsSolid type.descriptor :=
  ⟨descriptor_ne_nil h.wellFormed, fun _ hc => isSolidChar_of_isSimpleChar (h.isSimpleChar hc)⟩

end TypeName

/-- The same for the types of a signature. -/
structure Signature.IsSimple (signature : Signature) : Prop where
  /-- The parameters have values. -/
  params : ∀ type ∈ signature.params, type.IsSimple ∧ type.isVoid = false
  /-- The result. -/
  result : signature.result.IsSimple

namespace Signature

/-- A plain signature is simple. -/
theorem IsPlain.isSimple {signature : Signature} (h : signature.IsPlain) : signature.IsSimple :=
  ⟨fun type hmem => ⟨(h.params type hmem).1.isSimple, (h.params type hmem).2⟩, h.result.isSimple⟩

/-- A simple signature has a descriptor. -/
theorem IsSimple.wellFormed {signature : Signature} (h : signature.IsSimple) :
    signature.WellFormed :=
  ⟨fun type hmem => ⟨(h.params type hmem).1.wellFormed, (h.params type hmem).2⟩,
    h.result.wellFormed⟩

/-- The characters of such a descriptor are solid. -/
theorem IsSimple.isSolidChar {signature : Signature} (h : signature.IsSimple) {c : Char}
    (hc : c ∈ signature.descriptor) : Text.isSolidChar c = true := by
  simp only [descriptor, List.cons_append, List.mem_cons, List.mem_append, List.mem_flatten,
    List.mem_map] at hc
  obtain rfl | ⟨_, ⟨type, hmem, rfl⟩, hc⟩ | rfl | hc := hc
  · rfl
  · exact (h.params type hmem).1.isSolid.chars c hc
  · rfl
  · exact h.result.isSolid.chars c hc

end Signature

end Smali
