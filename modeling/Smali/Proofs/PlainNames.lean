import Smali.Proofs.Braces

/-!
# Plain names

Plain names are made of ASCII letters, digits, `_`, `$` and `-`, and class names join them with
slashes. Descriptors and references that are made from plain names hold no quote, no brace, no
comma, no equals sign and no blank, and so they can stand in a line next to any of these.
-/

namespace Smali

namespace Text

/-! ## Identifiers -/

/-- A character that starts an identifier. -/
def isIdentifierStart (c : Char) : Bool := isLetter c || c == '_' || c == '$'

/-- A character inside an identifier. -/
def isIdentifierChar (c : Char) : Bool := isIdentifierStart c || isDigit c || c == '-'

/-- An ASCII identifier. -/
def IsIdentifier : Text → Prop
  | [] => False
  | c :: rest => isIdentifierStart c = true ∧ ∀ d ∈ rest, isIdentifierChar d = true

instance : (t : Text) → Decidable t.IsIdentifier
  | [] => .isFalse id
  | c :: rest =>
    decidable_of_iff (isIdentifierStart c = true ∧ rest.all isIdentifierChar = true)
      (and_congr_right' List.all_eq_true)

/-- Identifiers with slashes between them. -/
def IsClassName (t : Text) : Prop :=
  ∃ parts, parts ≠ [] ∧ (∀ part ∈ parts, IsIdentifier part) ∧ t = ['/'].intercalate parts

/-- An identifier, or one of the two names of initialisers. -/
def IsMethodName (t : Text) : Prop :=
  IsIdentifier t ∨ t = "<init>".toList ∨ t = "<clinit>".toList

/-- An identifier is not empty. -/
theorem IsIdentifier.ne_nil {t : Text} (h : IsIdentifier t) : t ≠ [] := by
  rintro rfl
  exact h

/-- The characters of an identifier. -/
theorem IsIdentifier.isIdentifierChar {t : Text} (h : IsIdentifier t) {c : Char} (hc : c ∈ t) :
    isIdentifierChar c = true := by
  cases t with
  | nil => exact absurd hc List.not_mem_nil
  | cons first rest =>
    cases hc with
    | head => simp [Text.isIdentifierChar, h.1]
    | tail _ hc => exact h.2 c hc

/-- An identifier is a class name of one part. -/
theorem IsIdentifier.isClassName {t : Text} (h : IsIdentifier t) : IsClassName t :=
  ⟨[t], List.cons_ne_nil _ _, by simpa using h, by simp⟩

/-! ## Characters -/

/-- A character of a descriptor over plain names. -/
def isDescriptorChar (c : Char) : Bool :=
  isIdentifierChar c || c == '/' || c == ';' || c == '['

/-- A character of a reference over plain names, or of an integer. -/
def isReferenceChar (c : Char) : Bool :=
  isDescriptorChar c || c == '<' || c == '>' || c == ':' || c == '(' || c == ')'

/-- A character of a descriptor may stand in a reference. -/
theorem isReferenceChar_of_isDescriptorChar {c : Char} (h : isDescriptorChar c = true) :
    isReferenceChar c = true := by simp [isReferenceChar, h]

/-- A character of an identifier may stand in a descriptor. -/
theorem isDescriptorChar_of_isIdentifierChar {c : Char} (h : isIdentifierChar c = true) :
    isDescriptorChar c = true := by simp [isDescriptorChar, h]

/-- The characters of a class name. -/
theorem IsClassName.isDescriptorChar {t : Text} (h : IsClassName t) {c : Char} (hc : c ∈ t) :
    isDescriptorChar c = true := by
  obtain ⟨parts, -, hparts, rfl⟩ := h
  have hslash : ∀ d ∈ ['/'], Text.isDescriptorChar d = true := List.forall_mem_singleton.mpr rfl
  exact forall_mem_intercalate hslash (fun part hpart d hd =>
    isDescriptorChar_of_isIdentifierChar ((hparts part hpart).isIdentifierChar hd)) c hc

/-- The characters of a method name. -/
theorem IsMethodName.isReferenceChar {t : Text} (h : IsMethodName t) {c : Char} (hc : c ∈ t) :
    isReferenceChar c = true := by
  obtain h | rfl | rfl := h
  · exact isReferenceChar_of_isDescriptorChar
      (isDescriptorChar_of_isIdentifierChar (h.isIdentifierChar hc))
  · exact List.all_eq_true.mp rfl c hc
  · exact List.all_eq_true.mp rfl c hc

/-- Nothing in the name of a method looks like an opening parenthesis. -/
theorem IsMethodName.not_mem {t : Text} (h : IsMethodName t) : '(' ∉ t := by
  obtain h | rfl | rfl := h
  · exact fun hc => absurd (h.isIdentifierChar hc) (by decide)
  · decide
  · decide

/-- All these characters are printable, and none is the space. -/
theorem toNat_of_isReferenceChar {c : Char} (h : isReferenceChar c = true) :
    0x21 ≤ c.toNat ∧ c.toNat ≤ 0x7E := by
  have hrange : ∀ {a b : Char}, 0x21 ≤ a.toNat → b.toNat ≤ 0x7E → a ≤ c ∧ c ≤ b →
      0x21 ≤ c.toNat ∧ c.toNat ≤ 0x7E := by
    intro a b ha hb hc
    have hle : a.toNat ≤ c.toNat ∧ c.toNat ≤ b.toNat := hc
    exact ⟨ha.trans hle.1, hle.2.trans hb⟩
  simp only [isReferenceChar, isDescriptorChar, isIdentifierChar, isIdentifierStart, isLetter,
    isDigit, Bool.or_eq_true, Bool.and_eq_true, beq_iff_eq, decide_eq_true_eq, or_assoc] at h
  rcases h with h | h | h | h | h | h | h
  · exact hrange (by decide) (by decide) h
  · exact hrange (by decide) (by decide) h
  · rw [h]; decide
  · rw [h]; decide
  · exact hrange (by decide) (by decide) h
  · rw [h]; decide
  · rcases h with h | h | h | h | h | h | h | h <;> (rw [h]; decide)

/-- None of them is blank. -/
theorem isBlank_of_isReferenceChar {c : Char} (h : isReferenceChar c = true) :
    isBlank c = false := by
  have hrange := toNat_of_isReferenceChar h
  simp only [isBlank, Bool.or_eq_false_iff, Bool.and_eq_false_iff, decide_eq_false_iff_not,
    beq_eq_false_iff_ne]
  omega

/-! ## Bare texts -/

/-- A text of such characters. -/
structure IsBare (t : Text) : Prop where
  /-- It is not empty. -/
  ne_nil : t ≠ []
  /-- Its characters. -/
  chars : ∀ c ∈ t, isReferenceChar c = true

namespace IsBare

/-- Two bare texts. -/
theorem append {t u : Text} (ht : IsBare t) (hu : ∀ c ∈ u, isReferenceChar c = true) :
    IsBare (t ++ u) :=
  ⟨List.append_ne_nil_of_left_ne_nil ht.ne_nil u, List.forall_mem_append.mpr ⟨ht.chars, hu⟩⟩

/-- A character that does not stand in references. -/
theorem not_mem {t : Text} (h : IsBare t) {c : Char} (hc : isReferenceChar c = false) : c ∉ t :=
  fun hmem => Bool.false_ne_true (hc.symm.trans (h.chars c hmem))

/-- A bare text is a code line. -/
theorem isCodeLine {t : Text} (h : IsBare t) : IsCodeLine t :=
  ⟨h.not_mem (by decide),
    ⟨fun c hc => isBlank_of_isReferenceChar (h.chars c (List.mem_of_mem_head? hc)),
      fun c hc => isBlank_of_isReferenceChar (h.chars c (List.mem_of_getLast? hc))⟩, h.ne_nil⟩

/-- A bare text is level. -/
theorem isLevel {t : Text} (h : IsBare t) : Literal.IsLevel t := by
  refine Literal.isLevel_of_isInert fun c hc => ?_
  have hchar := h.chars c hc
  simp only [Literal.isInert, Bool.and_eq_true, bne_iff_ne, ne_eq]
  refine ⟨⟨⟨⟨?_, ?_⟩, ?_⟩, ?_⟩, ?_⟩ <;> (rintro rfl; exact absurd hchar (by decide))

end IsBare

/-- An identifier is bare. -/
theorem IsIdentifier.isBare {t : Text} (h : IsIdentifier t) : IsBare t :=
  ⟨h.ne_nil, fun _ hc => isReferenceChar_of_isDescriptorChar
    (isDescriptorChar_of_isIdentifierChar (h.isIdentifierChar hc))⟩

end Text

/-! ## Types -/

namespace TypeName

/-- The class name in a type. -/
def elementName? : TypeName → Option Text
  | .object name => some name
  | .array element _ => element.elementName?
  | .primitive _ | .void => none

/-- A type that a descriptor denotes, with a plain class name. -/
structure IsPlain (type : TypeName) : Prop where
  /-- There is a descriptor. -/
  wellFormed : type.WellFormed
  /-- The class name is plain. -/
  className : ∀ name ∈ type.elementName?, name.IsClassName

/-- The characters of a descriptor. -/
theorem isDescriptorChar_of_mem {type : TypeName}
    (h : ∀ name ∈ type.elementName?, name.IsClassName) {c : Char} (hc : c ∈ type.descriptor) :
    Text.isDescriptorChar c = true := by
  induction type with
  | primitive kind =>
    rw [descriptor, List.mem_singleton] at hc
    subst hc
    cases kind <;> rfl
  | array element dimensions ih =>
    cases List.mem_append.mp hc with
    | inl hc => rw [List.eq_of_mem_replicate hc]; rfl
    | inr hc => exact ih h hc
  | object name =>
    rw [descriptor, List.cons_append, List.mem_cons, List.mem_append, List.mem_singleton] at hc
    obtain rfl | hc | rfl := hc
    · rfl
    · exact (h name rfl).isDescriptorChar hc
    · rfl
  | void =>
    rw [descriptor, List.mem_singleton] at hc
    rw [hc]
    rfl

/-- The same for a plain type. -/
theorem IsPlain.isDescriptorChar {type : TypeName} (h : type.IsPlain) {c : Char}
    (hc : c ∈ type.descriptor) : Text.isDescriptorChar c = true :=
  isDescriptorChar_of_mem h.className hc

/-- A descriptor is not empty. -/
theorem descriptor_ne_nil {type : TypeName} (h : type.WellFormed) : type.descriptor ≠ [] := by
  cases type with
  | primitive kind => exact List.cons_ne_nil _ _
  | array element dimensions =>
    obtain ⟨n, rfl⟩ := Nat.exists_eq_succ_of_ne_zero (Nat.pos_iff_ne_zero.mp h.2)
    exact List.cons_ne_nil _ _
  | object name => exact List.cons_ne_nil _ _
  | void => exact List.cons_ne_nil _ _

/-- A descriptor is bare. -/
theorem IsPlain.isBare {type : TypeName} (h : type.IsPlain) : Text.IsBare type.descriptor :=
  ⟨descriptor_ne_nil h.wellFormed,
    fun _ hc => Text.isReferenceChar_of_isDescriptorChar (h.isDescriptorChar hc)⟩

/-- A character that stands in no descriptor. -/
theorem IsPlain.not_mem {type : TypeName} (h : type.IsPlain) {c : Char}
    (hc : Text.isDescriptorChar c = false) : c ∉ type.descriptor :=
  fun hmem => Bool.false_ne_true (hc.symm.trans (h.isDescriptorChar hmem))

end TypeName

/-- The same for the types of a signature. -/
structure Signature.IsPlain (signature : Signature) : Prop where
  /-- The parameters have values. -/
  params : ∀ type ∈ signature.params, type.IsPlain ∧ type.isVoid = false
  /-- The result. -/
  result : signature.result.IsPlain

/-- Such a signature has a descriptor. -/
theorem Signature.IsPlain.wellFormed {signature : Signature} (h : signature.IsPlain) :
    signature.WellFormed :=
  ⟨fun type hmem => ⟨(h.params type hmem).1.wellFormed, (h.params type hmem).2⟩,
    h.result.wellFormed⟩

/-- The characters of a signature. -/
theorem Signature.IsPlain.isReferenceChar {signature : Signature} (h : signature.IsPlain)
    {c : Char} (hc : c ∈ signature.descriptor) : Text.isReferenceChar c = true := by
  simp only [descriptor, List.cons_append, List.mem_cons, List.mem_append, List.mem_flatten,
    List.mem_map] at hc
  obtain rfl | ⟨_, ⟨type, hmem, rfl⟩, hc⟩ | rfl | hc := hc
  · rfl
  · exact (h.params type hmem).1.isBare.chars c hc
  · rfl
  · exact h.result.isBare.chars c hc

end Smali
