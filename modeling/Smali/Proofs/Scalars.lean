import Smali.Proofs.SimpleNames

/-!
# Scalars are read back

A plain value is built from integers, texts, characters, truth values, `null`, types and members
with plain names. In a simple value the names need only be simple, but it holds no annotations.
What is neither an array nor an annotation is written on one line, and this line is read as the
value.
-/

namespace Smali

open Text Literal

/-! ## Plain values -/

/-- A value over plain names that holds no number with a fraction. -/
inductive Value.IsPlain : Value → Prop
  /-- A 32-bit integer. -/
  | int (n : Int32) : IsPlain (.int n)
  /-- A 64-bit integer. -/
  | long (n : Int64) : IsPlain (.long n)
  /-- A 16-bit integer. -/
  | short (n : Int16) : IsPlain (.short n)
  /-- An 8-bit integer. -/
  | byte (n : Int8) : IsPlain (.byte n)
  /-- Any text. -/
  | string (text : Text) : IsPlain (.string text)
  /-- Any character. -/
  | char (c : Char) : IsPlain (.char c)
  /-- A truth value. -/
  | bool (b : Bool) : IsPlain (.bool b)
  /-- The null reference. -/
  | null : IsPlain .null
  /-- A type. -/
  | typeName {type : TypeName} (h : type.IsPlain) : IsPlain (.typeName type)
  /-- An enum constant. -/
  | enumeration {owner type : TypeName} {name : Text} (howner : owner.IsPlain)
      (hname : name.IsIdentifier) (htype : type.IsPlain) : IsPlain (.enumeration owner name type)
  /-- A field. -/
  | field {owner type : TypeName} {name : Text} (howner : owner.IsPlain)
      (hname : name.IsIdentifier) (htype : type.IsPlain) : IsPlain (.field owner name type)
  /-- A method. -/
  | method {owner : TypeName} {name : Text} {signature : Signature} (howner : owner.IsPlain)
      (hname : name.IsMethodName) (hsignature : signature.IsPlain) :
      IsPlain (.method owner name signature)
  /-- A list of plain values. -/
  | array {values : List Value} (h : ∀ v ∈ values, IsPlain v) : IsPlain (.array values)
  /-- A nested annotation with plain values. -/
  | annotated {type : TypeName} {elements : List (Text × Value)} (htype : type.IsPlain)
      (hnames : ∀ e ∈ elements, e.1.IsIdentifier) (hvalues : ∀ e ∈ elements, IsPlain e.2) :
      IsPlain (.annotated type elements)

/-- Whether a value holds no other values. -/
def Value.IsScalar : Value → Prop
  | .array _ | .annotated _ _ => False
  | _ => True

/-- A value over simple names that holds neither a number with a fraction nor an annotation. -/
inductive Value.IsSimple : Value → Prop
  /-- A 32-bit integer. -/
  | int (n : Int32) : IsSimple (.int n)
  /-- A 64-bit integer. -/
  | long (n : Int64) : IsSimple (.long n)
  /-- A 16-bit integer. -/
  | short (n : Int16) : IsSimple (.short n)
  /-- An 8-bit integer. -/
  | byte (n : Int8) : IsSimple (.byte n)
  /-- Any text. -/
  | string (text : Text) : IsSimple (.string text)
  /-- Any character. -/
  | char (c : Char) : IsSimple (.char c)
  /-- A truth value. -/
  | bool (b : Bool) : IsSimple (.bool b)
  /-- The null reference. -/
  | null : IsSimple .null
  /-- A type. -/
  | typeName {type : TypeName} (h : type.IsSimple) : IsSimple (.typeName type)
  /-- An enum constant. -/
  | enumeration {owner type : TypeName} {name : Text} (howner : owner.IsSimple)
      (hname : name.IsSimpleName) (htype : type.IsSimple) :
      IsSimple (.enumeration owner name type)
  /-- A field. -/
  | field {owner type : TypeName} {name : Text} (howner : owner.IsSimple)
      (hname : name.IsSimpleName) (htype : type.IsSimple) : IsSimple (.field owner name type)
  /-- A method. -/
  | method {owner : TypeName} {name : Text} {signature : Signature} (howner : owner.IsSimple)
      (hname : name.IsSimpleName) (hsignature : signature.IsSimple) :
      IsSimple (.method owner name signature)
  /-- A list of simple values. -/
  | array {values : List Value} (h : ∀ v ∈ values, IsSimple v) : IsSimple (.array values)

/-- A plain scalar is simple. -/
theorem Value.IsPlain.isSimple {v : Value} (h : v.IsPlain) (hs : v.IsScalar) : v.IsSimple := by
  cases h with
  | int n => exact .int n
  | long n => exact .long n
  | short n => exact .short n
  | byte n => exact .byte n
  | string text => exact .string text
  | char c => exact .char c
  | bool b => exact .bool b
  | null => exact .null
  | typeName h => exact .typeName h.isSimple
  | enumeration howner hname htype =>
    exact .enumeration howner.isSimple hname.isSimpleName htype.isSimple
  | field howner hname htype => exact .field howner.isSimple hname.isSimpleName htype.isSimple
  | method howner hname hsignature =>
    exact .method howner.isSimple hname.isSimpleName hsignature.isSimple
  | array h => exact absurd hs id
  | annotated htype hnames hvalues => exact absurd hs id

/-- The values of a plain array. -/
theorem Value.IsPlain.of_array {values : List Value} (h : (Value.array values).IsPlain) :
    ∀ v ∈ values, v.IsPlain := by
  cases h with
  | array h => exact h

/-- The parts of a plain annotation. -/
theorem Value.IsPlain.of_annotated {type : TypeName} {elements : List (Text × Value)}
    (h : (Value.annotated type elements).IsPlain) :
    type.IsPlain ∧ (∀ e ∈ elements, e.1.IsIdentifier) ∧ ∀ e ∈ elements, e.2.IsPlain := by
  cases h with
  | annotated htype hnames hvalues => exact ⟨htype, hnames, hvalues⟩

/-- A property of plain values: of scalars, and of the others if the values in them have it. -/
@[elab_as_elim]
theorem Value.IsPlain.induction_on {motive : (v : Value) → v.IsPlain → Prop} (v : Value)
    (h : v.IsPlain) (scalar : ∀ (v : Value) (h : v.IsPlain), v.IsScalar → motive v h)
    (array : ∀ (values : List Value) (h : ∀ v ∈ values, v.IsPlain),
      (∀ v (hv : v ∈ values), motive v (h v hv)) → motive (.array values) (.array h))
    (annotated : ∀ (type : TypeName) (elements : List (Text × Value)) (htype : type.IsPlain)
      (hnames : ∀ e ∈ elements, e.1.IsIdentifier) (hvalues : ∀ e ∈ elements, e.2.IsPlain),
      (∀ e (he : e ∈ elements), motive e.2 (hvalues e he)) →
        motive (.annotated type elements) (.annotated htype hnames hvalues)) : motive v h := by
  induction h with
  | array h ih => exact array _ h ih
  | annotated htype hnames hvalues ih => exact annotated _ _ htype hnames hvalues ih
  | int n => exact scalar _ (.int n) trivial
  | long n => exact scalar _ (.long n) trivial
  | short n => exact scalar _ (.short n) trivial
  | byte n => exact scalar _ (.byte n) trivial
  | string text => exact scalar _ (.string text) trivial
  | char c => exact scalar _ (.char c) trivial
  | bool b => exact scalar _ (.bool b) trivial
  | null => exact scalar _ .null trivial
  | typeName h => exact scalar _ (.typeName h) trivial
  | enumeration howner hname htype => exact scalar _ (.enumeration howner hname htype) trivial
  | field howner hname htype => exact scalar _ (.field howner hname htype) trivial
  | method howner hname hsignature => exact scalar _ (.method howner hname hsignature) trivial

namespace Literal

/-! ## What is complete in itself -/

/-- A literal that is complete in itself is a scalar. -/
theorem isScalar_of_leaf {text : Text} {v : Value} (h : shape text = .leaf (.ok v)) :
    v.IsScalar := by
  obtain ⟨-, rfl⟩ | ⟨-, rfl⟩ | ⟨-, rfl⟩ | ⟨rest, -, henum⟩ | hscalar := cases_of_leaf_shape h
  · trivial
  · trivial
  · trivial
  · obtain ⟨_, _, _, -, rfl⟩ := reference_of_enumeration henum
    trivial
  · obtain ⟨_, -, rfl⟩ | ⟨_, -, rfl⟩ | hreference | hnumber | ⟨-, _, -, rfl⟩ :=
      cases_of_scalar hscalar
    · trivial
    · trivial
    · obtain ⟨_, _, _, rfl, -⟩ | ⟨_, _, _, rfl, -⟩ := cases_of_reference hreference <;> trivial
    · cases isNumber_of_number? hnumber <;> trivial
    · trivial

/-! ## Written forms -/

/-- A digit may stand in a reference. -/
theorem isReferenceChar_digitChar {d : Nat} (h : d < 16) : isReferenceChar d.digitChar = true := by
  revert d
  decide

/-- A hexadecimal integer with a suffix is bare. -/
theorem isBare_hexInteger (n : Int) {suffix : Text} (hsuffix : ∀ c ∈ suffix, isReferenceChar c) :
    IsBare (hexInteger n ++ suffix) := by
  have hdigits : ∀ c ∈ hex n.natAbs, isReferenceChar c = true := by
    intro c hc
    obtain ⟨d, hd, rfl⟩ := digitChar_of_mem_toDigits (by omega) hc
    exact isReferenceChar_digitChar hd
  refine IsBare.append ?_ hsuffix
  unfold hexInteger
  split
  · exact IsBare.append ⟨by decide, List.all_eq_true.mp rfl⟩ hdigits
  · exact IsBare.append ⟨by decide, List.all_eq_true.mp rfl⟩ hdigits

/-- A reference to a field is bare. -/
theorem isBare_fieldReference {owner type : TypeName} {name : Text} (howner : owner.IsPlain)
    (hname : name.IsIdentifier) (htype : type.IsPlain) :
    IsBare (fieldReference owner name type) :=
  (((howner.isBare.append (List.all_eq_true.mp rfl)).append hname.isBare.chars).append
    (List.all_eq_true.mp rfl)).append htype.isBare.chars

/-- A reference to a method is bare. -/
theorem isBare_methodReference {owner : TypeName} {name : Text} {signature : Signature}
    (howner : owner.IsPlain) (hname : name.IsMethodName) (hsignature : signature.IsPlain) :
    IsBare (owner.descriptor ++ "->" ++ name ++ signature.descriptor) :=
  ((howner.isBare.append (List.all_eq_true.mp rfl)).append
    fun _ => hname.isReferenceChar).append fun _ => hsignature.isReferenceChar

/-- A reference to a field over simple names is solid. -/
theorem isSolid_fieldReference {owner type : TypeName} {name : Text} (howner : owner.IsSimple)
    (hname : name.IsSimpleName) (htype : type.IsSimple) :
    IsSolid (fieldReference owner name type) :=
  (((howner.isSolid.append (List.all_eq_true.mp rfl)).append
    fun c hc => isSolidChar_of_isSimpleChar (hname.chars c hc)).append
      (List.all_eq_true.mp rfl)).append htype.isSolid.chars

/-- A reference to a method over simple names is solid. -/
theorem isSolid_methodReference {owner : TypeName} {name : Text} {signature : Signature}
    (howner : owner.IsSimple) (hname : name.IsSimpleName) (hsignature : signature.IsSimple) :
    IsSolid (owner.descriptor ++ "->" ++ name ++ signature.descriptor) :=
  ((howner.isSolid.append (List.all_eq_true.mp rfl)).append
    fun c hc => isSolidChar_of_isSimpleChar (hname.chars c hc)).append
      fun _ => hsignature.isSolidChar

/-- A literal on one line, as it may stand in a list. -/
structure IsListed (t : Text) : Prop where
  /-- It is a line without blanks around it. -/
  line : IsCodeLine t
  /-- No brace and no comma of it counts in a list. -/
  level : IsLevel t
  /-- Its only blanks are spaces. -/
  spaced : ∀ c ∈ t, isBlank c = true → c = ' '

/-- A solid text may stand in a list. -/
theorem isListed_of_isSolid {t : Text} (h : IsSolid t) : IsListed t :=
  ⟨h.isCodeLine, h.isLevel, fun _ hc hblank => absurd (hblank.symm.trans (h.isBlank hc)) (by decide)⟩

/-- The only printable blank is the space. -/
theorem eq_space_of_isPrintable {c : Char} (h : isPrintable c = true) (hblank : isBlank c = true) :
    c = ' ' := by
  simp only [isPrintable, Bool.and_eq_true, decide_eq_true_eq] at h
  have hrange : 0x20 ≤ c.toNat ∧ c.toNat ≤ 0x7E := h
  simp only [isBlank, Bool.or_eq_true, Bool.and_eq_true, decide_eq_true_eq, beq_iff_eq] at hblank
  have hcode : c.toNat = 0x20 := by omega
  exact Char.ext (UInt32.toNat_inj.mp hcode)

/-- A text between quotes may stand in a list. -/
theorem isListed_quoted {quote : Char} (hquote : quote = '"' ∨ quote = '\'') (t : Text) :
    IsListed (quote :: escape t ++ [quote]) := by
  have hprintable : ∀ c ∈ quote :: escape t ++ [quote], isPrintable c = true := by
    have hends : isPrintable quote = true := by obtain rfl | rfl := hquote <;> rfl
    exact List.forall_mem_append.mpr
      ⟨List.forall_mem_cons.mpr ⟨hends, fun _ hc => isPrintable_of_mem_escape hc⟩,
        List.forall_mem_singleton.mpr hends⟩
  have hblank : isBlank quote = false := by obtain rfl | rfl := hquote <;> rfl
  have htrim : IsTrimmed (quote :: escape t ++ [quote]) :=
    isTrimmed_of_ends rfl List.getLast?_concat hblank hblank
  exact ⟨⟨isInline_of_isPrintable hprintable, htrim, by simp⟩, isLevel_quoted hquote t,
    fun c hc hspace => eq_space_of_isPrintable (hprintable c hc) hspace⟩

end Literal

/-- A simple scalar is written on a line that may stand in a list. -/
theorem Value.IsSimple.isListed_scalar {v : Value} (h : v.IsSimple) (hs : v.IsScalar) :
    IsListed v.encode := by
  have hsolid : ∀ {t : Text}, IsSolid t → IsListed t := isListed_of_isSolid
  cases h with
  | int n =>
    rw [encode_int, ← List.append_nil (hexInteger _)]
    exact hsolid (isBare_hexInteger _ (List.all_eq_true.mp rfl)).isSolid
  | long n => exact hsolid (isBare_hexInteger _ (List.all_eq_true.mp rfl)).isSolid
  | short n => exact hsolid (isBare_hexInteger _ (List.all_eq_true.mp rfl)).isSolid
  | byte n => exact hsolid (isBare_hexInteger _ (List.all_eq_true.mp rfl)).isSolid
  | string text => exact isListed_quoted (.inl rfl) text
  | char c =>
    have hchar : escapeChar c = escape [c] := by simp [escape]
    rw [encode_char, hchar]
    exact isListed_quoted (.inr rfl) [c]
  | bool b => cases b <;> exact hsolid ⟨by decide, List.all_eq_true.mp rfl⟩
  | null => exact hsolid ⟨by decide, List.all_eq_true.mp rfl⟩
  | typeName h => exact hsolid h.isSolid
  | enumeration howner hname htype =>
    obtain ⟨hline, hlevel, hspaced⟩ := hsolid (isSolid_fieldReference howner hname htype)
    refine ⟨hline.append_left (by decide) (by rintro _ ⟨⟩; rfl), IsLevel.append rfl hlevel, ?_⟩
    have henum : ∀ c ∈ ".enum ".toList, isPrintable c = true := List.all_eq_true.mp rfl
    exact List.forall_mem_append.mpr
      ⟨fun c hc hblank => eq_space_of_isPrintable (henum c hc) hblank, hspaced⟩
  | field howner hname htype => exact hsolid (isSolid_fieldReference howner hname htype)
  | method howner hname hsignature =>
    exact hsolid (isSolid_methodReference howner hname hsignature)
  | array h => exact absurd hs id

/-- A plain scalar is written on a level line. -/
theorem Value.IsPlain.encode_scalar {v : Value} (h : v.IsPlain) (hs : v.IsScalar) :
    IsCodeLine v.encode ∧ IsLevel v.encode :=
  have hlisted := (h.isSimple hs).isListed_scalar hs
  ⟨hlisted.line, hlisted.level⟩

/-! ## Refused literals -/

/-- Whether reading the literal fails, at any place of a source with a fault that says so. -/
def Literal.IsRefused (t : Text) : Prop :=
  ∃ flaw, decode t = .error flaw ∧
    ∀ place, Line.decodeAt place t = .error (.located .literal place flaw.message)

/-- A flaw makes a fault at any place. -/
theorem Literal.isRefused_of_decode {t : Text} {flaw : Flaw} (h : decode t = .error flaw) :
    IsRefused t := ⟨flaw, h, fun place => by rw [Line.decodeAt, h]; rfl⟩

namespace Literal

/-! ## First characters -/

/-- A text with another first character. -/
theorem ne_of_head? {c : Char} {rest word : Text} {d : Char} (hword : word.head? = some d)
    (hne : c ≠ d) : c :: rest ≠ word := by
  rintro rfl
  exact hne (Option.some.inj hword)

/-- The same for a text that would stand in front. -/
theorem after?_of_head? {c : Char} {rest word : Text} {d : Char} (hword : word.head? = some d)
    (hne : c ≠ d) : Text.after? word (c :: rest) = none := by
  cases word with
  | nil => exact absurd hword.symm (Option.some_ne_none _)
  | cons e word =>
    obtain rfl := Option.some.inj hword
    rw [after?, if_neg (Ne.symm hne)]

/-- A text that starts like neither a word, a keyword nor an array. -/
theorem shape_of_first {c : Char} (hc : c ∉ ['n', 't', 'f', '.', '\x7b']) (rest : Text) :
    shape (c :: rest) = .leaf (scalar (c :: rest)) := by
  simp only [List.mem_cons, List.not_mem_nil, or_false, not_or] at hc
  obtain ⟨hn, ht, hf, hdot, hbrace⟩ := hc
  have hopening : Text.startsWith (c :: rest) opening = false := by
    rw [Text.startsWith, after?_of_head? (by decide : opening.head? = some '.') hdot]
    rfl
  have hbraced : ¬(c :: rest).head? = some '\x7b' := fun h => hbrace (Option.some.inj h)
  unfold shape
  rw [if_neg (by simp), if_neg (ne_of_head? (by decide) hn), if_neg (ne_of_head? (by decide) ht),
    if_neg (ne_of_head? (by decide) hf), hopening, if_neg Bool.false_ne_true,
    after?_of_head? (by decide : (".enum".toList).head? = some '.') hdot]
  exact if_neg hbraced

section Unquoted

variable {c : Char} {rest : Text} (hdouble : c ≠ '"') (hsingle : c ≠ '\'')

include hdouble hsingle

/-- A text with an arrow is a reference. -/
theorem scalar_of_arrow (harrow : (Text.cutAt? "->" (c :: rest)).isSome = true) :
    scalar (c :: rest) = reference (c :: rest) := by
  rw [scalar, if_pos harrow]
  · exact fun _ h => hdouble (List.cons.inj h).1
  · exact fun _ h => hsingle (List.cons.inj h).1

/-- A text without an arrow may be a number. -/
theorem scalar_of_number (harrow : Text.cutAt? "->" (c :: rest) = none) {v : Value}
    (hnumber : number? (c :: rest) = .ok (some v)) : scalar (c :: rest) = .ok v := by
  rw [scalar, harrow, if_neg (by simp), hnumber]
  · rfl
  · exact fun _ h => hdouble (List.cons.inj h).1
  · exact fun _ h => hsingle (List.cons.inj h).1

/-- It may be a type. -/
theorem scalar_of_type (harrow : Text.cutAt? "->" (c :: rest) = none)
    (hnumber : number? (c :: rest) = .ok none) {type : TypeName}
    (htype : TypeName.parse? (c :: rest) = some type) :
    scalar (c :: rest) = .ok (.typeName type) := by
  rw [scalar, harrow, if_neg (by simp), hnumber]
  · rw [htype]
    rfl
  · exact fun _ h => hdouble (List.cons.inj h).1
  · exact fun _ h => hsingle (List.cons.inj h).1

end Unquoted

/-! ## Numbers -/

/-- No spelled-out number starts with another letter. -/
theorem specialNumber?_of_first {c : Char} (hi : c ≠ 'I') (hn : c ≠ 'N') (negative : Bool)
    (rest : Text) : specialNumber? negative (c :: rest) = none := by
  unfold specialNumber?
  dsimp only
  rw [if_neg, if_neg, if_neg, if_neg]
  · exact ne_of_head? (by decide) hn
  · exact not_or.mpr ⟨ne_of_head? (by decide) hn, ne_of_head? (by decide) hn⟩
  · exact ne_of_head? (by decide) hi
  · exact not_or.mpr ⟨ne_of_head? (by decide) hi, ne_of_head? (by decide) hi⟩

/-- A text that starts like no number. -/
theorem number?_of_first {c : Char} (hi : c ≠ 'I') (hn : c ≠ 'N') (hminus : c ≠ '-')
    (hplus : c ≠ '+') (hdigit : isDigit c = false) (rest : Text) :
    number? (c :: rest) = .ok none := by
  have hsign : Numeral.takeSign (c :: rest) = (false, c :: rest) := by
    rw [Numeral.takeSign]
    · exact fun _ h => hminus (List.cons.inj h).1
    · exact fun _ h => hplus (List.cons.inj h).1
  have hzero : c ≠ '0' := by
    rintro rfl
    exact absurd hdigit (by decide)
  have hdecimal : Numeral.parseDecimal? false (c :: rest) = none := by
    simp [Numeral.parseDecimal?, hdigit]
  have hparse : Numeral.parse? (c :: rest) = none := by
    unfold Numeral.parse?
    rw [hsign]
    split
    · rename_i h
      exact absurd (List.cons.inj (Prod.mk.inj h).2).1 hzero
    · rename_i h
      exact absurd (List.cons.inj (Prod.mk.inj h).2).1 hzero
    · rename_i h
      obtain ⟨rfl, rfl⟩ := Prod.mk.inj h
      exact hdecimal
  unfold number?
  rw [hsign]
  dsimp only
  rw [specialNumber?_of_first hi hn, hparse]

/-- The sign of a hexadecimal integer. -/
theorem takeSign_hexInteger (n : Int) (suffix : Text) :
    Numeral.takeSign (hexInteger n ++ suffix) =
      (decide (n < 0), '0' :: 'x' :: (hex n.natAbs ++ suffix)) := by
  unfold hexInteger
  split
  · rename_i h
    rw [decide_eq_true h]
    rfl
  · rename_i h
    rw [decide_eq_false h]
    rfl

/-- A run of characters ends in front of the first other character. -/
theorem span_append {p : Char → Bool} {t rest : Text} (ht : ∀ c ∈ t, p c = true)
    (hrest : ∀ c ∈ rest.head?, p c = false) :
    (t ++ rest).takeWhile p = t ∧ (t ++ rest).dropWhile p = rest := by
  rw [List.takeWhile_append_of_pos ht, List.dropWhile_append_of_pos ht]
  cases rest with
  | nil => simp
  | cons c rest =>
    have hc := hrest c rfl
    simp [hc]

/-- The parts of a hexadecimal numeral behind its mark. -/
theorem parseHex?_append (negative : Bool) {digits suffix : Text} (hne : digits ≠ [])
    (hdigits : ∀ c ∈ digits, isHexDigit c = true)
    (hfirst : ∀ c ∈ suffix.head?, isHexDigit c = false) :
    Numeral.parseHex? negative (digits ++ suffix) =
      (Numeral.suffix? ['t', 's', 'l'] suffix).map (.hex negative digits) := by
  obtain ⟨htake, hdrop⟩ := span_append hdigits hfirst
  unfold Numeral.parseHex?
  dsimp only
  rw [htake, hdrop, if_neg (by simpa using hne)]

/-- The parts of a hexadecimal integer. -/
theorem parse?_hexInteger (n : Int) {suffix : Text} {letter : Option Char}
    (hfirst : ∀ c ∈ suffix.head?, isHexDigit c = false)
    (hsuffix : Numeral.suffix? ['t', 's', 'l'] suffix = some letter) :
    Numeral.parse? (hexInteger n ++ suffix) =
      some (.hex (decide (n < 0)) (hex n.natAbs) letter) := by
  have hhex := parseHex?_append (decide (n < 0)) (hex_ne_nil n.natAbs)
    (fun _ hc => isHexDigit_of_mem_hex hc) hfirst
  rw [hsuffix] at hhex
  unfold Numeral.parse?
  rw [takeSign_hexInteger]
  exact hhex

/-- An integer in range. -/
theorem within?_natAbs {width : Nat} {n : Int} (hlow : -(Nat.pow 2 (width - 1) : Nat) ≤ n)
    (hhigh : n < (Nat.pow 2 (width - 1) : Nat)) :
    within? width true (decide (n < 0)) n.natAbs = some n := by
  have hvalue : (if decide (n < 0) = true then -(n.natAbs : Int) else n.natAbs) = n := by
    split
    · rename_i hneg
      have hlt := of_decide_eq_true hneg
      omega
    · rename_i hneg
      have hle := mt decide_eq_true hneg
      omega
  unfold within?
  dsimp only
  rw [hvalue]
  exact if_pos ⟨hlow, hhigh⟩

/-- A hexadecimal integer is the value that its suffix says. -/
theorem number?_hexInteger (n : Int) {suffix : Text} {letter : Option Char} {v : Value}
    (hfirst : ∀ c ∈ suffix.head?, isHexDigit c = false)
    (hsuffix : Numeral.suffix? ['t', 's', 'l'] suffix = some letter)
    (hinteger : integer? true (decide (n < 0)) n.natAbs letter = some v) :
    number? (hexInteger n ++ suffix) = .ok (some v) := by
  unfold number?
  rw [takeSign_hexInteger]
  dsimp only
  rw [specialNumber?_of_first (by decide) (by decide), parse?_hexInteger n hfirst hsuffix]
  dsimp only
  rw [Numeral.value, valueIn_hex, hinteger]
  rfl

/-- The first character of a hexadecimal integer. -/
theorem exists_hexInteger (n : Int) : ∃ c rest, hexInteger n = c :: rest ∧ (c = '-' ∨ c = '0') := by
  unfold hexInteger
  split
  · exact ⟨'-', _, rfl, .inl rfl⟩
  · exact ⟨'0', _, rfl, .inr rfl⟩

/-- A hexadecimal integer is complete in itself. -/
theorem shape_hexInteger (n : Int) {suffix : Text} {letter : Option Char} {v : Value}
    (hbracket : '>' ∉ suffix)
    (hfirst : ∀ c ∈ suffix.head?, isHexDigit c = false)
    (hsuffix : Numeral.suffix? ['t', 's', 'l'] suffix = some letter)
    (hinteger : integer? true (decide (n < 0)) n.natAbs letter = some v) :
    shape (hexInteger n ++ suffix) = .leaf (.ok v) := by
  have harrow : ¬"->".toList <:+: hexInteger n ++ suffix := by
    have hdigits : '>' ∉ hex n.natAbs :=
      fun hc => absurd (isHexDigit_of_mem_hex hc) (by decide)
    have hnot : '>' ∉ hexInteger n ++ suffix := by
      unfold hexInteger
      split <;> simp [hdigits, hbracket]
    exact fun harrow => hnot (harrow.subset (by decide))
  have hnumber := number?_hexInteger n hfirst hsuffix hinteger
  obtain ⟨c, rest, hn, hc⟩ := exists_hexInteger n
  rw [hn, List.cons_append] at harrow hnumber ⊢
  rw [shape_of_first (by obtain rfl | rfl := hc <;> decide), scalar_of_number
    (by obtain rfl | rfl := hc <;> decide) (by obtain rfl | rfl := hc <;> decide)
    (cutAt?_arrow_eq_none harrow) hnumber]

/-! ## Types and references -/

/-- The first character of a descriptor is neither a quote nor that of anything else. -/
theorem exists_descriptor {type : TypeName} (h : type.WellFormed) :
    ∃ c rest, type.descriptor = c :: rest ∧
      c ∉ ['n', 't', 'f', '.', '\x7b'] ∧ c ≠ '"' ∧ c ≠ '\'' := by
  cases type with
  | primitive kind => cases kind <;> exact ⟨_, _, rfl, by decide⟩
  | array element dimensions =>
    obtain ⟨n, rfl⟩ := Nat.exists_eq_succ_of_ne_zero (Nat.pos_iff_ne_zero.mp h.2)
    exact ⟨'[', _, rfl, by decide⟩
  | object name => exact ⟨'L', _, rfl, by decide⟩
  | void => exact ⟨'V', _, rfl, by decide⟩

/-- A descriptor is no number. -/
theorem number?_descriptor {type : TypeName} (h : type.WellFormed) :
    number? type.descriptor = .ok none := by
  have hfirst : ∀ {c : Char}, c ≠ 'I' ∧ c ≠ 'N' ∧ c ≠ '-' ∧ c ≠ '+' ∧ isDigit c = false →
      ∀ rest, number? (c :: rest) = .ok none :=
    fun ⟨hi, hn, hminus, hplus, hdigit⟩ => number?_of_first hi hn hminus hplus hdigit
  cases type with
  | primitive kind =>
    cases kind with
    | int => rfl
    | _ => exact hfirst (by decide) []
  | array element dimensions =>
    obtain ⟨n, rfl⟩ := Nat.exists_eq_succ_of_ne_zero (Nat.pos_iff_ne_zero.mp h.2)
    exact hfirst (by decide) _
  | object name => exact hfirst (by decide) _
  | void => exact hfirst (by decide) []

/-- A descriptor is complete in itself. -/
theorem shape_descriptor {type : TypeName} (h : type.IsSimple) :
    shape type.descriptor = .leaf (.ok (.typeName type)) := by
  have harrow := cutAt?_arrow_eq_none (TypeName.not_arrow_descriptor h.arrow)
  have hnumber := number?_descriptor h.wellFormed
  have htype := TypeName.parse?_descriptor h.wellFormed
  obtain ⟨c, rest, hdescriptor, hc, hdouble, hsingle⟩ := exists_descriptor h.wellFormed
  rw [hdescriptor] at harrow hnumber htype ⊢
  rw [shape_of_first hc, scalar_of_type hdouble hsingle harrow hnumber htype]

/-- A field is read from its reference. -/
theorem reference_fieldReference {owner type : TypeName} {name : Text} (howner : owner.IsSimple)
    (hname : name.IsSimpleName) (htype : type.IsSimple) :
    reference (fieldReference owner name type) = .ok (.field owner name type) := by
  have htext : fieldReference owner name type =
      owner.descriptor ++ '-' :: '>' :: (name ++ ':' :: type.descriptor) := by
    simp [fieldReference]
  have hparen : '(' ∉ name ++ ':' :: type.descriptor := by
    have hn : '(' ∉ name := hname.not_mem (by decide)
    have ht : '(' ∉ type.descriptor := htype.not_mem (by decide)
    simp [hn, ht]
  obtain ⟨first, more, rfl⟩ := List.exists_cons_of_ne_nil hname.ne_nil
  rw [htext, reference, cutAt?_arrow (TypeName.not_arrow_descriptor howner.arrow)]
  dsimp only
  rw [TypeName.parse_descriptor howner.wellFormed, cut?_eq_none hparen,
    cutLast?_of_not_mem (htype.not_mem (by decide))]
  dsimp only
  rw [TypeName.parse_descriptor htype.wellFormed]
  rfl

/-- A method is read from its reference, whatever its name is without parentheses. -/
theorem reference_methodReference {owner : TypeName} {name : Text} {signature : Signature}
    (howner : owner.IsSimple) (hname : '(' ∉ name) (hsignature : signature.WellFormed) :
    reference (owner.descriptor ++ "->" ++ name ++ signature.descriptor) =
      .ok (.method owner name signature) := by
  obtain ⟨rest, hrest⟩ : ∃ rest, signature.descriptor = '(' :: rest := ⟨_, rfl⟩
  have htext : owner.descriptor ++ "->" ++ name ++ signature.descriptor =
      owner.descriptor ++ '-' :: '>' :: (name ++ '(' :: rest) := by
    simp [hrest]
  have hparse := Signature.parse_descriptor hsignature
  rw [hrest] at hparse
  rw [htext, reference, cutAt?_arrow (TypeName.not_arrow_descriptor howner.arrow)]
  dsimp only
  rw [TypeName.parse_descriptor howner.wellFormed, cut?_of_not_mem hname]
  dsimp only
  rw [hparse]
  rfl

/-- A reference is complete in itself. -/
theorem shape_of_reference {owner : TypeName} (howner : owner.IsSimple) {rest : Text} {v : Value}
    (h : reference (owner.descriptor ++ '-' :: '>' :: rest) = .ok v) :
    shape (owner.descriptor ++ '-' :: '>' :: rest) = .leaf (.ok v) := by
  have harrow := cutAt?_arrow (TypeName.not_arrow_descriptor howner.arrow) rest
  obtain ⟨c, more, hdescriptor, hc, hdouble, hsingle⟩ := exists_descriptor howner.wellFormed
  rw [hdescriptor, List.cons_append] at h harrow ⊢
  rw [shape_of_first hc, scalar_of_arrow hdouble hsingle (by rw [harrow]; rfl), h]

/-- An enum constant is complete in itself. -/
theorem shape_enumeration {owner type : TypeName} {name : Text} (howner : owner.IsSimple)
    (hname : name.IsSimpleName) (htype : type.IsSimple) :
    shape (".enum " ++ fieldReference owner name type) =
      .leaf (.ok (.enumeration owner name type)) := by
  have hsolid := isSolid_fieldReference howner hname htype
  have htrim : trim (' ' :: fieldReference owner name type) = fieldReference owner name type :=
    (trim_append_left (isBlank_cons.mpr ⟨rfl, isBlank_nil⟩) _).trans
      hsolid.isCodeLine.trimmed.trim_eq
  generalize hr : fieldReference owner name type = r at htrim
  have henum : enumeration r (".enum " ++ r) = .ok (.enumeration owner name type) := by
    rw [enumeration, ← hr, reference_fieldReference howner hname htype]
    rfl
  have hshape : shape (".enum " ++ r) =
      .leaf (enumeration (trim (' ' :: r)) (".enum " ++ r)) := rfl
  rw [hshape, htrim, henum]

/-- A quoted text is complete in itself. -/
theorem shape_string (t : Text) : shape ('"' :: escape t ++ ['"']) = .leaf (.ok (.string t)) := by
  rw [List.cons_append, shape_of_first (by decide), scalar, ← List.cons_append,
    quotedText_escape (.inl rfl)]
  rfl

/-- A quoted character is complete in itself. -/
theorem shape_char (c : Char) :
    shape ('\'' :: escapeChar c ++ ['\'']) = .leaf (.ok (.char c)) := by
  have hchar : escapeChar c = escape [c] := by simp [escape]
  rw [hchar, List.cons_append, shape_of_first (by decide), scalar, ← List.cons_append,
    quotedText_escape (.inr rfl)]
  rfl

end Literal

/-- A simple scalar is read from its written form. -/
theorem Value.IsSimple.shape_encode {v : Value} (h : v.IsSimple) (hs : v.IsScalar) :
    shape v.encode = .leaf (.ok v) := by
  cases h with
  | int n =>
    rw [encode_int, ← List.append_nil (hexInteger _)]
    refine shape_hexInteger _ (by decide) (by rintro _ ⟨⟩) rfl ?_
    have hrange : within? 32 true (decide (n.toInt < 0)) n.toInt.natAbs = some n.toInt :=
      within?_natAbs (Int32.le_toInt n) (Int32.toInt_lt n)
    rw [integer?, hrange, Option.map_some, Int32.ofInt_toInt]
  | long n =>
    have hsuffix : Numeral.suffix? ['t', 's', 'l'] ['L'] = some (some 'l') := rfl
    refine shape_hexInteger _ (by decide) (by rintro _ ⟨⟩; rfl) hsuffix ?_
    have hrange : within? 64 true (decide (n.toInt < 0)) n.toInt.natAbs = some n.toInt :=
      within?_natAbs (Int64.le_toInt n) (Int64.toInt_lt n)
    rw [integer?, hrange, Option.map_some, Int64.ofInt_toInt] <;> decide
  | short n =>
    have hsuffix : Numeral.suffix? ['t', 's', 'l'] ['s'] = some (some 's') := rfl
    refine shape_hexInteger _ (by decide) (by rintro _ ⟨⟩; rfl) hsuffix ?_
    have hrange : within? 16 true (decide (n.toInt < 0)) n.toInt.natAbs = some n.toInt :=
      within?_natAbs (Int16.le_toInt n) (Int16.toInt_lt n)
    rw [integer?, hrange, Option.map_some, Int16.ofInt_toInt]
  | byte n =>
    have hsuffix : Numeral.suffix? ['t', 's', 'l'] ['t'] = some (some 't') := rfl
    refine shape_hexInteger _ (by decide) (by rintro _ ⟨⟩; rfl) hsuffix ?_
    have hrange : within? 8 true (decide (n.toInt < 0)) n.toInt.natAbs = some n.toInt :=
      within?_natAbs (Int8.le_toInt n) (Int8.toInt_lt n)
    rw [integer?, hrange, Option.map_some, Int8.ofInt_toInt]
  | string text => exact shape_string text
  | char c => exact shape_char c
  | bool b => cases b <;> rfl
  | null => rfl
  | typeName h => exact shape_descriptor h
  | enumeration howner hname htype => exact shape_enumeration howner hname htype
  | @field owner type name howner hname htype =>
    have hread := reference_fieldReference howner hname htype
    have htext : fieldReference owner name type =
        owner.descriptor ++ '-' :: '>' :: (name ++ ":" ++ type.descriptor) := by
      simp [fieldReference]
    rw [encode_field]
    rw [htext] at hread ⊢
    exact shape_of_reference howner hread
  | @method owner name signature howner hname hsignature =>
    have hread := reference_methodReference howner (hname.not_mem (by decide)) hsignature.wellFormed
    have htext : owner.descriptor ++ "->" ++ name ++ signature.descriptor =
        owner.descriptor ++ '-' :: '>' :: (name ++ signature.descriptor) := by simp
    rw [encode_method]
    rw [htext] at hread ⊢
    exact shape_of_reference howner hread
  | array h => exact absurd hs id

/-- A plain scalar is read from its written form. -/
theorem Value.IsPlain.shape_encode {v : Value} (h : v.IsPlain) (hs : v.IsScalar) :
    shape v.encode = .leaf (.ok v) := (h.isSimple hs).shape_encode hs

end Smali
