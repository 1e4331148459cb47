import Smali.Literal.Decode
import Smali.Literal.Encode
import Smali.Proofs.CodeLines
import Smali.Proofs.Cuts
import Smali.Proofs.Descriptors
import Mathlib.Data.List.Forall2

/-!
# Texts without line ends

Most of what is read from a line is a part of the line, so it has no line end in it. A literal
on one line holds no nested annotation, and so the written form of its value is one line again.
-/

namespace Smali

/-! ## Results -/

/-- A result that was found from another result. -/
theorem exists_of_map_eq_ok {ε α β : Type} {r : Except ε α} {f : α → β} {b : β}
    (h : r.map f = .ok b) : ∃ a, r = .ok a ∧ f a = b := by
  cases r with
  | error fault => cases h
  | ok a => exact ⟨a, rfl, Except.ok.inj h⟩

/-- A result that was found in two steps. -/
theorem exists_of_bind_eq_ok {ε α β : Type} {r : Except ε α} {f : α → Except ε β} {b : β}
    (h : r >>= f = .ok b) : ∃ a, r = .ok a ∧ f a = .ok b := by
  cases r with
  | error fault => cases h
  | ok a => exact ⟨a, rfl, h⟩

/-- Two steps that fail: the first one does, or the second one behind it. -/
theorem error_of_bind_eq_error {ε α β : Type} {r : Except ε α} {f : α → Except ε β} {fault : ε}
    (h : r >>= f = .error fault) : r = .error fault ∨ ∃ a, r = .ok a ∧ f a = .error fault := by
  cases r with
  | error fault' =>
    cases h
    exact .inl rfl
  | ok a => exact .inr ⟨a, rfl, h⟩

/-- The elements of a list, one by one. -/
theorem mapM_attach {ε α β : Type} (f : α → Except ε β) (l : List α) :
    (l.attach.mapM fun a => f a.1) = l.mapM f := by
  rw [List.mapM_subtype (g := f) fun _ _ => rfl, List.unattach_attach]

/-- All results of a list. -/
theorem mapM_eq_ok_iff {ε α β : Type} {f : α → Except ε β} {l : List α} {results : List β} :
    l.mapM f = .ok results ↔ List.Forall₂ (fun a b => f a = .ok b) l results := by
  induction l generalizing results with
  | nil =>
    rw [List.mapM_nil, List.forall₂_nil_left_iff]
    exact ⟨fun h => (Except.ok.inj h).symm, fun h => congrArg Except.ok h.symm⟩
  | cons a l ih =>
    rw [List.mapM_cons, List.forall₂_cons_left_iff]
    constructor
    · intro h
      obtain ⟨b, hb, h⟩ := exists_of_bind_eq_ok h
      obtain ⟨more, hmore, h⟩ := exists_of_bind_eq_ok h
      cases h
      exact ⟨b, more, hb, ih.mp hmore, rfl⟩
    · rintro ⟨b, more, hb, hmore, rfl⟩
      rw [hb, ih.mpr hmore]
      rfl

/-- An element on the right has a partner on the left. -/
theorem exists_of_forall₂ {α β : Type} {R : α → β → Prop} {as : List α} {bs : List β}
    (h : List.Forall₂ R as bs) {b : β} (hb : b ∈ bs) : ∃ a ∈ as, R a b := by
  induction h with
  | nil => exact absurd hb List.not_mem_nil
  | cons hab hrest ih =>
    cases hb with
    | head => exact ⟨_, List.mem_cons_self, hab⟩
    | tail _ hb =>
      obtain ⟨a, ha, hr⟩ := ih hb
      exact ⟨a, List.mem_cons_of_mem _ ha, hr⟩

namespace Text

/-! ## Parts -/

/-- Trimming leaves characters of the text. -/
theorem trim_subset (t : Text) : trim t ⊆ t := by
  intro c hc
  unfold trim trimRight at hc
  rw [List.mem_reverse] at hc
  have hleft := (List.dropWhile_suffix (l := (trimLeft t).reverse) isBlank).subset hc
  rw [List.mem_reverse] at hleft
  exact (List.dropWhile_suffix isBlank).subset hleft

/-- The runs between characters are parts of the text. -/
theorem subset_of_mem_splitOnP {p : Char → Bool} {t w : Text} (h : w ∈ t.splitOnP p) : w ⊆ t := by
  induction t generalizing w with
  | nil =>
    rw [List.splitOnP_nil, List.mem_singleton] at h
    rw [h]
    exact List.Subset.refl _
  | cons c t ih =>
    rw [List.splitOnP_cons_eq_if_modifyHead] at h
    split at h
    · cases h with
      | head => exact List.nil_subset _
      | tail _ h => exact List.subset_cons_of_subset c (ih h)
    · obtain ⟨first, more, heq⟩ := List.exists_cons_of_ne_nil (List.splitOnP_ne_nil p t)
      rw [heq, List.modifyHead_cons] at h
      rw [heq] at ih
      cases h with
      | head => exact List.cons_subset_cons c (ih List.mem_cons_self)
      | tail _ h => exact List.subset_cons_of_subset c (ih (List.mem_cons_of_mem _ h))

/-- A word is part of the text. -/
theorem subset_of_mem_words {t w : Text} (h : w ∈ words t) : w ⊆ t :=
  subset_of_mem_splitOnP (List.mem_filter.mp h).1

/-! ## Line ends -/

/-- Whether a text has no line end in it. -/
def IsInline (t : Text) : Prop := '\n' ∉ t

instance (t : Text) : Decidable t.IsInline := inferInstanceAs (Decidable ('\n' ∉ t))

/-- A part of such a text. -/
theorem IsInline.of_subset {t u : Text} (h : u.IsInline) (hsub : t ⊆ u) : t.IsInline :=
  fun hc => h (hsub hc)

/-- No text. -/
@[simp]
theorem isInline_nil : IsInline [] := List.not_mem_nil

/-- A character and a text. -/
@[simp]
theorem isInline_cons {c : Char} {t : Text} : IsInline (c :: t) ↔ c ≠ '\n' ∧ IsInline t := by
  unfold IsInline
  rw [List.mem_cons, not_or]
  exact and_congr_left' ne_comm

/-- Two texts. -/
@[simp]
theorem isInline_append {t u : Text} : IsInline (t ++ u) ↔ IsInline t ∧ IsInline u := by
  unfold IsInline
  rw [List.mem_append, not_or]

/-- The characters of texts with a separator between each two. -/
theorem forall_mem_intercalate {P : Char → Prop} {separator : Text}
    (hseparator : ∀ c ∈ separator, P c) {ts : List Text} (h : ∀ t ∈ ts, ∀ c ∈ t, P c) :
    ∀ c ∈ separator.intercalate ts, P c := by
  intro c hc
  induction ts with
  | nil => exact absurd hc List.not_mem_nil
  | cons first more ih =>
    obtain ⟨hfirst, hmore⟩ := List.forall_mem_cons.mp h
    cases more with
    | nil =>
      rw [List.intercalate_singleton] at hc
      exact hfirst c hc
    | cons second more =>
      rw [List.intercalate_cons_cons, List.mem_append, List.mem_append] at hc
      obtain (hc | hc) | hc := hc
      · exact hfirst c hc
      · exact hseparator c hc
      · exact ih hmore hc

/-- Texts with a separator between each two. -/
theorem isInline_intercalate {separator : Text} (hseparator : separator.IsInline) {ts : List Text}
    (h : ∀ t ∈ ts, IsInline t) : IsInline (separator.intercalate ts) := by
  have hnot : ∀ {t : Text}, t.IsInline → ∀ c ∈ t, c ≠ '\n' := by
    rintro t ht c hc rfl
    exact ht hc
  exact fun hmem => forall_mem_intercalate (hnot hseparator) (fun t ht => hnot (h t ht)) _ hmem rfl

/-- A line of a text has no line end in it. -/
theorem isInline_of_mem_lines {t line : Text} (h : line ∈ lines t) : line.IsInline := by
  fun_induction lines t generalizing line with
  | case1 => exact absurd h List.not_mem_nil
  | case2 rest ih =>
    cases h with
    | head => exact isInline_nil
    | tail _ h => exact ih h
  | case3 rest ih =>
    cases h with
    | head => exact isInline_nil
    | tail _ h => exact ih h
  | case4 c rest hnl hcr hrest ih =>
    rw [List.mem_singleton.mp h]
    exact isInline_cons.mpr ⟨hnl, isInline_nil⟩
  | case5 c rest hnl hcr first more hrest ih =>
    rw [hrest] at ih
    cases h with
    | head => exact isInline_cons.mpr ⟨hnl, ih List.mem_cons_self⟩
    | tail _ h => exact ih (List.mem_cons_of_mem _ h)

end Text

/-! ## Numerals and quotes -/

/-- The digits of a number are hexadecimal digits in lower case at most. -/
theorem digitChar_of_mem_toDigits {base n : Nat} (hbase : 1 < base) {c : Char}
    (h : c ∈ Nat.toDigits base n) : ∃ d < base, c = d.digitChar := by
  induction n using Nat.strong_induction_on with
  | _ n ih =>
    rw [Nat.toDigits_eq_if hbase] at h
    split at h
    · exact ⟨n, ‹_›, List.mem_singleton.mp h⟩
    · rw [List.mem_append, List.mem_singleton] at h
      cases h with
      | inl h => exact ih (n / base) (Nat.div_lt_self (by omega) hbase) h
      | inr h => exact ⟨n % base, Nat.mod_lt _ (by omega), h⟩

/-- A digit is printable. -/
theorem isPrintable_digitChar {d : Nat} (h : d < 16) : Literal.isPrintable d.digitChar = true := by
  revert d
  decide

namespace Text

/-- Printable characters make a text of one line. -/
theorem isInline_of_isPrintable {t : Text} (h : ∀ c ∈ t, Literal.isPrintable c = true) :
    IsInline t := fun hc => absurd (h _ hc) (by decide)

/-- A decimal numeral. -/
@[simp]
theorem isInline_decimal (n : Nat) : IsInline (decimal n) := by
  refine isInline_of_isPrintable fun c hc => ?_
  obtain ⟨d, hd, rfl⟩ := digitChar_of_mem_toDigits (by omega) hc
  exact isPrintable_digitChar (by omega)

/-- A hexadecimal numeral. -/
theorem isPrintable_of_mem_hex {n : Nat} {c : Char} (h : c ∈ hex n) :
    Literal.isPrintable c = true := by
  obtain ⟨d, hd, rfl⟩ := digitChar_of_mem_toDigits (by omega) h
  exact isPrintable_digitChar (by omega)

end Text

namespace Literal

open Text

/-- The escape of a unit is printable. -/
theorem isPrintable_of_mem_unitEscape {unit : Nat} {c : Char} (h : c ∈ unitEscape unit) :
    isPrintable c = true := by
  unfold unitEscape hexWidth at h
  rw [List.mem_cons, List.mem_cons, List.mem_append] at h
  obtain rfl | rfl | h | h := h
  · rfl
  · rfl
  · rw [List.eq_of_mem_replicate h]
    rfl
  · exact isPrintable_of_mem_hex h

/-- The written form of a character is printable. -/
theorem isPrintable_of_mem_escapeChar {c d : Char} (h : d ∈ escapeChar c) :
    isPrintable d = true := by
  unfold escapeChar at h
  split at h
  · rename_i letter hletter
    rw [List.mem_cons, List.mem_singleton] at h
    obtain rfl | rfl := h
    · rfl
    · unfold escapeLetter? at hletter
      split at hletter <;>
        first | exact absurd hletter (Option.some_ne_none _).symm | (cases hletter; rfl)
  · split at h
    · rw [List.mem_singleton] at h
      rw [h]
      assumption
    · obtain ⟨t, ht, hd⟩ := List.mem_flatten.mp h
      obtain ⟨unit, -, rfl⟩ := List.mem_map.mp ht
      exact isPrintable_of_mem_unitEscape hd

/-- The written form of a text is printable. -/
theorem isPrintable_of_mem_escape {t : Text} {d : Char} (h : d ∈ escape t) :
    isPrintable d = true := by
  obtain ⟨u, hu, hd⟩ := List.mem_flatten.mp h
  obtain ⟨c, -, rfl⟩ := List.mem_map.mp hu
  exact isPrintable_of_mem_escapeChar hd

/-- A quoted text is on one line. -/
@[simp]
theorem isInline_escape (t : Text) : IsInline (escape t) :=
  isInline_of_isPrintable fun _ hd => isPrintable_of_mem_escape hd

/-- A hexadecimal integer is on one line. -/
@[simp]
theorem isInline_hexInteger (n : Int) : IsInline (hexInteger n) := by
  have hhex : IsInline (hex n.natAbs) :=
    isInline_of_isPrintable fun _ hd => isPrintable_of_mem_hex hd
  unfold hexInteger
  split
  · exact isInline_append.mpr ⟨by decide, hhex⟩
  · exact isInline_append.mpr ⟨by decide, hhex⟩

end Literal

namespace Binary

open Text

/-- A whole number with its sign is on one line. -/
theorem isInline_signed (n : Int) : IsInline (signed n) := by
  unfold signed
  split <;> simp

/-- A positional numeral is on one line. -/
theorem Decimal.isInline_positional (d : Decimal) : IsInline d.positional := by
  have hdigits := isInline_decimal d.digits
  have hzeros : ∀ n, IsInline (List.replicate n '0') :=
    fun n hc => absurd (List.eq_of_mem_replicate hc) (by decide)
  unfold positional
  dsimp only
  split
  · simp [hzeros]
  · split
    · refine isInline_append.mpr ⟨hdigits.of_subset (List.take_subset _ _), ?_⟩
      exact isInline_cons.mpr ⟨by decide, hdigits.of_subset (List.drop_subset _ _)⟩
    · simp [hzeros]

/-- A scientific numeral is on one line. -/
theorem Decimal.isInline_scientific (d : Decimal) : IsInline d.scientific := by
  have hdigits := isInline_decimal d.digits
  have htail := hdigits.of_subset (List.drop_subset 1 (decimal d.digits))
  unfold scientific
  dsimp only
  refine isInline_append.mpr ⟨isInline_append.mpr ⟨hdigits.of_subset (List.take_subset _ _), ?_⟩,
    isInline_cons.mpr ⟨by decide, isInline_signed _⟩⟩
  split
  · exact isInline_nil
  · exact isInline_cons.mpr ⟨by decide, htail⟩

/-- The numeral of a number is on one line. -/
theorem Format.isInline_numeral (f : Format) (style : NumeralStyle) (bits : Nat) :
    IsInline (f.numeral style bits) := by
  have hbody : IsInline (f.unsignedNumeral style (f.magnitude bits)) := by
    unfold unsignedNumeral
    split
    · exact (by decide : IsInline "0.0")
    · split
      · exact Decimal.isInline_positional _
      · exact Decimal.isInline_scientific _
  unfold numeral
  dsimp only
  split
  · exact isInline_cons.mpr ⟨by decide, hbody⟩
  · exact hbody

end Binary

/-- The written form of a floating-point number is on one line. -/
theorem Literal.isInline_number (format : Binary.Format) (bits : Nat) :
    Text.IsInline (number format bits) := by
  unfold number
  split
  · exact (by decide : Text.IsInline "NaN")
  · split
    · split
      · exact (by decide : Text.IsInline "-Infinity")
      · exact (by decide : Text.IsInline "Infinity")
    · exact Binary.Format.isInline_numeral _ _ _

/-! ## Written forms -/

open Literal

namespace Value

/-- A 32-bit integer is written without a suffix. -/
theorem encode_int (n : Int32) : (int n).encode = hexInteger n.toInt := rfl

/-- A 64-bit integer is written with its suffix. -/
theorem encode_long (n : Int64) : (long n).encode = hexInteger n.toInt ++ ['L'] := rfl

/-- A 16-bit integer is written with its suffix. -/
theorem encode_short (n : Int16) : (short n).encode = hexInteger n.toInt ++ ['s'] := rfl

/-- An 8-bit integer is written with its suffix. -/
theorem encode_byte (n : Int8) : (byte n).encode = hexInteger n.toInt ++ ['t'] := rfl

/-- A single-precision number is written with its suffix. -/
theorem encode_float (bits : UInt32) :
    (float bits).encode = number .single bits.toNat ++ ['f'] := rfl

/-- A double-precision number is written without a suffix. -/
theorem encode_double (bits : UInt64) : (double bits).encode = number .double bits.toNat := rfl

/-- A text is written between double quotes. -/
theorem encode_string (text : Text) : (string text).encode = '"' :: escape text ++ ['"'] := rfl

/-- A character is written between single quotes. -/
theorem encode_char (c : Char) : (char c).encode = '\'' :: escapeChar c ++ ['\''] := rfl

/-- A type is written as its descriptor. -/
theorem encode_typeName (type : TypeName) : (typeName type).encode = type.descriptor := rfl

/-- An enum constant is written as a field behind a keyword. -/
theorem encode_enumeration (owner : TypeName) (name : Text) (type : TypeName) :
    (enumeration owner name type).encode = ".enum " ++ fieldReference owner name type := rfl

/-- A field is written as a reference. -/
theorem encode_field (owner : TypeName) (name : Text) (type : TypeName) :
    (field owner name type).encode = fieldReference owner name type := rfl

/-- A method is written as a reference. -/
theorem encode_method (owner : TypeName) (name : Text) (signature : Signature) :
    (method owner name signature).encode =
      owner.descriptor ++ "->" ++ name ++ signature.descriptor := rfl

/-- The written forms of values, one by one. -/
theorem encodeAll_eq_map (values : List Value) : encodeAll values = values.map encode := by
  induction values with
  | nil => rfl
  | cons v more ih => exact congrArg (v.encode :: ·) ih

/-- An array is written from the written forms of its elements. -/
theorem encode_array (values : List Value) :
    (array values).encode = encodeArray (values.map encode) :=
  (rfl : (array values).encode = encodeArray (encodeAll values)).trans
    (congrArg encodeArray (encodeAll_eq_map values))

end Value

/-! ## Values of one line -/

/-- Whether the written form of a value has no line end in it. -/
def Value.IsInline (v : Value) : Prop := Text.IsInline v.encode

/-- Whether a value is a number. -/
inductive Value.IsNumber : Value → Prop
  /-- A 32-bit integer. -/
  | int (n : Int32) : IsNumber (.int n)
  /-- A 64-bit integer. -/
  | long (n : Int64) : IsNumber (.long n)
  /-- A 16-bit integer. -/
  | short (n : Int16) : IsNumber (.short n)
  /-- An 8-bit integer. -/
  | byte (n : Int8) : IsNumber (.byte n)
  /-- A single-precision number. -/
  | float (bits : UInt32) : IsNumber (.float bits)
  /-- A double-precision number. -/
  | double (bits : UInt64) : IsNumber (.double bits)

/-- A number is on one line. -/
theorem Value.IsNumber.isInline {v : Value} (h : v.IsNumber) : v.IsInline := by
  have hsuffix : ∀ n c, c ≠ '\n' → Text.IsInline (hexInteger n ++ [c]) :=
    fun n c hc => Text.isInline_append.mpr
      ⟨isInline_hexInteger n, Text.isInline_cons.mpr ⟨hc, Text.isInline_nil⟩⟩
  cases h with
  | int n => exact isInline_hexInteger _
  | long n => exact hsuffix _ 'L' (by decide)
  | short n => exact hsuffix _ 's' (by decide)
  | byte n => exact hsuffix _ 't' (by decide)
  | float bits => exact Text.isInline_append.mpr ⟨isInline_number _ _, by decide⟩
  | double bits => exact isInline_number _ _

namespace Literal

open Text

/-- The written form of an array of such values. -/
theorem isInline_encodeArray {parts : List Text} (h : ∀ part ∈ parts, IsInline part) :
    IsInline (encodeArray parts) := by
  unfold encodeArray
  split
  · decide
  · have hany : parts.any (fun part => part.contains '\n') = false := by
      rw [List.any_eq_false]
      intro part hpart
      rw [List.contains_eq_mem, decide_eq_true_iff]
      exact h part hpart
    rw [hany, if_neg Bool.false_ne_true]
    have hmiddle := isInline_intercalate (by decide : IsInline [',', ' ']) h
    refine isInline_cons.mpr ⟨by decide, isInline_cons.mpr ⟨by decide, ?_⟩⟩
    exact isInline_append.mpr ⟨hmiddle, by decide⟩

/-- A reference is the spelling of a method or a field. -/
theorem cases_of_reference {text : Text} {v : Value} (h : reference text = .ok v) :
    (∃ owner name signature, v = .method owner name signature ∧
      owner.descriptor ++ "->" ++ name ++ signature.descriptor = text) ∨
      ∃ owner name type, v = .field owner name type ∧ fieldReference owner name type = text := by
  unfold reference at h
  cases harrow : Text.cutAt? "->" text with
  | none => rw [harrow] at h; cases h
  | some sides =>
    obtain ⟨before, member⟩ := sides
    obtain rfl := eq_of_cutAt? harrow
    rw [harrow] at h
    dsimp only at h
    cases howner : TypeName.parse before with
    | error flaw => rw [howner] at h; cases h
    | ok owner =>
      rw [howner] at h
      rw [← TypeName.descriptor_of_parse howner]
      cases hcut : Text.cut? (· == '(') member with
      | some sides =>
        obtain ⟨name, after⟩ := sides
        obtain ⟨c, hc, rfl⟩ := eq_of_cut? hcut
        obtain rfl := beq_iff_eq.mp hc
        rw [hcut] at h
        dsimp only at h
        cases hp : Signature.parse ('(' :: after) with
        | error flaw => rw [hp] at h; cases h
        | ok signature =>
          rw [hp] at h
          refine .inl ⟨owner, name, signature, (Except.ok.inj h).symm, ?_⟩
          rw [Signature.descriptor_of_parse hp, List.append_assoc]
      | none =>
        rw [hcut] at h
        dsimp only at h
        cases hlast : Text.cutLast? (· == ':') member with
        | none => rw [hlast] at h; cases h
        | some sides =>
          obtain ⟨name, after⟩ := sides
          obtain ⟨c, hc, rfl⟩ := eq_of_cutLast? hlast
          obtain rfl := beq_iff_eq.mp hc
          rw [hlast] at h
          cases name with
          | nil => cases h
          | cons c name =>
            dsimp only at h
            cases htyped : TypeName.parse after with
            | error flaw => rw [htyped] at h; cases h
            | ok type =>
              rw [htyped] at h
              refine .inr ⟨owner, c :: name, type, (Except.ok.inj h).symm, ?_⟩
              rw [fieldReference, TypeName.descriptor_of_parse htyped]
              simp only [List.append_assoc]
              rfl

/-- A reference is written as it was read. -/
theorem encode_of_reference {text : Text} {v : Value} (h : reference text = .ok v) :
    v.encode = text := by
  obtain ⟨_, _, _, rfl, htext⟩ | ⟨_, _, _, rfl, htext⟩ := cases_of_reference h <;> exact htext

/-- The value of an integer is a number. -/
theorem isNumber_of_integer? {wraps negative : Bool} {magnitude : Nat} {suffix : Option Char}
    {v : Value} (h : integer? wraps negative magnitude suffix = some v) : v.IsNumber := by
  unfold integer? at h
  split at h <;> obtain ⟨n, -, rfl⟩ := Option.map_eq_some_iff.mp h
  · exact .byte _
  · exact .short _
  · exact .long _
  · exact .int _

/-- A number that is spelled out is a floating-point number. -/
theorem cases_of_specialNumber? {negative : Bool} {body : Text} {v : Value}
    (h : specialNumber? negative body = some v) :
    (∃ bits, v = .float bits) ∨ ∃ bits, v = .double bits := by
  unfold specialNumber? at h
  split at h
  · exact .inr ⟨_, (Option.some.inj h).symm⟩
  · split at h
    · exact .inl ⟨_, (Option.some.inj h).symm⟩
    · split at h
      · exact .inr ⟨_, (Option.some.inj h).symm⟩
      · split at h
        · exact .inl ⟨_, (Option.some.inj h).symm⟩
        · exact absurd h (Option.some_ne_none _).symm

/-- The value of a numeral is a number. -/
theorem isNumber_of_numeral {text : Text} {numeral : Numeral} {v : Value}
    (h : numeral.value text = .ok v) : v.IsNumber := by
  unfold Numeral.value at h
  split at h
  · split at h
    · rename_i hinteger
      exact isNumber_of_integer? (Except.ok.inj h ▸ hinteger)
    · cases h
  · dsimp only at h
    split at h
    · exact Except.ok.inj h ▸ .float _
    · split at h
      · exact Except.ok.inj h ▸ .double _
      · split at h
        · split at h
          · exact Except.ok.inj h ▸ .double _
          · cases h
        · split at h
          · rename_i hinteger
            exact isNumber_of_integer? (Except.ok.inj h ▸ hinteger)
          · cases h

/-- What is read as a number is spelled out, or it is the value of a numeral. -/
theorem cases_of_number? {text : Text} {v : Value} (h : number? text = .ok (some v)) :
    ((∃ bits, v = .float bits) ∨ ∃ bits, v = .double bits) ∨
      ∃ numeral, Numeral.parse? text = some numeral ∧ numeral.value text = .ok v := by
  unfold number? at h
  dsimp only at h
  split at h
  · rename_i value hspecial
    obtain rfl := Option.some.inj (Except.ok.inj h)
    exact .inl (cases_of_specialNumber? hspecial)
  · split at h
    · rename_i numeral hnumeral
      obtain ⟨value, hvalue, h⟩ := exists_of_map_eq_ok h
      obtain rfl := Option.some.inj h
      exact .inr ⟨numeral, hnumeral, hvalue⟩
    · cases h

/-- It is a number. -/
theorem isNumber_of_number? {text : Text} {v : Value} (h : number? text = .ok (some v)) :
    v.IsNumber := by
  obtain (⟨bits, rfl⟩ | ⟨bits, rfl⟩) | ⟨numeral, -, hvalue⟩ := cases_of_number? h
  · exact .float bits
  · exact .double bits
  · exact isNumber_of_numeral hvalue

/-- A scalar is a text or a character in quotes, a reference, a number or a type. -/
theorem cases_of_scalar {text : Text} {v : Value} (h : scalar text = .ok v) :
    (∃ body, quotedText '"' text = .ok body ∧ v = .string body) ∨
      (∃ c, quotedText '\'' text = .ok [c] ∧ v = .char c) ∨ reference text = .ok v ∨
      number? text = .ok (some v) ∨
      (number? text = .ok none ∧
        ∃ type, TypeName.parse? text = some type ∧ v = .typeName type) := by
  unfold scalar at h
  split at h
  · obtain ⟨body, hbody, rfl⟩ := exists_of_map_eq_ok h
    exact .inl ⟨body, hbody, rfl⟩
  · obtain ⟨body, hbody, h⟩ := exists_of_bind_eq_ok h
    split at h
    · cases h
      exact .inr (.inl ⟨_, hbody, rfl⟩)
    · cases h
  · split at h
    · exact .inr (.inr (.inl h))
    · obtain ⟨number, hnumber, h⟩ := exists_of_bind_eq_ok h
      split at h
      · cases h
        exact .inr (.inr (.inr (.inl hnumber)))
      · split at h
        · rename_i type htype
          cases h
          exact .inr (.inr (.inr (.inr ⟨hnumber, type, htype, rfl⟩)))
        · cases h

/-- A literal that is complete in itself is on one line. -/
theorem isInline_of_scalar {text : Text} {v : Value} (ht : text.IsInline)
    (h : scalar text = .ok v) : v.IsInline := by
  obtain ⟨body, -, rfl⟩ | ⟨c, -, rfl⟩ | hreference | hnumber | ⟨-, type, htype, rfl⟩ :=
    cases_of_scalar h
  · exact isInline_cons.mpr ⟨by decide, isInline_append.mpr ⟨isInline_escape body, by decide⟩⟩
  · refine isInline_cons.mpr ⟨by decide, isInline_append.mpr ⟨?_, by decide⟩⟩
    exact isInline_of_isPrintable fun _ hd => isPrintable_of_mem_escapeChar hd
  · exact (congrArg IsInline (encode_of_reference hreference)).mpr ht
  · exact (isNumber_of_number? hnumber).isInline
  · exact (congrArg IsInline (TypeName.descriptor_of_parse? htype)).mpr ht

/-- A literal that is complete in itself is a keyword, an enum constant or any other scalar. -/
theorem cases_of_leaf_shape {text : Text} {v : Value} (h : shape text = .leaf (.ok v)) :
    (text = "null" ∧ v = .null) ∨ (text = "true" ∧ v = .bool true) ∨
      (text = "false" ∧ v = .bool false) ∨
      (∃ rest, text = ".enum" ++ rest ∧ enumeration (trim rest) text = .ok v) ∨
      scalar text = .ok v := by
  have hopening : annotationShape text ≠ .leaf (.ok v) := by
    intro h
    unfold annotationShape at h
    split at h
    · cases h
    · split at h
      · cases h
      · split at h <;> cases h
  have harray : arrayShape text ≠ .leaf (.ok v) := by
    intro h
    unfold arrayShape at h
    split at h
    · split at h <;> cases h
    · cases h
  unfold shape at h
  split at h
  · cases h
  · split at h
    · rename_i htext
      cases h
      exact .inl ⟨htext, rfl⟩
    · split at h
      · rename_i htext
        cases h
        exact .inr (.inl ⟨htext, rfl⟩)
      · split at h
        · rename_i htext
          cases h
          exact .inr (.inr (.inl ⟨htext, rfl⟩))
        · split at h
          · exact absurd h hopening
          · split at h
            · rename_i rest hrest
              exact .inr (.inr (.inr (.inl ⟨rest, eq_of_after? hrest, Shape.leaf.inj h⟩)))
            · split at h
              · exact absurd h harray
              · exact .inr (.inr (.inr (.inr (Shape.leaf.inj h))))

/-- An enum constant is a field behind its keyword. -/
theorem reference_of_enumeration {rest text : Text} {v : Value}
    (h : enumeration rest text = .ok v) : ∃ owner name type,
      reference rest = .ok (.field owner name type) ∧ v = .enumeration owner name type := by
  obtain ⟨field, hfield, h⟩ := exists_of_bind_eq_ok h
  split at h
  · cases h
    exact ⟨_, _, _, hfield, rfl⟩
  · cases h

/-- A literal on one line that is complete in itself is written on one line. -/
theorem isInline_of_leaf {text : Text} {v : Value} (ht : text.IsInline)
    (h : shape text = .leaf (.ok v)) : v.IsInline := by
  obtain ⟨-, rfl⟩ | ⟨-, rfl⟩ | ⟨-, rfl⟩ | ⟨rest, rfl, henum⟩ | hscalar := cases_of_leaf_shape h
  · exact (by decide : IsInline "null")
  · exact (by decide : IsInline "true")
  · exact (by decide : IsInline "false")
  · obtain ⟨owner, name, type, hreference, rfl⟩ := reference_of_enumeration henum
    have hencode := encode_of_reference hreference
    rw [Value.encode_field] at hencode
    unfold Value.IsInline
    rw [Value.encode_enumeration, hencode]
    exact isInline_append.mpr ⟨by decide, (isInline_append.mp ht).2.of_subset (trim_subset rest)⟩
  · exact isInline_of_scalar ht hscalar

/-! ## Decoding -/

/-- A literal that is complete in itself. -/
theorem decode_of_leaf {t : Text} {result : Except Flaw Value}
    (h : shape (Text.trim t) = .leaf result) : decode t = result := by
  rw [decode]
  split <;> rename_i heq <;> rw [h] at heq <;> cases heq
  rfl

/-- An array. -/
theorem decode_of_array {t : Text} {parts : List Text}
    (h : shape (Text.trim t) = .array parts) : decode t = (parts.mapM decode).map .array := by
  rw [decode]
  split <;> rename_i heq <;> rw [h] at heq <;> cases heq
  rw [mapM_attach decode]
  rfl

/-- A nested annotation. -/
theorem decode_of_annotated {t : Text} {type : TypeName} {o : Outline}
    (h : shape (Text.trim t) = .annotated type o) :
    decode t =
      (o.elements.mapM fun e => (decode e.2).map fun v => (e.1, v)).bind fun elements =>
        match o.flaw with
        | some flaw => .error flaw
        | none => .ok (.annotated type elements) := by
  rw [decode]
  split <;> rename_i heq <;> rw [h] at heq <;> cases heq
  have helements := mapM_attach (fun e : Text × Text => (decode e.2).map fun v => (e.1, v))
    o.elements
  rw [← helements]
  rfl

/-- The parts between commas are parts of the text. -/
theorem subset_of_mem_partsFrom {q : Quoting} {depth : Int} {t part : Text}
    (h : part ∈ partsFrom q depth t) : part ⊆ t := by
  induction t generalizing q depth part with
  | nil =>
    rw [partsFrom, List.mem_singleton] at h
    rw [h]
    exact List.Subset.refl _
  | cons c t ih =>
    rw [partsFrom] at h
    split at h
    · cases h with
      | head => exact List.nil_subset _
      | tail _ h => exact List.subset_cons_of_subset c (ih h)
    · split at h
      · rw [List.mem_singleton] at h
        rw [h]
        exact List.cons_subset_cons c (List.nil_subset _)
      · rename_i first more heq
        cases h with
        | head => exact List.cons_subset_cons c (ih (heq ▸ List.mem_cons_self))
        | tail _ h => exact List.subset_cons_of_subset c (ih (heq ▸ List.mem_cons_of_mem _ h))

/-- An array is what stands between its braces. -/
theorem exists_of_array_shape {text : Text} {parts : List Text} (h : shape text = .array parts) :
    ∃ inner, text = '\x7b' :: (inner ++ ['\x7d']) ∧ parts = splitElements inner := by
  have harray : text.head? = some '\x7b' → arrayShape text = .array parts →
      ∃ inner, text = '\x7b' :: (inner ++ ['\x7d']) ∧ parts = splitElements inner := by
    intro hhead h
    unfold arrayShape at h
    cases text with
    | nil => cases h
    | cons c rest =>
      obtain rfl := Option.some.inj hhead
      dsimp only at h
      split at h
      · rename_i hlast
        obtain ⟨inner, rfl⟩ := List.getLast?_eq_some_iff.mp hlast
        rw [List.dropLast_concat] at h
        exact ⟨inner, rfl, (Shape.array.inj h).symm⟩
      · cases h
  have hopening : annotationShape text ≠ .array parts := by
    intro h
    unfold annotationShape at h
    split at h
    · cases h
    · split at h
      · cases h
      · split at h <;> cases h
  unfold shape at h
  split at h
  · cases h
  · split at h
    · cases h
    · split at h
      · cases h
      · split at h
        · cases h
        · split at h
          · exact absurd h hopening
          · split at h
            · cases h
            · split at h
              · rename_i hhead
                exact harray hhead h
              · cases h

/-- A nested annotation is the type on its first line and the outline of the lines behind it. -/
theorem exists_of_annotated_shape {text : Text} {type : TypeName} {o : Outline}
    (h : shape text = .annotated type o) :
    ∃ after rest, codeLines text = (opening ++ after) :: rest ∧
      TypeName.parse (trim after) = .ok type ∧ o = outline type.descriptor .none rest := by
  have harray : arrayShape text ≠ .annotated type o := by
    intro h
    unfold arrayShape at h
    split at h
    · split at h <;> cases h
    · cases h
  have hopening : annotationShape text = .annotated type o →
      ∃ after rest, codeLines text = (opening ++ after) :: rest ∧
        TypeName.parse (trim after) = .ok type ∧ o = outline type.descriptor .none rest := by
    intro h
    unfold annotationShape at h
    split at h
    · cases h
    · rename_i first rest hlines
      split at h
      · cases h
      · rename_i after hafter
        split at h
        · cases h
        · rename_i found hparse
          obtain ⟨rfl, rfl⟩ := Shape.annotated.inj h
          exact ⟨after, rest, eq_of_after? hafter ▸ hlines, hparse, rfl⟩
  unfold shape at h
  split at h
  · cases h
  · split at h
    · cases h
    · split at h
      · cases h
      · split at h
        · cases h
        · split at h
          · exact hopening h
          · split at h
            · cases h
            · split at h
              · exact absurd h harray
              · cases h

/-- The elements of an array are parts of it. -/
theorem subset_of_array_shape {text part : Text} {parts : List Text}
    (h : shape text = .array parts) (hpart : part ∈ parts) : part ⊆ text := by
  obtain ⟨inner, rfl, rfl⟩ := exists_of_array_shape h
  obtain ⟨whole, hwhole, rfl⟩ := List.mem_map.mp (List.mem_filter.mp hpart).1
  exact List.subset_cons_of_subset _ (List.Subset.trans (trim_subset whole)
    (List.Subset.trans (subset_of_mem_partsFrom hwhole) (List.subset_append_left inner _)))

/-- What holds of scalars, and of arrays and annotations if it holds of all that is read for their
elements, holds of all that is read. -/
@[elab_as_elim]
theorem decode_induction {motive : (t : Text) → (v : Value) → decode t = .ok v → Prop}
    (t : Text) (v : Value) (h : decode t = .ok v)
    (leaf : ∀ t v h, shape (trim t) = .leaf (.ok v) → motive t v h)
    (array : ∀ t parts values h, shape (trim t) = .array parts →
      List.Forall₂ (fun part v => ∃ h, motive part v h) parts values → motive t (.array values) h)
    (annotated : ∀ t type (o : Outline) elements h, shape (trim t) = .annotated type o →
      o.flaw = none → List.Forall₂ (fun text e => text.1 = e.1 ∧ ∃ h, motive text.2 e.2 h)
        o.elements elements → motive t (.annotated type elements) h) : motive t v h := by
  generalize hlength : t.length = n
  induction n using Nat.strong_induction_on generalizing t v with
  | _ n ih =>
    have htrimmed := length_trim_le t
    cases hshape : shape (trim t) with
    | leaf result =>
      have hresult := decode_of_leaf hshape
      rw [h] at hresult
      exact leaf t v h (hresult ▸ hshape)
    | array parts =>
      have hparts := decode_of_array hshape
      rw [h] at hparts
      obtain ⟨values, hvalues, rfl⟩ := exists_of_map_eq_ok hparts.symm
      have hread := List.forall₂_iff_get.mp (mapM_eq_ok_iff.mp hvalues)
      refine array t parts values h hshape (List.forall₂_iff_get.mpr ⟨hread.1, ?_⟩)
      intro i hi hi'
      have hshorter := length_of_array_shape hshape (List.getElem_mem hi)
      exact ⟨hread.2 i hi hi', ih _ (hlength ▸ hshorter.trans_le htrimmed) _ _ _ rfl⟩
    | annotated type o =>
      have houtline := decode_of_annotated hshape
      rw [h] at houtline
      obtain ⟨elements, helements, hresult⟩ := exists_of_bind_eq_ok houtline.symm
      split at hresult
      · cases hresult
      · rename_i hflaw
        cases hresult
        have hread := List.forall₂_iff_get.mp (mapM_eq_ok_iff.mp helements)
        refine annotated t type o elements h hshape hflaw
          (List.forall₂_iff_get.mpr ⟨hread.1, ?_⟩)
        intro i hi hi'
        obtain ⟨v, hv, heq⟩ := exists_of_map_eq_ok (hread.2 i hi hi')
        have hmem : o.elements.get ⟨i, hi⟩ ∈ o.elements := List.getElem_mem hi
        have hshorter := length_of_annotated_shape hshape hmem
        rw [← heq]
        exact ⟨rfl, hv, ih _ (hlength ▸ hshorter.trans_le htrimmed) _ _ _ rfl⟩

/-- A literal on one line denotes a value that is written on one line. -/
theorem isInline_of_decode {t : Text} {v : Value} (ht : t.IsInline) (h : decode t = .ok v) :
    v.IsInline := by
  induction t, v, h using decode_induction with
  | leaf t v h hshape => exact isInline_of_leaf (ht.of_subset (trim_subset t)) hshape
  | array t parts values h hshape hvalues =>
    have htrim := ht.of_subset (trim_subset t)
    unfold Value.IsInline
    rw [Value.encode_array]
    refine isInline_encodeArray fun text htext => ?_
    obtain ⟨value, hvalue, rfl⟩ := List.mem_map.mp htext
    obtain ⟨part, hpart, -, hinline⟩ := exists_of_forall₂ hvalues hvalue
    exact hinline (htrim.of_subset (subset_of_array_shape hshape hpart))
  | annotated t type o elements h hshape hflaw helements =>
    have htrim := ht.of_subset (trim_subset t)
    obtain ⟨after, rest, hlines, -, rfl⟩ := exists_of_annotated_shape hshape
    rw [codeLines_of_not_mem htrim] at hlines
    split at hlines
    · cases hlines
    · obtain rfl := (List.cons.inj hlines).2
      cases hflaw

end Literal

end Smali
