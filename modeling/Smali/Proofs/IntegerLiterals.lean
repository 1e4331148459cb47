import Smali.Proofs.Scalars

/-!
# Integer literals

An integer literal is a sign, the mark of its base, digits, and a suffix that names its width. It
denotes its number if the width has it. Without a minus sign the hexadecimal digits may also give
the bits of a negative number. In every other case the literal is refused, and so is an integer
suffix behind a fraction or an exponent. No numeral is ever taken for a type.
-/

namespace Smali

open Text Literal

/-! ## Widths -/

/-- The widths of integers. -/
inductive Width where
  /-- 8 bits. -/
  | byte
  /-- 16 bits. -/
  | short
  /-- 32 bits. -/
  | int
  /-- 64 bits. -/
  | long
  deriving DecidableEq, Repr

namespace Width

/-- The number of bits. -/
def bits : Width → Nat
  | .byte => 8
  | .short => 16
  | .int => 32
  | .long => 64

/-- The suffixes that name the width. -/
def suffixes : Width → List Text
  | .byte => [['t'], ['T']]
  | .short => [['s'], ['S']]
  | .int => [[]]
  | .long => [['l'], ['L']]

/-- The letter of the suffix in lower case, if there is one. -/
def letter? : Width → Option Char
  | .byte => some 't'
  | .short => some 's'
  | .int => none
  | .long => some 'l'

/-- Whether a number has this width in two's complement. -/
def Has (w : Width) (n : Int) : Prop := -2 ^ (w.bits - 1) ≤ n ∧ n < 2 ^ (w.bits - 1)

instance (w : Width) (n : Int) : Decidable (w.Has n) :=
  inferInstanceAs (Decidable (-2 ^ (w.bits - 1) ≤ n ∧ n < 2 ^ (w.bits - 1)))

/-- The value of this width with the bits of a number. -/
def value : Width → Int → Value
  | .byte, n => .byte (Int8.ofInt n)
  | .short, n => .short (Int16.ofInt n)
  | .int, n => .int (Int32.ofInt n)
  | .long, n => .long (Int64.ofInt n)

/-- All bits are the one of the sign and the others. -/
theorem two_pow_bits (w : Width) : (2 : Int) ^ w.bits = 2 * 2 ^ (w.bits - 1) := by
  cases w <;> rfl

end Width

/-- The width and the number of a value that is an integer. -/
def Value.integer? : Value → Option (Width × Int)
  | .byte n => some (.byte, n.toInt)
  | .short n => some (.short, n.toInt)
  | .int n => some (.int, n.toInt)
  | .long n => some (.long, n.toInt)
  | _ => none

/-- A number of the width is the number of its value. -/
theorem Width.integer?_value {w : Width} {n : Int} (h : w.Has n) :
    (w.value n).integer? = some (w, n) := by
  obtain ⟨hlow, hhigh⟩ := h
  cases w with
  | byte => rw [value, Value.integer?, Int8.toInt_ofInt_of_le hlow hhigh]
  | short => rw [value, Value.integer?, Int16.toInt_ofInt_of_le hlow hhigh]
  | int => rw [value, Value.integer?, Int32.toInt_ofInt_of_le hlow hhigh]
  | long => rw [value, Value.integer?, Int64.toInt_ofInt_of_le hlow hhigh]

/-! ## Signs and bases -/

/-- What may stand in front of a numeral. -/
inductive Sign where
  /-- Nothing. -/
  | none
  /-- A plus sign. -/
  | plus
  /-- A minus sign. -/
  | minus
  deriving DecidableEq, Repr

/-- The spelling of a sign. -/
def Sign.text : Sign → Text
  | .none => []
  | .plus => ['+']
  | .minus => ['-']

/-- The base of a numeral. -/
inductive Base where
  /-- Base ten. -/
  | decimal
  /-- Base sixteen, marked with a small or a capital letter. -/
  | hexadecimal (capital : Bool)
  deriving DecidableEq, Repr

namespace Base

/-- What marks the base in front of the digits. -/
def mark : Base → Text
  | .decimal => []
  | .hexadecimal false => "0x"
  | .hexadecimal true => "0X"

/-- The number of digits there are. -/
def radix : Base → Nat
  | .decimal => 10
  | .hexadecimal _ => 16

/-- The digits. -/
def isDigit : Base → Char → Bool
  | .decimal => Text.isDigit
  | .hexadecimal _ => isHexDigit

/-- Every digit is a hexadecimal one. -/
theorem isHexDigit_of_isDigit (b : Base) {c : Char} (h : b.isDigit c = true) :
    isHexDigit c = true := by
  cases b with
  | decimal => exact Bool.or_eq_true_iff.mpr (.inl (Bool.or_eq_true_iff.mpr (.inl h)))
  | hexadecimal capital => exact h

/-- Whether the base is sixteen. -/
def IsHexadecimal (b : Base) : Prop := b.radix = 16

instance (b : Base) : Decidable b.IsHexadecimal := inferInstanceAs (Decidable (b.radix = 16))

end Base

/-- An integer literal by its parts. -/
structure IntegerLiteral where
  /-- The sign. -/
  sign : Sign
  /-- The base. -/
  base : Base
  /-- The digits, the most significant first. -/
  digits : Text
  /-- The width. -/
  width : Width
  /-- The suffix that names it. -/
  suffix : Text
  /-- There is a digit. -/
  digits_ne_nil : digits ≠ []
  /-- All digits are of the base. -/
  isDigit_of_mem : ∀ c ∈ digits, base.isDigit c = true
  /-- The suffix is one of the width. -/
  suffix_mem : suffix ∈ width.suffixes

namespace IntegerLiteral

/-- The spelling of the literal. -/
def text (t : IntegerLiteral) : Text := t.sign.text ++ (t.base.mark ++ (t.digits ++ t.suffix))

/-- The number that the digits denote in their base. -/
def magnitude (t : IntegerLiteral) : Nat :=
  Nat.ofDigits t.base.radix (t.digits.reverse.map digitValue)

/-- The mathematical value of the literal. -/
def number (t : IntegerLiteral) : Int :=
  if t.sign = .minus then -(t.magnitude : Int) else t.magnitude

/-- Whether the digits give the bits of a negative number. -/
def Wraps (t : IntegerLiteral) : Prop :=
  t.base.IsHexadecimal ∧ t.sign ≠ .minus ∧ 2 ^ (t.width.bits - 1) ≤ t.number ∧
    t.number < 2 ^ t.width.bits

instance (t : IntegerLiteral) : Decidable t.Wraps :=
  inferInstanceAs (Decidable (t.base.IsHexadecimal ∧ t.sign ≠ .minus ∧
    2 ^ (t.width.bits - 1) ≤ t.number ∧ t.number < 2 ^ t.width.bits))

end IntegerLiteral

/-- A decimal literal with an integer suffix behind a fraction or an exponent. -/
structure FractionalLiteral where
  /-- The sign. -/
  sign : Sign
  /-- The digits in front of the point. -/
  whole : Text
  /-- The digits behind the point, if there is one. -/
  fraction : Option Text
  /-- The letter, the sign and the digits of the exponent, if there is one. -/
  power : Option (Char × Sign × Text)
  /-- The width. -/
  width : Width
  /-- The suffix that names it. -/
  suffix : Text
  /-- There is a digit in front. -/
  whole_ne_nil : whole ≠ []
  /-- It is a decimal digit. -/
  isDigit_of_mem_whole : ∀ c ∈ whole, isDigit c = true
  /-- So is there behind the point. -/
  fraction_digits : ∀ digits ∈ fraction, digits ≠ [] ∧ ∀ c ∈ digits, isDigit c = true
  /-- So is there in the exponent. -/
  power_digits : ∀ p ∈ power,
    (p.1 = 'e' ∨ p.1 = 'E') ∧ p.2.2 ≠ [] ∧ ∀ c ∈ p.2.2, isDigit c = true
  /-- There is a fraction or an exponent. -/
  fractional : fraction.isSome ∨ power.isSome
  /-- There is a suffix. -/
  suffix_ne_nil : suffix ≠ []
  /-- It is one of the width. -/
  suffix_mem : suffix ∈ width.suffixes

namespace FractionalLiteral

/-- The spelling of the fraction. -/
def fractionText (t : FractionalLiteral) : Text := t.fraction.elim [] ('.' :: ·)

/-- The spelling of the exponent. -/
def powerText (t : FractionalLiteral) : Text :=
  t.power.elim [] fun (letter, sign, digits) => letter :: (sign.text ++ digits)

/-- The spelling of the literal. -/
def text (t : FractionalLiteral) : Text :=
  t.sign.text ++ (t.whole ++ (t.fractionText ++ (t.powerText ++ t.suffix)))

end FractionalLiteral

namespace Literal

/-! ## Numbers -/

/-- A number goes to the width that the letter names. -/
theorem integer?_letter? (w : Width) (wraps negative : Bool) (magnitude : Nat) :
    integer? wraps negative magnitude w.letter? =
      (within? w.bits wraps negative magnitude).map w.value := by
  cases w <;> rfl

section Within

variable {w : Width} {wraps negative : Bool} {magnitude : Nat} {n : Int}
  (hn : n = if negative then -(magnitude : Int) else magnitude)

include hn

/-- What becomes of a number, in terms of the number. -/
theorem within?_eq : within? w.bits wraps negative magnitude =
    if w.Has n then some n
    else if wraps = true ∧ negative = false ∧ n < 2 ^ w.bits then some (n - 2 ^ w.bits)
    else none := by
  have hhalf : ((Nat.pow 2 (w.bits - 1) : Nat) : Int) = 2 ^ (w.bits - 1) := by cases w <;> rfl
  unfold within?
  dsimp only
  rw [← hn, hhalf, ← Width.two_pow_bits]
  rfl

end Within

/-! ## Parts of numerals -/

/-- Neither a blank nor the head of an arrow. -/
def isClear (c : Char) : Bool := c != '>' && !isBlank c

/-- What a clear character is not. -/
theorem isClear_iff {c : Char} : isClear c = true ↔ c ≠ '>' ∧ isBlank c = false := by
  simp [isClear]

/-- A digit. -/
theorem isClear_of_isHexDigit {c : Char} (h : isHexDigit c = true) : isClear c = true := by
  refine isClear_iff.mpr ⟨by rintro rfl; exact absurd h (by decide), ?_⟩
  simp only [isHexDigit, isDigit, Bool.or_eq_true, Bool.and_eq_true, decide_eq_true_eq] at h
  have hrange : (0x30 ≤ c.toNat ∧ c.toNat ≤ 0x39 ∨ 0x61 ≤ c.toNat ∧ c.toNat ≤ 0x66) ∨
      0x41 ≤ c.toNat ∧ c.toNat ≤ 0x46 := h
  simp only [isBlank, Bool.or_eq_false_iff, Bool.and_eq_false_iff, decide_eq_false_iff_not,
    beq_eq_false_iff_ne, ne_eq]
  omega

/-- A sign in front of a digit. -/
theorem takeSign_text (s : Sign) {c : Char} (hc : isDigit c = true) (rest : Text) :
    Numeral.takeSign (s.text ++ c :: rest) = (decide (s = .minus), c :: rest) := by
  cases s with
  | none =>
    refine Numeral.takeSign.eq_3 _ ?_ ?_ <;>
    · rintro _ ⟨⟩
      exact absurd hc (by decide)
  | plus => rfl
  | minus => rfl

/-- Digits are not the mark of hexadecimal ones. -/
theorem ne_mark {digits rest more : Text} (hne : digits ≠ [])
    (hdigits : ∀ c ∈ digits, isDigit c = true) {x : Char} (hx : x = 'x' ∨ x = 'X')
    (hrest : rest.head? ≠ some x) :
    digits ++ rest ≠ '0' :: x :: more := by
  intro h
  match digits with
  | [] => exact hne rfl
  | [_] =>
    obtain ⟨-, rfl⟩ := List.cons.inj h
    exact hrest rfl
  | _ :: d :: _ =>
    obtain ⟨rfl, -⟩ := List.cons.inj (List.cons.inj h).2
    have hdigit := hdigits d (by simp)
    obtain rfl | rfl := hx <;> exact absurd hdigit (by decide)

/-- The parts of a decimal numeral. -/
theorem parse?_decimal (s : Sign) {digits rest : Text} (hne : digits ≠ [])
    (hdigits : ∀ c ∈ digits, isDigit c = true)
    (hrest : ∀ c ∈ rest.head?, isDigit c = false ∧ c ≠ 'x' ∧ c ≠ 'X') :
    Numeral.parse? (s.text ++ (digits ++ rest)) =
      (Numeral.suffix? ['t', 's', 'l', 'f', 'd']
        (Numeral.takePower (Numeral.takeFraction rest).2).2).map
          (.decimal (s = .minus) digits (Numeral.takeFraction rest).1
            (Numeral.takePower (Numeral.takeFraction rest).2).1) := by
  obtain ⟨htake, hdrop⟩ := span_append hdigits fun c hc => (hrest c hc).1
  obtain ⟨c, more, rfl⟩ := List.exists_cons_of_ne_nil hne
  have hx : rest.head? ≠ some 'x' := fun h => (hrest _ h).2.1 rfl
  have hX : rest.head? ≠ some 'X' := fun h => (hrest _ h).2.2 rfl
  have hsign := takeSign_text s (hdigits c List.mem_cons_self) (more ++ rest)
  rw [← List.cons_append] at hsign
  have hdecimal : Numeral.parse? (s.text ++ (c :: more ++ rest)) =
      Numeral.parseDecimal? (s = .minus) (c :: more ++ rest) := by
    unfold Numeral.parse?
    rw [hsign]
    split
    · rename_i h
      exact absurd (Prod.mk.inj h).2 (ne_mark hne hdigits (.inl rfl) hx)
    · rename_i h
      exact absurd (Prod.mk.inj h).2 (ne_mark hne hdigits (.inr rfl) hX)
    · rename_i h
      obtain ⟨rfl, rfl⟩ := Prod.mk.inj h
      rfl
  rw [hdecimal]
  unfold Numeral.parseDecimal?
  dsimp only
  rw [htake, hdrop, if_neg (by simp)]

/-- The parts of a hexadecimal numeral. -/
theorem parse?_hexadecimal (s : Sign) (capital : Bool) {digits suffix : Text} (hne : digits ≠ [])
    (hdigits : ∀ c ∈ digits, isHexDigit c = true)
    (hfirst : ∀ c ∈ suffix.head?, isHexDigit c = false) :
    Numeral.parse? (s.text ++ ((Base.hexadecimal capital).mark ++ (digits ++ suffix))) =
      (Numeral.suffix? ['t', 's', 'l'] suffix).map (.hex (s = .minus) digits) := by
  rw [← parseHex?_append _ hne hdigits hfirst]
  unfold Numeral.parse?
  cases capital with
  | false =>
    have hmark : (Base.hexadecimal false).mark ++ (digits ++ suffix) =
        '0' :: 'x' :: (digits ++ suffix) := rfl
    rw [hmark, takeSign_text s (by decide)]
    rfl
  | true =>
    have hmark : (Base.hexadecimal true).mark ++ (digits ++ suffix) =
        '0' :: 'X' :: (digits ++ suffix) := rfl
    rw [hmark, takeSign_text s (by decide)]
    rfl

/-- Neither a digit nor what a fraction, an exponent or the mark of a base starts with. -/
def isSuffixChar (c : Char) : Bool :=
  !isHexDigit c && !isDigit c && c != 'x' && c != 'X' && c != '.'

/-- What a character of a suffix is not. -/
theorem isSuffixChar_iff {c : Char} : isSuffixChar c = true ↔
    isHexDigit c = false ∧ (isDigit c = false ∧ c ≠ 'x' ∧ c ≠ 'X') ∧ c ≠ '.' := by
  simp [isSuffixChar, and_assoc]

/-- A suffix holds nothing of a fraction or an exponent and has the letter of its width. -/
theorem suffix_of_mem : ∀ w : Width, ∀ suffix ∈ w.suffixes,
    Numeral.takeFraction suffix = (none, suffix) ∧ Numeral.takePower suffix = (none, suffix) ∧
      suffix.all isSuffixChar = true ∧
      Numeral.suffix? ['t', 's', 'l'] suffix = some w.letter? ∧
      Numeral.suffix? ['t', 's', 'l', 'f', 'd'] suffix = some w.letter? := by
  intro w
  cases w <;> decide

/-! ## Numerals as literals -/

/-- A letter and its lower-case form. -/
theorem isClear_of_lower {c : Char} (h : isClear (lower c) = true) : isClear c = true := by
  unfold lower at h
  split at h
  · rename_i hcapital
    have hrange : 0x41 ≤ c.toNat ∧ c.toNat ≤ 0x5A := hcapital
    refine isClear_iff.mpr ⟨by rintro rfl; exact absurd hrange (by decide), ?_⟩
    simp only [isBlank, Bool.or_eq_false_iff, Bool.and_eq_false_iff, decide_eq_false_iff_not,
      beq_eq_false_iff_ne, ne_eq]
    omega
  · exact h

section Clear

variable {t : Text}

/-- Taking a sign leaves all but clear characters. -/
theorem isClear_of_takeSign (h : ∀ c ∈ (Numeral.takeSign t).2, isClear c = true) :
    ∀ c ∈ t, isClear c = true := by
  unfold Numeral.takeSign at h
  split at h
  · exact List.forall_mem_cons.mpr ⟨by decide, h⟩
  · exact List.forall_mem_cons.mpr ⟨by decide, h⟩
  · exact h

/-- So does taking a run of digits. -/
theorem isClear_of_dropWhile {p : Char → Bool} (hp : ∀ c, p c = true → isClear c = true)
    (h : ∀ c ∈ t.dropWhile p, isClear c = true) : ∀ c ∈ t, isClear c = true := by
  rw [← List.takeWhile_append_dropWhile (p := p) (l := t)]
  exact List.forall_mem_append.mpr ⟨fun c hc => hp c (List.mem_takeWhile_imp hc), h⟩

/-- A decimal digit. -/
theorem isClear_of_isDigit {c : Char} (h : isDigit c = true) : isClear c = true :=
  isClear_of_isHexDigit (Base.decimal.isHexDigit_of_isDigit h)

/-- So does taking a fraction. -/
theorem isClear_of_takeFraction (h : ∀ c ∈ (Numeral.takeFraction t).2, isClear c = true) :
    ∀ c ∈ t, isClear c = true := by
  unfold Numeral.takeFraction at h
  split at h
  · dsimp only at h
    split at h
    · exact h
    · exact List.forall_mem_cons.mpr ⟨by decide,
        isClear_of_dropWhile (fun _ => isClear_of_isDigit) h⟩
  · exact h

/-- So does taking an exponent. -/
theorem isClear_of_takePower (h : ∀ c ∈ (Numeral.takePower t).2, isClear c = true) :
    ∀ c ∈ t, isClear c = true := by
  unfold Numeral.takePower at h
  split at h
  · split at h
    · rename_i c rest hletter
      dsimp only at h
      split at h
      · exact h
      · refine List.forall_mem_cons.mpr ⟨isClear_of_lower (hletter ▸ by decide), ?_⟩
        exact isClear_of_takeSign (isClear_of_dropWhile (fun _ => isClear_of_isDigit) h)
    · exact h
  · exact h

/-- A suffix is clear. -/
theorem isClear_of_suffix? {letters : Text} (hletters : letters.all isClear = true)
    {letter : Option Char} (h : Numeral.suffix? letters t = some letter) : ∀ c ∈ t, isClear c = true := by
  unfold Numeral.suffix? at h
  split at h
  · exact fun _ hc => absurd hc List.not_mem_nil
  · split at h
    · rename_i c hc
      exact List.forall_mem_singleton.mpr (isClear_of_lower (List.all_eq_true.mp hletters _ hc))
    · cases h
  · cases h

/-- A numeral has clear characters, and a digit behind its sign. -/
theorem isClear_of_parse? {numeral : Numeral} (h : Numeral.parse? t = some numeral) :
    (∀ c ∈ t, isClear c = true) ∧ ∃ c ∈ (Numeral.takeSign t).2.head?, isDigit c = true := by
  have hhex : ∀ {negative : Bool} {rest : Text}, Numeral.parseHex? negative rest = some numeral →
      ∀ c ∈ rest, isClear c = true := by
    intro negative rest h
    unfold Numeral.parseHex? at h
    dsimp only at h
    split at h
    · cases h
    · obtain ⟨letter, hletter, -⟩ := Option.map_eq_some_iff.mp h
      exact isClear_of_dropWhile (fun _ => isClear_of_isHexDigit)
        (isClear_of_suffix? rfl hletter)
  unfold Numeral.parse? at h
  split at h
  · rename_i negative rest hsign
    refine ⟨isClear_of_takeSign ?_, '0', by rw [hsign]; rfl, rfl⟩
    rw [hsign]
    exact List.forall_mem_cons.mpr ⟨by decide, List.forall_mem_cons.mpr ⟨by decide, hhex h⟩⟩
  · rename_i negative rest hsign
    refine ⟨isClear_of_takeSign ?_, '0', by rw [hsign]; rfl, rfl⟩
    rw [hsign]
    exact List.forall_mem_cons.mpr ⟨by decide, List.forall_mem_cons.mpr ⟨by decide, hhex h⟩⟩
  · rename_i negative rest _ _ hsign
    unfold Numeral.parseDecimal? at h
    dsimp only at h
    split at h
    · cases h
    · rename_i hne
      obtain ⟨letter, hletter, -⟩ := Option.map_eq_some_iff.mp h
      rw [hsign]
      refine ⟨isClear_of_takeSign ?_, ?_⟩
      · rw [hsign]
        exact isClear_of_dropWhile (fun _ => isClear_of_isDigit) (isClear_of_takeFraction
          (isClear_of_takePower (isClear_of_suffix? rfl hletter)))
      · cases rest with
        | nil => exact absurd rfl hne
        | cons c rest =>
          refine ⟨c, rfl, Bool.not_eq_false _ ▸ fun hc => hne ?_⟩
          rw [List.takeWhile_cons_of_neg (by simp [hc])]
          rfl

/-- A sign or a digit comes first. -/
theorem first_of_digit (h : ∃ c ∈ (Numeral.takeSign t).2.head?, isDigit c = true) :
    ∃ d more, t = d :: more ∧ d ∉ ['n', 't', 'f', '.', '\x7b', '"', '\''] := by
  obtain ⟨c, hhead, hc⟩ := h
  unfold Numeral.takeSign at hhead
  split at hhead
  · exact ⟨'-', _, rfl, by decide⟩
  · exact ⟨'+', _, rfl, by decide⟩
  · obtain ⟨more, rfl⟩ := List.head?_eq_some_iff.mp hhead
    have hnot : (['n', 't', 'f', '.', '\x7b', '"', '\''].all fun d => !isDigit d) = true := rfl
    refine ⟨c, more, rfl, fun h => ?_⟩
    have hdigit := List.all_eq_true.mp hnot c h
    rw [hc] at hdigit
    cases hdigit

/-- A numeral is read as the value of its parts. -/
theorem decode_of_parse? {numeral : Numeral} (h : Numeral.parse? t = some numeral) :
    decode t = numeral.value t := by
  obtain ⟨hclear, hdigit⟩ := isClear_of_parse? h
  have harrow : Text.cutAt? "->" t = none :=
    cutAt?_arrow_eq_none fun h => (isClear_iff.mp (hclear '>' (h.subset (by decide)))).1 rfl
  have htrim : trim t = t :=
    IsTrimmed.trim_eq ⟨fun c hc => (isClear_iff.mp (hclear c (List.mem_of_mem_head? hc))).2,
      fun c hc => (isClear_iff.mp (hclear c (List.mem_of_getLast? hc))).2⟩
  have hnumber : number? t = (numeral.value t).map some := by
    obtain ⟨c, hhead, hc⟩ := hdigit
    obtain ⟨rest, hrest⟩ := List.head?_eq_some_iff.mp hhead
    have hi : c ≠ 'I' := by rintro rfl; exact absurd hc (by decide)
    have hn : c ≠ 'N' := by rintro rfl; exact absurd hc (by decide)
    unfold number?
    dsimp only
    rw [hrest, specialNumber?_of_first hi hn, h]
  obtain ⟨d, more, rfl, hd⟩ := first_of_digit hdigit
  simp only [List.mem_cons, List.not_mem_nil, or_false, not_or] at hd
  obtain ⟨hd₁, hd₂, hd₃, hd₄, hd₅, hdouble, hsingle⟩ := hd
  have hshape : shape (trim (d :: more)) = .leaf (scalar (d :: more)) :=
    (congrArg shape htrim).trans (shape_of_first (by simp [*]) more)
  rw [decode_of_leaf hshape, scalar, harrow, if_neg (by simp), hnumber]
  · cases numeral.value (d :: more) <;> rfl
  · exact fun _ h => hdouble (List.cons.inj h).1
  · exact fun _ h => hsingle (List.cons.inj h).1

end Clear

/-- No numeral is read as a type. -/
theorem decode_ne_typeName_of_isNumeral {t : Text} (h : isNumeral t = true) (type : TypeName) :
    decode t ≠ .ok (.typeName type) := by
  obtain ⟨numeral, hparse⟩ := Option.isSome_iff_exists.mp h
  rw [decode_of_parse? hparse]
  intro hvalue
  cases isNumber_of_numeral hvalue

end Literal

namespace IntegerLiteral

variable (t : IntegerLiteral)

/-- The sign, the digits and the width of the literal, as they are read. -/
theorem parse?_text : Numeral.parse? t.text = some (
    if t.base.IsHexadecimal then .hex (t.sign = .minus) t.digits t.width.letter?
    else .decimal (t.sign = .minus) t.digits none none t.width.letter?) := by
  obtain ⟨hfraction, hpower, hchars, hhex, hdecimal⟩ := suffix_of_mem _ _ t.suffix_mem
  have hfirst := fun c hc =>
    isSuffixChar_iff.mp (List.all_eq_true.mp hchars c (List.mem_of_mem_head? hc))
  have hdigits := t.isDigit_of_mem
  rw [text]
  cases hbase : t.base with
  | decimal =>
    rw [hbase] at hdigits
    have hparse := parse?_decimal t.sign t.digits_ne_nil hdigits fun c hc => (hfirst c hc).2.1
    rw [hfraction] at hparse
    dsimp only at hparse
    rw [hpower, hdecimal] at hparse
    exact hparse
  | hexadecimal capital =>
    rw [hbase] at hdigits
    have hparse := parse?_hexadecimal t.sign capital t.digits_ne_nil hdigits
      fun c hc => (hfirst c hc).1
    rw [hhex] at hparse
    cases capital <;> exact hparse

/-- A literal is read as what becomes of its number in its width. -/
theorem decode_text : decode t.text =
    (within? t.width.bits t.base.IsHexadecimal (t.sign = .minus) t.magnitude).elim
      (.error (.outOfRange t.text)) fun n => .ok (t.width.value n) := by
  rw [decode_of_parse? t.parse?_text]
  by_cases hbase : t.base.IsHexadecimal
  · have hradix : t.base.radix = 16 := hbase
    rw [if_pos hbase, Numeral.value, integer?_letter?, valueIn_eq_ofDigits, magnitude, hradix]
    simp only [hbase, decide_true]
    cases within? t.width.bits true _ _ <;> rfl
  · have hradix : t.base.radix = 10 := by
      revert hbase
      cases t.base with
      | decimal => exact fun _ => rfl
      | hexadecimal capital => exact fun h => absurd rfl h
    have hletter : t.width.letter? ≠ some 'f' ∧ t.width.letter? ≠ some 'd' := by
      cases t.width <;> decide
    rw [if_neg hbase, Numeral.value, if_neg hletter.1, if_neg hletter.2, if_neg (by decide),
      integer?_letter?, valueIn_eq_ofDigits, magnitude, hradix]
    simp only [hbase, decide_false]
    cases within? t.width.bits false _ _ <;> rfl

/-- What becomes of the number of the literal. -/
theorem within?_number :
    within? t.width.bits t.base.IsHexadecimal (t.sign = .minus) t.magnitude =
      if t.width.Has t.number then some t.number
      else if t.Wraps then some (t.number - 2 ^ t.width.bits)
      else none := by
  have hnumber : t.number =
      if decide (t.sign = .minus) = true then -(t.magnitude : Int) else t.magnitude := by
    simp [number]
  rw [within?_eq hnumber]
  split
  · rfl
  · rename_i hhas
    have hiff : (decide t.base.IsHexadecimal = true ∧ decide (t.sign = .minus) = false ∧
        t.number < 2 ^ t.width.bits) ↔ t.Wraps := by
      rw [decide_eq_true_iff, decide_eq_false_iff_not, Wraps]
      refine and_congr_right fun _ => and_congr_right fun hsign => ?_
      have hnat : 0 ≤ t.number := by simp [number, hsign]
      have hpow : (0 : Int) < 2 ^ (t.width.bits - 1) := by positivity
      rw [Width.Has] at hhas
      omega
    simp only [hiff]

/-- A number of the width is denoted. -/
theorem decode_of_has (h : t.width.Has t.number) :
    ∃ v, decode t.text = .ok v ∧ v.integer? = some (t.width, t.number) := by
  refine ⟨t.width.value t.number, ?_, Width.integer?_value h⟩
  rw [t.decode_text, t.within?_number, if_pos h]
  rfl

/-- The bits of a negative number denote it. -/
theorem decode_of_wraps (h : t.Wraps) :
    ∃ v, decode t.text = .ok v ∧ v.integer? = some (t.width, t.number - 2 ^ t.width.bits) := by
  obtain ⟨-, -, hlow, hhigh⟩ := id h
  have hbits := t.width.two_pow_bits
  refine ⟨t.width.value (t.number - 2 ^ t.width.bits), ?_, Width.integer?_value ?_⟩
  · have hnot : ¬t.width.Has t.number := fun hhas => absurd hhas.2 (not_lt.mpr hlow)
    rw [t.decode_text, t.within?_number, if_neg hnot, if_pos h]
    rfl
  · constructor <;> omega

/-- Any other number is refused. -/
theorem isRefused (hhas : ¬t.width.Has t.number) (hwraps : ¬t.Wraps) : IsRefused t.text := by
  have hdecode : decode t.text = .error (.outOfRange t.text) := by
    rw [t.decode_text, t.within?_number, if_neg hhas, if_neg hwraps]
    rfl
  exact isRefused_of_decode hdecode

end IntegerLiteral

namespace FractionalLiteral

variable (t : FractionalLiteral)

/-- The fraction ends in front of anything that is neither a point nor a digit. -/
theorem takeFraction_append (more : Text)
    (hmore : ∀ c ∈ more.head?, isDigit c = false ∧ c ≠ '.') :
    Numeral.takeFraction (t.fractionText ++ more) = (t.fraction, more) := by
  unfold fractionText
  cases hfraction : t.fraction with
  | none =>
    rw [Option.elim_none, List.nil_append, Numeral.takeFraction]
    rintro rest rfl
    exact (hmore '.' rfl).2 rfl
  | some digits =>
    obtain ⟨hne, hdigits⟩ := t.fraction_digits digits hfraction
    obtain ⟨htake, hdrop⟩ := span_append hdigits fun c hc => (hmore c hc).1
    rw [Option.elim_some, List.cons_append, Numeral.takeFraction, htake, hdrop,
      if_neg (by simpa using hne)]

/-- The exponent ends in front of the suffix. -/
theorem takePower_append :
    Numeral.takePower (t.powerText ++ t.suffix) =
      (t.power.map fun p => (decide (p.2.1 = .minus), p.2.2), t.suffix) := by
  obtain ⟨-, hpower, hchars, -⟩ := suffix_of_mem _ _ t.suffix_mem
  unfold powerText
  cases hpart : t.power with
  | none => exact hpower
  | some power =>
    obtain ⟨letter, sign, digits⟩ := power
    obtain ⟨hletter, hne, hdigits⟩ := t.power_digits _ hpart
    dsimp only at hletter hne hdigits
    have hfirst : ∀ c ∈ t.suffix.head?, isDigit c = false :=
      fun c hc =>
        (isSuffixChar_iff.mp (List.all_eq_true.mp hchars c (List.mem_of_mem_head? hc))).2.1.1
    obtain ⟨htake, hdrop⟩ := span_append hdigits hfirst
    obtain ⟨c, rest, rfl⟩ := List.exists_cons_of_ne_nil hne
    have hlower : lower letter = 'e' := by obtain rfl | rfl := hletter <;> rfl
    have hsign := takeSign_text sign (hdigits c List.mem_cons_self) (rest ++ t.suffix)
    rw [Option.elim_some, List.cons_append, Numeral.takePower, if_pos hlower, List.append_assoc,
      List.cons_append, hsign]
    dsimp only
    rw [← List.cons_append, htake, hdrop]
    rfl

/-- What follows the digits of the fraction is neither a point nor a digit. -/
theorem first_of_powerText {c : Char} (hc : c ∈ (t.powerText ++ t.suffix).head?) :
    isDigit c = false ∧ c ≠ '.' ∧ c ≠ 'x' ∧ c ≠ 'X' := by
  obtain ⟨-, -, hchars, -⟩ := suffix_of_mem _ _ t.suffix_mem
  unfold powerText at hc
  cases hpart : t.power with
  | none =>
    rw [hpart] at hc
    obtain ⟨-, ⟨hdigit, hx⟩, hpoint⟩ :=
      isSuffixChar_iff.mp (List.all_eq_true.mp hchars c (List.mem_of_mem_head? hc))
    exact ⟨hdigit, hpoint, hx⟩
  | some power =>
    rw [hpart] at hc
    obtain rfl := Option.some.inj hc
    obtain ⟨hletter | hletter, -⟩ := t.power_digits _ hpart <;> rw [hletter] <;> decide

/-- The parts of the literal. -/
theorem parse?_text : Numeral.parse? t.text = some (.decimal (t.sign = .minus) t.whole t.fraction
    (t.power.map fun p => (decide (p.2.1 = .minus), p.2.2)) t.width.letter?) := by
  have hrest : ∀ c ∈ (t.fractionText ++ (t.powerText ++ t.suffix)).head?,
      isDigit c = false ∧ c ≠ 'x' ∧ c ≠ 'X' := by
    intro c hc
    unfold fractionText at hc
    cases hfraction : t.fraction with
    | none =>
      rw [hfraction] at hc
      obtain ⟨hdigit, -, hx⟩ := t.first_of_powerText hc
      exact ⟨hdigit, hx⟩
    | some digits =>
      rw [hfraction] at hc
      obtain rfl := Option.some.inj hc
      decide
  have hfraction := t.takeFraction_append (t.powerText ++ t.suffix) fun c hc =>
    have hc := t.first_of_powerText hc
    ⟨hc.1, hc.2.1⟩
  have hparse := parse?_decimal t.sign t.whole_ne_nil t.isDigit_of_mem_whole hrest
  rw [hfraction] at hparse
  dsimp only at hparse
  rw [t.takePower_append] at hparse
  dsimp only at hparse
  rw [(suffix_of_mem _ _ t.suffix_mem).2.2.2.2] at hparse
  exact hparse

/-- The letter of the suffix is none of those of numbers with a fraction. -/
theorem letter?_of_suffix : t.width.letter? ≠ some 'f' ∧ t.width.letter? ≠ some 'd' ∧
    ¬t.width.letter?.isNone = true := by
  have hsuffix := t.suffix_mem
  have hne := t.suffix_ne_nil
  cases hwidth : t.width with
  | int =>
    rw [hwidth] at hsuffix
    exact absurd (List.mem_singleton.mp hsuffix) hne
  | _ => decide

/-- An integer suffix behind a fraction or an exponent is refused. -/
theorem isRefused : IsRefused t.text := by
  obtain ⟨hsingle, hdouble, hsome⟩ := t.letter?_of_suffix
  have hdecode : decode t.text = .error (.fractional t.text) := by
    rw [decode_of_parse? t.parse?_text, Numeral.value, if_neg hsingle, if_neg hdouble,
      if_pos (by simpa using t.fractional), if_neg hsome]
  exact isRefused_of_decode hdecode

end FractionalLiteral

/-! ## All numerals -/

/-- An integer literal denotes its number if its width has it, the negative number with its bits
if it is hexadecimal without a minus sign, and nothing otherwise. An integer suffix behind a
fraction or an exponent is refused, and no numeral is read as a type. -/
theorem integerLiterals_exact :
    (∀ t : IntegerLiteral,
      (t.width.Has t.number →
        ∃ v, decode t.text = .ok v ∧ v.integer? = some (t.width, t.number)) ∧
      (t.Wraps →
        ∃ v, decode t.text = .ok v ∧ v.integer? = some (t.width, t.number - 2 ^ t.width.bits)) ∧
      (¬t.width.Has t.number → ¬t.Wraps → IsRefused t.text)) ∧
    (∀ t : FractionalLiteral, IsRefused t.text) ∧
    ∀ (t : Text) (type : TypeName), isNumeral t = true → decode t ≠ .ok (.typeName type) :=
  ⟨fun t => ⟨t.decode_of_has, t.decode_of_wraps, t.isRefused⟩, FractionalLiteral.isRefused,
    fun _ type h => decode_ne_typeName_of_isNumeral h type⟩

/-- The least byte, the bits of minus one in a short and a number that is too large for a byte,
one and a half with an integer suffix, and a numeral. -/
theorem integerLiterals_exact_at :
    (∃ v, decode "-0x80t" = .ok v ∧ v.integer? = some (.byte, -128)) ∧
      (∃ v, decode "+0X0FfFfS" = .ok v ∧ v.integer? = some (.short, -1)) ∧
      IsRefused "128T" ∧ IsRefused "1.5L" ∧ decode "1.5L" ≠ .ok (.typeName .void) := by
  let least : IntegerLiteral :=
    ⟨.minus, .hexadecimal false, ['8', '0'], .byte, ['t'], by decide, List.all_eq_true.mp rfl,
      by decide⟩
  let ones : IntegerLiteral :=
    ⟨.plus, .hexadecimal true, ['0', 'F', 'f', 'F', 'f'], .short, ['S'], by decide,
      List.all_eq_true.mp rfl, by decide⟩
  let large : IntegerLiteral :=
    ⟨.none, .decimal, ['1', '2', '8'], .byte, ['T'], by decide, List.all_eq_true.mp rfl, by decide⟩
  let half : FractionalLiteral :=
    ⟨.none, ['1'], some ['5'], none, .long, ['L'], by decide, List.all_eq_true.mp rfl,
      by simp [isDigit], by simp, by decide, by decide, by decide⟩
  refine ⟨?_, ?_, ?_, ?_, ?_⟩
  · have hnumber : least.number = -128 := by decide
    exact hnumber ▸ (integerLiterals_exact.1 least).1 (by decide)
  · have hnumber : ones.number - 2 ^ ones.width.bits = -1 := by decide
    exact hnumber ▸ (integerLiterals_exact.1 ones).2.1 (by decide)
  · exact (integerLiterals_exact.1 large).2.2 (by decide) (by decide)
  · exact integerLiterals_exact.2.1 half
  · exact integerLiterals_exact.2.2 "1.5L" .void (by decide)

end Smali
