import Smali.Binary.Numeral

/-!
# Numerals

A numeral has an optional sign, then either `0x` with hexadecimal digits, or
decimal digits with an optional fraction and an optional exponent, and last an
optional suffix letter that fixes the type. `parse?` finds the parts; `within?`
places a hexadecimal or decimal magnitude in a signed range.
-/

namespace Smali.Literal

/-- The parts of a numeral. -/
inductive Numeral where
  /-- Digits behind `0x`. -/
  | hex (negative : Bool) (digits : Text) (suffix : Option Char)
  /-- Digits before the point, digits behind it, and the exponent with its sign. -/
  | decimal (negative : Bool) (whole : Text) (fraction : Option Text)
    (power : Option (Bool × Text)) (suffix : Option Char)
  deriving DecidableEq, Repr

namespace Numeral

/-- Takes a sign; true stands for minus. -/
def takeSign : Text → Bool × Text
  | '-' :: rest => (true, rest)
  | '+' :: rest => (false, rest)
  | t => (false, t)

/-- The suffix that is all that remains of the text; no suffix if nothing remains. -/
def suffix? (letters : Text) : Text → Option (Option Char)
  | [] => some none
  | [c] => if Text.lower c ∈ letters then some (some (Text.lower c)) else none
  | _ => none

/-- Takes a fraction: a point with at least one digit behind it. -/
def takeFraction (t : Text) : Option Text × Text :=
  match t with
  | '.' :: rest =>
    let digits := rest.takeWhile Text.isDigit
    if digits.isEmpty then (none, t) else (some digits, rest.dropWhile Text.isDigit)
  | _ => (none, t)

/-- Takes an exponent: the letter `e`, an optional sign, at least one digit. -/
def takePower (t : Text) : Option (Bool × Text) × Text :=
  match t with
  | c :: rest =>
    if Text.lower c = 'e' then
      let (negative, digits) := takeSign rest
      let taken := digits.takeWhile Text.isDigit
      if taken.isEmpty then (none, t) else (some (negative, taken), digits.dropWhile Text.isDigit)
    else (none, t)
  | [] => (none, t)

/-- The parts of an unsigned hexadecimal numeral behind its `0x`. -/
def parseHex? (negative : Bool) (t : Text) : Option Numeral :=
  let digits := t.takeWhile Text.isHexDigit
  if digits.isEmpty then none
  else (suffix? ['t', 's', 'l'] (t.dropWhile Text.isHexDigit)).map (.hex negative digits)

/-- The parts of an unsigned decimal numeral. -/
def parseDecimal? (negative : Bool) (t : Text) : Option Numeral :=
  let whole := t.takeWhile Text.isDigit
  if whole.isEmpty then none
  else
    let (fraction, rest) := takeFraction (t.dropWhile Text.isDigit)
    let (power, rest) := takePower rest
    (suffix? ['t', 's', 'l', 'f', 'd'] rest).map (.decimal negative whole fraction power)

/-- The parts of the numeral that is the whole text. -/
def parse? (t : Text) : Option Numeral :=
  match takeSign t with
  | (negative, '0' :: 'x' :: rest) | (negative, '0' :: 'X' :: rest) => parseHex? negative rest
  | (negative, rest) => parseDecimal? negative rest

end Numeral

/-- Whether the text is a numeral. -/
def isNumeral (t : Text) : Bool := (Numeral.parse? t).isSome

/-- Places a signed magnitude in the range of `width` bits in two's complement.
With `wraps`, a number without a minus sign may use the unsigned range and stands
for the number with the same bits. -/
def within? (width : Nat) (wraps negative : Bool) (magnitude : Nat) : Option Int :=
  let n : Int := if negative then -(magnitude : Int) else magnitude
  let half : Int := (Nat.pow 2 (width - 1) : Nat)
  if -half ≤ n ∧ n < half then some n
  else if wraps ∧ negative = false ∧ n < 2 * half then some (n - 2 * half)
  else none

end Smali.Literal
