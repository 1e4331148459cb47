import Smali.Text.Digits

/-!
# Binary floating-point formats

A format fixes the width of the exponent and the precision of the significand.
A finite positive number is `m · 2 ^ q`, and its bit pattern without the sign
counts the finite numbers in order: between two neighbouring patterns lies no
other number of the format. `nearest` rounds a quotient of natural numbers to
the closest pattern, a half to the even one, and everything from the middle
beyond the last finite number to infinity.
-/

namespace Smali.Binary

/-- An interchange format. -/
structure Format where
  /-- Bits of the significand, the hidden one included. -/
  precision : Nat
  /-- Bits of the exponent. -/
  exponentWidth : Nat
  deriving DecidableEq, Repr

namespace Format

/-- The format of `float` values. -/
def single : Format := ⟨24, 8⟩

/-- The format of `double` values. -/
def double : Format := ⟨53, 11⟩

/-- Bits of the stored significand. -/
def fractionWidth (f : Format) : Nat := f.precision - 1

/-- The exponent of the unit in the last place of the smallest numbers. -/
def minExponent (f : Format) : Int := 3 - (Nat.pow 2 (f.exponentWidth - 1) : Nat) - f.precision

/-- The pattern of infinity. -/
def infinity (f : Format) : Nat := (Nat.pow 2 f.exponentWidth - 1) * Nat.pow 2 f.fractionWidth

/-- The pattern of the quiet NaN with an empty payload. -/
def quietNaN (f : Format) : Nat := f.infinity + Nat.pow 2 (f.fractionWidth - 1)

/-- The sign bit. -/
def signBit (f : Format) : Nat := Nat.pow 2 (f.fractionWidth + f.exponentWidth)

/-- The pattern without its sign. -/
def magnitude (f : Format) (bits : Nat) : Nat := bits % f.signBit

/-- Whether the sign bit is set. -/
def isNegative (f : Format) (bits : Nat) : Bool := f.signBit ≤ bits

/-- Whether a pattern is no number. -/
def isNaN (f : Format) (bits : Nat) : Bool := f.infinity < f.magnitude bits

/-- Whether a pattern is an infinity of either sign. -/
def isInfinite (f : Format) (bits : Nat) : Bool := f.magnitude bits == f.infinity

/-- The significand of a finite magnitude. -/
def significand (f : Format) (magnitude : Nat) : Nat :=
  if magnitude < Nat.pow 2 f.fractionWidth then magnitude
  else Nat.pow 2 f.fractionWidth + magnitude % Nat.pow 2 f.fractionWidth

/-- The exponent of the unit in the last place of a finite magnitude. -/
def exponent (f : Format) (magnitude : Nat) : Int :=
  f.minExponent + (magnitude / Nat.pow 2 f.fractionWidth - 1 : Nat)

end Format

/-- A quotient rounded to the nearest natural number, a half to the even one. -/
def roundHalfEven (num den : Nat) : Nat :=
  let floor := num / den
  let twice := 2 * (num % den)
  if twice < den then floor
  else if den < twice then floor + 1
  else if floor % 2 = 0 then floor
  else floor + 1

/-- The largest `e` with `2 ^ e ≤ num / den`, for positive operands. -/
def floorLog2 (num den : Nat) : Int :=
  let e : Int := (num.log2 : Int) - den.log2
  if 0 ≤ e then
    if den * Nat.pow 2 e.toNat ≤ num then e else e - 1
  else
    if den ≤ num * Nat.pow 2 (-e).toNat then e else e - 1

/-- The magnitude nearest to a quotient of natural numbers. -/
def Format.nearest (f : Format) (num den : Nat) : Nat :=
  if num = 0 then 0
  else
    let q := max (floorLog2 num den - f.fractionWidth) f.minExponent
    let m := roundHalfEven (num * Nat.pow 2 (-q).toNat) (den * Nat.pow 2 q.toNat)
    min ((q - f.minExponent).toNat * Nat.pow 2 f.fractionWidth + m) f.infinity

/-- The magnitude nearest to `digits · 10 ^ scale`. Numbers far beyond both ends
of every format are settled by the count of their digits. -/
def Format.nearestDecimal (f : Format) (digits : Nat) (scale : Int) : Nat :=
  let size := (Text.decimal digits).length + scale
  if digits = 0 ∨ size < -400 then 0
  else if 400 < size then f.infinity
  else f.nearest (digits * Nat.pow 10 scale.toNat) (Nat.pow 10 (-scale).toNat)

end Smali.Binary
