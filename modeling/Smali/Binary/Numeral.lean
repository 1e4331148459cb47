import Smali.Binary.Shortest

/-!
# Writing and reading numbers

A number is written with its shortest decimal, positionally between two limits
and in scientific notation outside them. Reading takes a decimal with optional
fraction and exponent and rounds it to the format.
-/

namespace Smali.Binary

/-- Where numerals are positional. -/
structure NumeralStyle where
  /-- From this magnitude on numbers are positional, as digits and scale. -/
  least : Decimal
  /-- From this magnitude on they no longer are. -/
  limit : Decimal

/-- Numbers are positional from `0.0001` up to `10 ^ 16`, both limits rounded to
the format. -/
def NumeralStyle.literal : NumeralStyle := ⟨⟨1, -4⟩, ⟨1, 16⟩⟩

/-- The digits of a positional numeral, with at least one on each side of the point. -/
def Decimal.positional (d : Decimal) : Text :=
  let digits := Text.decimal d.digits
  if 0 ≤ d.scale then digits ++ List.replicate d.scale.toNat '0' ++ ['.', '0']
  else
    let places := (-d.scale).toNat
    if places < digits.length then
      digits.take (digits.length - places) ++ '.' :: digits.drop (digits.length - places)
    else '0' :: '.' :: List.replicate (places - digits.length) '0' ++ digits

/-- A whole number with its sign, if it is negative. -/
def signed (n : Int) : Text := if n < 0 then '-' :: Text.decimal n.natAbs else Text.decimal n.toNat

/-- The digits of a scientific numeral, with one before the point. -/
def Decimal.scientific (d : Decimal) : Text :=
  let digits := Text.decimal d.digits
  let tail := digits.drop 1
  digits.take 1 ++ (if tail.isEmpty then [] else '.' :: tail) ++
    'e' :: signed (d.scale + tail.length)

/-- The numeral of a finite magnitude. -/
def Format.unsignedNumeral (f : Format) (style : NumeralStyle) (magnitude : Nat) : Text :=
  if magnitude = 0 then "0.0"
  else if f.nearestDecimal style.least.digits style.least.scale ≤ magnitude ∧
      magnitude < f.nearestDecimal style.limit.digits style.limit.scale then
    (f.shortest magnitude).positional
  else (f.shortest magnitude).scientific

/-- The numeral of a finite number, with a minus sign if the sign bit is set. -/
def Format.numeral (f : Format) (style : NumeralStyle) (bits : Nat) : Text :=
  let body := f.unsignedNumeral style (f.magnitude bits)
  if f.isNegative bits then '-' :: body else body

/-- The pattern of a magnitude with a sign. -/
def Format.withSign (f : Format) (negative : Bool) (magnitude : Nat) : Nat :=
  if negative then f.signBit + magnitude else magnitude

/-- The number that a decimal with the given whole digits, fraction digits and
exponent of ten denotes. -/
def Format.ofDecimal (f : Format) (negative : Bool) (whole fraction : Text) (power : Int) : Nat :=
  f.withSign negative
    (f.nearestDecimal (Text.valueIn 10 (whole ++ fraction)) (power - fraction.length))

end Smali.Binary
