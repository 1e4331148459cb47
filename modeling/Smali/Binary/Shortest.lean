import Smali.Binary.Format

/-!
# Shortest decimals

The decimal of a positive finite number is the one with the fewest digits that
reads back as that number, of several the closest, and of two equally close ones
the larger. The search goes through the grids `10 ^ e`, the coarsest first, and
tests the two neighbours of the number on each.
-/

namespace Smali.Binary

/-- A decimal number `digits · 10 ^ scale`. -/
structure Decimal where
  /-- The digits as one number. -/
  digits : Nat
  /-- The power of ten of the last digit. -/
  scale : Int
  deriving DecidableEq, Repr

/-- A positive number among the numbers that round to it, as numerators over one
denominator. -/
structure Interval where
  /-- The lower end. -/
  low : Nat
  /-- The number itself. -/
  value : Nat
  /-- The upper end. -/
  high : Nat
  /-- The common denominator. -/
  den : Nat
  /-- Whether the ends belong to the interval. -/
  closed : Bool
  deriving Repr

namespace Interval

/-- Whether `num / other` lies in the interval. -/
def holds (i : Interval) (num other : Nat) : Bool :=
  let n := num * i.den
  let low := i.low * other
  let high := i.high * other
  (low < n && n < high) || (i.closed && (low == n || n == high))

/-- The neighbour on the grid `10 ^ e` that stands for the number, if one does. -/
def onGrid? (i : Interval) (e : Int) : Option Decimal :=
  let up := Nat.pow 10 e.toNat
  let down := Nat.pow 10 (-e).toNat
  let num := i.value * down
  let den := i.den * up
  let floor := num / den
  let lower := i.holds (floor * up) down
  let upper := i.holds ((floor + 1) * up) down
  if upper && (!lower || den ≤ 2 * (num % den)) then some ⟨floor + 1, e⟩
  else if lower then some ⟨floor, e⟩
  else none

end Interval

/-- The numbers that round to a positive finite magnitude. The lower neighbour of
a power of two is half as far away as the upper one. -/
def Format.interval (f : Format) (magnitude : Nat) : Interval :=
  let m := f.significand magnitude
  let q := f.exponent magnitude - 2
  let gap := if m = Nat.pow 2 f.fractionWidth then 1 else 2
  let up := Nat.pow 2 q.toNat
  ⟨(4 * m - gap) * up, 4 * m * up, (4 * m + 2) * up, Nat.pow 2 (-q).toNat, m % 2 == 0⟩

/-- An exponent of ten whose power is above `num / den`. -/
def powerAbove (num den : Nat) : Int :=
  if den ≤ num then (Text.decimal (num / den)).length
  else 2 - ((Text.decimal (den / num)).length : Int)

/-- The shortest decimal of a positive finite magnitude. -/
def Format.shortest (f : Format) (magnitude : Nat) : Decimal :=
  let i := f.interval magnitude
  let top := powerAbove i.value i.den
  ((List.range 24).findSome? fun (k : Nat) => i.onGrid? (top - k)).getD ⟨0, 0⟩

end Smali.Binary
