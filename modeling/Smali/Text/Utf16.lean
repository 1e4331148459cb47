import Smali.Text.Basic

/-!
# UTF-16 code units

A scalar value below `0x10000` is one unit, any other is a high surrogate
followed by a low one. Decoding refuses the first surrogate that has no partner.
-/

namespace Smali.Text.Utf16

/-- A unit that opens a pair. -/
def isHigh (u : Nat) : Bool := 0xD800 ≤ u && u < 0xDC00

/-- A unit that closes a pair. -/
def isLow (u : Nat) : Bool := 0xDC00 ≤ u && u < 0xE000

/-- The units of one character. -/
def encode (c : Char) : List Nat :=
  let n := c.toNat
  if n < 0x10000 then [n]
  else [0xD800 + (n - 0x10000) / 0x400, 0xDC00 + (n - 0x10000) % 0x400]

/-- The character of a pair. -/
def ofPair (high low : Nat) : Char :=
  Char.ofNat (0x10000 + (high - 0xD800) * 0x400 + (low - 0xDC00))

/-- The text of a sequence of units, or the first unpaired surrogate. -/
def decode : List Nat → Except Nat Text
  | [] => .ok []
  | [u] => if isHigh u || isLow u then .error u else .ok [Char.ofNat u]
  | u :: v :: rest =>
    if isHigh u then
      if isLow v then (decode rest).map (ofPair u v :: ·) else .error u
    else if isLow u then .error u
    else (decode (v :: rest)).map (Char.ofNat u :: ·)

end Smali.Text.Utf16
