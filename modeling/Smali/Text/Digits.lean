import Smali.Text.Basic

/-!
# Numerals

Reading and writing natural numbers in base ten and sixteen. A reader accepts a
nonempty run of digits and nothing else; leading zeros carry no meaning.
-/

namespace Smali.Text

/-- The value of a digit in bases up to sixteen, letters in either case. -/
def digitValue (c : Char) : Nat :=
  if '0' ≤ c ∧ c ≤ '9' then c.toNat - 0x30
  else if 'a' ≤ c ∧ c ≤ 'f' then c.toNat - 0x61 + 10
  else if 'A' ≤ c ∧ c ≤ 'F' then c.toNat - 0x41 + 10
  else 0

/-- A decimal digit. -/
def isDigit (c : Char) : Bool := '0' ≤ c && c ≤ '9'

/-- A hexadecimal digit in either case. -/
def isHexDigit (c : Char) : Bool :=
  isDigit c || ('a' ≤ c && c ≤ 'f') || ('A' ≤ c && c ≤ 'F')

/-- An ASCII letter. -/
def isLetter (c : Char) : Bool := ('a' ≤ c && c ≤ 'z') || ('A' ≤ c && c ≤ 'Z')

/-- The lower-case form of an ASCII letter, any other character as it stands. -/
def lower (c : Char) : Char := if 'A' ≤ c ∧ c ≤ 'Z' then Char.ofNat (c.toNat + 0x20) else c

/-- The number that a run of digits denotes, the most significant digit first. -/
def valueIn (base : Nat) (digits : Text) : Nat :=
  digits.foldl (fun n c => n * base + digitValue c) 0

/-- Reads a nonempty run of decimal digits. -/
def decimal? (t : Text) : Option Nat :=
  if !t.isEmpty && t.all isDigit then some (valueIn 10 t) else none

/-- Reads a nonempty run of hexadecimal digits. -/
def hex? (t : Text) : Option Nat :=
  if !t.isEmpty && t.all isHexDigit then some (valueIn 16 t) else none

/-- The text without one plus sign at its start. -/
def dropPlus : Text → Text
  | '+' :: rest => rest
  | t => t

/-- Reads an unsigned decimal below `bound`, with an optional plus sign. -/
def countBelow? (bound : Nat) (t : Text) : Option Nat :=
  (decimal? (dropPlus t)).filter (· < bound)

/-- The decimal numeral of a number. -/
def decimal (n : Nat) : Text := Nat.toDigits 10 n

/-- The hexadecimal numeral of a number, in lower case. -/
def hex (n : Nat) : Text := Nat.toDigits 16 n

/-- The hexadecimal numeral filled up with zeros to `width` digits. -/
def hexWidth (width n : Nat) : Text :=
  List.replicate (width - (hex n).length) '0' ++ hex n

end Smali.Text
