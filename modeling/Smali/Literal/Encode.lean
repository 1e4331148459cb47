import Smali.Literal.Escape
import Smali.Literal.Value
import Smali.Binary.Numeral

/-!
# Writing values

Every value has one written form. Integers are hexadecimal with the suffix of
their type, texts and characters are quoted, references are spelled with their
owner in front. A nested annotation takes a line per element, and an array with
such an element takes a line per line of its elements.
-/

namespace Smali

namespace Literal

/-- A hexadecimal integer with its sign. -/
def hexInteger (n : Int) : Text :=
  if n < 0 then "-0x" ++ Text.hex n.natAbs else "0x" ++ Text.hex n.natAbs

/-- A number of a binary format. The sign of a NaN is not written. -/
def number (format : Binary.Format) (bits : Nat) : Text :=
  if format.isNaN bits then "NaN"
  else if format.isInfinite bits then
    if format.isNegative bits then "-Infinity" else "Infinity"
  else format.numeral .literal bits

/-- The written form of a field of some owner. -/
def fieldReference (owner : TypeName) (name : Text) (type : TypeName) : Text :=
  owner.descriptor ++ "->" ++ name ++ ":" ++ type.descriptor

/-- Every line of a text behind four spaces and with a line end. -/
def indented (t : Text) : Text :=
  ((Text.lines t).map fun line => "    " ++ line ++ ['\n']).flatten

/-- Array elements with a comma behind all but the last, each on its own lines. -/
def stacked : List Text → Text
  | [] => []
  | [part] => indented part
  | part :: more => indented (part ++ [',']) ++ stacked more

/-- The written form of an array from those of its elements. -/
def encodeArray (parts : List Text) : Text :=
  if parts.isEmpty then ['{', '}']
  else if parts.any (·.contains '\n') then '{' :: '\n' :: stacked parts ++ ['}']
  else '{' :: ' ' :: [',', ' '].intercalate parts ++ [' ', '}']

end Literal

open Literal

mutual

/-- The written form of a value. -/
def Value.encode : Value → Text
  | .int n => hexInteger n.toInt
  | .long n => hexInteger n.toInt ++ ['L']
  | .short n => hexInteger n.toInt ++ ['s']
  | .byte n => hexInteger n.toInt ++ ['t']
  | .float bits => number .single bits.toNat ++ ['f']
  | .double bits => number .double bits.toNat
  | .string text => '"' :: escape text ++ ['"']
  | .char c => '\'' :: escapeChar c ++ ['\'']
  | .bool b => if b then "true" else "false"
  | .null => "null"
  | .typeName type => type.descriptor
  | .enumeration owner name type => ".enum " ++ fieldReference owner name type
  | .field owner name type => fieldReference owner name type
  | .method owner name signature => owner.descriptor ++ "->" ++ name ++ signature.descriptor
  | .array values => encodeArray (Value.encodeAll values)
  | .annotated type elements =>
    ".subannotation " ++ type.descriptor ++ ['\n'] ++ Value.encodeElements elements ++
      ".end subannotation"

/-- The written forms of values. -/
def Value.encodeAll : List Value → List Text
  | [] => []
  | value :: more => value.encode :: Value.encodeAll more

/-- The lines of annotation elements. -/
def Value.encodeElements : List (Text × Value) → Text
  | [] => []
  | (name, value) :: more => indented (name ++ " = " ++ value.encode) ++ Value.encodeElements more

end

end Smali
