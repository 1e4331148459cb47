import Smali.Descriptor.Basic

/-!
# Values

The values that fields start with and annotation elements hold: numbers of six
types, texts, characters, booleans, `null`, types, references to members, arrays
and nested annotations. Numbers with a fraction are kept as bit patterns.
-/

namespace Smali

/-- A literal value. -/
inductive Value where
  /-- A 32-bit integer. -/
  | int (n : Int32)
  /-- A 64-bit integer. -/
  | long (n : Int64)
  /-- A 16-bit integer. -/
  | short (n : Int16)
  /-- An 8-bit integer. -/
  | byte (n : Int8)
  /-- The bits of a single-precision number. -/
  | float (bits : UInt32)
  /-- The bits of a double-precision number. -/
  | double (bits : UInt64)
  /-- A text. -/
  | string (text : Text)
  /-- One character. -/
  | char (c : Char)
  /-- A truth value. -/
  | bool (b : Bool)
  /-- The null reference. -/
  | null
  /-- A type. -/
  | typeName (type : TypeName)
  /-- An enum constant. -/
  | enumeration (owner : TypeName) (name : Text) (type : TypeName)
  /-- A field. -/
  | field (owner : TypeName) (name : Text) (type : TypeName)
  /-- A method. -/
  | method (owner : TypeName) (name : Text) (signature : Signature)
  /-- A list of values. -/
  | array (values : List Value)
  /-- A nested annotation with its named elements in order. -/
  | annotated (type : TypeName) (elements : List (Text × Value))
  deriving Repr, Inhabited

namespace Value

/-- The word for the sort of a value. -/
def kindName : Value → Text
  | .int _ => "int"
  | .long _ => "long"
  | .short _ => "short"
  | .byte _ => "byte"
  | .float _ => "float"
  | .double _ => "double"
  | .string _ => "string"
  | .char _ => "char"
  | .bool _ => "boolean"
  | .null => "null"
  | .typeName _ => "type"
  | .enumeration _ _ _ => "enum"
  | .field _ _ _ => "field"
  | .method _ _ _ => "method"
  | .array _ => "array"
  | .annotated _ _ => "subannotation"

/-- Whether a field of type `t` may start with the value. -/
def isAssignableTo (v : Value) (t : TypeName) : Bool :=
  match v, t with
  | .bool _, .primitive .boolean => true
  | .byte _, .primitive .byte => true
  | .short _, .primitive .short => true
  | .char _, .primitive .char => true
  | .int _, .primitive .int => true
  | .long _, .primitive .long => true
  | .float _, .primitive .float => true
  | .double _, .primitive .double => true
  | .null, t => t.isReference
  | .string _, .object name => name = "java/lang/String".toList
  | .typeName _, .object name => name = "java/lang/Class".toList
  | .enumeration owner _ _, t => owner = t
  | .array _, .array _ _ => true
  | _, _ => false

end Value

end Smali
