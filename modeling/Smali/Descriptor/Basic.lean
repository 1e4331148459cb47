import Smali.Text.Basic

/-!
# Type descriptors

A type is a primitive, `void`, an object named by its internal class name, or an
array that counts its dimensions. The descriptor of a type is its spelling in
class files: `I`, `V`, `Ljava/lang/String;`, `[[J`. `WellFormed` singles out the
types that descriptors can denote.
-/

namespace Smali

/-- The eight primitive types. -/
inductive Primitive where
  | boolean
  | byte
  | char
  | short
  | int
  | long
  | float
  | double
  deriving DecidableEq, Repr, Inhabited

namespace Primitive

/-- The letter that stands for a primitive in descriptors. -/
def letter : Primitive → Char
  | .boolean => 'Z'
  | .byte => 'B'
  | .char => 'C'
  | .short => 'S'
  | .int => 'I'
  | .long => 'J'
  | .float => 'F'
  | .double => 'D'

/-- The primitive that a letter stands for. -/
def ofLetter? : Char → Option Primitive
  | 'Z' => some .boolean
  | 'B' => some .byte
  | 'C' => some .char
  | 'S' => some .short
  | 'I' => some .int
  | 'J' => some .long
  | 'F' => some .float
  | 'D' => some .double
  | _ => none

/-- The Java keyword of a primitive. -/
def javaName : Primitive → Text
  | .boolean => "boolean"
  | .byte => "byte"
  | .char => "char"
  | .short => "short"
  | .int => "int"
  | .long => "long"
  | .float => "float"
  | .double => "double"

end Primitive

/-- A type as descriptors name it. -/
inductive TypeName where
  /-- A primitive. -/
  | primitive (kind : Primitive)
  /-- An array; nesting is counted by `dimensions`, the element is not an array itself. -/
  | array (element : TypeName) (dimensions : Nat)
  /-- An object, by its internal class name such as `java/lang/Object`. -/
  | object (name : Text)
  /-- The absence of a value. -/
  | void
  deriving DecidableEq, Repr, Inhabited

namespace TypeName

/-- The object type of a dotted class name. -/
def ofClassName (name : Text) : TypeName := .object (Text.swap '.' '/' name)

/-- The array type over an element. Over an array the dimensions add up. -/
def arrayOf (element : TypeName) (dimensions : Nat) : TypeName :=
  match element with
  | .array inner d => .array inner (d + dimensions)
  | other => .array other dimensions

/-- The descriptor of a type. -/
def descriptor : TypeName → Text
  | .primitive kind => [kind.letter]
  | .array element dimensions => List.replicate dimensions '[' ++ element.descriptor
  | .object name => 'L' :: name ++ [';']
  | .void => ['V']

/-- The dotted class name of an object type. -/
def className? : TypeName → Option Text
  | .object name => some (Text.swap '/' '.' name)
  | _ => none

/-- The spelling of a type in Java source. -/
def javaName : TypeName → Text
  | .primitive kind => kind.javaName
  | .array element dimensions => element.javaName ++ Text.times dimensions "[]"
  | .object name => Text.swap '/' '.' name
  | .void => "void"

/-- The number of array dimensions, zero for a type that is no array. -/
def dimensions : TypeName → Nat
  | .array _ d => d
  | _ => 0

/-- Whether the type is an object type. -/
def isObject : TypeName → Bool
  | .object _ => true
  | _ => false

/-- Whether values of the type are references. -/
def isReference : TypeName → Bool
  | .object _ | .array _ _ => true
  | _ => false

/-- Whether the type is `void`. -/
def isVoid : TypeName → Bool
  | .void => true
  | _ => false

/-- A character that class names may hold. -/
def isNameChar (c : Char) : Bool := c != ';' && c != '(' && c != ')' && !Text.isBlank c

/-- A primitive, or an object with a nonempty name of admissible characters. -/
def WellFormedElement : TypeName → Prop
  | .primitive _ => True
  | .object name => name ≠ [] ∧ ∀ c ∈ name, isNameChar c = true
  | _ => False

/-- The types that descriptors denote: `void`, elements, and arrays of at least
one dimension over an element. -/
def WellFormed : TypeName → Prop
  | .array element dimensions => element.WellFormedElement ∧ 0 < dimensions
  | .void => True
  | other => other.WellFormedElement

instance : (t : TypeName) → Decidable t.WellFormedElement
  | .primitive _ => .isTrue trivial
  | .object name =>
    @instDecidableAnd (name ≠ []) _ instDecidableNot (List.decidableBAll _ name)
  | .array _ _ | .void => .isFalse id

instance : (t : TypeName) → Decidable t.WellFormed
  | .array _ dimensions => @instDecidableAnd _ (0 < dimensions) _ (Nat.decLt 0 dimensions)
  | .void | .primitive _ => .isTrue trivial
  | .object name => inferInstanceAs (Decidable (TypeName.object name).WellFormedElement)

end TypeName

/-- Parameters and result of a method. -/
structure Signature where
  /-- The parameter types in order. -/
  params : List TypeName
  /-- The type of the result. -/
  result : TypeName
  deriving DecidableEq, Repr, Inhabited

/-- The method descriptor of a signature, such as `(I[J)V`. -/
def Signature.descriptor (s : Signature) : Text :=
  '(' :: (s.params.map TypeName.descriptor).flatten ++ ')' :: s.result.descriptor

end Smali
