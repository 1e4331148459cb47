import Smali.Literal.Encode
import Smali.Literal.Nesting
import Smali.Reader.Arguments
import Smali.Reader.Dialogue

/-!
# Frames

A frame is a scope of the source that is open, together with what the reader has
to remember of it. Two sorts of frames are no scopes of their own: an array whose
braces are not closed yet, and a construct that is skipped because its first line
is malformed.
-/

namespace Smali

/-- An annotation element whose array goes on over several lines. -/
structure Gathering where
  /-- The name of the element. -/
  name : Text
  /-- The text of the array so far. -/
  text : Text
  /-- Opening less closing braces so far. -/
  depth : Int
  /-- The comments inside the array, the latest first. -/
  remarks : List Call
  /-- The comment behind the first line. -/
  comment : Option Text
  /-- The place of the first line. -/
  opened : Position

namespace Gathering

/-- The array that starts with a line, with its name and the rest of that line. -/
def start (l : Line) (name text : Text) : Gathering :=
  ⟨name, text, Literal.braceDepth text, [], l.eolComment?, l.position⟩

/-- Whether a line stands behind the end of every array: a scope that is closed, or
a member that opens. -/
def isEndedBy (l : Line) : Bool :=
  l.endOf? = some "annotation".toList || l.endOf? = some "field".toList ||
    l.endOf? = some "method".toList || l.endOf? = some "param".toList ||
    l.directive? = some .ofClass || l.directive? = some .field || l.directive? = some .method

/-- The array with one more line. -/
def add (g : Gathering) (l : Line) : Gathering :=
  match l.comment? with
  | some text => { g with remarks := .comment text :: g.remarks }
  | none =>
    { g with
      text := g.text ++ '\n' :: l.text
      depth := g.depth + Literal.braceDepth l.text
      remarks := ((l.eolComment?.map Call.eolComment).toList) ++ g.remarks }

/-- Whether the array is complete after a line. -/
def isClosedBy (g : Gathering) (l : Line) : Bool := !l.isComment && (g.add l).depth ≤ 0

end Gathering

/-- A field that is open. -/
structure OpenField where
  /-- The place of its first line. -/
  opened : Position
  /-- Whether an annotation stood in it. -/
  annotated : Bool
  /-- Comments that may belong to it or to what follows, the latest first. -/
  held : List Text
  /-- Whether the comment behind its closing line is told. -/
  heard : Bool

/-- A method that is open. -/
structure OpenMethod where
  /-- The place of its first line. -/
  opened : Position
  /-- Its name. -/
  name : Text
  /-- Its flags. -/
  access : Access
  /-- Whether a parameter is open. -/
  paramOpen : Bool

/-- What is open in a source. -/
inductive Frame where
  /-- A field. -/
  | field (f : OpenField)
  /-- A method. -/
  | method (m : OpenMethod)
  /-- An annotation, with the name that its closing line gives. -/
  | annotationBody (opened : Position) (name : Text)
  /-- An array in an annotation. -/
  | array (g : Gathering)
  /-- A construct that is skipped, with the name that its closing line gives. -/
  | skipping (name : Text)

/-- Whether a line closes the scope with a name. -/
def Line.closes (l : Line) (name : Text) : Bool := l.endOf? = some name

/-- Whether a line opens a member of a class, or a class. -/
def Line.opensMember (l : Line) : Bool :=
  l.directive? = some .ofClass || l.directive? = some .field || l.directive? = some .method

/-- Whether a line can only stand outside a method. -/
def Line.leavesMethod (l : Line) : Bool :=
  match l.directive? with
  | some .ofClass | some .superType | some .implements | some .source | some .field
  | some .method => true
  | _ => false

/-- Whether a line that is no element stands outside the annotation with a name. A
closing line with an unknown name does not. -/
def Line.leavesAnnotationBody (l : Line) (name : Text) : Bool :=
  match l.directive?, l.endOf? with
  | none, _ => false
  | some _, none => true
  | some _, some other =>
    !decide (other = name) &&
      (other = "method".toList || other = "field".toList || other = "param".toList ||
        other = "annotation".toList)

namespace Frame

/-- Whether a line belongs to a frame. Otherwise the frame ends before the line. -/
def takes (f : Frame) (l : Line) : Bool :=
  match f with
  | .field _ =>
    l.isComment || l.directive? = some .annotationStart || l.closes "field"
  | .method _ => !l.leavesMethod
  | .annotationBody _ name => !l.leavesAnnotationBody name
  | .array _ => !Gathering.isEndedBy l
  | .skipping name => l.closes name || !l.opensMember

end Frame

/-! ## Semantic checks -/

namespace Value

mutual

/-- What is wrong with the types inside a value, in order: owners of enum constants
and types of nested annotations have to be object types. -/
def objections : Value → List Text
  | .enumeration owner _ _ =>
    if owner.isObject then [] else ["enum owner " ++ owner.descriptor ++ " is not an object type"]
  | .array values => objectionsAll values
  | .annotated type elements =>
    (if type.isObject then []
      else ["annotation type " ++ type.descriptor ++ " is not an object type"]) ++
      objectionsElements elements
  | _ => []

/-- What is wrong with the types inside values. -/
def objectionsAll : List Value → List Text
  | [] => []
  | value :: more => objections value ++ objectionsAll more

/-- What is wrong with the types inside the values of elements. -/
def objectionsElements : List (Text × Value) → List Text
  | [] => []
  | (_, value) :: more => objections value ++ objectionsElements more

end

end Value

namespace Passage

/-- States a condition that concerns a line. -/
def check (l : Line) (holds : Bool) (details : Text) : Passage Unit :=
  require holds (.located .validation l.position details)

/-- States that a type is an object type. -/
def checkObject (l : Line) (what : Text) (type : TypeName) : Passage Unit :=
  check l type.isObject (what ++ ' ' :: type.descriptor ++ " is not an object type")

/-- States that the types inside a value are as they should be. -/
def checkValue (position : Position) (value : Value) : Passage Unit :=
  match value.objections with
  | [] => pure ()
  | details :: _ => require false (.located .validation position details)

/-- States that a method may have code. -/
def checkCode (l : Line) (m : OpenMethod) : Passage Unit :=
  check l (!(m.access.has .isAbstract || m.access.has .isNative))
    ("abstract or native method " ++ m.name ++ " cannot have code")

end Passage

end Smali
