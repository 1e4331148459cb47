import Smali.Access
import Smali.Literal.Value
import Smali.Visibility

/-!
# Calls

What a class consists of is told in calls, one for each thing that stands in its
source. A call concerns the scope it is made in, and four sorts of calls open a
scope of their own: fields, methods, annotations and nested annotations.
-/

namespace Smali

/-- The sorts of scopes, and so of those who listen in them. -/
inductive Scope where
  | ofClass
  | ofField
  | ofMethod
  | ofAnnotationBody
  deriving DecidableEq, Repr, Inhabited

/-- The word for a scope. -/
def Scope.word : Scope → Text
  | .ofClass => "class"
  | .ofField => "field"
  | .ofMethod => "method"
  | .ofAnnotationBody => "annotation"

/-- One thing that is told about a class. -/
inductive Call where
  /-- A comment on a line of its own. -/
  | comment (text : Text)
  /-- A comment behind code. -/
  | eolComment (text : Text)
  /-- The end of the scope. -/
  | finish
  /-- Type and flags of the class. -/
  | header (type : TypeName) (access : Access)
  /-- The superclass. -/
  | superType (type : TypeName)
  /-- An interface. -/
  | implements (type : TypeName)
  /-- The name of the source file. -/
  | source (name : Text)
  /-- A field, with its initial value if it has one. -/
  | field (name : Text) (access : Access) (type : TypeName) (value : Option Value)
  /-- A method. -/
  | method (name : Text) (access : Access) (signature : Signature)
  /-- An annotation. -/
  | annotationStart (visibility : Visibility) (type : TypeName)
  /-- The count of all registers of a method. -/
  | registers (count : Nat)
  /-- The count of the registers that are no parameters. -/
  | locals (count : Nat)
  /-- A line number of the source file. -/
  | line (number : Nat)
  /-- A parameter, with its name if it has one. -/
  | param (register : Text) (name : Option Text)
  /-- The end of a parameter. -/
  | paramEnd
  /-- A label, without its colon. -/
  | label (name : Text)
  /-- An instruction, as it is written. -/
  | instruction (text : Text)
  /-- A handler for exceptions of a type between two labels. -/
  | catching (exception : TypeName) (first last handler : Text)
  /-- A handler for all exceptions between two labels. -/
  | catchAll (first last handler : Text)
  /-- A local variable, with its name, type and generic signature if it has them. -/
  | localVariable (register : Text) (name : Option Text) (type : Option TypeName)
    (signature : Option Text)
  /-- The end of a local variable. -/
  | endLocal (register : Text)
  /-- A local variable that is visible again. -/
  | restartLocal (register : Text)
  /-- The end of the prologue. -/
  | prologue
  /-- The start of the epilogue. -/
  | epilogue
  /-- An annotation element with its value. -/
  | value (name : Text) (value : Value)
  /-- An annotation element that is an annotation. -/
  | subannotationStart (name : Text) (type : TypeName)
  deriving Repr, Inhabited

/-- The sorts of calls, without what they tell. -/
inductive CallKind where
  | comment
  | eolComment
  | finish
  | header
  | superType
  | implements
  | source
  | field
  | method
  | annotationStart
  | registers
  | locals
  | line
  | param
  | paramEnd
  | label
  | instruction
  | catching
  | catchAll
  | localVariable
  | endLocal
  | restartLocal
  | prologue
  | epilogue
  | value
  | subannotationStart
  deriving DecidableEq, Repr, Inhabited

namespace Call

/-- The sort of a call. -/
def kind : Call → CallKind
  | .comment _ => .comment
  | .eolComment _ => .eolComment
  | .finish => .finish
  | .header _ _ => .header
  | .superType _ => .superType
  | .implements _ => .implements
  | .source _ => .source
  | .field _ _ _ _ => .field
  | .method _ _ _ => .method
  | .annotationStart _ _ => .annotationStart
  | .registers _ => .registers
  | .locals _ => .locals
  | .line _ => .line
  | .param _ _ => .param
  | .paramEnd => .paramEnd
  | .label _ => .label
  | .instruction _ => .instruction
  | .catching _ _ _ _ => .catching
  | .catchAll _ _ _ => .catchAll
  | .localVariable _ _ _ _ => .localVariable
  | .endLocal _ => .endLocal
  | .restartLocal _ => .restartLocal
  | .prologue => .prologue
  | .epilogue => .epilogue
  | .value _ _ => .value
  | .subannotationStart _ _ => .subannotationStart

/-- The scope that a call opens. -/
def opens? : Call → Option Scope
  | .field _ _ _ _ => some .ofField
  | .method _ _ _ => some .ofMethod
  | .annotationStart _ _ | .subannotationStart _ _ => some .ofAnnotationBody
  | _ => none

/-- Whether a call can be made in any scope. -/
def isShared : Call → Bool
  | .comment _ | .eolComment _ | .finish => true
  | _ => false

/-- Whether a call can be made in a scope. -/
def suits (c : Call) (scope : Scope) : Bool :=
  match c with
  | .comment _ | .eolComment _ | .finish => true
  | .header _ _ | .superType _ | .implements _ | .source _ | .field _ _ _ _ | .method _ _ _ =>
    scope = .ofClass
  | .annotationStart _ _ => scope ≠ .ofAnnotationBody
  | .value _ _ | .subannotationStart _ _ => scope = .ofAnnotationBody
  | _ => scope = .ofMethod

/-- Whether a call tells of a comment. -/
def isComment : Call → Bool
  | .comment _ | .eolComment _ => true
  | _ => false

end Call

end Smali
