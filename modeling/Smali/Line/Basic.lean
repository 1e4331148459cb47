import Smali.Fault
import Smali.Line.Directive

/-!
# Lines of a source

A line that is not blank holds code tokens, a comment, or both. A comment that
stands alone concerns the scope it is in, one behind code concerns that code.
-/

namespace Smali

/-- The sorts of tokens. -/
inductive TokenKind where
  | directive
  | identifier
  | typeDescriptor
  | stringLiteral
  | charLiteral
  | numericLiteral
  | comment
  | eolComment
  | punctuation
  deriving DecidableEq, Repr, Inhabited

/-- A token with the text it was read from. -/
structure Token where
  /-- The sort of the token. -/
  kind : TokenKind
  /-- The text as it stands in the source. -/
  text : Text
  /-- The place of its first character. -/
  position : Position
  deriving DecidableEq, Repr, Inhabited

/-- The text of a comment from its number sign on: one space behind the sign and
the blanks at the end are left out. -/
def commentBody (raw : Text) : Text :=
  let body := raw.drop 1
  Text.trimRight ((Text.after? [' '] body).getD body)

/-- A line that is not blank. -/
structure Line where
  /-- The tokens, comments aside. -/
  code : List Token
  /-- The code part without blanks around it. -/
  text : Text
  /-- The comment that ends the line. -/
  remark : Option Token
  /-- The place of the first token. -/
  position : Position
  deriving DecidableEq, Repr, Inhabited

namespace Line

/-- All tokens of the line. -/
def tokens (l : Line) : List Token := l.code ++ l.remark.toList

/-- The comment of a line without code. -/
def comment? (l : Line) : Option Text :=
  if l.code.isEmpty then l.remark.map fun t => commentBody t.text else none

/-- The comment behind the code of a line. -/
def eolComment? (l : Line) : Option Text :=
  if l.code.isEmpty then none else l.remark.map fun t => commentBody t.text

/-- Whether the line is nothing but a comment. -/
def isComment (l : Line) : Bool := l.comment?.isSome

/-- The directive that the line starts with. -/
def directive? (l : Line) : Option Directive :=
  match l.code with
  | ⟨.directive, text, _⟩ :: _ => some (.ofKeyword text)
  | _ => none

/-- The name of the scope that the line closes. -/
def endOf? (l : Line) : Option Text :=
  match l.directive?, l.code with
  | some .closing, _ :: name :: _ => some name.text
  | _, _ => none

/-- The code behind the directive of the line, or all of it. -/
def arguments (l : Line) : Text :=
  match l.code with
  | ⟨.directive, text, _⟩ :: _ => Text.trim (l.text.drop text.length)
  | _ => l.text

end Line

end Smali
