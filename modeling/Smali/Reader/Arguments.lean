import Smali.Descriptor.Parse
import Smali.Line.Basic
import Smali.Literal.Decode
import Smali.Listener.Call

/-!
# Arguments of lines

What stands behind a directive is read by rules of its own for each directive.
Every fault carries the place of its line.
-/

namespace Smali

namespace Line

/-- A fault of grammar at the line. -/
def grammar (l : Line) (details : Text) : Fault := .located .grammar l.position details

/-- A malformed descriptor at the line, as a fault of some kind. -/
def descriptorFault (l : Line) (kind : FaultKind) (flaw : DescriptorFlaw) : Fault :=
  .located kind l.position flaw.message

/-- The type of a descriptor at the line. -/
def parseType (l : Line) (t : Text) : Except Fault TypeName :=
  (TypeName.parse t).mapError (l.descriptorFault .descriptor)

/-- The value of a literal at a place. -/
def decodeAt (position : Position) (t : Text) : Except Fault Value :=
  (Literal.decode t).mapError fun flaw => .located .literal position flaw.message

/-- Splits words into the flags in front and the last word. -/
def splitAccess (l : Line) (arguments : Text) : Except Fault (Access × Text) :=
  let words := Text.words arguments
  match words.getLast? with
  | none => .error (l.grammar "missing declaration")
  | some last =>
    match Access.ofKeywords words.dropLast with
    | .ok access => .ok (access, last)
    | .error fault => .error (fault.attach l.position)

/-- Flags and type of a class line. -/
def classHeader (l : Line) : Except Fault (Access × TypeName) := do
  let (access, descriptor) ← l.splitAccess l.arguments
  return (access, ← l.parseType descriptor)

/-- The type that is all of the arguments. -/
def singleType (l : Line) : Except Fault TypeName :=
  if l.arguments.isEmpty || Text.hasBlank l.arguments then
    .error (l.grammar ("expected a single type after " ++ (l.code.head?.map Token.text).getD []))
  else l.parseType l.arguments

/-- The file name of a source line. -/
def sourceName (l : Line) : Except Fault Text :=
  match Literal.decode l.arguments with
  | .ok (.string name) => .ok name
  | _ => .error (l.grammar ("expected a quoted file name, found '" ++ l.arguments ++ "'"))

/-- A count of 32 bits. -/
def count (l : Line) : Except Fault Nat :=
  match Text.countBelow? 0x100000000 l.arguments with
  | some n => .ok n
  | none => .error (l.grammar ("expected a count, found '" ++ l.text ++ "'"))

/-- The text before a mark and, if the mark is there, the text behind it, both
without blanks around them. -/
def cutArguments (mark : Char) (t : Text) : Text × Option Text :=
  match Text.cut? (· == mark) t with
  | some (before, after) => (Text.trim before, some (Text.trim after))
  | none => (t, none)

/-- A text literal, or the given fault. -/
def quotedOr (fault : Fault) (t : Text) : Except Fault Text :=
  match Literal.decode t with
  | .ok (.string text) => .ok text
  | _ => .error fault

/-- Register and name of a parameter. -/
def param (l : Line) : Except Fault (Text × Option Text) :=
  let (register, name) := cutArguments ',' l.arguments
  if register.isEmpty || Text.hasBlank register then
    .error (l.grammar ("malformed .param '" ++ l.text ++ "'"))
  else
    match name with
    | none => .ok (register, none)
    | some quoted =>
      (quotedOr (l.grammar ("parameter name must be a string in '" ++ l.text ++ "'")) quoted).map
        fun name => (register, some name)

/-- A register that is the whole text. -/
def register (l : Line) (t : Option Text) : Except Fault Text :=
  match t with
  | some register =>
    if register.isEmpty || Text.hasBlank register then
      .error (l.grammar ("expected a single register in '" ++ l.text ++ "'"))
    else .ok register
  | none => .error (l.grammar ("expected a single register in '" ++ l.text ++ "'"))

/-- The register behind the keyword `local`. -/
def localRegister (l : Line) : Except Fault Text :=
  l.register ((Text.after? "local" l.arguments).map Text.trim)

/-- What a line tells about a local variable. -/
structure LocalArguments where
  /-- The register. -/
  register : Text
  /-- The name. -/
  name : Option Text
  /-- The type. -/
  type : Option TypeName
  /-- The generic signature. -/
  signature : Option Text

/-- The name of a local variable and what follows it. The word `null` stands for a
missing name. -/
def localName (l : Line) (malformed : Fault) (t : Text) : Except Fault (Option Text × Text) :=
  match Text.after? "null" t with
  | some after => .ok (none, after)
  | none =>
    match Literal.takeQuoted? '"' t with
    | some (body, after) =>
      match Literal.unescape body with
      | .ok name => .ok (some name, after)
      | .error flaw => .error (l.grammar flaw.message)
    | none => .error malformed

/-- The arguments of a local variable: a register, then name and type with a colon
between them, then a signature. -/
def localVariable (l : Line) : Except Fault LocalArguments := do
  let malformed := l.grammar ("malformed .local '" ++ l.text ++ "'")
  let (before, rest) := cutArguments ',' l.arguments
  let register ← l.register (some (Text.trim before))
  match rest with
  | none => return ⟨register, none, none, none⟩
  | some rest =>
    let (name, after) ← l.localName malformed rest
    match Text.trimLeft after with
    | ':' :: declared =>
      let (type, signature) :=
        match Text.cut? (· == ',') declared with
        | some (t, s) => (Text.trim t, some (Text.trim s))
        | none => (Text.trim declared, none)
      let type ← l.parseType type
      match signature with
      | none => return ⟨register, name, some type, none⟩
      | some quoted =>
        let signature ← quotedOr malformed quoted
        return ⟨register, name, some type, some signature⟩
    | _ => throw malformed

/-! ## Handlers -/

/-- A space or a tab. -/
def isSpace (c : Char) : Bool := c == ' ' || c == '\t'

/-- Takes at least one space or tab. -/
def takeSpaces? (t : Text) : Option Text :=
  if (t.head?.map isSpace).getD false then some (t.dropWhile isSpace) else none

/-- A character of a label. -/
def isLabelChar (c : Char) : Bool := !Text.isBlank c && c != '\x7d'

/-- Takes a label with its colon and returns it without. -/
def takeLabel? : Text → Option (Text × Text)
  | ':' :: rest =>
    let name := rest.takeWhile isLabelChar
    if name.isEmpty then none else some (name, rest.dropWhile isLabelChar)
  | _ => none

/-- The labels of a handler: the first and the last of its range between braces,
then that of its code. -/
def labels? (t : Text) : Option (Text × Text × Text) := do
  let inner ← Text.after? ['\x7b'] t
  let (first, rest) ← takeLabel? (inner.dropWhile isSpace)
  let rest ← takeSpaces? rest
  let rest ← Text.after? ['.', '.'] rest
  let rest ← takeSpaces? rest
  let (last, rest) ← takeLabel? rest
  let rest ← Text.after? ['\x7d'] (rest.dropWhile isSpace)
  let rest ← takeSpaces? rest
  let (handler, rest) ← takeLabel? rest
  if rest.isEmpty then some (first, last, handler) else none

/-- What a line tells about a handler. -/
structure HandlerArguments where
  /-- The text before the brace, without blanks around it. -/
  exception : Text
  /-- The label where the range starts. -/
  first : Text
  /-- The label where the range ends. -/
  last : Text
  /-- The label of the handler. -/
  handler : Text

/-- The arguments of a handler. -/
def handler (l : Line) : Except Fault HandlerArguments :=
  match Text.cut? (· == '\x7b') l.arguments with
  | some (before, after) =>
    match labels? ('\x7b' :: after) with
    | some (first, last, handler) => .ok ⟨Text.trim before, first, last, handler⟩
    | none => .error (l.grammar ("malformed try block '" ++ l.text ++ "'"))
  | none => .error (l.grammar ("malformed try block '" ++ l.text ++ "'"))

/-! ## Members and annotations -/

/-- What the line of a field tells. -/
structure FieldArguments where
  /-- The name. -/
  name : Text
  /-- The flags. -/
  access : Access
  /-- The type. -/
  type : TypeName
  /-- The initial value. -/
  value : Option Value

/-- The arguments of a field: flags, declaration, and a value behind an equals sign. -/
def field (l : Line) : Except Fault FieldArguments := do
  let (declaration, value) := cutArguments '=' l.arguments
  let (access, declaration) ← l.splitAccess declaration
  let (name, type) ← (parseFieldDeclaration declaration).mapError (l.descriptorFault .grammar)
  match value with
  | none => return ⟨name, access, type, none⟩
  | some literal => return ⟨name, access, type, some (← decodeAt l.position literal)⟩

/-- What the line of a method tells. -/
structure MethodArguments where
  /-- The name. -/
  name : Text
  /-- The flags. -/
  access : Access
  /-- The parameters and the result. -/
  signature : Signature
  /-- The declaration as it is written. -/
  declaration : Text

/-- The arguments of a method: flags and declaration. -/
def method (l : Line) : Except Fault MethodArguments := do
  let (access, declaration) ← l.splitAccess l.arguments
  let (name, signature) ←
    (parseMethodDeclaration declaration).mapError (l.descriptorFault .grammar)
  return ⟨name, access, signature, declaration⟩

/-- The arguments of an annotation: exactly a visibility and a type. -/
def annotationHeader (l : Line) : Except Fault (Visibility × TypeName) :=
  match Text.words l.arguments with
  | [visibility, type] => do
    let visibility ← (Visibility.ofKeyword visibility).mapError (·.attach l.position)
    return (visibility, ← l.parseType type)
  | _ =>
    .error (l.grammar ("expected '.annotation <visibility> <type>', found '" ++ l.text ++ "'"))

end Line

end Smali
