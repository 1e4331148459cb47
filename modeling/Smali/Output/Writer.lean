import Smali.Listener.Slot
import Smali.Literal.Encode
import Smali.Output.Page

/-!
# Writers

A writer is a listener that turns the calls it hears into source text. A handle
of a writer is a pen: it knows which sort of scope it writes and what the layout
of that scope depends on, and holds the slot of a delegate that hears every call
after it is written. All pens of a writer share one sheet.
-/

namespace Smali.Writer

/-- What stands last on a sheet, as far as blank lines depend on it. -/
inductive Last where
  /-- Nothing. -/
  | nothing
  /-- A line of the class header. -/
  | header
  /-- A field, a method or an annotation of the class. -/
  | member
  /-- A comment of the class. -/
  | comment
  deriving DecidableEq, Repr, Inhabited

/-- The page that a class is written on. -/
structure Sheet where
  /-- The page. -/
  page : Page
  /-- What was written last at the level of the class. -/
  last : Last
  deriving DecidableEq, Repr, Inhabited

/-- A sheet without text. -/
def Sheet.blank : Sheet := ⟨.blank, .nothing⟩

/-- How a scope is written. -/
inductive Pen where
  /-- A class. -/
  | ofClass
  /-- A field, and whether an annotation was written in it. -/
  | ofField (annotated : Bool)
  /-- A method, and whether a parameter is open. -/
  | ofMethod (paramOpen : Bool)
  /-- An annotation: the level of its first line, and whether it is nested. -/
  | ofAnnotationBody (level : Nat) (nested : Bool)
  deriving DecidableEq, Repr, Inhabited

/-- The sort of scope that a pen writes. -/
def Pen.scope : Pen → Scope
  | .ofClass => .ofClass
  | .ofField _ => .ofField
  | .ofMethod _ => .ofMethod
  | .ofAnnotationBody _ _ => .ofAnnotationBody

/-- The level of the lines in the scope of a pen. -/
def Pen.level : Pen → Nat
  | .ofClass => 0
  | .ofField _ | .ofMethod _ => 1
  | .ofAnnotationBody level _ => level + 1

/-- The level of an annotation that the scope of a pen holds. Those of a parameter
stand one level deeper. -/
def Pen.annotationLevel : Pen → Nat
  | .ofMethod true => 2
  | pen => pen.level

/-! ## Lines -/

/-- A directive, flags if there are any, and the rest of the line. -/
def directiveLine (directive : Text) (access : Access) (rest : Text) : Text :=
  directive ++ (if access.isEmpty then [] else ' ' :: access.render) ++ ' ' :: rest

/-- A text between double quotes. -/
def quoted (text : Text) : Text := '"' :: Literal.escape text ++ ['"']

/-- The line that opens a field. -/
def fieldLine (name : Text) (access : Access) (type : TypeName) (value : Option Value) : Text :=
  directiveLine ".field" access
    (name ++ ":" ++ type.descriptor ++
      match value with
      | some v => " = " ++ v.encode
      | none => [])

/-- The line that opens an annotation. -/
def annotationLine (visibility : Visibility) (type : TypeName) : Text :=
  ".annotation " ++ visibility.keyword ++ ' ' :: type.descriptor

/-- The labels of a handler. -/
def handlerLabels (first last handler : Text) : Text :=
  "\x7b:" ++ first ++ " .. :" ++ last ++ "\x7d :" ++ handler

/-- The line of a local variable. A name without a type is written all the same. -/
def localLine (register : Text) (name : Option Text) (type : Option TypeName)
    (signature : Option Text) : Text :=
  ".local " ++ register ++
    (match name, type with
      | none, none => []
      | some n, t => ", " ++ quoted n ++ (t.map fun t => ':' :: t.descriptor).getD []
      | none, some t => ", null:" ++ t.descriptor) ++
    (match signature with
      | some s => ", " ++ quoted s
      | none => [])

/-- The line of a call that only a method hears, its annotations aside. -/
def methodLine? : Call → Option Text
  | .registers count => some (".registers " ++ Text.decimal count)
  | .locals count => some (".locals " ++ Text.decimal count)
  | .line number => some (".line " ++ Text.decimal number)
  | .param register (some name) => some (".param " ++ register ++ ", " ++ quoted name)
  | .param register none => some (".param " ++ register)
  | .paramEnd => some ".end param"
  | .label name => some (':' :: name)
  | .instruction text => some text
  | .catching exception first last handler =>
    some (".catch " ++ exception.descriptor ++ ' ' :: handlerLabels first last handler)
  | .catchAll first last handler => some (".catchall " ++ handlerLabels first last handler)
  | .localVariable register name type signature => some (localLine register name type signature)
  | .endLocal register => some (".end local " ++ register)
  | .restartLocal register => some (".restart local " ++ register)
  | .prologue => some ".prologue"
  | .epilogue => some ".epilogue"
  | _ => none

/-- The line of a call that belongs to the header of a class. -/
def headerLine? : Call → Option Text
  | .header type access => some (directiveLine ".class" access type.descriptor)
  | .superType type => some (".super " ++ type.descriptor)
  | .implements type => some (".implements " ++ type.descriptor)
  | .source name => some (".source " ++ quoted name)
  | _ => none

/-- The line of a call that opens a member of a class. -/
def memberLine? : Call → Option Text
  | .field name access type value => some (fieldLine name access type value)
  | .method name access signature =>
    some (directiveLine ".method" access (name ++ signature.descriptor))
  | .annotationStart visibility type => some (annotationLine visibility type)
  | _ => none

/-- The lines of a value between two texts. -/
def valueLines (before : Text) (value : Value) (after : Text) : List Text :=
  match Text.lines value.encode with
  | [] => []
  | first :: more =>
    let lines := (before ++ first) :: more
    lines.dropLast ++ (lines.getLast?.map (· ++ after)).toList

/-- Writes the elements of an array with a comma behind all but the last. -/
def writeElements (level : Nat) : Page → List Value → Page
  | page, [] => page
  | page, [value] => page.stack level (valueLines [] value [])
  | page, value :: more =>
    writeElements level (page.stack level (valueLines [] value [','])) more

/-- Writes an annotation element. An array takes a line for each of its elements. -/
def writeElement (page : Page) (level : Nat) (name : Text) : Value → Page
  | .array (first :: more) =>
    (writeElements (level + 1) (page.line level (name ++ " = \x7b")) (first :: more)).line level
      "\x7d"
  | value => page.stack level (valueLines (name ++ " = ") value [])

/-! ## Calls -/

namespace Sheet

/-- A blank line behind the header or a member. -/
def separate (s : Sheet) : Sheet :=
  match s.last with
  | .header | .member => { s with page := s.page.skip }
  | _ => s

/-- Writes a line of the class header. -/
def header (s : Sheet) (text : Text) : Sheet := ⟨s.page.line 0 text, .header⟩

/-- Writes the first line of a member of the class. -/
def member (s : Sheet) (text : Text) : Sheet := ⟨s.separate.page.line 0 text, .member⟩

/-- Writes a line inside a member. -/
def inner (s : Sheet) (level : Nat) (text : Text) : Sheet :=
  { s with page := s.page.line level text }

/-- Writes a comment of the class. -/
def comment (s : Sheet) (text : Text) : Sheet :=
  ⟨s.separate.page.line 0 (Page.comment text), .comment⟩

end Sheet

/-- Writes a comment in the scope of a pen. -/
def Pen.comment (pen : Pen) (text : Text) (s : Sheet) : Sheet :=
  match pen with
  | .ofClass => s.comment text
  | _ => s.inner pen.level (Page.comment text)

/-- Writes the end of the scope of a pen. A field has one only after annotations. -/
def Pen.finish (pen : Pen) (s : Sheet) : Sheet :=
  match pen with
  | .ofClass | .ofField false => s
  | .ofField true => s.inner 0 ".end field"
  | .ofMethod _ => s.inner 0 ".end method"
  | .ofAnnotationBody level nested =>
    s.inner level (if nested then ".end subannotation" else ".end annotation")

/-- Writes a call that a class hears and others do not. -/
def Sheet.classCall (s : Sheet) (call : Call) : Sheet :=
  match headerLine? call, memberLine? call with
  | some line, _ => s.header line
  | none, some line => s.member line
  | none, none => s

/-- Writes a call in the scope of a pen. -/
def Pen.write (pen : Pen) (call : Call) (s : Sheet) : Sheet :=
  match call, pen with
  | .comment text, _ => pen.comment text s
  | .eolComment text, _ => { s with page := s.page.eolComment pen.level text }
  | .finish, _ => pen.finish s
  | call, .ofClass => s.classCall call
  | .annotationStart visibility type, _ =>
    s.inner pen.annotationLevel (annotationLine visibility type)
  | .value name value, _ => { s with page := writeElement s.page pen.level name value }
  | .subannotationStart name type, _ =>
    s.inner pen.level (name ++ " = .subannotation " ++ type.descriptor)
  | call, _ =>
    match methodLine? call with
    | some line => s.inner 1 line
    | none => s

/-- The pen after a call. A parameter stays open until the next line of code, and
comments and annotations do not end it. -/
def Pen.after (pen : Pen) (call : Call) : Pen :=
  match pen, call with
  | .ofField _, .annotationStart _ _ => .ofField true
  | .ofMethod _, .param _ _ => .ofMethod true
  | .ofMethod paramOpen, .comment _ => .ofMethod paramOpen
  | .ofMethod paramOpen, .eolComment _ => .ofMethod paramOpen
  | .ofMethod paramOpen, .annotationStart _ _ => .ofMethod paramOpen
  | .ofMethod _, _ => .ofMethod false
  | pen, _ => pen

/-- The pen of the scope that a call opens. -/
def Pen.opened? (pen : Pen) : Call → Option Pen
  | .field _ _ _ _ => some (.ofField false)
  | .method _ _ _ => some (.ofMethod false)
  | .annotationStart _ _ => some (.ofAnnotationBody pen.annotationLevel false)
  | .subannotationStart _ _ => some (.ofAnnotationBody pen.level true)
  | _ => none

/-! ## The listener -/

/-- A pen with the slot of its delegate. -/
structure Handle (κ : Type) where
  /-- How the scope is written. -/
  pen : Pen
  /-- Who hears the calls next. -/
  slot : Slot κ

/-- The state of a writer and of the listener behind it. -/
structure State (σ : Type) where
  /-- What is written. -/
  sheet : Sheet
  /-- The state of the listener behind the writer. -/
  inner : σ

variable {σ κ : Type}

/-- What comes of a call that was written and passed on. -/
def reply (pen : Pen) (call : Call) (sheet : Sheet) (passed : Slot.Passed σ κ) :
    Reply (State σ) (Handle κ) :=
  let outcome : Except Fault (Option (Handle κ)) :=
    match passed.outcome, pen.opened? call with
    | .error fault, _ => .error fault
    | .ok _, none => .ok none
    | .ok opened, some child =>
      (Slot.child child.scope opened).map fun slot => some ⟨child, slot⟩
  ⟨outcome, ⟨pen.after call, passed.slot⟩, ⟨sheet, passed.state⟩⟩

/-- Hears a call: writes it and passes it on. -/
def hear (inner : Listener σ κ) (h : Handle κ) (call : Call) (s : State σ) :
    Reply (State σ) (Handle κ) :=
  if call.suits h.pen.scope then
    reply h.pen call (h.pen.write call s.sheet) (h.slot.pass inner call s.inner)
  else ⟨.ok none, h, s⟩

/-- The writer in front of a listener. -/
def listener (inner : Listener σ κ) : Listener (State σ) (Handle κ) := ⟨hear inner⟩

/-- The handle for a class, without a delegate. -/
def root : Handle κ := ⟨.ofClass, .vacant .ofClass⟩

/-- The handle for a class, with a delegate. -/
def rootFor (handle : κ) : Handle κ := ⟨.ofClass, ⟨.ofClass, some ⟨.ofClass, handle⟩⟩⟩

/-- A writer that has written nothing. -/
def State.initial (inner : σ) : State σ := ⟨.blank, inner⟩

/-- All text that was written. -/
def State.code (s : State σ) : Text := s.sheet.page.contents

/-- A writer with its text taken away. -/
def State.reset (s : State σ) : State σ := { s with sheet := .blank }

end Smali.Writer
