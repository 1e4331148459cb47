import Smali.Reader.Frame
import Smali.Reader.Stage

/-!
# Steps of a reader

A reader takes one line after another. Before each line it lets go of the frames
that the line does not belong to, from the innermost one outwards; the innermost
of the others then takes the line. A fault that a scope is told to its own end,
or to the end of a scope in it, is dealt with by the scope around: methods,
annotations and the class skip over it and go on, a field is left.
-/

namespace Smali

open Dialogue (leave excuse)
open Passage (tell remark)

/-- A field or a method, as far as it may be declared only once. -/
inductive Member where
  /-- A field, by its name. -/
  | field (name : Text)
  /-- A method, by its name and its signature. -/
  | method (name : Text) (signature : Signature)
  deriving DecidableEq, Repr

/-- What a reader remembers between lines. -/
structure Control where
  /-- The stage at the level of the class. -/
  stage : Stage
  /-- The members so far. -/
  declared : List Member
  /-- What is open, the innermost first. -/
  frames : List Frame

/-- The comment behind a line as a call. -/
def Line.eolCall? (l : Line) : Option Call := l.eolComment?.map .eolComment

/-- Makes a call for a line, and tells of the comment behind it. -/
def Passage.tellLine (l : Line) (call : Call) : Passage Unit := do
  tell call
  remark l.eolCall?

/-- Goes through a passage that concerns a place. A fault is skipped over. -/
def Dialogue.attempt {α : Type} (position : Position) (p : Passage α) : Dialogue (Option α) := do
  match ← p.run with
  | .ok a => return some a
  | .error fault =>
    excuse (fault.attach position)
    return none

/-! ## Ends of scopes -/

/-- What comes out of a scope that has ended: a fault with the place of the scope,
and comments that belong to what follows. -/
structure Arrival where
  /-- A fault that the scope around has to deal with. -/
  fault : Option (Fault × Position)
  /-- Comments in order. -/
  held : List Text

/-- Nothing comes out. -/
def Arrival.nothing : Arrival := ⟨none, []⟩

/-- Tells the end of the innermost scope and goes back to the scope around. The
result is the fault that the end was received with. -/
def endScope : Dialogue (Option Fault) := do
  let received ← (tell .finish).run
  leave
  return match received with
    | .ok _ => none
    | .error fault => some fault

/-- Tells of a comment at the level of the class. A fault is final. -/
def remarkClass (text : Text) : Dialogue Unit := do
  match ← (remark (some (.comment text))).run with
  | .ok _ => return ()
  | .error fault => .halt fault

/-- Skips over the fault that comes out of a scope. -/
def Arrival.excuse (a : Arrival) : Dialogue Unit :=
  match a.fault with
  | some (fault, position) => Dialogue.excuse (fault.attach position)
  | none => pure ()

/-- Deals at the level of the class with what comes out of a member. -/
def Arrival.reachClass (a : Arrival) : Dialogue Unit := do
  a.excuse
  a.held.forM remarkClass

/-- The fault of a scope that ends without its closing line, before a line or at the
end of the source. -/
def missingEnd (what : Text) (opened : Position) : Option Line → Fault
  | some l => .located .unterminated l.position (what ++ " before '" ++ l.text ++ "'")
  | none => .located .unterminated opened what

/-- Ends a frame without a closing line. -/
def Frame.close (f : Frame) (before : Option Line) : Dialogue Arrival :=
  match f with
  | .field f => do
    if f.annotated then excuse (.located .unterminated f.opened "missing .end field")
    return ⟨(← endScope).map (·, f.opened), f.held.reverse⟩
  | .method m => do
    excuse (missingEnd ("missing .end method for " ++ m.name) m.opened before)
    return ⟨(← endScope).map (·, m.opened), []⟩
  | .annotationBody opened name => do
    excuse (missingEnd ("missing .end " ++ name) opened before)
    return ⟨(← endScope).map (·, opened), []⟩
  | .array g => do
    excuse (.located .unterminated g.opened "unterminated array value")
    return .nothing
  | .skipping _ => return .nothing

/-- Ends frames from the innermost one outwards, up to the first that stays, and
deals on the way with what comes out of each. A fault takes a field with it. -/
def unwind (before : Option Line) (stays : Frame → Bool) :
    Arrival → List Frame → Dialogue (List Frame)
  | a, [] => do
    a.reachClass
    return []
  | ⟨some (fault, _), _⟩, .field f :: outer => do
    leave
    unwind before stays ⟨some (fault, f.opened), []⟩ outer
  | a, f :: outer => do
    a.excuse
    if stays f then return f :: outer
    else unwind before stays (← f.close before) outer

/-- Hands a fault to the frames around a scope that has ended. -/
def raise (fault : Fault) (opened : Position) (outer : List Frame) : Dialogue (List Frame) :=
  unwind none (fun _ => true) ⟨some (fault, opened), []⟩ outer

/-- Ends a scope with its closing line. The comment behind that line belongs to the
scope around. -/
def closeBy (l : Line) (opened : Position) (heard : Bool) (outer : List Frame) :
    Dialogue (List Frame) := do
  match ← endScope with
  | some fault => raise fault opened outer
  | none =>
    match ← (remark (if heard then l.eolCall? else none)).run with
    | .ok _ => return outer
    | .error fault => raise fault opened outer

/-- Goes through a passage of a scope that cannot deal with faults itself. -/
def orRaise (opened : Position) (outer : List Frame) (p : Passage (List Frame)) :
    Dialogue (List Frame) := do
  match ← p.run with
  | .ok frames => return frames
  | .error fault =>
    leave
    raise fault opened outer

/-! ## Annotations -/

/-- Visibility and type of an annotation line. -/
def annotationHeader (l : Line) : Passage (Visibility × TypeName) := do
  let (visibility, type) ← Passage.ofExcept l.annotationHeader
  Passage.checkObject l "annotation type" type
  return (visibility, type)

/-- Opens the annotation of a line, or skips it if the line is malformed. -/
def openAnnotationScope (l : Line) : Passage Frame := do
  match ← (annotationHeader l).outcome with
  | .error fault =>
    excuse fault
    return .skipping "annotation"
  | .ok (visibility, type) =>
    Passage.enter (.annotationStart visibility type) l.eolCall?
    return .annotationBody l.position "annotation"

/-- Tells of an annotation element whose value is spelled by a text, with the
comment behind its first line and those behind or between the others. -/
def tellElement (position : Position) (name text : Text) (comment : Option Call)
    (remarks : List Call) : Passage Unit := do
  let value ← Passage.ofExcept (Line.decodeAt position text)
  Passage.checkValue position value
  tell (.value name value)
  remark comment
  remarks.forM fun call => remark (some call)

/-- Opens the nested annotation that is the value of an element. -/
def openSubannotationScope (l : Line) (name descriptor : Text) : Passage Frame := do
  let type ← Passage.ofExcept (l.parseType (Text.trim descriptor))
  Passage.checkObject l "annotation type" type
  Passage.enter (.subannotationStart name type) l.eolCall?
  return .annotationBody l.position "subannotation"

/-- Takes a line as an annotation element. The result is the frame that it opens. -/
def elementLine (l : Line) : Passage (Option Frame) :=
  let malformed := l.grammar ("expected 'name = value', found '" ++ l.text ++ "'")
  match Text.cut? (· == '=') l.text with
  | none => throw malformed
  | some (before, after) =>
    let name := Text.trim before
    let value := Text.trim after
    if name.isEmpty then throw malformed
    else
      match Text.after? ".subannotation" value with
      | some descriptor => do return some (← openSubannotationScope l name descriptor)
      | none =>
        if value.head? = some '\x7b' ∧ 0 < Literal.braceDepth value then
          return some (.array (.start l name value))
        else do
          tellElement l.position name value l.eolCall? []
          return none

/-- Takes a line in an annotation. -/
def takeInAnnotationBody (opened : Position) (name : Text) (l : Line) (outer : List Frame) :
    Dialogue (List Frame) :=
  let frames := .annotationBody opened name :: outer
  match l.comment?, l.directive? with
  | some text, _ =>
    orRaise opened outer do
      remark (some (.comment text))
      return frames
  | none, none => do
    let frame ← Dialogue.attempt l.position (elementLine l)
    return (frame.join).toList ++ frames
  | none, some _ =>
    if l.closes name then closeBy l opened true outer
    else do
      excuse (l.grammar ("unexpected '" ++ l.text ++ "' in " ++ name))
      return frames

/-- Takes a line in an array. With the closing brace the element is told of. -/
def takeInArray (g : Gathering) (l : Line) (outer : List Frame) : Dialogue (List Frame) :=
  let g' := g.add l
  if g.isClosedBy l then do
    let _ ← Dialogue.attempt g.opened
      (tellElement g.opened g.name g'.text (g.comment.map .eolComment) g'.remarks.reverse)
    return outer
  else return .array g' :: outer

/-! ## Fields -/

/-- Takes a line in a field. -/
def takeInField (f : OpenField) (l : Line) (outer : List Frame) : Dialogue (List Frame) :=
  match l.comment? with
  | some text => return .field { f with held := text :: f.held } :: outer
  | none => do
    let told ← (f.held.reverse.forM fun text => remark (some (.comment text))).run
    match told with
    | .error fault =>
      leave
      raise fault f.opened outer
    | .ok _ =>
      if l.closes "field" then closeBy l f.opened f.heard outer
      else
        orRaise f.opened outer do
          return [← openAnnotationScope l, .field { f with annotated := true, held := [] }] ++ outer

/-! ## Methods -/

/-- Tells of a line that is code: a label behind a colon, or an instruction. -/
def codeLine (m : OpenMethod) (l : Line) : Passage Unit := do
  Passage.checkCode l m
  Passage.tellLine l
    (match l.text with
      | ':' :: name => .label name
      | text => .instruction text)

/-- Takes a closing line in a method that does not close the method. -/
def closingLine (m : OpenMethod) (l : Line) : Passage Unit :=
  if l.closes "param" then
    if m.paramOpen then Passage.tellLine l .paramEnd
    else throw (l.grammar ".end param without an open .param")
  else if l.closes "local" then do
    Passage.tellLine l (.endLocal (← Passage.ofExcept l.localRegister))
  else if l.closes "field" || l.closes "annotation" || l.closes "subannotation" then
    throw (l.grammar ("unexpected '" ++ l.text ++ "' in method " ++ m.name))
  else codeLine m l

/-- Tells of a handler for exceptions of one type. -/
def catchingLine (m : OpenMethod) (l : Line) : Passage Unit := do
  Passage.checkCode l m
  let h ← Passage.ofExcept l.handler
  let exception ← Passage.ofExcept (l.parseType h.exception)
  Passage.checkObject l "exception type" exception
  Passage.tellLine l (.catching exception h.first h.last h.handler)

/-- Tells of a handler for all exceptions. -/
def catchAllLine (m : OpenMethod) (l : Line) : Passage Unit := do
  Passage.checkCode l m
  let h ← Passage.ofExcept l.handler
  if h.exception.isEmpty then Passage.tellLine l (.catchAll h.first h.last h.handler)
  else throw (l.grammar ("unexpected exception type in '" ++ l.text ++ "'"))

/-- Takes a line with a directive in a method, annotations and closing lines aside. -/
def directiveLine (m : OpenMethod) (l : Line) : Directive → Passage Unit
  | .registers => do
    Passage.checkCode l m
    Passage.tellLine l (.registers (← Passage.ofExcept l.count))
  | .locals => do
    Passage.checkCode l m
    Passage.tellLine l (.locals (← Passage.ofExcept l.count))
  | .line => do Passage.tellLine l (.line (← Passage.ofExcept l.count))
  | .param => do
    let (register, name) ← Passage.ofExcept l.param
    Passage.tellLine l (.param register name)
  | .catching => catchingLine m l
  | .catchAll => catchAllLine m l
  | .localVariable => do
    let v ← Passage.ofExcept l.localVariable
    Passage.tellLine l (.localVariable v.register v.name v.type v.signature)
  | .restart => do Passage.tellLine l (.restartLocal (← Passage.ofExcept l.localRegister))
  | .prologue => Passage.tellLine l .prologue
  | .epilogue => Passage.tellLine l .epilogue
  | .other _ => codeLine m l
  | d => throw (l.grammar ("unexpected directive " ++ d.keyword ++ " in method " ++ m.name))

/-- Takes a line of the body of a method. The result is the frame that it opens. -/
def bodyLine (m : OpenMethod) (l : Line) : Passage (Option Frame) :=
  match l.directive? with
  | none => do
    codeLine m l
    return none
  | some .annotationStart => do return some (← openAnnotationScope l)
  | some .closing => do
    closingLine m l
    return none
  | some d => do
    directiveLine m l d
    return none

/-- A method after a line of its body. A parameter is open from its line, if that is
well formed, up to its closing line. -/
def OpenMethod.after (m : OpenMethod) (l : Line) : OpenMethod :=
  if l.directive? = some .param then { m with paramOpen := m.paramOpen || l.param.isOk }
  else if l.closes "param" then { m with paramOpen := false }
  else m

/-- Takes a line in a method. -/
def takeInMethod (m : OpenMethod) (l : Line) (outer : List Frame) : Dialogue (List Frame) :=
  match l.comment? with
  | some text =>
    orRaise m.opened outer do
      remark (some (.comment text))
      return .method m :: outer
  | none =>
    if l.closes "method" then closeBy l m.opened true outer
    else do
      let frame ← Dialogue.attempt l.position (bodyLine m l)
      return (frame.join).toList ++ .method (m.after l) :: outer

/-! ## Classes -/

/-- Takes a line of the class header. -/
def headerLine (l : Line) : Directive → Passage Unit
  | .ofClass => do
    let (access, type) ← Passage.ofExcept l.classHeader
    Passage.checkObject l "class type" type
    Passage.tellLine l (.header type access)
  | .superType => do
    let type ← Passage.ofExcept l.singleType
    Passage.checkObject l "super type" type
    Passage.tellLine l (.superType type)
  | .implements => do
    let type ← Passage.ofExcept l.singleType
    Passage.checkObject l "interface" type
    Passage.tellLine l (.implements type)
  | _ => do Passage.tellLine l (.source (← Passage.ofExcept l.sourceName))

/-- What the line of a field tells, checked. -/
def fieldHeader (declared : List Member) (l : Line) : Passage Line.FieldArguments := do
  let f ← Passage.ofExcept l.field
  match f.value with
  | none => pure ()
  | some value =>
    Passage.check l (value.isAssignableTo f.type)
      (value.kindName ++ " value " ++ value.encode ++ " cannot initialise field " ++ f.name ++
        " of type " ++ f.type.descriptor)
    Passage.checkValue l.position value
  Passage.check l (!declared.contains (.field f.name)) ("duplicate field " ++ f.name)
  return f

/-- What the line of a method tells, checked. -/
def methodHeader (declared : List Member) (l : Line) : Passage Line.MethodArguments := do
  let m ← Passage.ofExcept l.method
  let isStatic := m.name = "<clinit>".toList
  Passage.check l (!(isStatic || m.name = "<init>".toList) || m.signature.result.isVoid)
    (m.name ++ " must return V, not " ++ m.signature.result.descriptor)
  Passage.check l (!isStatic || m.signature.params.isEmpty) "<clinit> cannot take parameters"
  Passage.check l (!declared.contains (.method m.name m.signature))
    ("duplicate method " ++ m.declaration)
  return m

namespace Control

/-- Opens the field of a line. A field with a malformed line is read without being
told of. -/
def openField (c : Control) (l : Line) : Dialogue Control := do
  match ← (fieldHeader c.declared l).run with
  | .error fault =>
    excuse fault
    Dialogue.hush
    return { c with frames := [.field ⟨l.position, false, [], false⟩] }
  | .ok f =>
    let opened ← Dialogue.attempt l.position
      (Passage.enter (.field f.name f.access f.type f.value) l.eolCall?)
    return { c with
      declared := .field f.name :: c.declared
      frames := (opened.map fun _ => .field ⟨l.position, false, [], true⟩).toList }

/-- Opens the method of a line, or skips it if the line is malformed. -/
def openMethod (c : Control) (l : Line) : Dialogue Control := do
  match ← (methodHeader c.declared l).run with
  | .error fault =>
    excuse fault
    return { c with frames := [.skipping "method"] }
  | .ok m =>
    let opened ← Dialogue.attempt l.position
      (Passage.enter (.method m.name m.access m.signature) l.eolCall?)
    return { c with
      declared := .method m.name m.signature :: c.declared
      frames := (opened.map fun _ => .method ⟨l.position, m.name, m.access, false⟩).toList }

/-- Takes a line with a directive that may stand at the level of the class. -/
def classDirective (c : Control) (l : Line) (d : Directive) : Stage → Dialogue Control
  | .header => do
    let _ ← Dialogue.attempt l.position (headerLine l d)
    return { c with stage := .header }
  | .field => { c with stage := .body }.openField l
  | .method => { c with stage := .body }.openMethod l
  | _ => do
    let frame ← Dialogue.attempt l.position (openAnnotationScope l)
    return { c with stage := .body, frames := frame.toList }

/-- Takes a line at the level of the class. -/
def classLine (c : Control) (l : Line) : Dialogue Control :=
  match l.comment?, l.directive? with
  | some text, _ => do
    remarkClass text
    return c
  | none, none => do
    excuse (l.grammar ("unexpected '" ++ l.text ++ "' outside of a method"))
    return c
  | none, some .closing => do
    excuse (l.grammar ("unexpected '" ++ l.text ++ "'"))
    return c
  | none, some d =>
    match c.stage.next? d with
    | some next => c.classDirective l d next
    | none => do
      excuse
        (l.grammar ("unexpected directive " ++ d.keyword ++ " in " ++ c.stage.word ++ " state"))
      return c

/-- Takes a line in the innermost frame. -/
def takeInner (c : Control) (l : Line) : List Frame → Dialogue Control
  | [] => { c with frames := [] }.classLine l
  | .field f :: outer => do return { c with frames := ← takeInField f l outer }
  | .method m :: outer => do return { c with frames := ← takeInMethod m l outer }
  | .annotationBody opened name :: outer => do
    return { c with frames := ← takeInAnnotationBody opened name l outer }
  | .array g :: outer => do return { c with frames := ← takeInArray g l outer }
  | .skipping name :: outer =>
    return { c with frames := if l.closes name then outer else .skipping name :: outer }

/-- Takes a line: ends the frames that it does not belong to, and gives it to the
innermost of the others. -/
def take (c : Control) (l : Line) : Dialogue Control := do
  c.takeInner l (← unwind (some l) (·.takes l) .nothing c.frames)

/-- Ends all frames and the class. -/
def finish (c : Control) : Dialogue Unit := do
  let _ ← unwind none (fun _ => false) .nothing c.frames
  if c.stage = .start then excuse (.plain .grammar "missing .class directive")
  match ← (tell .finish).run with
  | .ok _ => return ()
  | .error fault => .halt fault

end Control

end Smali
