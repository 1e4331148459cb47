import Smali.Proofs.DialogueLaws
import Smali.Reader.Run

/-!
# Recursive descent

A reader by recursive descent has one loop for each sort of scope. A loop takes lines from the
front of those that are still to be read; where a line opens a scope, it descends into the loop
of that scope; and where a line does not belong to its scope, it hands the line back to the loop
around, together with comments that it was holding. Every round of a loop costs a turn, and a
descent starts with the turns that are left.

That lines are handed back makes it a question whether the turns suffice. Every loop has taken
more lines than it hands back, so there is no need for more turns than there are lines.
-/

namespace Smali

/-- The lines that are still to be read: those that were handed back, and those that have not
been scanned. Some of the latter are faults. -/
abbrev Lines := List (Except Fault Line)

/-- A part of a reading. It ends with a result or with a fault for the scope around, and with
the lines that are left then; or it has run out of turns. -/
abbrev Descent (α : Type) : Type := Lines → Dialogue (Option (Except Fault α × Lines))

namespace Descent

variable {α β : Type}

/-- One part after another. A fault is left to the scope around. -/
def bind (d : Descent α) (f : α → Descent β) : Descent β := fun lines => do
  match ← d lines with
  | none => return none
  | some (.ok a, rest) => f a rest
  | some (.error fault, rest) => return some (.error fault, rest)

instance : Monad Descent where
  pure a lines := .done (some (.ok a, lines))
  bind := bind

/-- There are no turns left. -/
def spent : Descent α := fun _ => .done none

/-- A fault for the scope around. -/
def fail (fault : Fault) : Descent α := fun lines => .done (some (.error fault, lines))

/-- A part together with its fault. -/
def outcome (d : Descent α) : Descent (Except Fault α) := fun lines => do
  match ← d lines with
  | none => return none
  | some (result, rest) => return some (.ok result, rest)

/-- A part of a scope that cannot deal with faults itself and is left with them. -/
def orLeave (d : Descent α) : Descent α := fun lines => do
  match ← d lines with
  | some (.error fault, rest) =>
    Dialogue.leave
    return some (.error fault, rest)
  | r => return r

/-- Acts that take no line. -/
def plan (d : Dialogue α) : Descent α := fun lines => do return some (.ok (← d), lines)

/-- Acts that take no line and that a fault may cut short. -/
def say (p : Passage α) : Descent α := fun lines => do return some (← p.run, lines)

/-- Takes the next line, if there is one. What cannot be scanned is skipped over. -/
def nextLine : Descent (Option Line)
  | [] => .done (some (.ok none, []))
  | .error fault :: rest => do
    Dialogue.excuse fault
    nextLine rest
  | .ok l :: rest => .done (some (.ok (some l), rest))

/-- Hands lines back, to be taken again before all others. -/
def handBack (lines : List Line) : Descent Unit :=
  fun rest => .done (some (.ok (), lines.map .ok ++ rest))

/-- Tells the end of the innermost scope and goes back to the scope around. -/
def finishScope : Descent Unit := do
  match ← plan endScope with
  | none => return ()
  | some fault => fail fault

/-- Ends a scope without its closing line. Nothing stands behind a closing line then. -/
def closeImplicitly (fault : Fault) (back : List Line) : Descent (Option Call) := do
  plan (Dialogue.excuse fault)
  handBack back
  finishScope
  return none

/-- Drops the lines of a construct that is malformed, up to its closing line or to the next
member. -/
def skipConstruct (name : Text) : Descent Unit
  | [] => .done (some (.ok (), []))
  | .error fault :: rest => do
    Dialogue.excuse fault
    skipConstruct name rest
  | .ok l :: rest =>
    if l.closes name then .done (some (.ok (), rest))
    else if l.opensMember then .done (some (.ok (), .ok l :: rest))
    else skipConstruct name rest

/-- The fault of an array whose braces are not closed. -/
def unclosedArray (g : Gathering) : Fault :=
  .located .unterminated g.opened "unterminated array value"

/-- Collects the lines of an array up to the brace that closes it. -/
def gatherArray (g : Gathering) : Descent Gathering
  | [] => .done (some (.error (unclosedArray g), []))
  | .error fault :: rest => do
    Dialogue.excuse fault
    gatherArray g rest
  | .ok l :: rest =>
    if Gathering.isEndedBy l then .done (some (.error (unclosedArray g), .ok l :: rest))
    else if g.isClosedBy l then .done (some (.ok (g.add l), rest))
    else gatherArray (g.add l) rest

/-- Reads what a line has opened to its end, and tells what stands behind that end.
`inner` is the loop of annotations. -/
def descend (inner : Position → Text → Descent (Option Call)) : Option Frame → Descent Unit
  | some (.annotationBody opened name) => do say (Passage.remark (← inner opened name))
  | some (.array g) => do
    let g ← gatherArray g
    say (tellElement g.opened g.name g.text (g.comment.map .eolComment) g.remarks.reverse)
  | some (.skipping name) => skipConstruct name
  | _ => return ()

/-- An element of an annotation. -/
def element (inner : Position → Text → Descent (Option Call)) (l : Line) : Descent Unit := do
  descend inner (← say (elementLine l))

/-- The loop of an annotation. The result is the comment behind its closing line. -/
def annotationBody : Nat → Position → Text → Descent (Option Call)
  | 0, _, _ => spent
  | n + 1, opened, name => do
    match ← nextLine with
    | none => closeImplicitly (missingEnd ("missing .end " ++ name) opened none) []
    | some l =>
      match l.comment?, l.directive? with
      | some text, _ =>
        orLeave (say (Passage.remark (some (.comment text))))
        annotationBody n opened name
      | none, none =>
        match ← (element (annotationBody n) l).outcome with
        | .ok () => annotationBody n opened name
        | .error fault =>
          plan (Dialogue.excuse (fault.attach l.position))
          annotationBody n opened name
      | none, some _ =>
        if l.closes name then
          finishScope
          return l.eolCall?
        else if l.leavesAnnotationBody name then
          closeImplicitly (missingEnd ("missing .end " ++ name) opened (some l)) [l]
        else
          plan (Dialogue.excuse (l.grammar ("unexpected '" ++ l.text ++ "' in " ++ name)))
          annotationBody n opened name

/-- What a line of a method leads to. -/
inductive Step where
  /-- To the next line. -/
  | next
  /-- To the end of the method. -/
  | close
  /-- To a member that opens although the method was not closed. -/
  | parent

/-- A line of a method. -/
def methodLine (n : Nat) (m : OpenMethod) (l : Line) : Descent Step :=
  if l.leavesMethod then return .parent
  else if l.closes "method" then return .close
  else do
    descend (annotationBody n) (← say (bodyLine m l))
    return .next

/-- The loop of a method. The result is the comment behind its closing line. -/
def methodBody : Nat → OpenMethod → Descent (Option Call)
  | 0, _ => spent
  | n + 1, m => do
    match ← nextLine with
    | none => closeImplicitly (missingEnd ("missing .end method for " ++ m.name) m.opened none) []
    | some l =>
      match l.comment? with
      | some text =>
        orLeave (say (Passage.remark (some (.comment text))))
        methodBody n m
      | none =>
        match ← (methodLine n m l).outcome with
        | .ok .next => methodBody n (m.after l)
        | .ok .close =>
          finishScope
          return l.eolCall?
        | .ok .parent =>
          closeImplicitly (missingEnd ("missing .end method for " ++ m.name) m.opened (some l)) [l]
        | .error fault =>
          plan (Dialogue.excuse (fault.attach l.position))
          methodBody n (m.after l)

/-- Ends a field without its closing line, which is a fault only behind an annotation. -/
def closeField (opened : Position) (annotated : Bool) (back : List Line) :
    Descent (Option Call) :=
  if annotated then
    closeImplicitly (.located .unterminated opened "missing .end field") back
  else do
    handBack back
    finishScope
    return none

/-- The loop of a field. It holds comments, the latest first, which belong to the field only if
more of the field follows. The result is the comment behind its closing line. -/
def fieldBody : Nat → Position → Bool → Bool → List Line → Descent (Option Call)
  | 0, _, _, _, _ => spent
  | n + 1, opened, annotated, heard, held => do
    match ← nextLine with
    | none => closeField opened annotated held.reverse
    | some l =>
      if l.isComment then fieldBody n opened annotated heard (l :: held)
      else if l.directive? = some .annotationStart || l.closes "field" then
        orLeave (say ((held.filterMap Line.comment?).reverse.forM fun text =>
          Passage.remark (some (.comment text))))
        if l.closes "field" then
          finishScope
          return if heard then l.eolCall? else none
        else
          orLeave do
            descend (annotationBody n) (some (← say (openAnnotationScope l)))
          fieldBody n opened true heard []
      else closeField opened annotated (held.reverse ++ [l])

/-- Reads what a line at the level of the class has opened to its end. -/
def member (n : Nat) : List Frame → Descent Unit
  | .field f :: _ => do say (Passage.remark (← fieldBody n f.opened f.annotated f.heard []))
  | .method m :: _ => do say (Passage.remark (← methodBody n m))
  | f :: _ => descend (annotationBody n) (some f)
  | [] => return ()

/-- A line at the level of the class, with the member that it opens. -/
def classLine (n : Nat) (c : Control) (l : Line) : Descent Control := do
  let c ← plan (c.classLine l)
  match ← (member n c.frames).outcome with
  | .ok () => return { c with frames := [] }
  | .error fault =>
    plan (Dialogue.excuse (fault.attach l.position))
    return { c with frames := [] }

/-- The loop of the class, up to the end of the source. -/
def classBody : Nat → Control → Descent Unit
  | 0, _ => spent
  | n + 1, c => do
    match ← nextLine with
    | none => plan c.finish
    | some l => classBody n (← classLine n c l)

/-- The whole reading of a source. -/
def reading (n : Nat) (o : Options) (source : Text) :
    Dialogue (Option (Except Fault Unit × Lines)) :=
  classBody n (.initial o) (scanLines source)

end Descent

end Smali
