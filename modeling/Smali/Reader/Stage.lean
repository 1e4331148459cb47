import Smali.Line.Directive

/-!
# Stages of a reading

At each stage of a source only some directives may open a line. `next?` is the
table of them. Closing lines are not in it: they lead back to the scope around.
-/

namespace Smali

/-- A stage of a reading. -/
inductive Stage where
  /-- Before the class directive. -/
  | start
  /-- In the class header. -/
  | header
  /-- Among the members of the class. -/
  | body
  /-- In a field. -/
  | field
  /-- In a method. -/
  | method
  /-- In an annotation. -/
  | annotationBody
  /-- Behind the last line. -/
  | finished
  deriving DecidableEq, Repr, Inhabited

namespace Stage

/-- All stages. -/
def all : List Stage := [.start, .header, .body, .field, .method, .annotationBody, .finished]

/-- The word for a stage. -/
def word : Stage → Text
  | .start => "start"
  | .header => "header"
  | .body => "body"
  | .field => "field"
  | .method => "method"
  | .annotationBody => "annotation"
  | .finished => "end"

/-- The stage that a directive leads to, if it may stand there. -/
def next? : Stage → Directive → Option Stage
  | .start, .ofClass => some .header
  | .header, .superType | .header, .implements | .header, .source => some .header
  | .header, .field | .body, .field => some .field
  | .header, .method | .body, .method => some .method
  | .header, .annotationStart | .body, .annotationStart | .field, .annotationStart
  | .method, .annotationStart => some .annotationBody
  | .method, .registers | .method, .locals | .method, .param | .method, .line | .method, .catching
  | .method, .catchAll | .method, .localVariable | .method, .restart | .method, .prologue
  | .method, .epilogue | .method, .other _ => some .method
  | .annotationBody, .subannotationStart => some .annotationBody
  | _, _ => none

end Stage

end Smali
