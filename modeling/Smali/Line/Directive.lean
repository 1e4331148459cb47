import Smali.Text.Basic

/-!
# Directives

A directive is a keyword behind a point. The reader knows twenty of them; every
other one belongs to the code of a method and is kept as it is spelled.
-/

namespace Smali

/-- The keyword at the start of a line. -/
inductive Directive where
  | ofClass
  | superType
  | implements
  | source
  | field
  | method
  | annotationStart
  | subannotationStart
  | enumeration
  | closing
  | registers
  | locals
  | param
  | line
  | catching
  | catchAll
  | localVariable
  | restart
  | prologue
  | epilogue
  /-- Any other keyword. -/
  | other (keyword : Text)
  deriving DecidableEq, Repr, Inhabited

namespace Directive

/-- The directives with a meaning of their own. -/
def known : List Directive :=
  [.ofClass, .superType, .implements, .source, .field, .method, .annotationStart,
    .subannotationStart, .enumeration, .closing, .registers, .locals, .param, .line, .catching,
    .catchAll, .localVariable, .restart, .prologue, .epilogue]

/-- The spelling of a directive. -/
def keyword : Directive → Text
  | .ofClass => ".class"
  | .superType => ".super"
  | .implements => ".implements"
  | .source => ".source"
  | .field => ".field"
  | .method => ".method"
  | .annotationStart => ".annotation"
  | .subannotationStart => ".subannotation"
  | .enumeration => ".enum"
  | .closing => ".end"
  | .registers => ".registers"
  | .locals => ".locals"
  | .param => ".param"
  | .line => ".line"
  | .catching => ".catch"
  | .catchAll => ".catchall"
  | .localVariable => ".local"
  | .restart => ".restart"
  | .prologue => ".prologue"
  | .epilogue => ".epilogue"
  | .other keyword => keyword

/-- The directive of a spelling. -/
def ofKeyword (word : Text) : Directive :=
  (known.find? fun d => d.keyword = word).getD (.other word)

/-- Whether the directive has no meaning of its own. -/
def isOther : Directive → Bool
  | .other _ => true
  | _ => false

end Directive

end Smali
