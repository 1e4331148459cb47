import Smali.Text.Digits

/-!
# Faults

Every failure of the library is a fault: its kind, the text that explains it,
and the place in the source that it concerns, if there is one. Four kinds come
from noisy input and may be skipped over; all others end the work at hand.
-/

namespace Smali

/-- A place in a source. Lines and columns count from one. -/
structure Position where
  /-- Number of the physical line. -/
  line : Nat
  /-- Number of the character within the line. -/
  column : Nat
  deriving DecidableEq, Repr, Inhabited

/-- The wording of a place. -/
def Position.text (p : Position) : Text :=
  "line " ++ Text.decimal p.line ++ ", column " ++ Text.decimal p.column

/-- What sort of thing went wrong. -/
inductive FaultKind where
  /-- A malformed token: an open quote, a bad numeral. -/
  | lexical
  /-- A token or a directive out of place. -/
  | grammar
  /-- A scope without its closing line. -/
  | unterminated
  /-- A semantic check that failed. -/
  | validation
  /-- A delegate of another capability than its holder. -/
  | capabilityMismatch
  /-- A malformed type or method descriptor. -/
  | descriptor
  /-- A literal that cannot be read. -/
  | literal
  /-- Raised by a listener to stop the reader. -/
  | listener
  /-- A library version without a key. -/
  | keyNotFound
  /-- A payload that cannot be decrypted. -/
  | decrypt
  /-- A file that cannot be read or written. -/
  | io
  deriving DecidableEq, Repr, Inhabited

namespace FaultKind

/-- The kinds that a lenient reader may skip over. -/
def isRecoverable : FaultKind → Bool
  | .lexical | .grammar | .unterminated | .descriptor => true
  | _ => false

/-- The wording of a kind in a displayed fault. -/
def title : FaultKind → Text
  | .lexical => "lex error"
  | .grammar => "syntax error"
  | .unterminated => "unterminated construct"
  | .validation => "validation error"
  | .capabilityMismatch => "capability mismatch"
  | .descriptor => "invalid descriptor"
  | .literal => "invalid literal"
  | .listener => "visitor error"
  | .keyNotFound => "key not found"
  | .decrypt => "decrypt error"
  | .io => "i/o error"

end FaultKind

/-- A failure, with the place that it concerns. -/
structure Fault where
  /-- The sort of failure. -/
  kind : FaultKind
  /-- The explanation. -/
  details : Text
  /-- Where it happened; absent until someone who knows attaches it. -/
  position : Option Position
  deriving DecidableEq, Repr, Inhabited

namespace Fault

/-- A fault without a place. -/
def plain (kind : FaultKind) (details : Text) : Fault := ⟨kind, details, none⟩

/-- A fault at a place. -/
def located (kind : FaultKind) (position : Position) (details : Text) : Fault :=
  ⟨kind, details, some position⟩

/-- Attaches a place. The first place attached stays. -/
def attach (position : Position) (fault : Fault) : Fault :=
  { fault with position := some (fault.position.getD position) }

/-- The displayed form: kind, place if there is one, explanation. -/
def display (fault : Fault) : Text :=
  fault.kind.title ++
    (match fault.position with
      | some p => " at " ++ p.text
      | none => []) ++
    ": " ++ fault.details

end Fault

end Smali
