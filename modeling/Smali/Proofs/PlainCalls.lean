import Smali.Proofs.Pieces
import Smali.Proofs.ReadableValues

/-!
# Plain calls

The calls about a class are plain if their names are identifiers, their types have descriptors and
their values are plain. What is quoted may be any text. A plain call has one written form, and it
is read back from it unless it says something that the written form has no place for: a value of
several lines in the line of a field, an annotation as the value of an element, a name or a
signature of a local variable without its type, or an instruction that is no line of code.
-/

namespace Smali

open Text

/-- Whether the names, the types and the values of a call are plain. -/
def Call.HasPlainParts : Call → Prop
  | .header type _ | .superType type | .implements type | .annotationStart _ type => type.IsPlain
  | .field name _ type initial =>
    name.IsIdentifier ∧ type.IsPlain ∧ type.isVoid = false ∧ ∀ v ∈ initial, v.IsPlain
  | .method name _ signature => name.IsMethodName ∧ signature.IsPlain
  | .registers count | .locals count | .line count => count < 0x100000000
  | .param register _ | .endLocal register | .restartLocal register => register.IsIdentifier
  | .label name => name.IsIdentifier
  | .catching exception first last handler =>
    exception.IsPlain ∧ first.IsIdentifier ∧ last.IsIdentifier ∧ handler.IsIdentifier
  | .catchAll first last handler =>
    first.IsIdentifier ∧ last.IsIdentifier ∧ handler.IsIdentifier
  | .localVariable register _ type _ => register.IsIdentifier ∧ ∀ t ∈ type, t.IsPlain
  | .value name v => name.IsIdentifier ∧ v.IsPlain
  | .subannotationStart name type => name.IsIdentifier ∧ type.IsPlain
  | _ => True

/-- Whether an element with the value is read back as one. -/
def Value.IsElement : Value → Prop
  | .annotated _ _ => False
  | v => v.IsReadable

/-- Whether a line in a method has no meaning of its own, so that its text is kept. -/
def Line.isKept (l : Line) : Bool :=
  match l.directive? with
  | none | some (.other _) => true
  | some .closing =>
    !(l.closes "method" || l.closes "param" || l.closes "local" || l.closes "field" ||
      l.closes "annotation" || l.closes "subannotation")
  | some _ => false

/-- Whether a text on a line of a method stands for the instruction with that text. -/
structure Text.IsInstruction (t : Text) : Prop where
  /-- It is one line. -/
  inline : IsInline t
  /-- It is not empty. -/
  ne_nil : t ≠ []
  /-- It is no label. -/
  first : t.head? ≠ some ':'
  /-- All of it is code without a meaning of its own. -/
  line : ∃ l, lineOf t = some l ∧ l.text = t ∧ l.isKept = true

/-- Whether the written form has a place for all that a call says. -/
def Call.IsReadable : Call → Prop
  | .field _ _ _ (some v) => v.IsInline
  | .localVariable _ name type signature => type = none → name = none ∧ signature = none
  | .instruction text => text.IsInstruction
  | .value _ v => v.IsElement
  | _ => True

end Smali
