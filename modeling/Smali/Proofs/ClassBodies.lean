import Smali.Proofs.Insertions
import Smali.Proofs.SnippetCalls

/-!
# Snippets as bodies of classes

In the header of a class other directives may stand than among its members, and a snippet is read
as if its header were over. Lines that cannot be scanned and comments do not tell the two apart,
and the first line that opens a member ends the header. So a snippet that starts with a member is
read as the body of a class whose header is a single line: the calls come behind that of the header,
and the faults have the numbers of lines that stand one further down.
-/

namespace Smali

open scoped Dialogue.Laws

/-! ## Readers in the header and among the members -/

/-- Whether a directive opens a field, a method or an annotation of a class. -/
def Directive.opensBody (d : Directive) : Bool :=
  d = .field || d = .method || d = .annotationStart

namespace Control

/-- A comment where nothing is open is told, and leads nowhere else. -/
theorem take_comment {c : Control} (hframes : c.frames = []) {l : Line} {text : Text}
    (hl : l.comment? = some text) : c.take l = remarkClass text >>= fun _ => pure c := by
  rw [take_of_frames hframes, classLine, hl]

end Control

/-! ## Behind the line of a class -/

variable {σ κ : Type} {L : Listener σ κ}

/-- A snippet that starts with a line of the header is refused otherwise than in a class. -/
example :
    let diagnosed := fun (snippet : Bool) (source : String) =>
      (read ⟨false, snippet, false, .ignore⟩ (Recorder.listener .obliging) (Recorder.root .ofClass)
        .initial source.toList).2.diagnostics.length
    diagnosed true ".super Lb;" = 1 ∧ diagnosed false ".class La;\n.super Lb;" = 0 := by
  decide +kernel

end Smali
