import Smali.Line.Scan
import Smali.Output.Writer
import Smali.Reader.Desk
import Smali.Reader.Step

/-!
# Reading a source

A source is read line by line; the whole reading is one dialogue. Conducted with
a writer it gives the source back in its canonical layout.
-/

namespace Smali

/-- Before the first line. -/
def Control.initial (o : Options) : Control := ⟨if o.snippet then .body else .start, [], []⟩

/-- The dialogue over the lines of a source, from some point on. -/
def Control.readLines (c : Control) : List (Except Fault Line) → Dialogue Unit
  | [] => c.finish
  | .error fault :: rest => do
    Dialogue.excuse fault
    c.readLines rest
  | .ok line :: rest => do
    let c ← c.take line
    c.readLines rest

/-- The dialogue over a source. -/
def dialogue (o : Options) (source : Text) : Dialogue Unit :=
  (Control.initial o).readLines (scanLines source)

/-- Reads a source and tells a listener of it, with the handle for the class. -/
def read {σ κ : Type} (o : Options) (L : Listener σ κ) (root : κ) (state : σ) (source : Text) :
    Except Fault Unit × Desk σ κ :=
  (dialogue o source).conduct o L (.initial root state)

/-- A source in its canonical layout. -/
def format (o : Options) (source : Text) : Except Fault Text :=
  match read o (Writer.listener .discard) Writer.root (.initial ()) source with
  | (.ok _, desk) => .ok desk.state.code
  | (.error fault, _) => .error fault

end Smali
