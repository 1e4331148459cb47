import Smali.FileTree.System
import Smali.Reader.Run

/-!
# Reading a file
-/

namespace Smali

/-- Reads the file that a path leads to, and tells a listener of it. Nothing is
told of a file that cannot be read. -/
def readFrom {σ κ : Type} (o : Options) (L : Listener σ κ) (root : κ) (state : σ)
    (files : FileSystem) (path : Text) : Except Fault Unit × Desk σ κ :=
  match files.text? (.ofText path) with
  | some source => read o L root state source
  | none =>
    (.error (.plain .io ("unable to read " ++ path ++ ": no text is there")),
      .initial root state)

end Smali
