import Smali.FileTree.System

/-!
# Sources in a folder

The sources in a folder are the files below it whose names end in `.smali`. They
are listed in the order of their places, name by name: those of a folder are put
in order once those of all its entries are there.
-/

namespace Smali

namespace FileTree

/-- What follows the last dot of a name, if something stands before that dot. -/
def extension? (name : Text) : Option Text :=
  match Text.cutLast? (· == '.') name with
  | some (_ :: _, after) => some after
  | _ => none

/-- Whether a file of this name is a source. -/
def isSourceName (name : Text) : Bool := extension? name = some "smali".toList

/-- Places in order: name by name, by the first different name. -/
def inOrder (places : List Place) : List Place :=
  places.mergeSort fun p q => !q.lex p Text.before

mutual

/-- The places of all sources in what stands under a name. -/
def sourcesUnder (name : Text) : FileTree → List Place
  | .file _ => if isSourceName name then [[name]] else []
  | .folder entries => (inOrder (sourcesAmong entries)).map (name :: ·)

/-- The places of all sources in some entries and below them, entry by entry. -/
def sourcesAmong : List (Text × FileTree) → List Place
  | [] => []
  | (name, tree) :: rest => sourcesUnder name tree ++ sourcesAmong rest

end

/-- The places of all sources below a folder with these entries, in order. Entries
may be listed in any order. -/
def sources (entries : List (Text × FileTree)) : List Place := inOrder (sourcesAmong entries)

end FileTree

/-- The paths of all sources below the folder that a path leads to. -/
def FileSystem.findSources (s : FileSystem) (path : Text) : Except Fault (List Text) :=
  match s.folder? (.ofText path) with
  | some entries => .ok ((FileTree.sources entries).map (Path.below path))
  | none => .error (.plain .io "the folder cannot be listed")

end Smali
