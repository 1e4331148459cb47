import Smali.Fault
import Smali.FileTree.Path

/-!
# File systems

A file system is a file tree in which someone stands in a folder, the home. Paths
are followed step by step: every step but the last must end in a folder that is
there, so `a/../b` leads nowhere unless `a` is a folder.

Folders are made one by one along a path. When a file is in the way, the folders
before it stay.
-/

namespace Smali

/-- A file tree, and the folder where paths start. -/
structure FileSystem where
  /-- All there is, from the top. -/
  top : FileTree
  /-- The folder where paths start that are not rooted. -/
  home : Place
  deriving Repr

/-- Where a step leads that is taken at a place. -/
def FileTree.step? (tree : FileTree) (place : Place) : Step → Option Place
  | .stay => (tree.folder? place).map fun _ => place
  | .up => (tree.folder? place).map fun _ => place.dropLast
  | .into name => (tree.at? (place ++ [name])).map fun _ => place ++ [name]

/-- Whether a folder can have an entry of this name: the name takes at most 255
bytes. -/
def FileTree.isEntryName (name : Text) : Bool := (encodeText name).length ≤ 255

/-- The tree with the folders made that are missing along some steps, up to the
first step that cannot be taken. -/
def FileTree.makeAlong (tree : FileTree) (place : Place) : List Step → FileTree
  | [] => tree
  | step :: rest =>
    match tree.step? place step, step with
    | some next, _ => tree.makeAlong next rest
    | none, .into name =>
      if isEntryName name then
        match tree.put? (place ++ [name]) .empty with
        | some tree => tree.makeAlong (place ++ [name]) rest
        | none => tree
      else tree
    | none, _ => tree

namespace FileSystem

/-- A file system that has no files, and no folders but those on the way home. -/
def blank (home : Place) : FileSystem :=
  ⟨FileTree.empty.makeAlong [] (home.map .into), home⟩

/-- The place where a path starts. -/
def start (s : FileSystem) (p : Path) : Place := if p.rooted then [] else s.home

/-- The place that a path leads to, if something is there. -/
def resolve? (s : FileSystem) (p : Path) : Option Place :=
  if p.isLegal then p.walk.foldlM s.top.step? (s.start p) else none

/-- What a path leads to. -/
def at? (s : FileSystem) (p : Path) : Option FileTree := (s.resolve? p).bind s.top.at?

/-- Whether a path leads to something. -/
def has (s : FileSystem) (p : Path) : Bool := (s.at? p).isSome

/-- The entries of the folder that a path leads to. -/
def folder? (s : FileSystem) (p : Path) : Option (List (Text × FileTree)) :=
  (s.resolve? p).bind s.top.folder?

/-- The bytes of the file that a path leads to. -/
def bytes? (s : FileSystem) (p : Path) : Option (List UInt8) :=
  (s.resolve? p).bind s.top.bytes?

/-- The text of the file that a path leads to, if its bytes are UTF-8. -/
def text? (s : FileSystem) (p : Path) : Option Text :=
  (s.bytes? p).bind FileTree.decodeText?

/-- The file system with a file put where a path leads, in a folder that is there.
A file of the name is replaced, a folder is not. -/
def put? (s : FileSystem) (p : Path) (bytes : List UInt8) : Option FileSystem := do
  let name ← p.name?
  let place := (← s.resolve? p.parent) ++ [name]
  if p.isLegal && FileTree.isEntryName name && (s.top.folder? place).isNone then
    let top ← s.top.put? place (.file bytes)
    return { s with top }
  else none

/-- Makes the folders that are missing along a path. A last step that stays where
it is makes no folder to stay in. -/
def makeFolders (s : FileSystem) (p : Path) : Except Fault Unit × FileSystem :=
  let steps := if p.steps.getLast? = some .stay then p.moves.dropLast else p.moves
  let s := if p.isLegal then { s with top := s.top.makeAlong (s.start p) steps } else s
  (if (s.folder? p).isSome then .ok () else .error (.plain .io "the folder cannot be made"), s)

/-- Puts a file where a path leads, after the folders that lead there. -/
def store (s : FileSystem) (p : Path) (bytes : List UInt8) : Except Fault Unit × FileSystem :=
  match s.makeFolders p.parent with
  | (.error fault, s) => (.error fault, s)
  | (.ok (), s) =>
    match s.put? p bytes with
    | some s => (.ok (), s)
    | none => (.error (.plain .io "the file cannot be written"), s)

end FileSystem

end Smali
