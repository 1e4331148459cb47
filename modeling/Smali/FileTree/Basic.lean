import Smali.Text.Listing

/-!
# File trees

A file tree is a file with its bytes, or a folder that lists what is in it by
name. A place in a tree is the list of names that lead there from the top. Text
in a file is UTF-8.
-/

namespace Smali

/-- A file, or a folder with its entries in the order of their names. -/
inductive FileTree where
  /-- A file, by its bytes. -/
  | file (bytes : List UInt8)
  /-- A folder. -/
  | folder (entries : List (Text × FileTree))
  deriving Repr, Inhabited

/-- The names that lead to a place in a tree, from the top. -/
abbrev Place := List Text

namespace FileTree

/-- A folder without entries. -/
def empty : FileTree := .folder []

/-- What is at a place. -/
def at? : FileTree → Place → Option FileTree
  | tree, [] => some tree
  | .folder entries, name :: rest =>
    match entries.lookup name with
    | some next => next.at? rest
    | none => none
  | .file _, _ :: _ => none

/-- The entries of the folder at a place. -/
def folder? (tree : FileTree) (place : Place) : Option (List (Text × FileTree)) :=
  match tree.at? place with
  | some (.folder entries) => some entries
  | _ => none

/-- The bytes of the file at a place. -/
def bytes? (tree : FileTree) (place : Place) : Option (List UInt8) :=
  match tree.at? place with
  | some (.file bytes) => some bytes
  | _ => none

/-- The tree with an item at a place, in a folder that is there. What had the
name before is replaced. -/
def put? : FileTree → Place → FileTree → Option FileTree
  | .folder entries, [name], item => some (.folder (Listing.insert name item entries))
  | .folder entries, name :: rest, item => do
    let next ← put? (← entries.lookup name) rest item
    return .folder (Listing.insert name next entries)
  | _, _, _ => none

/-- An item that was put at a place is there. -/
theorem at?_put? {tree new item : FileTree} {place : Place}
    (h : tree.put? place item = some new) : new.at? place = some item := by
  fun_induction put? tree place item generalizing new with
  | case1 entries item name =>
    obtain rfl := Option.some.inj h
    simp only [at?, Listing.lookup_insert]
  | case2 entries item name rest _ ih =>
    simp only [Option.bind_eq_bind, Option.bind_eq_some_iff, Option.pure_def,
      Option.some.injEq] at h
    obtain ⟨next, hn, later, hl, rfl⟩ := h
    simp only [at?, Listing.lookup_insert]
    exact ih next hl
  | case3 => exact nomatch h

/-- The bytes of a text. -/
def encodeText (t : Text) : List UInt8 := (String.ofList t).toUTF8.toList

/-- The text that some bytes are the UTF-8 form of. -/
def decodeText? (bytes : List UInt8) : Option Text :=
  (String.fromUTF8? ⟨bytes.toArray⟩).map String.toList

end FileTree

end Smali
