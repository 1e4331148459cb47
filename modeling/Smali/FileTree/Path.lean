import Smali.FileTree.Basic

/-!
# Paths

A path is the written way to a place: steps that are parted by slashes, taken one
after the other. A path that begins with a slash starts at the top of the tree,
any other in the folder where one stands. Two dots step up, one dot stays, and a
slash at the end says that the path leads to a folder.
-/

namespace Smali

/-- One step of a path, taken in a folder. -/
inductive Step where
  /-- Stay in the folder. -/
  | stay
  /-- Go up to the folder that holds this one. -/
  | up
  /-- Go to what has a name in this folder. -/
  | into (name : Text)
  deriving DecidableEq, Repr

namespace Step

/-- The step that stands between two slashes, if anything does. -/
def ofPart? : Text → Option Step
  | [] => none
  | ['.'] => some .stay
  | ['.', '.'] => some .up
  | name => some (.into name)

/-- How many bytes the written form of a step takes. -/
def size : Step → Nat
  | .stay => 1
  | .up => 2
  | .into name => (FileTree.encodeText name).length

end Step

/-- A way to a place. -/
structure Path where
  /-- Whether the way starts at the top. -/
  rooted : Bool
  /-- The steps of the way. -/
  steps : List Step
  /-- Whether the written form ends with a slash. -/
  slashed : Bool
  deriving DecidableEq, Repr

namespace Path

/-- The path of a written form. -/
def ofText (t : Text) : Path where
  rooted := t.head? = some '/'
  steps := (t.splitOnP (· == '/')).filterMap Step.ofPart?
  slashed := t.getLast? = some '/'

/-- The steps to take. A slash at the end stays in the folder. -/
def walk (p : Path) : List Step := if p.slashed then p.steps ++ [.stay] else p.steps

/-- The steps with those left out that stay in a folder. -/
def moves (p : Path) : List Step := p.steps.filter (· ≠ .stay)

/-- The path without its last move, which leads to a folder. -/
def parent (p : Path) : Path := ⟨p.rooted, p.moves.dropLast, false⟩

/-- The name that a path ends in. A path that ends in a slash or in dots has none. -/
def name? (p : Path) : Option Text :=
  match p.slashed, p.steps.getLast? with
  | false, some (.into name) => some name
  | _, _ => none

/-- How many bytes a path takes, with a slash before each step. -/
def size (p : Path) : Nat := (p.steps.map fun step => step.size + 1).foldr (· + ·) 0

/-- Whether a path can be followed at all: it is less than 4096 bytes long, and no
name on it has a null character. -/
def isLegal (p : Path) : Bool :=
  p.size < 4096 && p.steps.all fun
    | .into name => name.all (· ≠ '\x00')
    | _ => true

/-- The written form of a place below the folder that a written path leads to. The
path keeps its spelling, but a path that is not rooted drops the dots and slashes
before its first move. -/
def below (t : Text) (place : Place) : Text :=
  let shown :=
    if (ofText t).rooted then t
    else ['/'].intercalate <|
      (t.splitOnP (· == '/')).dropWhile fun part => part = [] ∨ part = ['.']
  let mark : Text := if shown = [] ∨ shown.getLast? = some '/' then [] else ['/']
  shown ++ mark ++ ['/'].intercalate place

end Path

end Smali
