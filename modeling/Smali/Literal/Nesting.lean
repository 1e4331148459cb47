import Smali.Text.Basic

/-!
# Braces and commas outside quotes

A scan through a text knows at each character whether it stands inside a quoted
literal. Only braces and commas outside quotes count: the depth of a text is its
opening braces less its closing ones, and the elements of a list are what stands
between the commas at depth zero.
-/

namespace Smali.Literal

/-- Where a scan stands. -/
inductive Quoting where
  /-- Outside quotes. -/
  | outside
  /-- Between a quote and its partner. -/
  | inside (quote : Char)
  /-- Behind a backslash between quotes. -/
  | escaped (quote : Char)
  deriving DecidableEq, Repr

namespace Quoting

/-- The step over one character. -/
def next : Quoting → Char → Quoting
  | .outside, c => if c = '"' ∨ c = '\'' then .inside c else .outside
  | .inside quote, c =>
    if c = '\\' then .escaped quote else if c = quote then .outside else .inside quote
  | .escaped quote, _ => .inside quote

/-- The change of depth at one character. -/
def weight : Quoting → Char → Int
  | .outside, '{' => 1
  | .outside, '}' => -1
  | _, _ => 0

end Quoting

/-- The depth that a text adds, read on from a place in a scan. -/
def depthFrom : Quoting → Text → Int
  | _, [] => 0
  | q, c :: rest => q.weight c + depthFrom (q.next c) rest

/-- Opening less closing braces outside quotes. -/
def braceDepth (t : Text) : Int := depthFrom .outside t

/-- The parts between commas at depth zero, as they stand. -/
def partsFrom : Quoting → Int → Text → List Text
  | _, _, [] => [[]]
  | q, depth, c :: rest =>
    let parts := partsFrom (q.next c) (depth + q.weight c) rest
    if c = ',' ∧ q = .outside ∧ depth = 0 then [] :: parts
    else
      match parts with
      | [] => [[c]]
      | part :: more => (c :: part) :: more

/-- The elements of a list: the parts without blanks around them, empty ones
left out. -/
def splitElements (t : Text) : List Text :=
  ((partsFrom .outside 0 t).map Text.trim).filter (!·.isEmpty)

end Smali.Literal
