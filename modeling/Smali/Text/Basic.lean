/-!
# Texts

A text is a list of characters. This module holds the operations that the line
formats share: trimming, splitting into lines and words, and cutting a text at
the first or the last place where a mark stands. Blank characters are those of
the Unicode property White_Space.
-/

namespace Smali

/-- A text, as the list of its Unicode scalar values. -/
abbrev Text := List Char

/-- String literals serve as texts. -/
instance : Coe String Text := ⟨String.toList⟩

namespace Text

/-- Membership in the Unicode property White_Space. -/
def isBlank (c : Char) : Bool :=
  let n := c.toNat
  (0x9 ≤ n && n ≤ 0xD) || n == 0x20 || n == 0x85 || n == 0xA0 || n == 0x1680 ||
    (0x2000 ≤ n && n ≤ 0x200A) || n == 0x2028 || n == 0x2029 || n == 0x202F ||
    n == 0x205F || n == 0x3000

/-- The text without the blank characters at its start. -/
def trimLeft (t : Text) : Text := t.dropWhile isBlank

/-- The text without the blank characters at its end. -/
def trimRight (t : Text) : Text := (t.reverse.dropWhile isBlank).reverse

/-- The text without the blank characters at either end. -/
def trim (t : Text) : Text := trimRight (trimLeft t)

/-- Whether some character of the text is blank. -/
def hasBlank (t : Text) : Bool := t.any isBlank

/-- The lines of a text. A line feed ends a line, one carriage return before it
belongs to the line end, and nothing follows a final line end. -/
def lines : Text → List Text
  | [] => []
  | '\n' :: rest => [] :: lines rest
  | '\r' :: '\n' :: rest => [] :: lines rest
  | c :: rest =>
    match lines rest with
    | [] => [[c]]
    | line :: more => (c :: line) :: more

/-- The maximal runs of characters that are not blank. -/
def words (t : Text) : List Text := (t.splitOnP isBlank).filter (!·.isEmpty)

/-- What follows a mark that stands at the start of the text. -/
def after? : Text → Text → Option Text
  | [], t => some t
  | _ :: _, [] => none
  | m :: mark, c :: t => if m = c then after? mark t else none

/-- Whether the text starts with the mark. -/
def startsWith (t mark : Text) : Bool := (after? mark t).isSome

/-- The two sides of the first character that satisfies `p`. -/
def cut? (p : Char → Bool) : Text → Option (Text × Text)
  | [] => none
  | c :: rest =>
    if p c then some ([], rest) else (cut? p rest).map fun (before, after) => (c :: before, after)

/-- The two sides of the last character that satisfies `p`. -/
def cutLast? (p : Char → Bool) : Text → Option (Text × Text)
  | [] => none
  | c :: rest =>
    match cutLast? p rest with
    | some (before, after) => some (c :: before, after)
    | none => if p c then some ([], rest) else none

/-- The two sides of the first place where the mark stands. -/
def cutAt? (mark : Text) : Text → Option (Text × Text)
  | [] => (after? mark []).map fun after => ([], after)
  | c :: rest =>
    match after? mark (c :: rest) with
    | some after => some ([], after)
    | none => (cutAt? mark rest).map fun (before, after) => (c :: before, after)

/-- Every occurrence of one character replaced by another. -/
def swap (old new : Char) (t : Text) : Text := t.map fun c => if c = old then new else c

/-- The text repeated `n` times. -/
def times (n : Nat) (t : Text) : Text := (List.replicate n t).flatten

end Text

end Smali
