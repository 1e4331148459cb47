import Smali.Descriptor.Parse
import Smali.Literal.Escape
import Smali.Literal.Numeral
import Smali.Line.Basic

/-!
# Scanning lines

A line falls into quoted literals, punctuation and words, with blanks between
them, up to the number sign that opens a comment. A word is classified by its
first characters. Two things are refused: a quote without its partner, and a
word that starts like a number and is none.
-/

namespace Smali

/-- A character that ends a word. -/
def endsWord (c : Char) : Bool :=
  Text.isBlank c || c == '\x7b' || c == '\x7d' || c == ',' || c == '=' || c == '"' || c == '#'

/-- A character that is a token of its own. -/
def isMark (c : Char) : Bool := c == '\x7b' || c == '\x7d' || c == ',' || c == '='

/-- Whether a word starts with a digit, or with a sign and a digit. -/
def startsLikeNumber : Text → Bool
  | '-' :: c :: _ | '+' :: c :: _ => Text.isDigit c
  | c :: _ => Text.isDigit c
  | [] => false

/-- Whether a word is a directive: a point and a letter. -/
def isDirectiveWord : Text → Bool
  | '.' :: c :: _ => Text.isLetter c
  | _ => false

/-- Whether a word spells a type that is an object or an array. -/
def isReferenceType (word : Text) : Bool :=
  (word.head? = some 'L' || word.head? = some '[') && (TypeName.parse? word).isSome

/-- The sort of a word. Names of members may start with a digit, so a word with a
colon or a parenthesis need not be a number. -/
def classify (word : Text) (position : Position) : Except Fault TokenKind :=
  if word = ['.', '.'] ∨ word = ['-', '>'] then .ok .punctuation
  else if isDirectiveWord word then .ok .directive
  else if startsLikeNumber word && Literal.isNumeral word then .ok .numericLiteral
  else if startsLikeNumber word && !word.contains ':' && !word.contains '(' then
    .error (.located .lexical position ("malformed numeric literal '" ++ word ++ "'"))
  else if isReferenceType word then .ok .typeDescriptor
  else .ok .identifier

/-- What a scan finds from some place in a line on. -/
structure Scanned where
  /-- The code tokens. -/
  code : List Token
  /-- The characters before the comment. -/
  text : Text
  /-- The comment from its number sign on. -/
  remark : Option (Text × Position)

namespace Scanned

/-- Nothing. -/
def nothing : Scanned := ⟨[], [], none⟩

/-- A blank in front. -/
def skip (c : Char) (s : Scanned) : Scanned := { s with text := c :: s.text }

/-- A token in front. -/
def push (kind : TokenKind) (text : Text) (position : Position) (s : Scanned) : Scanned :=
  { s with code := ⟨kind, text, position⟩ :: s.code, text := text ++ s.text }

end Scanned

/-- Scans the rest of a line from a column on. -/
def scan (number : Nat) (column : Nat) (t : Text) : Except Fault Scanned :=
  match t with
  | [] => .ok .nothing
  | c :: rest =>
    let position : Position := ⟨number, column⟩
    if Text.isBlank c then (scan number (column + 1) rest).map (.skip c)
    else if c = '#' then .ok ⟨[], [], some (c :: rest, position)⟩
    else if c = '"' ∨ c = '\'' then
      match h : Literal.takeBody? c rest with
      | some (body, after) =>
        have := Literal.length_takeBody? h
        let text := c :: body ++ [c]
        let kind : TokenKind := if c = '"' then .stringLiteral else .charLiteral
        (scan number (column + text.length) after).map (.push kind text position)
      | none =>
        .error (.located .lexical position ("unterminated or malformed literal " ++ c :: rest))
    else if isMark c then
      (scan number (column + 1) rest).map (.push .punctuation [c] position)
    else
      let word := c :: rest.takeWhile (!endsWord ·)
      have := (List.dropWhile_suffix (l := rest) (!endsWord ·)).length_le
      match classify word position with
      | .ok kind =>
        (scan number (column + word.length) (rest.dropWhile (!endsWord ·))).map
          (.push kind word position)
      | .error fault => .error fault
termination_by t.length

/-- The line of a physical line that is not blank, with its number. -/
def Line.ofText (number : Nat) (t : Text) : Except Fault Line :=
  (scan number 1 t).map fun s =>
    let remark := s.remark.map fun (text, position) =>
      (⟨if s.code.isEmpty then .comment else .eolComment, text, position⟩ : Token)
    ⟨s.code, Text.trim s.text, remark,
      match s.code, remark with
      | first :: _, _ => first.position
      | [], some r => r.position
      | [], none => ⟨number, 1⟩⟩

/-- The physical lines of a source that are not blank, with their numbers. -/
def physicalLines (source : Text) : List (Nat × Text) :=
  ((Text.lines source).zipIdx 1).filterMap fun (t, number) =>
    if (Text.trim t).isEmpty then none else some (number, t)

/-- Every line of a source that is not blank, or the fault that keeps it from
being scanned. -/
def scanLines (source : Text) : List (Except Fault Line) :=
  (physicalLines source).map fun (number, t) => Line.ofText number t

/-- All lines of a source, or the first fault. -/
def tokenize (source : Text) : Except Fault (List Line) := (scanLines source).mapM id

end Smali
