import Smali.Text.Digits
import Smali.Text.Utf16

/-!
# Quoted literals and their escapes

Between its quotes a literal holds characters and escapes: a backslash with a
letter, a quote or a backslash, or `\u` with four hexadecimal digits that give
one UTF-16 unit. `escape` writes a text so that only printable ASCII remains,
`unescape` resolves a body, and `takeQuoted?` finds the quote that closes one.
-/

namespace Smali.Literal

/-- Why a body cannot be resolved. -/
inductive EscapeFlaw where
  /-- The body ends behind a backslash. -/
  | dangling (body : Text)
  /-- The escape `\u` without a unit behind it. -/
  | badUnit (digits : Text)
  /-- A surrogate without its partner. -/
  | unpaired (unit : Nat)
  /-- A backslash with a letter that means nothing. -/
  | unknown (letter : Char)
  deriving DecidableEq, Repr

/-- The wording of a refusal. -/
def EscapeFlaw.message : EscapeFlaw → Text
  | .dangling body => "dangling escape in '" ++ body ++ "'"
  | .badUnit digits => "bad unicode escape '\\u" ++ digits ++ "'"
  | .unpaired unit => "unpaired surrogate 0x" ++ Text.hex unit
  | .unknown letter => "unknown escape '\\" ++ [letter] ++ "'"

/-- The character of an escape that is a backslash and one letter. -/
def simpleEscape? : Char → Option Char
  | 'n' => some '\n'
  | 'r' => some '\r'
  | 't' => some '\t'
  | 'b' => some '\x08'
  | 'f' => some '\x0c'
  | '"' => some '"'
  | '\'' => some '\''
  | '\\' => some '\\'
  | _ => none

/-- The letter of the escape that a character is written with, if it has one. -/
def escapeLetter? : Char → Option Char
  | '\n' => some 'n'
  | '\r' => some 'r'
  | '\t' => some 't'
  | '\x08' => some 'b'
  | '\x0c' => some 'f'
  | '\\' => some '\\'
  | '"' => some '"'
  | '\'' => some '\''
  | _ => none

/-- A printable ASCII character, the space included. -/
def isPrintable (c : Char) : Bool := ' ' ≤ c && c ≤ '~'

/-- The escape of one UTF-16 unit. -/
def unitEscape (unit : Nat) : Text := '\\' :: 'u' :: Text.hexWidth 4 unit

/-- The written form of one character inside quotes. -/
def escapeChar (c : Char) : Text :=
  match escapeLetter? c with
  | some letter => ['\\', letter]
  | none => if isPrintable c then [c] else ((Text.Utf16.encode c).map unitEscape).flatten

/-- The written form of a text inside quotes. Both quotes are escaped. -/
def escape (t : Text) : Text := (t.map escapeChar).flatten

/-- The unit that four characters denote: hexadecimal digits, or a plus sign and
three of them. -/
def unit? (digits : Text) : Option Nat :=
  if digits.length = 4 then Text.hex? (Text.dropPlus digits) else none

/-- Decodes a run of units. -/
def closeRun (units : List Nat) : Except EscapeFlaw Text :=
  (Text.Utf16.decode units.reverse).mapError .unpaired

/-- Resolves the rest of a body behind a run of units, the last unit first. A run
ends at the first thing that is no `\u` escape. -/
def resolve (body : Text) : List Nat → Text → Except EscapeFlaw Text
  | run, [] => closeRun run
  | run, '\\' :: 'u' :: a :: b :: c :: d :: rest =>
    match unit? [a, b, c, d] with
    | some unit => resolve body (unit :: run) rest
    | none => .error (.badUnit [a, b, c, d])
  | _, '\\' :: 'u' :: rest => .error (.badUnit rest)
  | _, ['\\'] => .error (.dangling body)
  | run, '\\' :: letter :: rest => do
    let before ← closeRun run
    match simpleEscape? letter with
    | some c => return before ++ c :: (← resolve body [] rest)
    | none => throw (.unknown letter)
  | run, c :: rest => do
    let before ← closeRun run
    return before ++ c :: (← resolve body [] rest)

/-- The text that a body denotes. -/
def unescape (body : Text) : Except EscapeFlaw Text := resolve body [] body

/-- A character that may stand behind a backslash in a quoted literal. -/
def isEscapeLetter (c : Char) : Bool := c == 'u' || (simpleEscape? c).isSome

/-- The body up to the first quote outside escapes, and what follows that quote. -/
def takeBody? (quote : Char) : Text → Option (Text × Text)
  | [] => none
  | ['\\'] => none
  | '\\' :: letter :: rest =>
    if isEscapeLetter letter then
      (takeBody? quote rest).map fun (body, after) => ('\\' :: letter :: body, after)
    else none
  | c :: rest =>
    if c = quote then some ([], rest)
    else (takeBody? quote rest).map fun (body, after) => (c :: body, after)

/-- The end of a quoted literal is nearer to the end of the text. -/
theorem length_takeBody? {quote : Char} {t body after : Text}
    (h : takeBody? quote t = some (body, after)) : after.length < t.length := by
  fun_induction takeBody? quote t generalizing body with
  | case1 => simp at h
  | case2 => simp at h
  | case3 letter rest _ ih =>
    cases hr : takeBody? quote rest with
    | none => simp [hr] at h
    | some found =>
      obtain ⟨b, a⟩ := found
      simp only [hr, Option.map_some, Option.some.injEq, Prod.mk.injEq] at h
      have : after.length < rest.length := @ih b (by rw [hr, h.2])
      simp only [List.length_cons]
      omega
  | case4 => simp at h
  | case5 rest _ _ =>
    simp only [Option.some.injEq, Prod.mk.injEq] at h
    simp [h.2]
  | case6 c rest _ _ _ ih =>
    cases hr : takeBody? quote rest with
    | none => simp [hr] at h
    | some found =>
      obtain ⟨b, a⟩ := found
      simp only [hr, Option.map_some, Option.some.injEq, Prod.mk.injEq] at h
      have : after.length < rest.length := @ih b (by rw [hr, h.2])
      simp only [List.length_cons]
      omega

/-- The body of the quoted literal at the start of a text, and what follows it. -/
def takeQuoted? (quote : Char) : Text → Option (Text × Text)
  | [] => none
  | c :: rest => if c = quote then takeBody? quote rest else none

/-- The body of a quoted literal that is the whole text. -/
def quotedBody? (quote : Char) (t : Text) : Option Text :=
  match takeQuoted? quote t with
  | some (body, []) => some body
  | _ => none

end Smali.Literal
