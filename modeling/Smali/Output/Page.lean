import Smali.Text.Basic

/-!
# Pages

A page takes lines one after another. The last line stays open until the next
one starts, so that a comment can still be put behind it.
-/

namespace Smali

/-- Text that grows at its end. -/
structure Page where
  /-- All characters so far, the latest first. -/
  written : Text
  /-- Whether the last line has no line end yet. -/
  isOpen : Bool
  deriving DecidableEq, Repr, Inhabited

namespace Page

/-- A page without text. -/
def blank : Page := ⟨[], false⟩

/-- The blanks in front of a line at some level of nesting. -/
def indent (level : Nat) : Text := Text.times level "    "

/-- A comment as it is written. -/
def comment (text : Text) : Text := if text.isEmpty then ['#'] else '#' :: ' ' :: text

/-- Text behind what is written. -/
def append (p : Page) (text : Text) : Page := { p with written := text.reverseAux p.written }

/-- Ends the last line. -/
def close (p : Page) : Page := if p.isOpen then ⟨'\n' :: p.written, false⟩ else p

/-- Starts a line. -/
def line (p : Page) (level : Nat) (text : Text) : Page :=
  { (p.close.append (indent level)).append text with isOpen := true }

/-- Starts a line for each of several texts. -/
def stack (p : Page) (level : Nat) (texts : List Text) : Page :=
  texts.foldl (fun p text => p.line level text) p

/-- Puts a comment behind the open line, or on a line of its own if none is open. -/
def eolComment (p : Page) (level : Nat) (text : Text) : Page :=
  if p.isOpen then p.append (' ' :: comment text) else p.line level (comment text)

/-- Adds a line without text. -/
def skip (p : Page) : Page := { p.close with written := '\n' :: p.close.written }

/-- Whether no character is written. -/
def isEmpty (p : Page) : Bool := p.written.isEmpty

/-- All text, with a line end behind the last line. -/
def contents (p : Page) : Text := p.close.written.reverse

end Page

end Smali
