import Smali.Text.Length
import Smali.Descriptor.Parse
import Smali.Literal.Escape
import Smali.Literal.Nesting

/-!
# Nested annotations as lines

A nested annotation is read line by line up to its closing line. An element is a
line with an equals sign; its value goes on over the lines behind it while a
nested annotation or an array that the first line opens is not closed. The
outline of an annotation holds the names with the texts of their values, and
the flaw that ends it early.
-/

namespace Smali.Literal

/-- Why a text is no literal. -/
inductive Flaw where
  /-- There is no text. -/
  | empty
  /-- The quotes do not match. -/
  | quoted (text : Text)
  /-- The body of a quoted literal cannot be resolved. -/
  | escape (flaw : EscapeFlaw)
  /-- A character literal with no character or several. -/
  | charCount (text : Text)
  /-- A type or a signature is malformed. -/
  | descriptor (flaw : DescriptorFlaw)
  /-- A reference without owner or name. -/
  | reference (text : Text)
  /-- An enum constant that is spelled like a method. -/
  | enumeration (text : Text)
  /-- An integer beyond its type. -/
  | outOfRange (text : Text)
  /-- An integer suffix behind a fraction or an exponent. -/
  | fractional (text : Text)
  /-- Nothing that literals start with. -/
  | unrecognised (text : Text)
  /-- An array without its closing brace. -/
  | openArray (text : Text)
  /-- A nested annotation without its opening line. -/
  | header (line : Text)
  /-- A line of a nested annotation without an equals sign. -/
  | element (line : Text)
  /-- A nested annotation as an element that is not closed. -/
  | openElement (name type : Text)
  /-- An array as an element that is not closed. -/
  | openElementArray (name type : Text)
  /-- A nested annotation that is not closed. -/
  | openAnnotationBody (type : Text)
  deriving DecidableEq, Repr

/-- The wording of a refusal. -/
def Flaw.message : Flaw → Text
  | .empty => "empty literal"
  | .quoted text => "malformed quoted literal " ++ text
  | .escape flaw => flaw.message
  | .charCount text => "char literal " ++ text ++ " must hold exactly one character"
  | .descriptor flaw => flaw.message
  | .reference text => "malformed member reference '" ++ text ++ "'"
  | .enumeration text => "malformed enum reference '" ++ text ++ "'"
  | .outOfRange text => "literal '" ++ text ++ "' is out of range"
  | .fractional text => "integer suffix on fractional literal '" ++ text ++ "'"
  | .unrecognised text => "unrecognised literal '" ++ text ++ "'"
  | .openArray text => "unterminated array literal '" ++ text ++ "'"
  | .header line => "malformed subannotation '" ++ line ++ "'"
  | .element line => "malformed subannotation element '" ++ line ++ "'"
  | .openElement name type =>
    "subannotation " ++ name ++ " in " ++ type ++ " is missing .end subannotation"
  | .openElementArray name type =>
    "unterminated array literal for " ++ name ++ " in " ++ type
  | .openAnnotationBody type => "subannotation " ++ type ++ " is missing .end subannotation"

/-- The word that opens a nested annotation. -/
def opening : Text := ".subannotation"

/-- The line that closes a nested annotation. -/
def closing : Text := ".end subannotation"

/-- Whether a line opens a nested annotation, on its own or as a value. -/
def opensAnnotation (line : Text) : Bool :=
  line.startsWith opening ||
    match Text.cut? (· == '=') line with
    | some (_, value) => (Text.trim value).startsWith opening
    | none => false

/-- Whether a line closes a nested annotation, commas behind it aside. -/
def closesAnnotation (line : Text) : Bool :=
  (line.reverse.dropWhile (· == ',')).reverse = closing

/-- An element whose value is not complete. -/
inductive Pending where
  /-- No element is open. -/
  | none
  /-- Inside nested annotations. -/
  | nested (name value : Text) (count : Nat)
  /-- Inside an array. -/
  | braces (name value : Text) (depth : Int)

/-- The elements of a nested annotation. -/
structure Outline where
  /-- Names and texts of values, in order. -/
  elements : List (Text × Text)
  /-- What is wrong behind the last element, if anything is. -/
  flaw : Option Flaw

/-- An outline with one more element in front. -/
def Outline.add (name value : Text) (o : Outline) : Outline :=
  { o with elements := (name, value) :: o.elements }

/-- The outline of the lines behind the opening line of an annotation of some type. -/
def outline (type : Text) : Pending → List Text → Outline
  | .none, [] => ⟨[], some (.openAnnotationBody type)⟩
  | .nested name _ _, [] => ⟨[], some (.openElement name type)⟩
  | .braces name _ _, [] => ⟨[], some (.openElementArray name type)⟩
  | .none, line :: rest =>
    if line = closing then ⟨[], Option.none⟩
    else
      match Text.cut? (· == '=') line with
      | Option.none => ⟨[], some (.element line)⟩
      | some (before, after) =>
        let name := Text.trim before
        let value := Text.trim after
        if opensAnnotation value then outline type (.nested name value 1) rest
        else if value.head? = some '{' ∧ 0 < braceDepth value then
          outline type (.braces name value (braceDepth value)) rest
        else (outline type .none rest).add name value
  | .nested name value count, line :: rest =>
    let value := value ++ '\n' :: line
    if opensAnnotation line then outline type (.nested name value (count + 1)) rest
    else if closesAnnotation line then
      if count ≤ 1 then (outline type .none rest).add name value
      else outline type (.nested name value (count - 1)) rest
    else outline type (.nested name value count) rest
  | .braces name value depth, line :: rest =>
    let value := value ++ '\n' :: line
    let depth := depth + braceDepth line
    if depth ≤ 0 then (outline type .none rest).add name value
    else outline type (.braces name value depth) rest

/-- The room of the value that is not complete. -/
def Pending.room : Pending → Nat
  | .none => 0
  | .nested _ value _ => value.length + 1
  | .braces _ value _ => value.length + 1

/-- The text of a value takes no more room than the lines it comes from. -/
theorem length_of_mem_outline {type : Text} {p : Pending} {ls : List Text} {name value : Text}
    (h : (name, value) ∈ (outline type p ls).elements) :
    value.length + 1 ≤ p.room + Text.room ls := by
  fun_induction outline type p ls with
  | case1 => simp at h
  | case2 => simp at h
  | case3 => simp at h
  | case4 rest => simp at h
  | case5 line rest _ hc => simp at h
  | case6 line rest _ before after hc name' value' ho ih =>
    have := ih h
    have h1 := Text.length_cut? hc
    have h2 : value'.length ≤ after.length := Text.length_trim_le after
    simp only [Pending.room, Text.room] at this ⊢
    omega
  | case7 line rest _ before after hc name' value' _ ho ih =>
    have := ih h
    have h1 := Text.length_cut? hc
    have h2 : value'.length ≤ after.length := Text.length_trim_le after
    simp only [Pending.room, Text.room] at this ⊢
    omega
  | case8 line rest _ before after hc name' value' _ _ ih =>
    have h1 := Text.length_cut? hc
    have h2 : value'.length ≤ after.length := Text.length_trim_le after
    simp only [Outline.add, List.mem_cons, Prod.mk.injEq] at h
    simp only [Pending.room, Text.room] at ih ⊢
    rcases h with ⟨_, rfl⟩ | h
    · omega
    · have := ih h
      omega
  | case9 name' value' count line rest value'' ho ih =>
    have := ih h
    simp only [Pending.room, Text.room, value'', List.length_append,
      List.length_cons] at this ⊢
    omega
  | case10 name' value' count line rest value'' _ _ _ ih =>
    simp only [Outline.add, List.mem_cons, Prod.mk.injEq] at h
    simp only [Pending.room, Text.room] at ih ⊢
    rcases h with ⟨_, rfl⟩ | h
    · simp only [value'', List.length_append, List.length_cons]
      omega
    · have := ih h
      omega
  | case11 name' value' count line rest value'' _ _ _ ih =>
    have := ih h
    simp only [Pending.room, Text.room, value'', List.length_append,
      List.length_cons] at this ⊢
    omega
  | case12 name' value' count line rest value'' _ _ ih =>
    have := ih h
    simp only [Pending.room, Text.room, value'', List.length_append,
      List.length_cons] at this ⊢
    omega
  | case13 name' value' depth line rest value'' depth' _ ih =>
    simp only [Outline.add, List.mem_cons, Prod.mk.injEq] at h
    simp only [Pending.room, Text.room] at ih ⊢
    rcases h with ⟨_, rfl⟩ | h
    · simp only [value'', List.length_append, List.length_cons]
      omega
    · have := ih h
      omega
  | case14 name' value' depth line rest value'' depth' _ ih =>
    have := ih h
    simp only [Pending.room, Text.room, value'', List.length_append,
      List.length_cons] at this ⊢
    omega

end Smali.Literal
