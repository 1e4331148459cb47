import Smali.Literal.Numeral
import Smali.Literal.Outline
import Smali.Literal.Value

/-!
# Reading values

A literal is either complete in itself or made of further literals: the elements
of an array, or those of a nested annotation. `Shape` is that first look at a
text, and `decode` goes on with the parts, each of which is shorter than the text.
-/

namespace Smali.Literal

/-- An infinity or a NaN, spelled out. The letter `d` may stand behind it, and `f`
makes it single precision. -/
def specialNumber? (negative : Bool) (body : Text) : Option Value :=
  let double (magnitude : Nat) : Option Value :=
    some (.double (UInt64.ofNat (Binary.Format.double.withSign negative magnitude)))
  let single (magnitude : Nat) : Option Value :=
    some (.float (UInt32.ofNat (Binary.Format.single.withSign negative magnitude)))
  if body = "Infinity".toList ∨ body = "Infinityd".toList then double Binary.Format.double.infinity
  else if body = "Infinityf".toList then single Binary.Format.single.infinity
  else if body = "NaN".toList ∨ body = "NaNd".toList then
    some (.double (UInt64.ofNat Binary.Format.double.quietNaN))
  else if body = "NaNf".toList then some (.float (UInt32.ofNat Binary.Format.single.quietNaN))
  else none

/-- The integer of a magnitude, of the type that the suffix names. -/
def integer? (wraps negative : Bool) (magnitude : Nat) : Option Char → Option Value
  | some 't' => (within? 8 wraps negative magnitude).map fun n => .byte (Int8.ofInt n)
  | some 's' => (within? 16 wraps negative magnitude).map fun n => .short (Int16.ofInt n)
  | some _ => (within? 64 wraps negative magnitude).map fun n => .long (Int64.ofInt n)
  | none => (within? 32 wraps negative magnitude).map fun n => .int (Int32.ofInt n)

/-- The power of ten that an exponent denotes. -/
def powerOf : Option (Bool × Text) → Int
  | none => 0
  | some (negative, digits) =>
    if negative then -(Text.valueIn 10 digits : Int) else Text.valueIn 10 digits

/-- The value of a numeral that was spelled `text`. -/
def Numeral.value (text : Text) : Numeral → Except Flaw Value
  | .hex negative digits suffix =>
    match integer? true negative (Text.valueIn 16 digits) suffix with
    | some value => .ok value
    | none => .error (.outOfRange text)
  | .decimal negative whole fraction power suffix =>
    let single := Binary.Format.single.ofDecimal negative whole (fraction.getD []) (powerOf power)
    let double := Binary.Format.double.ofDecimal negative whole (fraction.getD []) (powerOf power)
    if suffix = some 'f' then .ok (.float (UInt32.ofNat single))
    else if suffix = some 'd' then .ok (.double (UInt64.ofNat double))
    else if fraction.isSome ∨ power.isSome then
      if suffix.isNone then .ok (.double (UInt64.ofNat double)) else .error (.fractional text)
    else
      match integer? false negative (Text.valueIn 10 whole) suffix with
      | some value => .ok value
      | none => .error (.outOfRange text)

/-- The number that is the whole text, or nothing if the text is no number. -/
def number? (text : Text) : Except Flaw (Option Value) :=
  let (negative, body) := Numeral.takeSign text
  match specialNumber? negative body with
  | some value => .ok (some value)
  | none =>
    match Numeral.parse? text with
    | some numeral => (numeral.value text).map some
    | none => .ok none

/-- The reference that is the whole text: an owner, an arrow and a member. The
member is a method if it holds an opening parenthesis, and a field otherwise. -/
def reference (text : Text) : Except Flaw Value :=
  match Text.cutAt? "->" text with
  | none => .error (.reference text)
  | some (before, member) => do
    let owner ← (TypeName.parse before).mapError .descriptor
    match Text.cut? (· == '(') member with
    | some (name, after) =>
      let signature ← (Signature.parse ('(' :: after)).mapError .descriptor
      return .method owner name signature
    | none =>
      match Text.cutLast? (· == ':') member with
      | some ([], _) | none => throw (.reference text)
      | some (name, after) =>
        let type ← (TypeName.parse after).mapError .descriptor
        return .field owner name type

/-- The enum constant that is spelled as a field behind its keyword. -/
def enumeration (rest text : Text) : Except Flaw Value := do
  match ← reference rest with
  | .field owner name type => return .enumeration owner name type
  | _ => throw (.enumeration text)

/-- The text that a quoted literal denotes. -/
def quotedText (quote : Char) (text : Text) : Except Flaw Text :=
  match quotedBody? quote text with
  | some body => (unescape body).mapError .escape
  | none => .error (.quoted text)

/-- A literal that is complete in itself, by its first character. -/
def scalar (text : Text) : Except Flaw Value :=
  match text with
  | '"' :: _ => (quotedText '"' text).map .string
  | '\'' :: _ => do
    match ← quotedText '\'' text with
    | [c] => return .char c
    | _ => throw (.charCount text)
  | _ =>
    if (Text.cutAt? "->" text).isSome then reference text
    else do
      match ← number? text with
      | some value => return value
      | none =>
        match TypeName.parse? text with
        | some type => return .typeName type
        | none => throw (.unrecognised text)

/-- The first look at a literal. -/
inductive Shape where
  /-- Complete in itself. -/
  | leaf (result : Except Flaw Value)
  /-- An array of the literals with these texts. -/
  | array (elements : List Text)
  /-- A nested annotation with this outline. -/
  | annotated (type : TypeName) (outline : Outline)

/-- The outline of a nested annotation that spans the whole text. -/
def annotationShape (text : Text) : Shape :=
  match Text.codeLines text with
  | [] => .leaf (.error (.header []))
  | header :: rest =>
    match Text.after? opening header with
    | none => .leaf (.error (.header header))
    | some after =>
      match TypeName.parse (Text.trim after) with
      | .error flaw => .leaf (.error (.descriptor flaw))
      | .ok type => .annotated type (outline type.descriptor .none rest)

/-- The elements between the braces of an array that spans the whole text. -/
def arrayShape (text : Text) : Shape :=
  match text with
  | _ :: rest =>
    if rest.getLast? = some '}' then .array (splitElements rest.dropLast)
    else .leaf (.error (.openArray text))
  | [] => .leaf (.error (.openArray text))

/-- The shape of a literal without blanks around it. -/
def shape (text : Text) : Shape :=
  if text.isEmpty then .leaf (.error .empty)
  else if text = "null".toList then .leaf (.ok .null)
  else if text = "true".toList then .leaf (.ok (.bool true))
  else if text = "false".toList then .leaf (.ok (.bool false))
  else if text.startsWith opening then annotationShape text
  else
    match Text.after? ".enum" text with
    | some rest => .leaf (enumeration (Text.trim rest) text)
    | none => if text.head? = some '{' then arrayShape text else .leaf (scalar text)

/-- A part between commas is no longer than the text. -/
theorem length_of_mem_partsFrom {q : Quoting} {depth : Int} {t part : Text}
    (h : part ∈ partsFrom q depth t) : part.length ≤ t.length := by
  induction t generalizing q depth part with
  | nil =>
    simp only [partsFrom, List.mem_singleton] at h
    simp [h]
  | cons c t ih =>
    simp only [partsFrom] at h
    split at h
    · simp only [List.mem_cons] at h
      rcases h with rfl | h
      · simp
      · have := ih h
        simp only [List.length_cons]
        omega
    · split at h
      · simp only [List.mem_singleton] at h
        simp [h]
      · rename_i first more heq
        simp only [List.mem_cons] at h
        rcases h with rfl | h
        · have : first ∈ partsFrom (q.next c) (depth + q.weight c) t := by rw [heq]; simp
          have := ih this
          simp only [List.length_cons]
          omega
        · have : part ∈ partsFrom (q.next c) (depth + q.weight c) t := by rw [heq]; simp [h]
          have := ih this
          simp only [List.length_cons]
          omega

/-- An element is no longer than the list it stands in. -/
theorem length_of_mem_splitElements {t part : Text} (h : part ∈ splitElements t) :
    part.length ≤ t.length := by
  simp only [splitElements, List.mem_filter, List.mem_map] at h
  obtain ⟨⟨whole, hw, rfl⟩, _⟩ := h
  exact Nat.le_trans (Text.length_trim_le whole) (length_of_mem_partsFrom hw)

/-- The elements of an array are shorter than the array. -/
theorem length_of_array_shape {text part : Text} {parts : List Text}
    (hs : shape text = .array parts) (h : part ∈ parts) : part.length < text.length := by
  have ha : ∀ text, arrayShape text = .array parts → part.length < text.length := by
    intro text hs
    unfold arrayShape at hs
    split at hs
    · rename_i c rest
      split at hs
      · simp only [Shape.array.injEq] at hs
        have := length_of_mem_splitElements (hs ▸ h)
        simp only [List.length_dropLast, List.length_cons] at this ⊢
        omega
      · exact absurd hs (by simp)
    · exact absurd hs (by simp)
  unfold shape at hs
  repeat' split at hs
  all_goals first
    | exact absurd hs (by simp)
    | exact ha _ hs
    | skip
  unfold annotationShape at hs
  repeat' split at hs
  all_goals exact absurd hs (by simp)

/-- The elements of a nested annotation are shorter than the annotation. -/
theorem length_of_annotated_shape {text name value : Text} {type : TypeName} {o : Outline}
    (hs : shape text = .annotated type o) (h : (name, value) ∈ o.elements) :
    value.length < text.length := by
  have ha : ∀ text, annotationShape text = .annotated type o → value.length < text.length := by
    intro text hs
    unfold annotationShape at hs
    split at hs
    · exact absurd hs (by simp)
    · rename_i header rest heq
      have hr := Text.room_codeLines_le text
      split at hs
      · exact absurd hs (by simp)
      · rename_i after hh
        split at hs
        · exact absurd hs (by simp)
        · simp only [Shape.annotated.injEq] at hs
          have h1 := length_of_mem_outline (hs.2 ▸ h)
          have h2 := Text.length_after? hh
          simp only [heq, Text.room, Pending.room,
            show opening.length = 14 from rfl] at h1 h2 hr
          omega
  have hb : ∀ text, arrayShape text ≠ .annotated type o := by
    intro text hs
    unfold arrayShape at hs
    repeat' split at hs
    all_goals exact absurd hs (by simp)
  unfold shape at hs
  repeat' split at hs
  all_goals first
    | exact absurd hs (by simp)
    | exact ha _ hs
    | exact absurd hs (hb _)

/-- The value that a text denotes. Elements are read in order, and the first flaw
in reading order is reported. -/
def decode (t : Text) : Except Flaw Value :=
  match hs : shape (Text.trim t) with
  | .leaf result => result
  | .array parts => do
    let values ← parts.attach.mapM fun part =>
      have := length_of_array_shape hs part.2
      have := Text.length_trim_le t
      decode part.1
    return .array values
  | .annotated type o => do
    let elements ← o.elements.attach.mapM fun ⟨(name, value), h⟩ => do
      have := length_of_annotated_shape hs h
      have := Text.length_trim_le t
      return (name, ← decode value)
    match o.flaw with
    | some flaw => throw flaw
    | none => return .annotated type elements
termination_by t.length

end Smali.Literal
