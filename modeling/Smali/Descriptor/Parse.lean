import Smali.Descriptor.Basic

/-!
# Reading descriptors

A reader takes the descriptor at the start of a text and returns the type with
the text behind it. The parsers accept a whole text only. Declarations put a
member name in front: `name(params)result` for a method, `name:type` for a field.
-/

namespace Smali

/-- Why a descriptor or a declaration is refused. -/
inductive DescriptorFlaw where
  /-- The text is no type descriptor. -/
  | type (text : Text)
  /-- The text is no method descriptor. -/
  | method (text : Text)
  /-- The text is no method declaration. -/
  | methodDeclaration (text : Text)
  /-- The text is no field declaration. -/
  | fieldDeclaration (text : Text)
  /-- The field has type `void`. -/
  | voidField (name : Text)
  deriving DecidableEq, Repr

/-- The wording of a refusal. -/
def DescriptorFlaw.message : DescriptorFlaw → Text
  | .type text => "malformed type descriptor '" ++ text ++ "'"
  | .method text => "malformed method descriptor '" ++ text ++ "'"
  | .methodDeclaration text => "malformed method declaration '" ++ text ++ "'"
  | .fieldDeclaration text => "malformed field declaration '" ++ text ++ "'"
  | .voidField name => "field '" ++ name ++ "' cannot be void"

namespace TypeName

/-- Reads a primitive or an object type. -/
def takeElement? : Text → Option (TypeName × Text)
  | 'L' :: rest =>
    let name := rest.takeWhile isNameChar
    match rest.dropWhile isNameChar with
    | ';' :: after => if name.isEmpty then none else some (.object name, after)
    | _ => none
  | c :: rest => (Primitive.ofLetter? c).map fun kind => (.primitive kind, rest)
  | [] => none

/-- Reads any type but `void`. -/
def takeValueType? (t : Text) : Option (TypeName × Text) :=
  match (t.takeWhile (· == '[')).length with
  | 0 => takeElement? t
  | n + 1 => (takeElement? (t.dropWhile (· == '['))).map fun (element, after) =>
      (.array element (n + 1), after)

/-- Reads any type. -/
def take? : Text → Option (TypeName × Text)
  | 'V' :: rest => some (.void, rest)
  | t => takeValueType? t

/-- The type whose descriptor is the whole text. -/
def parse? (t : Text) : Option TypeName :=
  match take? t with
  | some (type, []) => some type
  | _ => none

/-- The type whose descriptor is the whole text, or the reason why there is none. -/
def parse (t : Text) : Except DescriptorFlaw TypeName :=
  match parse? t with
  | some type => .ok type
  | none => .error (.type t)

/-- An element reader leaves less than it was given. -/
theorem length_takeElement? {t : Text} {type : TypeName} {after : Text}
    (h : takeElement? t = some (type, after)) : after.length < t.length := by
  unfold takeElement? at h
  split at h
  · rename_i rest
    have hd : (rest.dropWhile isNameChar).length ≤ rest.length :=
      (List.dropWhile_suffix _).length_le
    split at h
    · rename_i tail heq
      dsimp only at h
      split at h
      · exact absurd h (by simp)
      · simp only [Option.some.injEq, Prod.mk.injEq] at h
        rw [heq] at hd
        simp only [List.length_cons, ← h.2] at hd ⊢
        omega
    · exact absurd h (by simp)
  · rename_i c rest _
    cases hk : Primitive.ofLetter? c with
    | none => simp [hk] at h
    | some kind =>
      simp only [hk, Option.map_some, Option.some.injEq, Prod.mk.injEq] at h
      simp only [List.length_cons, ← h.2]
      omega
  · exact absurd h (by simp)

/-- A type reader leaves less than it was given. -/
theorem length_takeValueType? {t : Text} {type : TypeName} {after : Text}
    (h : takeValueType? t = some (type, after)) : after.length < t.length := by
  unfold takeValueType? at h
  split at h
  · exact length_takeElement? h
  · rename_i n _
    have hd : (t.dropWhile (· == '[')).length ≤ t.length :=
      (List.dropWhile_suffix _).length_le
    cases he : takeElement? (t.dropWhile (· == '[')) with
    | none => simp [he] at h
    | some found =>
      simp only [he, Option.map_some, Option.some.injEq, Prod.mk.injEq] at h
      have : found.2.length < (t.dropWhile (· == '[')).length := length_takeElement? he
      rw [h.2] at this
      omega

/-- Reads types as long as there are any. -/
def takeValueTypes (t : Text) : List TypeName × Text :=
  match h : takeValueType? t with
  | none => ([], t)
  | some (type, after) =>
    have := length_takeValueType? h
    let (types, rest) := takeValueTypes after
    (type :: types, rest)
termination_by t.length

end TypeName

namespace Signature

/-- Reads the method descriptor that is the whole text. -/
def parse? (t : Text) : Option Signature :=
  match t with
  | '(' :: rest =>
    match TypeName.takeValueTypes rest with
    | (params, ')' :: after) => (TypeName.parse? after).map fun result => ⟨params, result⟩
    | _ => none
  | _ => none

/-- The signature whose descriptor is the whole text, or the reason why there is none. -/
def parse (t : Text) : Except DescriptorFlaw Signature :=
  match parse? t with
  | some signature => .ok signature
  | none => .error (.method t)

end Signature

/-- Splits a method declaration such as `run(I)V` into its name and its signature.
The name ends at the first opening parenthesis and is not empty. -/
def parseMethodDeclaration (t : Text) : Except DescriptorFlaw (Text × Signature) :=
  match Text.cut? (· == '(') t with
  | some ([], _) | none => .error (.methodDeclaration t)
  | some (name, after) => (Signature.parse ('(' :: after)).map fun signature => (name, signature)

/-- Splits a field declaration such as `count:I` into its name and its type. The
name ends at the last colon and is not empty; the type is not `void`. -/
def parseFieldDeclaration (t : Text) : Except DescriptorFlaw (Text × TypeName) :=
  match Text.cutLast? (· == ':') t with
  | some ([], _) | none => .error (.fieldDeclaration t)
  | some (name, after) =>
    match TypeName.parse after with
    | .error flaw => .error flaw
    | .ok .void => .error (.voidField name)
    | .ok type => .ok (name, type)

end Smali
