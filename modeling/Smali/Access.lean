import Smali.Fault

/-!
# Access flags

Classes, fields and methods carry a set of nineteen modifiers. The order in
which `Flag` lists them is the order in which a set is written, and the place of
a flag in that order is its bit.
-/

namespace Smali

/-- A modifier of a class, a field or a method. -/
inductive Flag where
  | isPublic
  | isPrivate
  | isProtected
  | isStatic
  | isFinal
  | isSynchronized
  | isVolatile
  | isBridge
  | isTransient
  | isVarargs
  | isNative
  | isInterface
  | isAbstract
  | isStrictfp
  | isSynthetic
  | isAnnotationType
  | isEnum
  | isConstructor
  | isDeclaredSynchronized
  deriving DecidableEq, Repr, Inhabited

namespace Flag

/-- All flags in the order of writing. -/
def all : List Flag :=
  [.isPublic, .isPrivate, .isProtected, .isStatic, .isFinal, .isSynchronized, .isVolatile,
    .isBridge, .isTransient, .isVarargs, .isNative, .isInterface, .isAbstract, .isStrictfp,
    .isSynthetic, .isAnnotationType, .isEnum, .isConstructor, .isDeclaredSynchronized]

/-- The bit of a flag. -/
def index : Flag → Nat
  | .isPublic => 0
  | .isPrivate => 1
  | .isProtected => 2
  | .isStatic => 3
  | .isFinal => 4
  | .isSynchronized => 5
  | .isVolatile => 6
  | .isBridge => 7
  | .isTransient => 8
  | .isVarargs => 9
  | .isNative => 10
  | .isInterface => 11
  | .isAbstract => 12
  | .isStrictfp => 13
  | .isSynthetic => 14
  | .isAnnotationType => 15
  | .isEnum => 16
  | .isConstructor => 17
  | .isDeclaredSynchronized => 18

/-- The keyword of a flag. -/
def keyword : Flag → Text
  | .isPublic => "public"
  | .isPrivate => "private"
  | .isProtected => "protected"
  | .isStatic => "static"
  | .isFinal => "final"
  | .isSynchronized => "synchronized"
  | .isVolatile => "volatile"
  | .isBridge => "bridge"
  | .isTransient => "transient"
  | .isVarargs => "varargs"
  | .isNative => "native"
  | .isInterface => "interface"
  | .isAbstract => "abstract"
  | .isStrictfp => "strictfp"
  | .isSynthetic => "synthetic"
  | .isAnnotationType => "annotation"
  | .isEnum => "enum"
  | .isConstructor => "constructor"
  | .isDeclaredSynchronized => "declared-synchronized"

/-- The flag of a keyword. The older spelling `strict` stands for `strictfp`. -/
def ofKeyword? (word : Text) : Option Flag :=
  if word = "strict".toList then some .isStrictfp
  else all.find? fun f => f.keyword = word

end Flag

/-- A set of flags. -/
structure Access where
  /-- One bit per flag, at the flag's index. -/
  bits : BitVec 19
  deriving DecidableEq, Repr, Inhabited

namespace Access

/-- No flag. -/
def none : Access := ⟨0⟩

/-- Every flag. -/
def full : Access := ⟨BitVec.allOnes 19⟩

/-- The set of one flag. -/
def single (f : Flag) : Access := ⟨BitVec.twoPow 19 f.index⟩

/-- Whether a flag is in the set. -/
def has (a : Access) (f : Flag) : Bool := a.bits.getLsbD f.index

/-- The flags of either set. -/
def union (a b : Access) : Access := ⟨a.bits ||| b.bits⟩

/-- The flags of both sets. -/
def inter (a b : Access) : Access := ⟨a.bits &&& b.bits⟩

/-- The flags of the first set that are not in the second. -/
def diff (a b : Access) : Access := ⟨a.bits &&& ~~~b.bits⟩

/-- The flags of exactly one of two sets. -/
def symmDiff (a b : Access) : Access := ⟨a.bits ^^^ b.bits⟩

/-- The flags outside the set. -/
def compl (a : Access) : Access := ⟨~~~a.bits⟩

/-- Whether every flag of `b` is in `a`. -/
def contains (a b : Access) : Bool := a.inter b == b

/-- Whether two sets share a flag. -/
def intersects (a b : Access) : Bool := a.inter b != none

/-- Whether the set has no flag. -/
def isEmpty (a : Access) : Bool := a == none

/-- Whether the set has every flag. -/
def isFull (a : Access) : Bool := a == full

/-- Adds the flags of keywords to a set, up to the first word that names none. -/
def addKeywords : Access → List Text → Except Text Access
  | a, [] => .ok a
  | a, word :: rest =>
    match Flag.ofKeyword? word with
    | some f => addKeywords (a.union (single f)) rest
    | Option.none => .error word

/-- The set that keywords name. The fault names the first unknown word. -/
def ofKeywords (words : List Text) : Except Fault Access :=
  (addKeywords none words).mapError fun word =>
    .plain .grammar ("unknown access flag '" ++ word ++ "'")

/-- The keywords of a set in the order of writing. -/
def keywords (a : Access) : List Text := (Flag.all.filter a.has).map Flag.keyword

/-- The keywords of a set with a space between each two. -/
def render (a : Access) : Text := [' '].intercalate a.keywords

end Access

end Smali
