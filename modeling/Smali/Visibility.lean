import Smali.Fault

/-!
# Annotation visibility

An annotation is kept for the build, for the runtime, or by the system.
-/

namespace Smali

/-- How long an annotation is kept. -/
inductive Visibility where
  | build
  | runtime
  | system
  deriving DecidableEq, Repr, Inhabited

namespace Visibility

/-- The keyword of a visibility. -/
def keyword : Visibility → Text
  | .build => "build"
  | .runtime => "runtime"
  | .system => "system"

/-- The visibility of a keyword. -/
def ofKeyword (word : Text) : Except Fault Visibility :=
  if word = "build".toList then .ok .build
  else if word = "runtime".toList then .ok .runtime
  else if word = "system".toList then .ok .system
  else .error (.plain .grammar ("unknown annotation visibility '" ++ word ++ "'"))

end Visibility

end Smali
