import Smali.Fault

/-!
# Options of a reader
-/

namespace Smali

/-- What a reader does with malformed input. -/
inductive Tolerance where
  /-- The first fault ends the reading. -/
  | strict
  /-- Faults that noisy input causes are noted and skipped over. -/
  | ignore
  deriving DecidableEq, Repr, Inhabited

namespace Tolerance

/-- The word for a tolerance. -/
def word : Tolerance → Text
  | .strict => "strict"
  | .ignore => "ignore"

/-- The tolerance of a word. -/
def ofWord (word : Text) : Except Fault Tolerance :=
  if word = "strict".toList then .ok .strict
  else if word = "ignore".toList then .ok .ignore
  else .error (.plain .grammar ("unknown error mode '" ++ word ++ "'"))

end Tolerance

/-- How a source is to be read. -/
structure Options where
  /-- Whether comments are told. -/
  comments : Bool
  /-- Whether the source is the body of a class, without its header. -/
  snippet : Bool
  /-- Whether semantic checks are made. -/
  validate : Bool
  /-- What becomes of malformed input. -/
  errors : Tolerance
  deriving DecidableEq, Repr, Inhabited

/-- A setting, as a configuration gives it. -/
inductive Setting where
  /-- A truth value. -/
  | flag (b : Bool)
  /-- A word. -/
  | word (w : Text)
  /-- Anything else. -/
  | other
  deriving DecidableEq, Repr, Inhabited

namespace Setting

/-- The truth value of a setting. -/
def flag? : Setting → Option Bool
  | .flag b => some b
  | _ => none

/-- The tolerance that a setting names. -/
def tolerance? : Setting → Option Tolerance
  | .word w => (Tolerance.ofWord w).toOption
  | _ => none

end Setting

namespace Options

/-- Nothing but what must be, and no fault accepted. -/
def default : Options := ⟨false, false, false, .strict⟩

/-- The names of the settings. -/
def names : List Text := ["comments", "snippet", "validate", "errors"]

/-- The options with one setting changed. A name that is not theirs changes
nothing; none if the setting is of the wrong sort. -/
def set? (o : Options) (name : Text) (s : Setting) : Option Options :=
  if name = "comments".toList then s.flag?.map fun b => { o with comments := b }
  else if name = "snippet".toList then s.flag?.map fun b => { o with snippet := b }
  else if name = "validate".toList then s.flag?.map fun b => { o with validate := b }
  else if name = "errors".toList then s.tolerance?.map fun t => { o with errors := t }
  else some o

/-- The options of named settings; those that are not named have their default. -/
def ofEntries? (entries : List (Text × Setting)) : Option Options :=
  entries.foldlM (fun o (name, s) => o.set? name s) default

/-- The options of settings in the order of the names. The last ones may be left
out. -/
def ofSettings? (settings : List Setting) : Option Options :=
  if settings.length ≤ names.length then ofEntries? (names.zip settings) else none

end Options

end Smali
