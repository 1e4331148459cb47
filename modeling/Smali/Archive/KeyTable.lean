import Smali.Fault
import Smali.Text.Listing

/-!
# Key tables

A key table maps versions of a library to the keys of its archives. Versions are
kept in order, so that a table has one listing.
-/

namespace Smali

/-- What belongs to one version. -/
structure KeyEntry where
  /-- The name of the decrypted file. -/
  outputName : Text
  /-- The key in Base64. -/
  encodedKey : Text
  deriving DecidableEq, Repr, Inhabited

/-- Versions with their entries, in the order of the versions. -/
structure KeyTable where
  /-- The listing. -/
  entries : List (Text × KeyEntry)
  deriving DecidableEq, Repr, Inhabited

namespace KeyTable

/-- A table without versions. -/
def empty : KeyTable := ⟨[]⟩

/-- The table with an entry for a version. -/
def insert (t : KeyTable) (version : Text) (entry : KeyEntry) : KeyTable :=
  ⟨Listing.insert version entry t.entries⟩

/-- The entry of a version. -/
def get (t : KeyTable) (version : Text) : Except Fault KeyEntry :=
  match t.entries.lookup version with
  | some entry => .ok entry
  | none => .error (.plain .keyNotFound ("no key for version " ++ version))

/-- The versions in order. -/
def versions (t : KeyTable) : List Text := t.entries.map Prod.fst

/-- The number of versions. -/
def size (t : KeyTable) : Nat := t.entries.length

/-- Whether there is no version. -/
def isEmpty (t : KeyTable) : Bool := t.entries.isEmpty

end KeyTable

end Smali
