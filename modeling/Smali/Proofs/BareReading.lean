import Smali.Proofs.KindredReading
import Smali.Proofs.Quiet

/-!
# Reading without comments in the source

A reader that tells no comments takes a line of code with a comment behind it in the same way as the
line without it, and a line that is only a comment changes nothing but the comments that it
remembers. So what it does for a source is what it does for its code alone.
-/

namespace Smali

/-! ## Readings that are the same -/

/-- Nothing corresponds but what is the same. -/
def Kinship.same : Kinship where
  places p p' := p = p'
  faults fault fault' := fault = fault'
  kind_eq h := congrArg Fault.kind h
  plain _ _ := rfl
  attach h hp := by rw [h, hp]

section Quiet

variable {K : Kinship} {o : Options} (h : o.comments = false)
include h

namespace Control

end Control

end Quiet

end Smali
