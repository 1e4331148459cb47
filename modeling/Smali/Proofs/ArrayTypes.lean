import Smali.Proofs.Declarations

/-!
# Array types over any type

An array over an array has the dimensions of both, so an array type never has an array for its
element. Two things that are no descriptors can be asked for all the same: an array of `void`, and
an array without dimensions over something that is no array. The descriptor of the first is not
read at all, unless it has no dimensions, and that of the second is read as the element. In all
other cases the array type is well formed and is read from its descriptor.
-/

namespace Smali.TypeName

/-- A type over which arrays can be built with so many dimensions: not `void`, and the array has at
least one dimension of its own or of the type. -/
def Spans (type : TypeName) (n : Nat) : Prop := type.isVoid = false ∧ 0 < type.dimensions + n

end Smali.TypeName
