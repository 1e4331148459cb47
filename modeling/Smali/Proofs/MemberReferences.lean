import Smali.Proofs.BehindClosing
import Smali.Proofs.Declarations

/-!
# References and declarations

A member is declared as a name in front of a descriptor, and a reference puts an owner and an arrow
in front of that. The reader of references cuts the member at the same marks as the readers of
declarations, so it finds the same name and the same type. But it does not ask for a method name
that is not empty, nor for a field type other than `void`. These two are all that a reference can
hold and a declaration cannot.
-/

namespace Smali

open Text Literal

/-- The parts of the member that a value refers to: a method name without parentheses and a
well-formed signature, or a field name that is not empty and a well-formed type without colons. -/
def Value.HoldsMember : Value → Prop
  | .method _ name signature => '(' ∉ name ∧ signature.WellFormed
  | .field _ name type | .enumeration _ name type =>
    name ≠ [] ∧ type.WellFormed ∧ ':' ∉ type.descriptor
  | _ => True

/-- A result is there before its faults are renamed. -/
theorem eq_ok_of_mapError {ε ε' α : Type} {r : Except ε α} {f : ε → ε'} {a : α}
    (h : r.mapError f = .ok a) : r = .ok a := by
  cases r with
  | error e => cases h
  | ok b => exact congrArg Except.ok (Except.ok.inj h)

/-- A reference is cut at the marks of a declaration. -/
theorem holdsMember_of_reference {text : Text} {v : Value} (h : reference text = .ok v) :
    v.HoldsMember := by
  unfold reference at h
  split at h
  · cases h
  · obtain ⟨owner, -, h⟩ := exists_of_bind_eq_ok h
    split at h
    · rename_i name after hcut
      obtain ⟨signature, hsignature, h⟩ := exists_of_bind_eq_ok h
      cases h
      have hparse := eq_ok_of_mapError hsignature
      exact ⟨not_mem_of_cut? hcut, (Signature.parse_eq_ok_iff.mp hparse).2⟩
    · split at h
      · cases h
      · cases h
      · rename_i name after hne hcut
        obtain ⟨type, htype, h⟩ := exists_of_bind_eq_ok h
        cases h
        have hparse := eq_ok_of_mapError htype
        obtain rfl := TypeName.descriptor_of_parse hparse
        exact ⟨hne, TypeName.wellFormed_of_parse hparse, not_mem_of_cutLast? hcut⟩

/-- What is complete in itself refers to no member, or it is a reference. -/
theorem holdsMember_of_scalar {text : Text} {v : Value} (h : scalar text = .ok v) :
    v.HoldsMember := by
  obtain ⟨body, -, rfl⟩ | ⟨c, -, rfl⟩ | hreference | hnumber | ⟨-, type, -, rfl⟩ :=
    cases_of_scalar h
  · exact trivial
  · exact trivial
  · exact holdsMember_of_reference hreference
  · cases isNumber_of_number? hnumber <;> exact trivial
  · exact trivial

/-- The member that a value refers to holds what a reference can hold, wherever the value was read
from. -/
theorem holdsMember_of_decode {t : Text} {v : Value} (h : decode t = .ok v) : v.HoldsMember := by
  cases hshape : shape (trim t) with
  | leaf result =>
    rw [decode_of_leaf hshape] at h
    subst h
    obtain ⟨-, rfl⟩ | ⟨-, rfl⟩ | ⟨-, rfl⟩ | ⟨rest, -, henum⟩ | hscalar := cases_of_leaf_shape hshape
    · exact trivial
    · exact trivial
    · exact trivial
    · obtain ⟨owner, name, type, hfield, rfl⟩ := reference_of_enumeration henum
      exact (holdsMember_of_reference hfield : (Value.field owner name type).HoldsMember)
    · exact holdsMember_of_scalar hscalar
  | array parts =>
    rw [decode_of_array hshape] at h
    obtain ⟨_, -, rfl⟩ := exists_of_map_eq_ok h
    exact trivial
  | annotated type o =>
    rw [decode_of_annotated hshape] at h
    obtain ⟨_, -, h⟩ := exists_of_bind_eq_ok h
    split at h
    · cases h
    · cases h
      exact trivial

/-- A method of a simple class is accepted with every name without parentheses and every well-formed
signature. -/
theorem decode_methodReference {t : Text} {owner : TypeName} {name : Text} {signature : Signature}
    (howner : owner.IsSimple) (hname : '(' ∉ name) (hsignature : signature.WellFormed)
    (ht : trim t = owner.descriptor ++ "->" ++ name ++ signature.descriptor) :
    decode t = .ok (.method owner name signature) := by
  have hread := reference_methodReference howner hname hsignature
  have htext : owner.descriptor ++ "->" ++ name ++ signature.descriptor =
      owner.descriptor ++ '-' :: '>' :: (name ++ signature.descriptor) := by simp
  rw [htext] at hread ht
  exact decode_of_leaf ((congrArg shape ht).trans (shape_of_reference howner hread))

/-- The class `a` is simple. -/
theorem isSimple_a : (TypeName.object ['a']).IsSimple := by
  refine ⟨⟨by decide, List.all_eq_true.mp rfl⟩, ?_, by decide⟩
  rintro _ ⟨⟩
  exact List.all_eq_true.mp rfl

/-- A method that was read from a reference is read again from the declaration of its name and its
signature if and only if the name is not empty. A field or an enum constant is read again from the
declaration of its name and its type if and only if the type is not `void`. -/
theorem reference_declares_iff (t : Text) :
    (∀ (owner : TypeName) (name : Text) (signature : Signature),
      decode t = .ok (.method owner name signature) →
        (parseMethodDeclaration (name ++ signature.descriptor) = .ok (name, signature) ↔
          name ≠ [])) ∧
    (∀ (owner : TypeName) (name : Text) (type : TypeName),
      decode t = .ok (.field owner name type) ∨ decode t = .ok (.enumeration owner name type) →
        (parseFieldDeclaration (name ++ ':' :: type.descriptor) = .ok (name, type) ↔
          type.isVoid = false)) := by
  refine ⟨fun owner name signature h => ?_, fun owner name type h => ?_⟩
  · obtain ⟨hparen, hsignature⟩ := holdsMember_of_decode h
    rw [parseMethodDeclaration_eq_ok_iff]
    exact ⟨fun hdeclared => hdeclared.1, fun hne => ⟨hne, hparen, rfl, hsignature⟩⟩
  · have hmember : name ≠ [] ∧ type.WellFormed ∧ ':' ∉ type.descriptor := by
      obtain h | h := h <;> exact holdsMember_of_decode h
    obtain ⟨hne, htype, hcolon⟩ := hmember
    rw [parseFieldDeclaration_eq_ok_iff]
    exact ⟨fun hdeclared => hdeclared.2.2.2.1, fun hvoid => ⟨hne, rfl, htype, hvoid, hcolon⟩⟩

/-- The method `run` and the constant `ON` are read again from their declarations, the method
without a name and the field of type `void` are not. -/
theorem reference_declares_members :
    parseMethodDeclaration ("run".toList ++ Signature.descriptor ⟨[.primitive .int], .void⟩) =
        .ok ("run".toList, ⟨[.primitive .int], .void⟩) ∧
      parseFieldDeclaration ("ON".toList ++ ':' :: (TypeName.object ['a']).descriptor) =
        .ok ("ON".toList, .object ['a']) ∧
      parseMethodDeclaration ([] ++ Signature.descriptor ⟨[], .void⟩) ≠ .ok ([], ⟨[], .void⟩) ∧
      parseFieldDeclaration ("x".toList ++ ':' :: TypeName.void.descriptor) ≠
        .ok ("x".toList, .void) := by
  have hint : (⟨[.primitive .int], .void⟩ : Signature).WellFormed :=
    ⟨fun type htype => List.mem_singleton.mp htype ▸ ⟨trivial, rfl⟩, trivial⟩
  have hnone : (⟨[], .void⟩ : Signature).WellFormed := ⟨List.forall_mem_nil _, trivial⟩
  have hrun : decode "La;->run(I)V" = .ok (.method (.object ['a']) "run".toList _) :=
    decode_methodReference isSimple_a (by decide) hint rfl
  have hnameless : decode "La;->()V" = .ok (.method (.object ['a']) [] _) :=
    decode_methodReference isSimple_a (by decide) hnone rfl
  have hon : decode ".enum La;->ON:La;" = .ok (.enumeration (.object ['a']) "ON".toList _) :=
    decode_of_leaf rfl
  have hvoid : decode "La;->x:V" = .ok (.field (.object ['a']) "x".toList .void) :=
    decode_of_leaf rfl
  obtain ⟨hdeclared, -⟩ := reference_declares_iff "La;->run(I)V"
  obtain ⟨-, hdeclaredOn⟩ := reference_declares_iff ".enum La;->ON:La;"
  obtain ⟨hdeclaredNameless, -⟩ := reference_declares_iff "La;->()V"
  obtain ⟨-, hdeclaredVoid⟩ := reference_declares_iff "La;->x:V"
  exact ⟨(hdeclared _ _ _ hrun).mpr (by decide), (hdeclaredOn _ _ _ (.inr hon)).mpr rfl,
    mt (hdeclaredNameless _ _ _ hnameless).mp (by decide),
    mt (hdeclaredVoid _ _ _ (.inl hvoid)).mp (by decide)⟩

/-- `La;->()V` is accepted as a method without a name and `La;->x:V` as a field of type `void`, but
neither member can be declared. -/
theorem undeclarable_members_accepted :
    decode "La;->()V" = .ok (.method (.object ['a']) [] ⟨[], .void⟩) ∧
      parseMethodDeclaration ([] ++ Signature.descriptor ⟨[], .void⟩) =
        .error (.methodDeclaration "()V".toList) ∧
      decode "La;->x:V" = .ok (.field (.object ['a']) ['x'] .void) ∧
      parseFieldDeclaration (['x'] ++ ':' :: TypeName.void.descriptor) =
        .error (.voidField ['x']) :=
  ⟨decode_methodReference isSimple_a (by decide) ⟨List.forall_mem_nil _, trivial⟩ rfl, rfl,
    decode_of_leaf rfl, rfl⟩

end Smali
