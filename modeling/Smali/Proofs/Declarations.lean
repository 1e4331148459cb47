import Smali.Proofs.Cuts
import Smali.Proofs.Descriptors

/-!
# What the readers of descriptors accept

The readers of descriptors accept the descriptors of well-formed types and nothing else, and they
return the type that was written. For a row of parameters this means that it comes apart in one way
only, though nothing stands between two parameters. A method declaration is cut at its first
parenthesis and a field declaration at its last colon. A method descriptor starts with the
parenthesis, so any name in front of it that has none is found again. But a class name may hold
colons, and then the cut falls into the type: such a field declaration is not accepted.
-/

namespace Smali

open Text

/-! ## What is read is well formed -/

namespace TypeName

/-- An element that was read is well formed. -/
theorem wellFormedElement_of_takeElement? {t : Text} {type : TypeName} {after : Text}
    (h : takeElement? t = some (type, after)) : type.WellFormedElement := by
  unfold takeElement? at h
  split at h
  · rename_i rest
    split at h
    · dsimp only at h
      split at h
      · exact absurd h (Option.some_ne_none _).symm
      · rename_i hname
        obtain ⟨rfl, -⟩ := Prod.mk.inj (Option.some.inj h)
        exact ⟨by simpa using hname, fun c hc => List.mem_takeWhile_imp hc⟩
    · exact absurd h (Option.some_ne_none _).symm
  · obtain ⟨kind, -, heq⟩ := Option.map_eq_some_iff.mp h
    obtain ⟨rfl, -⟩ := Prod.mk.inj heq
    exact trivial
  · exact absurd h (Option.some_ne_none _).symm

/-- An element is well formed as a type, and it is not `void`. -/
theorem WellFormedElement.wellFormed {type : TypeName} (h : type.WellFormedElement) :
    type.WellFormed ∧ type.isVoid = false := by
  cases type with
  | primitive kind => exact ⟨trivial, rfl⟩
  | object name => exact ⟨h, rfl⟩
  | array element dimensions => exact absurd h id
  | void => exact absurd h id

/-- A type that was read where `void` may not stand is well formed and not `void`. -/
theorem wellFormed_of_takeValueType? {t : Text} {type : TypeName} {after : Text}
    (h : takeValueType? t = some (type, after)) : type.WellFormed ∧ type.isVoid = false := by
  unfold takeValueType? at h
  split at h
  · exact (wellFormedElement_of_takeElement? h).wellFormed
  · obtain ⟨⟨element, rest⟩, helement, heq⟩ := Option.map_eq_some_iff.mp h
    obtain ⟨rfl, -⟩ := Prod.mk.inj heq
    exact ⟨⟨wellFormedElement_of_takeElement? helement, Nat.succ_pos _⟩, rfl⟩

/-- A type that was read is well formed. -/
theorem wellFormed_of_parse? {t : Text} {type : TypeName} (h : parse? t = some type) :
    type.WellFormed := by
  unfold parse? at h
  split at h
  · rename_i found htake
    obtain rfl := Option.some.inj h
    unfold take? at htake
    split at htake
    · obtain ⟨rfl, -⟩ := Prod.mk.inj (Option.some.inj htake)
      exact trivial
    · exact (wellFormed_of_takeValueType? htake).1
  · exact absurd h (Option.some_ne_none _).symm

/-- The same where a text that is no descriptor is a flaw. -/
theorem wellFormed_of_parse {t : Text} {type : TypeName} (h : parse t = .ok type) :
    type.WellFormed := by
  unfold parse at h
  split at h
  · rename_i found hparse
    obtain rfl := Except.ok.inj h
    exact wellFormed_of_parse? hparse
  · exact absurd h (by simp)

/-- A text is read as a type if and only if it is the descriptor of the type and the type is well
formed. -/
theorem parses_iff_descriptor (t : Text) (type : TypeName) :
    parse t = .ok type ↔ t = type.descriptor ∧ type.WellFormed := by
  refine ⟨fun h => ⟨(descriptor_of_parse h).symm, wellFormed_of_parse h⟩, ?_⟩
  rintro ⟨rfl, htype⟩
  exact parse_descriptor htype

/-- The types that were read in a row are well formed, and none of them is `void`. -/
theorem wellFormed_of_takeValueTypes (t : Text) :
    ∀ type ∈ (takeValueTypes t).1, type.WellFormed ∧ type.isVoid = false := by
  fun_induction takeValueTypes t with
  | case1 t h => exact List.forall_mem_nil _
  | case2 t type after h hlength types rest hrest ih =>
    rw [hrest] at ih
    exact List.forall_mem_cons.mpr ⟨wellFormed_of_takeValueType? h, ih⟩

end TypeName

/-! ## Signatures -/

namespace Signature

/-- The parts of a well-formed signature. -/
theorem wellFormed_iff {signature : Signature} :
    signature.WellFormed ↔
      (∀ type ∈ signature.params, type.WellFormed ∧ type.isVoid = false) ∧
        signature.result.WellFormed :=
  ⟨fun h => ⟨h.params, h.result⟩, fun h => ⟨h.1, h.2⟩⟩

/-- A signature that was read is well formed. -/
theorem wellFormed_of_parse? {t : Text} {signature : Signature} (h : parse? t = some signature) :
    signature.WellFormed := by
  unfold parse? at h
  split at h
  · rename_i rest
    split at h
    · rename_i params after hparams
      obtain ⟨result, hresult, rfl⟩ := Option.map_eq_some_iff.mp h
      have hwell := TypeName.wellFormed_of_takeValueTypes rest
      rw [hparams] at hwell
      exact ⟨hwell, TypeName.wellFormed_of_parse? hresult⟩
    · exact absurd h (Option.some_ne_none _).symm
  · exact absurd h (Option.some_ne_none _).symm

/-- A text is read as a signature if and only if it is the descriptor of the signature and the
signature is well formed. -/
theorem parse_eq_ok_iff {t : Text} {signature : Signature} :
    parse t = .ok signature ↔ t = signature.descriptor ∧ signature.WellFormed := by
  constructor
  · intro h
    refine ⟨(descriptor_of_parse h).symm, ?_⟩
    unfold parse at h
    split at h
    · rename_i hparse
      obtain rfl := Except.ok.inj h
      exact wellFormed_of_parse? hparse
    · exact absurd h (by simp)
  · rintro ⟨rfl, hsignature⟩
    exact parse_descriptor hsignature

end Signature

/-! ## Declarations -/

/-- A method declaration is a name without parentheses in front of the descriptor of a well-formed
signature. -/
theorem parseMethodDeclaration_eq_ok_iff {t name : Text} {signature : Signature} :
    parseMethodDeclaration t = .ok (name, signature) ↔
      name ≠ [] ∧ '(' ∉ name ∧ t = name ++ signature.descriptor ∧ signature.WellFormed := by
  constructor
  · intro h
    unfold parseMethodDeclaration at h
    split at h
    · exact absurd h (by simp)
    · exact absurd h (by simp)
    · rename_i before after hempty hcut
      obtain ⟨hname, rfl⟩ := cut?_eq_some_iff.mp hcut
      cases hparse : Signature.parse ('(' :: after) with
      | error flaw =>
        rw [hparse] at h
        exact absurd h (by simp [Except.map])
      | ok found =>
        rw [hparse] at h
        obtain ⟨rfl, rfl⟩ := Prod.mk.inj (Except.ok.inj h)
        obtain ⟨htext, hfound⟩ := Signature.parse_eq_ok_iff.mp hparse
        exact ⟨hempty, hname, by rw [← htext], hfound⟩
  · -- the first parenthesis is that of the descriptor
    rintro ⟨hne, hname, rfl, hsignature⟩
    obtain ⟨rest, hrest⟩ : ∃ rest, signature.descriptor = '(' :: rest := ⟨_, rfl⟩
    obtain ⟨c, more, rfl⟩ := List.exists_cons_of_ne_nil hne
    have hparse := Signature.parse_descriptor hsignature
    rw [hrest] at hparse ⊢
    rw [parseMethodDeclaration, cut?_eq_some_iff.mpr ⟨hname, rfl⟩]
    dsimp only
    rw [hparse]
    rfl

/-- A field declaration is a name, a colon and the descriptor of a well-formed type other than
`void` in which there is no colon. -/
theorem parseFieldDeclaration_eq_ok_iff {t name : Text} {type : TypeName} :
    parseFieldDeclaration t = .ok (name, type) ↔
      name ≠ [] ∧ t = name ++ ':' :: type.descriptor ∧ type.WellFormed ∧ type.isVoid = false ∧
        ':' ∉ type.descriptor := by
  constructor
  · intro h
    unfold parseFieldDeclaration at h
    split at h
    · exact absurd h (by simp)
    · exact absurd h (by simp)
    · rename_i before after hempty hcut
      obtain ⟨hcolon, rfl⟩ := cutLast?_eq_some_iff.mp hcut
      split at h
      · exact absurd h (by simp)
      · exact absurd h (by simp)
      · rename_i found hvoid hparse
        obtain ⟨rfl, rfl⟩ := Prod.mk.inj (Except.ok.inj h)
        obtain rfl := TypeName.descriptor_of_parse hparse
        refine ⟨hempty, rfl, TypeName.wellFormed_of_parse hparse, ?_, hcolon⟩
        cases found with
        | void => exact absurd rfl hvoid
        | primitive _ | array _ _ | object _ => rfl
  · -- there is no colon in the type, so the last one is that behind the name
    rintro ⟨hne, rfl, htype, hvoid, hcolon⟩
    obtain ⟨c, more, rfl⟩ := List.exists_cons_of_ne_nil hne
    rw [parseFieldDeclaration, cutLast?_eq_some_iff.mpr ⟨hcolon, rfl⟩]
    dsimp only
    rw [TypeName.parse_descriptor htype]
    cases type with
    | void => exact absurd hvoid Bool.noConfusion
    | primitive _ | array _ _ | object _ => rfl

/-- Method descriptors and declarations are read exactly: as the parts that they are spelled from,
and only if these are well formed. -/
theorem members_parse_exactly :
    (∀ (t : Text) (params : List TypeName) (result : TypeName),
      Signature.parse t = .ok ⟨params, result⟩ ↔
        t = Signature.descriptor ⟨params, result⟩ ∧
          (∀ type ∈ params, type.WellFormed ∧ type.isVoid = false) ∧ result.WellFormed) ∧
    (∀ (t name : Text) (signature : Signature),
      parseMethodDeclaration t = .ok (name, signature) ↔
        t = name ++ signature.descriptor ∧ name ≠ [] ∧ '(' ∉ name ∧
          (∀ type ∈ signature.params, type.WellFormed ∧ type.isVoid = false) ∧
            signature.result.WellFormed) ∧
    (∀ (t name : Text) (type : TypeName),
      parseFieldDeclaration t = .ok (name, type) ↔
        t = name ++ ':' :: type.descriptor ∧ name ≠ [] ∧ type.WellFormed ∧ type.isVoid = false ∧
          ':' ∉ type.descriptor) := by
  refine ⟨fun t params result => ?_, fun t name signature => ?_, fun t name type => ?_⟩
  · rw [Signature.parse_eq_ok_iff, Signature.wellFormed_iff]
  · rw [parseMethodDeclaration_eq_ok_iff, Signature.wellFormed_iff]
    tauto
  · rw [parseFieldDeclaration_eq_ok_iff]
    tauto

end Smali
