import Smali.Descriptor.Parse
import Mathlib.Data.List.TakeWhile

/-!
# Descriptors as texts

Reading a descriptor keeps its spelling: the descriptor of the type that was read is the text
that was read. And every type that descriptors can denote is read from its descriptor.
-/

namespace Smali

namespace Primitive

/-- The letter of the primitive that a letter stands for. -/
theorem letter_of_ofLetter? {c : Char} {kind : Primitive} (h : ofLetter? c = some kind) :
    kind.letter = c := by
  unfold ofLetter? at h
  split at h <;> first | exact absurd h (Option.some_ne_none _).symm | cases Option.some.inj h; rfl

/-- The primitive of its own letter. -/
@[simp]
theorem ofLetter?_letter (kind : Primitive) : ofLetter? kind.letter = some kind := by
  cases kind <;> rfl

end Primitive

namespace TypeName

/-! ## Spelling -/

/-- An element and the rest are what was read. -/
theorem descriptor_of_takeElement? {t : Text} {type : TypeName} {after : Text}
    (h : takeElement? t = some (type, after)) : type.descriptor ++ after = t := by
  unfold takeElement? at h
  split at h
  · rename_i rest
    have hsplit := rest.takeWhile_append_dropWhile (p := isNameChar)
    split at h
    · rename_i tail heq
      dsimp only at h
      split at h
      · exact absurd h (Option.some_ne_none _).symm
      · obtain ⟨rfl, rfl⟩ := Prod.mk.inj (Option.some.inj h)
        rw [heq] at hsplit
        rw [descriptor, List.cons_append, List.cons_append, List.append_assoc,
          List.singleton_append, hsplit]
    · exact absurd h (Option.some_ne_none _).symm
  · rename_i c rest _
    obtain ⟨kind, hkind, heq⟩ := Option.map_eq_some_iff.mp h
    obtain ⟨rfl, rfl⟩ := Prod.mk.inj heq
    rw [descriptor, Primitive.letter_of_ofLetter? hkind]
    rfl
  · exact absurd h (Option.some_ne_none _).symm

/-- The brackets in front of an element. -/
theorem takeWhile_bracket (t : Text) :
    t.takeWhile (· == '[') = List.replicate (t.takeWhile (· == '[')).length '[' :=
  List.eq_replicate_iff.mpr
    ⟨rfl, fun _ hc => beq_iff_eq.mp (List.mem_takeWhile_imp (p := (· == '[')) hc)⟩

/-- A type other than `void` and the rest are what was read. -/
theorem descriptor_of_takeValueType? {t : Text} {type : TypeName} {after : Text}
    (h : takeValueType? t = some (type, after)) : type.descriptor ++ after = t := by
  unfold takeValueType? at h
  split at h
  · exact descriptor_of_takeElement? h
  · rename_i n hlength
    obtain ⟨⟨element, rest⟩, helement, heq⟩ := Option.map_eq_some_iff.mp h
    obtain ⟨rfl, rfl⟩ := Prod.mk.inj heq
    have hbrackets := takeWhile_bracket t
    rw [hlength] at hbrackets
    rw [descriptor, List.append_assoc, descriptor_of_takeElement? helement, ← hbrackets,
      List.takeWhile_append_dropWhile]

/-- A type and the rest are what was read. -/
theorem descriptor_of_take? {t : Text} {type : TypeName} {after : Text}
    (h : take? t = some (type, after)) : type.descriptor ++ after = t := by
  unfold take? at h
  split at h
  · obtain ⟨rfl, rfl⟩ := Prod.mk.inj (Option.some.inj h)
    rfl
  · exact descriptor_of_takeValueType? h

/-- A type has the descriptor that it was read from. -/
theorem descriptor_of_parse? {t : Text} {type : TypeName} (h : parse? t = some type) :
    type.descriptor = t := by
  unfold parse? at h
  split at h
  · rename_i found heq
    obtain rfl := Option.some.inj h
    rw [← descriptor_of_take? heq, List.append_nil]
  · exact absurd h (Option.some_ne_none _).symm

/-- The same where a text that is no descriptor is a flaw. -/
theorem descriptor_of_parse {t : Text} {type : TypeName} (h : parse t = .ok type) :
    type.descriptor = t := by
  unfold parse at h
  split at h
  · rename_i found heq
    obtain rfl := Except.ok.inj h
    exact descriptor_of_parse? heq
  · exact absurd h (by simp)

/-- Types in a row and the rest are what was read. -/
theorem descriptor_of_takeValueTypes (t : Text) :
    ((takeValueTypes t).1.map descriptor).flatten ++ (takeValueTypes t).2 = t := by
  fun_induction takeValueTypes t with
  | case1 t h => rfl
  | case2 t type after h hlength types rest hrest ih =>
    rw [hrest] at ih
    rw [List.map_cons, List.flatten_cons, List.append_assoc, ih, descriptor_of_takeValueType? h]

end TypeName

/-- A signature has the descriptor that it was read from. -/
theorem Signature.descriptor_of_parse? {t : Text} {signature : Signature}
    (h : parse? t = some signature) : signature.descriptor = t := by
  unfold parse? at h
  split at h
  · rename_i rest
    split at h
    · rename_i params after heq
      obtain ⟨result, hresult, rfl⟩ := Option.map_eq_some_iff.mp h
      have hparams := TypeName.descriptor_of_takeValueTypes rest
      rw [heq] at hparams
      rw [← hparams, descriptor, TypeName.descriptor_of_parse? hresult]
      rfl
    · exact absurd h (Option.some_ne_none _).symm
  · exact absurd h (Option.some_ne_none _).symm

/-- The same where a text that is no descriptor is a flaw. -/
theorem Signature.descriptor_of_parse {t : Text} {signature : Signature}
    (h : parse t = .ok signature) : signature.descriptor = t := by
  unfold parse at h
  split at h
  · rename_i found heq
    obtain rfl := Except.ok.inj h
    exact descriptor_of_parse? heq
  · exact absurd h (by simp)

/-! ## Reading back -/

namespace TypeName

/-- A text behind a run of brackets. -/
theorem span_brackets (n : Nat) {rest : Text} (hrest : rest.head? ≠ some '[') :
    (List.replicate n '[' ++ rest).takeWhile (· == '[') = List.replicate n '[' ∧
      (List.replicate n '[' ++ rest).dropWhile (· == '[') = rest := by
  have hall : ∀ c ∈ List.replicate n '[', (c == '[') = true :=
    fun c hc => beq_iff_eq.mpr (List.eq_of_mem_replicate hc)
  have hfirst : rest.takeWhile (· == '[') = [] ∧ rest.dropWhile (· == '[') = rest := by
    cases rest with
    | nil => exact ⟨rfl, rfl⟩
    | cons c rest =>
      have hc : ¬(c == '[') = true := fun h => hrest (congrArg some (beq_iff_eq.mp h))
      exact ⟨List.takeWhile_cons_of_neg hc, List.dropWhile_cons_of_neg hc⟩
  rw [List.takeWhile_append_of_pos hall, List.dropWhile_append_of_pos hall, hfirst.1, hfirst.2,
    List.append_nil]
  exact ⟨rfl, rfl⟩

/-- An element is read from its descriptor. -/
theorem takeElement?_descriptor {type : TypeName} (h : type.WellFormedElement) (after : Text) :
    takeElement? (type.descriptor ++ after) = some (type, after) := by
  cases type with
  | primitive kind => cases kind <;> rfl
  | object name =>
    obtain ⟨hname, hchars⟩ := h
    have hstop : isNameChar ';' = false := by decide
    have htake : (name ++ ';' :: after).takeWhile isNameChar = name := by
      rw [List.takeWhile_append_of_pos hchars, List.takeWhile_cons_of_neg (by simp [hstop]),
        List.append_nil]
    have hdrop : (name ++ ';' :: after).dropWhile isNameChar = ';' :: after := by
      rw [List.dropWhile_append_of_pos hchars, List.dropWhile_cons_of_neg (by simp [hstop])]
    have htext : (TypeName.object name).descriptor ++ after = 'L' :: (name ++ ';' :: after) := by
      simp [descriptor]
    rw [htext, takeElement?]
    simp only [htake, hdrop]
    rw [if_neg (by simpa using hname)]
  | array element dimensions => exact absurd h id
  | void => exact absurd h id

/-- The first character of an element. -/
theorem head?_descriptor {type : TypeName} (h : type.WellFormedElement) (after : Text) :
    (type.descriptor ++ after).head? ≠ some '[' ∧ (type.descriptor ++ after).head? ≠ some 'V' := by
  cases type with
  | primitive kind => cases kind <;> exact ⟨by simp [descriptor, Primitive.letter], by
      simp [descriptor, Primitive.letter]⟩
  | object name => exact ⟨by simp [descriptor], by simp [descriptor]⟩
  | array element dimensions => exact absurd h id
  | void => exact absurd h id

/-- A type other than `void` is read from its descriptor. -/
theorem takeValueType?_descriptor {type : TypeName} (h : type.WellFormed)
    (hvoid : type.isVoid = false) (after : Text) :
    takeValueType? (type.descriptor ++ after) = some (type, after) := by
  have helement : ∀ {type : TypeName}, type.WellFormedElement →
      takeValueType? (type.descriptor ++ after) = some (type, after) := by
    intro type h
    have hspan := (span_brackets 0 (head?_descriptor h after).1).1
    rw [List.replicate_zero, List.nil_append] at hspan
    unfold takeValueType?
    rw [hspan]
    exact takeElement?_descriptor h after
  cases type with
  | primitive kind => exact helement trivial
  | object name => exact helement h
  | array element dimensions =>
    obtain ⟨helement, hpositive⟩ := h
    obtain ⟨n, rfl⟩ := Nat.exists_eq_succ_of_ne_zero (Nat.pos_iff_ne_zero.mp hpositive)
    have hspan := span_brackets (n + 1) (head?_descriptor helement after).1
    unfold takeValueType?
    rw [descriptor, List.append_assoc, hspan.1, hspan.2, List.length_replicate]
    dsimp only
    rw [takeElement?_descriptor helement after]
    rfl
  | void => exact absurd hvoid Bool.noConfusion

/-- The first character of a type other than `void`. -/
theorem head?_descriptor_of_value {type : TypeName} (h : type.WellFormed)
    (hvoid : type.isVoid = false) (after : Text) :
    (type.descriptor ++ after).head? ≠ some 'V' := by
  cases type with
  | primitive kind =>
    have hkind : (primitive kind).WellFormedElement := trivial
    exact (head?_descriptor hkind after).2
  | object name =>
    have hname : (object name).WellFormedElement := h
    exact (head?_descriptor hname after).2
  | array element dimensions =>
    obtain ⟨n, rfl⟩ := Nat.exists_eq_succ_of_ne_zero (Nat.pos_iff_ne_zero.mp h.2)
    simp [descriptor, List.replicate_succ]
  | void => exact absurd hvoid Bool.noConfusion

/-- A type is read from its descriptor. -/
theorem take?_descriptor {type : TypeName} (h : type.WellFormed) (after : Text) :
    take? (type.descriptor ++ after) = some (type, after) := by
  cases hvoid : type.isVoid with
  | true =>
    obtain rfl : type = .void := by
      cases type <;> first | rfl | exact absurd hvoid Bool.false_ne_true
    rfl
  | false =>
    have hhead := head?_descriptor_of_value h hvoid after
    unfold take?
    split
    · rename_i heq
      exact absurd (congrArg List.head? heq) hhead
    · exact takeValueType?_descriptor h hvoid after

/-- A descriptor is read as its type. -/
theorem parse?_descriptor {type : TypeName} (h : type.WellFormed) :
    parse? type.descriptor = some type := by
  have htake := take?_descriptor h []
  rw [List.append_nil] at htake
  unfold parse?
  rw [htake]

/-- The same where a text that is no descriptor is a flaw. -/
theorem parse_descriptor {type : TypeName} (h : type.WellFormed) :
    parse type.descriptor = .ok type := by
  unfold parse
  rw [parse?_descriptor h]

/-- Types in a row are read up to a closing parenthesis. -/
theorem takeValueTypes_descriptors {types : List TypeName} (after : Text)
    (h : ∀ type ∈ types, type.WellFormed ∧ type.isVoid = false) :
    takeValueTypes ((types.map descriptor).flatten ++ ')' :: after) = (types, ')' :: after) := by
  induction types with
  | nil =>
    have hnone : takeValueType? (')' :: after) = none := rfl
    rw [List.map_nil, List.flatten_nil, List.nil_append, takeValueTypes]
    split
    · rfl
    · rename_i heq
      exact absurd (hnone.symm.trans heq) (Option.some_ne_none _).symm
  | cons type types ih =>
    obtain ⟨htype, hvoid⟩ := h type List.mem_cons_self
    have htake := takeValueType?_descriptor htype hvoid
      ((types.map descriptor).flatten ++ ')' :: after)
    rw [List.map_cons, List.flatten_cons, List.append_assoc, takeValueTypes]
    split
    · rename_i heq
      exact absurd (htake.symm.trans heq) (Option.some_ne_none _)
    · rename_i heq
      obtain ⟨rfl, rfl⟩ := Prod.mk.inj (Option.some.inj (htake.symm.trans heq))
      rw [ih fun type hmem => h type (List.mem_cons_of_mem _ hmem)]

end TypeName

/-- The signatures that descriptors denote. -/
structure Signature.WellFormed (signature : Signature) : Prop where
  /-- The parameters have values. -/
  params : ∀ type ∈ signature.params, type.WellFormed ∧ type.isVoid = false
  /-- The result is a type or `void`. -/
  result : signature.result.WellFormed

/-- A method descriptor is read as its signature. -/
theorem Signature.parse?_descriptor {signature : Signature} (h : signature.WellFormed) :
    parse? signature.descriptor = some signature := by
  have htext : signature.descriptor = '(' :: ((signature.params.map TypeName.descriptor).flatten ++
      ')' :: signature.result.descriptor) := by simp [descriptor]
  rw [htext, parse?, TypeName.takeValueTypes_descriptors _ h.params]
  simp only [TypeName.parse?_descriptor h.result, Option.map_some]

/-- The same where a text that is no descriptor is a flaw. -/
theorem Signature.parse_descriptor {signature : Signature} (h : signature.WellFormed) :
    parse signature.descriptor = .ok signature := by
  unfold parse
  rw [parse?_descriptor h]

end Smali
