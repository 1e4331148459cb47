import Smali.Proofs.ArrayParts

/-!
# Literals on one line

A simple value is written on one line, however deep its arrays go. One look at the line tells the
form of the value, since its names hold none of the characters that forms differ in, and quotes
hide everything that the texts in it may hold. So the line is read as the value.
-/

namespace Smali

open Text Literal

/-- An array may stand in a list if its elements may. -/
theorem Literal.isListed_encodeArray {parts : List Text} (h : ∀ part ∈ parts, IsListed part) :
    IsListed (encodeArray parts) := by
  have hinline : ∀ part ∈ parts, IsInline part := fun part hpart => (h part hpart).line.inline
  have hlevel := isLevel_encodeArray (fun part hpart => (h part hpart).level) hinline
  have hany : parts.any (·.contains '\n') = false := by
    rw [List.any_eq_false]
    intro part hpart
    rw [List.contains_eq_mem, decide_eq_true_iff]
    exact hinline part hpart
  have hform : ∃ middle, encodeArray parts = '\x7b' :: (middle ++ ['\x7d']) ∧
      ∀ c ∈ middle, isBlank c = true → c = ' ' := by
    unfold encodeArray
    split
    · exact ⟨[], rfl, fun _ hc => absurd hc List.not_mem_nil⟩
    · rw [hany, if_neg Bool.false_ne_true]
      refine ⟨' ' :: ([',', ' '].intercalate parts ++ [' ']), by simp, ?_⟩
      have hmiddle : ∀ c ∈ [',', ' '].intercalate parts, isBlank c = true → c = ' ' :=
        forall_mem_intercalate (List.forall_mem_cons.mpr
          ⟨nofun, List.forall_mem_singleton.mpr fun _ => rfl⟩) fun part hpart => (h part hpart).spaced
      exact List.forall_mem_cons.mpr ⟨fun _ => rfl, List.forall_mem_append.mpr
        ⟨hmiddle, List.forall_mem_singleton.mpr fun _ => rfl⟩⟩
  obtain ⟨middle, hmiddle, hspaced⟩ := hform
  have hinlineArray := isInline_encodeArray hinline
  rw [hmiddle] at hlevel hinlineArray ⊢
  have hlast : ('\x7b' :: (middle ++ ['\x7d'])).getLast? = some '\x7d' := by
    rw [← List.cons_append]
    exact List.getLast?_concat
  refine ⟨⟨hinlineArray, isTrimmed_of_ends rfl hlast rfl rfl, List.cons_ne_nil _ _⟩, hlevel, ?_⟩
  exact List.forall_mem_cons.mpr ⟨nofun, List.forall_mem_append.mpr
    ⟨hspaced, List.forall_mem_singleton.mpr nofun⟩⟩

namespace Value

/-- A simple value is written on a line that may stand in a list, and it is read from this line. -/
theorem IsSimple.listed_and_read {v : Value} (h : v.IsSimple) :
    IsListed v.encode ∧ decode v.encode = .ok v := by
  have hscalar : ∀ {v : Value}, v.IsSimple → v.IsScalar →
      IsListed v.encode ∧ decode v.encode = .ok v := by
    intro v h hs
    have hlisted := h.isListed_scalar hs
    refine ⟨hlisted, decode_of_leaf ?_⟩
    rw [hlisted.line.trimmed.trim_eq, h.shape_encode hs]
  induction h with
  | int n => exact hscalar (.int n) trivial
  | long n => exact hscalar (.long n) trivial
  | short n => exact hscalar (.short n) trivial
  | byte n => exact hscalar (.byte n) trivial
  | string text => exact hscalar (.string text) trivial
  | char c => exact hscalar (.char c) trivial
  | bool b => exact hscalar (.bool b) trivial
  | null => exact hscalar .null trivial
  | typeName h => exact hscalar (.typeName h) trivial
  | enumeration howner hname htype => exact hscalar (.enumeration howner hname htype) trivial
  | field howner hname htype => exact hscalar (.field howner hname htype) trivial
  | method howner hname hsignature => exact hscalar (.method howner hname hsignature) trivial
  | @array values h ih =>
    have hparts : ∀ part ∈ values.map encode, IsListed part := by
      intro part hpart
      obtain ⟨v, hv, rfl⟩ := List.mem_map.mp hpart
      exact (ih v hv).1
    have hlisted : IsListed (Value.array values).encode := by
      rw [encode_array]
      exact isListed_encodeArray hparts
    have hshape : shape (trim (Value.array values).encode) = .array (values.map encode) := by
      rw [hlisted.line.trimmed.trim_eq, encode_array]
      exact shape_encodeArray
        (areParts_of_isClosed fun part hpart => (hparts part hpart).level.isClosed)
        fun part hpart => (hparts part hpart).line
    have hvalues : (values.map encode).mapM decode = .ok values := by
      refine mapM_eq_ok_iff.mpr (List.forall₂_map_left_iff.mpr ?_)
      exact List.forall₂_same.mpr fun v hv => (ih v hv).2
    refine ⟨hlisted, ?_⟩
    rw [decode_of_array hshape, hvalues]
    rfl

end Value

/-- A simple value is written without a line break, and what is written is read as the value. -/
theorem decode_encode_simple (v : Value) (h : v.IsSimple) :
    v.IsInline ∧ (∀ c ∈ v.encode, isBlank c = true → c = ' ') ∧ decode v.encode = .ok v := by
  obtain ⟨hlisted, hread⟩ := h.listed_and_read
  exact ⟨hlisted.line.inline, hlisted.spaced, hread⟩

/-- A value of many forms, whose names and texts look like other forms. -/
def Value.ofManyForms : Value :=
  .array
    [.array [], .long (-1), .byte 127, .char '\'', .string "\x7d, \"\n-> 0x1",
      .enumeration (.object "a-b[#=") "x->y" (.array (.primitive .int) 2),
      .array [.method (.object "null") "<;>" ⟨[.array (.object ">L.enum") 1], .void⟩,
        .field .void "0x1L" (.primitive .boolean), .typeName (.object "true"), .bool true, .null]]

/-- It is read back all the same. -/
theorem decode_encode_manyForms :
    Value.ofManyForms.IsSimple ∧ Value.ofManyForms.IsInline ∧
      (∀ c ∈ Value.ofManyForms.encode, isBlank c = true → c = ' ') ∧
      decode Value.ofManyForms.encode = .ok Value.ofManyForms := by
  have hobject : ∀ {name : Text}, (TypeName.object name).WellFormed →
      name.all isSimpleChar = true → ¬"->".toList <:+: name → (TypeName.object name).IsSimple := by
    intro name hname hchars harrow
    refine ⟨hname, ?_, ?_⟩
    · rintro _ ⟨⟩
      exact List.all_eq_true.mp hchars
    · rintro _ ⟨⟩
      exact harrow
  have hvoid : TypeName.void.IsSimple := ⟨trivial, nofun, nofun⟩
  have hprimitive : ∀ kind, (TypeName.primitive kind).IsSimple := fun _ => ⟨trivial, nofun, nofun⟩
  have hints : (TypeName.array (.primitive .int) 2).IsSimple := ⟨by decide, nofun, nofun⟩
  have hparam : (TypeName.array (.object ">L.enum") 1).IsSimple := by
    obtain ⟨-, hchars, harrow⟩ : (TypeName.object ">L.enum").IsSimple :=
      hobject (by decide) rfl (by decide +kernel)
    exact ⟨by decide, hchars, harrow⟩
  have hmembers : ∀ v ∈ [Value.method (.object "null") "<;>" ⟨[.array (.object ">L.enum") 1], .void⟩,
      .field .void "0x1L" (.primitive .boolean), .typeName (.object "true"), .bool true, .null],
      v.IsSimple := by
    refine List.forall_mem_cons.mpr ⟨?_, List.forall_mem_cons.mpr ⟨?_, List.forall_mem_cons.mpr
      ⟨?_, List.forall_mem_cons.mpr ⟨.bool true, List.forall_mem_singleton.mpr .null⟩⟩⟩⟩
    · exact .method (hobject (by decide) rfl (by decide +kernel)) ⟨by decide, List.all_eq_true.mp rfl⟩
        ⟨List.forall_mem_singleton.mpr ⟨hparam, rfl⟩, hvoid⟩
    · exact .field hvoid ⟨by decide, List.all_eq_true.mp rfl⟩ (hprimitive .boolean)
    · exact .typeName (hobject (by decide) rfl (by decide +kernel))
  have hsimple : Value.ofManyForms.IsSimple := by
    refine .array (List.forall_mem_cons.mpr ⟨.array (List.forall_mem_nil _),
      List.forall_mem_cons.mpr ⟨.long (-1), List.forall_mem_cons.mpr ⟨.byte 127,
      List.forall_mem_cons.mpr ⟨.char '\'', List.forall_mem_cons.mpr ⟨.string "\x7d, \"\n-> 0x1",
      List.forall_mem_cons.mpr ⟨?_, List.forall_mem_singleton.mpr (.array hmembers)⟩⟩⟩⟩⟩⟩)
    exact .enumeration (hobject (by decide) rfl (by decide +kernel))
      ⟨by decide, List.all_eq_true.mp rfl⟩ hints
  exact ⟨hsimple, decode_encode_simple Value.ofManyForms hsimple⟩

end Smali
