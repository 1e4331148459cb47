import Smali.Proofs.ReadableValues

/-!
# Behind the closing line

A nested annotation is read up to its closing line. What stands behind this line is not looked at,
whatever it is: the text is read as if it ended there. So in an array, too, everything behind an
annotation up to the next comma of the array is left out, even another annotation.
-/

namespace Smali

open Text Literal

namespace Literal

/-- An outline without a flaw has found its closing line, and no line behind matters. -/
theorem outline_append {type : Text} {p : Pending} {ls : List Text}
    (h : (outline type p ls).flaw = none) (more : List Text) :
    outline type p (ls ++ more) = outline type p ls := by
  fun_induction outline type p ls with
  | case1 => cases h
  | case2 => cases h
  | case3 => cases h
  | case4 rest => rw [List.cons_append, outline, if_pos rfl]
  | case5 line rest hline hcut => cases h
  | case6 line rest hline before after hcut name value hopens ih =>
    rw [List.cons_append, outline, if_neg hline, hcut]
    dsimp only
    rw [if_pos hopens]
    exact ih h
  | case7 line rest hline before after hcut name value hopens hbraces ih =>
    rw [List.cons_append, outline, if_neg hline, hcut]
    dsimp only
    rw [if_neg hopens, if_pos hbraces]
    exact ih h
  | case8 line rest hline before after hcut name value hopens hbraces ih =>
    rw [List.cons_append, outline, if_neg hline, hcut]
    dsimp only
    rw [if_neg hopens, if_neg hbraces]
    exact congrArg (Outline.add name value) (ih h)
  | case9 name value count line rest text hopens ih =>
    rw [List.cons_append, outline, if_pos hopens]
    exact ih h
  | case10 name value count line rest text hopens hcloses hcount ih =>
    rw [List.cons_append, outline, if_neg hopens, if_pos hcloses, if_pos hcount]
    exact congrArg (Outline.add name text) (ih h)
  | case11 name value count line rest text hopens hcloses hcount ih =>
    rw [List.cons_append, outline, if_neg hopens, if_pos hcloses, if_neg hcount]
    exact ih h
  | case12 name value count line rest text hopens hcloses ih =>
    rw [List.cons_append, outline, if_neg hopens, if_neg hcloses]
    exact ih h
  | case13 name value depth line rest text depth' hdepth ih =>
    rw [List.cons_append, outline, if_pos hdepth]
    exact congrArg (Outline.add name text) (ih h)
  | case14 name value depth line rest text depth' hdepth ih =>
    rw [List.cons_append, outline, if_neg hdepth]
    exact ih h

/-- A text that is read as an annotation has the shape of one, and the outline has no flaw. -/
theorem exists_of_decode_annotated {t : Text} {type : TypeName} {elements : List (Text × Value)}
    (h : decode t = .ok (.annotated type elements)) :
    ∃ o, shape (trim t) = .annotated type o ∧ o.flaw = none ∧
      (o.elements.mapM fun e => (decode e.2).map fun v => (e.1, v)) = .ok elements := by
  cases hshape : shape (trim t) with
  | leaf result =>
    rw [decode_of_leaf hshape] at h
    exact absurd (isScalar_of_leaf (h ▸ hshape)) id
  | array parts =>
    rw [decode_of_array hshape] at h
    obtain ⟨_, -, h⟩ := exists_of_map_eq_ok h
    cases h
  | annotated found o =>
    rw [decode_of_annotated hshape] at h
    obtain ⟨read, hread, h⟩ := exists_of_bind_eq_ok h
    split at h
    · cases h
    · rename_i hflaw
      obtain ⟨rfl, rfl⟩ := Value.annotated.inj (Except.ok.inj h)
      exact ⟨o, rfl, hflaw, hread⟩

/-- More lines behind an annotation do not matter. -/
theorem decode_append_of_annotated {t : Text} {type : TypeName} {elements : List (Text × Value)}
    (h : decode t = .ok (.annotated type elements)) (u : Text) :
    decode (t ++ '\n' :: u) = .ok (.annotated type elements) := by
  obtain ⟨o, hshape, hflaw, helements⟩ := exists_of_decode_annotated h
  obtain ⟨after, ls, hlines, hparse, rfl⟩ := exists_of_annotated_shape hshape
  have hmore : codeLines (t ++ '\n' :: u) = (opening ++ after) :: (ls ++ codeLines u) := by
    rw [codeLines_append, ← codeLines_trim t, hlines]
    rfl
  rw [decode_of_annotated (shape_of_opening hmore hparse), outline_append hflaw, helements, hflaw]
  rfl

end Literal

/-- A text that is read as an annotation is read as the same one with any text on the lines behind
it. The same holds for an element of an array: all that stands behind the annotation up to the next
comma of the array is left out. -/
theorem annotation_hides_rest {t : Text} {type : TypeName} {elements : List (Text × Value)}
    (h : decode t = .ok (.annotated type elements)) :
    (∀ u, decode (t ++ '\n' :: u) = .ok (.annotated type elements)) ∧
      ∀ inner before after u, splitElements inner = before ++ (t ++ '\n' :: u) :: after →
        decode ('\x7b' :: (inner ++ ['\x7d'])) =
          ((before ++ t :: after).mapM decode).map .array := by
  refine ⟨decode_append_of_annotated h, fun inner before after u hinner => ?_⟩
  rw [decode_braced, hinner, List.mapM_append, List.mapM_append, List.mapM_cons, List.mapM_cons,
    decode_append_of_annotated h u, h]

/-- An annotation without elements. -/
theorem decode_withoutElements :
    decode ".subannotation La;\n.end subannotation" = .ok (.annotated (.object "a") []) := by
  have htype : (TypeName.object "a").IsPlain :=
    ⟨by decide, fun _ hmem => Option.some.inj hmem ▸ IsIdentifier.isClassName (by decide)⟩
  have hplain : (Value.annotated (.object "a") []).IsPlain :=
    .annotated htype (fun _ he => absurd he List.not_mem_nil) fun _ he => absurd he List.not_mem_nil
  exact hplain.decode_of_lines
    (.annotated (fun _ he => absurd he List.not_mem_nil) fun _ he => absurd he List.not_mem_nil) rfl

/-- An annotation with another word behind it, and an array of two annotations without a comma
between them. -/
theorem annotation_hides_rest_at :
    decode ".subannotation La;\n.end subannotation\nfoo" = .ok (.annotated (.object "a") []) ∧
      decode ("\x7b.subannotation La;\n.end subannotation\n.subannotation Lb;\n" ++
        ".end subannotation\x7d") = .ok (.array [.annotated (.object "a") []]) := by
  obtain ⟨hrest, harray⟩ := annotation_hides_rest decode_withoutElements
  refine ⟨hrest "foo", ?_⟩
  have hsplit : splitElements (".subannotation La;\n.end subannotation\n.subannotation Lb;\n" ++
      ".end subannotation") =
      [] ++ ((".subannotation La;\n.end subannotation" : Text) ++
        '\n' :: (".subannotation Lb;\n.end subannotation" : Text)) :: [] := by decide +kernel
  have hread := harray _ [] [] _ hsplit
  rw [List.nil_append, List.mapM_cons, decode_withoutElements] at hread
  exact hread

/-- An annotation with more text on the lines behind it is not always refused. -/
theorem annotation_hides_rest_not_refused :
    ¬∀ (t u : Text) (type : TypeName) (elements : List (Text × Value)),
      decode t = .ok (.annotated type elements) → (∃ c ∈ u, isBlank c = false) →
        ∃ flaw, decode (t ++ '\n' :: u) = .error flaw := by
  intro hclaim
  obtain ⟨flaw, hflaw⟩ := hclaim _ "foo" _ _ decode_withoutElements
    ⟨'f', by decide, rfl⟩
  rw [decode_append_of_annotated decode_withoutElements] at hflaw
  cases hflaw

end Smali
