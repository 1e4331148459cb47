import Smali.Proofs.KeptValues

/-!
# Canonical forms
-/

namespace Smali

open Text Literal

/-- A kept value is read back from its written form. -/
theorem Value.decode_encode_of_isKept {v : Value} (h : IsAccepted false v)
    (hkept : v.IsScalar ∨ IsKept false v) : decode v.encode = .ok v := by
  obtain hs | hkept := hkept
  · cases h with
    | scalar tidy shape => exact decode_of_leaf (tidy.trimmed.trim_eq.symm ▸ shape)
    | array => exact absurd hs id
    | annotated => exact absurd hs id
  · exact Value.decode_of_isKept h hkept rfl (fun hg => absurd hg Bool.false_ne_true)

/-- The written form of a value that was read and is kept is canonical: it is read as a value that
is written the same way. -/
theorem canonical_of_isKept {t : Text} {v : Value} (h : decode t = .ok v) (hv : v.IsFloatless)
    (hkept : v.IsScalar ∨ Value.IsKept false v) :
    ∃ w, decode v.encode = .ok w ∧ w.encode = v.encode :=
  ⟨v, Value.decode_encode_of_isKept
    (Value.isAccepted_of_decode h hv fun hg => absurd hg Bool.false_ne_true) hkept, rfl⟩

/-- An annotation with one element is read from lines that hold its value. -/
theorem decode_element {t line before after : Text} {ls : List Text} {v : Value}
    (hlines : codeLines t = (opening ++ " La;".toList) :: line :: (ls ++ [closing]))
    (hcut : Text.cut? (· == '=') line = some (before, after))
    (hgathered : isGathered (trim after) ls = true) (hv : decode (below (trim after) ls) = .ok v) :
    decode t = .ok (.annotated (.object "a") [(trim before, v)]) := by
  have hwell : (TypeName.object "a").WellFormed := by decide
  have htype : TypeName.parse (trim " La;") = .ok (.object "a") := TypeName.parse_descriptor hwell
  have houtlines := Outlines.element (ne_closing_of_cut? hcut) hcut hgathered (.closing [])
  have hshape := shape_of_opening hlines htype
  rw [outline_eq_iff.mpr houtlines] at hshape
  rw [decode_of_annotated hshape]
  dsimp only
  rw [List.mapM_cons, hv]
  rfl

/-- An annotation whose element is an array of scalars. -/
def Value.listing : Value := .annotated (.object "a") [("x", .array [.string "b,", .null])]

/-- It is read from lines that part the array between its values, and it is written on one line,
which is read as the same value. -/
theorem canonical_of_isKept_listing :
    decode ".subannotation La;\nx = \x7b\n\"b,\"\n, null\n\x7d\n.end subannotation" =
        .ok Value.listing ∧
      ∃ w, decode Value.listing.encode = .ok w ∧ w.encode = Value.listing.encode := by
  have hstring : decode "\"b,\"" = .ok (.string "b,") := decode_of_leaf (shape_string "b,")
  have hnull : decode "null" = .ok .null := decode_of_leaf rfl
  have harray : decode "\x7b\n\"b,\"\n, null\n\x7d" = .ok (.array [.string "b,", .null]) := by
    have hsplit : splitElements "\n\"b,\"\n, null\n" = [("\"b,\"" : Text), "null"] := by
      decide +kernel
    have hread := decode_braced "\n\"b,\"\n, null\n"
    rw [hsplit, List.mapM_cons, hstring, List.mapM_cons, hnull] at hread
    exact hread
  have hcut : Text.cut? (· == '=') "x = \x7b" = some ("x ".toList, " \x7b".toList) := by decide
  have hgathered : isGathered (trim " \x7b") ["\"b,\"", ", null", ['\x7d']] = true := by decide
  have hread : decode ".subannotation La;\nx = \x7b\n\"b,\"\n, null\n\x7d\n.end subannotation" =
      .ok Value.listing := decode_element (by decide +kernel) hcut hgathered harray
  refine ⟨hread, canonical_of_isKept hread (.annotated ?_) (.inr (.annotated ?_ ?_))⟩
  · refine List.forall_mem_singleton.mpr (.array ?_)
    simp only [List.forall_mem_cons]
    exact ⟨.scalar trivial nofun nofun, .scalar trivial nofun nofun, List.forall_mem_nil _⟩
  · exact List.forall_mem_singleton.mpr ⟨_, _, rfl, by decide +kernel⟩
  · refine List.forall_mem_singleton.mpr (.array (areParts_encode ?_) ?_)
    · simp only [List.forall_mem_cons]
      exact ⟨.string _, .null, List.forall_mem_nil _⟩
    · simp only [List.forall_mem_cons]
      exact ⟨.scalar trivial nofun, .scalar trivial nofun, List.forall_mem_nil _⟩

/-- An annotation with an array whose text feigns an opening. -/
def Value.feigning : Value := .annotated (.object "a") [("x", .array [.string "=.subannotation"])]

/-- It is read from lines that part the array from its text. -/
theorem decode_feigning :
    decode ".subannotation La;\nx = \x7b\n\"=.subannotation\"\n\x7d\n.end subannotation" =
      .ok Value.feigning := by
  have hsplit : splitElements "\n\"=.subannotation\"\n" = [("\"=.subannotation\"" : Text)] := by
    decide +kernel
  have hstring : decode "\"=.subannotation\"" = .ok (.string "=.subannotation") :=
    decode_of_leaf (shape_string "=.subannotation")
  have harray : decode "\x7b\n\"=.subannotation\"\n\x7d" =
      .ok (.array [.string "=.subannotation"]) := by
    have hread := decode_braced "\n\"=.subannotation\"\n"
    rw [hsplit, List.mapM_cons, hstring] at hread
    exact hread
  have hcut : Text.cut? (· == '=') "x = \x7b" = some ("x ".toList, " \x7b".toList) := by decide
  have hgathered : isGathered (trim " \x7b") ["\"=.subannotation\"", ['\x7d']] = true := by decide
  exact decode_element (by decide +kernel) hcut hgathered harray

/-- Its written form cannot be read. -/
theorem canonical_feigning_fails :
    ¬∀ (t : Text) (v : Value), decode t = .ok v → v.IsFloatless →
      ∃ w, decode v.encode = .ok w ∧ w.encode = v.encode := by
  intro hclaim
  have hfloatless : Value.feigning.IsFloatless := by
    refine .annotated (List.forall_mem_singleton.mpr (.array (List.forall_mem_singleton.mpr ?_)))
    exact .scalar trivial nofun nofun
  obtain ⟨w, hw, -⟩ := hclaim _ _ decode_feigning hfloatless
  have htype : (TypeName.object "a").IsPlain :=
    ⟨by decide, fun _ hmem => Option.some.inj hmem ▸ IsIdentifier.isClassName (by decide)⟩
  have hplain : Value.feigning.IsPlain :=
    .annotated htype (by decide) (List.forall_mem_singleton.mpr
      (.array (List.forall_mem_singleton.mpr (.string "=.subannotation"))))
  cases hplain.isReadable_of_decode rfl hw with
  | scalar hs => exact hs
  | annotated hlines h => exact hlines _ List.mem_cons_self ⟨by decide, by decide⟩

end Smali
