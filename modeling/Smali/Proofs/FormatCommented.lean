import Smali.Proofs.CallsAloud

/-!
# Formatting twice with comments

The layout of a source with its comments is its own layout again, if no comment stands on a line of
its own in a field without annotations: such a field has no end in the code, and so the comment is
read as one of the class.
-/

namespace Smali

/-- The code of a source with its comments is formatted to itself, if no annotation of the class
strays, no comment is held in a field without annotations, and every other call is read aloud. -/
theorem format_commented {o : Options} (ho : o.IsAttentive) {source code : Text}
    (hformat : format o source = .ok code) :
    ∃ events told, heard o source = .ok events ∧
      events.map Recorder.Event.call = told ++ [.finish] ∧
      (¬Strays (told.filter fun c => !c.isComment) → ¬HoldsComment told →
        (∀ call ∈ told, call.isComment = false → call.ReadsAloud) → format o code = .ok code) := by
  have hcode := format_commented_eq ho source
  rw [hformat] at hcode
  obtain ⟨told, htold, rfl⟩ := Option.map_eq_some_iff.mp hcode.symm
  have hheard := heard_commented_eq ho source
  rw [htold] at hheard
  refine ⟨Recorder.eventsOf told, told, toOption_eq_some.mp hheard,
    Recorder.calls_eventsOf_commented htold, fun hstrays hheld haloud => ?_⟩
  have hstrict := strictCalls_of_commentedCalls htold
  obtain ⟨s, hrun, hends⟩ := run_of_strictCalls hstrict
  have hquiet : ∀ call ∈ told, call.isComment = false →
      call ∈ told.filter fun c => !c.isComment := fun call hcall hcode =>
    List.mem_filter.mpr ⟨hcall, by simp [hcode]⟩
  have hone : ∀ call ∈ told, call.IsOneLine := by
    intro call hcall
    cases hcode : call.isComment with
    | true =>
      refine isOneLine_of_line?_eq_none ?_
      cases call <;> first | rfl | cases hcode
    | false => exact isOneLine_of_strictCalls hstrict call (hquiet call hcall hcode)
  -- Other calls have the same code, and their comments are found where they stand.
  obtain ⟨calls, hcalls⟩ := exists_settles (Writer.wrote_initial _) rfl
    (isNote_of_commentedCalls htold) hone (head_commentedCalls htold) hheld hrun
  have haudible : ∀ call ∈ calls, call.isComment = false → call.IsAudible := by
    intro call hcall hcode
    have hmem : call ∈ calls.filter fun c => !c.isComment :=
      List.mem_filter.mpr ⟨hcall, by simp [hcode]⟩
    rw [hcalls.code] at hmem
    have htoldCall := List.mem_of_mem_filter hmem
    exact (haloud call htoldCall hcode).isAudible hcode (hone call htoldCall)
  have hread := hcalls.noted.commentedCalls_codeOf hends haudible (hcalls.code ▸ hstrays)
  rw [Writer.codeOf_congr hcalls.behind_eq] at hread
  have hagain := format_commented_eq ho (Writer.codeOf told)
  rw [hread, Option.map_some, Writer.codeOf_congr hcalls.behind_eq] at hagain
  exact toOption_eq_some.mp hagain

/-- Whether calls are those of a class with one field, a comment behind the field, and another one
in the class. -/
def isRemarkedField : List Call → Bool
  | [.header type access, .field name fieldAccess fieldType none, .eolComment text, .finish,
      .comment words, .finish] =>
    decide (type = .object "A".toList ∧ access = .none ∧ name = "x".toList ∧ fieldAccess = .none ∧
      fieldType = .primitive .int ∧ text = "c".toList ∧ words = "note".toList)
  | _ => false

/-- A class with one field and two comments. -/
theorem format_commented_field :
    format .aloud ".class LA;\n.field x:I # c\n# note\n".toList =
        .ok ".class LA;\n\n.field x:I # c\n\n# note\n".toList ∧
      format .aloud ".class LA;\n\n.field x:I # c\n\n# note\n".toList =
        .ok ".class LA;\n\n.field x:I # c\n\n# note\n".toList := by
  have hformat : format .aloud ".class LA;\n.field x:I # c\n# note\n".toList =
      .ok ".class LA;\n\n.field x:I # c\n\n# note\n".toList := by decide +kernel
  have hread : (heard .aloud ".class LA;\n.field x:I # c\n# note\n".toList).toOption.any
      (fun events => isRemarkedField (events.map Recorder.Event.call)) = true := by decide +kernel
  obtain ⟨events, told, hevents, hcalls, hagain⟩ := format_commented ⟨rfl, rfl⟩ hformat
  have htold : told = [standInClass, .field "x" .none (.primitive .int) none, .eolComment "c",
      .finish, .comment "note"] := by
    rw [hevents, toOption_ok, Option.any_some, isRemarkedField.eq_def] at hread
    split at hread
    · next heq =>
      obtain ⟨rfl, rfl, rfl, rfl, rfl, rfl, rfl⟩ := of_decide_eq_true hread
      rw [hcalls] at heq
      exact List.dropLast_concat.symm.trans (congrArg List.dropLast heq)
    · exact nomatch hread
  subst htold
  have hname : Text.IsIdentifier "x" := by decide
  have hint : (TypeName.primitive .int).IsPlain := ⟨trivial, nofun⟩
  have hfield : (Call.field "x" .none (.primitive .int) none).IsLegible :=
    Call.isLegible_field hname _ hint rfl nofun
  have hone : (Call.field "x" .none (.primitive .int) none).IsOneLine := by
    refine isOneLine_of_isInline (fun text htext => ?_) nofun
    obtain rfl := Option.some.inj htext
    decide
  refine ⟨hformat, hagain (by decide) (by decide) fun call hcall hcode => ?_⟩
  simp only [List.mem_cons, List.not_mem_nil, or_false] at hcall
  obtain rfl | rfl | rfl | rfl | rfl := hcall
  · exact (Call.readsAloud_iff rfl isOneLine_standIns.1).mpr
      (Call.isAudible_finish.isAudible_alone _ List.mem_cons_self)
  · exact (Call.readsAloud_iff rfl hone).mpr (hfield.isAudible hone rfl (by decide +kernel))
  · exact nomatch hcode
  · exact (Call.readsAloud_iff rfl (isOneLine_of_line?_eq_none rfl)).mpr Call.isAudible_finish
  · exact nomatch hcode

/-- A comment in a field without annotations. The field loses its closing line, so the comment is
read as one of the class. -/
theorem format_commented_held :
    format ⟨true, false, false, .strict⟩ ".class La;\n.field x:I\n# c\n.end field\n".toList =
        .ok ".class La;\n\n.field x:I\n    # c\n".toList ∧
      format ⟨true, false, false, .strict⟩ ".class La;\n\n.field x:I\n    # c\n".toList =
        .ok ".class La;\n\n.field x:I\n\n# c\n".toList :=
  ⟨by decide +kernel, by decide +kernel⟩

end Smali
