import Smali.Proofs.CallLines
import Smali.Proofs.MethodCalls
import Smali.Proofs.Trace

/-!
# Lines of local variables

Behind the register of a local variable its name or the word `null`, its type and its signature are
written. The reader tells these operands apart by the colon in front of the type. So a local
variable with a type is read from its line whatever its name and its signature are made of, and one
of which only the register is known is read too. A name or a signature without a type is written all
the same, but a strict reader refuses the line.
-/

namespace Smali

open Text

namespace Call

/-! ## Local variables without a type -/

/-- The line of a local variable without a type. -/
theorem localLine_untyped (register : Text) (name signature : Option Text) :
    Writer.localLine register name none signature =
      ".local".toList ++
        ' ' :: (register ++ (writtenSignature name ++ writtenSignature signature)) := by
  unfold Writer.localLine writtenSignature
  cases name <;> cases signature <;> simp

/-- What is written of a local variable with a name or a signature but without a type. -/
theorem exists_quoted_of_untyped {name signature : Option Text}
    (h : name ≠ none ∨ signature ≠ none) :
    ∃ first second, writtenSignature name ++ writtenSignature signature =
      ',' :: ' ' :: (Writer.quoted first ++ writtenSignature second) := by
  cases name with
  | some name => exact ⟨name, signature, rfl⟩
  | none =>
    cases signature with
    | some signature => exact ⟨signature, none, (List.append_nil _).symm ▸ rfl⟩
    | none => simp at h

section Untyped

variable {register : Text} (h : register.IsOperand) (hcomma : ',' ∉ register) (first : Text)
  (second : Option Text)

include h hcomma

/-- A name that no type follows is refused. -/
theorem localVariable_untyped {l : Line} (harguments : l.arguments =
      register ++ ',' :: ' ' :: (Writer.quoted first ++ writtenSignature second)) :
    l.localVariable = .error (l.grammar ("malformed .local '" ++ l.text ++ "'")) := by
  have hquoted := isTrimmed_writtenSignature (isTrimmed_quoted first) (List.cons_ne_nil _ _) second
  have htrim : trim (' ' :: (Writer.quoted first ++ writtenSignature second)) =
      Writer.quoted first ++ writtenSignature second :=
    (trim_append_left (w := [' ']) (by decide) _).trans hquoted.trim_eq
  rw [Line.localVariable, harguments, cutArguments_of_not_mem hcomma, htrim]
  dsimp only
  rw [h.isTrimmed.trim_eq, h.isTrimmed.trim_eq, l.register_eq h]
  dsimp only [bind, Except.bind]
  rw [localName_quoted]
  cases second <;> rfl

/-- The line of such a name stands for no call. -/
theorem bodyCall?_untyped {l : Line} (hl : lineOf (".local".toList ++ ' ' ::
      (register ++ ',' :: ' ' :: (Writer.quoted first ++ writtenSignature second))) = some l)
    (hscans : Text.Scans (register ++
      ',' :: ' ' :: (Writer.quoted first ++ writtenSignature second))) : l.bodyCall? = none := by
  obtain ⟨found, hfound, hd, harguments, -⟩ := exists_line_of_isKeyword
    (.of_all rfl rfl : IsKeyword ".local".toList) hscans.space (by rintro _ ⟨⟩; rfl)
  obtain rfl := Option.some.inj (hl.symm.trans hfound)
  have htrim := h.isTrimmed.append h.ne_nil
    (isTrimmed_writtenSignature (isTrimmed_quoted first) (List.cons_ne_nil _ _) second)
    (List.cons_ne_nil _ _) [',', ' ']
  have hspace : trim (' ' :: (register ++ ',' :: ' ' ::
      (Writer.quoted first ++ writtenSignature second))) =
      register ++ ',' :: ' ' :: (Writer.quoted first ++ writtenSignature second) :=
    (trim_append_left (w := [' ']) (by decide) _).trans htrim.trim_eq
  have hlocal : l.directive? = some .localVariable := hd
  rw [Line.bodyCall?, hlocal]
  dsimp only
  rw [localVariable_untyped h hcomma first second (harguments.trans hspace)]
  rfl

end Untyped

/-- The line of a local variable is scanned to its end. -/
theorem scans_localLine {register : Text} (h : register.IsIdentifier) (name signature : Option Text)
    {type : Option TypeName} (htype : ∀ t ∈ type, t.IsPlain) :
    (Writer.localLine register name type signature).Scans := by
  have hline : ∀ {rest : Text}, IsCode rest → (∀ c ∈ rest.head?, endsWord c = true) →
      Text.Scans (".local".toList ++ ' ' :: (register ++ rest)) := fun hrest hends =>
    (IsCode.word (.of_isKeyword (.of_all rfl rfl)) (by rintro _ ⟨⟩; rfl)
      (IsCode.word h.isWord hends hrest).space).scans
  cases type with
  | some type =>
    rw [localLine_eq]
    exact hline (.mark rfl (isCode_declaredLocal name (htype type rfl) signature).space)
      (by rintro _ ⟨⟩; rfl)
  | none =>
    have hsignature := isCode_writtenSignature signature
    have hends := endsWord_writtenSignature signature
    rw [localLine_untyped]
    cases name with
    | none => exact hline hsignature hends
    | some name =>
      exact hline ((isCode_writtenSignature (some name)).append hsignature hends)
        (by rintro _ ⟨⟩; rfl)

end Call

/-! ## In a method -/

section Methods

variable {o : Options} (h : o.errors = .strict) {c : Control} {m : OpenMethod} {outer : List Frame}
  (hc : c.frames = .method m :: outer)

include h hc

/-- A line that stands for no call is refused in a method. -/
theorem course_take_of_bodyCall?_eq_none {l : Line} (hcomment : l.isComment = false)
    (hl : l.bodyCall? = none) : Dialogue.course o (c.take l) = none := by
  rcases htake : Dialogue.course o (c.take l) with _ | ⟨c', moves⟩
  · rfl
  · obtain ⟨call, -, hcall, -⟩ := exists_of_course_take h hc hcomment htake
    rw [hl] at hcall
    cases hcall

/-- A local variable that is read from its line is told as it was written, and leaves the method as
it was. -/
theorem exists_take_of_isLegible_local {register : Text} {name : Option Text}
    {type : Option TypeName} {signature : Option Text}
    (hscans : (Writer.localLine register name type signature).Scans)
    (hlegible : (Call.localVariable register name type signature).IsLegible) (number : Nat) :
    ∃ l, Line.ofText number (Page.indent 1 ++ Writer.localLine register name type signature) =
        .ok l ∧
      Dialogue.course o (c.take l) =
        some (c, [.tell (.localVariable register name type signature)]) := by
  obtain ⟨l, hl, -, htake⟩ := exists_take_of_isLegible h hc rfl hscans hlegible number
  have hadmits : m.admits o (.localVariable register name type signature) = true := by
    simp [OpenMethod.admits, Call.kind, Site.allows]
  have htold : m.told (.localVariable register name type signature) = m := rfl
  rw [hadmits, if_pos rfl, htold, ← hc] at htake
  exact ⟨l, hl, htake⟩

/-- A local variable with a name or a signature but without a type is refused where it is
written. -/
theorem exists_refused_of_untyped {register : Text} (hregister : register.IsIdentifier)
    {name signature : Option Text} (huntyped : name ≠ none ∨ signature ≠ none) (number : Nat) :
    ∃ l, Line.ofText number (Page.indent 1 ++ Writer.localLine register name none signature) =
        .ok l ∧
      Dialogue.course o (c.take l) = none := by
  have hscans : (Writer.localLine register name none signature).Scans :=
    Call.scans_localLine hregister name signature fun t ht => absurd ht (Option.not_mem_none t)
  obtain ⟨l, hl, hremark, hline⟩ := exists_ofText_indent hscans number 1
  obtain ⟨first, second, htext⟩ := Call.exists_quoted_of_untyped huntyped
  rw [Call.localLine_untyped, htext] at hscans hline
  have harguments := (scans_keyword (.of_all rfl rfl)).mp hscans
  have hbody : l.bodyCall? = none := by
    rw [← Line.bodyCall?_unplaced]
    exact Call.bodyCall?_untyped hregister.isOperand (hregister.isBare.not_mem (by decide)) first
      second hline harguments
  exact ⟨l, hl, course_take_of_bodyCall?_eq_none h hc (isComment_of_remark hremark) hbody⟩

/-- In a method, what is written for a local variable is read as the same local variable, whatever
its name and its signature are made of, if it has a type or neither name nor signature. Otherwise a
strict reader refuses the line. -/
theorem local_line_reread {register : Text} (hregister : register.IsIdentifier)
    (name signature : Option Text) {type : Option TypeName} (htype : ∀ t ∈ type, t.IsPlain)
    (number : Nat) :
    ∃ text l, (Call.localVariable register name type signature).IsWrittenAs text ∧
      Line.ofText number text = .ok l ∧
      Dialogue.course o (c.take l) =
        if type.isSome || name.isNone && signature.isNone then
          some (c, [.tell (.localVariable register name type signature)])
        else none := by
  have hwritten : (Call.localVariable register name type signature).IsWrittenAs
      (Page.indent 1 ++ Writer.localLine register name type signature) :=
    Call.isWrittenAs_of_methodLine? rfl
  have hscans := Call.scans_localLine hregister name signature htype
  cases type with
  | some type =>
    obtain ⟨l, hl, htake⟩ := exists_take_of_isLegible_local h hc hscans
      (Call.isLegible_localVariable_some hregister name (htype type rfl) signature) number
    exact ⟨_, l, hwritten, hl, htake⟩
  | none =>
    by_cases huntyped : name ≠ none ∨ signature ≠ none
    · obtain ⟨l, hl, htake⟩ := exists_refused_of_untyped h hc hregister huntyped number
      refine ⟨_, l, hwritten, hl, htake.trans (if_neg ?_).symm⟩
      simpa [imp_iff_not_or] using huntyped
    · rw [not_or, not_not, not_not] at huntyped
      obtain ⟨rfl, rfl⟩ := huntyped
      obtain ⟨l, hl, htake⟩ := exists_take_of_isLegible_local h hc hscans
        (Call.isLegible_localVariable_none hregister) number
      exact ⟨_, l, hwritten, hl, htake⟩

end Methods

/-- A name with a colon, a comma and quotes in it, a type and a signature with a number sign. -/
theorem local_line_reread_at :
    let c : Control := ⟨.method, [], [.method ⟨⟨2, 1⟩, "m", .none, false⟩]⟩
    let call : Call := .localVariable "v0" (some "a:I, \"b\"") (some (.object "java/lang/String"))
      (some "# s")
    ∃ text l, call.IsWrittenAs text ∧ Line.ofText 3 text = .ok l ∧
      Dialogue.course .default (c.take l) = some (c, [.tell call]) := by
  intro c call
  have hclass : Text.IsClassName "java/lang/String" :=
    ⟨["java".toList, "lang".toList, "String".toList], by decide, by decide, by decide⟩
  have htype : ∀ t ∈ some (TypeName.object "java/lang/String".toList), t.IsPlain := by
    rintro _ ⟨⟩
    refine ⟨by decide, ?_⟩
    rintro _ ⟨⟩
    exact hclass
  have hregister : Text.IsIdentifier "v0" := by decide
  exact local_line_reread (o := .default) rfl (c := c) rfl hregister (some "a:I, \"b\"".toList)
    (some "# s".toList) htype 3

/-- A local variable with a name but without a type is written, and then the line is malformed. -/
theorem untyped_local_refused :
    let L := Recorder.listener .obliging
    let root := Recorder.root .ofClass
    let source := ".class La;\n\n.method m()V\n    .local v0, \"x\"\n.end method\n".toList
    ((Writer.Pen.ofMethod false).write (.localVariable "v0" (some "x") none none)
        .blank).page.contents = "    .local v0, \"x\"\n".toList ∧
      (read .default L root .initial source).1 =
        .error (.located .grammar ⟨4, 5⟩ "malformed .local '.local v0, \"x\"'") := by
  decide +kernel

end Smali
