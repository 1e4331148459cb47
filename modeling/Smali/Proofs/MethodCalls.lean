import Smali.Proofs.CodeLines
import Smali.Proofs.CommentCourse
import Smali.Proofs.ScannedTexts
import Smali.Proofs.StrictStep

/-!
# Lines of a method

Inside a method a strict reader takes a line as one call, and then it tells of the comment behind
the line, if comments are wanted. Which call that is depends on the line alone. The method only
decides whether the call is made: the end of a parameter needs an open one, and with checks there
is no code in a method without a body.
-/

namespace Smali

/-! ## Calls of a method -/

/-- Whether a call takes a line of its own in a method. -/
def Call.isOfMethod (call : Call) : Bool := (Writer.methodLine? call).isSome

/-- In every method a call is written as one more line, which is the text. -/
def Call.IsWrittenAs (call : Call) (text : Text) : Prop :=
  ∀ (paramOpen : Bool) (sheet : Writer.Sheet),
    ((Writer.Pen.ofMethod paramOpen).write call sheet).page.contents =
      sheet.page.contents ++ (text ++ ['\n'])

/-- A call of a method is written as its line with an indent. -/
theorem Call.isWrittenAs_of_methodLine? {call : Call} {line : Text}
    (hline : Writer.methodLine? call = some line) : call.IsWrittenAs (Page.indent 1 ++ line) := by
  intro paramOpen sheet
  have hwrite : (Writer.Pen.ofMethod paramOpen).write call sheet = sheet.inner 1 line := by
    cases call <;> first | (unfold Writer.Pen.write; dsimp only; rw [hline]) | cases hline
  rw [hwrite]
  exact Page.contents_line sheet.page 1 line

/-- What is told behind the call of a line. -/
def Line.trail (o : Options) (l : Line) : List Move :=
  if o.comments then l.eolCall?.toList.map .tell else []

/-- Where a method stands, as far as the checks of its lines look. -/
def OpenMethod.site (m : OpenMethod) : Site :=
  ⟨.body, [], some (.method m.name m.access m.paramOpen), 0⟩

/-- A method after a call: a parameter opens one, and its end closes it. -/
def OpenMethod.told (m : OpenMethod) : Call → OpenMethod
  | .param _ _ => { m with paramOpen := true }
  | .paramEnd => { m with paramOpen := false }
  | _ => m

/-- Whether a call is made in a method. -/
def OpenMethod.admits (o : Options) (m : OpenMethod) (call : Call) : Bool :=
  !(call.kind = .paramEnd && !m.paramOpen) && !(o.validate && !m.site.allows call)

/-- The calls of a method open no scope, and they are no comments. -/
theorem Call.opens?_of_isOfMethod {call : Call} (h : call.isOfMethod = true) :
    call.opens? = none ∧ call.moves = [.tell call] ∧ call ≠ .finish := by
  cases call <;> first | exact absurd h Bool.false_ne_true | exact ⟨rfl, rfl, nofun⟩

section Lines

variable {o : Options} {m : OpenMethod} {l : Line} {call : Call}

/-- A line with such a call does not close the method. -/
theorem closes_of_isOfMethod (hl : l.bodyCall? = some call) (hcall : call.isOfMethod = true) :
    l.closes "method" = false := by
  rw [Bool.eq_false_iff]
  intro hcloses
  rw [Line.bodyCall?, Line.directive?_of_closes hcloses] at hl
  dsimp only at hl
  rw [Line.closingCall?, if_pos hcloses] at hl
  exact (Call.opens?_of_isOfMethod hcall).2.2 (Option.some.inj hl).symm

/-- A method after a line is what it is after the call of the line. -/
theorem after_eq_told (hl : l.bodyCall? = some call) : m.after l = m.told call := by
  have hother : ∀ {d : Directive}, l.directive? = some d → d ≠ .param → d ≠ .closing →
      m.after l = m := by
    intro d hd hparam hclosing
    have hends : ¬l.closes "param" = true := fun h =>
      hclosing (Option.some.inj (hd.symm.trans (Line.directive?_of_closes h)))
    have hnot : l.directive? ≠ some .param := fun h =>
      hparam (Option.some.inj (hd.symm.trans h))
    rw [OpenMethod.after, if_neg hnot, if_neg hends]
  have hcloses : ∀ {name : Text}, l.closes name = true → l.directive? ≠ some .param := by
    intro name hend hparam
    cases (Line.directive?_of_closes hend).symm.trans hparam
  cases tellsBody_of_bodyCall? hl with
  | code h hparam hend =>
    have hsame : m.told call = m := by
      cases call <;> first | rfl | exact absurd h Bool.false_ne_true
    rw [hsame, OpenMethod.after, if_neg hparam, if_neg (Bool.eq_false_iff.mp hend)]
  | annotationStart hd => exact hother hd (by rintro ⟨⟩) (by rintro ⟨⟩)
  | finish hend =>
    have hparam : l.closes "param" = false := Line.closes_unique hend (by decide)
    rw [OpenMethod.after, if_neg (hcloses hend), if_neg (Bool.eq_false_iff.mp hparam)]
    rfl
  | param hd hok =>
    rw [OpenMethod.after, if_pos hd, hok, Bool.or_true]
    rfl
  | paramEnd hend =>
    rw [OpenMethod.after, if_neg (hcloses hend), if_pos hend]
    rfl

/-- A line of the body of a method, without its comment. -/
theorem course_bodyLine_of_isPlain (h : o.IsPlain) (hl : l.bodyCall? = some call)
    (hcall : call.isOfMethod = true) : Passage.course o (bodyLine m l) =
      if m.admits o call then some (none, [.tell call]) else none := by
  obtain ⟨hopens, hmoves, -⟩ := Call.opens?_of_isOfMethod hcall
  rw [course_bodyLine h (s := m.site) rfl (closes_of_isOfMethod hl hcall), hl, Option.bind_some,
    hopens, Course.told, hmoves]
  unfold OpenMethod.admits Course.guard
  cases o.validate <;> cases m.site.allows call <;> cases m.paramOpen <;>
    by_cases hkind : call.kind = .paramEnd <;> simp [hkind]

/-- A line of the body of a method. -/
theorem course_bodyLine_of_bodyCall? (h : o.errors = .strict) (hl : l.bodyCall? = some call)
    (hcall : call.isOfMethod = true) : Passage.course o (bodyLine m l) =
      if m.admits o call then some (none, .tell call :: l.trail o) else none := by
  -- without comments first: the comment behind the line is told after what was told without it
  cases hcomments : o.comments with
  | false =>
    rw [course_bodyLine_of_isPlain ⟨h, hcomments⟩ hl hcall, Line.trail, hcomments]
    rfl
  | true =>
    have hattentive : o.IsAttentive := ⟨h, hcomments⟩
    have htrails := trails_bodyLine hattentive m l
    unfold Passage.Trails at htrails
    rw [course_bodyLine_of_isPlain hattentive.isPlain hl hcall] at htrails
    have hadmits : m.admits o.quietly call = m.admits o call := rfl
    rw [hadmits] at htrails
    generalize Passage.course o (bodyLine m l) = course at htrails ⊢
    cases hm : m.admits o call with
    | false =>
      rw [hm] at htrails
      cases htrails
      rfl
    | true =>
      rw [hm, if_pos rfl] at htrails
      cases htrails with
      | comments hsettle =>
        obtain ⟨rfl, -⟩ := hsettle
        rw [if_pos rfl, Line.trail, hcomments]
        rfl

/-- A line with a call of a method is taken by the method. -/
theorem course_take_of_bodyCall? (h : o.errors = .strict) {c : Control} {outer : List Frame}
    (hc : c.frames = .method m :: outer) (hcomment : l.isComment = false)
    (hl : l.bodyCall? = some call) (hcall : call.isOfMethod = true) :
    Dialogue.course o (c.take l) = if m.admits o call then
      some ({ c with frames := .method (m.told call) :: outer }, .tell call :: l.trail o)
    else none := by
  have htakes : (Frame.method m).takes l = true := by
    cases hleaves : l.leavesMethod with
    | false => simp [Frame.takes, hleaves]
    | true =>
      rw [bodyCall?_of_leavesMethod hleaves] at hl
      cases hl
  unfold Control.take
  rw [hc, Dialogue.course_bind, course_unwind_stays _ htakes, Course.still_andThen]
  unfold Control.takeInner
  dsimp only
  unfold takeInMethod
  rw [comment?_eq_none hcomment]
  dsimp only
  rw [closes_of_isOfMethod hl hcall, if_neg Bool.false_ne_true]
  simp only [Dialogue.course_bind, course_attempt h, course_bodyLine_of_bodyCall? h hl hcall,
    Dialogue.course_pure]
  cases m.admits o call with
  | false => rfl
  | true => simp [Course.still, after_eq_told hl]

/-! ## What was told -/

/-- A line of the body of a method makes the moves of its call first. -/
theorem exists_of_course_bodyLine (h : o.errors = .strict) (hends : l.closes "method" = false)
    {frame : Option Frame} {moves : List Move}
    (hcourse : Passage.course o (bodyLine m l) = some (frame, moves)) :
    ∃ call more, l.bodyCall? = some call ∧ moves = call.moves ++ more := by
  have hplain : ∀ {o : Options} {frame : Option Frame} {moves : List Move}, o.IsPlain →
      Passage.course o (bodyLine m l) = some (frame, moves) →
      ∃ call more, l.bodyCall? = some call ∧ moves = call.moves ++ more := by
    intro o frame moves h hcourse
    rw [course_bodyLine h (s := m.site) rfl hends] at hcourse
    obtain ⟨call, hcall, htold⟩ := Option.bind_eq_some_iff.mp hcourse
    split at htold
    · cases htold
    · unfold Course.told Course.guard at htold
      cases hfails : o.validate && !m.site.allows call with
      | true => rw [hfails] at htold; cases htold
      | false =>
        rw [hfails] at htold
        have hmoves := (Prod.mk.inj (Option.some.inj htold)).2.symm
        exact ⟨call, [], hcall, hmoves.trans (List.append_nil _).symm⟩
  cases hcomments : o.comments with
  | false => exact hplain ⟨h, hcomments⟩ hcourse
  | true =>
    have hattentive : o.IsAttentive := ⟨h, hcomments⟩
    have htrails := trails_bodyLine hattentive m l
    unfold Passage.Trails at htrails
    rw [hcourse] at htrails
    generalize hquiet : Passage.course o.quietly (bodyLine m l) = quiet at htrails
    cases htrails with
    | @comments _ moves told _ =>
      obtain ⟨call, more, hcall, rfl⟩ := hplain hattentive.isPlain hquiet
      exact ⟨call, more ++ told.map .tell, hcall, List.append_assoc _ _ _⟩

/-- What is told of a comment line is its comment. -/
theorem exists_of_course_remark {text : Text} {frames : List Frame} {c' : List Frame}
    {moves : List Move}
    (hcourse : Passage.course o (do Passage.remark (some (.comment text)); return frames) =
      some (c', moves)) : moves = [] ∨ moves = [.tell (.comment text)] := by
  rw [Passage.course_bind] at hcourse
  have hremark : Passage.course o (Passage.remark (some (.comment text))) =
      some ((), if o.comments then [.tell (.comment text)] else []) := by
    unfold Passage.course Dialogue.course Passage.remark Passage.perform
    simp only [ExceptT.run_mk, Dialogue.rehearse, Act.stop?, Act.moves]
    cases o.comments <;> rfl
  rw [hremark, Course.some_andThen] at hcourse
  obtain ⟨-, rfl⟩ := Prod.mk.inj (Option.some.inj hcourse)
  cases o.comments with
  | false => exact .inl rfl
  | true => exact .inr rfl

/-- The first move of a call makes it or opens its scope. -/
theorem Call.eq_of_moves {told call : Call} {rest more : List Move}
    (h : told.moves ++ rest = .tell call :: more) : told = call := by
  cases told with
  | finish => exact Move.tell.inj (List.cons.inj h).1
  | _ =>
    first
    | exact Move.tell.inj (List.cons.inj h).1
    | exact absurd (List.cons.inj h).1 nofun

/-- What is told first of a closing line is the end. -/
theorem exists_of_course_closeBy {opened : Position} {heard : Bool} {outer frames : List Frame}
    {moves : List Move} (hcourse : Dialogue.course o (closeBy l opened heard outer) =
      some (frames, moves)) : ∃ more, moves = Call.finish.moves ++ more := by
  have hend : Dialogue.course o endScope = some (none, [.tell .finish, .leave]) := rfl
  unfold closeBy at hcourse
  rw [Dialogue.course_bind, hend, Course.some_andThen] at hcourse
  obtain ⟨r, -, hr⟩ := Option.map_eq_some_iff.mp hcourse
  exact ⟨_, (Prod.mk.inj hr).2.symm⟩

/-- A strict reader with a method open leaves every line that it takes to the method. -/
theorem exists_of_course_take_method (h : o.errors = .strict) {c c' : Control} {outer : List Frame}
    (hc : c.frames = .method m :: outer) {moves : List Move}
    (htake : Dialogue.course o (c.take l) = some (c', moves)) :
    ∃ frames, Dialogue.course o (takeInMethod m l outer) = some (frames, moves) := by
  unfold Control.take at htake
  rw [hc, Dialogue.course_bind] at htake
  cases htakes : (Frame.method m).takes l with
  | false =>
    rw [course_unwind_ends h _ htakes (by simp) (by simp)] at htake
    cases htake
  | true =>
    rw [course_unwind_stays _ htakes, Course.still_andThen] at htake
    unfold Control.takeInner at htake
    dsimp only at htake
    rw [Dialogue.course_bind] at htake
    rcases hcourse : Dialogue.course o (takeInMethod m l outer) with _ | ⟨frames, first⟩
    · rw [hcourse] at htake
      cases htake
    · rw [hcourse] at htake
      have hmoves : first ++ [] = moves := (Prod.mk.inj (Option.some.inj htake)).2
      rw [List.append_nil] at hmoves
      exact ⟨frames, hmoves ▸ rfl⟩

/-- A strict reader with a method open takes a line that is no comment only if the line stands for a
call, and then it makes the moves of that call first. -/
theorem exists_of_course_take (h : o.errors = .strict) {c c' : Control} {outer : List Frame}
    (hc : c.frames = .method m :: outer) (hcomment : l.isComment = false) {moves : List Move}
    (htake : Dialogue.course o (c.take l) = some (c', moves)) :
    ∃ call more, l.bodyCall? = some call ∧ moves = call.moves ++ more := by
  obtain ⟨frames, hmethod⟩ := exists_of_course_take_method h hc htake
  unfold takeInMethod at hmethod
  rw [comment?_eq_none hcomment] at hmethod
  dsimp only at hmethod
  cases hends : l.closes "method" with
  | true =>
    rw [hends, if_pos rfl] at hmethod
    obtain ⟨more, rfl⟩ := exists_of_course_closeBy hmethod
    refine ⟨.finish, more, ?_, rfl⟩
    rw [Line.bodyCall?, Line.directive?_of_closes hends]
    dsimp only
    rw [Line.closingCall?, if_pos hends]
  | false =>
    rw [hends, if_neg Bool.false_ne_true, Dialogue.course_bind, course_attempt h] at hmethod
    rcases hbody : Passage.course o (bodyLine m l) with _ | ⟨frame, first⟩
    · rw [hbody] at hmethod
      cases hmethod
    · rw [hbody] at hmethod
      obtain ⟨call, rest, hcall, rfl⟩ := exists_of_course_bodyLine h hends hbody
      obtain ⟨-, rfl⟩ := Prod.mk.inj (Option.some.inj hmethod)
      simp only [List.append_assoc]
      exact ⟨call, _, hcall, rfl⟩

/-- On a comment line no call of a method is made. -/
theorem isOfMethod_of_course_comment (h : o.errors = .strict) {c c' : Control} {outer : List Frame}
    (hc : c.frames = .method m :: outer) (hcomment : l.isComment = true) {more : List Move}
    (htake : Dialogue.course o (c.take l) = some (c', .tell call :: more)) :
    call.isOfMethod = false := by
  obtain ⟨frames, hmethod⟩ := exists_of_course_take_method h hc htake
  obtain ⟨text, htext⟩ := Option.isSome_iff_exists.mp hcomment
  unfold takeInMethod at hmethod
  rw [htext] at hmethod
  dsimp only at hmethod
  rw [course_orRaise h] at hmethod
  rcases exists_of_course_remark hmethod with hmoves | hmoves
  · cases hmoves
  · rw [Move.tell.inj (List.cons.inj hmoves).1]
    rfl

/-- A strict reader with a method open that takes a line with a call of the method does so because
the line stands for that call. -/
theorem bodyCall?_of_course_take (h : o.errors = .strict) {c c' : Control} {outer : List Frame}
    (hc : c.frames = .method m :: outer) {more : List Move}
    (htake : Dialogue.course o (c.take l) = some (c', .tell call :: more))
    (hcall : call.isOfMethod = true) : l.isComment = false ∧ l.bodyCall? = some call := by
  have hcomment : l.isComment = false := Bool.eq_false_iff.mpr fun hcomment =>
    Bool.false_ne_true ((isOfMethod_of_course_comment h hc hcomment htake).symm.trans hcall)
  obtain ⟨told, rest, htold, hmoves⟩ := exists_of_course_take h hc hcomment htake
  rw [htold, Call.eq_of_moves hmoves.symm]
  exact ⟨hcomment, rfl⟩

end Lines

/-! ## Lines that were written -/

/-- A line without a comment is no comment. -/
theorem isComment_of_remark {l : Line} (h : l.remark = none) : l.isComment = false := by
  rw [Line.isComment, Line.comment?, h]
  split <;> rfl

/-- An indent is blank. -/
theorem isBlank_indent (level : Nat) : Text.IsBlank (Page.indent level) := by
  intro c hc
  obtain ⟨text, htext, hc⟩ := List.mem_flatten.mp hc
  rw [List.eq_of_mem_replicate htext] at hc
  exact (List.eq_of_mem_replicate (n := 4) hc) ▸ rfl

/-- A text behind an indent is the line that it is alone. -/
theorem unplaced_ofText_indent (number level : Nat) (t : Text) :
    (Line.ofText number (Page.indent level ++ t)).toOption.map Line.unplaced = lineOf t := by
  rw [unplaced_ofText_eq_lineOf, Text.trim_append_left (isBlank_indent level), lineOf_trim]

/-- A text that is scanned to its end is a line without a comment, and so it is behind an indent. -/
theorem exists_ofText_indent {t : Text} (h : t.Scans) (number level : Nat) :
    ∃ l, Line.ofText number (Page.indent level ++ t) = .ok l ∧ l.remark = none ∧
      lineOf t = some l.unplaced := by
  obtain ⟨code, hcode⟩ := h 1 1
  have hline := unplaced_ofText_indent number level t
  have halone : lineOf t = some (Scanned.line ⟨code, t, none⟩) := by rw [lineOf, hcode]; rfl
  rw [halone] at hline
  obtain ⟨l, hl, hunplaced⟩ := Option.map_eq_some_iff.mp hline
  refine ⟨l, ?_, ?_, by rw [halone, hunplaced]⟩
  · cases hl' : Line.ofText number (Page.indent level ++ t) with
    | error fault => rw [hl'] at hl; cases hl
    | ok found => rw [hl'] at hl; rw [Option.some.inj hl]
  · have hnone : l.unplaced.remark = none := by rw [hunplaced]; rfl
    exact Option.map_eq_none_iff.mp hnone

/-- A call of a method is legible if its line is read as the call in a method. -/
theorem isLegible_iff_of_methodLine? {call : Call} {line : Text}
    (hline : Writer.methodLine? call = some line) :
    call.IsLegible ↔ ∃ l, lineOf line = some l ∧ l.bodyCall? = some call := by
  have hsame : call.line? = some line ∧ call.suits .ofClass = false := by
    cases call <;> first | exact ⟨hline, rfl⟩ | cases hline
  unfold Call.IsLegible Line.reads
  rw [hsame.1, hsame.2]
  simp

/-- The line that is written for a call of a method is taken as the call if it is scanned and read
as the call. -/
theorem exists_take_of_isLegible {o : Options} (h : o.errors = .strict) {c : Control}
    {m : OpenMethod} {outer : List Frame} (hc : c.frames = .method m :: outer) {call : Call}
    {line : Text} (hline : Writer.methodLine? call = some line) (hscans : line.Scans)
    (hlegible : call.IsLegible) (number : Nat) :
    ∃ l, Line.ofText number (Page.indent 1 ++ line) = .ok l ∧ l.remark = none ∧
      Dialogue.course o (c.take l) = if m.admits o call then
        some ({ c with frames := .method (m.told call) :: outer }, [.tell call])
      else none := by
  obtain ⟨l, hl, hremark, hunplaced⟩ := exists_ofText_indent hscans number 1
  have hcall : call.isOfMethod = true := by rw [Call.isOfMethod, hline]; rfl
  have hbody : l.bodyCall? = some call := by
    obtain ⟨found, hfound, hreads⟩ := (isLegible_iff_of_methodLine? hline).mp hlegible
    obtain rfl := Option.some.inj (hunplaced.symm.trans hfound)
    rwa [← Line.bodyCall?_unplaced]
  have htrail : l.trail o = [] := by
    rw [Line.trail, Line.eolCall?, Line.eolComment?, hremark]
    cases o.comments <;> cases l.code.isEmpty <;> rfl
  refine ⟨l, hl, hremark, ?_⟩
  rw [course_take_of_bodyCall? h hc (isComment_of_remark hremark) hbody hcall, htrail]

end Smali
