import Smali.Proofs.LineAccounts

/-!
# Comments in a strict course

Comments change neither how a strict dialogue ends nor the other moves that it makes. Where they
stand between these moves is seen in each part of a reader: a line of code is told of first, and
the comment behind it afterwards. Only comments in an array wait for its end, and those in a
field for the next line of code.
-/

namespace Smali

open Dialogue (leave excuse)
open Passage (tell remark)

/-- Options under which the first fault ends a reading and comments are told. -/
structure Options.IsAttentive (o : Options) : Prop where
  /-- No fault is skipped over. -/
  strict : o.errors = .strict
  /-- Comments are told. -/
  attentive : o.comments = true

/-- Without comments these options are plain. -/
theorem Options.IsAttentive.isPlain {o : Options} (h : o.IsAttentive) : o.quietly.IsPlain :=
  ⟨h.strict, rfl⟩

/-! ## Comments behind a course -/

/-- Two courses with one result, of which the first tells of comments at its end. -/
inductive Course.Trails {α : Type} (Q : α → List Call → Prop) : Course α → Course α → Prop where
  /-- Both come to nothing. -/
  | nothing : Trails Q none none
  /-- Both have a result. -/
  | comments {a : α} {moves : List Move} {told : List Call} (h : Q a told) :
    Trails Q (some (a, moves ++ told.map .tell)) (some (a, moves))

namespace Course

variable {α β : Type} {Q : α → List Call → Prop} {loud quiet : Course α}

/-- A result without moves. -/
theorem trails_still {a : α} (h : Q a []) : Trails Q (still a) (still a) :=
  @Trails.comments α Q a [] [] h

/-- The comments are told in the second of two courses. -/
theorem Trails.behind {Q' : β → List Call → Prop} (r : Course α) {f g : α → Course β}
    (h : ∀ a, Trails Q' (f a) (g a)) : Trails Q' (r.andThen f) (r.andThen g) := by
  cases r with
  | none => exact .nothing
  | some r =>
    obtain ⟨a, moves⟩ := r
    have htrails := h a
    rw [some_andThen, some_andThen]
    generalize f a = first, g a = second at htrails ⊢
    cases htrails with
    | nothing => exact .nothing
    | comments h =>
      rw [Option.map_some, Option.map_some]
      dsimp only
      rw [← List.append_assoc]
      exact .comments h

/-- The comments are told in the first of two courses. -/
theorem Trails.map (h : Trails Q loud quiet) {Q' : β → List Call → Prop} (g : α → β)
    (hQ : ∀ a told, Q a told → Q' (g a) told) :
    Trails Q' (loud.andThen fun a => still (g a)) (quiet.andThen fun a => still (g a)) := by
  cases h with
  | nothing => exact .nothing
  | comments h =>
    simp only [some_andThen, still, Option.map_some, List.append_nil]
    exact .comments (hQ _ _ h)

end Course

variable {α β : Type} {o : Options} {Q : α → List Call → Prop} {Q' : β → List Call → Prop}

/-- A dialogue that tells of comments at its end. -/
def Dialogue.Trails (o : Options) (Q : α → List Call → Prop) (d : Dialogue α) : Prop :=
  Course.Trails Q (Dialogue.course o d) (Dialogue.course o.quietly d)

namespace Passage

/-- A passage that tells of comments at its end. -/
def Trails (o : Options) (Q : α → List Call → Prop) (p : Passage α) : Prop :=
  Course.Trails Q (course o p) (course o.quietly p)

/-- A passage that tells of no comment. -/
def IsSilent (o : Options) (p : Passage α) : Prop := course o p = course o.quietly p

/-- A passage behind one that tells of no comment. -/
theorem IsSilent.trails_bind {p : Passage α} (hp : p.IsSilent o) {f : α → Passage β}
    (h : ∀ a, (f a).Trails o Q') : (p >>= f).Trails o Q' := by
  unfold Trails
  rw [course_bind, course_bind, hp]
  exact .behind _ h

/-- Two passages that tell of no comment. -/
theorem IsSilent.bind {p : Passage α} (hp : p.IsSilent o) {f : α → Passage β}
    (h : ∀ a, (f a).IsSilent o) : (p >>= f).IsSilent o := by
  unfold IsSilent
  rw [course_bind, course_bind, hp, funext h]

/-- A passage whose result is changed. -/
theorem Trails.map {p : Passage α} (hp : p.Trails o Q) (g : α → β)
    (hQ : ∀ a told, Q a told → Q' (g a) told) :
    (do return g (← p) : Passage β).Trails o Q' := by
  unfold Trails
  rw [course_bind, course_bind]
  exact Course.Trails.map hp g hQ

/-- A passage that looks at the fault of one that tells of no comment. -/
theorem IsSilent.trails_outcome {p : Passage α} (hp : p.IsSilent o)
    {f : Except Fault α → Passage β} (hf : ∀ fault, course o (f (.error fault)) = none)
    (hf' : ∀ fault, course o.quietly (f (.error fault)) = none)
    (h : ∀ a, (f (.ok a)).Trails o Q') : (p.outcome >>= f).Trails o Q' := by
  unfold Trails
  rw [course_outcome_bind p f hf, course_outcome_bind p f hf', hp]
  exact .behind _ h

/-- The same for a dialogue. -/
theorem IsSilent.trails_run {p : Passage α} (hp : p.IsSilent o)
    {f : Except Fault α → Dialogue β} (hf : ∀ fault, Dialogue.course o (f (.error fault)) = none)
    (hf' : ∀ fault, Dialogue.course o.quietly (f (.error fault)) = none)
    (h : ∀ a, (f (.ok a)).Trails o Q') : Dialogue.Trails o Q' (p.run >>= f) := by
  unfold Dialogue.Trails
  rw [course_run_bind p f hf, course_run_bind p f hf', hp]
  exact .behind _ h

theorem silent_pure (a : α) : (pure a : Passage α).IsSilent o := rfl

theorem silent_tell (call : Call) : (tell call).IsSilent o := rfl

theorem silent_ofExcept (result : Except Fault α) : (ofExcept result).IsSilent o := by
  cases result <;> rfl

theorem silent_require (holds : Bool) (fault : Fault) : (require holds fault).IsSilent o := by
  unfold IsSilent
  rw [course_require, course_require]
  rfl

theorem silent_checkValue (position : Position) (value : Value) :
    (checkValue position value).IsSilent o := by
  unfold checkValue
  split
  · exact silent_pure ()
  · exact silent_require _ _

/-- A comment is told. -/
theorem run_remark_of_attentive (h : o.IsAttentive) (comment : Option Call) :
    Dialogue.course o (remark comment).run = some (.ok (), comment.toList.map .tell) := by
  cases comment with
  | none => rfl
  | some call =>
    unfold Dialogue.course remark perform
    simp only [ExceptT.run_mk, Dialogue.rehearse, Act.stop?, Act.moves, h.attentive]
    rfl

/-- A comment, if there is one. -/
theorem trails_remark (h : o.IsAttentive) (comment : Option Call) :
    (remark comment).Trails o fun _ told => told = comment.toList := by
  have hloud : course o (remark comment) = some ((), [] ++ comment.toList.map .tell) := by
    rw [course, run_remark_of_attentive h]
    simp [Except.toOption]
  unfold Trails
  rw [hloud, course_remark h.isPlain]
  exact .comments rfl

/-- Comments are told one after another. -/
theorem course_remarks_of_attentive (h : o.IsAttentive) (remarks : List Call) :
    course o (remarks.forM fun call => remark (some call)) = some ((), remarks.map .tell) := by
  induction remarks with
  | nil => rfl
  | cons call remarks ih =>
    rw [List.forM_eq_forM] at ih ⊢
    rw [List.forM_cons, course_bind, ih, course, run_remark_of_attentive h]
    simp [Except.toOption]

/-- Comments one after another are left out. -/
theorem course_remarks (h : o.IsPlain) (remarks : List Call) :
    course o (remarks.forM fun call => remark (some call)) = .still () := by
  induction remarks with
  | nil => rfl
  | cons call remarks ih =>
    rw [List.forM_eq_forM] at ih ⊢
    rw [List.forM_cons, course_bind, ih, course_remark h, Course.still_andThen]

/-- Comments one after another. -/
theorem trails_remarks (h : o.IsAttentive) (remarks : List Call) :
    (remarks.forM fun call => remark (some call)).Trails o fun _ told => told = remarks := by
  unfold Trails
  rw [course_remarks_of_attentive h, course_remarks h.isPlain]
  exact @Course.Trails.comments Unit _ () [] remarks rfl

/-- A scope is gone into, and the comment behind the call is told in it. -/
theorem trails_enter (h : o.IsAttentive) (call : Call) (comment : Option Call) :
    (enter call comment).Trails o fun _ told => told = comment.toList := by
  have hloud : course o (enter call comment) =
      some ((), [.enter call] ++ comment.toList.map .tell) := by
    unfold enter
    rw [course_bind]
    change Course.andThen (some ((), [.enter call])) _ = _
    simp only [course, ExceptT.run_mk, Dialogue.course_bind, run_remark_of_attentive h,
      Course.some_andThen, Dialogue.course_pure]
    simp [Course.still, Except.toOption]
  unfold Trails
  rw [hloud, course_enter h.isPlain]
  exact .comments rfl

end Passage

open Passage (trails_remark trails_enter silent_tell silent_ofExcept silent_require)

namespace Dialogue

/-- A passage whose faults are skipped over. -/
theorem trails_attempt (h : o.IsAttentive) (position : Position) {p : Passage α}
    (hp : p.Trails o Q) :
    (attempt position p).Trails o fun r told => ∃ a, r = some a ∧ Q a told := by
  unfold Trails
  rw [course_attempt h.strict, course_attempt h.isPlain.strict]
  exact Course.Trails.map hp some fun a told hQ => ⟨a, rfl, hQ⟩

/-- A passage of a scope that cannot deal with faults itself. -/
theorem trails_orRaise (h : o.IsAttentive) (opened : Position) (outer : List Frame)
    {p : Passage (List Frame)} {Q : List Frame → List Call → Prop} (hp : p.Trails o Q) :
    (orRaise opened outer p).Trails o Q := by
  unfold Trails
  rw [course_orRaise h.strict, course_orRaise h.isPlain.strict]
  exact hp

/-- A dialogue whose result is changed. -/
theorem Trails.map {d : Dialogue α} (hd : d.Trails o Q) (g : α → β)
    (hQ : ∀ a told, Q a told → Q' (g a) told) :
    (do return g (← d) : Dialogue β).Trails o Q' := by
  unfold Trails
  rw [course_bind, course_bind]
  exact Course.Trails.map hd g hQ

end Dialogue

/-! ## Lines that make one call -/

/-- The comment behind a line, and no other, is told. -/
def Line.Remarked (l : Line) (α : Type) (_ : α) (told : List Call) : Prop :=
  told = l.eolCall?.toList

section Lines

variable (h : o.IsAttentive)
include h

theorem trails_tellLine (l : Line) (call : Call) :
    (Passage.tellLine l call).Trails o (l.Remarked Unit) :=
  (silent_tell call).trails_bind fun _ => trails_remark h l.eolCall?

/-- A line of the class header. -/
theorem trails_headerLine (l : Line) (d : Directive) :
    (headerLine l d).Trails o (l.Remarked Unit) := by
  unfold headerLine
  split
  · exact (silent_ofExcept _).trails_bind fun _ => (silent_require _ _).trails_bind fun _ =>
      trails_tellLine h l _
  · exact (silent_ofExcept _).trails_bind fun _ => (silent_require _ _).trails_bind fun _ =>
      trails_tellLine h l _
  · exact (silent_ofExcept _).trails_bind fun _ => (silent_require _ _).trails_bind fun _ =>
      trails_tellLine h l _
  · exact (silent_ofExcept _).trails_bind fun _ => trails_tellLine h l _

/-- A line of code. -/
theorem trails_codeLine (m : OpenMethod) (l : Line) :
    (codeLine m l).Trails o (l.Remarked Unit) :=
  (silent_require _ _).trails_bind fun _ => trails_tellLine h l _

/-- A closing line in a method. -/
theorem trails_closingLine (m : OpenMethod) (l : Line) :
    (closingLine m l).Trails o (l.Remarked Unit) := by
  unfold closingLine
  split
  · split
    · exact trails_tellLine h l _
    · exact .nothing
  · split
    · exact (silent_ofExcept _).trails_bind fun _ => trails_tellLine h l _
    · split
      · exact .nothing
      · exact trails_codeLine h m l

/-- A line with a handler for exceptions of one type. -/
theorem trails_catchingLine (m : OpenMethod) (l : Line) :
    (catchingLine m l).Trails o (l.Remarked Unit) :=
  (silent_require _ _).trails_bind fun _ => (silent_ofExcept _).trails_bind fun _ =>
    (silent_ofExcept _).trails_bind fun _ => (silent_require _ _).trails_bind fun _ =>
      trails_tellLine h l _

/-- A line with a handler for all exceptions. -/
theorem trails_catchAllLine (m : OpenMethod) (l : Line) :
    (catchAllLine m l).Trails o (l.Remarked Unit) := by
  refine (silent_require _ _).trails_bind fun _ => (silent_ofExcept _).trails_bind fun _ => ?_
  split
  · exact trails_tellLine h l _
  · exact .nothing

/-- A line with a directive in a method. -/
theorem trails_directiveLine (m : OpenMethod) (l : Line) (d : Directive) :
    (directiveLine m l d).Trails o (l.Remarked Unit) := by
  unfold directiveLine
  split
  · exact (silent_require _ _).trails_bind fun _ => (silent_ofExcept _).trails_bind fun _ =>
      trails_tellLine h l _
  · exact (silent_require _ _).trails_bind fun _ => (silent_ofExcept _).trails_bind fun _ =>
      trails_tellLine h l _
  · exact (silent_ofExcept _).trails_bind fun _ => trails_tellLine h l _
  · exact (silent_ofExcept _).trails_bind fun _ => trails_tellLine h l _
  · exact trails_catchingLine h m l
  · exact trails_catchAllLine h m l
  · exact (silent_ofExcept _).trails_bind fun _ => trails_tellLine h l _
  · exact (silent_ofExcept _).trails_bind fun _ => trails_tellLine h l _
  · exact trails_tellLine h l _
  · exact trails_tellLine h l _
  · exact trails_codeLine h m l
  · exact .nothing

end Lines

/-! ## Comments that wait -/

namespace Frame

/-- The comments that wait in a frame, in order. -/
def waiting : Frame → List Call
  | .field f => f.held.reverse.map .comment
  | .array g => (g.comment.map .eolComment).toList ++ g.remarks.reverse
  | _ => []

/-- A frame around others: no comment waits in it, and it hears all comments. -/
def IsClear : Frame → Prop
  | .field f => f.held = [] ∧ f.heard = true
  | .array _ => False
  | _ => True

/-- The comments that are due are told, or they wait in an array that is open. -/
def Settle (due : List Call) : List Frame → List Call → Prop
  | .array g :: outer, told => told = [] ∧ (Frame.array g).waiting = due ∧ ∀ f ∈ outer, f.IsClear
  | frames, told => told = due ∧ ∀ f ∈ frames, f.IsClear

/-- Comments that are told, with no array open. -/
theorem settle_told {due : List Call} {frames : List Frame} (h : ∀ f ∈ frames, f.IsClear) :
    Settle due frames due := by
  unfold Settle
  split
  · exact absurd (h _ List.mem_cons_self) id
  · exact ⟨rfl, h⟩

/-- A frame that a line opens, if it opens one, on others. -/
theorem Settle.push {due told : List Call} {frame : Option Frame} {frames : List Frame}
    (h : Settle due frame.toList told) (hframes : ∀ f ∈ frames, f.IsClear) :
    Settle due (frame.toList ++ frames) told := by
  cases frame with
  | none =>
    obtain rfl : told = due := h.1
    exact settle_told hframes
  | some frame =>
    cases frame with
    | array g => exact ⟨h.1, h.2.1, hframes⟩
    | _ => exact ⟨h.1, List.forall_mem_cons.mpr ⟨h.2 _ List.mem_cons_self, hframes⟩⟩

end Frame

open Smali.Frame (Settle settle_told)

section Scopes

variable (h : o.IsAttentive)
include h

/-- The annotation of a line is gone into. -/
theorem trails_openAnnotationScope (l : Line) :
    (openAnnotationScope l).Trails o fun f told => told = l.eolCall?.toList ∧ f.IsClear := by
  have hheader : (annotationHeader l).IsSilent o :=
    (silent_ofExcept _).bind fun _ => (silent_require _ _).bind fun _ => rfl
  refine hheader.trails_outcome (fun fault => ?_) (fun fault => ?_) fun header => ?_
  · simp [Passage.course_excuse h.strict]
  · simp [Passage.course_excuse h.isPlain.strict]
  · exact (trails_enter h _ _).map _ fun _ told htold => ⟨htold, trivial⟩

/-- An element whose value is complete. -/
theorem trails_tellElement (position : Position) (name text : Text) (comment : Option Call)
    (remarks : List Call) :
    (tellElement position name text comment remarks).Trails o
      fun _ told => told = comment.toList ++ remarks := by
  refine (silent_ofExcept _).trails_bind fun value =>
    (Passage.silent_checkValue _ _).trails_bind fun _ => (silent_tell _).trails_bind fun _ => ?_
  have hall : (do
      remark comment
      remarks.forM fun call => remark (some call) : Passage Unit) =
      (comment.toList ++ remarks).forM fun call => remark (some call) := by
    cases comment <;> rfl
  rw [hall]
  exact Passage.trails_remarks h _

/-- The nested annotation of a line is gone into. -/
theorem trails_openSubannotationScope (l : Line) (name descriptor : Text) :
    (openSubannotationScope l name descriptor).Trails o
      fun f told => told = l.eolCall?.toList ∧ f.IsClear :=
  (silent_ofExcept _).trails_bind fun _ => (silent_require _ _).trails_bind fun _ =>
    (trails_enter h _ _).map _ fun _ _ htold => ⟨htold, trivial⟩

/-- An annotation element. The comment behind the first line of an array waits. -/
theorem trails_elementLine (l : Line) :
    (elementLine l).Trails o fun frame told => Settle l.eolCall?.toList frame.toList told := by
  unfold elementLine
  dsimp only
  split
  · exact .nothing
  · split
    · exact .nothing
    · split
      · refine (trails_openSubannotationScope h l _ _).map some fun f told hf => ?_
        obtain ⟨rfl, hclear⟩ := hf
        exact settle_told (List.forall_mem_singleton.mpr hclear)
      · split
        · exact Course.trails_still ⟨rfl, List.append_nil _, fun _ hf => absurd hf List.not_mem_nil⟩
        · refine (trails_tellElement h _ _ _ _ _).map (fun _ => none) fun _ told htold => ?_
          rw [List.append_nil] at htold
          exact ⟨htold, fun _ hf => absurd hf List.not_mem_nil⟩

/-- A line of the body of a method. -/
theorem trails_bodyLine (m : OpenMethod) (l : Line) :
    (bodyLine m l).Trails o fun frame told => Settle l.eolCall?.toList frame.toList told := by
  have hnone : ∀ {told}, l.Remarked Unit () told →
      Settle l.eolCall?.toList (none : Option Frame).toList told :=
    fun htold => ⟨htold, fun _ hf => absurd hf List.not_mem_nil⟩
  unfold bodyLine
  split
  · exact (trails_codeLine h m l).map (fun _ => none) fun _ _ => hnone
  · refine (trails_openAnnotationScope h l).map some fun f told hf => ?_
    obtain ⟨rfl, hclear⟩ := hf
    exact settle_told (List.forall_mem_singleton.mpr hclear)
  · exact (trails_closingLine h m l).map (fun _ => none) fun _ _ => hnone
  · exact (trails_directiveLine h m l _).map (fun _ => none) fun _ _ => hnone

/-- The closing line of a scope. -/
theorem trails_closeBy (l : Line) (opened : Position) {outer : List Frame}
    (houter : ∀ f ∈ outer, f.IsClear) :
    (closeBy l opened true outer).Trails o (Settle l.eolCall?.toList) := by
  have hfault : ∀ {o : Options} (_ : o.errors = .strict) fault,
      Dialogue.course o (raise fault opened outer) = none :=
    fun hstrict fault => course_unwind_fault hstrict _ _ _ _ _ _
  have hend : ∀ o, Dialogue.course o endScope = some (none, [.tell .finish, .leave]) :=
    fun _ => rfl
  unfold closeBy Dialogue.Trails
  rw [Dialogue.course_bind, Dialogue.course_bind, hend, hend]
  refine .behind _ fun received => ?_
  cases received with
  | some fault =>
    dsimp only
    rw [hfault h.strict, hfault h.isPlain.strict]
    exact .nothing
  | none =>
    dsimp only
    rw [if_pos rfl, Passage.course_run_bind _ _ (hfault h.strict),
      Passage.course_run_bind _ _ (hfault h.isPlain.strict)]
    exact Course.Trails.map (trails_remark h l.eolCall?) (fun _ => outer) fun _ told htold => by
      rw [htold]
      exact settle_told houter

/-- A line of code in an annotation. -/
theorem trails_takeInAnnotationBody (opened : Position) (name : Text) {l : Line}
    (hl : l.isComment = false) {outer : List Frame} (houter : ∀ f ∈ outer, f.IsClear) :
    (takeInAnnotationBody opened name l outer).Trails o (Settle l.eolCall?.toList) := by
  have hframes : ∀ f ∈ Frame.annotationBody opened name :: outer, f.IsClear :=
    List.forall_mem_cons.mpr ⟨trivial, houter⟩
  unfold takeInAnnotationBody
  rw [comment?_eq_none hl]
  dsimp only
  split
  · next heq => exact nomatch heq
  · refine (Dialogue.trails_attempt h l.position (trails_elementLine h l)).map _ fun frame told hf => ?_
    obtain ⟨frame, rfl, hsettle⟩ := hf
    exact hsettle.push hframes
  · split
    · exact trails_closeBy h l opened houter
    · unfold Dialogue.Trails
      rw [Dialogue.course_bind, Dialogue.course_bind, Dialogue.course_excuse h.strict,
        Dialogue.course_excuse h.isPlain.strict]
      exact .nothing

/-- A line of code in a method. -/
theorem trails_takeInMethod (m : OpenMethod) {l : Line} (hl : l.isComment = false)
    {outer : List Frame} (houter : ∀ f ∈ outer, f.IsClear) :
    (takeInMethod m l outer).Trails o (Settle l.eolCall?.toList) := by
  unfold takeInMethod
  rw [comment?_eq_none hl]
  dsimp only
  split
  · exact trails_closeBy h l _ houter
  · refine (Dialogue.trails_attempt h l.position (trails_bodyLine h m l)).map _ fun frame told hf => ?_
    obtain ⟨frame, rfl, hsettle⟩ := hf
    exact hsettle.push (List.forall_mem_cons.mpr ⟨trivial, houter⟩)

/-- A line of code in an array. The comments that waited are told behind the element. -/
theorem trails_takeInArray (g : Gathering) {l : Line} (hl : l.isComment = false)
    {outer : List Frame} (houter : ∀ f ∈ outer, f.IsClear) :
    (takeInArray g l outer).Trails o (Settle ((Frame.array g).waiting ++ l.eolCall?.toList)) := by
  have hwaiting : (Frame.array (g.add l)).waiting =
      (Frame.array g).waiting ++ l.eolCall?.toList := by
    unfold Gathering.add
    rw [comment?_eq_none hl]
    simp only [Frame.waiting, List.reverse_append, List.append_assoc, Line.eolCall?]
    cases l.eolComment? <;> rfl
  unfold takeInArray
  dsimp only
  split
  · refine (Dialogue.trails_attempt h g.opened (trails_tellElement h _ _ _ _ _)).map (fun _ => outer)
      fun frame told hf => ?_
    obtain ⟨_, rfl, rfl⟩ := hf
    rw [← hwaiting]
    have hadd : (g.add l).comment = g.comment := by
      unfold Gathering.add
      rw [comment?_eq_none hl]
    rw [← hadd]
    exact settle_told houter
  · exact Course.trails_still ⟨rfl, hwaiting, houter⟩

/-! ## Members of a class -/

/-- The field of a line is gone into. -/
theorem trails_openField (c : Control) (l : Line) :
    (c.openField l).Trails o fun c told => Settle l.eolCall?.toList c.frames told := by
  have hheader : (fieldHeader c.declared l).IsSilent o := by
    refine (silent_ofExcept _).bind fun f => ?_
    dsimp only
    split
    · exact (silent_require _ _).bind fun _ => rfl
    · exact (silent_require _ _).bind fun _ => (Passage.silent_checkValue _ _).bind fun _ =>
        (silent_require _ _).bind fun _ => rfl
  refine hheader.trails_run (fun fault => ?_) (fun fault => ?_) fun f => ?_
  · simp [Dialogue.course_excuse h.strict]
  · simp [Dialogue.course_excuse h.isPlain.strict]
  · refine (Dialogue.trails_attempt h l.position (trails_enter h _ _)).map _ fun opened told hf => ?_
    obtain ⟨_, rfl, rfl⟩ := hf
    exact settle_told (List.forall_mem_singleton.mpr ⟨rfl, rfl⟩)

/-- The method of a line is gone into. -/
theorem trails_openMethod (c : Control) (l : Line) :
    (c.openMethod l).Trails o fun c told => Settle l.eolCall?.toList c.frames told := by
  have hheader : (methodHeader c.declared l).IsSilent o :=
    (silent_ofExcept _).bind fun _ => (silent_require _ _).bind fun _ =>
      (silent_require _ _).bind fun _ => (silent_require _ _).bind fun _ => rfl
  refine hheader.trails_run (fun fault => ?_) (fun fault => ?_) fun m => ?_
  · simp [Dialogue.course_excuse h.strict]
  · simp [Dialogue.course_excuse h.isPlain.strict]
  · refine (Dialogue.trails_attempt h l.position (trails_enter h _ _)).map _ fun opened told hf => ?_
    obtain ⟨_, rfl, rfl⟩ := hf
    exact settle_told (List.forall_mem_singleton.mpr trivial)

/-- A line with a directive at the level of the class. -/
theorem trails_classDirective {c : Control} (hc : c.frames = []) (l : Line) (d : Directive)
    (stage : Stage) :
    (c.classDirective l d stage).Trails o fun c told => Settle l.eolCall?.toList c.frames told := by
  unfold Control.classDirective
  split
  · refine (Dialogue.trails_attempt h l.position (trails_headerLine h l d)).map _
      fun _ told hf => ?_
    obtain ⟨_, rfl, rfl⟩ := hf
    rw [hc]
    exact settle_told fun _ hf => absurd hf List.not_mem_nil
  · exact trails_openField h _ l
  · exact trails_openMethod h _ l
  · refine (Dialogue.trails_attempt h l.position (trails_openAnnotationScope h l)).map _
      fun frame told hf => ?_
    obtain ⟨f, rfl, rfl, hclear⟩ := hf
    exact settle_told (List.forall_mem_singleton.mpr hclear)

/-- A line of code at the level of the class. -/
theorem trails_classLine {c : Control} (hc : c.frames = []) {l : Line} (hl : l.isComment = false) :
    (c.classLine l).Trails o fun c told => Settle l.eolCall?.toList c.frames told := by
  have hexcuse : ∀ fault, (do
      excuse fault
      return c : Dialogue Control).Trails o fun c told =>
        Settle l.eolCall?.toList c.frames told := by
    intro fault
    unfold Dialogue.Trails
    rw [Dialogue.course_bind, Dialogue.course_bind, Dialogue.course_excuse h.strict,
      Dialogue.course_excuse h.isPlain.strict]
    exact .nothing
  unfold Control.classLine
  rw [comment?_eq_none hl]
  split
  · next heq => exact nomatch heq
  · exact hexcuse _
  · exact hexcuse _
  · split
    · exact trails_classDirective h hc l _ _
    · exact hexcuse _

end Scopes

end Smali
