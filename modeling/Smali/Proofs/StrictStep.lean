import Smali.Proofs.DialogueLaws
import Smali.Proofs.StrictReader

/-!
# A strict reader takes the step

The frames of a strict reader are those of a stance, up to places and comments. Line by
line a reader comes to nothing exactly if the step does, and otherwise makes the moves of
the calls that the step leads to. So a whole strict reading is a list of calls.
-/

namespace Smali

open Dialogue (leave excuse)

/-! ## Frames and stances -/

/-- The frames that belong to an array, open annotations and a member. -/
inductive Stands : List Frame → Option Braces → Nat → Option Host → Prop where
  /-- Nothing is open. -/
  | idle : Stands [] none 0 none
  /-- A field. -/
  | field (f : OpenField) : Stands [.field f] none 0 (some (.field f.annotated))
  /-- A method. -/
  | method (m : OpenMethod) :
    Stands [.method m] none 0 (some (.method m.name m.access m.paramOpen))
  /-- An annotation. -/
  | annotationBody {frames : List Frame} {outer : Nat} {host : Option Host}
    (opened : Position) (h : Stands frames none outer host) :
    Stands (.annotationBody opened (closingName outer) :: frames) none (outer + 1) host
  /-- An array in an annotation. -/
  | array {frames : List Frame} {outer : Nat} {host : Option Host}
    (g : Gathering) (h : Stands frames none (outer + 1) host) :
    Stands (.array g :: frames) (some ⟨g.name, g.text, g.depth⟩) (outer + 1) host

/-- A reader that stands where a strict reading stands. -/
structure Control.StandsAt (c : Control) (s : Stance) : Prop where
  /-- They are at the same stage. -/
  stage : c.stage = s.site.phase.stage
  /-- They know the same members. -/
  declared : c.declared = s.site.declared
  /-- The same scopes are open. -/
  frames : Stands c.frames s.braces s.site.nest s.site.host

/-- A course of a reader that comes to nothing with a step, or stands where the step leads
and has made the moves of its calls. -/
def Agrees (course : Course Control) (step : Option (Stance × List Call)) : Prop :=
  match course, step with
  | none, none => True
  | some (c, moves), some (s, calls) => c.StandsAt s ∧ moves = calls.flatMap Call.moves
  | _, _ => False

variable {o : Options} {α : Type}

/-- A call that both make, unless the site does not take it or it fails the checks. -/
theorem agrees_told {s : Site} {call : Call} {c : Control} {P : Prop} [Decidable P]
    (hnone : P → s.next? call = none)
    (hnext : ¬P → ∃ s', s.next? call = some s' ∧ c.StandsAt ⟨s', none⟩) :
    Agrees (if P then none else Course.told o s call c) (Stance.tell o.validate s call) := by
  unfold Course.told Course.guard Stance.tell Site.accept
  by_cases hp : P
  · rw [if_pos hp, hnone hp, ite_self]
    trivial
  · obtain ⟨s', hs', hc⟩ := hnext hp
    rw [if_neg hp, hs']
    cases o.validate && !s.allows call
    · exact ⟨hc, by simp⟩
    · trivial

/-- The same for a call that the site takes. -/
theorem agrees_told_of_next {s s' : Site} {call : Call} {c : Control}
    (hs : s.next? call = some s') (hc : c.StandsAt ⟨s', none⟩) :
    Agrees (Course.told o s call c) (Stance.tell o.validate s call) := by
  have h : Agrees (if False then none else Course.told o s call c)
      (Stance.tell o.validate s call) := agrees_told False.elim fun _ => ⟨s', hs, hc⟩
  rwa [if_neg not_false] at h

/-- The end of the innermost scope. -/
theorem agrees_finish {s s' : Site} {c : Control} (hs : s.next? .finish = some s')
    (hc : c.StandsAt ⟨s', none⟩) :
    Agrees (some (c, [.tell .finish, .leave])) (Stance.tell o.validate s .finish) := by
  have h := agrees_told_of_next (o := o) hs hc
  rwa [Course.told_of_allows rfl] at h

/-! ## Ends of frames -/

/-- A passage whose faults are skipped over. -/
theorem course_attempt (h : o.errors = .strict) (position : Position) (p : Passage α) :
    Dialogue.course o (Dialogue.attempt position p) =
      (Passage.course o p).andThen fun a => Course.still (some a) := by
  unfold Dialogue.attempt
  rw [Passage.course_run_bind _ _ fun fault => by simp [Dialogue.course_excuse h]]
  rfl

/-- Nothing is left. -/
theorem course_unwind_nil (before : Option Line) (stays : Frame → Bool) :
    Dialogue.course o (unwind before stays .nothing []) = Course.still [] := rfl

/-- A frame stays. -/
theorem course_unwind_stays (before : Option Line) {stays : Frame → Bool} {f : Frame}
    (hf : stays f = true) (outer : List Frame) :
    Dialogue.course o (unwind before stays .nothing (f :: outer)) = Course.still (f :: outer) := by
  rw [unwind_nothing_cons, if_pos hf]
  rfl

/-- A frame that is no field cannot end without its closing line. -/
theorem course_close (h : o.errors = .strict) {f : Frame} (before : Option Line)
    (hs : ∀ name, f ≠ .skipping name) (hfield : ∀ f', f ≠ .field f') :
    Dialogue.course o (f.close before) = none := by
  cases f with
  | field f => exact absurd rfl (hfield f)
  | method m => simp [Frame.close, Dialogue.course_excuse h]
  | annotationBody opened name => simp [Frame.close, Dialogue.course_excuse h]
  | array g => simp [Frame.close, Dialogue.course_excuse h]
  | skipping name => exact absurd rfl (hs name)

/-- A field can, if it is without annotations. -/
theorem course_close_field (h : o.errors = .strict) (f : OpenField) (before : Option Line) :
    Dialogue.course o ((Frame.field f).close before) =
      if f.annotated then none else some (⟨none, f.held.reverse⟩, [.tell .finish, .leave]) := by
  cases hf : f.annotated with
  | true => simp [Frame.close, hf, Dialogue.course_excuse h]
  | false =>
    simp only [Frame.close, hf]
    rfl

/-- A frame that is no field cannot end before a line that is not its own. -/
theorem course_unwind_ends (h : o.errors = .strict) (before : Option Line) {stays : Frame → Bool}
    {f : Frame} (hf : stays f = false) (hs : ∀ name, f ≠ .skipping name)
    (hfield : ∀ f', f ≠ .field f') (outer : List Frame) :
    Dialogue.course o (unwind before stays .nothing (f :: outer)) = none := by
  rw [unwind_nothing_cons, if_neg (by simp [hf]), Dialogue.course_bind, course_close h before hs hfield]
  rfl

/-- A comment at the level of the class is left out. -/
theorem course_remarkClass (h : o.IsPlain) (text : Text) :
    Dialogue.course o (remarkClass text) = Course.still () := by
  unfold remarkClass
  rw [Passage.course_run_bind _ _ fun fault => by simp, Passage.course_remark h]
  rfl

/-- A field ends before a line that is not its own, if it is without annotations. -/
theorem course_unwind_field (h : o.IsPlain) (before : Option Line) {stays : Frame → Bool}
    {f : OpenField} (hf : stays (.field f) = false) :
    Dialogue.course o (unwind before stays .nothing [.field f]) =
      if f.annotated then none else some ([], [.tell .finish, .leave]) := by
  have hheld : ∀ held : List Text, Dialogue.course o (held.forM remarkClass) =
      Course.still () := by
    intro held
    induction held with
    | nil => rfl
    | cons text held ih =>
      rw [List.forM_eq_forM, List.forM_cons, Dialogue.course_bind, course_remarkClass h,
        Course.still_andThen]
      exact ih
  have hclass : Dialogue.course o (unwind before stays ⟨none, f.held.reverse⟩ []) =
      Course.still [] := by
    simp only [unwind, Arrival.reachClass, Arrival.excuse, Dialogue.course_bind,
      Dialogue.course_pure, Course.still_andThen, hheld]
  rw [unwind_nothing_cons, if_neg (by simp [hf]), Dialogue.course_bind, course_close_field h.strict]
  cases f.annotated with
  | true => rfl
  | false => simp [hclass, Course.still]

/-- A fault that comes out of a scope ends the reading. -/
theorem course_unwind_fault (h : o.errors = .strict) (before : Option Line) (stays : Frame → Bool)
    (frames : List Frame) (fault : Fault) (position : Position) (held : List Text) :
    Dialogue.course o (unwind before stays ⟨some (fault, position), held⟩ frames) = none := by
  induction frames generalizing position held with
  | nil => simp [unwind, Arrival.reachClass, Arrival.excuse, Dialogue.course_excuse h]
  | cons f outer ih =>
    cases f with
    | field f => simp [unwind, ih]
    | _ => simp [unwind, Arrival.excuse, Dialogue.course_excuse h]

/-- A passage of a scope that cannot deal with faults itself. -/
theorem course_orRaise (h : o.errors = .strict) (opened : Position) (outer : List Frame)
    (p : Passage (List Frame)) :
    Dialogue.course o (orRaise opened outer p) = Passage.course o p := by
  unfold orRaise
  rw [Passage.course_run_bind _ _ fun fault => by simp [raise, course_unwind_fault h]]
  simp only [Dialogue.course_pure]
  rcases Passage.course o p with _ | ⟨frames, moves⟩
  · rfl
  · simp [Course.still]

/-! ## Lines in annotations -/

/-- An element whose value is complete. -/
theorem course_tellElement (h : o.IsPlain) (s : Site) (position : Position) (name text : Text)
    (comment : Option Call) (remarks : List Call) :
    Passage.course o (tellElement position name text comment remarks) =
      (Literal.decode text).toOption.bind fun v => Course.told o s (.value name v) () := by
  have hremarks : Passage.course o (remarks.forM fun call => Passage.remark (some call)) =
      Course.still () := by
    induction remarks with
    | nil => rfl
    | cons call remarks ih =>
      rw [List.forM_eq_forM, List.forM_cons, Passage.course_bind, Passage.course_remark h,
        Course.still_andThen]
      exact ih
  unfold tellElement Line.decodeAt
  cases Literal.decode text with
  | error flaw => rfl
  | ok value =>
    simp only [Passage.course_bind, Passage.course_ofExcept, toOption_mapError, toOption_ok,
      Option.map_some, Course.some_andThen, course_checkValue, Course.guard_andThen,
      Course.still_andThen, Passage.course_tell, Passage.course_remark h, hremarks,
      Course.map_guard, Option.bind_some]
    rfl

/-- A line as an annotation element, with the frame that it opens. -/
theorem course_elementLine (h : o.IsPlain) (s : Site) (l : Line) :
    Passage.course o (elementLine l) =
      l.element?.bind fun
        | .call call =>
          Course.told o s call (call.opens?.map fun _ => .annotationBody l.position "subannotation")
        | .braces b => Course.still (some (.array (.start l b.name b.text))) := by
  unfold elementLine Line.element?
  cases hcut : Text.cut? (· == '=') l.text with
  | none => rfl
  | some sides =>
    obtain ⟨before, after⟩ := sides
    dsimp only
    split
    · rfl
    · cases hsub : Text.after? ".subannotation" (Text.trim after) with
      | some descriptor =>
        simp only [openSubannotationScope]
        cases l.parseType (Text.trim descriptor) with
        | error fault => rfl
        | ok type =>
          simp only [Passage.course_bind, Passage.course_ofExcept, Except.toOption,
            Option.map_some, Course.some_andThen, Passage.checkObject, Passage.check,
            Passage.course_require, Course.guard_andThen, Course.still_andThen,
            Passage.course_enter h, Course.map_guard, Option.bind_some]
          rfl
      | none =>
        dsimp only
        split
        · rfl
        · rw [Passage.course_bind, course_tellElement h s]
          cases Literal.decode (Text.trim after) with
          | error flaw => rfl
          | ok value => exact Course.told_andThen s _ () fun _ => none

/-! ## Steps -/

/-- A closing line ends a scope. -/
theorem course_closeBy (h : o.IsPlain) (l : Line) (opened : Position) (heard : Bool)
    (outer : List Frame) :
    Dialogue.course o (closeBy l opened heard outer) =
      some (outer, [.tell .finish, .leave]) := by
  have hend : Dialogue.course o endScope = some (none, [.tell .finish, .leave]) := rfl
  unfold closeBy
  rw [Dialogue.course_bind, hend, Course.some_andThen]
  dsimp only
  rw [Dialogue.course_bind, Passage.run_remark h]
  rfl

/-- Code on a line is no comment. -/
theorem comment?_eq_none {l : Line} (hl : l.isComment = false) : l.comment? = none := by
  cases hc : l.comment? with
  | none => rfl
  | some text => simp [Line.isComment, hc] at hl

/-- The calls of element lines are elements. -/
theorem element?_call {l : Line} {call : Call} (h : l.element? = some (.call call)) :
    (∃ name v, call = .value name v) ∨ ∃ name type, call = .subannotationStart name type := by
  unfold Line.element? at h
  split at h
  · exact absurd h (Option.some_ne_none _).symm
  · dsimp only at h
    split at h
    · exact absurd h (Option.some_ne_none _).symm
    · split at h
      · obtain ⟨type, -, heq⟩ := Option.map_eq_some_iff.mp h
        cases heq
        exact .inr ⟨_, type, rfl⟩
      · split at h
        · cases h
        · obtain ⟨v, -, heq⟩ := Option.map_eq_some_iff.mp h
          cases heq
          exact .inl ⟨_, v, rfl⟩

/-- The depth of an array that a line opens is that of its text. -/
theorem element?_braces {l : Line} {b : Braces} (h : l.element? = some (.braces b)) :
    b = ⟨b.name, b.text, Literal.braceDepth b.text⟩ := by
  unfold Line.element? at h
  split at h
  · exact absurd h (Option.some_ne_none _).symm
  · dsimp only at h
    split at h
    · exact absurd h (Option.some_ne_none _).symm
    · split at h
      · obtain ⟨type, -, heq⟩ := Option.map_eq_some_iff.mp h
        cases heq
      · split at h
        · cases h
          rfl
        · obtain ⟨v, -, heq⟩ := Option.map_eq_some_iff.mp h
          cases heq

/-- A line in an annotation. -/
theorem agrees_takeInAnnotationBody (h : o.IsPlain) {c : Control} {s : Site}
    {opened : Position} {frames : List Frame} {outer : Nat} (hnest : s.nest = outer + 1)
    (hstage : c.stage = s.phase.stage) (hdeclared : c.declared = s.declared)
    (hframes : Stands frames none outer s.host) {l : Line} (hl : l.isComment = false) :
    Agrees
      (Dialogue.course o (do
        return { c with frames :=
          ← takeInAnnotationBody opened (closingName outer) l frames }))
      (Stance.inAnnotation? o.validate s outer l) := by
  have hhere : Stands (.annotationBody opened (closingName outer) :: frames) none s.nest
      s.host := hnest ▸ .annotationBody opened hframes
  unfold takeInAnnotationBody Stance.inAnnotation?
  rw [comment?_eq_none hl]
  cases hd : l.directive? with
  | none =>
    dsimp only
    simp only [Dialogue.course_bind, course_attempt h.strict, course_elementLine h s,
      Dialogue.course_pure]
    cases hel : l.element? with
    | none => trivial
    | some element =>
      cases element with
      | braces b =>
        refine ⟨⟨hstage, hdeclared, ?_⟩, rfl⟩
        have harray := Stands.array (.start l b.name b.text) (hnest ▸ hhere)
        rw [← hnest] at harray
        rw [element?_braces hel]
        exact harray
      | call call =>
        simp only [Option.bind_some, Course.told_andThen]
        rcases element?_call hel with ⟨name, v, rfl⟩ | ⟨name, type, rfl⟩
        · have hin : s.next? (.value name v) = some s := by
            rw [Site.next?_of_nest hnest]
            simp only [Site.nestNext?, Option.map_some]
            rw [← hnest]
          exact agrees_told_of_next hin ⟨hstage, hdeclared, hhere⟩
        · have hin : s.next? (.subannotationStart name type) =
              some { s with nest := outer + 2 } := by
            rw [Site.next?_of_nest hnest]
            rfl
          rw [hnest] at hhere
          exact agrees_told_of_next hin ⟨hstage, hdeclared, .annotationBody l.position hhere⟩
  | some d =>
    dsimp only
    split
    · rw [Dialogue.course_bind, course_closeBy h]
      have hnext : s.next? .finish = some { s with nest := outer } := by
        rw [Site.next?, hnest]
        rfl
      exact agrees_finish hnext ⟨hstage, hdeclared, hframes⟩
    · simp [Dialogue.course_excuse h.strict, Agrees]

/-- A line in an array. -/
theorem agrees_takeInArray (h : o.IsPlain) {c : Control} {s : Site} {outer : Nat}
    (hnest : s.nest = outer + 1) {g : Gathering} {frames : List Frame}
    (hstage : c.stage = s.phase.stage) (hdeclared : c.declared = s.declared)
    (hframes : Stands frames none s.nest s.host) {l : Line} (hl : l.isComment = false)
    (hends : Gathering.isEndedBy l = false) :
    Agrees (Dialogue.course o (do return { c with frames := ← takeInArray g l frames }))
      (Stance.inArray? o.validate s ⟨g.name, g.text, g.depth⟩ l) := by
  have hadd : g.add l = { g with
      text := g.text ++ '\n' :: l.text
      depth := g.depth + Literal.braceDepth l.text
      remarks := ((l.eolComment?.map Call.eolComment).toList) ++ g.remarks } := by
    rw [Gathering.add, comment?_eq_none hl]
  unfold takeInArray Stance.inArray?
  rw [Gathering.isClosedBy, hl, hends, hadd]
  dsimp only
  by_cases hdepth : g.depth + Literal.braceDepth l.text ≤ 0
  · simp only [hdepth, Bool.not_false, Bool.true_and, decide_true, if_true,
      Bool.false_eq_true, if_false, Dialogue.course_bind, course_attempt h.strict,
      course_tellElement h s, Dialogue.course_pure]
    cases Literal.decode (g.text ++ '\n' :: l.text) with
    | error flaw => trivial
    | ok v =>
      simp only [Except.toOption, Option.bind_some, Course.told_andThen]
      have hin : s.next? (.value g.name v) = some s := by
        rw [Site.next?_of_nest hnest]
        simp only [Site.nestNext?, Option.map_some]
        rw [← hnest]
      exact agrees_told_of_next hin ⟨hstage, hdeclared, hframes⟩
  · simp only [hdepth, Bool.not_false, Bool.true_and, decide_false, Bool.false_eq_true, if_false]
    refine ⟨⟨hstage, hdeclared, ?_⟩, rfl⟩
    rw [hnest] at hframes
    rw [hnest]
    exact .array _ hframes

/-- A parameter is open behind its line up to its closing line. -/
theorem after_of_code {m : OpenMethod} {l : Line} (hparam : l.directive? ≠ some .param)
    (hend : l.closes "param" = false) : m.after l = m := by
  rw [OpenMethod.after, if_neg hparam, hend, if_neg Bool.false_ne_true]

/-- A line in a method. -/
theorem agrees_takeInMethod (h : o.IsPlain) {c : Control} {s : Site} (hnest : s.nest = 0)
    {m : OpenMethod} (hs : s.host = some (.method m.name m.access m.paramOpen))
    (hstage : c.stage = s.phase.stage) (hdeclared : c.declared = s.declared) {l : Line}
    (hl : l.isComment = false) :
    Agrees (Dialogue.course o (do return { c with frames := ← takeInMethod m l [] }))
      (l.bodyCall?.bind (Stance.tell o.validate s)) := by
  unfold takeInMethod
  rw [comment?_eq_none hl]
  dsimp only
  have hnext := Site.next?_of_method hnest hs
  by_cases hend : l.closes "method"
  · have hbody : l.bodyCall? = some .finish := by
      rw [Line.bodyCall?, Line.directive?_of_closes hend]
      exact if_pos hend
    rw [if_pos hend, Dialogue.course_bind, course_closeBy h, hbody]
    refine agrees_finish (hnext .finish) ⟨hstage, hdeclared, ?_⟩
    rw [hnest]
    exact .idle
  · rw [if_neg hend]
    simp only [Dialogue.course_bind, course_attempt h.strict, Dialogue.course_pure]
    rw [course_bodyLine h hs (Bool.eq_false_iff.mpr hend)]
    cases hb : l.bodyCall? with
    | none => trivial
    | some call =>
      have hmethod : Stands [.method m] none s.nest s.host := by
        rw [hnest, hs]
        exact .method m
      rw [Option.bind_some, Option.bind_some]
      cases tellsBody_of_bodyCall? hb with
      | code hcode hparam hendParam =>
        obtain ⟨hopens, hkind, -, -⟩ := Call.isBody_iff hcode
        rw [if_neg fun hk => hkind hk.1, hopens]
        simp only [Course.told_andThen]
        have hin : s.next? call = some s := by
          rw [hnext]
          cases call <;> first | exact absurd hcode Bool.false_ne_true | rfl
        refine agrees_told_of_next hin ⟨hstage, hdeclared, ?_⟩
        rw [after_of_code hparam hendParam]
        exact hmethod
      | annotationStart hd visibility type =>
        rw [if_neg (by simp [Call.kind])]
        simp only [Course.told_andThen]
        refine agrees_told_of_next (hnext _) ⟨hstage, hdeclared, ?_⟩
        have hafter : m.after l = m := by
          refine after_of_code (by simp [hd]) (Bool.eq_false_iff.mpr fun hc => ?_)
          cases hd.symm.trans (Line.directive?_of_closes hc)
        rw [hnest] at hmethod
        rw [hafter]
        exact .annotationBody l.position hmethod
      | finish hend' => exact absurd hend' hend
      | param hd hok register name =>
        rw [if_neg (by simp [Call.kind])]
        simp only [Course.told_andThen]
        refine agrees_told_of_next (hnext _) ⟨hstage, hdeclared, ?_⟩
        have hafter : m.after l = { m with paramOpen := true } := by
          rw [OpenMethod.after, if_pos hd, hok, Bool.or_true]
        dsimp only
        rw [hafter, hnest]
        exact .method _
      | paramEnd hend' =>
        have hafter : m.after l = { m with paramOpen := false } := by
          rw [OpenMethod.after, if_neg fun hd => ?_, if_pos hend']
          cases hd.symm.trans (Line.directive?_of_closes hend')
        cases hp : m.paramOpen with
        | false =>
          have hclosed := hnext .paramEnd
          rw [hp] at hclosed
          rw [if_pos ⟨rfl, rfl⟩, Stance.tell, Site.accept, hclosed]
          simp [Site.inMethod?, Agrees]
        | true =>
          have hopen := hnext .paramEnd
          rw [hp] at hopen
          rw [if_neg fun hk => Bool.noConfusion hk.2]
          simp only [Course.told_andThen]
          refine agrees_told_of_next hopen ⟨hstage, hdeclared, ?_⟩
          dsimp only
          rw [hafter, hnest]
          exact .method _

/-- A line that a reader at the level of the class refuses. -/
theorem agrees_refused (h : o.IsPlain) {c : Control} {s : Site} {l : Line} {fault : Fault}
    (hrefused : ∀ call, l.classCall? = some call → s.next? call = none) :
    Agrees (Dialogue.course o (do
      excuse fault
      return c)) (Stance.inClass? o.validate s l) := by
  simp only [Dialogue.course_bind, Dialogue.course_excuse h.strict, Course.none_andThen]
  unfold Stance.inClass?
  cases hc : l.classCall? with
  | none => trivial
  | some call => simp [Stance.tell, Site.accept, hrefused call hc, Agrees]

/-- The line of a field, checked. -/
theorem course_fieldHeader {s : Site} {declared : List Member} (hs : declared = s.declared)
    (l : Line) :
    Passage.course o (fieldHeader declared l) =
      l.field.toOption.bind fun f =>
        Course.guard o (s.allows (.field f.name f.access f.type f.value)) (.still f) := by
  subst hs
  unfold fieldHeader
  cases l.field with
  | error fault => rfl
  | ok f =>
    obtain ⟨name, access, type, value⟩ := f
    cases value with
    | none => simp [Passage.check, Except.toOption, Site.allows]
    | some v =>
      simp [Passage.check, Except.toOption, Site.allows, course_checkValue, Course.guard_and]

/-- The line of a field. -/
theorem course_openField (h : o.IsPlain) (c : Control) {s : Site} (hs : c.declared = s.declared)
    (l : Line) :
    Dialogue.course o (c.openField l) =
      l.field.toOption.bind fun f =>
        Course.told o s (.field f.name f.access f.type f.value) { c with
          declared := .field f.name :: c.declared
          frames := [.field ⟨l.position, false, [], true⟩] } := by
  unfold Control.openField
  rw [Passage.course_run_bind _ _ fun fault => by simp [Dialogue.course_excuse h.strict],
    course_fieldHeader hs]
  cases l.field with
  | error fault => rfl
  | ok f =>
    simp only [Except.toOption, Option.bind_some, Course.guard_andThen, Course.still_andThen,
      Dialogue.course_bind, course_attempt h.strict, Passage.course_enter h, Course.told]
    rfl

/-- The line of a method, checked. -/
theorem course_methodHeader {s : Site} {declared : List Member} (hs : declared = s.declared)
    (l : Line) :
    Passage.course o (methodHeader declared l) =
      l.method.toOption.bind fun m =>
        Course.guard o (s.allows (.method m.name m.access m.signature)) (.still m) := by
  subst hs
  unfold methodHeader
  cases l.method with
  | error fault => rfl
  | ok m => simp [Passage.check, Except.toOption, Site.allows, Course.guard_and]

/-- The line of a method. -/
theorem course_openMethod (h : o.IsPlain) (c : Control) {s : Site}
    (hs : c.declared = s.declared) (l : Line) :
    Dialogue.course o (c.openMethod l) =
      l.method.toOption.bind fun m =>
        Course.told o s (.method m.name m.access m.signature) { c with
          declared := .method m.name m.signature :: c.declared
          frames := [.method ⟨l.position, m.name, m.access, false⟩] } := by
  unfold Control.openMethod
  rw [Passage.course_run_bind _ _ fun fault => by simp [Dialogue.course_excuse h.strict],
    course_methodHeader hs]
  cases l.method with
  | error fault => rfl
  | ok m =>
    simp only [Except.toOption, Option.bind_some, Course.guard_andThen, Course.still_andThen,
      Dialogue.course_bind, course_attempt h.strict, Passage.course_enter h, Course.told]
    rfl

/-- A line that a reader at the level of the class takes. -/
theorem agrees_accepted {β : Type} {s : Site} {l : Line} {d : Dialogue Control} {r : Option β}
    {call : β → Call} {c : β → Control} (hclass : l.classCall? = r.map call)
    (hd : Dialogue.course o d = r.bind fun a => Course.told o s (call a) (c a))
    (hnext : ∀ a, ∃ s', s.next? (call a) = some s' ∧ (c a).StandsAt ⟨s', none⟩) :
    Agrees (Dialogue.course o d) (Stance.inClass? o.validate s l) := by
  unfold Stance.inClass?
  rw [hd, hclass]
  cases r with
  | none => trivial
  | some a =>
    obtain ⟨s', hs', hc⟩ := hnext a
    exact agrees_told_of_next hs' hc

/-- A line of the class header, where it may stand. -/
theorem course_classDirective_header (h : o.IsPlain) (c : Control) (s : Site) {l : Line}
    {d : Directive} (hd : l.directive? = some d)
    (hheader : d = .ofClass ∨ d = .superType ∨ d = .implements ∨ d = .source) :
    Dialogue.course o (c.classDirective l d .header) =
      l.classCall?.bind fun call => Course.told o s call { c with stage := .header } := by
  unfold Control.classDirective
  simp only [Dialogue.course_bind, course_attempt h.strict, course_headerLine h s hd hheader,
    Dialogue.course_pure]
  cases l.classCall? with
  | none => rfl
  | some call => simp only [Option.bind_some, Course.told_andThen]

/-- A directive that may stand where the class is. -/
theorem Control.classLine_of_next {c : Control} {l : Line} {d : Directive} {next : Stage}
    (hl : l.isComment = false) (hd : l.directive? = some d) (hnext : c.stage.next? d = some next) :
    c.classLine l = c.classDirective l d next := by
  unfold Control.classLine
  rw [comment?_eq_none hl, hd]
  cases d with
  | closing => cases hstage : c.stage <;> simp [hstage, Stage.next?] at hnext
  | _ =>
    dsimp only
    rw [hnext]

/-- A directive that may not stand there is passed over. -/
theorem Control.classLine_of_refused {c : Control} {l : Line} {d : Directive}
    (hl : l.isComment = false) (hd : l.directive? = some d) (hnext : c.stage.next? d = none) :
    ∃ fault, c.classLine l = do
      excuse fault
      return c := by
  unfold Control.classLine
  rw [comment?_eq_none hl, hd]
  cases d with
  | closing => exact ⟨_, rfl⟩
  | _ =>
    dsimp only
    rw [hnext]
    exact ⟨_, rfl⟩

/-- A line at the level of the class. -/
theorem agrees_classLine (h : o.IsPlain) {c : Control} {s : Site} (hnest : s.nest = 0)
    (hs : s.host = none) (hc : c.StandsAt ⟨s, none⟩) {l : Line} (hl : l.isComment = false) :
    Agrees (Dialogue.course o (c.classLine l)) (Stance.inClass? o.validate s l) := by
  have hnext := Site.next?_of_class hnest hs
  have hframes : c.frames = [] := by
    have hf := hc.frames
    dsimp only at hf
    rw [hnest, hs] at hf
    cases hf' : c.frames with
    | nil => rfl
    | cons f frames =>
      rw [hf'] at hf
      cases hf
  have hidle : Stands c.frames none s.nest s.host := by
    rw [hframes, hnest, hs]
    exact .idle
  cases hd : l.directive? with
  | none =>
    unfold Control.classLine
    rw [comment?_eq_none hl, hd]
    refine agrees_refused h fun call hcall => ?_
    rw [Line.classCall?, hd] at hcall
    exact absurd hcall (Option.some_ne_none call).symm
  | some d =>
    have hstages : c.stage.next? d = s.phase.stage.next? d := congrArg (·.next? d) hc.stage
    -- A directive that may not stand here, and the others with the phase that they lead to.
    have hrefused : s.phase.stage.next? d = none →
        (∀ call, l.classCall? = some call → s.inClass? call = none) →
        Agrees (Dialogue.course o (c.classLine l)) (Stance.inClass? o.validate s l) := by
      intro hstage hnone
      obtain ⟨fault, hline⟩ := Control.classLine_of_refused hl hd (hstages.trans hstage)
      rw [hline]
      exact agrees_refused h fun call hcall => (hnext call).trans (hnone call hcall)
    have haccepted : ∀ {next : Stage}, s.phase.stage.next? d = some next →
        c.classLine l = c.classDirective l d next :=
      fun hstage => Control.classLine_of_next hl hd (hstages.trans hstage)
    have hheader : ∀ {s' : Site}, s'.phase = .header → s'.declared = s.declared →
        s'.nest = s.nest → s'.host = s.host → { c with stage := .header }.StandsAt ⟨s', none⟩ := by
      intro s' hphase hdeclared hnest' hhost
      refine ⟨by rw [hphase]; rfl, hc.declared.trans hdeclared.symm, ?_⟩
      dsimp only
      rw [hnest', hhost]
      exact hidle
    -- The line of a header call that only one phase takes.
    have hline : ∀ {β : Type} {r : Option β} (call : β → Call) (s' : Site),
        l.classCall? = r.map call →
        d = .ofClass ∨ d = .superType ∨ d = .implements ∨ d = .source →
        (∀ a, s.inClass? (call a) =
          if s.phase.stage.next? d = some .header then some s' else none) →
        (s.phase.stage.next? d = none ∨ s.phase.stage.next? d = some .header ∧ s'.phase = .header) →
        s'.declared = s.declared → s'.nest = s.nest → s'.host = s.host →
        Agrees (Dialogue.course o (c.classLine l)) (Stance.inClass? o.validate s l) := by
      intro β r call s' hclass hkind hin hstage hdeclared hnest' hhost
      rcases hstage with hstage | ⟨hstage, hphase⟩
      · refine hrefused hstage fun other hother => ?_
        rw [hclass] at hother
        obtain ⟨a, -, rfl⟩ := Option.map_eq_some_iff.mp hother
        rw [hin, hstage, if_neg (Option.some_ne_none _).symm]
      · rw [haccepted hstage]
        refine agrees_accepted (c := fun _ => { c with stage := .header }) hclass ?_ fun a =>
          ⟨s', ?_, hheader hphase hdeclared hnest' hhost⟩
        · rw [course_classDirective_header h c s hd hkind, hclass]
          cases r <;> rfl
        · rw [hnext, hin, if_pos hstage]
    -- A directive that opens a member or an annotation.
    have hmember : ∀ {β : Type} {r : Option β} (call : β → Call) (c' : β → Control) (next : Stage)
        {dialogue : Dialogue Control},
        s.phase.stage.next? d = (if s.phase = .start then none else some next) →
        l.classCall? = r.map call →
        (s.phase = .start → ∀ a, s.inClass? (call a) = none) →
        c.classDirective l d next = dialogue →
        Dialogue.course o dialogue = (r.bind fun a => Course.told o s (call a) (c' a)) →
        (s.phase ≠ .start → ∀ a, ∃ s', s.inClass? (call a) = some s' ∧ (c' a).StandsAt ⟨s', none⟩) →
        Agrees (Dialogue.course o (c.classLine l)) (Stance.inClass? o.validate s l) := by
      intro β r call c' next dialogue hstage hclass hstart hdialogue hcourse hin
      by_cases hp : s.phase = .start
      · rw [if_pos hp] at hstage
        refine hrefused hstage fun other hother => ?_
        rw [hclass] at hother
        obtain ⟨a, -, rfl⟩ := Option.map_eq_some_iff.mp hother
        exact hstart hp a
      · rw [if_neg hp] at hstage
        rw [haccepted hstage]
        refine agrees_accepted hclass (hdialogue ▸ hcourse) fun a => ?_
        obtain ⟨s', hs', hc'⟩ := hin hp a
        exact ⟨s', (hnext _).trans hs', hc'⟩
    cases d with
    | ofClass =>
      refine hline (fun (access, type) => .header type access) { s with phase := .header }
        (by rw [Line.classCall?, hd]) (.inl rfl)
        (fun a => ?_) ?_ rfl rfl rfl
      · cases hp : s.phase <;> simp [Site.inClass?, hp, Phase.stage, Stage.next?]
      · cases s.phase <;> simp [Phase.stage, Stage.next?]
    | superType =>
      refine hline .superType s (by rw [Line.classCall?, hd]) (.inr (.inl rfl))
        (fun a => ?_) ?_ rfl rfl rfl
      · cases hp : s.phase <;> simp [Site.inClass?, hp, Phase.stage, Stage.next?]
      · cases hp : s.phase <;> simp [Phase.stage, Stage.next?]
    | implements =>
      refine hline .implements s (by rw [Line.classCall?, hd])
        (.inr (.inr (.inl rfl))) (fun a => ?_) ?_ rfl rfl rfl
      · cases hp : s.phase <;> simp [Site.inClass?, hp, Phase.stage, Stage.next?]
      · cases hp : s.phase <;> simp [Phase.stage, Stage.next?]
    | source =>
      refine hline .source s (by rw [Line.classCall?, hd])
        (.inr (.inr (.inr rfl))) (fun a => ?_) ?_ rfl rfl rfl
      · cases hp : s.phase <;> simp [Site.inClass?, hp, Phase.stage, Stage.next?]
      · cases hp : s.phase <;> simp [Phase.stage, Stage.next?]
    | field =>
      refine hmember (fun f : Line.FieldArguments => .field f.name f.access f.type f.value) _ .field
        (by cases s.phase <;> rfl) (by rw [Line.classCall?, hd]) (fun hp a => if_pos hp) rfl
        (course_openField h { c with stage := .body } hc.declared l) fun hp a =>
          ⟨_, if_neg hp, rfl, congrArg (Member.field a.name :: ·) hc.declared, ?_⟩
      dsimp only
      rw [hnest]
      exact .field _
    | method =>
      refine hmember (fun m : Line.MethodArguments => .method m.name m.access m.signature) _ .method
        (by cases s.phase <;> rfl) (by rw [Line.classCall?, hd]) (fun hp a => if_pos hp) rfl
        (course_openMethod h { c with stage := .body } hc.declared l) fun hp a =>
          ⟨_, if_neg hp, rfl, congrArg (Member.method a.name a.signature :: ·) hc.declared, ?_⟩
      dsimp only
      rw [hnest]
      exact .method _
    | annotationStart =>
      refine hmember (fun header : Visibility × TypeName => .annotationStart header.1 header.2)
        (fun _ => { c with
          stage := .body, frames := [.annotationBody l.position "annotation"] }) .annotationBody
        (by cases s.phase <;> rfl) (by rw [Line.classCall?, hd]; rfl)
        (fun hp a => if_pos hp) rfl ?_ fun hp a => ⟨_, if_neg hp, rfl, hc.declared, ?_⟩
      · unfold Control.classDirective
        rw [Dialogue.course_bind, course_attempt h.strict, course_openAnnotationScope h s,
          Line.annotationCall?]
        cases l.annotationHeader with
        | error fault => rfl
        | ok a =>
          simp only [Except.toOption, Option.map_some, Option.bind_some, Course.told_andThen,
            Dialogue.course_pure]
          rfl
      · dsimp only
        rw [hs]
        exact .annotationBody l.position .idle
    | _ =>
      refine hrefused (by cases s.phase <;> rfl) fun call hcall => ?_
      rw [Line.classCall?, hd] at hcall
      cases hcall

/-- A line in a field. -/
theorem agrees_takeInField (h : o.IsPlain) {c : Control} {s : Site} (hnest : s.nest = 0)
    {f : OpenField} (hs : s.host = some (.field f.annotated)) (hstage : c.stage = s.phase.stage)
    (hdeclared : c.declared = s.declared) {l : Line} (hl : l.isComment = false)
    (htakes : (Frame.field f).takes l = true) :
    Agrees (Dialogue.course o (do return { c with frames := ← takeInField f l [] }))
      (Stance.inField? o.validate s f.annotated l) := by
  have hnext := Site.next?_of_field hnest hs
  have hheld : ∀ held : List Text,
      Dialogue.course o (held.forM fun text => Passage.remark (some (.comment text))).run =
        some (.ok (), []) := by
    intro held
    induction held with
    | nil => rfl
    | cons text held ih =>
      rw [List.forM_eq_forM, List.forM_cons, ExceptT.run_bind, Dialogue.course_bind,
        Passage.run_remark h, Course.some_andThen]
      rw [List.forM_eq_forM] at ih
      simp [ih]
  unfold takeInField Stance.inField?
  rw [comment?_eq_none hl]
  simp only [Dialogue.course_bind, hheld, Course.some_andThen]
  by_cases hend : l.closes "field"
  · rw [if_pos hend, if_pos hend, course_closeBy h]
    refine agrees_finish (hnext .finish) ⟨hstage, hdeclared, ?_⟩
    rw [hnest]
    exact .idle
  · have hd : l.directive? = some .annotationStart := by
      simp only [Frame.takes, hl, Bool.false_or, Bool.or_eq_true, decide_eq_true_eq] at htakes
      exact htakes.resolve_right hend
    rw [if_neg hend, if_neg hend, if_pos hd]
    rw [course_orRaise h.strict, Passage.course_bind, course_openAnnotationScope h s]
    cases hcall : l.annotationCall? with
    | none => trivial
    | some call =>
      obtain ⟨⟨visibility, type⟩, -, rfl⟩ := Option.map_eq_some_iff.mp hcall
      simp only [Option.bind_some, Passage.course_pure, Course.told_andThen, Dialogue.course_pure]
      have hin : s.next? (.annotationStart visibility type) =
          some { s with host := some (.field true), nest := 1 } := hnext _
      have hagrees := agrees_told_of_next (o := o) (c := { c with frames :=
        [.annotationBody l.position "annotation", .field { f with annotated := true, held := [] }] })
        hin ⟨hstage, hdeclared, ?_⟩
      · simpa [Course.told, Course.still] using hagrees
      exact .annotationBody l.position (.field { f with annotated := true, held := [] })

/-! ## Lines -/

/-- Calls in front of a course and a step that agree. -/
theorem Agrees.after {course : Course Control} {step : Option (Stance × List Call)}
    (h : Agrees course step) (calls : List Call) :
    Agrees (course.map fun (c, moves) => (c, calls.flatMap Call.moves ++ moves))
      (step.map fun (s, more) => (s, calls ++ more)) := by
  cases course with
  | none =>
    cases step with
    | none => trivial
    | some step => exact absurd h id
  | some course =>
    cases step with
    | none => exact absurd h id
    | some step => exact ⟨h.1, by rw [h.2, List.flatMap_append]⟩

/-- A line of the class level is no line of a method. -/
theorem bodyCall?_of_leavesMethod {l : Line} (h : l.leavesMethod = true) : l.bodyCall? = none := by
  unfold Line.leavesMethod at h
  unfold Line.bodyCall?
  split at h <;> simp_all

/-- A line that leaves an annotation is none of it. -/
theorem inAnnotation?_of_leaves (validate : Bool) (s : Site) {outer : Nat} {l : Line}
    (h : l.leavesAnnotationBody (closingName outer) = true) :
    Stance.inAnnotation? validate s outer l = none := by
  unfold Line.leavesAnnotationBody at h
  unfold Stance.inAnnotation?
  cases hd : l.directive? with
  | none => simp [hd] at h
  | some d =>
    refine if_neg fun hcloses => ?_
    have hend : l.endOf? = some (closingName outer) := of_decide_eq_true hcloses
    simp [hd, hend] at h

/-- A reader takes the step over a line of code. -/
theorem agrees_takeCode (h : o.IsPlain) {c : Control} {s : Stance} (hc : c.StandsAt s) {l : Line}
    (hl : l.isComment = false) :
    Agrees (Dialogue.course o (c.take l)) (s.take o.validate l) := by
  obtain ⟨⟨phase, declared, host, nest⟩, braces⟩ := s
  obtain ⟨stage, known, frames⟩ := c
  obtain ⟨hstage, hdeclared, hframes⟩ := hc
  dsimp only at hstage hdeclared hframes
  unfold Control.take Stance.take
  rw [hl, if_neg Bool.false_ne_true, Dialogue.course_bind]
  cases hframes with
  | idle =>
    rw [course_unwind_nil, Course.still_andThen]
    exact agrees_classLine h rfl rfl ⟨hstage, hdeclared, .idle⟩ hl
  | field f =>
    cases ht : (Frame.field f).takes l with
    | true =>
      rw [course_unwind_stays _ ht, Course.still_andThen]
      exact agrees_takeInField h rfl rfl hstage hdeclared hl ht
    | false =>
      have ht' := ht
      simp only [Frame.takes, hl, Bool.false_or, Bool.or_eq_false_iff, decide_eq_false_iff_not]
        at ht'
      dsimp only
      unfold Stance.inField?
      rw [if_neg (Bool.eq_false_iff.mp ht'.2), if_neg ht'.1, course_unwind_field h _ ht]
      cases f.annotated with
      | true => trivial
      | false =>
        have hline := agrees_classLine (c := ⟨stage, known, []⟩) (s := ⟨phase, declared, none, 0⟩)
          h rfl rfl ⟨hstage, hdeclared, .idle⟩ hl
        exact hline.after [.finish]
  | method m =>
    cases ht : (Frame.method m).takes l with
    | true =>
      rw [course_unwind_stays _ ht, Course.still_andThen]
      exact agrees_takeInMethod h rfl rfl hstage hdeclared hl
    | false =>
      rw [course_unwind_ends h.strict _ ht (by simp) (by simp),
        bodyCall?_of_leavesMethod (by simpa [Frame.takes] using ht)]
      trivial
  | @annotationBody _ outer _ opened hrest =>
    cases ht : (Frame.annotationBody opened (closingName outer)).takes l with
    | true =>
      rw [course_unwind_stays _ ht, Course.still_andThen]
      exact agrees_takeInAnnotationBody h rfl hstage hdeclared hrest hl
    | false =>
      rw [course_unwind_ends h.strict _ ht (by simp) (by simp)]
      dsimp only
      rw [inAnnotation?_of_leaves _ _ (by simpa [Frame.takes] using ht)]
      trivial
  | array g hrest =>
    cases ht : (Frame.array g).takes l with
    | true =>
      rw [course_unwind_stays _ ht, Course.still_andThen]
      exact agrees_takeInArray h rfl hstage hdeclared hrest hl (by simpa [Frame.takes] using ht)
    | false =>
      rw [course_unwind_ends h.strict _ ht (by simp) (by simp)]
      dsimp only
      rw [Stance.inArray?, if_pos (by simpa [Frame.takes] using ht)]
      trivial

/-- A line without code has no directive. -/
theorem directive?_of_isComment {l : Line} (hl : l.isComment = true) : l.directive? = none := by
  unfold Line.isComment Line.comment? at hl
  unfold Line.directive?
  split at hl
  · rename_i hcode
    rw [List.isEmpty_iff.mp hcode]
  · exact absurd hl Bool.false_ne_true

/-- A reader takes the step over a line. -/
theorem agrees_take (h : o.IsPlain) {c : Control} {s : Stance} (hc : c.StandsAt s) (l : Line) :
    Agrees (Dialogue.course o (c.take l)) (s.take o.validate l) := by
  cases hl : l.isComment with
  | false => exact agrees_takeCode h hc hl
  | true =>
    have hd := directive?_of_isComment hl
    have hend : l.endOf? = none := by simp [Line.endOf?, hd]
    obtain ⟨text, htext⟩ := Option.isSome_iff_exists.mp hl
    obtain ⟨⟨phase, declared, host, nest⟩, braces⟩ := s
    obtain ⟨stage, known, frames⟩ := c
    obtain ⟨hstage, hdeclared, hframes⟩ := hc
    dsimp only at hstage hdeclared hframes
    unfold Control.take Stance.take
    rw [hl, if_pos rfl, Dialogue.course_bind]
    -- Whatever is open takes a comment, and nothing but the comments that it holds changes.
    cases hframes with
    | idle =>
      rw [course_unwind_nil, Course.still_andThen]
      unfold Control.takeInner Control.classLine
      rw [htext]
      dsimp only
      rw [Dialogue.course_bind, course_remarkClass h]
      exact ⟨⟨hstage, hdeclared, .idle⟩, rfl⟩
    | field f =>
      rw [course_unwind_stays _ (by simp [Frame.takes, hl]), Course.still_andThen]
      unfold Control.takeInner takeInField
      rw [htext]
      exact ⟨⟨hstage, hdeclared, .field { f with held := text :: f.held }⟩, rfl⟩
    | method m =>
      rw [course_unwind_stays _ (by simp [Frame.takes, Line.leavesMethod, hd]),
        Course.still_andThen]
      unfold Control.takeInner takeInMethod
      rw [htext]
      dsimp only
      rw [Dialogue.course_bind, course_orRaise h.strict, Passage.course_bind, Passage.course_remark h]
      exact ⟨⟨hstage, hdeclared, .method m⟩, rfl⟩
    | annotationBody opened hrest =>
      rw [course_unwind_stays _ (by simp [Frame.takes, Line.leavesAnnotationBody, hd]),
        Course.still_andThen]
      unfold Control.takeInner takeInAnnotationBody
      rw [htext]
      dsimp only
      rw [Dialogue.course_bind, course_orRaise h.strict, Passage.course_bind, Passage.course_remark h]
      exact ⟨⟨hstage, hdeclared, .annotationBody opened hrest⟩, rfl⟩
    | array g hrest =>
      rw [course_unwind_stays _ (by simp [Frame.takes, Gathering.isEndedBy, hd, hend]),
        Course.still_andThen]
      have hclosed : g.isClosedBy l = false := by simp [Gathering.isClosedBy, hl]
      unfold Control.takeInner takeInArray
      dsimp only
      rw [hclosed, Gathering.add, htext]
      exact ⟨⟨hstage, hdeclared, .array { g with remarks := .comment text :: g.remarks } hrest⟩, rfl⟩

/-! ## Readings -/

/-- The end of a reading. -/
theorem course_finish (h : o.IsPlain) {c : Control} {s : Stance} (hc : c.StandsAt s) :
    Dialogue.course o c.finish =
      s.finish?.map fun calls => ((), calls.flatMap Call.moves ++ [.tell .finish]) := by
  have hstage : c.stage = .start ↔ s.site.phase = .start := by
    rw [hc.stage]
    cases s.site.phase <;> simp [Phase.stage]
  obtain ⟨⟨phase, declared, host, nest⟩, braces⟩ := s
  obtain ⟨stage, known, frames⟩ := c
  obtain ⟨-, -, hframes⟩ := hc
  dsimp only at hstage hframes
  unfold Control.finish Stance.finish?
  simp only [Dialogue.course_bind]
  by_cases hp : phase = .start
  · simp only [hstage.mpr hp, if_pos hp, if_true, Dialogue.course_bind, Dialogue.course_excuse h.strict,
      Course.none_andThen]
    exact Course.andThen_none _
  · simp only [mt hstage.mp hp, if_neg hp, if_false]
    cases hframes with
    | idle => rfl
    | field f =>
      rw [course_unwind_field h _ rfl]
      cases f.annotated with
      | true => rfl
      | false => rfl
    | _ =>
      rw [course_unwind_ends h.strict _ rfl (by simp) (by simp)]
      rfl

/-- The lines of a source from some point on. -/
theorem course_readLines (h : o.IsPlain) {c : Control} {s : Stance} (hc : c.StandsAt s)
    (lines : List (Except Fault Line)) :
    Dialogue.course o (c.readLines lines) =
      (s.readAll o.validate (lines.map Except.toOption)).map fun calls =>
        ((), calls.flatMap Call.moves ++ [.tell .finish]) := by
  induction lines generalizing c s with
  | nil =>
    unfold Control.readLines
    simpa [Stance.readAll, Stance.takeAll] using course_finish h hc
  | cons line rest ih =>
    cases line with
    | error fault =>
      unfold Control.readLines
      rw [Dialogue.course_bind, Dialogue.course_excuse h.strict]
      rfl
    | ok l =>
      have hagrees := agrees_take h hc l
      unfold Control.readLines
      rw [Dialogue.course_bind]
      simp only [List.map_cons, Except.toOption, Stance.readAll, Stance.takeAll]
      cases hcourse : Dialogue.course o (c.take l) with
      | none =>
        cases hstep : s.take o.validate l with
        | none => rfl
        | some step =>
          rw [hcourse, hstep] at hagrees
          exact absurd hagrees id
      | some taken =>
        obtain ⟨c', moves⟩ := taken
        cases hstep : s.take o.validate l with
        | none =>
          rw [hcourse, hstep] at hagrees
          exact absurd hagrees id
        | some step =>
          obtain ⟨s', calls⟩ := step
          rw [hcourse, hstep] at hagrees
          obtain ⟨hc', rfl⟩ := hagrees
          rw [Course.some_andThen, ih hc', Stance.readAll, Option.bind_some]
          dsimp only
          cases s'.takeAll o.validate (rest.map Except.toOption) with
          | none => rfl
          | some taken =>
            obtain ⟨s'', more⟩ := taken
            cases hf : s''.finish? <;> simp [hf]

/-- Before the first line. -/
theorem standsAt_initial (o : Options) :
    (Control.initial o).StandsAt (Stance.initial o.snippet) := by
  refine ⟨?_, rfl, .idle⟩
  unfold Control.initial Stance.initial Site.initial
  cases o.snippet <;> rfl

/-- The dialogue over a source, as calls. -/
theorem course_dialogue (h : o.IsPlain) (source : Text) :
    Dialogue.course o (dialogue o source) =
      (strictCalls o source).map fun calls =>
        ((), calls.flatMap Call.moves ++ [.tell .finish]) :=
  course_readLines h (standsAt_initial o) (scanLines source)

/-- A strict reading comes to an end exactly if it has calls. It makes them one after another,
and then it ends the class. -/
theorem read_eq {σ κ : Type} (h : o.IsPlain) {L : Listener σ κ} (hL : L.NeverFails) (root : κ)
    (state : σ) (source : Text) :
    match strictCalls o source with
    | some calls => ((read o L root state source).1 = .ok () ∧
        (read o L root state source).2.state =
          ((Desk.initial root state).makeAll L
            (calls.flatMap Call.moves ++ [.tell .finish])).state)
    | none => ∃ fault, (read o L root state source).1 = .error fault := by
  have hcourse := course_dialogue h source
  unfold Dialogue.course at hcourse
  unfold read
  rw [Dialogue.conduct_eq o hL]
  cases hr : ((dialogue o source).rehearse o).result with
  | error fault =>
    rw [hr] at hcourse
    cases hs : strictCalls o source with
    | none => exact ⟨fault, rfl⟩
    | some calls => simp [hs] at hcourse
  | ok result =>
    rw [hr] at hcourse
    cases hs : strictCalls o source with
    | none => simp [hs] at hcourse
    | some calls =>
      simp only [hs, Option.map_some, Option.some.injEq, Prod.mk.injEq] at hcourse
      exact ⟨rfl, by rw [← hcourse.2]; rfl⟩

end Smali
