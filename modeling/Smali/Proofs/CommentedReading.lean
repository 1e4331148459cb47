import Smali.Proofs.CommentCourse

/-!
# Strict readings with comments

A strict reading with comments makes the calls of a strict reading, and tells of the comments
between them. A watch goes along with the reading: it keeps the comments that wait for the end of
an array, or for the next line of code in a field.
-/

namespace Smali

open Dialogue (leave excuse)
open Passage (remark)

/-- The comments of a line, as calls. -/
def Line.remarks (l : Line) : List Call :=
  match l.comment? with
  | some text => [.comment text]
  | none => l.eolCall?.toList

/-- Whether a line of code belongs to a field that is open. -/
def Line.staysInField (l : Line) : Bool :=
  l.closes "field" || l.directive? = some .annotationStart

/-- Where a strict reading stands, and the comments that wait there. -/
structure Watch where
  /-- The stance without comments. -/
  stance : Stance
  /-- The comments that wait, in order. -/
  waiting : List Call

/-- Whether comments on lines of their own wait. -/
def Stance.defers (s : Stance) : Bool :=
  match s.braces, s.site.nest, s.site.host with
  | some _, _, _ => true
  | none, 0, some (.field _) => true
  | _, _, _ => false

/-- The calls of a line together with the comments that waited for it: those of an array stand
behind the element, those of a field in front of its own lines, or behind its end. -/
def Stance.weave (s : Stance) (l : Line) (waiting calls : List Call) : List Call :=
  if s.braces.isSome then calls ++ waiting
  else if l.staysInField then waiting ++ calls
  else calls.take 1 ++ waiting ++ calls.drop 1

namespace Watch

/-- Before the first line. -/
def initial (snippet : Bool) : Watch := ⟨.initial snippet, []⟩

/-- A step over a line of code that leads to a stance and to calls, with the comments that are
told at it. In an array they wait. -/
def heed (w : Watch) (l : Line) (step : Stance × List Call) : Watch × List Call :=
  if step.1.braces.isSome then (⟨step.1, w.waiting ++ l.remarks⟩, step.2)
  else (⟨step.1, []⟩, w.stance.weave l w.waiting step.2 ++ l.remarks)

/-- The step over a line, with the calls that it leads to. -/
def take (validate : Bool) (w : Watch) (l : Line) : Option (Watch × List Call) :=
  if l.isComment then
    if w.stance.defers then some (⟨w.stance, w.waiting ++ l.remarks⟩, [])
    else some (w, l.remarks)
  else (w.stance.take validate l).map (w.heed l)

/-- The calls of lines up to the end of a source. -/
def readAll (validate : Bool) (w : Watch) : List (Option Line) → Option (List Call)
  | [] => w.stance.finish?.map (· ++ w.waiting)
  | none :: _ => none
  | some l :: rest =>
    (w.take validate l).bind fun (w, calls) => (w.readAll validate rest).map (calls ++ ·)

end Watch

/-- The calls about a class before its end, comments included, if a strict reading of the source
comes to an end. -/
def commentedCalls (o : Options) (source : Text) : Option (List Call) :=
  (Watch.initial o.snippet).readAll o.validate ((scanLines source).map Except.toOption)

/-- A line of code. -/
theorem Watch.take_of_code {validate : Bool} {w : Watch} {l : Line} (hl : l.isComment = false) :
    w.take validate l = (w.stance.take validate l).map (w.heed l) :=
  if_neg (by rw [hl]; exact Bool.false_ne_true)

/-! ## Frames and watches -/

/-- The comments that wait in the innermost of some frames. The others are clear. -/
def Frame.Waits (waiting : List Call) : List Frame → Prop
  | [] => waiting = []
  | f :: outer =>
    f.waiting = waiting ∧ (∀ field, f = .field field → field.heard = true) ∧
      ∀ f ∈ outer, f.IsClear

/-- A reader that stands where a watch does. -/
structure Control.Attends (c : Control) (w : Watch) : Prop where
  /-- They stand at the same place. -/
  stands : c.StandsAt w.stance
  /-- The same comments wait. -/
  waits : Frame.Waits w.waiting c.frames
  /-- Nothing else waits. -/
  comments : ∀ call ∈ w.waiting, call.isComment = true

/-- A course of a reader that comes to nothing with a step of a watch, or stands where the step
leads and has made the moves of its calls. -/
def Watch.Agrees (course : Course Control) (step : Option (Watch × List Call)) : Prop :=
  match course, step with
  | none, none => True
  | some (c, moves), some (w, calls) => c.Attends w ∧ moves = calls.flatMap Call.moves
  | _, _ => False

/-- Comments are told without going anywhere. -/
theorem flatMap_moves_of_isComment {calls : List Call}
    (h : ∀ call ∈ calls, call.isComment = true) :
    calls.flatMap Call.moves = calls.map .tell := by
  induction calls with
  | nil => rfl
  | cons call calls ih =>
    rw [List.forall_mem_cons] at h
    rw [List.flatMap_cons, List.map_cons, ih h.2]
    cases call <;> first | rfl | exact absurd h.1 Bool.false_ne_true

/-- The comments of a line. -/
theorem Line.isComment_of_mem_remarks {l : Line} : ∀ call ∈ l.remarks, call.isComment = true := by
  intro call hcall
  unfold Line.remarks at hcall
  split at hcall
  · rw [List.mem_singleton.mp hcall]
    rfl
  · obtain ⟨text, -, rfl⟩ := Option.map_eq_some_iff.mp (Option.mem_toList.mp hcall)
    rfl

/-- The comment behind a line of code. -/
theorem Line.remarks_of_code {l : Line} (hl : l.isComment = false) :
    l.remarks = l.eolCall?.toList := by
  unfold Line.remarks
  rw [comment?_eq_none hl]

/-- Frames without waiting comments. -/
theorem Frame.waits_of_isClear {frames : List Frame} (h : ∀ f ∈ frames, f.IsClear) :
    Frame.Waits [] frames := by
  cases frames with
  | nil => rfl
  | cons f outer =>
    rw [List.forall_mem_cons] at h
    refine ⟨?_, ?_, h.2⟩
    · cases f with
      | field f =>
        rw [Frame.waiting, h.1.1]
        rfl
      | array g => exact absurd h.1 id
      | _ => rfl
    · rintro field rfl
      exact h.1.2

/-- The comments that were due wait exactly if an array is open. -/
theorem Frame.Settle.waits {due told : List Call} {c : Control} {s : Stance} (hc : c.StandsAt s)
    (h : Frame.Settle due c.frames told) :
    if s.braces.isSome then told = [] ∧ Frame.Waits due c.frames
    else told = due ∧ Frame.Waits [] c.frames := by
  have hframes := hc.frames
  generalize c.frames = frames, s.braces = braces, s.site.nest = nest, s.site.host = host
    at h hframes
  cases hframes with
  | array g hrest => exact ⟨h.1, h.2.1, by rintro field ⟨⟩, h.2.2⟩
  | _ => exact ⟨h.1, Frame.waits_of_isClear h.2⟩

/-- A step over a line of code at which comments stand behind all calls. -/
theorem Watch.agrees_of_trails {w : Watch} {l : Line} (hl : l.isComment = false)
    (hcomments : ∀ call ∈ w.waiting, call.isComment = true)
    {loud quiet : Course Control} {step : Option (Stance × List Call)}
    (htrails : Course.Trails (fun c told =>
      Frame.Settle (w.waiting ++ l.eolCall?.toList) c.frames told) loud quiet)
    (hagrees : Smali.Agrees quiet step)
    (hweave : ∀ s calls, step = some (s, calls) → s.braces.isSome = false →
      w.stance.weave l w.waiting calls = calls ++ w.waiting) :
    Watch.Agrees loud (step.map (w.heed l)) := by
  cases htrails with
  | nothing =>
    cases step with
    | none => trivial
    | some step => exact absurd hagrees id
  | @comments c moves told hsettle =>
    cases step with
    | none => exact absurd hagrees id
    | some step =>
      obtain ⟨s, calls⟩ := step
      obtain ⟨hc, rfl⟩ := hagrees
      have hwaits := hsettle.waits hc
      have hdue : ∀ call ∈ w.waiting ++ l.remarks, call.isComment = true :=
        List.forall_mem_append.mpr ⟨hcomments, Line.isComment_of_mem_remarks⟩
      rw [← Line.remarks_of_code hl] at hwaits
      rw [Option.map_some]
      unfold heed
      dsimp only
      cases hbraces : s.braces.isSome with
      | true =>
        rw [hbraces, if_pos rfl] at hwaits
        obtain ⟨rfl, hwaits⟩ := hwaits
        exact ⟨⟨hc, hwaits, hdue⟩, List.append_nil _⟩
      | false =>
        rw [hbraces, if_neg Bool.false_ne_true] at hwaits
        obtain ⟨rfl, hwaits⟩ := hwaits
        rw [hweave s calls rfl hbraces, List.append_assoc]
        refine ⟨⟨hc, hwaits, nofun⟩, ?_⟩
        rw [List.flatMap_append, flatMap_moves_of_isComment hdue]

/-- Without waiting comments. -/
@[simp]
theorem Stance.weave_nil (s : Stance) (l : Line) (calls : List Call) :
    s.weave l [] calls = calls := by
  unfold weave
  split
  · exact List.append_nil calls
  · split
    · rfl
    · rw [List.append_nil, List.take_append_drop]

variable {o : Options}

/-- The comments that a field holds are told in front of one of its own lines. -/
theorem course_takeInField (h : o.IsAttentive) {f : OpenField} {l : Line}
    (hl : l.isComment = false) (hf : f.heard = true) {outer : List Frame}
    (houter : ∀ f ∈ outer, f.IsClear) :
    ∃ loud, Dialogue.course o (takeInField f l outer) =
        loud.map (fun (frames, moves) =>
          (frames, (Frame.field f).waiting.map .tell ++ moves)) ∧
      Course.Trails (Frame.Settle l.eolCall?.toList) loud
        (Dialogue.course o.quietly (takeInField f l outer)) := by
  have hheld : (f.held.reverse.forM fun text => remark (some (.comment text))) =
      (Frame.field f).waiting.forM fun call => remark (some call) := by
    change _ = (f.held.reverse.map Call.comment).forM fun call => remark (some call)
    induction f.held.reverse with
    | nil => rfl
    | cons text texts ih =>
      rw [List.forM_eq_forM] at ih ⊢
      rw [List.forM_cons, ih]
      rfl
  have hfault : ∀ {o : Options} (_ : o.errors = .strict) fault, Dialogue.course o (do
      leave
      raise fault f.opened outer) = none := by
    intro o hstrict fault
    rw [Dialogue.course_bind]
    simp [raise, course_unwind_fault hstrict]
  have hline : Dialogue.Trails o (Frame.Settle l.eolCall?.toList)
      (if l.closes "field" then closeBy l f.opened f.heard outer
      else
        orRaise f.opened outer do
          return [← openAnnotationScope l, .field { f with annotated := true, held := [] }] ++
            outer) := by
    split
    · rw [hf]
      exact trails_closeBy h l f.opened houter
    · refine Dialogue.trails_orRaise h f.opened outer
        ((trails_openAnnotationScope h l).map _ fun frame told hframe => ?_)
      obtain ⟨rfl, hclear⟩ := hframe
      exact Frame.settle_told (List.forall_mem_cons.mpr
        ⟨hclear, List.forall_mem_cons.mpr ⟨⟨rfl, hf⟩, houter⟩⟩)
  unfold takeInField
  rw [comment?_eq_none hl]
  dsimp only
  rw [hheld, Passage.course_run_bind _ _ (hfault h.strict),
    Passage.course_run_bind _ _ (hfault h.isPlain.strict),
    Passage.course_remarks_of_attentive h, Passage.course_remarks h.isPlain,
    Course.still_andThen, Course.some_andThen]
  exact ⟨_, rfl, hline⟩

/-- A comment at the level of the class is told. -/
theorem course_remarkClass_of_attentive (h : o.IsAttentive) (text : Text) :
    Dialogue.course o (remarkClass text) = some ((), [.tell (.comment text)]) := by
  unfold remarkClass
  rw [Passage.course_run_bind _ _ fun fault => by simp, Passage.course,
    Passage.run_remark_of_attentive h]
  rfl

/-- Comments at the level of the class are told one after another. -/
theorem course_forM_remarkClass (h : o.IsAttentive) (texts : List Text) :
    Dialogue.course o (texts.forM remarkClass) =
      some ((), (texts.map Call.comment).map .tell) := by
  induction texts with
  | nil => rfl
  | cons text texts ih =>
    rw [List.forM_eq_forM] at ih ⊢
    rw [List.forM_cons, Dialogue.course_bind, course_remarkClass_of_attentive h,
      Course.some_andThen, ih]
    rfl

/-- A field ends before a line that is not its own, and the comments that it holds are told
behind its end. -/
theorem course_unwind_held (h : o.IsAttentive) (before : Option Line) {stays : Frame → Bool}
    {f : OpenField} (hf : stays (.field f) = false) :
    Dialogue.course o (unwind before stays .nothing [.field f]) =
      if f.annotated then none
      else some ([], [.tell .finish, .leave] ++ (Frame.field f).waiting.map .tell) := by
  rw [unwind_nothing_cons, if_neg (by simp [hf]), Dialogue.course_bind, course_close_field h.strict]
  cases f.annotated with
  | true => rfl
  | false =>
    simp only [unwind, Arrival.reachClass, Arrival.excuse, Dialogue.course_bind,
      Dialogue.course_pure, Course.still_andThen, course_forM_remarkClass h,
      Course.some_andThen, Bool.false_eq_true, if_false, Frame.waiting]
    simp [Course.still]

/-- Calls in front of a course and a step that agree. -/
theorem Watch.Agrees.after {course : Course Control} {step : Option (Watch × List Call)}
    (h : Watch.Agrees course step) (calls : List Call) :
    Watch.Agrees (course.map fun (c, moves) => (c, calls.flatMap Call.moves ++ moves))
      (step.map fun (w, more) => (w, calls ++ more)) := by
  cases course with
  | none =>
    cases step with
    | none => trivial
    | some step => exact absurd h id
  | some course =>
    cases step with
    | none => exact absurd h id
    | some step => exact ⟨h.1, by rw [h.2, List.flatMap_append]⟩

/-- A line in a field, or behind one, starts no array. -/
theorem Stance.braces_of_inField? {validate annotated : Bool} {s : Site} {l : Line} {s' : Stance}
    {calls : List Call} (h : inField? validate s annotated l = some (s', calls)) :
    s'.braces = none := by
  have htold : ∀ {s : Site} {r : Option Call} {s' : Stance} {calls : List Call},
      r.bind (tell validate s) = some (s', calls) → s'.braces = none := by
    intro s r s' calls h
    obtain ⟨call, -, htell⟩ := Option.bind_eq_some_iff.mp h
    exact (run_of_tell htell).2.1
  unfold inField? at h
  split at h
  · exact (run_of_tell h).2.1
  · split at h
    · exact htold h
    · split at h
      · exact absurd h (Option.some_ne_none _).symm
      · obtain ⟨⟨s'', more⟩, hclass, heq⟩ := Option.map_eq_some_iff.mp h
        obtain ⟨rfl, rfl⟩ := Prod.mk.inj heq
        exact htold hclass

/-- A field holds comments and nothing else. -/
theorem Frame.isComment_of_mem_held (f : OpenField) :
    ∀ call ∈ (Frame.field f).waiting, call.isComment = true := by
  intro call hcall
  obtain ⟨text, -, rfl⟩ := List.mem_map.mp hcall
  rfl

/-- A line of a field. The comments that the field holds are told in front of it. -/
theorem Watch.agrees_takeInField (h : o.IsAttentive) {stage : Stage} {known : List Member}
    {f : OpenField} {site : Site} (hnest : site.nest = 0)
    (hhost : site.host = some (.field f.annotated))
    (hwaits : Frame.Waits (Frame.field f).waiting [.field f]) {l : Line}
    (hl : l.isComment = false) (ht : (Frame.field f).takes l = true)
    (hagrees : Smali.Agrees (Dialogue.course o.quietly (Control.take ⟨stage, known, [.field f]⟩ l))
      (Stance.take o.validate ⟨site, none⟩ l)) :
    Watch.Agrees (Dialogue.course o (Control.take ⟨stage, known, [.field f]⟩ l))
      (Watch.take o.validate ⟨⟨site, none⟩, (Frame.field f).waiting⟩ l) := by
  have hclear : ∀ f ∈ ([] : List Frame), f.IsClear := fun _ hf => absurd hf List.not_mem_nil
  obtain ⟨loud, hloud, htrails⟩ := course_takeInField h hl (hwaits.2.1 f rfl) hclear
  have hcourse : ∀ o, Dialogue.course o (Control.take ⟨stage, known, [.field f]⟩ l) =
      (Dialogue.course o (takeInField f l [])).andThen fun frames =>
        .still ⟨stage, known, frames⟩ := by
    intro o
    unfold Control.take
    rw [Dialogue.course_bind, course_unwind_stays _ ht, Course.still_andThen]
    exact Dialogue.course_bind _ _
  have hstays : l.staysInField = true := by
    simpa [Frame.takes, hl, Line.staysInField, Bool.or_comm] using ht
  rw [hcourse] at hagrees ⊢
  have hbehind := (Watch.agrees_of_trails (w := ⟨⟨site, none⟩, []⟩) hl (List.forall_mem_nil _)
    (htrails.map (fun frames => Control.mk stage known frames) fun _ _ hsettle => hsettle)
    hagrees fun s calls _ _ => by simp).after (Frame.field f).waiting
  have hcourse' : (Dialogue.course o (takeInField f l [])).andThen
      (fun frames => Course.still (Control.mk stage known frames)) =
      (loud.andThen fun frames => Course.still (Control.mk stage known frames)).map
        fun (c, moves) => (c, (Frame.field f).waiting.flatMap Call.moves ++ moves) := by
    rw [hloud, flatMap_moves_of_isComment (Frame.isComment_of_mem_held f)]
    cases loud with
    | none => rfl
    | some loud => simp [Course.andThen, Course.still]
  have hstep : Watch.take o.validate ⟨⟨site, none⟩, (Frame.field f).waiting⟩ l =
      ((Stance.take o.validate ⟨site, none⟩ l).map (Watch.heed ⟨⟨site, none⟩, []⟩ l)).map
        fun (w, more) => (w, (Frame.field f).waiting ++ more) := by
    rw [take_of_code hl, Option.map_map]
    refine Option.map_congr fun step hs => ?_
    obtain ⟨s, calls⟩ := step
    have hfield : Stance.inField? o.validate site f.annotated l = some (s, calls) := by
      simpa [Stance.take, hl, hnest, hhost] using hs
    have hbraces := Stance.braces_of_inField? hfield
    simp [heed, hbraces, Stance.weave, hstays]
  rw [hcourse', hstep]
  exact hbehind

/-- A line behind a field ends the field. The comments that wait are told between this end and
the line. -/
theorem Watch.take_behindField {validate annotated : Bool} {site : Site} (hnest : site.nest = 0)
    (hhost : site.host = some (.field annotated)) {l : Line} (hl : l.isComment = false)
    (hcloses : l.closes "field" = false) (hstart : l.directive? ≠ some .annotationStart)
    (waiting : List Call) :
    Watch.take validate ⟨⟨site, none⟩, waiting⟩ l =
      if annotated then none
      else ((Stance.inClass? validate { site with host := none } l).map
        (Watch.heed ⟨⟨{ site with host := none }, none⟩, []⟩ l)).map
          fun (w, more) => (w, Call.finish :: waiting ++ more) := by
  have htake : Stance.take validate ⟨site, none⟩ l =
      if annotated then none
      else (Stance.inClass? validate { site with host := none } l).map
        fun step => (step.1, .finish :: step.2) := by
    obtain ⟨phase, declared, host, nest⟩ := site
    dsimp only at hnest hhost
    subst hnest hhost
    unfold Stance.take
    rw [hl, if_neg Bool.false_ne_true]
    dsimp only
    unfold Stance.inField?
    rw [if_neg (Bool.eq_false_iff.mp hcloses), if_neg hstart]
  have hstays : l.staysInField = false := by
    rw [Line.staysInField, hcloses, Bool.false_or, decide_eq_false hstart]
  rw [take_of_code hl, htake]
  cases annotated with
  | true => rfl
  | false =>
    rw [if_neg Bool.false_ne_true, if_neg Bool.false_ne_true, Option.map_map, Option.map_map]
    refine Option.map_congr fun step hs => ?_
    obtain ⟨s, calls⟩ := step
    have hbraces : s.braces = none := by
      obtain ⟨call, -, htell⟩ := Option.bind_eq_some_iff.mp hs
      exact (Stance.run_of_tell htell).2.1
    have hweave : ∀ waiting, Stance.weave ⟨site, none⟩ l waiting (.finish :: calls) =
        .finish :: waiting ++ calls := by
      intro waiting
      simp [Stance.weave, hstays]
    simp [heed, hbraces, hweave]

/-- A line behind a field. The comments that the field holds are told between its end and the
line. -/
theorem Watch.agrees_takeBehindField (h : o.IsAttentive) {stage : Stage} {known : List Member}
    {f : OpenField} {site : Site} (hnest : site.nest = 0)
    (hhost : site.host = some (.field f.annotated)) (hstage : stage = site.phase.stage)
    (hdeclared : known = site.declared) {l : Line} (hl : l.isComment = false)
    (ht : (Frame.field f).takes l = false) :
    Watch.Agrees (Dialogue.course o (Control.take ⟨stage, known, [.field f]⟩ l))
      (Watch.take o.validate ⟨⟨site, none⟩, (Frame.field f).waiting⟩ l) := by
  have hstays : l.closes "field" = false ∧ l.directive? ≠ some .annotationStart := by
    simpa [Frame.takes, hl, and_comm] using ht
  have hclass := agrees_classLine (c := ⟨stage, known, []⟩) (s := { site with host := none })
    h.isPlain hnest rfl ⟨hstage, hdeclared, by rw [hnest]; exact .idle⟩ hl
  have hbehind := (Watch.agrees_of_trails (w := ⟨⟨{ site with host := none }, none⟩, []⟩) hl
    (List.forall_mem_nil _)
    (trails_classLine (c := ⟨stage, known, []⟩) h rfl hl) hclass fun s calls _ _ => by simp).after
      (.finish :: (Frame.field f).waiting)
  have hcourse : Dialogue.course o (Control.take ⟨stage, known, [.field f]⟩ l) =
      if f.annotated then none
      else (Dialogue.course o (Control.classLine ⟨stage, known, []⟩ l)).map
        fun (c, moves) =>
          (c, (Call.finish :: (Frame.field f).waiting).flatMap Call.moves ++ moves) := by
    unfold Control.take
    rw [Dialogue.course_bind, course_unwind_held h _ ht, List.flatMap_cons,
      flatMap_moves_of_isComment (Frame.isComment_of_mem_held f)]
    cases f.annotated <;> rfl
  rw [hcourse, take_behindField hnest hhost hl hstays.1 hstays.2]
  cases f.annotated with
  | true => trivial
  | false =>
    rw [if_neg Bool.false_ne_true, if_neg Bool.false_ne_true]
    exact hbehind

/-- A reader takes the step of a watch over a line of code. -/
theorem Watch.agrees_takeCode (h : o.IsAttentive) {c : Control} {w : Watch} (hc : c.Attends w)
    {l : Line} (hl : l.isComment = false) :
    Watch.Agrees (Dialogue.course o (c.take l)) (w.take o.validate l) := by
  have hagrees := Smali.agrees_takeCode h.isPlain hc.stands hl
  obtain ⟨⟨⟨phase, declared, host, nest⟩, braces⟩, waiting⟩ := w
  obtain ⟨stage, known, frames⟩ := c
  obtain ⟨⟨hstage, hdeclared, hframes⟩, hwaits, hcomments⟩ := hc
  dsimp only at hstage hdeclared hframes hwaits hcomments hagrees
  -- The innermost frame takes the line, or it cannot end before the line.
  have hstays : ∀ {f : Frame} {outer : List Frame}, frames = f :: outer → f.takes l = true →
      ∀ o, Dialogue.course o (Control.take ⟨stage, known, frames⟩ l) =
        Dialogue.course o (Control.takeInner ⟨stage, known, frames⟩ l frames) := by
    rintro f outer rfl htakes o
    unfold Control.take
    rw [Dialogue.course_bind, course_unwind_stays _ htakes, Course.still_andThen]
  have hends : ∀ {f : Frame} {outer : List Frame}, frames = f :: outer → f.takes l = false →
      (∀ name, f ≠ .skipping name) → (∀ field, f ≠ .field field) → ∀ {o : Options},
      o.errors = .strict → Dialogue.course o (Control.take ⟨stage, known, frames⟩ l) = none := by
    rintro f outer rfl htakes hskip hfield o hstrict
    unfold Control.take
    rw [Dialogue.course_bind, course_unwind_ends hstrict _ htakes hskip hfield]
    rfl
  rw [take_of_code hl]
  cases hframes with
  | idle =>
    obtain rfl : waiting = [] := hwaits
    refine agrees_of_trails hl hcomments ?_ hagrees fun s calls _ _ => by simp
    have hunwind : ∀ o, Dialogue.course o (Control.take ⟨stage, known, []⟩ l) =
        Dialogue.course o (Control.classLine ⟨stage, known, []⟩ l) := by
      intro o
      unfold Control.take
      rw [Dialogue.course_bind, course_unwind_nil, Course.still_andThen]
      rfl
    rw [hunwind, hunwind]
    exact trails_classLine h rfl hl
  | field f =>
    obtain rfl : waiting = (Frame.field f).waiting := hwaits.1.symm
    rw [← take_of_code hl]
    cases ht : (Frame.field f).takes l with
    | true => exact agrees_takeInField h rfl rfl hwaits hl ht hagrees
    | false => exact agrees_takeBehindField h rfl rfl hstage hdeclared hl ht
  | method m =>
    obtain rfl : waiting = [] := hwaits.1.symm
    refine agrees_of_trails hl hcomments ?_ hagrees fun s calls _ _ => by simp
    cases ht : (Frame.method m).takes l with
    | true =>
      rw [hstays rfl ht, hstays rfl ht]
      exact (trails_takeInMethod h m hl hwaits.2.2).map _ fun _ _ hsettle => hsettle
    | false =>
      rw [hends rfl ht nofun nofun h.strict, hends rfl ht nofun nofun h.isPlain.strict]
      exact .nothing
  | @annotationBody _ outer _ opened hrest =>
    obtain rfl : waiting = [] := hwaits.1.symm
    refine agrees_of_trails hl hcomments ?_ hagrees fun s calls _ _ => by simp
    cases ht : (Frame.annotationBody opened (closingName outer)).takes l with
    | true =>
      rw [hstays rfl ht, hstays rfl ht]
      exact (trails_takeInAnnotationBody h opened _ hl hwaits.2.2).map _ fun _ _ hsettle => hsettle
    | false =>
      rw [hends rfl ht nofun nofun h.strict, hends rfl ht nofun nofun h.isPlain.strict]
      exact .nothing
  | array g hrest =>
    obtain rfl : waiting = (Frame.array g).waiting := hwaits.1.symm
    refine agrees_of_trails hl hcomments ?_ hagrees fun s calls _ _ => rfl
    cases ht : (Frame.array g).takes l with
    | true =>
      rw [hstays rfl ht, hstays rfl ht]
      exact (trails_takeInArray h g hl hwaits.2.2).map _ fun _ _ hsettle => hsettle
    | false =>
      rw [hends rfl ht nofun nofun h.strict, hends rfl ht nofun nofun h.isPlain.strict]
      exact .nothing

/-! ## Whole readings -/

/-- A reader takes the step of a watch over a comment. -/
theorem Watch.agrees_takeComment (h : o.IsAttentive) {c : Control} {w : Watch} (hc : c.Attends w)
    {l : Line} (hl : l.isComment = true) :
    Watch.Agrees (Dialogue.course o (c.take l)) (w.take o.validate l) := by
  have hd := directive?_of_isComment hl
  have hend : l.endOf? = none := by simp [Line.endOf?, hd]
  obtain ⟨text, htext⟩ := Option.isSome_iff_exists.mp hl
  have hremarks : l.remarks = [.comment text] := by rw [Line.remarks, htext]
  have hpassage : ∀ frames : List Frame, Passage.course o (do
      remark (some (.comment text))
      return frames) = some (frames, [.tell (.comment text)]) := by
    intro frames
    rw [Passage.course_bind, Passage.course, Passage.run_remark_of_attentive h]
    rfl
  obtain ⟨⟨⟨phase, declared, host, nest⟩, braces⟩, waiting⟩ := w
  obtain ⟨stage, known, frames⟩ := c
  obtain ⟨⟨hstage, hdeclared, hframes⟩, hwaits, hcomments⟩ := hc
  dsimp only at hstage hdeclared hframes hwaits hcomments
  unfold Control.take take
  rw [hl, if_pos rfl, Dialogue.course_bind, hremarks]
  have hdue : ∀ call ∈ waiting ++ [.comment text], call.isComment = true :=
    List.forall_mem_append.mpr ⟨hcomments, List.forall_mem_singleton.mpr rfl⟩
  -- An array and a field keep the comment, and all else tells of it.
  cases hframes with
  | idle =>
    rw [course_unwind_nil, Course.still_andThen]
    unfold Control.takeInner Control.classLine
    rw [htext]
    dsimp only
    rw [Dialogue.course_bind, course_remarkClass_of_attentive h]
    exact ⟨⟨⟨hstage, hdeclared, .idle⟩, hwaits, hcomments⟩, rfl⟩
  | field f =>
    rw [course_unwind_stays _ (by simp [Frame.takes, hl]), Course.still_andThen]
    unfold Control.takeInner takeInField
    rw [htext]
    have hheld : (Frame.field { f with held := text :: f.held }).waiting =
        waiting ++ [.comment text] := by
      rw [← hwaits.1]
      simp [Frame.waiting]
    have hheard : ∀ field, Frame.field { f with held := text :: f.held } = .field field →
        field.heard = true := by
      rintro field ⟨⟩
      exact hwaits.2.1 f rfl
    exact ⟨⟨⟨hstage, hdeclared, .field { f with held := text :: f.held }⟩,
      ⟨hheld, hheard, hwaits.2.2⟩, hdue⟩, rfl⟩
  | method m =>
    rw [course_unwind_stays _ (by simp [Frame.takes, Line.leavesMethod, hd]),
      Course.still_andThen]
    unfold Control.takeInner takeInMethod
    rw [htext]
    dsimp only
    rw [Dialogue.course_bind, course_orRaise h.strict, hpassage]
    exact ⟨⟨⟨hstage, hdeclared, .method m⟩, hwaits, hcomments⟩, rfl⟩
  | annotationBody opened hrest =>
    rw [course_unwind_stays _ (by simp [Frame.takes, Line.leavesAnnotationBody, hd]),
      Course.still_andThen]
    unfold Control.takeInner takeInAnnotationBody
    rw [htext]
    dsimp only
    rw [Dialogue.course_bind, course_orRaise h.strict, hpassage]
    exact ⟨⟨⟨hstage, hdeclared, .annotationBody opened hrest⟩, hwaits, hcomments⟩, rfl⟩
  | array g hrest =>
    rw [course_unwind_stays _ (by simp [Frame.takes, Gathering.isEndedBy, hd, hend]),
      Course.still_andThen]
    have hclosed : g.isClosedBy l = false := by simp [Gathering.isClosedBy, hl]
    unfold Control.takeInner takeInArray
    dsimp only
    rw [hclosed, Gathering.add, htext]
    have hheld : (Frame.array { g with remarks := .comment text :: g.remarks }).waiting =
        waiting ++ [.comment text] := by
      rw [← hwaits.1]
      simp [Frame.waiting]
    exact ⟨⟨⟨hstage, hdeclared, .array { g with remarks := .comment text :: g.remarks } hrest⟩,
      ⟨hheld, by rintro field ⟨⟩, hwaits.2.2⟩, hdue⟩, rfl⟩

/-- A reader takes the step of a watch. -/
theorem Watch.agrees_take (h : o.IsAttentive) {c : Control} {w : Watch} (hc : c.Attends w)
    (l : Line) : Watch.Agrees (Dialogue.course o (c.take l)) (w.take o.validate l) := by
  cases hl : l.isComment with
  | false => exact agrees_takeCode h hc hl
  | true => exact agrees_takeComment h hc hl

/-- The end of a reading. -/
theorem course_finish_commented (h : o.IsAttentive) {c : Control} {w : Watch}
    (hc : c.Attends w) :
    Dialogue.course o c.finish = w.stance.finish?.map fun calls =>
      ((), (calls ++ w.waiting).flatMap Call.moves ++ [.tell .finish]) := by
  have hstage : c.stage = .start ↔ w.stance.site.phase = .start := by
    rw [hc.stands.stage]
    cases w.stance.site.phase <;> simp [Phase.stage]
  have hcomments := flatMap_moves_of_isComment hc.comments
  obtain ⟨⟨⟨phase, declared, host, nest⟩, braces⟩, waiting⟩ := w
  obtain ⟨stage, known, frames⟩ := c
  obtain ⟨⟨-, -, hframes⟩, hwaits, -⟩ := hc
  dsimp only at hstage hframes hwaits hcomments
  unfold Control.finish Stance.finish?
  simp only [Dialogue.course_bind]
  by_cases hp : phase = .start
  · simp only [hstage.mpr hp, if_pos hp, if_true, Dialogue.course_bind,
      Dialogue.course_excuse h.strict, Course.none_andThen]
    exact Course.andThen_none _
  · simp only [mt hstage.mp hp, if_neg hp, if_false]
    cases hframes with
    | idle =>
      obtain rfl : waiting = [] := hwaits
      rfl
    | field f =>
      obtain rfl : waiting = (Frame.field f).waiting := hwaits.1.symm
      rw [course_unwind_held h _ rfl]
      cases f.annotated with
      | true => rfl
      | false =>
        rw [if_neg Bool.false_ne_true, Course.some_andThen]
        change Option.map _ (some ((), [Move.tell .finish])) = _
        simp [hcomments, Call.moves]
    | _ =>
      rw [course_unwind_ends h.strict _ rfl (by simp) (by simp)]
      rfl

/-- The lines of a source from some point on. -/
theorem course_readLines_commented (h : o.IsAttentive) {c : Control} {w : Watch}
    (hc : c.Attends w) (lines : List (Except Fault Line)) :
    Dialogue.course o (c.readLines lines) =
      (w.readAll o.validate (lines.map Except.toOption)).map fun calls =>
        ((), calls.flatMap Call.moves ++ [.tell .finish]) := by
  induction lines generalizing c w with
  | nil =>
    unfold Control.readLines
    rw [course_finish_commented h hc, List.map_nil, Watch.readAll, Option.map_map]
    rfl
  | cons line rest ih =>
    cases line with
    | error fault =>
      unfold Control.readLines
      rw [Dialogue.course_bind, Dialogue.course_excuse h.strict]
      rfl
    | ok l =>
      have hagrees := Watch.agrees_take h hc l
      unfold Control.readLines
      rw [Dialogue.course_bind, List.map_cons, Except.toOption, Watch.readAll]
      generalize Dialogue.course o (c.take l) = course, w.take o.validate l = step at hagrees ⊢
      cases course with
      | none =>
        cases step with
        | none => rfl
        | some step => exact absurd hagrees id
      | some taken =>
        cases step with
        | none => exact absurd hagrees id
        | some step =>
          obtain ⟨c', moves⟩ := taken
          obtain ⟨w', calls⟩ := step
          obtain ⟨hc', rfl⟩ := hagrees
          rw [Course.some_andThen, ih hc', Option.bind_some]
          dsimp only
          cases w'.readAll o.validate (rest.map Except.toOption) with
          | none => rfl
          | some more => simp

/-- Before the first line. -/
theorem attends_initial (o : Options) :
    (Control.initial o).Attends (Watch.initial o.snippet) :=
  ⟨standsAt_initial o, rfl, nofun⟩

/-- The dialogue over a source, as calls. -/
theorem course_dialogue_commented (h : o.IsAttentive) (source : Text) :
    Dialogue.course o (dialogue o source) =
      (commentedCalls o source).map fun calls =>
        ((), calls.flatMap Call.moves ++ [.tell .finish]) :=
  course_readLines_commented h (attends_initial o) (scanLines source)

end Smali
