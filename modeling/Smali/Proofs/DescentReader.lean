import Smali.Proofs.DescentFrames

/-!
# The reader as a recursive descent

The loops of methods, of fields and of the class are the reader with their frames, too, so the
whole readings are the same. A field hands back the comments that it holds, and the class is
told of them before the line that ended the field.

Every scope can end before a line that it hands back. Still, what deals with a line leaves no
more lines than stood behind that line, and with more turns than lines a reading comes to its
end, whatever the listener answers.
-/

namespace Smali

open Descent
open scoped Dialogue.Laws

namespace Control

variable (c : Control)

/-- A method. -/
theorem onward_methodBody {n : Nat} {lines : Lines} (h : lines.length < n) (m : OpenMethod)
    (outer : List Frame) :
    c.onward (.method m :: outer) lines = methodBody n m lines >>= c.behind m.opened outer := by
  induction n generalizing lines m with
  | zero => exact absurd h (Nat.not_lt_zero _)
  | succ n ih =>
    unfold methodBody
    refine c.onward_nextLine ?_ fun l rest hrest => ?_
    · rw [onward_nil]
      exact c.onward_closeImplicitly _ m.opened outer [] []
    -- The method goes on behind the line, with fewer lines than turns.
    have hloop : ∀ more : Lines, more.length ≤ rest.length →
        c.onward (.method (m.after l) :: outer) more =
          methodBody n (m.after l) more >>= c.behind m.opened outer := by
      intro more hmore
      rw [ih (by omega), m.after_opened]
    dsimp only
    cases hleaves : l.leavesMethod with
    | true =>
      rw [onward_closes c (by simp [Frame.takes, hleaves]), Line.comment?_of_leavesMethod hleaves]
      dsimp only
      rw [methodLine, if_pos hleaves, outcome_then]
      exact c.onward_closeImplicitly _ m.opened outer [l] rest
    | false =>
      rw [onward_takes c (by simp [Frame.takes, hleaves])]
      change ((takeInMethod m l outer >>= _) >>= _) = _
      unfold takeInMethod
      simp only [bind_assoc, pure_bind]
      cases hcomment : l.comment? with
      | some text => exact c.onward_remark _ m.opened _ outer rest (ih (by omega) m)
      | none =>
        dsimp only
        rw [methodLine, if_neg (ne_true_of_eq_false hleaves), outcome_then]
        cases hcloses : l.closes "method" with
        | true =>
          rw [if_pos rfl, if_pos rfl]
          exact c.onward_closeBy l m.opened true outer rest
        | false =>
          rw [if_neg Bool.false_ne_true, if_neg Bool.false_ne_true]
          simp only [bind_assoc, pure_bind]
          have hinner := annotationBody_leaves (show rest.length < n by omega)
          refine (c.onward_attempt (fun _ => rfl) (yields_bodyLine m l _)
            (c.onward_annotationBody (show rest.length < n by omega))).trans ?_
          rw [say_then, say_then]
          refine bind_congr fun r => ?_
          cases r with
          | error fault =>
            dsimp only
            rw [c.resume_error fun _ => rfl, plan_then]
            exact bind_congr fun _ => hloop rest (Nat.le_refl _)
          | ok frame =>
            dsimp only
            rw [bind_then]
            refine Dialogue.Yields.bind_congr (descend_leaves hinner frame) ?_
            rintro _ ⟨_ | _, more, rfl, hmore⟩
            · dsimp only
              rw [c.resume_error fun _ => rfl, plan_then]
              exact bind_congr fun _ => hloop more hmore
            · exact hloop more hmore

/-! ## Fields -/

/-- Comments that are handed back to the class are told there. -/
theorem onward_remarks {held : List Line} (hheld : ∀ l ∈ held, l.isComment = true)
    (rest : Lines) :
    c.onward [] (held.map .ok ++ rest) =
      (held.filterMap Line.comment?).forM remarkClass >>= fun _ => c.onward [] rest := by
  induction held with
  | nil => rfl
  | cons l held ih =>
    have hhere := hheld l List.mem_cons_self
    cases hcomment : l.comment? with
    | none => simp [Line.isComment, hcomment] at hhere
    | some text =>
      rw [List.map_cons, List.cons_append, onward_ok, List.filterMap_cons_some hcomment,
        List.forM_eq_forM, List.forM_cons, bind_assoc]
      change ({ c with frames := [] }.classLine l >>= _) = _
      unfold classLine
      rw [hcomment]
      dsimp only
      rw [bind_assoc]
      refine bind_congr fun _ => ?_
      exact ih fun l hl => hheld l (List.mem_cons_of_mem _ hl)

/-- A field ends, and what it holds goes to the class. -/
theorem onward_endField (opened : Position) {held : List Line}
    (hheld : ∀ l ∈ held, l.isComment = true) (rest : Lines) :
    (endScope >>= fun received =>
      unwind none (fun _ => true) ⟨received.map (·, opened), held.filterMap Line.comment?⟩ [] >>=
        fun outer => c.onward outer rest) =
      (do
        finishScope
        return none : Descent (Option Call)) (held.map .ok ++ rest) >>= c.behind opened [] := by
  rw [finishScope_then]
  refine bind_congr fun received => ?_
  cases received with
  | none =>
    change (((held.filterMap Line.comment?).forM remarkClass >>= fun _ => pure []) >>= _) =
      c.onward [] (held.map .ok ++ rest)
    rw [bind_assoc, onward_remarks c hheld]
    rfl
  | some fault =>
    change ((Arrival.reachClass ⟨some (fault, opened), _⟩ >>= fun _ => pure []) >>= _) =
      ((Arrival.reachClass ⟨some (fault, opened), []⟩ >>= fun _ => pure []) >>= fun outer =>
        c.onward outer (held.map .ok ++ rest))
    unfold Arrival.reachClass
    simp only [bind_assoc, pure_bind]
    refine bind_congr fun _ => ?_
    rw [onward_remarks c hheld]
    rfl

/-- A field ends without its closing line. -/
theorem onward_closeField (opened : Position) (annotated heard : Bool) {held : List Line}
    (hheld : ∀ l ∈ held, l.isComment = true) (before : Option Line) (back : List Line)
    (rest : Lines) :
    ((Frame.field ⟨opened, annotated, held.filterMap Line.comment?, heard⟩).close before >>=
      fun a => unwind none (fun _ => true) a [] >>= fun outer =>
        c.onward outer (back.map .ok ++ rest)) =
      closeField opened annotated (held.reverse ++ back) rest >>= c.behind opened [] := by
  have hback : ∀ l ∈ held.reverse, l.isComment = true :=
    fun l hl => hheld l (List.mem_reverse.mp hl)
  have hend := c.onward_endField opened hback (back.map .ok ++ rest)
  rw [List.filterMap_reverse, ← List.append_assoc, ← List.map_append] at hend
  cases annotated with
  | true =>
    unfold closeField closeImplicitly
    rw [if_pos rfl, plan_then]
    simp only [Frame.close, if_true, bind_assoc, pure_bind]
    exact bind_congr fun _ => hend
  | false =>
    simp only [Frame.close, Bool.false_eq_true, if_false, bind_assoc, pure_bind]
    exact hend

/-- An annotation of a field. A fault that comes out of it takes the field with it. -/
theorem onward_fieldAnnotation {n : Nat} {rest : Lines} (h : rest.length < n)
    (opened : Position) (heard : Bool) (l : Line)
    (hloop : ∀ more : Lines, more.length ≤ rest.length →
      c.onward [.field ⟨opened, true, [], heard⟩] more =
        fieldBody n opened true heard [] more >>= c.behind opened []) :
    (orRaise opened [] (do
        return [← openAnnotationScope l, .field ⟨opened, true, [], heard⟩]) >>= fun frames =>
      c.onward frames rest) =
      (do
        orLeave do
          descend (annotationBody n) (some (← say (openAnnotationScope l)))
        fieldBody n opened true heard [] : Descent (Option Call)) rest >>= c.behind opened [] := by
  unfold orRaise
  rw [orLeave_then, say_then]
  simp only [ExceptT.run_bind, bind_assoc]
  refine Dialogue.Yields.bind_congr
    (yields_openAnnotationScope l [.field ⟨opened, true, [], heard⟩]) fun r hr => ?_
  cases r with
  | error fault => rfl
  | ok f =>
    refine (c.onward_descend (hr f rfl) (c.onward_annotationBody h)).trans ?_
    refine Dialogue.Yields.bind_congr (descend_leaves (annotationBody_leaves h) (some f)) ?_
    rintro _ ⟨_ | _, more, rfl, hmore⟩
    · rfl
    · exact hloop more hmore

/-- A field, with the comments that it holds. -/
theorem onward_fieldBody {n : Nat} {lines : Lines} (h : lines.length < n) (opened : Position)
    (annotated heard : Bool) {held : List Line} (hheld : ∀ l ∈ held, l.isComment = true) :
    c.onward [.field ⟨opened, annotated, held.filterMap Line.comment?, heard⟩] lines =
      fieldBody n opened annotated heard held lines >>= c.behind opened [] := by
  induction n generalizing lines annotated held with
  | zero => exact absurd h (Nat.not_lt_zero _)
  | succ n ih =>
    unfold fieldBody
    refine c.onward_nextLine ?_ fun l rest hrest => ?_
    · rw [onward_nil]
      have hclose := c.onward_closeField opened annotated heard hheld none [] []
      simp only [List.append_nil] at hclose
      exact hclose
    have hlt : rest.length < n := by omega
    dsimp only
    cases hcomment : l.comment? with
    | some text =>
      have hl : l.isComment = true := by rw [Line.isComment, hcomment]; rfl
      rw [onward_takes c (by simp [Frame.takes, hl]), if_pos hl]
      have hnext := ih hlt annotated (List.forall_mem_cons.mpr ⟨hl, hheld⟩)
      rw [List.filterMap_cons_some hcomment] at hnext
      rw [← hnext]
      change ((takeInField _ l [] >>= _) >>= _) = _
      unfold takeInField
      rw [hcomment]
      rfl
    | none =>
      have hl : l.isComment = false := by rw [Line.isComment, hcomment]; rfl
      rw [if_neg (ne_true_of_eq_false hl)]
      split
      · next hmore =>
        rw [onward_takes c (by simp [Frame.takes, hl] at hmore ⊢; exact hmore)]
        change ((takeInField _ l [] >>= _) >>= _) = _
        unfold takeInField
        rw [hcomment]
        dsimp only
        rw [orLeave_then]
        unfold say
        simp only [bind_assoc, pure_bind]
        refine bind_congr fun r => ?_
        cases r with
        | error fault =>
          simp only [bind_assoc]
          rfl
        | ok _ =>
          dsimp only
          split
          · exact c.onward_closeBy l opened heard [] rest
          · exact c.onward_fieldAnnotation hlt opened heard l fun more hmore =>
              ih (Nat.lt_of_le_of_lt hmore hlt) true (List.forall_mem_nil _)
      · next hmore =>
        rw [onward_closes c (by simp [Frame.takes, hl] at hmore ⊢; exact hmore)]
        exact c.onward_closeField opened annotated heard hheld (some l) [l] rest

end Control

/-! ## The class -/

/-- A frame that a line at a place opens at the level of the class. -/
def Frame.IsMember (place : Position) : Frame → Prop
  | .field f => f.opened = place ∧ f.held = []
  | .method m => m.opened = place
  | f => f.IsInner place []

/-- What opens in others opens at the level of the class as well. -/
theorem Frame.IsMember.of_isInner {place : Position} {f : Frame} (h : f.IsInner place []) :
    f.IsMember place := by
  cases f with
  | field f => exact h.elim
  | method m => exact h.elim
  | _ => exact h

/-- The frames behind a line at the level of the class. -/
def Control.OpensAt (place : Position) (c : Control) : Prop :=
  c.frames = [] ∨ ∃ f, c.frames = [f] ∧ f.IsMember place

namespace Control

variable (c : Control)

/-- A field opens at its line, if it opens. -/
theorem yields_openField (l : Line) : (c.openField l).Yields (OpensAt l.position) := by
  refine Dialogue.yields_bind fun r => ?_
  cases r with
  | error fault => exact fun _ _ => .inr ⟨_, rfl, rfl, rfl⟩
  | ok f =>
    refine Dialogue.yields_bind fun opened => ?_
    cases opened with
    | none => exact .inl rfl
    | some _ => exact .inr ⟨_, rfl, rfl, rfl⟩

/-- A method opens at its line, or it is skipped. -/
theorem yields_openMethod (l : Line) : (c.openMethod l).Yields (OpensAt l.position) := by
  refine Dialogue.yields_bind fun r => ?_
  cases r with
  | error fault => exact fun _ => .inr ⟨_, rfl, trivial⟩
  | ok m =>
    refine Dialogue.yields_bind fun opened => ?_
    cases opened with
    | none => exact .inl rfl
    | some _ => exact .inr ⟨_, rfl, rfl⟩

/-- A line with a directive opens something at its place, if anything. -/
theorem yields_classDirective (hframes : c.frames = []) (l : Line) (d : Directive)
    (stage : Stage) : (c.classDirective l d stage).Yields (OpensAt l.position) := by
  unfold classDirective
  split
  · exact Dialogue.yields_bind fun _ => .inl hframes
  · exact yields_openField _ l
  · exact yields_openMethod _ l
  · refine Dialogue.Yields.bind (yields_openAnnotationScope l []).attempt fun frame hframe => ?_
    cases frame with
    | none => exact .inl rfl
    | some f => exact .inr ⟨f, rfl, .of_isInner (hframe f rfl)⟩

/-- A line at the level of the class opens something at its place, if anything. -/
theorem yields_classLine (hframes : c.frames = []) (l : Line) :
    (c.classLine l).Yields (OpensAt l.position) := by
  unfold classLine
  split
  · exact Dialogue.yields_bind fun _ => .inl hframes
  · exact fun _ => .inl hframes
  · exact fun _ => .inl hframes
  · split
    · exact c.yields_classDirective hframes l _ _
    · exact fun _ => .inl hframes

/-- A member that a line has opened. -/
theorem onward_member {n : Nat} {rest : Lines} (h : rest.length < n) {place : Position}
    {f : Frame} (hf : f.IsMember place) :
    c.onward [f] rest = member n [f] rest >>= c.resume place [] := by
  cases f with
  | field f =>
    obtain ⟨opened, annotated, held, heard⟩ := f
    obtain ⟨rfl, rfl⟩ := hf
    refine (c.onward_fieldBody h opened annotated heard (List.forall_mem_nil _)).trans ?_
    exact (c.resume_remark _ opened [] rest).symm
  | method m =>
    obtain rfl := hf
    refine (c.onward_methodBody h m []).trans ?_
    exact (c.resume_remark _ m.opened [] rest).symm
  | annotationBody _ _ | array _ | skipping _ =>
    refine c.onward_descend ?_ (c.onward_annotationBody h)
    exact hf

/-- A line at the level of the class with what it opens, and what follows them. -/
theorem classLine_then (n : Nat) (l : Line) {α : Type} (lines : Lines) (f : Control → Descent α)
    (k : Option (Except Fault α × Lines) → Dialogue Unit) :
    (Descent.classLine n c l >>= f) lines >>= k =
      c.classLine l >>= fun c => member n c.frames lines >>= fun
        | none => k none
        | some (.ok _, rest) => f { c with frames := [] } rest >>= k
        | some (.error fault, rest) => Dialogue.excuse (fault.attach l.position) >>= fun _ =>
          f { c with frames := [] } rest >>= k := by
  unfold Descent.classLine
  rw [bind_then, plan_then]
  refine bind_congr fun c => ?_
  rw [outcome_then]
  refine bind_congr fun r => ?_
  obtain _ | ⟨_ | _, _⟩ := r <;> rfl

/-- The class, up to the end of the source. -/
theorem readLines_eq {n : Nat} {lines : Lines} (h : lines.length < n) (hframes : c.frames = []) :
    c.readLines lines = classBody n c lines >>= fun _ => return () := by
  induction n generalizing lines c with
  | zero => exact absurd h (Nat.not_lt_zero _)
  | succ n ih =>
    obtain ⟨stage, declared, frames⟩ := c
    obtain rfl : frames = [] := hframes
    change onward ⟨stage, declared, []⟩ [] lines = _
    unfold classBody
    refine onward_nextLine _ ?_ fun l rest hrest => ?_
    · change finish _ = (finish _ >>= _) >>= _
      rw [bind_assoc]
      exact (bind_pure _).symm
    · rw [classLine_then]
      change (Control.classLine _ l >>= _) = _
      refine Dialogue.Yields.bind_congr (yields_classLine _ rfl l) fun c hc => ?_
      have hloop : ∀ more : Lines, more.length ≤ rest.length → c.onward [] more =
          classBody n { c with frames := [] } more >>= fun _ => return () :=
        fun more hmore => ih { c with frames := [] } (by omega) rfl
      change c.onward c.frames rest = _
      obtain hf | ⟨f, hf, hmember⟩ := hc
      · rw [hf]
        exact hloop rest (Nat.le_refl _)
      · have hn : rest.length < n := by omega
        rw [hf, c.onward_member hn hmember]
        refine Dialogue.Yields.bind_congr (member_leaves hn [f]) ?_
        rintro _ ⟨_ | _, more, rfl, hmore⟩
        · dsimp only
          rw [c.resume_error fun _ => rfl]
          exact bind_congr fun _ => hloop more hmore
        · exact hloop more hmore

end Control

/-! ## Progress -/

/-- To take a line uses that line up, and what deals with the line then ends with no more lines
than it was given: it does not run out of turns, and what it hands back, it has taken before. -/
structure Progress (n : Nat) (lines : Lines) : Prop where
  /-- There is one line less behind the next line. -/
  nextLine : nextLine.Ends (fun r rest => (r = .ok none ∧ rest = []) ∨
    ∃ l, r = .ok (some l) ∧ rest.length < lines.length) lines
  /-- The first lines of classes and members are read by themselves. -/
  header : ∀ (c : Control) l, (plan (c.classLine l)).Ends (fun _ rest => rest = lines) lines
  /-- A line at the level of the class, with all of the member that it opens. -/
  classLine : ∀ c l, (Descent.classLine n c l).LeavesAtMost lines.length lines
  /-- A field. -/
  fieldBody : ∀ opened annotated heard,
    (fieldBody n opened annotated heard []).LeavesAtMost lines.length lines
  /-- A line of a method. -/
  methodLine : ∀ m l, (methodLine n m l).LeavesAtMost lines.length lines
  /-- A method. -/
  methodBody : ∀ m, (methodBody n m).LeavesAtMost lines.length lines
  /-- An annotation. -/
  annotationBody : ∀ opened name,
    (annotationBody n opened name).LeavesAtMost lines.length lines
  /-- An element of an annotation. -/
  element : ∀ l, (element (Descent.annotationBody n) l).LeavesAtMost lines.length lines
  /-- An array of several lines. -/
  gatherArray : ∀ g, (gatherArray g).LeavesAtMost lines.length lines
  /-- A construct that is dropped. -/
  skipConstruct : ∀ name, (skipConstruct name).LeavesAtMost lines.length lines

/-- There is progress as long as there are more turns than lines. -/
theorem progress_of_lt {n : Nat} {lines : Lines} (h : lines.length < n) : Progress n lines where
  nextLine := ends_nextLine lines
  header _ _ := ends_plan (Dialogue.yields_true _) fun _ _ => rfl
  classLine c l := (classLine_ends h c l).weaken fun _ _ hr => hr.2
  fieldBody opened annotated heard :=
    (fieldBody_leaves h opened annotated heard []).mono (Nat.le_of_eq (Nat.zero_add _))
  methodLine := methodLine_leaves h
  methodBody := methodBody_leaves h
  annotationBody := annotationBody_leaves h
  element := element_leaves (annotationBody_leaves h)
  gatherArray g := gatherArray_leaves g lines
  skipConstruct name := skipConstruct_leaves name lines

/-- **The reader comes to an end, and every line brings it further.** With any number of turns
above the number of lines, nothing that deals with a line leaves more lines than stood behind
it; the reading by recursive descent then takes all lines, with every listener, and is what the
reader does. -/
theorem reading_progresses (o : Options) (source : Text) {n : Nat}
    (h : (scanLines source).length < n) :
    (∀ lines : Lines, lines.length < n → Progress n lines) ∧
      dialogue o source = (reading n o source >>= fun _ => return ()) ∧
      ∀ {σ κ : Type} (L : Listener σ κ) (root : κ) (state : σ),
        (reading n o source).conduct o L (.initial root state) =
          match read o L root state source with
          | (.ok _, desk) => (.ok (some (.ok (), [])), desk)
          | (.error fault, desk) => (.error fault, desk) := by
  have hsame : dialogue o source = (reading n o source >>= fun _ => return ()) :=
    Control.readLines_eq (.initial o) h rfl
  refine ⟨fun lines hlines => progress_of_lt hlines, hsame, fun L root state => ?_⟩
  rw [read, hsame, Dialogue.conduct_bind]
  have hends : (reading n o source).Yields fun r => r = some (.ok (), []) := by
    refine Dialogue.Yields.weaken (classBody_ends h (.initial o)) ?_
    rintro _ ⟨_, _, rfl, rfl, rfl⟩
    rfl
  cases hr : (reading n o source).conduct o L (.initial root state) with
  | mk result desk =>
    cases result with
    | error fault => rfl
    | ok r =>
      rw [hends.conduct hr]
      rfl

/-- A field without an end in a method without an end, each with an annotation that is not
closed either: ten turns suffice. -/
theorem reading_progresses_unclosed :
    let o : Options := ⟨true, true, true, .ignore⟩
    let source := ".method m()V\n.annotation build LA;\n.field f:I\n".toList ++
      ".annotation build LB;\na = \x7b 1,\n# b\n.method n()V".toList
    (scanLines source).length < 10 ∧
      dialogue o source = (reading 10 o source >>= fun _ => return ()) :=
  ⟨by decide +kernel, (reading_progresses _ _ (by decide +kernel)).2.1⟩

end Smali
