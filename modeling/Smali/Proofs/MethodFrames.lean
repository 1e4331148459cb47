import Smali.Proofs.DescentFrames
import Smali.Proofs.Insertions

/-!
# Methods stand directly in the class

A method opens at the level of the class, behind the class header, and a malformed one is skipped
from there. Annotations open inside of it, but no line opens a method inside of anything else. So
when a method is closed no frame is left, and the class is in its body.
-/

namespace Smali

open scoped Dialogue.Laws
open Passage (Yields)

/-- Whether a frame is that of a method, be it read or skipped. -/
def Frame.isMethod : Frame → Bool
  | .method _ => true
  | .skipping name => name = "method".toList
  | _ => false

/-- Every method among some frames is the outermost of them, and the class is in its body. -/
def Rooted (stage : Stage) (frames : List Frame) : Prop :=
  ∀ f outer, f :: outer <:+ frames → f.isMethod = true → outer = [] ∧ stage = .body

/-- Frames that a line leaves behind: some of those around the innermost one, or the innermost one
changed, with frames inside of it that are no methods. -/
def LeavesBehind (f : Frame) (outer frames : List Frame) : Prop :=
  frames <:+ outer ∨
    ∃ inner f', frames = inner ++ f' :: outer ∧ f'.isMethod = f.isMethod ∧
      ∀ g ∈ inner, g.isMethod = false

section Frames

variable {stage : Stage} {f f' : Frame} {outer frames : List Frame}

/-- The frames around others. -/
theorem Rooted.of_suffix (h : Rooted stage frames) (houter : outer <:+ frames) :
    Rooted stage outer :=
  fun g more hmore => h g more (hmore.trans houter)

/-- One frame in front of others. -/
theorem rooted_cons (hf : f.isMethod = true → outer = [] ∧ stage = .body)
    (h : Rooted stage outer) : Rooted stage (f :: outer) := by
  intro g more hmore hg
  obtain heq | hmore := List.suffix_cons_iff.mp hmore
  · obtain ⟨rfl, rfl⟩ := List.cons.inj heq
    exact hf hg
  · exact h g more hmore hg

/-- The frames that a line leaves behind. -/
theorem Rooted.leavesBehind (h : Rooted stage (f :: outer))
    (hframes : LeavesBehind f outer frames) : Rooted stage frames := by
  have houter := h.of_suffix (List.suffix_cons f outer)
  obtain hsuffix | ⟨inner, f', rfl, hf', hinner⟩ := hframes
  · exact houter.of_suffix hsuffix
  · induction inner with
    | nil => exact rooted_cons (fun hmethod => h f outer List.suffix_rfl (hf' ▸ hmethod)) houter
    | cons g inner ih =>
      have hg := hinner g List.mem_cons_self
      exact rooted_cons (fun hmethod => absurd (hg.symm.trans hmethod) Bool.false_ne_true)
        (ih fun g hg => hinner g (List.mem_cons_of_mem _ hg))

/-- The same innermost frame, or one like it. -/
theorem leavesBehind_self (h : f'.isMethod = f.isMethod) : LeavesBehind f outer (f' :: outer) :=
  .inr ⟨[], f', rfl, h, List.forall_mem_nil _⟩

/-- A frame that a line may have opened inside. -/
theorem leavesBehind_join {frame : Option (Option Frame)} (h : f'.isMethod = f.isMethod)
    (hframe : ∀ inner, frame = some inner → ∀ g ∈ inner, g.isMethod = false) :
    LeavesBehind f outer (frame.join.toList ++ f' :: outer) := by
  refine .inr ⟨_, f', rfl, h, fun g hg => ?_⟩
  rcases frame with _ | _ | inner
  · cases hg
  · cases hg
  · obtain rfl := List.mem_singleton.mp hg
    exact hframe _ rfl g rfl

end Frames

/-! ## Frames that lines open -/

/-- An annotation line opens no method. -/
theorem yields_openAnnotationScope_isMethod (l : Line) :
    Yields (fun f => f.isMethod = false) (openAnnotationScope l) := by
  refine Passage.yields_bind fun r => ?_
  cases r with
  | error fault => exact Passage.yields_bind fun _ => Passage.yields_pure rfl
  | ok header => exact Passage.yields_bind fun _ => Passage.yields_pure rfl

/-- Neither does an element. -/
theorem yields_elementLine_isMethod (l : Line) :
    Yields (fun frame => ∀ f ∈ frame, f.isMethod = false) (elementLine l) := by
  unfold elementLine
  dsimp only
  split
  · exact Passage.yields_throw _
  · split
    · exact Passage.yields_throw _
    · split
      · refine Passage.Yields.bind (P := fun f => f.isMethod = false) ?_ fun f hf =>
          Passage.yields_pure fun _ heq => Option.some.inj heq ▸ hf
        refine Passage.yields_bind fun type => Passage.yields_bind fun _ => ?_
        exact Passage.yields_bind fun _ => Passage.yields_pure rfl
      · split
        · exact Passage.yields_pure fun _ heq => Option.some.inj heq ▸ rfl
        · exact Passage.yields_bind fun _ => Passage.yields_pure nofun

/-- Neither does a line of a method. -/
theorem yields_bodyLine_isMethod (m : OpenMethod) (l : Line) :
    Yields (fun frame => ∀ f ∈ frame, f.isMethod = false) (bodyLine m l) := by
  unfold bodyLine
  split
  · exact Passage.yields_bind fun _ => Passage.yields_pure nofun
  · exact (yields_openAnnotationScope_isMethod l).bind fun f hf =>
      Passage.yields_pure fun _ heq => Option.some.inj heq ▸ hf
  · exact Passage.yields_bind fun _ => Passage.yields_pure nofun
  · exact Passage.yields_bind fun _ => Passage.yields_pure nofun

/-! ## Steps -/

/-- What is left when frames end are the frames around. -/
theorem yields_unwind (before : Option Line) (stays : Frame → Bool) (a : Arrival)
    (frames : List Frame) : (unwind before stays a frames).Yields (· <:+ frames) := by
  induction frames generalizing a with
  | nil => exact Dialogue.yields_bind fun _ => List.suffix_rfl
  | cons f outer ih =>
    have houter : ∀ a, (unwind before stays a outer).Yields (· <:+ f :: outer) :=
      fun a => (ih a).weaken fun _ h => h.trans (List.suffix_cons f outer)
    have hstep : Dialogue.Yields (· <:+ f :: outer) (a.excuse >>= fun _ =>
        if stays f then pure (f :: outer)
        else f.close before >>= fun a => unwind before stays a outer) := by
      refine Dialogue.yields_bind fun _ => ?_
      split
      · exact List.suffix_rfl
      · exact Dialogue.yields_bind houter
    obtain ⟨_ | ⟨fault, place⟩, held⟩ := a
    · cases f <;> exact hstep
    · cases f with
      | field f => exact Dialogue.yields_bind fun _ => houter _
      | _ => exact hstep

/-- A fault that is handed to the frames around ends some of them. -/
theorem yields_raise (fault : Fault) (opened : Position) (outer : List Frame) :
    (raise fault opened outer).Yields (· <:+ outer) :=
  yields_unwind none _ _ outer

/-- A closing line leaves the frames around. -/
theorem yields_closeBy (l : Line) (opened : Position) (heard : Bool) (outer : List Frame) :
    (closeBy l opened heard outer).Yields (· <:+ outer) := by
  refine Dialogue.yields_bind fun received => ?_
  cases received with
  | some fault => exact yields_raise fault opened outer
  | none =>
    refine Dialogue.yields_bind fun r => ?_
    cases r with
    | ok _ => exact List.suffix_rfl
    | error fault => exact yields_raise fault opened outer

variable {f : Frame} {outer : List Frame}

/-- A passage of a scope that cannot deal with faults itself. -/
theorem yields_orRaise {opened : Position} {p : Passage (List Frame)}
    (h : Yields (LeavesBehind f outer) p) :
    (orRaise opened outer p).Yields (LeavesBehind f outer) := by
  refine Dialogue.Yields.bind h fun r hr => ?_
  cases r with
  | ok frames => exact hr frames rfl
  | error fault =>
    exact Dialogue.yields_bind fun _ => (yields_raise fault opened outer).weaken fun _ => .inl

/-- A line in an annotation. -/
theorem yields_takeInAnnotationBody (opened : Position) (name : Text) (l : Line) :
    (takeInAnnotationBody opened name l outer).Yields
      (LeavesBehind (.annotationBody opened name) outer) := by
  unfold takeInAnnotationBody
  dsimp only
  split
  · exact yields_orRaise (Passage.yields_bind fun _ => Passage.yields_pure (leavesBehind_self rfl))
  · exact Dialogue.Yields.bind (yields_elementLine_isMethod l).attempt fun _ hframe =>
      leavesBehind_join rfl hframe
  · split
    · exact (yields_closeBy l opened true outer).weaken fun _ => .inl
    · exact Dialogue.yields_bind fun _ => leavesBehind_self rfl

/-- A line in an array. -/
theorem yields_takeInArray (g : Gathering) (l : Line) :
    (takeInArray g l outer).Yields (LeavesBehind (.array g) outer) := by
  unfold takeInArray
  dsimp only
  split
  · exact Dialogue.yields_bind fun _ => .inl List.suffix_rfl
  · exact leavesBehind_self rfl

/-- A line in a field. -/
theorem yields_takeInField (g : OpenField) (l : Line) :
    (takeInField g l outer).Yields (LeavesBehind (.field g) outer) := by
  unfold takeInField
  split
  · exact leavesBehind_self rfl
  · refine Dialogue.yields_bind fun told => ?_
    cases told with
    | error fault =>
      exact Dialogue.yields_bind fun _ => (yields_raise fault g.opened outer).weaken fun _ => .inl
    | ok _ =>
      dsimp only
      split
      · exact (yields_closeBy l g.opened g.heard outer).weaken fun _ => .inl
      · exact yields_orRaise ((yields_openAnnotationScope_isMethod l).bind fun inner hinner =>
          Passage.yields_pure
            (.inr ⟨[inner], _, rfl, rfl, fun g hg => List.mem_singleton.mp hg ▸ hinner⟩))

/-- A line in a method. -/
theorem yields_takeInMethod (m : OpenMethod) (l : Line) :
    (takeInMethod m l outer).Yields (LeavesBehind (.method m) outer) := by
  unfold takeInMethod
  split
  · exact yields_orRaise (Passage.yields_bind fun _ => Passage.yields_pure (leavesBehind_self rfl))
  · split
    · exact (yields_closeBy l m.opened true outer).weaken fun _ => .inl
    · exact Dialogue.Yields.bind (yields_bodyLine_isMethod m l).attempt fun _ hframe =>
        leavesBehind_join rfl hframe

namespace Control

/-- A reader for which every method is outermost. -/
def IsRooted (c : Control) : Prop := Rooted c.stage c.frames

/-- Before the first line nothing is open. -/
theorem isRooted_initial (o : Options) : (initial o).IsRooted :=
  fun _ _ h => absurd (List.suffix_nil.mp h) (List.cons_ne_nil _ _)

/-- A reader that has nothing open, or one frame in the body of the class. -/
def IsShallow (c : Control) : Prop := c.frames = [] ∨ (∃ f, c.frames = [f]) ∧ c.stage = .body

/-- Then a method is outermost. -/
theorem IsShallow.isRooted {c : Control} (h : c.IsShallow) : c.IsRooted := by
  intro f outer hframes _
  obtain hnone | ⟨⟨g, hone⟩, hstage⟩ := h
  · rw [hnone] at hframes
    exact absurd (List.suffix_nil.mp hframes) (List.cons_ne_nil _ _)
  · rw [hone] at hframes
    have hlength := hframes.length_le
    exact ⟨List.length_eq_zero_iff.mp (by simpa using hlength), hstage⟩

variable (c : Control)

/-- A field opens in the body of the class. -/
theorem yields_openField_isShallow (hstage : c.stage = .body) (l : Line) :
    (c.openField l).Yields IsShallow := by
  refine Dialogue.yields_bind fun r => ?_
  cases r with
  | error fault => exact fun _ _ => .inr ⟨⟨_, rfl⟩, hstage⟩
  | ok f =>
    refine Dialogue.yields_bind fun opened => ?_
    cases opened with
    | none => exact .inl rfl
    | some _ => exact .inr ⟨⟨_, rfl⟩, hstage⟩

/-- So does a method. -/
theorem yields_openMethod_isShallow (hstage : c.stage = .body) (l : Line) :
    (c.openMethod l).Yields IsShallow := by
  refine Dialogue.yields_bind fun r => ?_
  cases r with
  | error fault => exact fun _ => .inr ⟨⟨_, rfl⟩, hstage⟩
  | ok m =>
    refine Dialogue.yields_bind fun opened => ?_
    cases opened with
    | none => exact .inl rfl
    | some _ => exact .inr ⟨⟨_, rfl⟩, hstage⟩

/-- A line with a directive opens one frame at most. -/
theorem yields_classDirective_isShallow (hframes : c.frames = []) (l : Line) (d : Directive)
    (stage : Stage) : (c.classDirective l d stage).Yields IsShallow := by
  unfold classDirective
  split
  · exact Dialogue.yields_bind fun _ => .inl hframes
  · exact yields_openField_isShallow _ rfl l
  · exact yields_openMethod_isShallow _ rfl l
  · refine Dialogue.yields_bind fun frame => ?_
    cases frame with
    | none => exact .inl rfl
    | some f => exact .inr ⟨⟨f, rfl⟩, rfl⟩

/-- A line at the level of the class. -/
theorem yields_classLine_isShallow (hframes : c.frames = []) (l : Line) :
    (c.classLine l).Yields IsShallow := by
  unfold classLine
  split
  · exact Dialogue.yields_bind fun _ => .inl hframes
  · exact Dialogue.yields_bind fun _ => .inl hframes
  · exact Dialogue.yields_bind fun _ => .inl hframes
  · split
    · exact c.yields_classDirective_isShallow hframes l _ _
    · exact Dialogue.yields_bind fun _ => .inl hframes

variable {c}

/-- A line leaves every method outermost. -/
theorem IsRooted.take (h : c.IsRooted) (l : Line) : (c.take l).Yields IsRooted := by
  have hthen : ∀ {f outer} {d : Dialogue (List Frame)}, Rooted c.stage (f :: outer) →
      d.Yields (LeavesBehind f outer) →
        Dialogue.Yields IsRooted (do return { c with frames := ← d }) :=
    fun hrooted hd => hd.bind fun _ hfollows => hrooted.leavesBehind hfollows
  refine (yields_unwind (some l) _ _ c.frames).bind fun left hleft => ?_
  have hrooted := h.of_suffix hleft
  unfold takeInner
  split
  · exact (yields_classLine_isShallow _ rfl l).weaken fun _ hc => hc.isRooted
  · exact hthen hrooted (yields_takeInField _ l)
  · exact hthen hrooted (yields_takeInMethod _ l)
  · exact hthen hrooted (yields_takeInAnnotationBody _ _ l)
  · exact hthen hrooted (yields_takeInArray _ l)
  · refine hrooted.leavesBehind (f := .skipping _) ?_
    split
    · exact .inl List.suffix_rfl
    · exact leavesBehind_self rfl

/-- So do any lines. -/
theorem IsRooted.takeLines (h : c.IsRooted) (lines : List (Except Fault Line)) :
    (c.takeLines lines).Yields IsRooted := by
  induction lines generalizing c with
  | nil => exact h
  | cons line lines ih =>
    cases line with
    | error fault => exact Dialogue.yields_bind fun _ => ih h
    | ok l => exact (h.take l).bind fun c hc => ih hc

end Control

/-- The result of a rehearsal has the property that every result has. -/
theorem Dialogue.Yields.rehearse {α : Type} {d : Dialogue α} {P : α → Prop} (h : d.Yields P)
    {o : Options} {a : α} (hd : (d.rehearse o).result = .ok a) : P a := by
  induction d with
  | done b => exact Except.ok.inj hd ▸ h
  | halt fault => cases hd
  | act first next ih =>
    unfold Dialogue.rehearse at hd
    split at hd
    · cases hd
    · exact ih none (h none) hd

/-- Wherever a reader comes to, every method is outermost. -/
theorem Reaches.isRooted {o : Options} {before : List Text} {c : Control} (h : Reaches o before c) :
    c.IsRooted :=
  ((Control.isRooted_initial o).takeLines _).rehearse h

end Smali
