import Smali.Proofs.DescentProgress

/-!
# Frames and recursive descent

The reader keeps a list of open frames instead of a loop for each of them: where a loop hands a
line back, the reader ends the frame and looks at the line again with the frames around. With
enough turns, the loop of a scope followed by what the frames around make of its end is the
same dialogue as the reader with the frame of that scope. Here are the scopes that are the same
everywhere: annotations, arrays, and constructs that are skipped.
-/

namespace Smali

open scoped Dialogue.Laws

namespace Descent

/-! ## Parts of a reading, and what is done with their end -/

section Sequence

variable {α β : Type} (lines : Lines) (f : α → Descent β)
  (k : Option (Except Fault β × Lines) → Dialogue Unit)

/-- One part after another. -/
theorem bind_then (d : Descent α) :
    (d >>= f) lines >>= k = d lines >>= fun
      | none => k none
      | some (.ok a, rest) => f a rest >>= k
      | some (.error fault, rest) => k (some (.error fault, rest)) := by
  change (d lines >>= _) >>= k = _
  rw [bind_assoc]
  refine bind_congr fun r => ?_
  obtain _ | ⟨_ | _, _⟩ := r <;> rfl

/-- Acts, and what follows them. -/
theorem plan_then (acts : Dialogue α) :
    (plan acts >>= f) lines >>= k = acts >>= fun a => f a lines >>= k := by
  rw [bind_then]
  change (acts >>= _) >>= _ = _
  rw [bind_assoc]
  rfl

/-- Acts that a fault may cut short, and what follows them. -/
theorem say_then (p : Passage α) :
    (say p >>= f) lines >>= k = p.run >>= fun
      | .ok a => f a lines >>= k
      | .error fault => k (some (.error fault, lines)) := by
  rw [bind_then]
  change (p.run >>= _) >>= _ = _
  rw [bind_assoc]
  refine bind_congr fun r => ?_
  cases r <;> rfl

/-- A part together with its fault, and what deals with both. -/
theorem outcome_then (d : Descent α) (f : Except Fault α → Descent β) :
    (d.outcome >>= f) lines >>= k = d lines >>= fun
      | none => k none
      | some (r, rest) => f r rest >>= k := by
  rw [bind_then]
  change (d lines >>= _) >>= _ = _
  rw [bind_assoc]
  refine bind_congr fun r => ?_
  cases r <;> rfl

/-- A part that a fault leaves the scope with, and what follows it. -/
theorem orLeave_then (d : Descent α) :
    (d.orLeave >>= f) lines >>= k = d lines >>= fun
      | none => k none
      | some (.ok a, rest) => f a rest >>= k
      | some (.error fault, rest) => Dialogue.leave >>= fun _ => k (some (.error fault, rest)) := by
  rw [bind_then]
  change (d lines >>= _) >>= _ = _
  rw [bind_assoc]
  refine bind_congr fun r => ?_
  obtain _ | ⟨_ | _, _⟩ := r <;> rfl

/-- The end of a scope, and what follows it. -/
theorem finishScope_then (f : Unit → Descent β) :
    (finishScope >>= f) lines >>= k = endScope >>= fun
      | none => f () lines >>= k
      | some fault => k (some (.error fault, lines)) := by
  change ((plan endScope >>= _) >>= f) lines >>= k = _
  rw [bind_then, plan_then]
  refine bind_congr fun received => ?_
  cases received <;> rfl

end Sequence

end Descent

open Descent

/-! ## Frames that lines open -/

namespace Passage

variable {α β : Type}

/-- Whatever a passage is received with, its result has a property, if it has one. -/
def Yields (Q : α → Prop) (p : Passage α) : Prop := p.run.Yields fun r => ∀ a, r = .ok a → Q a

/-- A fault that is there at once. -/
theorem yields_throw {Q : α → Prop} (fault : Fault) : (throw fault : Passage α).Yields Q := nofun

/-- A result that is there at once. -/
theorem yields_pure {Q : α → Prop} {a : α} (h : Q a) : (pure a : Passage α).Yields Q :=
  fun _ heq => Except.ok.inj heq ▸ h

/-- Two passages in a row. -/
theorem Yields.bind {P : α → Prop} {Q : β → Prop} {p : Passage α} {f : α → Passage β}
    (h : p.Yields P) (hf : ∀ a, P a → (f a).Yields Q) : (p >>= f).Yields Q := by
  refine Dialogue.Yields.bind h fun r hr => ?_
  cases r with
  | ok a => exact hf a (hr a rfl)
  | error fault => exact nofun

/-- The result of two passages in a row is that of the second. -/
theorem yields_bind {Q : β → Prop} {p : Passage α} {f : α → Passage β}
    (hf : ∀ a, (f a).Yields Q) : (p >>= f).Yields Q := by
  have hp : p.Yields fun _ => True := p.run.yields_true.weaken fun _ _ _ _ => trivial
  exact hp.bind fun a _ => hf a

/-- A passage whose faults are skipped over. -/
theorem Yields.attempt {Q : α → Prop} {p : Passage α} (h : p.Yields Q) {place : Position} :
    (Dialogue.attempt place p).Yields fun result => ∀ a, result = some a → Q a := by
  refine Dialogue.Yields.bind h fun r hr => ?_
  cases r with
  | ok a => exact fun _ heq => hr _ (congrArg Except.ok (Option.some.inj heq))
  | error fault => exact fun _ => nofun

end Passage

/-- A frame that a line at a place opens in others. Only an annotation has arrays in it, and only
the class has members. -/
def Frame.IsInner (place : Position) (outer : List Frame) : Frame → Prop
  | .annotationBody opened _ => opened = place
  | .array g => g.opened = place ∧ ∃ opened name more, outer = .annotationBody opened name :: more
  | .skipping _ => True
  | .field _ | .method _ => False

/-- An annotation line opens an annotation, or a construct that is skipped. -/
theorem yields_openAnnotationScope (l : Line) (outer : List Frame) :
    (openAnnotationScope l).Yields (Frame.IsInner l.position outer) := by
  refine Passage.yields_bind fun r => ?_
  cases r with
  | error fault => exact Passage.yields_bind fun _ => Passage.yields_pure trivial
  | ok header => exact Passage.yields_bind fun _ => Passage.yields_pure rfl

/-- An element opens an annotation or an array, if anything. -/
theorem yields_elementLine (l : Line) (opened : Position) (name : Text) (outer : List Frame) :
    (elementLine l).Yields fun frame => ∀ f ∈ frame,
      f.IsInner l.position (.annotationBody opened name :: outer) := by
  unfold elementLine
  dsimp only
  split
  · exact Passage.yields_throw _
  · split
    · exact Passage.yields_throw _
    · split
      · refine Passage.Yields.bind (P := fun f => Frame.IsInner l.position _ f) ?_ fun f hf =>
          Passage.yields_pure fun _ heq => Option.some.inj heq ▸ hf
        refine Passage.yields_bind fun type => Passage.yields_bind fun _ => ?_
        exact Passage.yields_bind fun _ => Passage.yields_pure rfl
      · split
        · exact Passage.yields_pure fun _ heq => Option.some.inj heq ▸ ⟨rfl, _, _, _, rfl⟩
        · exact Passage.yields_bind fun _ => Passage.yields_pure nofun

/-- A line of a method opens an annotation, if anything. -/
theorem yields_bodyLine (m : OpenMethod) (l : Line) (outer : List Frame) :
    (bodyLine m l).Yields fun frame => ∀ f ∈ frame, f.IsInner l.position outer := by
  unfold bodyLine
  split
  · exact Passage.yields_bind fun _ => Passage.yields_pure nofun
  · exact (yields_openAnnotationScope l outer).bind fun f hf =>
      Passage.yields_pure fun _ heq => Option.some.inj heq ▸ hf
  · exact Passage.yields_bind fun _ => Passage.yields_pure nofun
  · exact Passage.yields_bind fun _ => Passage.yields_pure nofun

namespace Line

variable {l : Line}

/-- A line with a directive is no comment. -/
theorem comment?_of_directive {d : Directive} (h : l.directive? = some d) : l.comment? = none := by
  unfold directive? at h
  unfold comment?
  cases hcode : l.code with
  | nil => rw [hcode] at h; exact nomatch h
  | cons token more => rfl

/-- A line that leaves a method is no comment. -/
theorem comment?_of_leavesMethod (h : l.leavesMethod = true) : l.comment? = none := by
  unfold leavesMethod at h
  cases hd : l.directive? with
  | none => rw [hd] at h; exact nomatch h
  | some d => exact comment?_of_directive hd

/-- A line that leaves an annotation has a directive and does not close the annotation. -/
theorem directive_of_leavesAnnotationBody {name : Text} (h : l.leavesAnnotationBody name = true) :
    (∃ d, l.directive? = some d) ∧ l.closes name = false := by
  unfold leavesAnnotationBody at h
  split at h
  · exact nomatch h
  · next d hd hend => exact ⟨⟨d, hd⟩, by simp [closes, hend]⟩
  · next d other hd hend =>
    refine ⟨⟨d, hd⟩, ?_⟩
    have hne : other ≠ name := by
      rintro rfl
      simp at h
    simp [closes, hend, hne]

end Line

namespace Gathering

variable (g : Gathering) (l : Line)

/-- One more line leaves the place of an array as it is. -/
theorem add_opened : (g.add l).opened = g.opened := by
  unfold add
  split <;> rfl

/-- One more line leaves the name of the element as it is. -/
theorem add_name : (g.add l).name = g.name := by
  unfold add
  split <;> rfl

/-- One more line leaves the comment behind the first line as it is. -/
theorem add_comment : (g.add l).comment = g.comment := by
  unfold add
  split <;> rfl

end Gathering

namespace Control

/-- The reading of some lines with some frames. -/
def onward (c : Control) (frames : List Frame) (lines : Lines) : Dialogue Unit :=
  { c with frames := frames }.readLines lines

/-- The reading with the frames around a scope that has come to its end. -/
def resume (c : Control) (opened : Position) (outer : List Frame) :
    Option (Except Fault Unit × Lines) → Dialogue Unit
  | none => return ()
  | some (.ok _, rest) => c.onward outer rest
  | some (.error fault, rest) => do c.onward (← raise fault opened outer) rest

/-- The same, where the comment behind the closing line is still to be told. -/
def behind (c : Control) (opened : Position) (outer : List Frame) :
    Option (Except Fault (Option Call) × Lines) → Dialogue Unit
  | none => return ()
  | some (.ok closing, rest) => say (Passage.remark closing) rest >>= c.resume opened outer
  | some (.error fault, rest) => do c.onward (← raise fault opened outer) rest

variable (c : Control)

/-- What cannot be scanned is skipped over. -/
theorem onward_error (frames : List Frame) (fault : Fault) (rest : Lines) :
    c.onward frames (.error fault :: rest) =
      Dialogue.excuse fault >>= fun _ => c.onward frames rest := rfl

/-- A line is given to the innermost frame that takes it. -/
theorem onward_ok (frames : List Frame) (l : Line) (rest : Lines) :
    c.onward frames (.ok l :: rest) = unwind (some l) (·.takes l) .nothing frames >>= fun frames =>
      c.takeInner l frames >>= fun c => c.readLines rest := by
  have hinner : ∀ left, { c with frames := frames }.takeInner l left = c.takeInner l left := by
    intro left
    cases left with
    | nil => rfl
    | cons f outer => cases f <;> rfl
  change (_ >>= fun left => { c with frames := frames }.takeInner l left) >>= _ = _
  simp only [bind_assoc, hinner]

/-- A frame takes a line. -/
theorem onward_takes {f : Frame} {l : Line} (h : f.takes l = true) (outer : List Frame)
    (rest : Lines) :
    c.onward (f :: outer) (.ok l :: rest) = c.takeInner l (f :: outer) >>= fun c =>
      c.readLines rest := by
  rw [onward_ok, unwind_nothing_cons, if_pos h, pure_bind]

/-- A frame ends before a line. The line is looked at again with the frames around. -/
theorem onward_closes {f : Frame} {l : Line} (h : f.takes l = false) (outer : List Frame)
    (rest : Lines) :
    c.onward (f :: outer) (.ok l :: rest) = f.close (some l) >>= fun a =>
      unwind none (fun _ => true) a outer >>= fun outer => c.onward outer (.ok l :: rest) := by
  rw [onward_ok, unwind_nothing_cons, if_neg (ne_true_of_eq_false h), bind_assoc]
  refine bind_congr fun a => ?_
  rw [unwind_eq, bind_assoc]
  exact bind_congr fun outer => (c.onward_ok outer l rest).symm

/-- A frame ends at the end of the source. -/
theorem onward_nil (f : Frame) (outer : List Frame) :
    c.onward (f :: outer) [] = f.close none >>= fun a =>
      unwind none (fun _ => true) a outer >>= fun outer => c.onward outer [] := by
  change unwind none (fun _ => false) .nothing (f :: outer) >>= _ = _
  rw [unwind_nothing_cons, if_neg Bool.false_ne_true, bind_assoc]
  refine bind_congr fun a => ?_
  rw [unwind_eq, bind_assoc]
  rfl

/-- A loop that takes the next line does what the reader does with the frame of the loop, as
soon as this holds for every line and for the end of the source. -/
theorem onward_nextLine {α : Type} {frames : List Frame} {body : Option Line → Descent α}
    {k : Option (Except Fault α × Lines) → Dialogue Unit} {lines : Lines}
    (hnil : c.onward frames [] = body none [] >>= k)
    (hcons : ∀ l rest, rest.length < lines.length →
      c.onward frames (.ok l :: rest) = body (some l) rest >>= k) :
    c.onward frames lines = (nextLine >>= body) lines >>= k := by
  induction lines with
  | nil => exact hnil
  | cons line rest ih =>
    cases line with
    | error fault =>
      have hrest := ih fun l more hlt => hcons l more (Nat.lt_succ_of_lt hlt)
      rw [onward_error, hrest]
      rfl
    | ok l => exact hcons l rest (Nat.lt_succ_self _)

/-! ## Ends of scopes -/

/-- The end of a scope is told, and its fault is handed to the frames around. -/
theorem onward_endScope (opened : Position) (outer : List Frame) (rest : Lines) :
    (endScope >>= fun received =>
      unwind none (fun _ => true) ⟨received.map (·, opened), []⟩ outer >>= fun outer =>
        c.onward outer rest) =
      (do
        finishScope
        return none : Descent (Option Call)) rest >>= c.behind opened outer := by
  rw [finishScope_then]
  refine bind_congr fun received => ?_
  cases received with
  | none =>
    change unwind none (fun _ => true) .nothing outer >>= _ = c.onward outer rest
    rw [unwind_nothing, pure_bind]
  | some fault => rfl

/-- A scope ends without its closing line, and lines are handed back. -/
theorem onward_closeImplicitly (fault : Fault) (opened : Position) (outer : List Frame)
    (back : List Line) (rest : Lines) :
    ((do
        Dialogue.excuse fault
        return (⟨(← endScope).map (·, opened), []⟩ : Arrival)) >>= fun a =>
      unwind none (fun _ => true) a outer >>= fun outer =>
        c.onward outer (back.map .ok ++ rest)) =
      closeImplicitly fault back rest >>= c.behind opened outer := by
  unfold closeImplicitly
  rw [plan_then]
  simp only [bind_assoc, pure_bind]
  exact bind_congr fun _ => c.onward_endScope opened outer (back.map .ok ++ rest)

/-- A scope ends with its closing line. -/
theorem onward_closeBy (l : Line) (opened : Position) (heard : Bool) (outer : List Frame)
    (rest : Lines) :
    (closeBy l opened heard outer >>= fun outer => c.onward outer rest) =
      (do
        finishScope
        return if heard then l.eolCall? else none : Descent (Option Call)) rest >>=
          c.behind opened outer := by
  unfold closeBy
  rw [finishScope_then, bind_assoc]
  refine bind_congr fun received => ?_
  cases received with
  | some fault => rfl
  | none =>
    change _ = say _ rest >>= c.resume opened outer
    unfold say
    simp only [bind_assoc, pure_bind]
    refine bind_congr fun r => ?_
    cases r <;> rfl

/-! ## Constructs without an end of their own -/

/-- A construct that is dropped. -/
theorem onward_skipping (name : Text) (opened : Position) (outer : List Frame) (lines : Lines) :
    c.onward (.skipping name :: outer) lines =
      skipConstruct name lines >>= c.resume opened outer := by
  -- Nothing comes out of the frame, so the frames around stay as they are.
  have hends : ∀ rest, (unwind none (fun _ => true) .nothing outer >>= fun outer =>
      c.onward outer rest) = c.onward outer rest := by
    intro rest
    rw [unwind_nothing, pure_bind]
  induction lines with
  | nil => exact (c.onward_nil (.skipping name) outer).trans (hends [])
  | cons line rest ih =>
    cases line with
    | error fault =>
      rw [onward_error, ih]
      rfl
    | ok l =>
      unfold skipConstruct
      cases hcloses : l.closes name with
      | true =>
        rw [onward_takes c (by simp [Frame.takes, hcloses]), if_pos rfl]
        change onward c (if l.closes name then outer else _) rest = _
        rw [hcloses, if_pos rfl]
        rfl
      | false =>
        rw [if_neg Bool.false_ne_true]
        cases hopens : l.opensMember with
        | true =>
          rw [onward_closes c (by simp [Frame.takes, hcloses, hopens]), if_pos rfl]
          exact hends _
        | false =>
          rw [onward_takes c (by simp [Frame.takes, hopens]), if_neg Bool.false_ne_true, ← ih]
          change onward c (if l.closes name then outer else _) rest = _
          rw [hcloses, if_neg Bool.false_ne_true]

/-- A fault of something in frames that deal with faults is skipped over. -/
theorem resume_error {place : Position} {frames : List Frame}
    (hraise : ∀ fault, raise fault place frames = (do
      Dialogue.excuse (fault.attach place)
      return frames)) (fault : Fault) (rest : Lines) :
    c.resume place frames (some (.error fault, rest)) =
      Dialogue.excuse (fault.attach place) >>= fun _ => c.onward frames rest := by
  change raise fault place frames >>= _ = _
  rw [hraise]
  rfl

/-- An array in an annotation. -/
theorem onward_array {inner : Position → Text → Descent (Option Call)} (g : Gathering)
    (opened : Position) (name : Text) (outer : List Frame) (lines : Lines) :
    c.onward (.array g :: .annotationBody opened name :: outer) lines =
      descend inner (some (.array g)) lines >>=
        c.resume g.opened (.annotationBody opened name :: outer) := by
  -- An array that does not close is skipped over, in the same way before a line and at the end.
  have hends : ∀ (g : Gathering) rest, ((Frame.array g).close none >>= fun a =>
      unwind none (fun _ => true) a (.annotationBody opened name :: outer) >>= fun outer =>
        c.onward outer rest) =
      c.resume g.opened (.annotationBody opened name :: outer)
        (some (.error (unclosedArray g), rest)) :=
    fun g rest => rfl
  unfold descend
  rw [bind_then]
  induction lines generalizing g with
  | nil => exact (c.onward_nil (.array g) _).trans (hends g [])
  | cons line rest ih =>
    cases line with
    | error fault =>
      rw [onward_error, ih]
      rfl
    | ok l =>
      unfold gatherArray
      cases hended : Gathering.isEndedBy l with
      | true =>
        rw [onward_closes c (by simp [Frame.takes, hended]), if_pos rfl]
        exact hends g _
      | false =>
        rw [onward_takes c (by simp [Frame.takes, hended]), if_neg Bool.false_ne_true]
        change ((takeInArray g l _ >>= _) >>= _) = _
        unfold takeInArray
        cases hclosed : g.isClosedBy l with
        | true =>
          change _ = say (tellElement (g.add l).opened (g.add l).name (g.add l).text _ _) rest >>= _
          rw [g.add_opened, g.add_name, g.add_comment]
          unfold Dialogue.attempt say
          dsimp only
          rw [if_pos rfl]
          simp only [bind_assoc, pure_bind]
          refine bind_congr fun r => ?_
          cases r <;> rfl
        | false =>
          have hadd := ih (g.add l)
          rw [g.add_opened] at hadd
          dsimp only
          rw [if_neg Bool.false_ne_true, if_neg Bool.false_ne_true, ← hadd]
          rfl

/-- The comment behind the closing line of a scope is told to the scope around. -/
theorem resume_remark (body : Descent (Option Call)) (place : Position) (outer : List Frame)
    (lines : Lines) :
    (do say (Passage.remark (← body)) : Descent Unit) lines >>= c.resume place outer =
      body lines >>= c.behind place outer := by
  rw [bind_then]
  refine bind_congr fun r => ?_
  obtain _ | ⟨_ | _, _⟩ := r <;> rfl

/-- What a line has opened, if the loop of annotations does what the reader does. -/
theorem onward_descend {inner : Position → Text → Descent (Option Call)} {place : Position}
    {outer : List Frame} {f : Frame} (hf : f.IsInner place outer) {lines : Lines}
    (hinner : ∀ opened name outer, c.onward (.annotationBody opened name :: outer) lines =
      inner opened name lines >>= c.behind opened outer) :
    c.onward (f :: outer) lines = descend inner (some f) lines >>= c.resume place outer := by
  cases f with
  | annotationBody opened name =>
    obtain rfl := hf
    rw [hinner]
    exact (c.resume_remark (inner opened name) opened outer lines).symm
  | array g =>
    obtain ⟨rfl, opened, name, more, rfl⟩ := hf
    exact c.onward_array g opened name more lines
  | skipping name => exact c.onward_skipping name place outer lines
  | field f => exact hf.elim
  | method m => exact hf.elim

/-- A line that may open something in frames that skip over its faults. -/
theorem onward_attempt {inner : Position → Text → Descent (Option Call)} {place : Position}
    {frames : List Frame} {p : Passage (Option Frame)} {rest : Lines}
    (hraise : ∀ fault, raise fault place frames = (do
      Dialogue.excuse (fault.attach place)
      return frames))
    (hp : p.Yields fun frame => ∀ f ∈ frame, f.IsInner place frames)
    (hinner : ∀ opened name outer, c.onward (.annotationBody opened name :: outer) rest =
      inner opened name rest >>= c.behind opened outer) :
    (Dialogue.attempt place p >>= fun frame => c.onward (frame.join.toList ++ frames) rest) =
      (do descend inner (← say p) : Descent Unit) rest >>= c.resume place frames := by
  unfold Dialogue.attempt
  rw [say_then, bind_assoc]
  refine Dialogue.Yields.bind_congr hp fun r hr => ?_
  cases r with
  | error fault =>
    dsimp only
    rw [c.resume_error hraise, bind_assoc]
    rfl
  | ok frame =>
    cases frame with
    | none => rfl
    | some f => exact c.onward_descend (hr (some f) rfl f rfl) hinner

/-- A comment that a scope is told, where the scope cannot deal with faults itself. -/
theorem onward_remark (text : Text) (opened : Position) (frames outer : List Frame)
    (rest : Lines) {body : Descent (Option Call)}
    (hbody : c.onward frames rest = body rest >>= c.behind opened outer) :
    (orRaise opened outer (do
        Passage.remark (some (.comment text))
        return frames) >>= fun frames => c.onward frames rest) =
      (do
        orLeave (say (Passage.remark (some (.comment text))))
        body : Descent (Option Call)) rest >>= c.behind opened outer := by
  rw [orLeave_then]
  unfold orRaise say
  simp only [ExceptT.run_bind, bind_assoc, pure_bind]
  refine bind_congr fun r => ?_
  cases r with
  | ok _ => exact hbody
  | error fault => rfl

/-- An annotation. -/
theorem onward_annotationBody {n : Nat} {lines : Lines} (h : lines.length < n) (opened : Position)
    (name : Text) (outer : List Frame) :
    c.onward (.annotationBody opened name :: outer) lines =
      annotationBody n opened name lines >>= c.behind opened outer := by
  induction n generalizing lines opened name outer with
  | zero => exact absurd h (Nat.not_lt_zero _)
  | succ n ih =>
    unfold annotationBody
    refine c.onward_nextLine ?_ fun l rest hrest => ?_
    · rw [onward_nil]
      exact c.onward_closeImplicitly _ opened outer [] []
    have hloop := fun (rest : Lines) (hrest : rest.length < n) => ih hrest opened name outer
    dsimp only
    cases hleaves : l.leavesAnnotationBody name with
    | true =>
      obtain ⟨⟨d, hd⟩, hcloses⟩ := Line.directive_of_leavesAnnotationBody hleaves
      rw [onward_closes c (by simp [Frame.takes, hleaves]), Line.comment?_of_directive hd, hd]
      dsimp only
      rw [if_neg (ne_true_of_eq_false hcloses), if_pos rfl]
      exact c.onward_closeImplicitly _ opened outer [l] rest
    | false =>
      rw [onward_takes c (by simp [Frame.takes, hleaves])]
      change ((takeInAnnotationBody opened name l outer >>= _) >>= _) = _
      unfold takeInAnnotationBody
      dsimp only
      simp only [bind_assoc, pure_bind]
      split
      · next hcomment =>
        simp only [hcomment]
        exact c.onward_remark _ opened _ outer rest (hloop rest (by omega))
      · next hcomment hd =>
        simp only [hcomment, hd, bind_assoc, pure_bind]
        refine (c.onward_attempt (fun _ => rfl) (yields_elementLine l opened name outer)
          (ih (show rest.length < n by omega))).trans ?_
        rw [outcome_then]
        have hleft := element_leaves (annotationBody_leaves (show rest.length < n by omega)) l
        refine Dialogue.Yields.bind_congr hleft ?_
        rintro _ ⟨_ | _, more, rfl, hmore⟩
        · dsimp only
          rw [c.resume_error fun _ => rfl, plan_then]
          exact bind_congr fun _ => hloop more (by omega)
        · exact hloop more (by omega)
      · next hcomment hd =>
        simp only [hcomment, hd]
        split
        · exact c.onward_closeBy l opened true outer rest
        · rw [if_neg Bool.false_ne_true, plan_then]
          simp only [bind_assoc, pure_bind]
          exact bind_congr fun _ => hloop rest (by omega)

end Control

end Smali
