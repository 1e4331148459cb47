import Smali.Proofs.Rehearsal
import Smali.Reader.Step

/-!
# The course of a strict dialogue

With the first fault ending a reading, and without comments, a dialogue before a listener
that never fails either comes to nothing or has one result and one list of moves. The same
holds of a passage, where a fault that cuts it short comes to nothing, too. The courses of
the parts make up the course of the whole.
-/

namespace Smali

/-! ## Results without their faults -/

section Results

variable {ε ε' α β : Type}

/-- The result of a step and a function. -/
theorem toOption_map (r : Except ε α) (f : α → β) : (r.map f).toOption = r.toOption.map f := by
  cases r <;> rfl

/-- What is wrong does not matter to the result. -/
theorem toOption_mapError (r : Except ε α) (f : ε → ε') :
    (r.mapError f).toOption = r.toOption := by
  cases r <;> rfl

@[simp]
theorem toOption_ok (a : α) : (Except.ok a : Except ε α).toOption = some a := rfl

@[simp]
theorem toOption_pure (a : α) : (pure a : Except ε α).toOption = some a := rfl

@[simp]
theorem toOption_error (e : ε) : (Except.error e : Except ε α).toOption = none := rfl

@[simp]
theorem toOption_throw (e : ε) : (throw e : Except ε α).toOption = none := rfl

/-- Only what came out well is a result. -/
theorem toOption_eq_some {r : Except ε α} {a : α} : r.toOption = some a ↔ r = .ok a := by
  cases r with
  | error e => exact ⟨nofun, nofun⟩
  | ok b => exact ⟨fun h => congrArg Except.ok (Option.some.inj h), fun h => by rw [h]; rfl⟩

end Results

/-- Options under which the first fault ends a reading and no comment is told. -/
structure Options.IsPlain (o : Options) : Prop where
  /-- No fault is skipped over. -/
  strict : o.errors = .strict
  /-- Comments are left out. -/
  quiet : o.comments = false

/-- A result with the moves that lead to it, if there is one. -/
abbrev Course (α : Type) := Option (α × List Move)

namespace Course

variable {α β : Type}

/-- A result without moves. -/
def still (a : α) : Course α := some (a, [])

/-- One course, and another one that goes on with its result. -/
def andThen (r : Course α) (f : α → Course β) : Course β :=
  r.bind fun (a, moves) => (f a).map fun (b, more) => (b, moves ++ more)

@[simp]
theorem none_andThen (f : α → Course β) : andThen none f = none := rfl

@[simp]
theorem some_andThen (a : α) (moves : List Move) (f : α → Course β) :
    andThen (some (a, moves)) f = (f a).map fun (b, more) => (b, moves ++ more) := rfl

@[simp]
theorem still_andThen (a : α) (f : α → Course β) : (still a).andThen f = f a := by
  cases h : f a <;> simp [still, h]

@[simp]
theorem andThen_none (r : Course α) : (r.andThen fun _ => (none : Course β)) = none := by
  cases r <;> rfl

/-- A course behind a condition, which counts if checks are made. -/
def guard (o : Options) (holds : Bool) (r : Course α) : Course α :=
  bif o.validate && !holds then none else r

variable {o : Options}

@[simp]
theorem guard_true (r : Course α) : guard o true r = r := by
  cases hv : o.validate <;> simp [guard, hv]

@[simp]
theorem guard_none (holds : Bool) : guard o holds (none : Course α) = none := by
  cases hv : o.validate <;> cases holds <;> simp [guard, hv]

@[simp]
theorem guard_andThen (holds : Bool) (r : Course α) (f : α → Course β) :
    (guard o holds r).andThen f = guard o holds (r.andThen f) := by
  cases hv : o.validate <;> cases holds <;> simp [guard, hv]

@[simp]
theorem map_guard (holds : Bool) (r : Course α) (f : α × List Move → β × List Move) :
    Option.map f (guard o holds r) = guard o holds (Option.map f r) := by
  cases hv : o.validate <;> cases holds <;> simp [guard, hv]

/-- Two conditions at once are two conditions one after another. -/
theorem guard_and (first second : Bool) (r : Course α) :
    guard o (first && second) r = guard o first (guard o second r) := by
  cases hv : o.validate <;> cases first <;> cases second <;> simp [guard, hv]

end Course

namespace Dialogue

variable {α β : Type} {o : Options}

/-- The course of a dialogue. -/
def course (o : Options) (d : Dialogue α) : Course α :=
  match (d.rehearse o).result with
  | .ok a => some (a, (d.rehearse o).moves)
  | .error _ => none

@[simp]
theorem course_pure (a : α) : course o (pure a) = .still a := rfl

@[simp]
theorem course_halt (fault : Fault) : course o (.halt fault : Dialogue α) = none := rfl

@[simp]
theorem course_bind (d : Dialogue α) (f : α → Dialogue β) :
    course o (d >>= f) = (course o d).andThen fun a => course o (f a) := by
  unfold course
  rw [rehearse_bind]
  unfold Rehearsal.andThen
  cases hd : (d.rehearse o).result with
  | error fault => rfl
  | ok a =>
    simp only [Course.some_andThen, Rehearsal.after]
    cases hf : ((f a).rehearse o).result <;> rfl

/-- Going back to the scope around. -/
@[simp]
theorem course_leave : course o leave = some ((), [.leave]) := rfl

/-- Skipping over a fault is not possible. -/
theorem course_excuse (h : o.errors = .strict) (fault : Fault) : course o (excuse fault) = none := by
  simp [course, excuse, perform, rehearse, Act.stop?, h]

end Dialogue

namespace Passage

variable {α β : Type} {o : Options}

/-- The course of a passage. -/
def course (o : Options) (p : Passage α) : Course α :=
  (Dialogue.course o p.run).andThen fun r => r.toOption.map fun a => (a, [])

@[simp]
theorem course_pure (a : α) : course o (pure a) = .still a := rfl

@[simp]
theorem course_throw (fault : Fault) : course o (throw fault : Passage α) = none := rfl

@[simp]
theorem course_bind (p : Passage α) (f : α → Passage β) :
    course o (p >>= f) = (course o p).andThen fun a => course o (f a) := by
  unfold course
  rw [ExceptT.run_bind, Dialogue.course_bind]
  rcases Dialogue.course o p.run with _ | ⟨fault | a, moves⟩
  · rfl
  · rfl
  · rcases h : Dialogue.course o (f a).run with _ | ⟨fault | b, more⟩ <;>
      simp [Course.andThen, Except.toOption, h]

@[simp]
theorem course_ofExcept (result : Except Fault α) :
    course o (ofExcept result) = result.toOption.map fun a => (a, []) := by
  cases result <;> rfl

/-- A call is made. -/
@[simp]
theorem course_tell (call : Call) : course o (tell call) = some ((), [.tell call]) := rfl

/-- A condition holds, or it is not looked at. -/
@[simp]
theorem course_require (holds : Bool) (fault : Fault) :
    course o (require holds fault) = Course.guard o holds (.still ()) := by
  unfold course Dialogue.course require perform Course.guard
  simp only [ExceptT.run_mk, Dialogue.rehearse, Act.stop?]
  cases o.validate && !holds <;> rfl

/-- A comment is left out. -/
theorem run_remark (h : o.IsPlain) (comment : Option Call) :
    Dialogue.course o (remark comment).run = some (.ok (), []) := by
  cases comment with
  | none => rfl
  | some call =>
    unfold Dialogue.course remark perform
    simp only [ExceptT.run_mk, Dialogue.rehearse, Act.stop?, Act.moves, h.quiet]
    rfl

/-- The same as a course of a passage. -/
theorem course_remark (h : o.IsPlain) (comment : Option Call) :
    course o (remark comment) = Course.still () := by
  rw [course, run_remark h]
  rfl

/-- A scope is gone into. -/
theorem course_enter (h : o.IsPlain) (call : Call) (comment : Option Call) :
    course o (enter call comment) = some ((), [.enter call]) := by
  unfold enter
  rw [course_bind]
  change Course.andThen (some ((), [.enter call])) _ = _
  simp only [course, ExceptT.run_mk, Dialogue.course_bind, run_remark h, Course.some_andThen]
  rfl

/-- A dialogue that looks at the fault of a passage comes to nothing if it does so with
every fault. -/
theorem course_run_bind (p : Passage α) (f : Except Fault α → Dialogue β)
    (hf : ∀ fault, Dialogue.course o (f (.error fault)) = none) :
    Dialogue.course o (p.run >>= f) =
      (course o p).andThen fun a => Dialogue.course o (f (.ok a)) := by
  rw [Dialogue.course_bind, course]
  rcases Dialogue.course o p.run with _ | ⟨fault | a, moves⟩
  · rfl
  · simp [hf, Except.toOption]
  · simp [Except.toOption]

/-- The same for a passage that looks at the fault. -/
theorem course_outcome_bind (p : Passage α) (f : Except Fault α → Passage β)
    (hf : ∀ fault, course o (f (.error fault)) = none) :
    course o (p.outcome >>= f) = (course o p).andThen fun a => course o (f (.ok a)) := by
  have hrun : p.outcome.run = p.run >>= fun r => pure (Except.ok r) := rfl
  have hcourse : course o p.outcome = Dialogue.course o p.run := by
    rw [course, hrun, Dialogue.course_bind]
    rcases Dialogue.course o p.run with _ | ⟨r, moves⟩
    · rfl
    · simp [Course.still, Course.andThen, Except.toOption]
  rw [course_bind, hcourse, course]
  rcases Dialogue.course o p.run with _ | ⟨fault | a, moves⟩
  · rfl
  · simp [hf, Except.toOption]
  · simp [Except.toOption]

/-- A fault cannot be skipped over. -/
theorem course_excuse (h : o.errors = .strict) (fault : Fault) :
    course o (liftM (Dialogue.excuse fault) : Passage Unit) = none := by
  have hrun : (liftM (Dialogue.excuse fault) : Passage Unit).run =
      Dialogue.excuse fault >>= fun a => pure (Except.ok a) := rfl
  rw [course, hrun, Dialogue.course_bind, Dialogue.course_excuse h]
  rfl

end Passage

end Smali
