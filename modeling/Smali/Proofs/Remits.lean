import Smali.Proofs.Footing
import Smali.Proofs.Sites

/-!
# Remits

A remit bounds what a reader does, whatever it is received with: the calls that it makes, the
faults that it skips over or leaves a part of its work with, and the places that the faults it
finds itself stand at. A footing says in which order acts follow on each other; a remit says
what they are about.
-/

namespace Smali

/-- A fault that a reader finds in the line at a place. -/
structure Fault.IsAt (fault : Fault) (place : Position) : Prop where
  /-- It carries the place. -/
  position : fault.position = some place
  /-- It is no lexical fault, and nobody else raised it. -/
  kind : fault.kind = .grammar ∨ fault.kind = .unterminated ∨ fault.kind = .descriptor ∨
    fault.kind = .literal

/-- A fault of grammar is found at its line. -/
theorem Line.grammar_isAt (l : Line) (details : Text) : (l.grammar details).IsAt l.position :=
  ⟨rfl, .inl rfl⟩

/-- What a reader may do. -/
structure Remit where
  /-- The calls that may be made. -/
  calls : Call → Prop
  /-- The places where faults may be found. -/
  places : Position → Prop
  /-- The faults that calls may be received with. -/
  received : Fault → Prop
  /-- The faults that may be dealt with. -/
  faults : Fault → Prop
  /-- Only calls of the class header are in question. -/
  calls_of_isHeader : ∀ call, call.isHeader = false → calls call
  /-- What is found at a place may be dealt with. -/
  faults_of_isAt : ∀ fault place, fault.IsAt place → places place → faults fault
  /-- What is received may be dealt with. -/
  faults_of_received : ∀ fault, received fault → faults fault
  /-- Places may be attached. -/
  faults_attach : ∀ fault place, faults fault → places place → faults (fault.attach place)

/-- An act that a remit covers. -/
def Act.Within (r : Remit) : Act → Prop
  | .tell call | .remark call | .enter call => r.calls call
  | .hush | .leave => True
  | .excuse fault => r.faults fault
  | .require _ fault => fault.kind = .validation ∧ ∃ place ∈ fault.position, r.places place

/-- A frame that was opened at a place of a remit. An array holds calls back. -/
def Frame.Within (r : Remit) : Frame → Prop
  | .field f => r.places f.opened
  | .method m => r.places m.opened
  | .annotationBody opened _ => r.places opened
  | .array g => r.places g.opened ∧ ∀ call ∈ g.remarks, r.calls call
  | .skipping _ => True

/-- What comes out of a scope that was opened at a place of a remit. -/
def Arrival.Within (r : Remit) (a : Arrival) : Prop :=
  ∀ fault place, a.fault = some (fault, place) → r.faults fault ∧ r.places place

/-- Nothing that comes out is within any remit. -/
theorem Arrival.within_nothing (r : Remit) : Arrival.nothing.Within r := nofun

namespace Dialogue

variable {α β : Type} {r : Remit}

/-- A dialogue makes only acts that a remit covers, whatever it is received with. Its result
has a property; an end without a result is a fault that was received. -/
def Within (r : Remit) (Q : α → Prop) : Dialogue α → Prop
  | .done a => Q a
  | .halt fault => r.received fault
  | .act first next =>
    first.Within r ∧ ∀ received : Option Fault,
      (∀ fault ∈ received, first.isCall = true ∧ r.received fault) → (next received).Within r Q

/-- Two dialogues in a row. -/
theorem Within.bind {d : Dialogue α} {f : α → Dialogue β} {P : α → Prop} {Q : β → Prop}
    (h : d.Within r P) (hf : ∀ a, P a → (f a).Within r Q) : (d >>= f).Within r Q := by
  change (d.bind f).Within r Q
  induction d with
  | done a => exact hf a h
  | halt fault => exact h
  | act first next ih => exact ⟨h.1, fun received hreceived => ih received (h.2 received hreceived)⟩

/-- A weaker property of the result. -/
theorem Within.weaken {d : Dialogue α} {P Q : α → Prop} (h : d.Within r P)
    (hpq : ∀ a, P a → Q a) : d.Within r Q := by
  induction d with
  | done a => exact hpq a h
  | halt fault => exact h
  | act first next ih => exact ⟨h.1, fun received hreceived => ih received (h.2 received hreceived)⟩

/-- An act that is received well. -/
theorem within_perform {a : Act} (h : a.Within r) : (perform a).Within r fun _ => True :=
  ⟨h, fun _ _ => trivial⟩

/-- Something that is done for each element of a list. -/
theorem within_forM {items : List α} {f : α → Dialogue Unit}
    (h : ∀ a ∈ items, (f a).Within r fun _ => True) : (items.forM f).Within r fun _ => True := by
  induction items with
  | nil => exact trivial
  | cons a items ih =>
    rw [List.forM_eq_forM, List.forM_cons]
    refine (h a List.mem_cons_self).bind fun _ _ => ?_
    exact ih fun b hb => h b (List.mem_cons_of_mem _ hb)

end Dialogue

namespace Passage

variable {α β : Type} {r : Remit}

/-- A passage keeps to a remit; the fault that cuts it short is one that may be dealt with. -/
def Within (r : Remit) (Q : α → Prop) (p : Passage α) : Prop :=
  p.run.Within r fun
    | .ok a => Q a
    | .error fault => r.faults fault

/-- Two passages in a row. -/
theorem Within.bind {p : Passage α} {f : α → Passage β} {P : α → Prop} {Q : β → Prop}
    (h : p.Within r P) (hf : ∀ a, P a → (f a).Within r Q) : (p >>= f).Within r Q := by
  refine Dialogue.Within.bind h fun result hresult => ?_
  cases result with
  | ok a => exact hf a hresult
  | error fault => exact hresult

/-- A result that was found without acts. -/
theorem within_ofExcept {result : Except Fault α} (h : ∀ fault, result = .error fault →
    r.faults fault) : (ofExcept result).Within r fun _ => True := by
  cases result with
  | ok a => exact trivial
  | error fault => exact h fault rfl

/-- An act that may be received with a fault. -/
theorem within_perform {a : Act} (h : a.Within r) : (perform a).Within r fun _ => True := by
  refine ⟨h, fun received hreceived => ?_⟩
  cases received with
  | none => exact trivial
  | some fault => exact r.faults_of_received fault (hreceived fault rfl).2

/-- A call that opens no scope. -/
theorem within_tell {call : Call} (h : r.calls call) : (tell call).Within r fun _ => True :=
  within_perform h

/-- A comment, if there is one. -/
theorem within_remark {comment : Option Call} (h : ∀ call ∈ comment, r.calls call) :
    (remark comment).Within r fun _ => True := by
  cases comment with
  | none => exact trivial
  | some call => exact within_perform (h call rfl)

/-- A condition on a line. -/
theorem within_require {holds : Bool} {place : Position} {details : Text} (h : r.places place) :
    (require holds (.located .validation place details)).Within r fun _ => True :=
  within_perform ⟨rfl, place, rfl, h⟩

/-- A call that opens a scope, with the comment that the scope is told. -/
theorem within_enter {call : Call} {comment : Option Call} (h : r.calls call)
    (hcomment : ∀ call ∈ comment, r.calls call) :
    (enter call comment).Within r fun _ => True := by
  refine (within_perform (a := .enter call) h).bind fun _ _ => ?_
  refine Dialogue.Within.bind (within_remark hcomment) fun result hresult => ?_
  cases result with
  | ok _ => exact trivial
  | error fault => exact (Dialogue.within_perform (a := .leave) trivial).bind fun _ _ => hresult

/-- A passage with its fault as a result. -/
theorem within_outcome {p : Passage α} {Q : α → Prop} (h : p.Within r Q) :
    p.outcome.Within r fun
      | .ok a => Q a
      | .error fault => r.faults fault := by
  refine Dialogue.Within.bind h fun result hresult => ?_
  cases result with
  | ok a => exact hresult
  | error fault => exact hresult

/-- A dialogue that no fault cuts short. -/
theorem within_lift {d : Dialogue α} {Q : α → Prop} (h : d.Within r Q) :
    (liftM d : Passage α).Within r Q :=
  Dialogue.Within.bind h fun _ ha => ha

/-- Something that is done for each element of a list. -/
theorem within_forM {items : List α} {f : α → Passage Unit}
    (h : ∀ a ∈ items, (f a).Within r fun _ => True) : (items.forM f).Within r fun _ => True := by
  induction items with
  | nil => exact trivial
  | cons a items ih =>
    rw [List.forM_eq_forM, List.forM_cons]
    refine (h a List.mem_cons_self).bind fun _ _ => ?_
    exact ih fun b hb => h b (List.mem_cons_of_mem _ hb)

end Passage

end Smali
