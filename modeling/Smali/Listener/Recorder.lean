import Smali.Listener.Basic

/-!
# Recorders

A recorder keeps a log of the calls it hears, with the depth and the sort of the
scope they were made in. A script tells it which scopes to decline and at which
call to raise a fault; without a script it accepts everything.
-/

namespace Smali.Recorder

/-- A scope as a recorder knows it. -/
structure Handle where
  /-- The number of scopes around it. -/
  depth : Nat
  /-- The sort of the scope. -/
  scope : Scope
  deriving DecidableEq, Repr, Inhabited

/-- A call with the scope it was made in. -/
structure Event where
  /-- Where the call was made. -/
  place : Handle
  /-- The call. -/
  call : Call
  deriving Repr, Inhabited

/-- A sort of scopes to decline: all that one sort of call opens, or those with a
certain key. -/
structure Refusal where
  /-- The sort of the opening call. -/
  kind : CallKind
  /-- The key of the scope; without one, every scope of the sort is declined. -/
  key : Option Text
  deriving DecidableEq, Repr

/-- A fault to raise at the `nth` call of a sort, counted from one. -/
structure Failure where
  /-- The sort of call. -/
  kind : CallKind
  /-- Which call of the sort. -/
  nth : Nat
  /-- The fault. -/
  fault : Fault
  deriving DecidableEq, Repr

/-- How a recorder behaves. -/
structure Script where
  /-- The scopes that it declines. -/
  refusals : List Refusal
  /-- The fault that it raises. -/
  failure : Option Failure
  deriving Repr

/-- Accepts everything. -/
def Script.obliging : Script := ⟨[], none⟩

/-- What a recorder has heard. -/
structure State where
  /-- The log, the latest call first. -/
  log : List Event
  /-- How many calls of the sort that the failure is about were heard. -/
  heard : Nat
  deriving Repr

/-- Before any call. -/
def State.initial : State := ⟨[], 0⟩

/-- The calls in the order in which they were heard. -/
def State.events (s : State) : List Event := s.log.reverse

/-- The key by which a scope may be declined: the name of the member or of the
element, or the descriptor of the annotation type. -/
def key : Call → Text
  | .field name _ _ _ | .method name _ _ | .subannotationStart name _ => name
  | .annotationStart _ type => type.descriptor
  | _ => []

/-- Whether a script declines the scope that a call opens. -/
def Script.declines (script : Script) (call : Call) : Bool :=
  script.refusals.any fun r => r.kind = call.kind && (r.key.isNone || r.key = some (key call))

/-- The fault that a script raises at a call, after so many of its sort. -/
def Script.fault? (script : Script) (call : Call) (heard : Nat) : Option Fault :=
  match script.failure with
  | some f => if f.kind = call.kind ∧ f.nth = heard + 1 then some f.fault else none
  | none => none

/-- The number of relevant calls after one more call. -/
def Script.count (script : Script) (call : Call) (heard : Nat) : Nat :=
  match script.failure with
  | some f => if f.kind = call.kind then heard + 1 else heard
  | none => heard

/-- Hears a call: logs it, then raises the fault that is due, then opens the scope
unless it is to be declined. -/
def hear (script : Script) (place : Handle) (call : Call) (s : State) : Reply State Handle :=
  let outcome : Except Fault (Option Handle) :=
    match script.fault? call s.heard with
    | some fault => .error fault
    | none =>
      .ok (if script.declines call then none
        else call.opens?.map fun scope => ⟨place.depth + 1, scope⟩)
  ⟨outcome, place, ⟨⟨place, call⟩ :: s.log, script.count call s.heard⟩⟩

/-- The recorder with a script. -/
def listener (script : Script) : Listener State Handle := ⟨hear script⟩

/-- The handle of a scope without others around it. -/
def root (scope : Scope) : Handle := ⟨0, scope⟩

end Smali.Recorder
