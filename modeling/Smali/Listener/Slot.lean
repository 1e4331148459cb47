import Smali.Listener.Basic

/-!
# Slots for delegates

A slot holds at most one delegate: a handle of another listener, for a scope of
the same sort as the slot's. Calls made to the slot go to the delegate; a slot
that is not set accepts everything.
-/

namespace Smali

/-- A handle with the sort of its scope. -/
structure Delegate (κ : Type) where
  /-- The sort of the scope. -/
  scope : Scope
  /-- The handle. -/
  handle : κ

/-- A place for a delegate. -/
structure Slot (κ : Type) where
  /-- The sort of scope that the slot is for. -/
  scope : Scope
  /-- The delegate, if the slot is set. -/
  delegate : Option (Delegate κ)

namespace Slot

variable {σ κ : Type}

/-- A slot without a delegate. -/
def vacant (scope : Scope) : Slot κ := ⟨scope, none⟩

/-- Whether there is a delegate. -/
def isSet (s : Slot κ) : Bool := s.delegate.isSome

/-- Replaces the delegate, unless the new one is for another sort of scope. -/
def assign (s : Slot κ) (delegate : Delegate κ) : Except Fault (Slot κ) :=
  if delegate.scope = s.scope then .ok { s with delegate := some delegate }
  else
    .error (.plain .capabilityMismatch
      ("cannot delegate a " ++ s.scope.word ++ " visitor to a " ++ delegate.scope.word ++
        " visitor"))

/-- The slot without its delegate. -/
def clear (s : Slot κ) : Slot κ := { s with delegate := none }

/-- Whether there is a delegate for a sort of scope. -/
def serves (s : Slot κ) (scope : Scope) : Bool :=
  match s.delegate with
  | some d => d.scope = scope
  | none => false

/-- The slot of a scope that was just opened, with the delegate's own handle for
it if there is one. -/
def child (scope : Scope) (delegate : Option (Delegate κ)) : Except Fault (Slot κ) :=
  match delegate with
  | some d => (vacant scope).assign d
  | none => .ok (vacant scope)

/-- What comes of passing on a call. -/
structure Passed (σ κ : Type) where
  /-- A fault, or the delegate's handle for the scope that was opened. -/
  outcome : Except Fault (Option (Delegate κ))
  /-- The slot from now on. -/
  slot : Slot κ
  /-- The state of the delegate from now on. -/
  state : σ

/-- Passes a call on to the delegate, if there is one that the call suits. -/
def pass (inner : Listener σ κ) (s : Slot κ) (call : Call) (state : σ) : Passed σ κ :=
  match s.delegate with
  | none => ⟨.ok none, s, state⟩
  | some d =>
    if call.suits d.scope then
      let r := inner.hear d.handle call state
      ⟨r.outcome.map fun opened =>
          opened.bind fun handle => call.opens?.map fun scope => ⟨scope, handle⟩,
        { s with delegate := some ⟨d.scope, r.self⟩ }, r.state⟩
    else ⟨.ok none, s, state⟩

end Slot

end Smali
