import Smali.Listener.Call

/-!
# Listeners

A listener hears the calls made about one class. It holds a state and knows each
scope that it listens in by a handle. To a call it replies with a fault, or with
the handle of the scope that the call opens; without a handle it does not want to
hear of that scope. Handle and state go on with what the listener has heard, also
after a fault.
-/

namespace Smali

/-- What comes of a call. -/
structure Reply (σ κ : Type) where
  /-- A fault, or the handle of the scope that was opened. -/
  outcome : Except Fault (Option κ)
  /-- The handle of the scope in which the call was made, from now on. -/
  self : κ
  /-- The state of the listener from now on. -/
  state : σ

/-- Who hears the calls about a class. -/
structure Listener (σ κ : Type) where
  /-- Hears one call in the scope of a handle. -/
  hear : κ → Call → σ → Reply σ κ

namespace Listener

/-- Accepts every call and opens no scope. -/
def discard : Listener Unit Unit := ⟨fun _ _ _ => ⟨.ok none, (), ()⟩⟩

/-- Two listeners side by side; every handle belongs to one of them. -/
def either {σ₁ κ₁ σ₂ κ₂ : Type} (first : Listener σ₁ κ₁) (second : Listener σ₂ κ₂) :
    Listener (σ₁ × σ₂) (κ₁ ⊕ κ₂) where
  hear
    | .inl k, call, (s₁, s₂) =>
      let r := first.hear k call s₁
      ⟨r.outcome.map (·.map .inl), .inl r.self, (r.state, s₂)⟩
    | .inr k, call, (s₁, s₂) =>
      let r := second.hear k call s₂
      ⟨r.outcome.map (·.map .inr), .inr r.self, (s₁, r.state)⟩

end Listener

end Smali
