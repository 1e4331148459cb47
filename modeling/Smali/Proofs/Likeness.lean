import Smali.Proofs.Footing
import Smali.Reader.Desk

/-!
# Listeners that are alike

Two listeners are alike if calls that suit a scope leave their states alike and are received
by both with the same fault or without one. A dialogue that heeds its footing then takes the
same course with both. That the calls suit their scope matters: listeners need not be alike
otherwise.
-/

namespace Smali

/-- What comes of a call in a scope that someone may listen in. -/
structure Meeting (σ κ : Type) where
  /-- A fault, or the handle of the scope that was opened. -/
  outcome : Except Fault (Option κ)
  /-- The handle of the scope in which the call was made, from now on. -/
  self : Option κ
  /-- The state of the listener from now on. -/
  state : σ

/-- A call in a scope. A scope without a handle accepts everything. -/
def Listener.meet {σ κ : Type} (L : Listener σ κ) (handle : Option κ) (call : Call) (state : σ) :
    Meeting σ κ :=
  match handle with
  | some handle =>
    let r := L.hear handle call state
    ⟨r.outcome, some r.self, r.state⟩
  | none => ⟨.ok none, none, state⟩

/-- A call at a desk concerns the innermost scope. -/
theorem Desk.call_eq_meet {σ κ : Type} (L : Listener σ κ) (call : Call) (state : σ)
    (handle : Option κ) (outer : List (Option κ)) (skipped : List Fault) :
    (⟨state, handle :: outer, skipped⟩ : Desk σ κ).call L call =
      ((L.meet handle call state).outcome,
        ⟨(L.meet handle call state).state, (L.meet handle call state).self :: outer, skipped⟩) := by
  cases handle <;> rfl

/-- When the states and the handles of two listeners are alike. -/
structure Likeness (σ₁ κ₁ σ₂ κ₂ : Type) where
  /-- States that are alike. -/
  states : σ₁ → σ₂ → Prop
  /-- Handles of a scope of some sort that are alike. -/
  handles : Scope → Option κ₁ → Option κ₂ → Prop

namespace Likeness

variable {σ₁ κ₁ σ₂ κ₂ : Type} (R : Likeness σ₁ κ₁ σ₂ κ₂)

/-- Calls that come to the same. -/
structure Meetings (scope : Scope) (call : Call) (r₁ : Meeting σ₁ κ₁) (r₂ : Meeting σ₂ κ₂) :
    Prop where
  /-- The same fault, or handles for the new scope that are alike. -/
  outcome : match r₁.outcome, r₂.outcome with
    | .ok child₁, .ok child₂ => ∀ opened ∈ call.opens?, R.handles opened child₁ child₂
    | .error fault₁, .error fault₂ => fault₁ = fault₂
    | _, _ => False
  /-- The handles go on alike. -/
  self : R.handles scope r₁.self r₂.self
  /-- The states go on alike. -/
  state : R.states r₁.state r₂.state

/-- Listeners that are alike. -/
structure Holds (L₁ : Listener σ₁ κ₁) (L₂ : Listener σ₂ κ₂) : Prop where
  /-- A field that nobody hears. -/
  hush : R.handles .ofField none none
  /-- Calls that suit their scope come to the same. -/
  meet : ∀ {scope : Scope} {call : Call} {h₁ : Option κ₁} {h₂ : Option κ₂} {s₁ : σ₁} {s₂ : σ₂},
    call.suits scope = true → R.handles scope h₁ h₂ → R.states s₁ s₂ →
      R.Meetings scope call (L₁.meet h₁ call s₁) (L₂.meet h₂ call s₂)

/-- Handles of several scopes that are alike. -/
inductive Handles : List Scope → List (Option κ₁) → List (Option κ₂) → Prop where
  /-- No scopes. -/
  | nil : Handles [] [] []
  /-- One more scope. -/
  | cons {scope : Scope} {scopes : List Scope} {h₁ : Option κ₁} {outer₁ : List (Option κ₁)}
    {h₂ : Option κ₂} {outer₂ : List (Option κ₂)} (head : R.handles scope h₁ h₂)
    (tail : Handles scopes outer₁ outer₂) : Handles (scope :: scopes) (h₁ :: outer₁) (h₂ :: outer₂)

/-- Without the innermost scope. -/
theorem Handles.tail {R : Likeness σ₁ κ₁ σ₂ κ₂} {scopes : List Scope}
    {handles₁ : List (Option κ₁)} {handles₂ : List (Option κ₂)}
    (h : R.Handles scopes handles₁ handles₂) :
    R.Handles scopes.tail handles₁.tail handles₂.tail := by
  cases h with
  | nil => exact .nil
  | cons _ tail => exact tail

/-- Desks that are alike, on a footing. -/
structure Desks (s : Footing) (d₁ : Desk σ₁ κ₁) (d₂ : Desk σ₂ κ₂) : Prop where
  /-- The states. -/
  states : R.states d₁.state d₂.state
  /-- The handles of all scopes that are open. -/
  handles : R.Handles s.scopes d₁.scopes d₂.scopes
  /-- The faults that were skipped over. -/
  skipped : d₁.skipped = d₂.skipped

/-- What is left of two dialogues that took the same course. -/
structure Ends {α : Type} (r₁ : Except Fault α × Desk σ₁ κ₁) (r₂ : Except Fault α × Desk σ₂ κ₂) :
    Prop where
  /-- The same result. -/
  result : r₁.1 = r₂.1
  /-- States that are alike. -/
  states : R.states r₁.2.state r₂.2.state
  /-- The same faults were skipped over. -/
  skipped : r₁.2.skipped = r₂.2.skipped

/-- Acts that are received alike. -/
def Receptions (s : Footing) (a : Act) (r₁ : Reception σ₁ κ₁) (r₂ : Reception σ₂ κ₂) : Prop :=
  match r₁, r₂ with
  | .onward received₁ d₁, .onward received₂ d₂ =>
    received₁ = received₂ ∧ (received₁ = none ∨ a.isCall = true) ∧
      R.Desks (s.after a received₁) d₁ d₂
  | .final fault₁ d₁, .final fault₂ d₂ => fault₁ = fault₂ ∧ R.Desks s d₁ d₂
  | _, _ => False

variable {R} {L₁ : Listener σ₁ κ₁} {L₂ : Listener σ₂ κ₂}

/-- A call that opens no scope is received alike. -/
theorem Holds.tell (hL : R.Holds L₁ L₂) {s : Footing} {call : Call} (hcall : s.Hears call)
    {a : Act} (ha : a = .tell call ∨ a = .remark call) {d₁ : Desk σ₁ κ₁} {d₂ : Desk σ₂ κ₂}
    (h : R.Desks s d₁ d₂) : R.Receptions s a (d₁.tell L₁ call) (d₂.tell L₂ call) := by
  obtain ⟨state₁, handles₁, skipped₁⟩ := d₁
  obtain ⟨state₂, handles₂, skipped₂⟩ := d₂
  obtain ⟨scopes, due⟩ := s
  obtain ⟨hstates, hhandles, hskipped⟩ := h
  obtain ⟨-, scope, hscope, hsuits⟩ := hcall
  cases hhandles with
  | nil => exact absurd hscope nofun
  | cons head tail =>
    obtain rfl := Option.some.inj hscope
    have hmeet := hL.meet hsuits head hstates
    have hdesks : ∀ {due : Option Due}, R.Desks ⟨_, due⟩
        ⟨(L₁.meet _ call state₁).state, (L₁.meet _ call state₁).self :: _, skipped₁⟩
        ⟨(L₂.meet _ call state₂).state, (L₂.meet _ call state₂).self :: _, skipped₂⟩ :=
      ⟨hmeet.state, .cons hmeet.self tail, hskipped⟩
    have houtcome := hmeet.outcome
    unfold Desk.tell
    rw [Desk.call_eq_meet, Desk.call_eq_meet]
    split at houtcome
    · next hok₁ hok₂ =>
      rw [hok₁, hok₂]
      obtain rfl | rfl := ha <;> exact ⟨rfl, .inl rfl, hdesks⟩
    · next herror₁ herror₂ =>
      rw [herror₁, herror₂]
      obtain rfl | rfl := ha <;> exact ⟨congrArg some houtcome, .inr rfl, hdesks⟩
    · exact houtcome.elim

/-- A call that opens a scope is received alike. -/
theorem Holds.enter (hL : R.Holds L₁ L₂) {s : Footing} {call : Call} (hcall : s.Hears call)
    (hopens : call.opens?.isSome = true) {d₁ : Desk σ₁ κ₁} {d₂ : Desk σ₂ κ₂}
    (h : R.Desks s d₁ d₂) :
    R.Receptions s (.enter call) (d₁.enter L₁ call) (d₂.enter L₂ call) := by
  obtain ⟨state₁, handles₁, skipped₁⟩ := d₁
  obtain ⟨state₂, handles₂, skipped₂⟩ := d₂
  obtain ⟨scopes, due⟩ := s
  obtain ⟨hstates, hhandles, hskipped⟩ := h
  obtain ⟨-, scope, hscope, hsuits⟩ := hcall
  obtain ⟨opened, hopened⟩ := Option.isSome_iff_exists.mp hopens
  cases hhandles with
  | nil => exact absurd hscope nofun
  | cons head tail =>
    obtain rfl := Option.some.inj hscope
    have hmeet := hL.meet hsuits head hstates
    have houtcome := hmeet.outcome
    unfold Desk.enter
    rw [Desk.call_eq_meet, Desk.call_eq_meet]
    split at houtcome
    · next hok₁ hok₂ =>
      rw [hok₁, hok₂]
      refine ⟨rfl, .inl rfl, hmeet.state, ?_, hskipped⟩
      simp only [Footing.after, hopened]
      exact .cons (houtcome opened hopened) (.cons hmeet.self tail)
    · next herror₁ herror₂ =>
      rw [herror₁, herror₂]
      exact ⟨congrArg some houtcome, .inr rfl, hmeet.state, .cons hmeet.self tail, hskipped⟩
    · exact houtcome.elim

/-- Every act that may follow is received alike. -/
theorem Holds.receive (hL : R.Holds L₁ L₂) (o : Options) {s : Footing} {a : Act}
    (ha : s.Allows a) {d₁ : Desk σ₁ κ₁} {d₂ : Desk σ₂ κ₂} (h : R.Desks s d₁ d₂) :
    R.Receptions s a (d₁.receive o L₁ a) (d₂.receive o L₂ a) := by
  cases a with
  | tell call => exact hL.tell ha.1 (.inl rfl) h
  | remark call =>
    unfold Desk.receive
    dsimp only
    split
    · exact hL.tell ha.1 (.inr rfl) h
    · exact ⟨rfl, .inl rfl, h⟩
  | enter call => exact hL.enter ha.1 ha.2 h
  | hush => exact ⟨rfl, .inl rfl, h.states, .cons hL.hush h.handles, h.skipped⟩
  | leave => exact ⟨rfl, .inl rfl, h.states, h.handles.tail, h.skipped⟩
  | excuse fault =>
    unfold Desk.receive Desk.excuse
    dsimp only
    split
    · exact ⟨rfl, .inl rfl, h.states, h.handles, congrArg (fault :: ·) h.skipped⟩
    · exact ⟨rfl, h⟩
  | require holds fault =>
    unfold Desk.receive
    dsimp only
    split
    · exact ⟨rfl, h⟩
    · exact ⟨rfl, .inl rfl, h⟩

/-- A dialogue that heeds its footing takes the same course with listeners that are alike. -/
theorem Holds.conduct (hL : R.Holds L₁ L₂) (o : Options) {α : Type} {Q : α → Footing → Prop}
    {d : Dialogue α} {s : Footing} (hd : d.Heeds Q s) {d₁ : Desk σ₁ κ₁} {d₂ : Desk σ₂ κ₂}
    (h : R.Desks s d₁ d₂) : R.Ends (d.conduct o L₁ d₁) (d.conduct o L₂ d₂) := by
  induction d generalizing s d₁ d₂ with
  | done a => exact ⟨rfl, h.states, h.skipped⟩
  | halt fault => exact ⟨rfl, h.states, h.skipped⟩
  | act first next ih =>
    have hreceive := hL.receive o hd.1 h
    unfold Dialogue.conduct
    unfold Receptions at hreceive
    split at hreceive
    · next received₁ d₁' received₂ d₂' hr₁ hr₂ =>
      obtain ⟨rfl, hreceived, hdesks⟩ := hreceive
      rw [hr₁, hr₂]
      exact ih received₁ (hd.2 received₁ hreceived) hdesks
    · next hr₁ hr₂ =>
      obtain ⟨rfl, hdesks⟩ := hreceive
      rw [hr₁, hr₂]
      exact ⟨rfl, hdesks.states, hdesks.skipped⟩
    · exact hreceive.elim

end Likeness

end Smali
