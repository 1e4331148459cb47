import Smali.Proofs.Company
import Smali.Proofs.ScopeProtocol
import Smali.Proofs.Snippets

/-!
# The calls of snippets in a row

When the last line of a snippet has been read, only the class is open, and a listener that goes on
from there hears of another snippet what it would hear of it alone, with as many calls in front as
it has heard. Whether the other snippet leads to the same calls as before a listener that starts
with it is up to the listener: it does if the scopes that it declines depend on the calls alone.
-/

namespace Smali

/-! ## Calls behind others -/

/-- The number of a visitor, if other calls were made before. The class keeps its number. -/
def numberBehind (before : List Heard) (who : Nat) : Nat :=
  if who = 0 then 0 else who + before.length

/-- Calls with others in front of them. -/
def behind (before log : List Heard) : List Heard :=
  before ++ log.map (Heard.renumber (numberBehind before))

namespace Desk

variable {σ κ : Type} {L : Listener σ κ} (before : List Heard)

/-- A scope on which other calls were made before. -/
def scopeBehind (scope : Option (Nat × κ)) : Option (Nat × κ) :=
  scope.map fun (who, handle) => (numberBehind before who, handle)

/-- A desk on which other calls were made before. -/
def behind (d : Desk (σ × List Heard) (Nat × κ)) : Desk (σ × List Heard) (Nat × κ) :=
  ⟨(d.state.1, Smali.behind before d.state.2), d.scopes.map (scopeBehind before), d.skipped⟩

end Desk

/-! ## Listeners that decline by the call -/

/-- For every call that opens a scope, it is settled whether the listener listens in that scope. -/
def Listener.OpensBy {σ κ : Type} (L : Listener σ κ) (opens : Call → Bool) : Prop :=
  ∀ handle call state, call.opens?.isSome = true →
    ∃ opened, (L.hear handle call state).outcome = .ok opened ∧ opened.isSome = opens call

section

variable {σ κ σ' κ' : Type} {L : Listener σ κ} {L' : Listener σ' κ'} {opens : Call → Bool}

/-- Two scopes with the same visitor, or without any. -/
def SameVisitor (scope : Option (Nat × κ)) (scope' : Option (Nat × κ')) : Prop :=
  scope.map Prod.fst = scope'.map Prod.fst

/-- Two desks with the same calls so far on the same visitors. -/
structure Desk.Alike (d : Desk (σ × List Heard) (Nat × κ))
    (d' : Desk (σ' × List Heard) (Nat × κ')) : Prop where
  /-- The calls so far. -/
  log : d.state.2 = d'.state.2
  /-- The scopes that are open. -/
  scopes : List.Forall₂ SameVisitor d.scopes d'.scopes

/-- If two listeners decline the same calls, their desks stay alike over a move. -/
theorem Desk.Alike.make (h : L.OpensBy opens) (h' : L'.OpensBy opens)
    {d : Desk (σ × List Heard) (Nat × κ)} {d' : Desk (σ' × List Heard) (Nat × κ')}
    (halike : d.Alike d') {m : Move} (hm : m.Fits) :
    (d.make L.traced m).Alike (d'.make L'.traced m) := by
  obtain ⟨⟨state, log⟩, scopes, skipped⟩ := d
  obtain ⟨⟨state', log'⟩, scopes', skipped'⟩ := d'
  obtain ⟨hlog, hscopes⟩ := halike
  obtain rfl : log = log' := hlog
  dsimp only at hscopes
  cases hscopes with
  | nil =>
    cases m with
    | tell _ | leave => exact ⟨rfl, .nil⟩
    | enter _ | hush => exact ⟨rfl, .cons rfl .nil⟩
  | @cons scope scope' outer outer' hscope houter =>
    cases m with
    | hush => exact ⟨rfl, .cons rfl (.cons hscope houter)⟩
    | leave => exact ⟨rfl, houter⟩
    | tell call =>
      have hopens : call.opens? = none := hm
      obtain _ | ⟨who, handle⟩ := scope <;> obtain _ | ⟨who', handle'⟩ := scope'
      · exact ⟨rfl, .cons hscope houter⟩
      · exact absurd hscope (Option.some_ne_none _).symm
      · exact absurd hscope (Option.some_ne_none _)
      · obtain rfl : who = who' := Option.some.inj hscope
        refine ⟨?_, .cons rfl houter⟩
        simp [Desk.make, Desk.call, Listener.traced, Listener.numberFor, hopens]
    | enter call =>
      obtain _ | ⟨who, handle⟩ := scope <;> obtain _ | ⟨who', handle'⟩ := scope'
      · exact ⟨rfl, .cons rfl (.cons hscope houter)⟩
      · exact absurd hscope (Option.some_ne_none _).symm
      · exact absurd hscope (Option.some_ne_none _)
      · obtain rfl : who = who' := Option.some.inj hscope
        obtain ⟨scope, hopens⟩ := Option.isSome_iff_exists.mp hm
        obtain ⟨opened, ho, hopened⟩ := h handle call state hm
        obtain ⟨opened', ho', hopened'⟩ := h' handle' call state' hm
        rw [← hopened'] at hopened
        obtain _ | child := opened <;> obtain _ | child' := opened'
        case none.some => exact absurd hopened Bool.false_ne_true
        case some.none => exact absurd hopened.symm Bool.false_ne_true
        all_goals
          refine ⟨?_, ?_⟩ <;>
            simp [Desk.make, Desk.call, Listener.traced, Listener.numberFor, hopens, ho, ho',
              Except.map, SameVisitor, houter]

/-- If two listeners decline the same calls, their desks stay alike. -/
theorem Desk.Alike.makeAll (h : L.OpensBy opens) (h' : L'.OpensBy opens)
    {d : Desk (σ × List Heard) (Nat × κ)} {d' : Desk (σ' × List Heard) (Nat × κ')}
    (halike : d.Alike d') {moves : List Move} (hmoves : ∀ m ∈ moves, m.Fits) :
    (d.makeAll L.traced moves).Alike (d'.makeAll L'.traced moves) := by
  induction moves generalizing d d' with
  | nil => exact halike
  | cons m moves ih =>
    rw [List.forall_mem_cons] at hmoves
    exact ih (halike.make h h' hmoves.1) hmoves.2

end

/-! ## Readings -/

section

variable {σ κ : Type} {L : Listener σ κ}

/-- An annotation at the start goes on with the field before it, which then has to be closed. -/
example :
    let accepted := fun source : String =>
      (read ⟨true, true, false, .strict⟩ (Recorder.listener .obliging) (Recorder.root .ofClass)
        .initial source.toList).1.isOk
    accepted ".field f:I\n" = true ∧ accepted ".annotation build LA;\n.end annotation" = true ∧
      accepted ".field f:I\n.annotation build LA;\n.end annotation" = false := by
  decide +kernel

end

end Smali
