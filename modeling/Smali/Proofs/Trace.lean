import Smali.Proofs.Rehearsal
import Smali.Reader.Run

/-!
# Traces

A traced listener behaves like the listener behind it and keeps a list of all calls in
the order in which they are made. It numbers the visitors, which are the scopes that
someone listens in: the class is number zero, and a visitor that is handed out for a scope
has the number of calls made so far, its opening call included.
-/

namespace Smali

/-- A call with the visitor that heard it. -/
structure Heard where
  /-- The number of the visitor that heard the call. -/
  who : Nat
  /-- The call. -/
  call : Call
  /-- The number of the visitor that was handed out for the scope that the call opens. -/
  opened : Option Nat

namespace Listener

variable {σ κ : Type}

/-- The number that a visitor gets, if a call opens a scope and a visitor is handed out. -/
def numberFor (call : Call) (outcome : Except Fault (Option κ)) (number : Nat) : Option Nat :=
  match call.opens?, outcome with
  | some _, .ok (some _) => some number
  | _, _ => none

/-- A listener that keeps a list of the calls it hears. -/
def traced (L : Listener σ κ) : Listener (σ × List Heard) (Nat × κ) where
  hear := fun (who, handle) call (state, heard) =>
    let r := L.hear handle call state
    let number := heard.length + 1
    ⟨r.outcome.map (·.map fun child => (number, child)), (who, r.self),
      (r.state, heard ++ [⟨who, call, numberFor call r.outcome number⟩])⟩

/-- Keeping a list of the calls makes no listener fail. -/
theorem NeverFails.traced {L : Listener σ κ} (hL : L.NeverFails) : L.traced.NeverFails := by
  intro handle call state
  obtain ⟨opened, h⟩ := hL handle.2 call state.1
  exact ⟨_, by simp only [Listener.traced, h]; rfl⟩

end Listener

namespace Desk

variable {σ κ : Type}

/-- The desk of a traced listener without the list and the numbers. -/
def untraced (d : Desk (σ × List Heard) (Nat × κ)) : Desk σ κ :=
  ⟨d.state.1, d.scopes.map (·.map Prod.snd), d.skipped⟩

/-- A call is heard as without the list. -/
theorem call_untraced (L : Listener σ κ) (call : Call) (d : Desk (σ × List Heard) (Nat × κ)) :
    d.untraced.call L call =
      ((d.call L.traced call).1.map (·.map Prod.snd), (d.call L.traced call).2.untraced) := by
  obtain ⟨⟨state, heard⟩, scopes, skipped⟩ := d
  rcases scopes with _ | ⟨_ | ⟨who, handle⟩, outer⟩
  · rfl
  · rfl
  · simp only [untraced, Desk.call, List.map_cons, Option.map_some, Listener.traced]
    rcases (L.hear handle call state).outcome with fault | _ | child <;> rfl

end Desk

/-- How an act is received, without the list and the numbers. -/
def Reception.untraced {σ κ : Type} :
    Reception (σ × List Heard) (Nat × κ) → Reception σ κ
  | .onward fault desk => .onward fault desk.untraced
  | .final fault desk => .final fault desk.untraced

namespace Desk

variable {σ κ : Type}

/-- A call that opens no scope is received as without the list. -/
theorem tell_untraced (L : Listener σ κ) (call : Call) (d : Desk (σ × List Heard) (Nat × κ)) :
    d.untraced.tell L call = (d.tell L.traced call).untraced := by
  unfold tell
  rw [call_untraced]
  rcases d.call L.traced call with ⟨fault | opened, d'⟩ <;> rfl

/-- Every act is received as without the list. -/
theorem receive_untraced (o : Options) (L : Listener σ κ) (a : Act)
    (d : Desk (σ × List Heard) (Nat × κ)) :
    d.untraced.receive o L a = (d.receive o L.traced a).untraced := by
  cases a with
  | tell call => exact tell_untraced L call d
  | remark call =>
    simp only [receive]
    split
    · exact tell_untraced L call d
    · rfl
  | enter call =>
    simp only [receive, enter]
    rw [call_untraced]
    rcases d.call L.traced call with ⟨fault | _ | opened, d'⟩ <;> rfl
  | hush => rfl
  | leave =>
    obtain ⟨state, scopes, skipped⟩ := d
    cases scopes <;> rfl
  | excuse fault =>
    simp only [receive, excuse]
    split <;> rfl
  | require holds fault =>
    simp only [receive]
    split <;> rfl

end Desk

/-- A dialogue takes the same course whether or not a list of the calls is kept. -/
theorem Dialogue.conduct_untraced {σ κ α : Type} (o : Options) (L : Listener σ κ)
    (dialogue : Dialogue α) (d : Desk (σ × List Heard) (Nat × κ)) :
    dialogue.conduct o L d.untraced =
      ((dialogue.conduct o L.traced d).1, (dialogue.conduct o L.traced d).2.untraced) := by
  induction dialogue generalizing d with
  | done a => rfl
  | halt fault => rfl
  | act first next ih =>
    simp only [conduct, Desk.receive_untraced]
    cases d.receive o L.traced first with
    | onward received desk => exact ih received desk
    | final fault desk => rfl

/-- Reads a source and keeps a list of the calls. -/
def readTraced {σ κ : Type} (o : Options) (L : Listener σ κ) (root : κ) (state : σ)
    (source : Text) : Except Fault Unit × Desk (σ × List Heard) (Nat × κ) :=
  read o L.traced (0, root) (state, []) source

/-- The calls of a reading in order, each with the visitor that heard it. -/
def callsOf {σ κ : Type} (o : Options) (L : Listener σ κ) (root : κ) (state : σ)
    (source : Text) : List Heard :=
  (readTraced o L root state source).2.state.2

/-- Keeping the list changes neither the result nor the diagnostics nor the listener. -/
theorem read_untraced {σ κ : Type} (o : Options) (L : Listener σ κ) (root : κ) (state : σ)
    (source : Text) :
    read o L root state source =
      ((readTraced o L root state source).1, (readTraced o L root state source).2.untraced) :=
  Dialogue.conduct_untraced o L (dialogue o source) (.initial (0, root) (state, []))

section NeverFails

variable {σ κ : Type} (o : Options) {L : Listener σ κ} (root : κ) (state : σ) (source : Text)

/-- Before a listener that never fails, a reading ends as its rehearsal does. -/
theorem read_result (hL : L.NeverFails) :
    (read o L root state source).1 = ((dialogue o source).rehearse o).result := by
  rw [read, Dialogue.conduct_eq o hL]

/-- Its diagnostics are the faults that the rehearsal skips over. -/
theorem read_diagnostics (hL : L.NeverFails) :
    (read o L root state source).2.diagnostics = ((dialogue o source).rehearse o).skipped := by
  rw [read, Dialogue.conduct_eq o hL]
  simp only [Desk.diagnostics, Desk.note, Desk.makeAll_skipped, Desk.initial, List.append_nil,
    List.reverse_reverse]

/-- Its calls are those of the moves of the rehearsal. -/
theorem callsOf_eq (hL : L.NeverFails) :
    callsOf o L root state source =
      ((Desk.initial (0, root) (state, [])).makeAll L.traced
        ((dialogue o source).rehearse o).moves).state.2 := by
  rw [callsOf, readTraced, read, Dialogue.conduct_eq o hL.traced]
  rfl

end NeverFails

end Smali
