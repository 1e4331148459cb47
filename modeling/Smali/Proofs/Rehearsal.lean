import Smali.Listener.Recorder
import Smali.Reader.Desk

/-!
# Rehearsals

A listener that never fails receives every act well, and so the course of a dialogue
before it depends on the options alone. A rehearsal goes through a dialogue without any
listener. It notes the moves that a desk has to make, the faults that are skipped over,
and how the dialogue ends. To conduct the dialogue is to make the moves of its rehearsal.
-/

namespace Smali

/-- A listener that replies to no call with a fault. -/
def Listener.NeverFails {σ κ : Type} (L : Listener σ κ) : Prop :=
  ∀ handle call state, ∃ opened, (L.hear handle call state).outcome = .ok opened

/-- A recorder that is to raise no fault never fails. -/
theorem Recorder.listener_neverFails {script : Recorder.Script} (h : script.failure = none) :
    (Recorder.listener script).NeverFails := by
  intro handle call state
  simp only [Recorder.listener, Recorder.hear, Recorder.Script.fault?, h]
  exact ⟨_, rfl⟩

/-- What a desk does for an act, once the options have had their say. -/
inductive Move where
  /-- Makes a call in the innermost scope. -/
  | tell (call : Call)
  /-- Makes a call that opens a scope and goes into it. -/
  | enter (call : Call)
  /-- Goes into a scope that nobody hears. -/
  | hush
  /-- Goes back to the scope around. -/
  | leave

namespace Act

/-- The moves of an act. -/
def moves (o : Options) : Act → List Move
  | .tell call => [.tell call]
  | .remark call => if o.comments then [.tell call] else []
  | .enter call => [.enter call]
  | .hush => [.hush]
  | .leave => [.leave]
  | .excuse _ | .require _ _ => []

/-- The fault with which an act ends the dialogue, if it does. -/
def stop? (o : Options) : Act → Option Fault
  | .excuse fault => if o.errors = .ignore ∧ fault.kind.isRecoverable then none else some fault
  | .require holds fault => if o.validate && !holds then some fault else none
  | _ => none

/-- The faults that are skipped over with an act that does not end the dialogue. -/
def skips : Act → List Fault
  | .excuse fault => [fault]
  | _ => []

end Act

/-- The course of a dialogue before a listener that never fails. -/
structure Rehearsal (α : Type) where
  /-- The moves in order. -/
  moves : List Move
  /-- The faults that are skipped over, in order. -/
  skipped : List Fault
  /-- How the dialogue ends. -/
  result : Except Fault α

namespace Rehearsal

variable {α β : Type}

/-- A rehearsal with moves and skipped faults in front. -/
def after (moves : List Move) (skipped : List Fault) (r : Rehearsal α) : Rehearsal α :=
  ⟨moves ++ r.moves, skipped ++ r.skipped, r.result⟩

/-- One rehearsal, and another one that goes on with its result. -/
def andThen (r : Rehearsal α) (f : α → Rehearsal β) : Rehearsal β :=
  match r.result with
  | .ok a => (f a).after r.moves r.skipped
  | .error fault => ⟨r.moves, r.skipped, .error fault⟩

/-- Moves in front of a rehearsal stay in front of what goes on with its result. -/
theorem after_andThen (moves : List Move) (skipped : List Fault) (r : Rehearsal α)
    (f : α → Rehearsal β) : (r.after moves skipped).andThen f = (r.andThen f).after moves skipped := by
  unfold andThen after
  cases r.result with
  | ok a => simp only [List.append_assoc]
  | error fault => rfl

end Rehearsal

namespace Dialogue

variable {α β : Type}

/-- Goes through a dialogue as if every act were received well. -/
def rehearse (o : Options) : Dialogue α → Rehearsal α
  | .done a => ⟨[], [], .ok a⟩
  | .halt fault => ⟨[], [], .error fault⟩
  | .act first next =>
    match first.stop? o with
    | some fault => ⟨[], [], .error fault⟩
    | none => ((next none).rehearse o).after (first.moves o) first.skips

/-- The rehearsal of two dialogues in a row. -/
theorem rehearse_bind (o : Options) (d : Dialogue α) (f : α → Dialogue β) :
    (d >>= f).rehearse o = (d.rehearse o).andThen fun a => (f a).rehearse o := by
  change (d.bind f).rehearse o = _
  induction d with
  | done a => rfl
  | halt fault => rfl
  | act first next ih =>
    simp only [bind, rehearse]
    cases first.stop? o with
    | some fault => rfl
    | none =>
      dsimp only
      rw [ih none, Rehearsal.after_andThen]

end Dialogue

namespace Desk

variable {σ κ : Type}

/-- Makes a move. -/
def make (L : Listener σ κ) (d : Desk σ κ) : Move → Desk σ κ
  | .tell call => (d.call L call).2
  | .enter call =>
    match d.call L call with
    | (.ok opened, d) => { d with scopes := opened :: d.scopes }
    | (.error _, d) => d
  | .hush => { d with scopes := none :: d.scopes }
  | .leave => { d with scopes := d.scopes.tail }

/-- Makes moves one after another. -/
def makeAll (L : Listener σ κ) (d : Desk σ κ) (moves : List Move) : Desk σ κ :=
  moves.foldl (make L) d

/-- Moves in two portions. -/
theorem makeAll_append (L : Listener σ κ) (d : Desk σ κ) (first second : List Move) :
    d.makeAll L (first ++ second) = (d.makeAll L first).makeAll L second :=
  List.foldl_append

/-- Notes faults that were skipped over. -/
def note (d : Desk σ κ) (faults : List Fault) : Desk σ κ :=
  { d with skipped := faults.reverse ++ d.skipped }

/-- Moves do not depend on the faults that were skipped over before. -/
theorem make_note (L : Listener σ κ) (d : Desk σ κ) (faults : List Fault) (m : Move) :
    (d.note faults).make L m = (d.make L m).note faults := by
  obtain ⟨state, scopes, skipped⟩ := d
  cases m with
  | tell call => rcases scopes with _ | ⟨_ | handle, outer⟩ <;> rfl
  | enter call =>
    rcases scopes with _ | ⟨_ | handle, outer⟩
    · rfl
    · rfl
    · simp only [make, Desk.call, note]
      cases (L.hear handle call state).outcome <;> rfl
  | hush => rfl
  | leave => rfl

/-- The same for moves one after another. -/
theorem makeAll_note (L : Listener σ κ) (d : Desk σ κ) (faults : List Fault) (moves : List Move) :
    (d.note faults).makeAll L moves = (d.makeAll L moves).note faults := by
  unfold makeAll
  induction moves generalizing d with
  | nil => rfl
  | cons m moves ih => rw [List.foldl_cons, List.foldl_cons, make_note, ih]

/-- Moves leave the faults that were skipped over as they are. -/
theorem makeAll_skipped (L : Listener σ κ) (d : Desk σ κ) (moves : List Move) :
    (d.makeAll L moves).skipped = d.skipped := by
  have hcall : ∀ (d : Desk σ κ) call, (d.call L call).2.skipped = d.skipped := by
    intro d call
    unfold Desk.call
    split <;> rfl
  unfold makeAll
  induction moves generalizing d with
  | nil => rfl
  | cons m moves ih =>
    rw [List.foldl_cons, ih]
    cases m with
    | tell call => exact hcall d call
    | enter call =>
      rw [← hcall d call]
      simp only [make]
      rcases d.call L call with ⟨fault | opened, d'⟩ <;> rfl
    | hush => rfl
    | leave => rfl

/-- Faults can be noted in two portions. -/
theorem note_note (d : Desk σ κ) (first second : List Fault) :
    (d.note first).note second = d.note (first ++ second) := by
  simp only [note, List.reverse_append, List.append_assoc]

/-- The moves of an act are what a desk does for it, unless the act ends the dialogue. -/
theorem receive_eq (o : Options) {L : Listener σ κ} (hL : L.NeverFails) (a : Act)
    (d : Desk σ κ) :
    d.receive o L a =
      match a.stop? o with
      | some fault => .final fault d
      | none => .onward none ((d.makeAll L (a.moves o)).note a.skips) := by
  have hcall : ∀ call, ∃ opened d', d.call L call = (.ok opened, d') := by
    intro call
    rcases hs : d.scopes with _ | ⟨_ | handle, outer⟩
    · exact ⟨none, d, by simp only [Desk.call, hs]⟩
    · exact ⟨none, d, by simp only [Desk.call, hs]⟩
    · obtain ⟨opened, ho⟩ := hL handle call d.state
      exact ⟨opened, _, by simp only [Desk.call, hs, ho]; rfl⟩
  cases a with
  | tell call =>
    obtain ⟨opened, d', h⟩ := hcall call
    simp [receive, Desk.tell, Act.stop?, Act.moves, Act.skips, makeAll, make, note, h]
  | remark call =>
    obtain ⟨opened, d', h⟩ := hcall call
    cases hc : o.comments <;>
      simp [receive, Desk.tell, Act.stop?, Act.moves, Act.skips, makeAll, make, note, h, hc]
  | enter call =>
    obtain ⟨opened, d', h⟩ := hcall call
    simp [receive, Desk.enter, Act.stop?, Act.moves, Act.skips, makeAll, make, note, h]
  | hush => rfl
  | leave => rfl
  | excuse fault =>
    simp only [receive, Desk.excuse, Act.stop?, Act.moves, Act.skips]
    split <;> rfl
  | require holds fault =>
    simp only [receive, Act.stop?, Act.moves, Act.skips]
    split <;> rfl

end Desk

/-- Conducted before a listener that never fails, a dialogue ends as in its rehearsal, and
the desk has made the moves and noted the faults of the rehearsal. -/
theorem Dialogue.conduct_eq {σ κ α : Type} (o : Options) {L : Listener σ κ} (hL : L.NeverFails)
    (dialogue : Dialogue α) (d : Desk σ κ) :
    dialogue.conduct o L d =
      ((dialogue.rehearse o).result,
        (d.makeAll L (dialogue.rehearse o).moves).note (dialogue.rehearse o).skipped) := by
  induction dialogue generalizing d with
  | done a => rfl
  | halt fault => rfl
  | act first next ih =>
    simp only [conduct, rehearse, Desk.receive_eq o hL]
    cases first.stop? o with
    | some fault => rfl
    | none =>
      dsimp only [Rehearsal.after]
      rw [ih none, Desk.makeAll_note, Desk.note_note]
      rw [Desk.makeAll_append]

end Smali
