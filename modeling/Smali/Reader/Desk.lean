import Smali.Listener.Basic
import Smali.Reader.Dialogue
import Smali.Reader.Options

/-!
# Conducting a dialogue

The desk stands between a dialogue and a listener. It keeps the listener's
state, the handles of the scopes that are open, and the faults that were skipped
over. A scope that was declined is open without a handle, and nothing that is
told in it is heard by anyone.
-/

namespace Smali

/-- What a conducted dialogue works on. -/
structure Desk (σ κ : Type) where
  /-- The state of the listener. -/
  state : σ
  /-- The handle of the innermost scope, and those of the scopes around it. -/
  scopes : List (Option κ)
  /-- The faults that were skipped over, the latest first. -/
  skipped : List Fault

/-- How an act was received: the dialogue goes on, or it is at its end. -/
inductive Reception (σ κ : Type) where
  /-- It goes on, perhaps with a fault to deal with. -/
  | onward (fault : Option Fault) (desk : Desk σ κ)
  /-- It cannot go on. -/
  | final (fault : Fault) (desk : Desk σ κ)

namespace Desk

variable {σ κ : Type}

/-- Before a class is told of, with the handle for it. -/
def initial (root : κ) (state : σ) : Desk σ κ := ⟨state, [some root], []⟩

/-- The faults that were skipped over, in order. -/
def diagnostics (d : Desk σ κ) : List Fault := d.skipped.reverse

/-- The handle for the class itself. -/
def root? (d : Desk σ κ) : Option κ := d.scopes.getLast?.join

/-- Makes a call in the innermost scope. The result is the fault that the call
was received with, or the handle of the scope that it opened. -/
def call (L : Listener σ κ) (c : Call) (d : Desk σ κ) : Except Fault (Option κ) × Desk σ κ :=
  match d.scopes with
  | some handle :: outer =>
    let r := L.hear handle c d.state
    (r.outcome, { d with state := r.state, scopes := some r.self :: outer })
  | _ => (.ok none, d)

/-- Makes a call that opens no scope. -/
def tell (L : Listener σ κ) (c : Call) (d : Desk σ κ) : Reception σ κ :=
  match d.call L c with
  | (.ok _, d) => .onward none d
  | (.error fault, d) => .onward (some fault) d

/-- Makes a call that opens a scope, and goes into it. -/
def enter (L : Listener σ κ) (c : Call) (d : Desk σ κ) : Reception σ κ :=
  match d.call L c with
  | (.ok opened, d) => .onward none { d with scopes := opened :: d.scopes }
  | (.error fault, d) => .onward (some fault) d

/-- Skips over a fault if the options and its kind allow that. -/
def excuse (o : Options) (fault : Fault) (d : Desk σ κ) : Reception σ κ :=
  if o.errors = .ignore ∧ fault.kind.isRecoverable then
    .onward none { d with skipped := fault :: d.skipped }
  else .final fault d

/-- Carries out one act. -/
def receive (o : Options) (L : Listener σ κ) (a : Act) (d : Desk σ κ) : Reception σ κ :=
  match a with
  | .tell c => d.tell L c
  | .remark c => if o.comments then d.tell L c else .onward none d
  | .enter c => d.enter L c
  | .hush => .onward none { d with scopes := none :: d.scopes }
  | .leave => .onward none { d with scopes := d.scopes.tail }
  | .excuse fault => d.excuse o fault
  | .require holds fault => if o.validate && !holds then .final fault d else .onward none d

end Desk

/-- Conducts a dialogue to its end. -/
def Dialogue.conduct {σ κ α : Type} (o : Options) (L : Listener σ κ) :
    Dialogue α → Desk σ κ → Except Fault α × Desk σ κ
  | .done a, d => (.ok a, d)
  | .halt fault, d => (.error fault, d)
  | .act first next, d =>
    match d.receive o L first with
    | .onward received d => (next received).conduct o L d
    | .final fault d => (.error fault, d)

end Smali
