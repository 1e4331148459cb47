import Smali.Listener.Call

/-!
# Dialogues

A reader does not speak to a listener itself. It plans a dialogue: a sequence of
acts, in which each act may depend on how the acts before it were received. The
acts always concern the innermost scope that is open. What an act leads to, and
whether comments are told or checks are made at all, is settled by whoever
conducts the dialogue.
-/

namespace Smali

/-- One thing that a reader does. -/
inductive Act where
  /-- Makes a call in the innermost scope. -/
  | tell (call : Call)
  /-- Makes a call that tells of a comment, if comments are wanted. -/
  | remark (call : Call)
  /-- Makes a call that opens a scope and goes into it. -/
  | enter (call : Call)
  /-- Goes into a scope that nobody hears. -/
  | hush
  /-- Goes back to the scope around. -/
  | leave
  /-- Skips over a fault, if that is possible. -/
  | excuse (fault : Fault)
  /-- States a semantic condition, with the fault that stands for its failure. -/
  | require (holds : Bool) (fault : Fault)

/-- A plan of acts that ends with a result or with a fault. After each act it goes
on according to the fault with which the act was received, if any. -/
inductive Dialogue (α : Type) where
  /-- Nothing more to do. -/
  | done (result : α)
  /-- The end, without a result. -/
  | halt (fault : Fault)
  /-- One act, and the plan after it. -/
  | act (first : Act) (next : Option Fault → Dialogue α)

namespace Dialogue

variable {α β : Type}

/-- One plan after another. -/
def bind (d : Dialogue α) (f : α → Dialogue β) : Dialogue β :=
  match d with
  | .done a => f a
  | .halt fault => .halt fault
  | .act first next => .act first fun received => (next received).bind f

instance : Monad Dialogue where
  pure := .done
  bind := bind

/-- An act that is always received well. -/
def perform (a : Act) : Dialogue Unit := .act a fun _ => .done ()

/-- Goes into a scope that nobody hears. -/
def hush : Dialogue Unit := perform .hush

/-- Goes back to the scope around. -/
def leave : Dialogue Unit := perform .leave

/-- Skips over a fault, if that is possible. -/
def excuse (fault : Fault) : Dialogue Unit := perform (.excuse fault)

end Dialogue

/-- A part of a dialogue that a fault may cut short. The fault is not lost: what
becomes of it is up to the scope that the part belongs to. -/
abbrev Passage (α : Type) := ExceptT Fault Dialogue α

namespace Passage

/-- An act that may be received with a fault. -/
def perform (a : Act) : Passage Unit :=
  ExceptT.mk (.act a fun
    | none => .done (.ok ())
    | some fault => .done (.error fault))

/-- Makes a call in the innermost scope. -/
def tell (call : Call) : Passage Unit := perform (.tell call)

/-- Tells of a comment, if there is one. -/
def remark (comment : Option Call) : Passage Unit :=
  match comment with
  | some call => perform (.remark call)
  | none => pure ()

/-- States a semantic condition. -/
def require (holds : Bool) (fault : Fault) : Passage Unit := perform (.require holds fault)

/-- Takes over a result that was found without acts. -/
def ofExcept {α : Type} (result : Except Fault α) : Passage α := ExceptT.mk (.done result)

/-- A passage together with the fault that cuts it short, if one does. -/
def outcome {α : Type} (p : Passage α) : Passage (Except Fault α) := ExceptT.lift p.run

/-- Goes into the scope that a call opens, and tells it the comment that stands
behind the call. After a fault the scope is not open. -/
def enter (call : Call) (comment : Option Call) : Passage Unit := do
  perform (.enter call)
  ExceptT.mk do
    match ← (remark comment).run with
    | .ok () => return .ok ()
    | .error fault =>
      Dialogue.leave
      return .error fault

end Passage

end Smali
