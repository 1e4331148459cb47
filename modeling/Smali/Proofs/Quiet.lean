import Smali.Proofs.Footing
import Smali.Proofs.Rehearsal

/-!
# Readings without comments

Whether comments are told changes nothing else in the course of a dialogue. Between the moves that
are made without them, comments are told, and that is all.
-/

namespace Smali

/-- The same options without comments. -/
def Options.quietly (o : Options) : Options := { o with comments := false }

namespace Move

/-- Whether a move tells of a comment. -/
def isComment : Move → Bool
  | .tell call => call.isComment
  | _ => false

/-- Whether a move goes into a scope if its call opens one, and only then. -/
def Fits : Move → Prop
  | .tell call => call.opens? = none
  | .enter call => call.opens?.isSome = true
  | .hush | .leave => True

end Move

/-- A call that opens a scope tells of no comment. -/
theorem Call.isComment_of_opens? {call : Call} (h : call.opens?.isSome = true) :
    call.isComment = false := by
  cases call <;> first | rfl | exact absurd h Bool.false_ne_true

/-- A call that tells of a comment opens no scope. -/
theorem Call.opens?_of_isComment {call : Call} (h : call.isComment = true) :
    call.opens? = none := by
  cases call <;> first | rfl | exact absurd h Bool.false_ne_true

namespace Dialogue

variable {α : Type} {Q : α → Footing → Prop} {d : Dialogue α} {s : Footing}

/-- Without comments a dialogue takes the same course, and only the moves that tell of comments
are missing. -/
theorem Heeds.rehearse_quietly (h : d.Heeds Q s) (o : Options) :
    d.rehearse o.quietly =
      { d.rehearse o with moves := (d.rehearse o).moves.filter fun m => !m.isComment } := by
  induction d generalizing s with
  | done a => rfl
  | halt fault => rfl
  | act first next ih =>
    have hstop : first.stop? o.quietly = first.stop? o := by cases first <;> rfl
    have hfirst : first.moves o.quietly = (first.moves o).filter fun m => !m.isComment := by
      cases first with
      | tell call =>
        have hcall : call.isComment = false := h.1.2.2
        simp [Act.moves, Move.isComment, hcall]
      | remark call =>
        have hcall : call.isComment = true := h.1.2
        cases hcomments : o.comments <;>
          simp [Act.moves, Options.quietly, hcomments, Move.isComment, hcall]
      | _ => rfl
    simp only [rehearse, hstop]
    cases first.stop? o with
    | some fault => rfl
    | none =>
      dsimp only
      rw [ih none (h.2 none (.inl rfl)), Rehearsal.after, hfirst]
      simp only [Rehearsal.after, List.filter_append]

/-- The moves of a dialogue go into a scope where a call opens one. -/
theorem Heeds.fits_of_mem (h : d.Heeds Q s) (o : Options) :
    ∀ m ∈ (d.rehearse o).moves, m.Fits := by
  induction d generalizing s with
  | done a => exact List.forall_mem_nil _
  | halt fault => exact List.forall_mem_nil _
  | act first next ih =>
    have hfirst : ∀ m ∈ first.moves o, m.Fits := by
      cases first with
      | tell call => exact List.forall_mem_singleton.mpr h.1.2.1
      | remark call =>
        have hcall : call.opens? = none := Call.opens?_of_isComment h.1.2
        simp only [Act.moves]
        split
        · exact List.forall_mem_singleton.mpr hcall
        · exact List.forall_mem_nil _
      | enter call => exact List.forall_mem_singleton.mpr h.1.2
      | hush => exact List.forall_mem_singleton.mpr trivial
      | leave => exact List.forall_mem_singleton.mpr trivial
      | excuse fault => exact List.forall_mem_nil _
      | require holds fault => exact List.forall_mem_nil _
    simp only [rehearse]
    cases first.stop? o with
    | some fault => exact List.forall_mem_nil _
    | none => exact List.forall_mem_append.mpr ⟨hfirst, ih none (h.2 none (.inl rfl))⟩

end Dialogue

end Smali
