import Smali.Proofs.ReaderFooting
import Smali.Proofs.Trace

/-!
# Readings that checks cut short

Semantic checks lead to nothing but an end. A reading that makes them takes the same course as
one that does not, act by act, up to the first condition that fails; there it ends, with a fault
that is never skipped over. This does not depend on the listener, which may fail as it likes.
-/

namespace Smali

/-! ## What a desk only adds to -/

namespace Desk

variable {σ κ : Type}

/-- A desk that has gone on from another one: calls were added to the list, and faults to those
that were skipped over. -/
structure GoesOn (d d' : Desk (σ × List Heard) (Nat × κ)) : Prop where
  /-- The calls so far stay the first ones. -/
  heard : d.state.2 <+: d'.state.2
  /-- The diagnostics so far stay the first ones. -/
  diagnostics : d.diagnostics <+: d'.diagnostics

/-- Nothing was added. -/
theorem GoesOn.refl (d : Desk (σ × List Heard) (Nat × κ)) : d.GoesOn d :=
  ⟨List.prefix_rfl, List.prefix_rfl⟩

/-- Going on twice. -/
theorem GoesOn.trans {d d' d'' : Desk (σ × List Heard) (Nat × κ)} (h : d.GoesOn d')
    (h' : d'.GoesOn d'') : d.GoesOn d'' :=
  ⟨h.heard.trans h'.heard, h.diagnostics.trans h'.diagnostics⟩

/-- With a call, and whatever becomes of the scopes behind it. -/
theorem goesOn_call (L : Listener σ κ) (call : Call) (d : Desk (σ × List Heard) (Nat × κ))
    (scopes : List (Option (Nat × κ))) :
    d.GoesOn { (d.call L.traced call).2 with scopes := scopes } := by
  obtain ⟨⟨state, heard⟩, _ | ⟨_ | handle, outer⟩, skipped⟩ := d
  · exact ⟨List.prefix_rfl, List.prefix_rfl⟩
  · exact ⟨List.prefix_rfl, List.prefix_rfl⟩
  · exact ⟨List.prefix_append heard _, List.prefix_rfl⟩

end Desk

namespace Reception

variable {σ κ : Type}

/-- The desk after an act, also where it was the last one. -/
def desk : Reception σ κ → Desk σ κ
  | .onward _ d => d
  | .final _ d => d

end Reception

namespace Desk

variable {σ κ : Type}

/-- With any act. -/
theorem goesOn_receive (o : Options) (L : Listener σ κ) (a : Act)
    (d : Desk (σ × List Heard) (Nat × κ)) : d.GoesOn (d.receive o L.traced a).desk := by
  have htell : ∀ call, d.GoesOn (d.tell L.traced call).desk := by
    intro call
    have hcall := goesOn_call L call d (d.call L.traced call).2.scopes
    unfold tell
    generalize d.call L.traced call = r at hcall ⊢
    obtain ⟨fault | opened, d'⟩ := r <;> exact hcall
  cases a with
  | tell call => exact htell call
  | remark call =>
    simp only [receive]
    split
    · exact htell call
    · exact .refl d
  | enter call =>
    have hcall := goesOn_call L call d
    simp only [receive, enter]
    generalize d.call L.traced call = r at hcall ⊢
    obtain ⟨fault | opened, d'⟩ := r
    · exact hcall d'.scopes
    · exact hcall (opened :: d'.scopes)
  | hush => exact ⟨List.prefix_rfl, List.prefix_rfl⟩
  | leave => exact ⟨List.prefix_rfl, List.prefix_rfl⟩
  | excuse fault =>
    simp only [receive, excuse]
    split
    · refine ⟨List.prefix_rfl, ?_⟩
      simp only [diagnostics, Reception.desk, List.reverse_cons]
      exact List.prefix_append _ _
    · exact .refl d
  | require holds fault =>
    simp only [receive]
    split <;> exact .refl d

/-- Only a call is received with a fault to deal with. -/
theorem isCall_of_receive {o : Options} {L : Listener σ κ} {a : Act} {d d' : Desk σ κ}
    {received : Option Fault} (h : d.receive o L a = .onward received d') :
    received = none ∨ a.isCall = true := by
  cases a with
  | tell call => exact .inr rfl
  | remark call => exact .inr rfl
  | enter call => exact .inr rfl
  | hush | leave =>
    cases h
    exact .inl rfl
  | excuse fault =>
    simp only [receive, excuse] at h
    split at h <;> cases h
    exact .inl rfl
  | require holds fault =>
    simp only [receive] at h
    split at h <;> cases h
    exact .inl rfl

end Desk

/-- With a whole dialogue. -/
theorem Dialogue.goesOn_conduct {σ κ α : Type} (o : Options) (L : Listener σ κ)
    (dialogue : Dialogue α) (d : Desk (σ × List Heard) (Nat × κ)) :
    d.GoesOn (dialogue.conduct o L.traced d).2 := by
  induction dialogue generalizing d with
  | done a => exact .refl d
  | halt fault => exact .refl d
  | act first next ih =>
    have hfirst := Desk.goesOn_receive o L first d
    unfold conduct
    cases h : d.receive o L.traced first with
    | onward received d' =>
      rw [h] at hfirst
      exact hfirst.trans (ih received d')
    | final fault d' =>
      rw [h] at hfirst
      exact hfirst

/-! ## With checks and without -/

/-- How a dialogue with checks compares to the same dialogue without them. -/
inductive CutsShort {σ κ α : Type} :
    Except Fault α × Desk (σ × List Heard) (Nat × κ) →
      Except Fault α × Desk (σ × List Heard) (Nat × κ) → Prop where
  /-- All conditions hold, and there is no difference. -/
  | same (r : Except Fault α × Desk (σ × List Heard) (Nat × κ)) : CutsShort r r
  /-- A condition fails, and what was done so far is the beginning of the other course. -/
  | cut {fault : Fault} (hkind : fault.kind = .validation)
    {d d' : Desk (σ × List Heard) (Nat × κ)} (h : d.GoesOn d') (result : Except Fault α) :
    CutsShort (.error fault, d) (result, d')

/-- An act that states no condition is received in the same way. -/
theorem Desk.receive_validate {σ κ : Type} (o : Options) (L : Listener σ κ) {a : Act}
    (h : ∀ holds fault, a ≠ .require holds fault) (d : Desk σ κ) (validate : Bool) :
    d.receive { o with validate := validate } L a = d.receive o L a := by
  cases a with
  | require holds fault => exact absurd rfl (h holds fault)
  | _ => rfl

/-- A dialogue that heeds its footing, with checks and without. -/
theorem Dialogue.Heeds.cutsShort {σ κ α : Type} {Q : α → Footing → Prop} (o : Options)
    (L : Listener σ κ) {dialogue : Dialogue α} {s : Footing} (h : dialogue.Heeds Q s)
    (d : Desk (σ × List Heard) (Nat × κ)) :
    CutsShort (dialogue.conduct { o with validate := true } L.traced d)
      (dialogue.conduct { o with validate := false } L.traced d) := by
  induction dialogue generalizing s d with
  | done a => exact .same _
  | halt fault => exact .same _
  | act first next ih =>
    by_cases hrequire : ∃ holds fault, first = .require holds fault
    · obtain ⟨holds, fault, rfl⟩ := hrequire
      have hkind : fault.kind = .validation := h.1.2
      cases holds with
      | true => exact ih none (h.2 none (.inl rfl)) d
      | false => exact .cut hkind (goesOn_conduct _ L (next none) d) _
    · have hfirst : ∀ validate, d.receive { o with validate := validate } L.traced first =
          d.receive o L.traced first :=
        Desk.receive_validate o L.traced (fun holds fault heq => hrequire ⟨holds, fault, heq⟩) d
      simp only [conduct, hfirst]
      cases hreceive : d.receive o L.traced first with
      | onward received d' =>
        exact ih received (h.2 received (Desk.isCall_of_receive hreceive)) d'
      | final fault d' => exact .same _

/-- Semantic checks only cut a reading short: with them it is the same as without, or it ends
with a failed check, and its calls and its diagnostics are the first of those of the other. -/
theorem checks_only_cut_short {σ κ : Type} (o : Options) (L : Listener σ κ) (root : κ) (state : σ)
    (source : Text) :
    callsOf { o with validate := true } L root state source =
          callsOf { o with validate := false } L root state source ∧
        (read { o with validate := true } L root state source).2.diagnostics =
          (read { o with validate := false } L root state source).2.diagnostics ∧
        (read { o with validate := true } L root state source).1 =
          (read { o with validate := false } L root state source).1 ∨
      ∃ fault, (read { o with validate := true } L root state source).1 = .error fault ∧
        fault.kind = .validation ∧
        callsOf { o with validate := true } L root state source <+:
          callsOf { o with validate := false } L root state source ∧
        (read { o with validate := true } L root state source).2.diagnostics <+:
          (read { o with validate := false } L root state source).2.diagnostics := by
  have hcut : CutsShort (readTraced { o with validate := true } L root state source)
      (readTraced { o with validate := false } L root state source) :=
    (dialogue_heeds o source).cutsShort o L (.initial (0, root) (state, []))
  have hdiagnostics : ∀ d : Desk (σ × List Heard) (Nat × κ),
      d.untraced.diagnostics = d.diagnostics := fun _ => rfl
  simp only [callsOf, read_untraced, hdiagnostics]
  generalize readTraced { o with validate := true } L root state source = checked at hcut ⊢
  generalize readTraced { o with validate := false } L root state source = unchecked at hcut ⊢
  cases hcut with
  | same => exact .inl ⟨rfl, rfl, rfl⟩
  | cut hkind h => exact .inr ⟨_, rfl, hkind, h.heard, h.diagnostics⟩

end Smali
