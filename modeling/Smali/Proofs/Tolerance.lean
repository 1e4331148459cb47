import Smali.Proofs.Trace

/-!
# Tolerant and strict readings

Whether faults are skipped over has no say in what a reader plans, only in whether a
reading goes on behind a fault. So a strict reading is the start of a tolerant one, up to
the first fault that the tolerant one skips over.
-/

namespace Smali

namespace Options

/-- The same options with the first fault ending the reading. -/
def strictly (o : Options) : Options := { o with errors := .strict }

/-- The same options with faults of noisy input skipped over. -/
def tolerantly (o : Options) : Options := { o with errors := .ignore }

end Options

namespace Act

/-- The moves of an act do not depend on what becomes of faults. -/
theorem moves_strictly (o : Options) (a : Act) : a.moves o.strictly = a.moves o.tolerantly := by
  cases a <;> rfl

/-- An act that is no fault ends both sorts of readings or none. -/
theorem stop?_strictly (o : Options) {a : Act} (h : a.skips = []) :
    a.stop? o.strictly = a.stop? o.tolerantly := by
  cases a with
  | excuse fault => exact absurd h (List.cons_ne_nil _ _)
  | _ => rfl

end Act

/-- The strict rehearsal of a dialogue is the tolerant one up to the first fault that the
tolerant one skips over, and ends with that fault. -/
theorem Dialogue.rehearse_strictly {α : Type} (o : Options) (d : Dialogue α) :
    (d.rehearse o.strictly).moves <+: (d.rehearse o.tolerantly).moves ∧
      ((d.rehearse o.tolerantly).skipped = [] →
        (d.rehearse o.strictly).moves = (d.rehearse o.tolerantly).moves ∧
          (d.rehearse o.strictly).result = (d.rehearse o.tolerantly).result) ∧
      ∀ fault more, (d.rehearse o.tolerantly).skipped = fault :: more →
        (d.rehearse o.strictly).result = .error fault := by
  induction d with
  | done a =>
    exact ⟨List.prefix_rfl, fun _ => ⟨rfl, rfl⟩, fun _ _ h => absurd h (by simp [rehearse])⟩
  | halt fault =>
    exact ⟨List.prefix_rfl, fun _ => ⟨rfl, rfl⟩, fun _ _ h => absurd h (by simp [rehearse])⟩
  | act first next ih =>
    obtain ⟨hstart, hsame, hfirst⟩ := ih none
    by_cases hs : first.skips = []
    · simp only [rehearse, Act.stop?_strictly o hs, Act.moves_strictly]
      cases first.stop? o.tolerantly with
      | some fault =>
        exact ⟨List.prefix_rfl, fun _ => ⟨rfl, rfl⟩, fun _ _ h => absurd h (by simp)⟩
      | none =>
        simp only [Rehearsal.after, hs, List.nil_append]
        refine ⟨(List.prefix_append_right_inj _).mpr hstart, fun h => ?_, hfirst⟩
        exact ⟨congrArg _ (hsame h).1, (hsame h).2⟩
    · cases first with
      | excuse fault =>
        have hstop : (Act.excuse fault).stop? o.strictly = some fault := by
          simp [Act.stop?, Options.strictly]
        simp only [rehearse, hstop]
        by_cases hr : fault.kind.isRecoverable = true
        · have hgo : (Act.excuse fault).stop? o.tolerantly = none := by
            simp [Act.stop?, Options.tolerantly, hr]
          simp only [hgo, Rehearsal.after, Act.skips, List.cons_append, List.nil_append]
          refine ⟨List.nil_prefix, fun h => absurd h (List.cons_ne_nil _ _), ?_⟩
          intro other more h
          rw [(List.cons.inj h).1]
        · have hend : (Act.excuse fault).stop? o.tolerantly = some fault := by
            simp [Act.stop?, Options.tolerantly, hr]
          rw [hend]
          exact ⟨List.prefix_rfl, fun _ => ⟨rfl, rfl⟩, fun _ _ h => absurd h (by simp)⟩
      | _ => exact absurd rfl hs

namespace Desk

variable {σ κ : Type}

/-- A move only adds to the list of calls. -/
theorem heard_prefix_make (L : Listener σ κ) (d : Desk (σ × List Heard) (Nat × κ)) (m : Move) :
    d.state.2 <+: (d.make L.traced m).state.2 := by
  have hcall : ∀ call, d.state.2 <+: (d.call L.traced call).2.state.2 := by
    intro call
    obtain ⟨⟨state, heard⟩, scopes, skipped⟩ := d
    rcases scopes with _ | ⟨_ | handle, outer⟩
    · exact List.prefix_rfl
    · exact List.prefix_rfl
    · exact List.prefix_append heard _
  cases m with
  | tell call => exact hcall call
  | enter call =>
    refine (hcall call).trans ?_
    simp only [make]
    rcases d.call L.traced call with ⟨fault | opened, d'⟩ <;> exact List.prefix_rfl
  | hush => exact List.prefix_rfl
  | leave => exact List.prefix_rfl

/-- More moves only add to the list of calls. -/
theorem heard_prefix_makeAll (L : Listener σ κ) (d : Desk (σ × List Heard) (Nat × κ))
    {first moves : List Move} (h : first <+: moves) :
    (d.makeAll L.traced first).state.2 <+: (d.makeAll L.traced moves).state.2 := by
  obtain ⟨more, rfl⟩ := h
  simp only [makeAll, List.foldl_append]
  generalize first.foldl (make L.traced) d = d
  induction more generalizing d with
  | nil => exact List.prefix_rfl
  | cons m more ih =>
    rw [List.foldl_cons]
    exact (heard_prefix_make L d m).trans (ih (d.make L.traced m))

end Desk

/-- A strict reading makes the first of the calls that a tolerant reading makes. If the
tolerant one skips over no fault, the two are the same; otherwise the strict one ends with
the first fault that the tolerant one skips over. -/
theorem strict_reading_starts_tolerant_one {σ κ : Type} {L : Listener σ κ} (hL : L.NeverFails)
    (o : Options) (root : κ) (state : σ) (source : Text) :
    callsOf { o with errors := .strict } L root state source <+:
        callsOf { o with errors := .ignore } L root state source ∧
      ((read { o with errors := .ignore } L root state source).2.diagnostics = [] →
        callsOf { o with errors := .strict } L root state source =
            callsOf { o with errors := .ignore } L root state source ∧
          (read { o with errors := .strict } L root state source).1 =
            (read { o with errors := .ignore } L root state source).1) ∧
      ∀ fault more,
        (read { o with errors := .ignore } L root state source).2.diagnostics = fault :: more →
        (read { o with errors := .strict } L root state source).1 = .error fault := by
  obtain ⟨hstart, hsame, hfirst⟩ := Dialogue.rehearse_strictly o (dialogue o source)
  have hcalls : ∀ errors, callsOf { o with errors := errors } L root state source =
      ((Desk.initial (0, root) (state, [])).makeAll L.traced
        ((dialogue o source).rehearse { o with errors := errors }).moves).state.2 := fun errors => by
    rw [callsOf, readTraced, read, Dialogue.conduct_eq _ hL.traced]
    rfl
  have hread : ∀ errors, read { o with errors := errors } L root state source =
      (((dialogue o source).rehearse { o with errors := errors }).result,
        ((Desk.initial root state).makeAll L
          ((dialogue o source).rehearse { o with errors := errors }).moves).note
          ((dialogue o source).rehearse { o with errors := errors }).skipped) := fun errors => by
    rw [read, Dialogue.conduct_eq _ hL]
    rfl
  have hdiagnostics : ∀ errors, (read { o with errors := errors } L root state source).2.diagnostics =
      ((dialogue o source).rehearse { o with errors := errors }).skipped := fun errors => by
    rw [hread, Desk.diagnostics, Desk.note, Desk.makeAll_skipped]
    simp [Desk.initial]
  rw [hcalls, hcalls, hdiagnostics, hread, hread]
  refine ⟨Desk.heard_prefix_makeAll L _ hstart, fun h => ?_, hfirst⟩
  exact ⟨congrArg (fun moves => (Desk.makeAll L.traced _ moves).state.2) (hsame h).1, (hsame h).2⟩

/-- A class with a closing line out of place: the tolerant reading goes on behind it, the
strict one ends with the fault. -/
theorem strict_reading_ends_at_stray_end :
    ∃ fault more,
      (read { Options.default with errors := .ignore } (Recorder.listener .obliging)
          (Recorder.root .ofClass) .initial
          ".class La;\n.end field\n.super Lb;\n".toList).2.diagnostics = fault :: more ∧
        (read { Options.default with errors := .strict } (Recorder.listener .obliging)
          (Recorder.root .ofClass) .initial
          ".class La;\n.end field\n.super Lb;\n".toList).1 = .error fault := by
  have hnever : (Recorder.listener .obliging).NeverFails := Recorder.listener_neverFails rfl
  obtain ⟨-, -, hfirst⟩ :=
    strict_reading_starts_tolerant_one hnever
      Options.default (Recorder.root .ofClass) .initial
      ".class La;\n.end field\n.super Lb;\n".toList
  have hlength : (read { Options.default with errors := .ignore } (Recorder.listener .obliging)
      (Recorder.root .ofClass) .initial
      ".class La;\n.end field\n.super Lb;\n".toList).2.diagnostics.length = 1 := by
    decide +kernel
  obtain ⟨fault, hfault⟩ := List.length_eq_one_iff.mp hlength
  exact ⟨fault, [], hfault, hfirst fault [] hfault⟩

end Smali
