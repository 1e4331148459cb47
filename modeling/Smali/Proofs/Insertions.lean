import Smali.Proofs.DialogueLaws
import Smali.Proofs.KindredReading
import Smali.Proofs.Renumbering

/-!
# Lines put between others

A reader that comes to some point of a source goes on from there with the lines that follow, so two
sources that begin alike and end alike are compared by what stands between. If the lines in between
lead the reader through the same moves to where it stands alike, then the two readings make the same
calls and end alike, and their diagnostics differ by those of the lines in between. The lines behind
have other numbers, and nothing else of them changes.
-/

namespace Smali

open scoped Dialogue.Laws

/-! ## Readings in two parts -/

namespace Dialogue

variable {α β : Type} {o : Options} {d : Dialogue α} {f : α → Dialogue β} {a : α}

/-- What goes on with the result that a dialogue comes to when all goes well. -/
theorem rehearse_bind_of_ok {moves : List Move} {skipped : List Fault}
    (h : d.rehearse o = ⟨moves, skipped, .ok a⟩) :
    (d >>= f).rehearse o = ((f a).rehearse o).after moves skipped := by
  rw [rehearse_bind, h]
  rfl

/-- The result of it. -/
theorem result_bind_of_ok (h : (d.rehearse o).result = .ok a) :
    ((d >>= f).rehearse o).result = ((f a).rehearse o).result := by
  rw [rehearse_bind, Rehearsal.andThen, h]
  rfl

end Dialogue

namespace Control

/-- The dialogue over some lines, up to the point behind them. -/
def takeLines (c : Control) : List (Except Fault Line) → Dialogue Control
  | [] => return c
  | .error fault :: rest => do
    Dialogue.excuse fault
    c.takeLines rest
  | .ok line :: rest => do
    let c ← c.take line
    c.takeLines rest

/-- Lines are read, and from the point behind them the others. -/
theorem readLines_append (c : Control) (first rest : List (Except Fault Line)) :
    c.readLines (first ++ rest) = c.takeLines first >>= fun c => c.readLines rest := by
  induction first generalizing c with
  | nil => rfl
  | cons line first ih =>
    cases line with
    | error fault =>
      simp only [List.cons_append, readLines, takeLines, ih, bind_assoc]
    | ok l =>
      simp only [List.cons_append, readLines, takeLines, ih, bind_assoc]

/-- The same for the point behind both. -/
theorem takeLines_append (c : Control) (first rest : List (Except Fault Line)) :
    c.takeLines (first ++ rest) = c.takeLines first >>= fun c => c.takeLines rest := by
  induction first generalizing c with
  | nil => rfl
  | cons line first ih =>
    cases line with
    | error fault =>
      simp only [List.cons_append, takeLines, ih, bind_assoc]
    | ok l =>
      simp only [List.cons_append, takeLines, ih, bind_assoc]

/-- Lines that are read alike lead to points where the readers stand alike. -/
theorem Akin.takeLines {K : Kinship} {o : Options} {c c' : Control} (hc : c.Akin K o c')
    {lines lines' : List (Except Fault Line)}
    (h : List.Forall₂ (K.Outcomes (Line.Akin K o)) lines lines') :
    Dialogue.Akin K o (Control.Akin K o) (c.takeLines lines) (c'.takeLines lines') := by
  induction h generalizing c c' with
  | nil => exact Dialogue.akin_pure hc
  | cons hline _ ih =>
    cases hline with
    | ok hl => exact (Control.Akin.take hl hc).bind fun _ _ hc => ih hc
    | error hfaults => exact (Dialogue.akin_excuse hfaults).next fun _ => ih hc

end Control

/-! ## Points of a source -/

/-- The reader that came to some point of a source goes on from there. -/
theorem read_from_point {σ κ : Type} {o : Options} {L : Listener σ κ} {root : κ} {state : σ}
    {source : Text} {before rest : List Text} {c : Control} {desk : Desk σ κ}
    (hsource : Text.lines source = before ++ rest)
    (hreach : ((Control.initial o).takeLines (scanFrom 1 before)).conduct o L
      (.initial root state) = (.ok c, desk)) :
    read o L root state source =
      (c.readLines (scanFrom (before.length + 1) rest)).conduct o L desk := by
  rw [read, dialogue, scanLines_eq, hsource, scanFrom_append, Control.readLines_append,
    Dialogue.conduct_bind, hreach, Nat.add_comm 1]

/-- A reader comes to a point behind some lines at the start of a source, if nobody fails. -/
def Reaches (o : Options) (before : List Text) (c : Control) : Prop :=
  (((Control.initial o).takeLines (scanFrom 1 before)).rehearse o).result = .ok c

/-- Numbers that leave the lines up to a point as they are leave the reader there as it is. -/
theorem Reaches.akin {f : Nat → Nat} {o : Options} {before : List Text} {c : Control}
    (h : Reaches o before c) (hf : ∀ number ≤ before.length, f number = number) :
    c.Akin (.renumbered f) o c := by
  have hlines := scanFrom_renumber (f := f) o 1 1 before fun i hi => hf _ (by omega)
  have hakin := (Control.akin_initial.takeLines hlines).result
  rw [h] at hakin
  cases hakin with
  | ok hc => exact hc

/-- The rehearsal of a source in three parts. -/
theorem rehearse_dialogue {o : Options} {source : Text} {before mid after : List Text}
    {c c₁ : Control} {moves₀ moves : List Move} {earlier faults : List Fault}
    (hsource : Text.lines source = before ++ (mid ++ after))
    (hreach : ((Control.initial o).takeLines (scanFrom 1 before)).rehearse o =
      ⟨moves₀, earlier, .ok c⟩)
    (hmid : (c.takeLines (scanFrom (before.length + 1) mid)).rehearse o = ⟨moves, faults, .ok c₁⟩) :
    (dialogue o source).rehearse o =
      (((c₁.readLines (scanFrom (before.length + 1 + mid.length) after)).rehearse o).after moves
        faults).after moves₀ earlier := by
  rw [dialogue, scanLines_eq, hsource, scanFrom_append, scanFrom_append, Nat.add_comm 1,
    Control.readLines_append, Dialogue.rehearse_bind_of_ok hreach, Control.readLines_append,
    Dialogue.rehearse_bind_of_ok hmid]

/-- Two sources have the same lines at the start and the same lines at the end. If the lines between
make the same moves and lead to points where the reader stands alike, then the calls are the same,
both readings come to their end or to the same fault, and the diagnostics are the same but for those
of the lines between. The numbers of the lines at the end are replaced. -/
theorem readings_around {f : Nat → Nat} {o : Options} {source source' : Text}
    {before mid mid' after : List Text} {c c₁ c₁' : Control} {moves : List Move}
    {faults faults' : List Fault} (hsource : Text.lines source = before ++ (mid ++ after))
    (hsource' : Text.lines source' = before ++ (mid' ++ after)) (hreach : Reaches o before c)
    (hmid : (c.takeLines (scanFrom (before.length + 1) mid)).rehearse o = ⟨moves, faults, .ok c₁⟩)
    (hmid' : (c.takeLines (scanFrom (before.length + 1) mid')).rehearse o =
      ⟨moves, faults', .ok c₁'⟩)
    (hakin : c₁.Akin (.renumbered f) o c₁')
    (hf : ∀ i, f (before.length + 1 + mid.length + i) = before.length + 1 + mid'.length + i)
    {σ κ : Type} {L : Listener σ κ} (hL : L.NeverFails) (root : κ) (state : σ) :
    callsOf o L root state source' = callsOf o L root state source ∧
      (read o L root state source').1 = (read o L root state source).1.mapError (Fault.renumber f) ∧
      ∃ earlier later,
        (read o L root state source).2.diagnostics = earlier ++ (faults ++ later) ∧
        (read o L root state source').2.diagnostics =
          earlier ++ (faults' ++ later.map (Fault.renumber f)) := by
  obtain ⟨moves₀, earlier, hbefore⟩ : ∃ moves earlier,
      ((Control.initial o).takeLines (scanFrom 1 before)).rehearse o = ⟨moves, earlier, .ok c⟩ :=
    ⟨_, _, congrArg (Rehearsal.mk _ _) hreach⟩
  have hafter := scanFrom_renumber (f := f) o _ _ after fun i _ => hf i
  obtain ⟨hmoves, hskipped, hresult⟩ := hakin.readLines hafter
  rw [callsOf_eq _ _ _ _ hL, callsOf_eq _ _ _ _ hL, read_result _ _ _ _ hL, read_result _ _ _ _ hL,
    read_diagnostics _ _ _ _ hL, read_diagnostics _ _ _ _ hL,
    rehearse_dialogue hsource hbefore hmid, rehearse_dialogue hsource' hbefore hmid']
  dsimp only [Rehearsal.after]
  exact ⟨by rw [hmoves], hresult.eq_of_renumbered, earlier, _, rfl, by
    rw [Kinship.eq_of_renumbered hskipped]⟩

/-- The number of a line when some lines are put behind a point of its source. -/
def lineNumberBehind (point count number : Nat) : Nat :=
  if number ≤ point then number else number + count

/-- Lines that make no moves and lead the reader back to where it stood add nothing to a source but
their diagnostics. -/
theorem readings_of_insertion {o : Options} {source source' : Text} {before block after : List Text}
    {c : Control} {faults : List Fault} (hsource : Text.lines source = before ++ after)
    (hsource' : Text.lines source' = before ++ (block ++ after)) (hreach : Reaches o before c)
    (hblock : (c.takeLines (scanFrom (before.length + 1) block)).rehearse o = ⟨[], faults, .ok c⟩)
    {σ κ : Type} {L : Listener σ κ} (hL : L.NeverFails) (root : κ) (state : σ) :
    let renumber := Fault.renumber (lineNumberBehind before.length block.length)
    callsOf o L root state source' = callsOf o L root state source ∧
      (read o L root state source').1 = (read o L root state source).1.mapError renumber ∧
      ∃ earlier later,
        (read o L root state source).2.diagnostics = earlier ++ later ∧
        (read o L root state source').2.diagnostics =
          earlier ++ (faults ++ later.map renumber) := by
  intro renumber
  have hakin := hreach.akin (f := lineNumberBehind before.length block.length)
    fun number hnumber => if_pos hnumber
  have hbehind : ∀ i, lineNumberBehind before.length block.length
      (before.length + 1 + ([] : List Text).length + i) =
        before.length + 1 + block.length + i := by
    intro i
    simp only [lineNumberBehind, List.length_nil]
    split <;> omega
  have hnothing : Text.lines source = before ++ ([] ++ after) := hsource
  exact readings_around hnothing hsource' hreach rfl hblock hakin hbehind hL root state

end Smali
