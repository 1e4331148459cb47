import Smali.Listener.Recorder
import Smali.Proofs.KindredReading
import Smali.Proofs.Recovery
import Smali.Proofs.Snippets

/-!
# Layout does not matter

A line is read without the blanks around it, wherever it stands, and a blank line is not read at
all. So two sources with the same code lines have the same lines up to places, whatever their
indentation, their line ends and their blank lines are. A line that cannot be scanned in one of them
cannot be scanned in the other, and the fault is a lexical one in both. Then the two readings go
alike, and they differ in nothing but the places and the words of their faults.
-/

namespace Smali

/-- Lines of which the same is seen are read alike. -/
theorem Line.akin_of_seen (o : Options) {l l' : Line} (h : l.seen = l'.seen) :
    l.Akin .byKind o l' := by
  obtain ⟨hline, hwords⟩ := Prod.mk.inj h
  refine ⟨congrArg Line.code hline, (congrArg (·.text) hline :), ?_, fun _ => hwords, trivial⟩
  rw [← l.isComment_unplaced, hline, l'.isComment_unplaced]

/-- Scanned lines of which the same is seen are read alike, if their faults are those of the
scanner. -/
theorem outcomes_of_seen (o : Options) {r r' : Except Fault Line}
    (h : r.toOption.map Line.seen = r'.toOption.map Line.seen)
    (hr : ∀ fault, r = .error fault → fault.kind = .lexical)
    (hr' : ∀ fault, r' = .error fault → fault.kind = .lexical) :
    Kinship.byKind.Outcomes (Line.Akin .byKind o) r r' := by
  cases r with
  | ok l =>
    cases r' with
    | ok l' => exact .ok (Line.akin_of_seen o (Option.some.inj h))
    | error fault' => exact absurd h (Option.some_ne_none _)
  | error fault =>
    cases r' with
    | ok l' => exact absurd h (Option.some_ne_none _).symm
    | error fault' => exact .error ((hr fault rfl).trans (hr' fault' rfl).symm)

/-- Sources with the same code lines have lines that are read alike, one by one. -/
theorem scanLines_akin (o : Options) {source source' : Text}
    (h : Text.codeLines source = Text.codeLines source') :
    List.Forall₂ (Kinship.byKind.Outcomes (Line.Akin .byKind o)) (scanLines source)
      (scanLines source') := by
  have hseen := seen_scanLines source
  rw [h, ← seen_scanLines source', List.map_map, List.map_map, ← List.forall₂_eq_eq_eq,
    List.forall₂_map_left_iff, List.forall₂_map_right_iff, List.forall₂_iff_zip] at hseen
  -- what is seen does not tell the kinds of the faults, but those of scanned lines are known
  refine List.forall₂_iff_zip.mpr ⟨hseen.1, fun hmem => ?_⟩
  obtain ⟨hline, hline'⟩ := List.of_mem_zip hmem
  exact outcomes_of_seen o (hseen.2 hmem) (fun _ heq => kind_of_scanLines (heq ▸ hline))
    fun _ heq => kind_of_scanLines (heq ▸ hline')

/-- Kinds that correspond one by one are the same. -/
theorem map_kind_eq {faults faults' : List Fault}
    (h : List.Forall₂ Kinship.byKind.faults faults faults') :
    faults.map Fault.kind = faults'.map Fault.kind := by
  rw [← List.forall₂_eq_eq_eq, List.forall₂_map_left_iff, List.forall₂_map_right_iff]
  exact h

/-- For all options and every listener that never fails: two sources that have the same lines
without the blanks around them, the blank lines left out, are read with exactly the same calls, both
to their end or both up to a fault of the same kind, and with faults of the same kinds skipped over
in the same order. -/
theorem layout_influences_nothing {σ κ : Type} {L : Listener σ κ} (hL : L.NeverFails) (o : Options)
    (root : κ) (state : σ) {source source' : Text}
    (h : Text.codeLines source = Text.codeLines source') :
    callsOf o L root state source = callsOf o L root state source' ∧
      (read o L root state source).1.mapError Fault.kind =
        (read o L root state source').1.mapError Fault.kind ∧
      (read o L root state source).2.diagnostics.map Fault.kind =
        (read o L root state source').2.diagnostics.map Fault.kind := by
  obtain ⟨hcalls, hresult, hdiagnostics⟩ :=
    (dialogue_akin (scanLines_akin o h)).readings hL root state
  refine ⟨hcalls, ?_, map_kind_eq hdiagnostics⟩
  generalize (read o L root state source).1 = r at hresult
  generalize (read o L root state source').1 = r' at hresult
  cases hresult with
  | ok heq => exact congrArg Except.ok heq
  | error hkind => exact congrArg Except.error hkind

/-- A class with a field, with comments, with an array over several lines, with an open quote and
with a method that does not end. -/
def plainLayout : Text :=
  ".class La; # name\n.field x:I\n# held\n.end field\n.annotation runtime Lb;\nv = \x7b\n".toList ++
    "0x1, # one\n0x2\n\x7d\n.end annotation\n\"open\n.method m()V\nreturn-void".toList

/-- The same class with other line ends, blank lines and blanks around its lines. -/
def looseLayout : Text :=
  "\r\n  .class La; # name \r\n\n\t.field x:I\n    # held\t\n.end field\n\n.annotation runtime Lb;\r\n".toList ++
    "  v = \x7b \n\n 0x1, # one\n    0x2  \n\x7d\r\n.end annotation\n  \"open \n".toList ++
    " .method m()V\n   \n\treturn-void \r\n\n".toList

/-- Read without regard to noise, both layouts are told with the same thirteen calls, and a lexical
fault and a scope without its end are skipped over. -/
theorem layout_influences_nothing_class :
    let L := Recorder.listener .obliging
    let root := Recorder.root .ofClass
    let o : Options := { Options.default with comments := true, errors := .ignore }
    plainLayout ≠ looseLayout ∧
      callsOf o L root .initial plainLayout = callsOf o L root .initial looseLayout ∧
      (read o L root .initial plainLayout).2.diagnostics.map Fault.kind =
        (read o L root .initial looseLayout).2.diagnostics.map Fault.kind ∧
      (callsOf o L root .initial plainLayout).length = 13 ∧
      (read o L root .initial looseLayout).2.diagnostics.map Fault.kind =
        [.lexical, .unterminated] := by
  intro L root o
  have hL : L.NeverFails := Recorder.listener_neverFails rfl
  have hlines : Text.codeLines plainLayout = Text.codeLines looseLayout := by decide +kernel
  obtain ⟨hcalls, -, hdiagnostics⟩ :=
    layout_influences_nothing hL o root Recorder.State.initial hlines
  exact ⟨by decide +kernel, hcalls, hdiagnostics, by decide +kernel, by decide +kernel⟩

end Smali
