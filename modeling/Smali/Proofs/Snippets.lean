import Mathlib.Data.List.ReduceOption
import Smali.Proofs.CodeLines
import Smali.Proofs.CommentedReading
import Smali.Proofs.Places
import Smali.Proofs.Quiet
import Smali.Proofs.ReaderFooting
import Smali.Proofs.ToldCalls

/-!
# Snippets in a row

A snippet that is read to its end leaves nothing behind but the names of its members, which
only the checks look at, and a field that ends with the next line. So the lines of another
snippet can follow it, as long as they do not go on with that field: it then ends before
them as it does at the end of a source, and the comments that waited in it are told behind it.
-/

namespace Smali

/-! ## What a watch sees of a line -/

namespace Line

/-- A line without its places, and the words of its comment. -/
def seen (l : Line) : Line × Option Text := (l.unplaced, l.remark.map fun t => commentBody t.text)

variable {l l' : Line}

/-- The comments of a line depend on what is seen of it. -/
theorem remarks_of_seen (h : l.seen = l'.seen) : l.remarks = l'.remarks := by
  obtain ⟨hline, hwords⟩ := Prod.mk.inj h
  have hcode : l.code.isEmpty = l'.code.isEmpty := by
    have hcodes := congrArg (List.isEmpty ∘ Line.code) hline
    simpa [unplaced] using hcodes
  unfold remarks comment? eolCall? eolComment?
  rw [hcode, hwords]

/-- Whether a line belongs to an open field depends on what is seen of it. -/
theorem staysInField_of_seen (h : l.seen = l'.seen) : l.staysInField = l'.staysInField := by
  have hline : l.unplaced = l'.unplaced := congrArg Prod.fst h
  unfold staysInField
  rw [← closes_unplaced l, ← closes_unplaced l', ← directive?_unplaced l,
    ← directive?_unplaced l', hline]

end Line

namespace Watch

variable {validate : Bool}

/-- A step depends on what is seen of the line. -/
theorem take_of_seen (w : Watch) {l l' : Line} (h : l.seen = l'.seen) :
    w.take validate l = w.take validate l' := by
  have hline : l.unplaced = l'.unplaced := congrArg Prod.fst h
  have hcomment : l.isComment = l'.isComment := by
    rw [← Line.isComment_unplaced l, ← Line.isComment_unplaced l', hline]
  have hstance : w.stance.take validate l = w.stance.take validate l' := by
    rw [← Stance.take_unplaced, hline, Stance.take_unplaced]
  have hheed : w.heed l = w.heed l' := by
    funext step
    simp only [heed, Stance.weave, Line.remarks_of_seen h, Line.staysInField_of_seen h]
  unfold take
  rw [hcomment, hstance, hheed, Line.remarks_of_seen h]

/-- A reading depends on what is seen of the lines. -/
theorem readAll_of_seen (w : Watch) {lines lines' : List (Option Line)}
    (h : lines.map (Option.map Line.seen) = lines'.map (Option.map Line.seen)) :
    w.readAll validate lines = w.readAll validate lines' := by
  induction lines generalizing w lines' with
  | nil =>
    cases lines' with
    | nil => rfl
    | cons line' rest' => exact nomatch h
  | cons line rest ih =>
    cases lines' with
    | nil => exact nomatch h
    | cons line' rest' =>
      obtain ⟨hline, hrest⟩ := List.cons.inj h
      cases line with
      | none =>
        cases line' with
        | none => rfl
        | some l' => exact nomatch hline
      | some l =>
        cases line' with
        | none => exact nomatch hline
        | some l' =>
          simp only [readAll, take_of_seen w (Option.some.inj hline), fun w => ih w hrest]

end Watch

/-- What a watch sees of a scan. -/
def Scanned.seen (s : Scanned) : Line × Option Text :=
  (s.line, s.remark.map (commentBody ∘ Prod.fst))

/-- It depends neither on places nor on the blanks around. -/
theorem Scanned.isView_seen : IsView Scanned.seen :=
  ⟨fun h => Prod.ext (isView_line.alike h) h.remark,
    fun hc s => Prod.ext (isView_line.skip hc s) rfl⟩

/-- What is seen of a line is what is seen of the scan of its physical line. -/
theorem seen_ofText (number : Nat) (t : Text) :
    (Line.ofText number t).toOption.map Line.seen =
      (scan number 1 t).toOption.map Scanned.seen := by
  unfold Line.ofText
  cases scan number 1 t with
  | error fault => rfl
  | ok s =>
    obtain ⟨code, text, remark⟩ := s
    cases remark <;> rfl

/-- What is seen of the lines of a source are its code lines. -/
theorem seen_scanLines (source : Text) :
    ((scanLines source).map Except.toOption).map (Option.map Line.seen) =
      (Text.codeLines source).map fun t => (scan 1 1 t).toOption.map Scanned.seen := by
  refine view_scanLines (fun number t => ?_) source
  rw [seen_ofText]
  exact Scanned.isView_seen.scan_trim number 1 t

/-- A site with more members, which were declared before. -/
def Site.among (known : List Member) (s : Site) : Site := { s with declared := s.declared ++ known }

/-- Which call can follow does not depend on the members so far. -/
theorem Site.next?_among (known : List Member) (s : Site) (call : Call) :
    (s.among known).next? call = (s.next? call).map (Site.among known) := by
  obtain ⟨phase, declared, host, nest⟩ := s
  cases nest with
  | succ outer =>
    change (nestNext? outer call).map _ = ((nestNext? outer call).map _).map _
    rw [Option.map_map]
    rfl
  | zero =>
    rcases host with _ | ⟨annotated⟩ | ⟨name, access, paramOpen⟩
    · cases phase <;> cases call <;> rfl
    · cases call <;> rfl
    · cases paramOpen <;> cases call <;> rfl

namespace Stance

/-- A stance with more members, which were declared before. -/
def among (known : List Member) (s : Stance) : Stance := { s with site := s.site.among known }

/-- A step behind members that were declared before. -/
def stepAmong (known : List Member) (step : Stance × List Call) : Stance × List Call :=
  (step.1.among known, step.2)

/-- A call that is told where checks are not made. -/
theorem tell_among (known : List Member) (s : Site) (call : Call) :
    tell false (s.among known) call = (tell false s call).map (stepAmong known) := by
  change ((s.among known).next? call).map _ = ((s.next? call).map _).map _
  rw [Site.next?_among, Option.map_map, Option.map_map]
  rfl

/-- A call that may come, told where checks are not made. -/
theorem bind_tell_among (known : List Member) (s : Site) (call : Option Call) :
    call.bind (tell false (s.among known)) = (call.bind (tell false s)).map (stepAmong known) := by
  cases call with
  | none => rfl
  | some call => exact tell_among known s call

/-- A line in an array. -/
theorem inArray?_among (known : List Member) (s : Site) (b : Braces) (l : Line) :
    inArray? false (s.among known) b l = (inArray? false s b l).map (stepAmong known) := by
  unfold inArray?
  dsimp only
  split
  · rfl
  · split
    · cases (Literal.decode (b.text ++ '\n' :: l.text)).toOption with
      | none => rfl
      | some v => exact tell_among known s (.value b.name v)
    · rfl

/-- A line in an annotation. -/
theorem inAnnotation?_among (known : List Member) (s : Site) (outer : Nat) (l : Line) :
    inAnnotation? false (s.among known) outer l =
      (inAnnotation? false s outer l).map (stepAmong known) := by
  unfold inAnnotation?
  split
  · cases l.element? with
    | none => rfl
    | some element =>
      cases element with
      | call call => exact tell_among known s call
      | braces b => rfl
  · split
    · exact tell_among known s .finish
    · rfl

/-- A line in a field. -/
theorem inField?_among (known : List Member) (s : Site) (annotated : Bool) (l : Line) :
    inField? false (s.among known) annotated l =
      (inField? false s annotated l).map (stepAmong known) := by
  unfold inField?
  split
  · exact tell_among known s .finish
  · split
    · exact bind_tell_among known s l.annotationCall?
    · split
      · rfl
      · have hclass := bind_tell_among known { s with host := none } l.classCall?
        change (inClass? false (Site.among known { s with host := none }) l).map _ = _
        unfold inClass?
        rw [hclass, Option.map_map, Option.map_map]
        rfl

/-- Where checks are not made, a step does not depend on the members so far. -/
theorem take_among (known : List Member) (s : Stance) (l : Line) :
    (s.among known).take false l = (s.take false l).map (stepAmong known) := by
  obtain ⟨⟨phase, declared, host, nest⟩, braces⟩ := s
  unfold take
  split
  · rfl
  · cases braces with
    | some b => exact inArray?_among known _ b l
    | none =>
      cases nest with
      | succ outer => exact inAnnotation?_among known _ outer l
      | zero =>
        rcases host with _ | ⟨annotated⟩ | ⟨name, access, paramOpen⟩
        · exact bind_tell_among known _ l.classCall?
        · exact inField?_among known _ annotated l
        · exact bind_tell_among known _ l.bodyCall?

end Stance

namespace Watch

/-- A watch with more members, which were declared before. -/
def among (known : List Member) (w : Watch) : Watch := { w with stance := w.stance.among known }

/-- What is told at a line of code does not depend on the members so far. -/
theorem heed_among (known : List Member) (w : Watch) (l : Line) (step : Stance × List Call) :
    heed (w.among known) l (Stance.stepAmong known step) =
      ((w.heed l step).1.among known, (w.heed l step).2) := by
  obtain ⟨⟨site, braces⟩, calls⟩ := step
  cases braces <;> rfl

/-- Where checks are not made, a step does not depend on the members so far. -/
theorem take_among (known : List Member) (w : Watch) (l : Line) :
    (w.among known).take false l =
      (w.take false l).map fun (w, calls) => (w.among known, calls) := by
  unfold take
  split
  · have hdefers : (w.among known).stance.defers = w.stance.defers := rfl
    rw [hdefers]
    split <;> rfl
  · change ((w.stance.among known).take false l).map _ = _
    rw [Stance.take_among, Option.map_map, Option.map_map]
    exact Option.map_congr fun step _ => heed_among known w l step

/-- Where checks are not made, a reading does not depend on the members so far. -/
theorem readAll_among (known : List Member) (w : Watch) (lines : List (Option Line)) :
    (w.among known).readAll false lines = w.readAll false lines := by
  induction lines generalizing w with
  | nil => rfl
  | cons line rest ih =>
    cases line with
    | none => rfl
    | some l =>
      unfold readAll
      rw [take_among]
      cases w.take false l with
      | none => rfl
      | some step => exact congrArg (Option.map _) (ih step.1)

/-! ## One snippet behind another -/

/-- A watch over a snippet: the class has got to its members, and comments wait only in an array
or in a field. -/
structure Settled (w : Watch) : Prop where
  /-- The header is over. -/
  phase : w.stance.site.phase = .body
  /-- Comments that are not deferred have been told. -/
  waiting : w.stance.defers = false → w.waiting = []

/-- Among the members, a call does not lead back to the header. -/
theorem phase_of_next? {s s' : Site} {call : Call} (hs : s.phase = .body)
    (h : s.next? call = some s') : s'.phase = .body := by
  cases Site.step_of_next? h with
  | header _ _ _ hphase => exact absurd hs hphase
  | field | method | annotationOfClass => rfl
  | _ => exact hs

/-- Nor do several calls. -/
theorem phase_of_run {s s' : Site} {calls : List Call} (hs : s.phase = .body)
    (h : s.run validate calls = some s') : s'.phase = .body := by
  induction calls generalizing s with
  | nil => exact Option.some.inj h ▸ hs
  | cons call rest ih =>
    rw [Site.run_cons] at h
    obtain ⟨s₁, hcall, hrest⟩ := Option.bind_eq_some_iff.mp h
    exact ih (phase_of_next? hs (Site.next?_of_accept hcall)) hrest

/-- A watch stays settled over every line. -/
theorem Settled.take {w w' : Watch} (h : w.Settled) {l : Line} {calls : List Call}
    (hw : w.take validate l = some (w', calls)) : w'.Settled := by
  unfold Watch.take at hw
  split at hw
  · split at hw
    · next hdefers =>
      obtain ⟨rfl, rfl⟩ := Prod.mk.inj (Option.some.inj hw)
      exact ⟨h.phase, fun hnot => absurd hdefers (ne_true_of_eq_false hnot)⟩
    · obtain ⟨rfl, rfl⟩ := Prod.mk.inj (Option.some.inj hw)
      exact h
  · obtain ⟨⟨s, told⟩, hs, heq⟩ := Option.map_eq_some_iff.mp hw
    have hphase := phase_of_run h.phase (Stance.run_of_take hs)
    unfold heed at heq
    split at heq
    · next hbraces =>
      obtain ⟨rfl, rfl⟩ := Prod.mk.inj heq
      refine ⟨hphase, fun hnot => absurd hnot ?_⟩
      obtain ⟨b, hb⟩ := Option.isSome_iff_exists.mp hbraces
      dsimp only at hb ⊢
      simp [Stance.defers, hb]
    · obtain ⟨rfl, rfl⟩ := Prod.mk.inj heq
      exact ⟨hphase, fun _ => rfl⟩

end Watch

/-- The first line of code among lines. -/
def firstCode? (lines : List (Option Line)) : Option Line :=
  lines.reduceOption.find? fun l => !l.isComment

/-- A comment is passed over. -/
theorem firstCode?_cons_comment {l : Line} (hl : l.isComment = true)
    (lines : List (Option Line)) : firstCode? (some l :: lines) = firstCode? lines := by
  rw [firstCode?, List.reduceOption_cons_of_some, List.find?_cons_of_neg (by simp [hl])]
  rfl

/-- A line of code is the first one. -/
theorem firstCode?_cons_code {l : Line} (hl : l.isComment = false)
    (lines : List (Option Line)) : firstCode? (some l :: lines) = some l := by
  rw [firstCode?, List.reduceOption_cons_of_some, List.find?_cons_of_pos (by simp [hl])]

/-- A line at the level of the class closes nothing. -/
theorem Line.closes_of_classCall? {l : Line} {call : Call} (h : l.classCall? = some call)
    (name : Text) : l.closes name = false := by
  refine Bool.eq_false_iff.mpr fun hcloses => ?_
  rw [classCall?, directive?_of_closes hcloses] at h
  exact absurd h (Option.some_ne_none _).symm

namespace Watch

variable {validate : Bool}

/-- Lines that do not go on with a field end it. What waits in the field is told between its end
and what the lines lead to at the level of the class. -/
theorem readAll_behindField {site : Site} (hnest : site.nest = 0)
    (hhost : site.host = some (.field false)) {lines : List (Option Line)}
    (hfirst : ∀ l ∈ firstCode? lines, l.directive? ≠ some .annotationStart) {more : List Call}
    (hmore : readAll validate ⟨⟨{ site with host := none }, none⟩, []⟩ lines = some more)
    (waiting : List Call) :
    readAll validate ⟨⟨site, none⟩, waiting⟩ lines = some (.finish :: waiting ++ more) := by
  obtain ⟨phase, declared, host, nest⟩ := site
  dsimp only at hnest hhost hmore
  subst hnest hhost
  induction lines generalizing waiting more with
  | nil =>
    unfold readAll Stance.finish? at hmore ⊢
    dsimp only at hmore ⊢
    split at hmore
    · exact absurd hmore (Option.some_ne_none _).symm
    · rw [if_neg ‹_›]
      obtain rfl := Option.some.inj hmore
      exact congrArg some (List.append_nil _).symm
  | cons line rest ih =>
    cases line with
    | none => exact absurd hmore (Option.some_ne_none _).symm
    | some l =>
      unfold readAll at hmore ⊢
      obtain ⟨⟨w, calls⟩, htake, hrest⟩ := Option.bind_eq_some_iff.mp hmore
      obtain ⟨told, htold, rfl⟩ := Option.map_eq_some_iff.mp hrest
      cases hl : l.isComment with
      | true =>
        -- The class is told of the comment at once, and the field holds it.
        rw [firstCode?_cons_comment hl] at hfirst
        obtain ⟨rfl, rfl⟩ : _ ∧ _ := Prod.mk.inj (Option.some.inj ((if_pos hl).symm.trans htake))
        have hfield : take validate
            ⟨⟨⟨phase, declared, some (.field false), 0⟩, none⟩, waiting⟩ l =
            some (⟨⟨⟨phase, declared, some (.field false), 0⟩, none⟩, waiting ++ l.remarks⟩, []) :=
          if_pos hl
        rw [hfield, Option.bind_some]
        dsimp only
        rw [ih hfirst _ htold]
        simp
      | false =>
        rw [firstCode?_cons_code hl] at hfirst
        have hclass : (Stance.inClass? validate ⟨phase, declared, none, 0⟩ l).map
            (heed ⟨⟨⟨phase, declared, none, 0⟩, none⟩, []⟩ l) = some (w, calls) := by
          rw [take_of_code hl, Stance.take, if_neg (ne_true_of_eq_false hl)] at htake
          exact htake
        have hcloses : l.closes "field" = false := by
          obtain ⟨_, hstep, -⟩ := Option.map_eq_some_iff.mp hclass
          obtain ⟨call, hcall, -⟩ := Option.bind_eq_some_iff.mp hstep
          exact Line.closes_of_classCall? hcall _
        rw [take_behindField rfl rfl hl hcloses (hfirst l rfl) waiting,
          if_neg Bool.false_ne_true, hclass]
        simp [htold]

/-- Where a snippet can end, another one can follow. -/
theorem readAll_of_finish? {w : Watch} (h : w.Settled) {fin : List Call}
    (hfin : w.stance.finish? = some fin) {lines : List (Option Line)}
    (hfirst : ∀ l ∈ firstCode? lines, l.directive? ≠ some .annotationStart) {more : List Call}
    (hmore : (initial true).readAll false lines = some more) :
    w.readAll false lines = some (fin ++ w.waiting ++ more) := by
  obtain ⟨⟨⟨phase, declared, host, nest⟩, braces⟩, waiting⟩ := w
  obtain ⟨hphase, hwaiting⟩ := h
  obtain rfl : phase = .body := hphase
  -- At the level of the class only the members so far are left of what was read.
  have hclass : readAll false ⟨⟨⟨.body, declared, none, 0⟩, none⟩, []⟩ lines = some more :=
    (readAll_among declared (initial true) lines).trans hmore
  unfold Stance.finish? at hfin
  rw [if_neg nofun] at hfin
  split at hfin
  · next hbraces hnest hhost =>
    dsimp only at hbraces hnest hhost
    subst hbraces hnest hhost
    obtain rfl := Option.some.inj hfin
    obtain rfl : waiting = [] := hwaiting rfl
    exact hclass
  · next hbraces hnest hhost =>
    dsimp only at hbraces hnest hhost
    subst hbraces hnest hhost
    obtain rfl := Option.some.inj hfin
    exact readAll_behindField rfl rfl hfirst hclass waiting
  · exact nomatch hfin

/-- One snippet behind another. -/
theorem readAll_append {w : Watch} (h : w.Settled) {first second : List (Option Line)}
    {calls more : List Call} (hcalls : w.readAll false first = some calls)
    (hfirst : ∀ l ∈ firstCode? second, l.directive? ≠ some .annotationStart)
    (hmore : (initial true).readAll false second = some more) :
    w.readAll false (first ++ second) = some (calls ++ more) := by
  induction first generalizing w calls with
  | nil =>
    obtain ⟨fin, hfin, rfl⟩ := Option.map_eq_some_iff.mp hcalls
    exact readAll_of_finish? h hfin hfirst hmore
  | cons line rest ih =>
    cases line with
    | none => exact nomatch hcalls
    | some l =>
      unfold readAll at hcalls
      obtain ⟨⟨w', here⟩, htake, hrest⟩ := Option.bind_eq_some_iff.mp hcalls
      obtain ⟨told, htold, rfl⟩ := Option.map_eq_some_iff.mp hrest
      rw [List.cons_append, readAll, htake, Option.bind_some]
      dsimp only
      rw [ih (h.take htake) htold]
      simp

end Watch

end Smali
