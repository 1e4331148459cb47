import Smali.Proofs.SkippedMethods

/-!
# A malformed line that opens a nested annotation

A malformed line of a method or of an annotation is skipped together with all that it opens. A
nested annotation is an element of the annotation around, and its first line is taken as any other
element: if its type cannot be read, this line is skipped and nothing else. What follows is read as
if the line were not there. So the elements of the nested annotation are told as elements of the
annotation around, and its closing line closes that one or is out of place.
-/

namespace Smali

/-- The descriptor of the nested annotation that is the value of an element. -/
def Line.nested? (l : Line) : Option Text :=
  match Text.cut? (· == '=') l.text with
  | some (before, after) =>
    if (Text.trim before).isEmpty then none
    else (Text.after? ".subannotation" (Text.trim after)).map Text.trim
  | none => none

/-- A line of an annotation that opens a nested annotation of no type. -/
structure Line.OpensUntyped (l : Line) (flaw : DescriptorFlaw) : Prop where
  /-- The line is no comment. -/
  code : l.comment? = none
  /-- The line is an element. -/
  element : l.directive? = none
  /-- The type of its value cannot be read. -/
  type : l.nested?.map TypeName.parse = some (.error flaw)

/-- The name of the annotation that some lines at the start of a source lead into, if nobody
fails. -/
def annotationBehind? (o : Options) (before : List Text) : Option Text :=
  match (((Control.initial o).takeLines (scanFrom 1 before)).rehearse o).result with
  | .ok ⟨_, _, .annotationBody _ name :: _⟩ => some name
  | _ => none

/-- There the frame of the annotation is the innermost. -/
theorem exists_reaches_of_annotationBehind? {o : Options} {before : List Text} {name : Text}
    (h : annotationBehind? o before = some name) :
    ∃ c opened outer, Reaches o before c ∧ c.frames = .annotationBody opened name :: outer := by
  unfold annotationBehind? at h
  split at h
  · rename_i stage declared opened _ outer hreach
    obtain rfl := Option.some.inj h
    exact ⟨_, opened, outer, hreach, rfl⟩
  · cases h

/-- The value of the element is a malformed descriptor. -/
theorem Line.OpensUntyped.run_elementLine {l : Line} {flaw : DescriptorFlaw}
    (h : l.OpensUntyped flaw) :
    (elementLine l).run = pure (.error (l.descriptorFault .descriptor flaw)) := by
  have htype := h.type
  unfold nested? at htype
  unfold elementLine
  split at htype
  · rename_i before after hcut
    split at htype
    · cases htype
    · rename_i hname
      rw [Option.map_map] at htype
      obtain ⟨descriptor, hvalue, hparse⟩ := Option.map_eq_some_iff.mp htype
      have hflaw : TypeName.parse (Text.trim descriptor) = .error flaw := hparse
      have hopens : (openSubannotationScope l (Text.trim before) descriptor).run =
          pure (.error (l.descriptorFault .descriptor flaw)) := by
        unfold openSubannotationScope parseType
        rw [hflaw]
        rfl
      rw [hcut]
      dsimp only
      rw [if_neg hname, hvalue]
      change (openSubannotationScope l (Text.trim before) descriptor).run >>= _ = _
      rw [hopens]
      rfl
  · cases htype

/-- A tolerant reader skips over the line alone. -/
theorem Line.OpensUntyped.rehearse_take {o : Options} (ho : o.errors = .ignore) {l : Line}
    {flaw : DescriptorFlaw} (h : l.OpensUntyped flaw) {c : Control} {opened : Position}
    {name : Text} {outer : List Frame} (hframes : c.frames = .annotationBody opened name :: outer) :
    (c.take l).rehearse o = ⟨[], [l.descriptorFault .descriptor flaw], .ok c⟩ := by
  have htakes : (Frame.annotationBody opened name).takes l = true := by
    unfold Frame.takes Line.leavesAnnotationBody
    rw [h.element]
    rfl
  have hline : takeInAnnotationBody opened name l outer = do
      Dialogue.excuse (l.descriptorFault .descriptor flaw)
      return .annotationBody opened name :: outer := by
    unfold takeInAnnotationBody Dialogue.attempt
    rw [h.code, h.element, h.run_elementLine]
    rfl
  obtain ⟨stage, declared, frames⟩ := c
  obtain rfl : frames = .annotationBody opened name :: outer := hframes
  unfold Control.take
  rw [unwind_nothing_cons, if_pos htakes]
  change Dialogue.rehearse o (takeInAnnotationBody opened name l outer >>= _) = _
  rw [hline, Dialogue.rehearse_bind_of_ok (Dialogue.rehearse_bind_of_ok (rehearse_excuse ho rfl))]
  rfl

/-- Before a listener that never fails, a reader that skips over faults drops nothing of a nested
annotation with a malformed type but its first line. Where an annotation is open, such a line is put
into a source. Then the calls are the same, whatever follows, and so is the end of the reading. The
diagnostics are the same, with one for the line, and the lines behind have other numbers. So the
elements and the closing line of the nested annotation are taken for those of the annotation
around. -/
theorem untyped_opening_skipped_alone {σ κ : Type} {L : Listener σ κ} (hL : L.NeverFails)
    {o : Options} (ho : o.errors = .ignore) (root : κ) (state : σ) {source source' : Text}
    {before after : List Text} {opening name : Text} (hsource : Text.lines source = before ++ after)
    (hsource' : Text.lines source' = before ++ ([opening] ++ after))
    (hpoint : annotationBehind? o before = some name) {l : Line} {flaw : DescriptorFlaw}
    (hscan : scanFrom (before.length + 1) [opening] = [.ok l]) (hl : l.OpensUntyped flaw) :
    let renumber := Fault.renumber (lineNumberBehind before.length 1)
    callsOf o L root state source' = callsOf o L root state source ∧
      (read o L root state source').1 = (read o L root state source).1.mapError renumber ∧
      ∃ earlier later,
        (read o L root state source).2.diagnostics = earlier ++ later ∧
        (read o L root state source').2.diagnostics =
          earlier ++ ([.located .descriptor l.position flaw.message] ++ later.map renumber) := by
  obtain ⟨c, opened, outer, hreach, hframes⟩ := exists_reaches_of_annotationBehind? hpoint
  have hskipped : (c.takeLines (scanFrom (before.length + 1) [opening])).rehearse o =
      ⟨[], [l.descriptorFault .descriptor flaw], .ok c⟩ := by
    rw [hscan]
    exact Dialogue.rehearse_bind_of_ok (hl.rehearse_take ho hframes)
  exact readings_of_insertion hsource hsource' hreach hskipped hL root state

/-- A class with an annotation in which another one is nested, whose type is malformed. -/
def untypedNested : Text :=
  ".class La;\n.annotation runtime Lb;\nx = .subannotation Lc\ny = 0x1\n".toList ++
    ".end subannotation\n.end annotation\n".toList

/-- The same class without the first line of the nested annotation. -/
def openedByNothing : Text :=
  ".class La;\n.annotation runtime Lb;\ny = 0x1\n.end subannotation\n.end annotation\n".toList

/-- The nested annotation and the lines without its first one are read alike, and the element `y` is
told. -/
theorem untyped_opening_skipped_alone_at :
    let L := Recorder.listener .obliging
    let root := Recorder.root .ofClass
    let o : Options := { Options.default with errors := .ignore }
    callsOf o L root .initial untypedNested = callsOf o L root .initial openedByNothing ∧
      (callsOf o L root .initial openedByNothing).map (·.call.kind) =
        [.header, .annotationStart, .value, .finish, .finish] := by
  intro L root o
  have hL : L.NeverFails := Recorder.listener_neverFails rfl
  have hplain : Text.lines openedByNothing =
      [".class La;".toList, ".annotation runtime Lb;".toList] ++
        ["y = 0x1".toList, ".end subannotation".toList, ".end annotation".toList] := by
    decide +kernel
  have hnested : Text.lines untypedNested =
      [".class La;".toList, ".annotation runtime Lb;".toList] ++
        (["x = .subannotation Lc".toList] ++
          ["y = 0x1".toList, ".end subannotation".toList, ".end annotation".toList]) := by
    decide +kernel
  let opening : Line := ⟨[⟨.identifier, ['x'], ⟨3, 1⟩⟩, ⟨.punctuation, ['='], ⟨3, 3⟩⟩,
    ⟨.directive, ".subannotation", ⟨3, 5⟩⟩, ⟨.identifier, "Lc", ⟨3, 20⟩⟩],
    "x = .subannotation Lc", none, ⟨3, 1⟩⟩
  have hscan : scanFrom 3 ["x = .subannotation Lc".toList] = [.ok opening] := by decide +kernel
  have hopens : opening.OpensUntyped (.type "Lc") := ⟨rfl, rfl, by decide +kernel⟩
  have hpoint : annotationBehind? o [".class La;".toList, ".annotation runtime Lb;".toList] =
      some "annotation".toList := by decide +kernel
  obtain ⟨hcalls, -, -⟩ := untyped_opening_skipped_alone hL (o := o) rfl root
    Recorder.State.initial hplain hnested hpoint hscan hopens
  exact ⟨hcalls, by decide +kernel⟩

/-- A nested annotation with a malformed type is not dropped as a whole: its element is told, as one
of the annotation around, and its closing line is skipped over for itself. Without all of its lines
there is no such call. -/
theorem untyped_nested_not_dropped :
    let L := Recorder.listener .obliging
    let root := Recorder.root .ofClass
    let o : Options := { Options.default with errors := .ignore }
    let without := ".class La;\n.annotation runtime Lb;\n.end annotation\n".toList
    (callsOf o L root .initial untypedNested).map (·.call.kind) =
        [.header, .annotationStart, .value, .finish, .finish] ∧
      (callsOf o L root .initial without).map (·.call.kind) =
        [.header, .annotationStart, .finish, .finish] ∧
      (read o L root .initial untypedNested).2.diagnostics =
        [.located .descriptor ⟨3, 1⟩ "malformed type descriptor 'Lc'",
          .located .grammar ⟨5, 1⟩ "unexpected '.end subannotation' in annotation"] := by
  decide +kernel

end Smali
