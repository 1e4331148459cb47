import Smali.Proofs.KindredFrames
import Smali.Proofs.StrictStep

/-!
# Readings of lines that are read alike

A reader that stands alike in two sources takes lines that are read alike in the same way: it makes
the same moves, skips over corresponding faults, and stands alike again. This holds frame by frame,
and so it holds for all lines of two sources, up to the end.
-/

namespace Smali

section Kindred

variable {K : Kinship} {o : Options}

/-! ## Ends of scopes -/

/-- What comes out of two scopes that end alike. -/
structure Arrival.Akin (K : Kinship) (o : Options) (a a' : Arrival) : Prop where
  /-- The faults and the places of the scopes correspond. -/
  fault : Option.Rel (fun x y => K.faults x.1 y.1 ∧ K.places x.2 y.2) a.fault a'.fault
  /-- The comments are alike. -/
  held : o.Alike a.held a'.held

/-- Nothing comes out of both. -/
theorem Arrival.akin_nothing : Arrival.nothing.Akin K o .nothing := ⟨.none, .refl _⟩

/-- The ends of the innermost scopes. -/
theorem akin_endScope : Dialogue.Akin K o (Option.Rel K.faults) endScope endScope := by
  refine Dialogue.Akin.bind (Passage.akin_tell .finish) fun r r' hr => ?_
  refine Dialogue.akin_leave.next fun _ => Dialogue.akin_pure ?_
  cases hr with
  | ok _ => exact .none
  | error hfaults => exact .some hfaults

/-- The ends of the innermost scopes, with the places that their faults are given. -/
theorem akin_endScope_arrival {p p' : Position} (hp : K.places p p') {held held' : List Text}
    (hheld : o.Alike held held') :
    Dialogue.Akin K o (Arrival.Akin K o)
      (do return ⟨(← endScope).map (·, p), held⟩) (do return ⟨(← endScope).map (·, p'), held'⟩) := by
  refine akin_endScope.bind fun received received' hreceived => Dialogue.akin_pure ⟨?_, hheld⟩
  cases hreceived with
  | none => exact .none
  | some hfaults => exact .some ⟨hfaults, hp⟩

/-- A comment at the level of the class leaves no trace if it is not told. -/
theorem rehearse_remarkClass (h : o.comments = false) (text : Text) :
    (remarkClass text).rehearse o = ⟨[], [], .ok ()⟩ := by
  unfold remarkClass
  rw [Dialogue.rehearse_bind, Passage.rehearse_remark h]
  rfl

/-- Nor does any number of them. -/
theorem rehearse_remarkClasses (h : o.comments = false) (held : List Text) :
    (held.forM remarkClass).rehearse o = ⟨[], [], .ok ()⟩ := by
  induction held with
  | nil => rfl
  | cons text held ih =>
    change Dialogue.rehearse o (remarkClass text >>= fun _ => held.forM remarkClass) = _
    rw [Dialogue.rehearse_bind, rehearse_remarkClass h]
    exact congrArg (Rehearsal.after [] []) ih

/-- Comments at the level of the class. -/
theorem akin_remarkClass {text text' : Text} (h : o.Alike text text') :
    Dialogue.Akin K o Eq (remarkClass text) (remarkClass text') := by
  refine Dialogue.Akin.bind (Passage.akin_remark (h.map fun text => some (Call.comment text)))
    fun r r' hr => ?_
  cases hr with
  | ok _ => exact Dialogue.akin_pure rfl
  | error hfaults => exact Dialogue.akin_halt hfaults

/-- Faults that come out of scopes. -/
theorem Arrival.Akin.excuse {a a' : Arrival} (ha : a.Akin K o a') :
    Dialogue.Akin K o Eq a.excuse a'.excuse := by
  obtain ⟨fault, held⟩ := a
  obtain ⟨fault', held'⟩ := a'
  obtain ⟨hfault, -⟩ := ha
  cases hfault with
  | none => exact Dialogue.akin_pure rfl
  | some h => exact Dialogue.akin_excuse (K.attach h.1 h.2)

/-- What comes out of members. -/
theorem Arrival.Akin.reachClass {a a' : Arrival} (ha : a.Akin K o a') :
    Dialogue.Akin K o Eq a.reachClass a'.reachClass := by
  refine ha.excuse.next fun _ => ?_
  refine Dialogue.akin_of_alike ha.held (fun held => held.forM remarkClass) ?_ fun hcomments => ?_
  · induction a.held with
    | nil => exact Dialogue.akin_pure rfl
    | cons text held ih => exact (akin_remarkClass (.refl text)).next fun _ => ih
  · rw [rehearse_remarkClasses hcomments, rehearse_remarkClasses hcomments]

/-- The faults of scopes that end without their closing lines. -/
theorem akin_missingEnd (what : Text) {opened opened' : Position} (hp : K.places opened opened')
    {before before' : Option Line} (hbefore : Option.Rel (Line.Akin K o) before before') :
    K.faults (missingEnd what opened before) (missingEnd what opened' before') := by
  cases hbefore with
  | none => exact K.located hp _ _
  | some h =>
    dsimp only [missingEnd]
    rw [h.text]
    exact K.located h.position _ _

section Ends

variable {before before' : Option Line} (hbefore : Option.Rel (Line.Akin K o) before before')
include hbefore

/-- Frames that end without a closing line. -/
theorem Frame.Akin.close {f f' : Frame} (hf : f.Akin K o f') :
    Dialogue.Akin K o (Arrival.Akin K o) (f.close before) (f'.close before') := by
  cases hf with
  | field h =>
    have hend := akin_endScope_arrival (K := K) h.opened (h.held.map List.reverse)
    simp only [Frame.close, h.annotated]
    split
    · exact (Dialogue.akin_excuse (K.located h.opened _ _)).next fun _ => hend
    · exact hend
  | method h =>
    simp only [Frame.close, h.name]
    exact (Dialogue.akin_excuse (akin_missingEnd _ h.opened hbefore)).next fun _ =>
      akin_endScope_arrival h.opened (.refl [])
  | annotationBody h name =>
    exact (Dialogue.akin_excuse (akin_missingEnd _ h hbefore)).next fun _ =>
      akin_endScope_arrival h (.refl [])
  | array h =>
    exact (Dialogue.akin_excuse (K.located h.opened _ _)).next fun _ =>
      Dialogue.akin_pure Arrival.akin_nothing
  | skipping name => exact Dialogue.akin_pure Arrival.akin_nothing

/-- Frames that end one after another. -/
theorem akin_unwind {stays stays' : Frame → Bool}
    (hstays : ∀ f f', Frame.Akin K o f f' → stays f = stays' f') {a a' : Arrival}
    (ha : a.Akin K o a') {frames frames' : List Frame}
    (hframes : List.Forall₂ (Frame.Akin K o) frames frames') :
    Dialogue.Akin K o (List.Forall₂ (Frame.Akin K o)) (unwind before stays a frames)
      (unwind before' stays' a' frames') := by
  -- from the innermost frames outwards, for whatever has come out of the frames inside
  induction hframes generalizing a a' with
  | nil => exact ha.reachClass.next fun _ => Dialogue.akin_pure .nil
  | @cons f f' outer outer' hf houter ih =>
    have hstep : Dialogue.Akin K o (List.Forall₂ (Frame.Akin K o))
        (a.excuse >>= fun _ =>
          if stays f then pure (f :: outer)
          else f.close before >>= fun a => unwind before stays a outer)
        (a'.excuse >>= fun _ =>
          if stays' f' then pure (f' :: outer')
          else f'.close before' >>= fun a => unwind before' stays' a outer') := by
      refine ha.excuse.next fun _ => ?_
      rw [hstays f f' hf]
      split
      · exact Dialogue.akin_pure (.cons hf houter)
      · exact (hf.close hbefore).bind fun _ _ ha => ih ha
    -- a fault takes a field with it, and every other frame takes the step above
    obtain ⟨fault, held⟩ := a
    obtain ⟨fault', held'⟩ := a'
    have hfault := ha.fault
    cases hfault with
    | none => cases hf <;> exact hstep
    | some hfaults =>
      cases hf with
      | field h => exact Dialogue.akin_leave.next fun _ => ih ⟨.some ⟨hfaults.1, h.opened⟩, .refl []⟩
      | _ => exact hstep

end Ends

variable {outer outer' : List Frame} (houter : List.Forall₂ (Frame.Akin K o) outer outer')
include houter

/-- Faults that are handed to the frames around. -/
theorem akin_raise {fault fault' : Fault} (hfaults : K.faults fault fault') {p p' : Position}
    (hp : K.places p p') :
    Dialogue.Akin K o (List.Forall₂ (Frame.Akin K o)) (raise fault p outer) (raise fault' p' outer') :=
  akin_unwind .none (fun _ _ _ => rfl) ⟨.some ⟨hfaults, hp⟩, .refl []⟩ houter

/-- Passages of scopes that cannot deal with faults themselves. -/
theorem akin_orRaise {p p' : Position} (hp : K.places p p') {q q' : Passage (List Frame)}
    (hq : Passage.Akin K o (List.Forall₂ (Frame.Akin K o)) q q') :
    Dialogue.Akin K o (List.Forall₂ (Frame.Akin K o)) (orRaise p outer q) (orRaise p' outer' q') := by
  refine Dialogue.Akin.bind hq fun r r' hr => ?_
  cases hr with
  | ok hframes => exact Dialogue.akin_pure hframes
  | error hfaults => exact Dialogue.akin_leave.next fun _ => akin_raise houter hfaults hp

/-! ## Lines in frames -/

variable {l l' : Line} (h : l.Akin K o l')
include h

/-- Closing lines. -/
theorem akin_closeBy {p p' : Position} (hp : K.places p p') (heard : Bool) :
    Dialogue.Akin K o (List.Forall₂ (Frame.Akin K o)) (closeBy l p heard outer)
      (closeBy l' p' heard outer') := by
  refine akin_endScope.bind fun received received' hreceived => ?_
  cases hreceived with
  | some hfaults => exact akin_raise houter hfaults hp
  | none =>
    have hremark := (Passage.alike_eolCall? h).map fun c => if heard then c else none
    refine Dialogue.Akin.bind (Passage.akin_remark hremark) fun r r' hr => ?_
    cases hr with
    | ok _ => exact Dialogue.akin_pure houter
    | error hfaults => exact akin_raise houter hfaults hp

omit h in
/-- Comments in frames. -/
theorem akin_remarkIn {p p' : Position} (hp : K.places p p') {text text' : Text}
    (halike : o.Alike text text') {frames frames' : List Frame}
    (hframes : List.Forall₂ (Frame.Akin K o) frames frames') :
    Dialogue.Akin K o (List.Forall₂ (Frame.Akin K o))
      (orRaise p outer do
        Passage.remark (some (.comment text))
        return frames)
      (orRaise p' outer' do
        Passage.remark (some (.comment text'))
        return frames') :=
  akin_orRaise houter hp <|
    (Passage.akin_remark (halike.map fun text => some (Call.comment text))).next fun _ =>
      Passage.akin_pure hframes

/-- Lines in annotations. -/
theorem akin_takeInAnnotationBody {p p' : Position} (hp : K.places p p') (name : Text) :
    Dialogue.Akin K o (List.Forall₂ (Frame.Akin K o)) (takeInAnnotationBody p name l outer)
      (takeInAnnotationBody p' name l' outer') := by
  have hframes := List.Forall₂.cons (Frame.Akin.annotationBody (o := o) hp name) houter
  unfold takeInAnnotationBody
  obtain ⟨text, text', htext, htext', halike⟩ | ⟨hnone, hnone'⟩ := h.comment?_cases
  · rw [htext, htext']
    exact akin_remarkIn houter hp halike hframes
  · rw [hnone, hnone', h.directive?, h.closes, h.text]
    cases l'.directive? with
    | none =>
      exact (Dialogue.akin_attempt h.position (akin_elementLine h)).bind fun _ _ hframe =>
        Dialogue.akin_pure (Frame.akin_join hframe hframes)
    | some d =>
      dsimp only
      split
      · exact akin_closeBy houter h hp true
      · exact (Dialogue.akin_excuse (h.grammar _)).next fun _ => Dialogue.akin_pure hframes

/-- Lines in arrays. -/
theorem akin_takeInArray {g g' : Gathering} (hg : g.Akin K o g') :
    Dialogue.Akin K o (List.Forall₂ (Frame.Akin K o)) (takeInArray g l outer)
      (takeInArray g' l' outer') := by
  have hadd := hg.add h
  unfold takeInArray
  dsimp only
  rw [hg.isClosedBy h, hg.name, hadd.text]
  split
  · exact (Dialogue.akin_attempt hg.opened (akin_tellElement hg.opened _ _
      (hg.comment.map (Option.map Call.eolComment)) (hadd.remarks.map List.reverse))).bind
        fun _ _ _ => Dialogue.akin_pure houter
  · exact Dialogue.akin_pure (.cons (.array hadd) houter)

/-- Lines in fields. -/
theorem akin_takeInField {f f' : OpenField} (hf : f.Akin K o f') :
    Dialogue.Akin K o (List.Forall₂ (Frame.Akin K o)) (takeInField f l outer)
      (takeInField f' l' outer') := by
  unfold takeInField
  obtain ⟨text, text', htext, htext', halike⟩ | ⟨hnone, hnone'⟩ := h.comment?_cases
  · rw [htext, htext']
    have hheld := halike.map₂ hf.held (· :: ·)
    exact Dialogue.akin_pure (.cons (.field ⟨hf.opened, hf.annotated, hheld, hf.heard⟩) houter)
  · rw [hnone, hnone']
    refine Dialogue.Akin.bind (Passage.akin_remarks (hf.held.map List.reverse) Call.comment)
      fun r r' hr => ?_
    cases hr with
    | error hfaults => exact Dialogue.akin_leave.next fun _ => akin_raise houter hfaults hf.opened
    | ok _ =>
      dsimp only
      rw [h.closes, hf.heard]
      split
      · exact akin_closeBy houter h hf.opened _
      · refine akin_orRaise houter hf.opened ?_
        exact (akin_openAnnotationScope h).bind fun _ _ hframe => Passage.akin_pure <|
          .cons hframe (.cons (.field ⟨hf.opened, rfl, .refl [], rfl⟩) houter)

/-- Lines in methods. -/
theorem akin_takeInMethod {m m' : OpenMethod} (hm : m.Akin K m') :
    Dialogue.Akin K o (List.Forall₂ (Frame.Akin K o)) (takeInMethod m l outer)
      (takeInMethod m' l' outer') := by
  unfold takeInMethod
  obtain ⟨text, text', htext, htext', halike⟩ | ⟨hnone, hnone'⟩ := h.comment?_cases
  · rw [htext, htext']
    exact akin_remarkIn houter hm.opened halike (.cons (.method hm) houter)
  · rw [hnone, hnone', h.closes]
    dsimp only
    split
    · exact akin_closeBy houter h hm.opened true
    · exact (Dialogue.akin_attempt h.position (akin_bodyLine h hm)).bind fun _ _ hframe =>
        Dialogue.akin_pure (Frame.akin_join hframe (.cons (.method (hm.after h)) houter))

end Kindred

/-! ## Lines of the class -/

/-- Two readers that stand alike. -/
structure Control.Akin (K : Kinship) (o : Options) (c c' : Control) : Prop where
  /-- The stage is the same. -/
  stage : c.stage = c'.stage
  /-- The members so far are the same. -/
  declared : c.declared = c'.declared
  /-- The frames are open alike. -/
  frames : List.Forall₂ (Frame.Akin K o) c.frames c'.frames

section Class

variable {K : Kinship} {o : Options} {l l' : Line} (h : l.Akin K o l')
include h

/-- Lines of the class header. -/
theorem akin_headerLine (d : Directive) :
    Passage.Akin K o Eq (headerLine l d) (headerLine l' d) := by
  cases d with
  | ofClass =>
    exact (Passage.akin_ofExcept h.classHeader).next fun _ =>
      (Passage.akin_checkObject h _ _).next fun _ => Passage.akin_tellLine h _
  | superType | implements =>
    exact (Passage.akin_ofExcept h.singleType).next fun _ =>
      (Passage.akin_checkObject h _ _).next fun _ => Passage.akin_tellLine h _
  | _ => exact (Passage.akin_ofExcept h.sourceName).next fun _ => Passage.akin_tellLine h _

/-- What the lines of fields tell. -/
theorem akin_fieldHeader (declared : List Member) :
    Passage.Akin K o Eq (fieldHeader declared l) (fieldHeader declared l') := by
  refine (Passage.akin_ofExcept h.field).next fun f => ?_
  have hlast := (Passage.akin_check (o := o) h (!declared.contains (.field f.name))
    ("duplicate field " ++ f.name)).next fun _ => Passage.akin_pure (R := Eq) (rfl : f = f)
  cases f.value with
  | none => exact hlast
  | some value =>
    exact (Passage.akin_check h _ _).next fun _ =>
      (Passage.akin_checkValue h.position value).next fun _ => hlast

/-- What the lines of methods tell. -/
theorem akin_methodHeader (declared : List Member) :
    Passage.Akin K o Eq (methodHeader declared l) (methodHeader declared l') :=
  (Passage.akin_ofExcept h.method).next fun _ => (Passage.akin_check h _ _).next fun _ =>
    (Passage.akin_check h _ _).next fun _ => (Passage.akin_check h _ _).next fun _ =>
      Passage.akin_pure rfl

namespace Control

variable {c c' : Control} (hc : c.Akin K o c')
include hc

/-- Fields that open. -/
theorem Akin.openField : Dialogue.Akin K o (Control.Akin K o) (c.openField l) (c'.openField l') := by
  unfold Control.openField
  rw [hc.declared]
  refine Dialogue.Akin.bind (akin_fieldHeader h c'.declared) fun r r' hr => ?_
  cases hr with
  | error hfaults =>
    refine (Dialogue.akin_excuse hfaults).next fun _ => Dialogue.akin_hush.next fun _ => ?_
    exact Dialogue.akin_pure
      ⟨hc.stage, rfl, .cons (.field ⟨h.position, rfl, .refl [], rfl⟩) .nil⟩
  | ok hf =>
    obtain rfl := hf
    refine (Dialogue.akin_attempt h.position (Passage.akin_enterLine h _)).bind
      fun opened opened' hopened => Dialogue.akin_pure ⟨hc.stage, rfl, ?_⟩
    cases hopened with
    | none => exact .nil
    | some _ => exact .cons (.field ⟨h.position, rfl, .refl [], rfl⟩) .nil

/-- Methods that open. -/
theorem Akin.openMethod :
    Dialogue.Akin K o (Control.Akin K o) (c.openMethod l) (c'.openMethod l') := by
  unfold Control.openMethod
  rw [hc.declared]
  refine Dialogue.Akin.bind (akin_methodHeader h c'.declared) fun r r' hr => ?_
  cases hr with
  | error hfaults =>
    refine (Dialogue.akin_excuse hfaults).next fun _ => ?_
    exact Dialogue.akin_pure ⟨hc.stage, rfl, .cons (.skipping _) .nil⟩
  | ok hm =>
    obtain rfl := hm
    refine (Dialogue.akin_attempt h.position (Passage.akin_enterLine h _)).bind
      fun opened opened' hopened => Dialogue.akin_pure ⟨hc.stage, rfl, ?_⟩
    cases hopened with
    | none => exact .nil
    | some _ => exact .cons (.method ⟨h.position, rfl, rfl, rfl⟩) .nil

/-- Directives at the level of the class. -/
theorem Akin.classDirective (d : Directive) (stage : Stage) :
    Dialogue.Akin K o (Control.Akin K o) (c.classDirective l d stage)
      (c'.classDirective l' d stage) := by
  have hbody : ({ c with stage := .body } : Control).Akin K o { c' with stage := .body } :=
    ⟨rfl, hc.declared, hc.frames⟩
  cases stage with
  | header =>
    exact (Dialogue.akin_attempt h.position (akin_headerLine h d)).bind fun _ _ _ =>
      Dialogue.akin_pure ⟨rfl, hc.declared, hc.frames⟩
  | field => exact Akin.openField h hbody
  | method => exact Akin.openMethod h hbody
  | _ =>
    refine (Dialogue.akin_attempt h.position (akin_openAnnotationScope h)).bind
      fun frame frame' hframe => Dialogue.akin_pure ⟨rfl, hc.declared, ?_⟩
    cases hframe with
    | none => exact .nil
    | some hf => exact .cons hf .nil

/-- Lines at the level of the class. -/
theorem Akin.classLine : Dialogue.Akin K o (Control.Akin K o) (c.classLine l) (c'.classLine l') := by
  unfold Control.classLine
  obtain ⟨text, text', htext, htext', halike⟩ | ⟨hnone, hnone'⟩ := h.comment?_cases
  · rw [htext, htext']
    exact (akin_remarkClass halike).next fun _ => Dialogue.akin_pure hc
  · rw [hnone, hnone', h.directive?, h.text, hc.stage]
    have hfault : ∀ details, Dialogue.Akin K o (Control.Akin K o)
        (do Dialogue.excuse (l.grammar details); return c)
        (do Dialogue.excuse (l'.grammar details); return c') :=
      fun details => (Dialogue.akin_excuse (h.grammar details)).next fun _ => Dialogue.akin_pure hc
    cases l'.directive? with
    | none => exact hfault _
    | some d =>
      cases d with
      | closing => exact hfault _
      | _ =>
        dsimp only
        split
        · exact Akin.classDirective h hc _ _
        · exact hfault _

/-- Lines in the innermost frames. -/
theorem Akin.takeInner {frames frames' : List Frame}
    (hframes : List.Forall₂ (Frame.Akin K o) frames frames') :
    Dialogue.Akin K o (Control.Akin K o) (c.takeInner l frames) (c'.takeInner l' frames') := by
  cases hframes with
  | nil => exact Akin.classLine h ⟨hc.stage, hc.declared, .nil⟩
  | cons hf houter =>
    have hthen : ∀ {d d' : Dialogue (List Frame)},
        Dialogue.Akin K o (List.Forall₂ (Frame.Akin K o)) d d' →
          Dialogue.Akin K o (Control.Akin K o) (do return { c with frames := ← d })
            (do return { c' with frames := ← d' }) :=
      fun hd => hd.bind fun _ _ hframes => Dialogue.akin_pure ⟨hc.stage, hc.declared, hframes⟩
    cases hf with
    | field hf => exact hthen (akin_takeInField houter h hf)
    | method hm => exact hthen (akin_takeInMethod houter h hm)
    | annotationBody hp name => exact hthen (akin_takeInAnnotationBody houter h hp name)
    | array hg => exact hthen (akin_takeInArray houter h hg)
    | skipping name =>
      refine Dialogue.akin_pure ⟨hc.stage, hc.declared, ?_⟩
      rw [h.closes]
      dsimp only
      split
      · exact houter
      · exact .cons (.skipping name) houter

/-- Lines. -/
theorem Akin.take : Dialogue.Akin K o (Control.Akin K o) (c.take l) (c'.take l') :=
  (akin_unwind (.some h) (fun _ _ hf => hf.takes h) Arrival.akin_nothing hc.frames).bind
    fun _ _ hframes => Akin.takeInner h hc hframes

end Control

end Class

/-! ## Whole sources -/

section Sources

variable {K : Kinship} {o : Options}

/-- The ends of two classes, with faults that end both readings. -/
theorem akin_tellFinish {f : Except Fault Unit → Dialogue Unit} (hok : f (.ok ()) = pure ())
    (herror : ∀ fault, f (.error fault) = .halt fault) :
    Dialogue.Akin K o Eq ((Passage.tell .finish).run >>= f) ((Passage.tell .finish).run >>= f) := by
  refine Dialogue.Akin.bind (Passage.akin_tell .finish) fun r r' hr => ?_
  cases hr with
  | ok _ =>
    rw [hok]
    exact Dialogue.akin_pure rfl
  | error hfaults =>
    rw [herror, herror]
    exact Dialogue.akin_halt hfaults

/-- The ends of two sources. -/
theorem Control.Akin.finish {c c' : Control} (hc : c.Akin K o c') :
    Dialogue.Akin K o Eq c.finish c'.finish := by
  refine (akin_unwind .none (fun _ _ _ => rfl) Arrival.akin_nothing hc.frames).bind
    fun _ _ _ => ?_
  rw [hc.stage]
  split
  · exact (Dialogue.akin_excuse (K.plain _ _)).next fun _ => akin_tellFinish rfl fun _ => rfl
  · exact akin_tellFinish rfl fun _ => rfl

/-- Lines of two sources that are read alike, one by one. -/
theorem Control.Akin.readLines {c c' : Control} (hc : c.Akin K o c')
    {lines lines' : List (Except Fault Line)}
    (h : List.Forall₂ (K.Outcomes (Line.Akin K o)) lines lines') :
    Dialogue.Akin K o Eq (c.readLines lines) (c'.readLines lines') := by
  -- the readers stand alike before each line
  induction h generalizing c c' with
  | nil => exact hc.finish
  | cons hline _ ih =>
    cases hline with
    | ok hl => exact (Control.Akin.take hl hc).bind fun _ _ hc => ih hc
    | error hfaults => exact (Dialogue.akin_excuse hfaults).next fun _ => ih hc

/-- Before the first line, readers stand alike. -/
theorem Control.akin_initial : (Control.initial o).Akin K o (.initial o) := ⟨rfl, rfl, .nil⟩

/-- Two sources whose lines are read alike, one by one, are read alike. -/
theorem dialogue_akin {source source' : Text}
    (h : List.Forall₂ (K.Outcomes (Line.Akin K o)) (scanLines source) (scanLines source')) :
    Dialogue.Akin K o Eq (dialogue o source) (dialogue o source') :=
  Control.akin_initial.readLines h

end Sources

end Smali
