import Smali.Proofs.KindredLines
import Smali.Reader.Step

/-!
# Frames that are open alike

A frame remembers places, comments, and what was read so far. Frames that are open alike agree but
for the places and, where comments are not told, for the comments. So they take the same lines, and
what is told for a line in one of them is told for a line that is read alike in the other.
-/

namespace Smali

open Dialogue (attempt)

section Kindred

variable {K : Kinship} {o : Options} {α β : Type} {R : α → β → Prop}

/-! ## Passages of lines -/

/-- Passages whose faults are skipped over, at places that correspond. -/
theorem Dialogue.akin_attempt {p p' : Position} (hp : K.places p p') {q : Passage α} {q' : Passage β}
    (h : Passage.Akin K o R q q') :
    Akin K o (Option.Rel R) (attempt p q) (attempt p' q') := by
  refine Akin.bind h fun r r' hr => ?_
  cases hr with
  | ok hab => exact akin_pure (.some hab)
  | error hfaults => exact (akin_excuse (K.attach hfaults hp)).next fun _ => akin_pure .none

namespace Passage

variable {l l' : Line} (h : l.Akin K o l')
include h

/-- The comments behind the lines are alike as calls. -/
theorem alike_eolCall? : o.Alike l.eolCall? l'.eolCall? := h.eolComment?.map (Option.map Call.eolComment)

/-- The same call for both lines. -/
theorem akin_tellLine (call : Call) : Akin K o Eq (tellLine l call) (tellLine l' call) :=
  (akin_tell call).next fun _ => akin_remark (alike_eolCall? h)

/-- The same call that opens a scope for both lines. -/
theorem akin_enterLine (call : Call) :
    Akin K o Eq (enter call l.eolCall?) (enter call l'.eolCall?) :=
  akin_enter call (alike_eolCall? h)

/-- The same condition for both lines. -/
theorem akin_check (holds : Bool) (details : Text) :
    Akin K o Eq (check l holds details) (check l' holds details) :=
  akin_require holds (K.located h.position _ _)

/-- The same type for both lines. -/
theorem akin_checkObject (what : Text) (type : TypeName) :
    Akin K o Eq (checkObject l what type) (checkObject l' what type) :=
  akin_check h _ _

end Passage

/-- The same value at places that correspond. -/
theorem Passage.akin_checkValue {p p' : Position} (hp : K.places p p') (value : Value) :
    Akin K o Eq (checkValue p value) (checkValue p' value) := by
  unfold checkValue
  split
  · exact akin_pure rfl
  · exact akin_require false (K.located hp _ _)

/-! ## Frames -/

/-- Two fields that are open alike. -/
structure OpenField.Akin (K : Kinship) (o : Options) (f f' : OpenField) : Prop where
  /-- The places of their first lines correspond. -/
  opened : K.places f.opened f'.opened
  /-- An annotation stood in both or in none. -/
  annotated : f.annotated = f'.annotated
  /-- The comments that are held are alike. -/
  held : o.Alike f.held f'.held
  /-- The comment behind the closing line is told in both or in none. -/
  heard : f.heard = f'.heard

/-- Two methods that are open alike. -/
structure OpenMethod.Akin (K : Kinship) (m m' : OpenMethod) : Prop where
  /-- The places of their first lines correspond. -/
  opened : K.places m.opened m'.opened
  /-- The name is the same. -/
  name : m.name = m'.name
  /-- The flags are the same. -/
  access : m.access = m'.access
  /-- A parameter is open in both or in none. -/
  paramOpen : m.paramOpen = m'.paramOpen

/-- Two arrays that are open alike. -/
structure Gathering.Akin (K : Kinship) (o : Options) (g g' : Gathering) : Prop where
  /-- The name of the element is the same. -/
  name : g.name = g'.name
  /-- The text so far is the same. -/
  text : g.text = g'.text
  /-- The braces so far are the same. -/
  depth : g.depth = g'.depth
  /-- The comments inside are alike. -/
  remarks : o.Alike g.remarks g'.remarks
  /-- The comments behind the first lines are alike. -/
  comment : o.Alike g.comment g'.comment
  /-- The places of the first lines correspond. -/
  opened : K.places g.opened g'.opened

/-- Two frames that are open alike. -/
inductive Frame.Akin (K : Kinship) (o : Options) : Frame → Frame → Prop
  /-- Two fields. -/
  | field {f f' : OpenField} (h : f.Akin K o f') : Frame.Akin K o (.field f) (.field f')
  /-- Two methods. -/
  | method {m m' : OpenMethod} (h : m.Akin K m') : Frame.Akin K o (.method m) (.method m')
  /-- Two annotations. -/
  | annotationBody {p p' : Position} (h : K.places p p') (name : Text) :
      Frame.Akin K o (.annotationBody p name) (.annotationBody p' name)
  /-- Two arrays. -/
  | array {g g' : Gathering} (h : g.Akin K o g') : Frame.Akin K o (.array g) (.array g')
  /-- Two constructs that are skipped. -/
  | skipping (name : Text) : Frame.Akin K o (.skipping name) (.skipping name)

/-- Frames that a line may have opened, in front of others. -/
theorem Frame.akin_join {frame frame' : Option (Option Frame)}
    (hframe : Option.Rel (Option.Rel (Frame.Akin K o)) frame frame') {frames frames' : List Frame}
    (hframes : List.Forall₂ (Frame.Akin K o) frames frames') :
    List.Forall₂ (Frame.Akin K o) (frame.join.toList ++ frames) (frame'.join.toList ++ frames') := by
  cases hframe with
  | none => exact hframes
  | some hframe =>
    cases hframe with
    | none => exact hframes
    | some hf => exact .cons hf hframes

section Lines

variable {l l' : Line} (h : l.Akin K o l')
include h

/-- Arrays that start with lines that are read alike. -/
theorem Gathering.akin_start (name text : Text) :
    (start l name text).Akin K o (start l' name text) :=
  ⟨rfl, rfl, rfl, .refl _, h.eolComment?, h.position⟩

/-- Arrays with one more line. -/
theorem Gathering.Akin.add {g g' : Gathering} (hg : g.Akin K o g') :
    (g.add l).Akin K o (g'.add l') := by
  unfold Gathering.add
  obtain ⟨text, text', htext, htext', halike⟩ | ⟨hnone, hnone'⟩ := h.comment?_cases
  · rw [htext, htext']
    have hremarks := (halike.map Call.comment).map₂ hg.remarks (· :: ·)
    exact ⟨hg.name, hg.text, hg.depth, hremarks, hg.comment, hg.opened⟩
  · rw [hnone, hnone', h.text]
    have hremarks := (h.eolComment?.map fun c => (c.map Call.eolComment).toList).map₂ hg.remarks
      (· ++ ·)
    refine ⟨hg.name, ?_, ?_, hremarks, hg.comment, hg.opened⟩
    · exact congrArg (· ++ _) hg.text
    · exact congrArg (· + _) hg.depth

/-- Both arrays are complete after the lines, or none of them is. -/
theorem Gathering.Akin.isClosedBy {g g' : Gathering} (hg : g.Akin K o g') :
    g.isClosedBy l = g'.isClosedBy l' := by
  unfold Gathering.isClosedBy
  rw [h.isComment, (hg.add h).depth]

/-- A parameter is open in both methods after the lines, or in none. -/
theorem OpenMethod.Akin.after {m m' : OpenMethod} (hm : m.Akin K m') :
    (m.after l).Akin K (m'.after l') := by
  unfold OpenMethod.after
  rw [h.directive?, h.closes, h.param.isOk_eq]
  split
  · exact ⟨hm.opened, hm.name, hm.access, congrArg (· || _) hm.paramOpen⟩
  · split
    · exact ⟨hm.opened, hm.name, hm.access, rfl⟩
    · exact hm

/-- The lines belong to both frames or to none. -/
theorem Frame.Akin.takes {f f' : Frame} (hf : f.Akin K o f') : f.takes l = f'.takes l' := by
  cases hf <;> simp only [Frame.takes, Line.leavesMethod, Line.leavesAnnotationBody,
    Gathering.isEndedBy, Line.opensMember, h.isComment, h.directive?, h.endOf?, h.closes]

/-! ## Annotations -/

/-- The arguments of annotations. -/
theorem akin_annotationHeader :
    Passage.Akin K o Eq (annotationHeader l) (annotationHeader l') :=
  (Passage.akin_ofExcept h.annotationHeader).next fun _ =>
    (Passage.akin_checkObject h _ _).next fun _ => Passage.akin_pure rfl

/-- The frames of annotations. -/
theorem akin_openAnnotationScope :
    Passage.Akin K o (Frame.Akin K o) (openAnnotationScope l) (openAnnotationScope l') := by
  refine (akin_annotationHeader h).outcome.bind fun r r' hr => ?_
  cases hr with
  | ok hheader =>
    obtain rfl := hheader
    exact (Passage.akin_enterLine h _).next fun _ =>
      Passage.akin_pure (.annotationBody h.position _)
  | error hfaults =>
    exact (Passage.akin_lift (Dialogue.akin_excuse hfaults)).next fun _ =>
      Passage.akin_pure (.skipping _)

/-- The frames of nested annotations. -/
theorem akin_openSubannotationScope (name descriptor : Text) :
    Passage.Akin K o (Frame.Akin K o) (openSubannotationScope l name descriptor)
      (openSubannotationScope l' name descriptor) :=
  (Passage.akin_ofExcept (h.parseType _)).next fun _ =>
    (Passage.akin_checkObject h _ _).next fun _ =>
      (Passage.akin_enterLine h _).next fun _ => Passage.akin_pure (.annotationBody h.position _)

omit h in
/-- Elements of annotations. -/
theorem akin_tellElement {p p' : Position} (hp : K.places p p') (name text : Text)
    {comment comment' : Option Call} (hcomment : o.Alike comment comment')
    {remarks remarks' : List Call} (hremarks : o.Alike remarks remarks') :
    Passage.Akin K o Eq (tellElement p name text comment remarks)
      (tellElement p' name text comment' remarks') :=
  (Passage.akin_ofExcept (Line.outcomes_decodeAt hp text)).next fun value =>
    (Passage.akin_checkValue hp value).next fun _ => (Passage.akin_tell _).next fun _ =>
      (Passage.akin_remark hcomment).next fun _ => Passage.akin_remarks hremarks id

/-- Lines of annotations. -/
theorem akin_elementLine :
    Passage.Akin K o (Option.Rel (Frame.Akin K o)) (elementLine l) (elementLine l') := by
  have hmalformed := h.grammar ("expected 'name = value', found '" ++ l'.text ++ "'")
  unfold elementLine
  rw [h.text]
  cases Text.cut? (· == '=') l'.text with
  | none => exact Passage.akin_throw hmalformed
  | some sides =>
    dsimp only
    split
    · exact Passage.akin_throw hmalformed
    · cases Text.after? ".subannotation" (Text.trim sides.2) with
      | some descriptor =>
        exact (akin_openSubannotationScope h _ descriptor).bind fun _ _ hf =>
          Passage.akin_pure (.some hf)
      | none =>
        dsimp only
        split
        · exact Passage.akin_pure (.some (.array (Gathering.akin_start h _ _)))
        · exact (akin_tellElement h.position _ _ (Passage.alike_eolCall? h) (.refl _)).next fun _ =>
            Passage.akin_pure .none

/-! ## Code -/

variable {m m' : OpenMethod} (hm : m.Akin K m')
include hm

/-- Methods that may have code. -/
theorem Passage.akin_checkCode : Akin K o Eq (checkCode l m) (checkCode l' m') := by
  unfold checkCode
  rw [hm.access, hm.name]
  exact akin_check h _ _

/-- Code. -/
theorem akin_codeLine : Passage.Akin K o Eq (codeLine m l) (codeLine m' l') := by
  unfold codeLine
  rw [h.text]
  exact (Passage.akin_checkCode h hm).next fun _ => Passage.akin_tellLine h _

/-- Closing lines in methods. -/
theorem akin_closingLine : Passage.Akin K o Eq (closingLine m l) (closingLine m' l') := by
  unfold closingLine
  simp only [h.closes, hm.paramOpen, h.text, hm.name]
  split
  · split
    · exact Passage.akin_tellLine h _
    · exact Passage.akin_throw (h.grammar _)
  · split
    · exact (Passage.akin_ofExcept h.localRegister).next fun _ => Passage.akin_tellLine h _
    · split
      · exact Passage.akin_throw (h.grammar _)
      · exact akin_codeLine h hm

/-- Handlers of one type. -/
theorem akin_catchingLine : Passage.Akin K o Eq (catchingLine m l) (catchingLine m' l') :=
  (Passage.akin_checkCode h hm).next fun _ => (Passage.akin_ofExcept h.handler).next fun _ =>
    (Passage.akin_ofExcept (h.parseType _)).next fun _ =>
      (Passage.akin_checkObject h _ _).next fun _ => Passage.akin_tellLine h _

/-- Handlers of all types. -/
theorem akin_catchAllLine : Passage.Akin K o Eq (catchAllLine m l) (catchAllLine m' l') := by
  unfold catchAllLine
  rw [h.text]
  refine (Passage.akin_checkCode h hm).next fun _ => (Passage.akin_ofExcept h.handler).next
    fun handler => ?_
  split
  · exact Passage.akin_tellLine h _
  · exact Passage.akin_throw (h.grammar _)

/-- Directives in methods. -/
theorem akin_directiveLine (d : Directive) :
    Passage.Akin K o Eq (directiveLine m l d) (directiveLine m' l' d) := by
  cases d with
  | registers | locals =>
    exact (Passage.akin_checkCode h hm).next fun _ => (Passage.akin_ofExcept h.count).next fun _ =>
      Passage.akin_tellLine h _
  | line => exact (Passage.akin_ofExcept h.count).next fun _ => Passage.akin_tellLine h _
  | param => exact (Passage.akin_ofExcept h.param).next fun _ => Passage.akin_tellLine h _
  | localVariable =>
    exact (Passage.akin_ofExcept h.localVariable).next fun _ => Passage.akin_tellLine h _
  | restart => exact (Passage.akin_ofExcept h.localRegister).next fun _ => Passage.akin_tellLine h _
  | prologue | epilogue => exact Passage.akin_tellLine h _
  | catching => exact akin_catchingLine h hm
  | catchAll => exact akin_catchAllLine h hm
  | other keyword => exact akin_codeLine h hm
  | _ =>
    unfold directiveLine
    rw [hm.name]
    exact Passage.akin_throw (h.grammar _)

/-- Lines of the bodies of methods. -/
theorem akin_bodyLine :
    Passage.Akin K o (Option.Rel (Frame.Akin K o)) (bodyLine m l) (bodyLine m' l') := by
  unfold bodyLine
  rw [h.directive?]
  cases l'.directive? with
  | none => exact (akin_codeLine h hm).next fun _ => Passage.akin_pure .none
  | some d =>
    cases d with
    | annotationStart =>
      exact (akin_openAnnotationScope h).bind fun _ _ hf => Passage.akin_pure (.some hf)
    | closing => exact (akin_closingLine h hm).next fun _ => Passage.akin_pure .none
    | _ => exact (akin_directiveLine h hm _).next fun _ => Passage.akin_pure .none

end Lines

end Kindred

end Smali
