import Smali.Proofs.TolerantLines

/-!
# A tolerant reader

However noisy a source is, and whatever the options are, the calls that are heard of a reading
can follow on each other. Each step of a reader leads from frames that are open at a spot to
such frames: a line is told by a call that can follow, it is skipped, or it is read in a scope
that nobody hears.
-/

namespace Smali

open Dialogue (excuse leads_excuse)

variable {o : Options} {p : Spot}

/-! ## Ends of scopes -/

/-- The end of a scope. -/
theorem leads_endScope {q : Spot} (h : p.next? o.validate .finish = some q) :
    endScope.Leads o p fun received r => received = none ∧ r = q := by
  have hspelled : Call.finish.IsSpelled := nofun
  refine ⟨_, q, .single ((isOneLine_of_line?_eq_none rfl).keepsToLine hspelled rfl) h,
    fun received hreceived => ?_⟩
  cases Except.ok.inj hreceived
  exact ⟨rfl, rfl⟩

/-- A comment at the level of the class. -/
theorem leads_remarkClass {text : Text} (h : text.IsInline) :
    (remarkClass text).Leads o p fun _ q => q = p := by
  refine Dialogue.Leads.bind (Passage.leads_remark (E := fun _ => False) fun call hcall =>
    Option.some.inj hcall ▸ ⟨rfl, Call.keepsToLine_of_note rfl h⟩) fun r q hr => ?_
  cases r with
  | ok _ => exact Dialogue.leads_pure hr
  | error fault => exact hr.elim

/-- Comments at the level of the class, one after another. -/
theorem leads_forM_remarkClass {texts : List Text} (h : ∀ text ∈ texts, text.IsInline) :
    (texts.forM remarkClass).Leads o p fun _ q => q = p := by
  induction texts with
  | nil => exact Dialogue.leads_pure rfl
  | cons text texts ih =>
    obtain ⟨htext, hrest⟩ := List.forall_mem_cons.mp h
    rw [List.forM_eq_forM, List.forM_cons]
    exact (leads_remarkClass htext).bind fun _ q hq => hq ▸ ih hrest

/-- What comes out of a scope that has ended well. -/
structure Arrival.IsQuiet (a : Arrival) : Prop where
  /-- No fault. -/
  fault : a.fault = none
  /-- Comments that keep to their lines. -/
  held : ∀ text ∈ a.held, text.IsInline

/-- Nothing is quiet. -/
theorem Arrival.isQuiet_nothing : Arrival.nothing.IsQuiet :=
  ⟨rfl, fun _ htext => absurd htext List.not_mem_nil⟩

/-- A frame that ends without a closing line. -/
theorem leads_close {f : Frame} {outer : List Frame} (h : p.Reaches (f :: outer) p)
    (before : Option Line) :
    (f.close before).Leads o p fun a q => a.IsQuiet ∧ p.Reaches outer q := by
  have hend : f.isScope = true → ∀ (opened : Position) (held : List Text),
      (∀ text ∈ held, text.IsInline) →
      Dialogue.Leads o p
        (do return (⟨(← endScope).map (·, opened), held⟩ : Arrival))
        fun a q => a.IsQuiet ∧ p.Reaches outer q := by
    intro hf opened held hheld
    obtain ⟨q, hnext, hq⟩ := h.finish o.validate hf
    refine (leads_endScope hnext).bind ?_
    rintro received r ⟨rfl, rfl⟩
    exact Dialogue.leads_pure ⟨⟨rfl, hheld⟩, hq⟩
  -- A missing end is excused where the scope is still open, and then the scope is ended.
  have hmissing : f.isScope = true → ∀ (fault : Fault) (opened : Position) (held : List Text),
      (∀ text ∈ held, text.IsInline) →
      Dialogue.Leads o p
        (do
          excuse fault
          return (⟨(← endScope).map (·, opened), held⟩ : Arrival))
        fun a q => a.IsQuiet ∧ p.Reaches outer q := by
    intro hf fault opened held hheld
    exact leads_excuse.bind fun _ q hq => hq ▸ hend hf opened held hheld
  have hnone : ∀ text ∈ ([] : List Text), text.IsInline :=
    fun _ htext => absurd htext List.not_mem_nil
  cases f with
  | field f =>
    have hheld : ∀ text ∈ f.held.reverse, text.IsInline := fun text htext =>
      h.notes _ List.mem_cons_self text (List.mem_reverse.mp htext)
    simp only [Frame.close]
    split
    · exact hmissing rfl _ f.opened _ hheld
    · exact hend rfl f.opened _ hheld
  | method m => exact hmissing rfl _ m.opened [] hnone
  | annotationBody opened name => exact hmissing rfl _ opened [] hnone
  | array g =>
    have hspans : Spans outer p := by
      cases h.spans with
      | array _ hspans => exact hspans
    refine leads_excuse.bind fun _ q hq => Dialogue.leads_pure ?_
    subst hq
    exact ⟨Arrival.isQuiet_nothing, hspans, h.notes_tail, rfl, rfl⟩
  | skipping name =>
    have hspans : Spans outer p := by
      cases h.spans with
      | skipping _ hspans => exact hspans
    exact Dialogue.leads_pure ⟨Arrival.isQuiet_nothing, hspans, h.notes_tail, rfl, rfl⟩

/-- What comes out of a scope is dealt with. -/
theorem leads_excuse_arrival {a : Arrival} (ha : a.IsQuiet) :
    a.excuse.Leads o p fun _ q => q = p := by
  unfold Arrival.excuse
  rw [ha.fault]
  exact Dialogue.leads_pure rfl

/-- Frames are left down to the first that stays. -/
theorem leads_unwind (before : Option Line) (stays : Frame → Bool) {frames : List Frame}
    (h : p.Reaches frames p) {a : Arrival} (ha : a.IsQuiet) :
    (unwind before stays a frames).Leads o p fun left q =>
      p.Reaches left q ∧ ∀ f ∈ left.head?, stays f = true := by
  induction frames generalizing a p with
  | nil =>
    refine Dialogue.Leads.bind (P := fun _ q => q = p) ?_ fun _ q hq =>
      Dialogue.leads_pure ⟨hq ▸ h, nofun⟩
    exact (leads_excuse_arrival ha).bind fun _ q hq => hq ▸ leads_forM_remarkClass ha.held
  | cons f outer ih =>
    have hstep : unwind before stays a (f :: outer) = (do
        a.excuse
        if stays f then return f :: outer
        else unwind before stays (← f.close before) outer) := by
      obtain ⟨fault, held⟩ := a
      obtain rfl : fault = none := ha.fault
      cases f <;> rfl
    rw [hstep]
    refine (leads_excuse_arrival ha).bind fun _ q hq => ?_
    subst hq
    split
    · rename_i hstays
      exact Dialogue.leads_pure ⟨h, fun f' hf' => Option.some.inj hf' ▸ hstays⟩
    · refine (leads_close h before).bind ?_
      rintro a' q ⟨ha', hq⟩
      exact (ih hq.here ha').weaken fun left r hr => ⟨hq.trans hr.1, hr.2⟩

/-- A closing line ends a scope. -/
theorem leads_closeBy {l : Line} (hl : l.IsPhysical) {opened : Position} {heard : Bool} {f : Frame}
    {outer : List Frame} (h : p.Reaches (f :: outer) p) (hf : f.isScope = true) :
    (closeBy l opened heard outer).Leads o p p.Reaches := by
  obtain ⟨q, hnext, hq⟩ := h.finish o.validate hf
  refine (leads_endScope hnext).bind ?_
  rintro received r ⟨rfl, rfl⟩
  refine Dialogue.Leads.bind (Passage.leads_remark (E := fun _ => False) ?_) fun r' q' hr => ?_
  · cases heard with
    | true => exact hl.eolCall?
    | false => exact fun call hcall => absurd hcall (Option.not_mem_none call)
  · cases r' with
    | ok _ => exact Dialogue.leads_pure (hr ▸ hq)
    | error fault => exact hr.elim

/-- A passage that no fault cuts short. -/
theorem leads_orRaise {opened : Position} {outer : List Frame} {d : Passage (List Frame)}
    {Q : List Frame → Spot → Prop} (h : d.Leads o p (fun _ => False) Q) :
    (orRaise opened outer d).Leads o p Q := by
  refine Dialogue.Leads.bind h fun r q hr => ?_
  cases r with
  | ok frames => exact Dialogue.leads_pure hr
  | error fault => exact hr.elim

/-! ## Lines in frames -/

section Frames

variable {l : Line} {outer : List Frame}

/-- A comment on a line of its own, inside of a scope. -/
theorem leads_remarkComment (hl : l.IsPhysical) {text : Text} (htext : l.comment? = some text)
    {opened : Position} {frames around : List Frame} (h : p.Reaches frames p) :
    (orRaise opened around do
      Passage.remark (some (.comment text))
      return frames).Leads o p p.Reaches :=
  leads_orRaise ((Passage.leads_remark fun _ hcall =>
    Option.some.inj hcall ▸ ⟨rfl, Call.keepsToLine_of_note rfl (hl.comment? htext)⟩).bind
      fun _ _ hq => Passage.leads_pure (hq ▸ h))

/-- A line in an annotation. -/
theorem leads_takeInAnnotationBody (hl : l.IsPhysical) {opened : Position} {name : Text}
    (h : p.Reaches (.annotationBody opened name :: outer) p) :
    (takeInAnnotationBody opened name l outer).Leads o p p.Reaches := by
  unfold takeInAnnotationBody
  dsimp only
  split
  · rename_i htext
    exact leads_remarkComment hl htext h
  · refine (leads_attempt (leads_elementLine hl h)).bind fun frame q hq => Dialogue.leads_pure ?_
    cases frame with
    | none => exact hq ▸ h
    | some frame => exact hq
  · split
    · exact leads_closeBy hl h rfl
    · exact leads_excuse.bind fun _ q hq => Dialogue.leads_pure (hq ▸ h)

/-- A line in an array. -/
theorem leads_takeInArray (hl : l.IsPhysical) {g : Gathering} (h : p.Reaches (.array g :: outer) p) :
    (takeInArray g l outer).Leads o p p.Reaches := by
  obtain ⟨hremarks, hcomment⟩ : (∀ call ∈ g.remarks, call.isComment = true ∧ call.KeepsToLine) ∧
      ∀ text ∈ g.comment, text.IsInline := h.notes _ List.mem_cons_self
  have hadd : (∀ call ∈ (g.add l).remarks, call.isComment = true ∧ call.KeepsToLine) ∧
      (g.add l).comment = g.comment := by
    unfold Gathering.add
    split
    · rename_i text htext
      exact ⟨List.forall_mem_cons.mpr
        ⟨⟨rfl, Call.keepsToLine_of_note rfl (hl.comment? htext)⟩, hremarks⟩, rfl⟩
    · refine ⟨fun call hcall => ?_, rfl⟩
      rcases List.mem_append.mp hcall with hcall | hcall
      · exact hl.eolCall? call (Option.mem_toList.mp hcall)
      · exact hremarks call hcall
  unfold takeInArray
  dsimp only
  cases h.spans with
  | @array _ opened name frames _ hspans =>
    have hbody : p.Reaches (.annotationBody opened name :: frames) p :=
      ⟨hspans, h.notes_tail, rfl, rfl⟩
    split
    · refine (leads_attempt (leads_tellElement hbody (fun call hcall => ?_) fun call hcall =>
        hadd.1 call (List.mem_reverse.mp hcall))).bind fun told q hq => Dialogue.leads_pure ?_
      · obtain ⟨text, htext, rfl⟩ := Option.map_eq_some_iff.mp hcall
        exact ⟨rfl, Call.keepsToLine_of_note rfl (hcomment text htext)⟩
      · cases told <;> exact hq ▸ hbody
    · refine Dialogue.leads_pure ⟨.array _ hspans, List.forall_mem_cons.mpr ⟨?_, h.notes_tail⟩,
        rfl, rfl⟩
      exact ⟨hadd.1, hadd.2 ▸ hcomment⟩

/-- A line in a field. -/
theorem leads_takeInField (hl : l.IsPhysical) {f : OpenField} (h : p.Reaches (.field f :: outer) p) :
    (takeInField f l outer).Leads o p p.Reaches := by
  have hheld : ∀ text ∈ f.held, text.IsInline := h.notes _ List.mem_cons_self
  -- Whatever is noted of the field, it is the same scope.
  have hsame : ∀ {g : OpenField}, (∀ text ∈ g.held, text.IsInline) →
      p.Reaches (.field g :: outer) p := by
    intro g hg
    refine ⟨?_, List.forall_mem_cons.mpr ⟨hg, h.notes_tail⟩, rfl, rfl⟩
    cases h.spans with
    | field _ hnest hhost => exact .field g hnest hhost
    | unheardField _ hnest hhost => exact .unheardField g hnest hhost
  unfold takeInField
  split
  · rename_i text htext
    exact Dialogue.leads_pure (hsame (List.forall_mem_cons.mpr ⟨hl.comment? htext, hheld⟩))
  · have hremarks : ∀ texts : List Text, (∀ text ∈ texts, text.IsInline) →
        (texts.forM fun text => Passage.remark (some (.comment text))).Leads o p
          (fun _ => False) fun _ q => q = p := by
      intro texts htexts
      induction texts with
      | nil => exact Passage.leads_pure rfl
      | cons text texts ih =>
        obtain ⟨htext, hrest⟩ := List.forall_mem_cons.mp htexts
        rw [List.forM_eq_forM, List.forM_cons]
        exact (Passage.leads_remark fun call hcall =>
          Option.some.inj hcall ▸ ⟨rfl, Call.keepsToLine_of_note rfl htext⟩).bind
            fun _ q hq => hq ▸ ih hrest
    refine Dialogue.Leads.bind (hremarks f.held.reverse fun text htext =>
      hheld text (List.mem_reverse.mp htext)) fun told q hq => ?_
    cases told with
    | error fault => exact hq.elim
    | ok _ =>
      obtain rfl : q = p := hq
      dsimp only
      split
      · exact leads_closeBy hl h rfl
      · have hmarked := hsame (g := { f with annotated := true, held := [] })
          fun _ htext => absurd htext List.not_mem_nil
        have hnotes : ∀ f' ∈ Frame.annotationBody l.position "annotation" ::
            .field { f with annotated := true, held := [] } :: outer, f'.HoldsNotes :=
          List.forall_mem_cons.mpr ⟨trivial, hmarked.notes⟩
        have hopen : ∃ r, (∀ visibility type, (o.validate = true → type.isObject = true) →
              q.next? o.validate (.annotationStart visibility type) = some r) ∧
            q.Reaches (.annotationBody l.position "annotation" ::
              .field { f with annotated := true, held := [] } :: outer) r := by
          cases h.spans with
          | @field _ s annotated hnest hhost =>
            refine ⟨⟨{ s with host := some (.field true), nest := 1 }, 0⟩,
              fun visibility type hobject => Spot.next?_of_accept
                (Site.accept_of_next? hobject (Site.next?_of_field hnest hhost _)), ?_, hnotes,
              rfl, rfl⟩
            exact .annotationBody _ _ (s := { s with host := some (.field true), nest := 1 }) rfl
              (.field _ rfl rfl)
          | unheardField _ hnest hhost =>
            exact ⟨_, fun _ _ _ => rfl, .unheardBody _ _ (.unheardField _ hnest hhost), hnotes,
              rfl, rfl⟩
        obtain ⟨r, hnext, hr⟩ := hopen
        refine leads_orRaise ((leads_openAnnotationScope hl hnext).bind ?_)
        rintro frame r' (⟨rfl, rfl⟩ | ⟨rfl, rfl⟩)
        · exact Passage.leads_pure ⟨.skipping _ hmarked.spans,
            List.forall_mem_cons.mpr ⟨trivial, hmarked.notes⟩, rfl, rfl⟩
        · exact Passage.leads_pure hr

/-- A line in a method. -/
theorem leads_takeInMethod (hl : l.IsPhysical) {m : OpenMethod}
    (h : p.Reaches (.method m :: outer) p) : (takeInMethod m l outer).Leads o p p.Reaches := by
  unfold takeInMethod
  split
  · rename_i text htext
    exact leads_remarkComment hl htext h
  · rename_i hnone
    have hcomment : l.isComment = false := by rw [Line.isComment, hnone]; rfl
    split
    · exact leads_closeBy hl h rfl
    · rename_i hend
      cases h.spans with
      | method _ hnest hhost =>
        refine (leads_attempt (leads_bodyLine hnest hhost hl hcomment
          (Bool.eq_false_iff.mpr hend))).bind fun frame q hq => Dialogue.leads_pure ?_
        cases frame <;> exact hq

end Frames

/-! ## Lines of a class -/

/-- Whether a reader can be at a stage when the class has come to a phase. Behind a class line
that was skipped the class counts as told of. -/
def Stage.Fits (phase : Phase) : Stage → Prop
  | .start => phase = .start
  | .header => phase = .header
  | .body => phase ≠ .start
  | _ => False

/-- A reader whose frames are open at a spot. -/
structure Control.IsAt (c : Control) (p : Spot) : Prop where
  /-- The stage fits. -/
  stage : c.stage.Fits p.site.phase
  /-- Both know the same members. -/
  declared : c.declared = p.site.declared
  /-- The frames are open. -/
  reaches : p.Reaches c.frames p

/-- A reader with other frames of the same members. -/
theorem Control.IsAt.reach {c : Control} (h : c.IsAt p) {frames : List Frame} {q : Spot}
    (hq : p.Reaches frames q) : { c with frames := frames }.IsAt q :=
  ⟨hq.phase ▸ h.stage, h.declared.trans hq.declared.symm, hq.here⟩

/-- What a directive at the level of the class leads to. -/
theorem Stage.next?_cases {phase : Phase} {stage next : Stage} {d : Directive}
    (hstage : stage.Fits phase) (h : stage.next? d = some next) :
    next = .header ∧ (phase = .start ∧ d = .ofClass ∨
        phase = .header ∧ (d = .superType ∨ d = .implements ∨ d = .source)) ∨
      phase ≠ .start ∧ (next = .field ∧ d = .field ∨ next = .method ∧ d = .method ∨
        next = .annotationBody ∧ d = .annotationStart) := by
  cases stage <;> cases d <;> simp_all [next?, Fits]

section Class

variable {c : Control} {s : Site} {l : Line}

/-- What the line of a field tells passes the checks. -/
theorem leads_fieldHeader (hdeclared : c.declared = s.declared) :
    (fieldHeader c.declared l).Leads o p (· = p) fun f q => q = p ∧ l.field = .ok f ∧
      (o.validate = true → s.allows (.field f.name f.access f.type f.value) = true) := by
  refine Passage.leads_ofExcept_bind (fun _ _ => rfl) fun f hf => ?_
  have hrest : (o.validate = true → (!c.declared.contains (.field f.name)) = true →
        s.allows (.field f.name f.access f.type f.value) = true) →
      (do
        Passage.check l (!c.declared.contains (.field f.name)) ("duplicate field " ++ f.name)
        return f : Passage Line.FieldArguments).Leads o p (· = p) fun f q => q = p ∧
          l.field = .ok f ∧
          (o.validate = true → s.allows (.field f.name f.access f.type f.value) = true) := by
    intro hallows
    exact Passage.leads_require_bind fun hfresh => Passage.leads_pure
      ⟨rfl, hf, fun hvalidate => hallows hvalidate (hfresh hvalidate)⟩
  dsimp only
  cases hv : f.value with
  | none =>
    refine hrest fun _ hfresh => ?_
    unfold Site.allows
    rw [hv, ← hdeclared]
    exact hfresh
  | some v =>
    refine Passage.leads_require_bind fun hassignable => ?_
    refine Passage.leads_checkValue_bind fun hobjections =>
      hrest fun hvalidate hfresh => ?_
    unfold Site.allows
    rw [hv, ← hdeclared]
    dsimp only
    rw [hassignable hvalidate, hobjections hvalidate]
    exact hfresh

/-- What the line of a method tells passes the checks. -/
theorem leads_methodHeader (hdeclared : c.declared = s.declared) :
    (methodHeader c.declared l).Leads o p (· = p) fun m q => q = p ∧ l.method = .ok m ∧
      (o.validate = true → s.allows (.method m.name m.access m.signature) = true) := by
  refine Passage.leads_ofExcept_bind (fun _ _ => rfl) fun m hm => ?_
  refine Passage.leads_require_bind fun hresult => ?_
  refine Passage.leads_require_bind fun hparams => ?_
  refine Passage.leads_require_bind fun hfresh => Passage.leads_pure ⟨rfl, hm, fun hvalidate => ?_⟩
  unfold Site.allows
  rw [Bool.and_eq_true, Bool.and_eq_true]
  exact ⟨⟨hresult hvalidate, hparams hvalidate⟩, hdeclared ▸ hfresh hvalidate⟩

variable (hl : l.IsPhysical) (hnest : s.nest = 0) (hhost : s.host = none)
  (hdeclared : c.declared = s.declared)

include hl hnest hhost

/-- Going into a member of the class. -/
theorem leads_enterMember {call : Call} {q : Spot} (hmoves : call.moves = [.enter call])
    (hcall : l.classCall? = some call) (hspelled : call.IsSpelled) (hcomment : call.isComment = false)
    (hnext : s.inClass? call = some q.site) (hq : q.hushed = 0)
    (hallows : o.validate = true → s.allows call = true) {f : Frame} :
    (Dialogue.attempt l.position (Passage.enter call l.eolCall?)).Leads o ⟨s, 0⟩ fun opened r =>
      (opened.map fun _ => f).toList = [f] ∧ r = q := by
  have hspot : Spot.next? o.validate ⟨s, 0⟩ call = some q := by
    rw [Spot.next?_of_accept (Site.accept_of_next? hallows
      ((Site.next?_of_class hnest hhost call).trans hnext)), ← hq]
  refine (leads_attempt (E := fun _ => False) (leads_enterLine hl hmoves
    (Line.isOneLine_of_classCall? hl.code hcall) hspot hcomment hspelled)).weaken
      fun opened r hr => ?_
  cases opened with
  | none => exact hr.elim
  | some _ => exact ⟨rfl, hr⟩

include hdeclared

/-- The line of a field. -/
theorem leads_openField (hd : l.directive? = some .field) (hstage : c.stage = .body)
    (hphase : s.phase ≠ .start) : (c.openField l).Leads o ⟨s, 0⟩ Control.IsAt := by
  refine Dialogue.Leads.bind (leads_fieldHeader hdeclared) fun r q hr => ?_
  cases r with
  | error fault =>
    obtain rfl : q = ⟨s, 0⟩ := hr
    refine leads_excuse.bind fun _ q hq => ?_
    subst hq
    refine Dialogue.leads_hush.bind fun _ q hq => Dialogue.leads_pure ?_
    subst hq
    refine ⟨by rw [hstage]; exact hphase, hdeclared, .unheardField _ hnest hhost, ?_, rfl, rfl⟩
    exact List.forall_mem_singleton.mpr fun _ htext => absurd htext List.not_mem_nil
  | ok f =>
    obtain ⟨rfl, hf, hallows⟩ := hr
    have hcall : l.classCall? = some (.field f.name f.access f.type f.value) := by
      simp only [Line.classCall?, hd, hf]
      rfl
    have hnext : s.inClass? (.field f.name f.access f.type f.value) = some { s with
        phase := .body
        declared := .field f.name :: s.declared
        host := some (.field false) } := if_neg hphase
    refine (leads_enterMember hl hnest hhost rfl hcall
      (fun _ _ _ h => by cases h) rfl (q := ⟨_, 0⟩) hnext rfl hallows
      (f := .field ⟨l.position, false, [], true⟩)).bind ?_
    rintro opened r ⟨hframes, rfl⟩
    refine Dialogue.leads_pure ⟨?_, congrArg (Member.field f.name :: ·) hdeclared, ?_⟩
    · rw [hstage]
      exact Phase.noConfusion
    · dsimp only
      rw [hframes]
      refine ⟨.field _ hnest rfl, ?_, rfl, rfl⟩
      exact List.forall_mem_singleton.mpr fun _ htext => absurd htext List.not_mem_nil

/-- The line of a method. -/
theorem leads_openMethod (hd : l.directive? = some .method) (hstage : c.stage = .body)
    (hphase : s.phase ≠ .start) : (c.openMethod l).Leads o ⟨s, 0⟩ Control.IsAt := by
  refine Dialogue.Leads.bind (leads_methodHeader hdeclared) fun r q hr => ?_
  cases r with
  | error fault =>
    obtain rfl : q = ⟨s, 0⟩ := hr
    refine leads_excuse.bind fun _ q hq => Dialogue.leads_pure ?_
    subst hq
    exact ⟨by rw [hstage]; exact hphase, hdeclared, .skipping _ (.idle hnest hhost),
      List.forall_mem_singleton.mpr trivial, rfl, rfl⟩
  | ok m =>
    obtain ⟨rfl, hm, hallows⟩ := hr
    have hcall : l.classCall? = some (.method m.name m.access m.signature) := by
      simp only [Line.classCall?, hd, hm]
      rfl
    have hnext : s.inClass? (.method m.name m.access m.signature) = some { s with
        phase := .body
        declared := .method m.name m.signature :: s.declared
        host := some (.method m.name m.access false) } := if_neg hphase
    refine (leads_enterMember hl hnest hhost rfl hcall (Line.isSpelled_of_method hm) rfl
      (q := ⟨_, 0⟩) hnext rfl hallows (f := .method ⟨l.position, m.name, m.access, false⟩)).bind ?_
    rintro opened r ⟨hframes, rfl⟩
    refine Dialogue.leads_pure ⟨?_, congrArg (Member.method m.name m.signature :: ·) hdeclared, ?_⟩
    · rw [hstage]
      exact Phase.noConfusion
    · dsimp only
      rw [hframes]
      exact ⟨.method _ hnest rfl, List.forall_mem_singleton.mpr trivial, rfl, rfl⟩

/-- The line of an annotation of the class. -/
theorem leads_openClassAnnotation (hphase : s.phase ≠ .start) :
    (do
      let frame ← Dialogue.attempt l.position (openAnnotationScope l)
      return { c with stage := .body, frames := frame.toList } : Dialogue Control).Leads o ⟨s, 0⟩
        Control.IsAt := by
  have hnext : ∀ visibility type, s.next? (.annotationStart visibility type) =
      some { s with phase := .body, nest := 1 } := fun visibility type =>
    (Site.next?_of_class hnest hhost _).trans (if_neg hphase)
  refine (leads_attempt (E := fun _ => False) (leads_openAnnotationScope hl
    fun visibility type hobject => Spot.next?_of_accept
      (Site.accept_of_next? hobject (hnext visibility type)))).bind fun frame r hr => ?_
  cases frame with
  | none => exact hr.elim
  | some frame =>
    rcases hr with ⟨rfl, rfl⟩ | ⟨rfl, rfl⟩
    · exact Dialogue.leads_pure ⟨hphase, hdeclared, .skipping _ (.idle hnest hhost),
        List.forall_mem_singleton.mpr trivial, rfl, rfl⟩
    · refine Dialogue.leads_pure ⟨Phase.noConfusion, hdeclared, ?_,
        List.forall_mem_singleton.mpr trivial, rfl, rfl⟩
      exact .annotationBody _ _ (s := { s with phase := .body, nest := 1 }) rfl (.idle rfl hhost)

/-- A line of the class header. The class line may be skipped. -/
theorem leads_headerDirective (hframes : c.frames = []) {d : Directive} (hd : l.directive? = some d)
    (hheader : s.phase = .start ∧ d = .ofClass ∨
      s.phase = .header ∧ (d = .superType ∨ d = .implements ∨ d = .source)) :
    (do
      let _ ← Dialogue.attempt l.position (headerLine l d)
      return { c with stage := .header } : Dialogue Control).Leads o ⟨s, 0⟩ Control.IsAt := by
  have hat : ∀ {s' : Site}, s'.phase = .header → s'.declared = s.declared → s'.nest = 0 →
      s'.host = none → { c with stage := .header }.IsAt ⟨s', 0⟩ := by
    intro s' hphase hdeclared' hnest' hhost'
    refine ⟨hphase, hdeclared.trans hdeclared'.symm, ?_⟩
    dsimp only
    rw [hframes]
    exact ⟨.idle hnest' hhost', fun _ hf => absurd hf List.not_mem_nil, rfl, rfl⟩
  have hclass := Site.next?_of_class hnest hhost
  have hline : ∀ (s' : Site), (∀ call, l.classCall? = some call → s.inClass? call = some s') →
      (headerLine l d).Leads o ⟨s, 0⟩ (· = ⟨s, 0⟩) fun _ q => q = ⟨s', 0⟩ :=
    fun s' hnext => leads_headerLine hl hd (by tauto)
      fun call hcall => (hclass call).trans (hnext call hcall)
  rcases hheader with ⟨hphase, rfl⟩ | ⟨hphase, hother⟩
  · refine (leads_attempt (hline { s with phase := .header } fun call hcall => ?_)).bind
      fun told q hq => ?_
    · rw [Line.classCall?, hd] at hcall
      obtain ⟨header, -, rfl⟩ := Option.map_eq_some_iff.mp hcall
      exact if_pos hphase
    · cases told with
      | none =>
        obtain rfl : q = ⟨s, 0⟩ := hq
        refine ⟨[], _, .skipClass hphase .nil, fun c' hc' => ?_⟩
        obtain rfl := Except.ok.inj hc'
        exact hat rfl rfl hnest hhost
      | some _ =>
        obtain rfl : q = ⟨{ s with phase := .header }, 0⟩ := hq
        exact Dialogue.leads_pure (hat rfl rfl hnest hhost)
  · refine (leads_attempt (hline s fun call hcall => ?_)).bind fun told q hq => ?_
    · rcases hother with rfl | rfl | rfl <;>
        · rw [Line.classCall?, hd] at hcall
          obtain ⟨argument, -, rfl⟩ := Option.map_eq_some_iff.mp hcall
          exact if_pos hphase
    · obtain rfl : q = ⟨s, 0⟩ := by cases told <;> exact hq
      exact Dialogue.leads_pure (hat hphase rfl hnest hhost)

end Class

/-- A line at the level of the class. -/
theorem leads_classLine {c : Control} (hframes : c.frames = []) {l : Line} (hl : l.IsPhysical)
    (h : c.IsAt p) : (c.classLine l).Leads o p Control.IsAt := by
  have hspans := h.reaches.spans
  rw [hframes] at hspans
  have hexcuse : ∀ fault, Dialogue.Leads o p (do
      excuse fault
      return c) Control.IsAt :=
    fun fault => leads_excuse.bind fun _ q hq => Dialogue.leads_pure (hq ▸ h)
  cases hspans with
  | @idle s hnest hhost =>
    unfold Control.classLine
    split
    · rename_i text htext
      exact (leads_remarkClass (hl.comment? htext)).bind
        fun _ q hq => Dialogue.leads_pure (hq ▸ h)
    · exact hexcuse _
    · exact hexcuse _
    · rename_i d _ hd
      split
      · rename_i next hnext
        have hbody : { c with stage := .body }.declared = s.declared := h.declared
        rcases Stage.next?_cases h.stage hnext with ⟨rfl, hheader⟩ | ⟨hphase, hmember⟩
        · exact leads_headerDirective hl hnest hhost h.declared hframes hd hheader
        · rcases hmember with ⟨rfl, rfl⟩ | ⟨rfl, rfl⟩ | ⟨rfl, rfl⟩
          · exact leads_openField hl hnest hhost hbody hd rfl hphase
          · exact leads_openMethod hl hnest hhost hbody hd rfl hphase
          · exact leads_openClassAnnotation hl hnest hhost h.declared hphase
      · exact hexcuse _

/-! ## Readings -/

/-- A line in the innermost of some frames. -/
theorem leads_takeInner {c : Control} {l : Line} (hl : l.IsPhysical) {frames : List Frame}
    (h : { c with frames := frames }.IsAt p) : (c.takeInner l frames).Leads o p Control.IsAt := by
  have hnext : ∀ {d : Dialogue (List Frame)}, d.Leads o p p.Reaches →
      Dialogue.Leads o p (do return { c with frames := ← d }) Control.IsAt :=
    fun hd => hd.bind fun _ q hq => Dialogue.leads_pure (h.reach hq)
  have hframes := h.reaches
  unfold Control.takeInner
  split
  · exact leads_classLine rfl hl h
  · exact hnext (leads_takeInField hl hframes)
  · exact hnext (leads_takeInMethod hl hframes)
  · exact hnext (leads_takeInAnnotationBody hl hframes)
  · exact hnext (leads_takeInArray hl hframes)
  · rename_i name outer
    refine Dialogue.leads_pure ?_
    split
    · have hspans : Spans outer p := by
        cases hframes.spans with
        | skipping _ hspans => exact hspans
      exact h.reach ⟨hspans, hframes.notes_tail, rfl, rfl⟩
    · exact h

/-- A line. -/
theorem leads_take {c : Control} {l : Line} (hl : l.IsPhysical) (h : c.IsAt p) :
    (c.take l).Leads o p Control.IsAt :=
  (leads_unwind (some l) _ h.reaches Arrival.isQuiet_nothing).bind
    fun _ _ hq => leads_takeInner hl (h.reach hq.1)

/-- From a spot on, a dialogue tells calls that can follow. If it comes to its end, it leaves
nothing open and ends the class. -/
def Dialogue.LeadsOut (o : Options) (p : Spot) (d : Dialogue Unit) : Prop :=
  ∃ moves calls q, Overhears o.validate p moves calls q ∧
    match (d.rehearse o).result with
    | .ok _ => (d.rehearse o).moves = moves ++ [.tell .finish] ∧ q.hushed = 0 ∧
      q.site.nest = 0 ∧ q.site.host = none
    | .error _ => (d.rehearse o).moves = moves

/-- A dialogue that leads to another one. -/
theorem Dialogue.Leads.leadsOut {α : Type} {d : Dialogue α} {f : α → Dialogue Unit}
    {P : α → Spot → Prop} (h : d.Leads o p P) (hf : ∀ a q, P a q → (f a).LeadsOut o q) :
    (d >>= f).LeadsOut o p := by
  unfold LeadsOut
  rw [rehearse_bind]
  unfold Rehearsal.andThen
  obtain ⟨calls, q, hmoves, ha⟩ := h
  cases hd : (d.rehearse o).result with
  | error fault => exact ⟨_, calls, q, hmoves, rfl⟩
  | ok a =>
    obtain ⟨moves, more, r, hmore, hr⟩ := hf a q (ha a hd)
    refine ⟨(d.rehearse o).moves ++ moves, calls ++ more, r, hmoves.append hmore, ?_⟩
    dsimp only [Rehearsal.after]
    cases hresult : ((f a).rehearse o).result with
    | ok _ =>
      rw [hresult] at hr
      exact ⟨by rw [hr.1, List.append_assoc], hr.2⟩
    | error fault =>
      rw [hresult] at hr
      exact congrArg (_ ++ ·) hr

/-- The end of a source. -/
theorem leadsOut_finish {c : Control} (h : c.IsAt p) : c.finish.LeadsOut o p := by
  refine (leads_unwind none _ h.reaches Arrival.isQuiet_nothing).leadsOut fun left q hq => ?_
  have hleft : left = [] := by
    cases left with
    | nil => rfl
    | cons f _ => exact absurd (hq.2 f rfl) Bool.false_ne_true
  subst hleft
  have hclass : Dialogue.LeadsOut o q (do
      match ← (Passage.tell .finish).run with
      | .ok _ => return ()
      | .error fault => .halt fault) := by
    cases hq.1.spans with
    | idle hnest hhost => exact ⟨[], [], _, .nil, rfl, rfl, hnest, hhost⟩
  dsimp only
  split
  · exact leads_excuse.leadsOut fun _ r hr => hr ▸ hclass
  · exact hclass

/-- Any lines. -/
theorem leadsOut_readLines {lines : List (Except Fault Line)}
    (hlines : ∀ l, .ok l ∈ lines → l.IsPhysical) {c : Control} (h : c.IsAt p) :
    (c.readLines lines).LeadsOut o p := by
  induction lines generalizing c p with
  | nil => exact leadsOut_finish h
  | cons line lines ih =>
    have hrest : ∀ l, .ok l ∈ lines → l.IsPhysical :=
      fun l hl => hlines l (List.mem_cons_of_mem _ hl)
    cases line with
    | error fault => exact leads_excuse.leadsOut fun _ q hq => ih hrest (hq ▸ h)
    | ok l =>
      exact (leads_take (hlines l List.mem_cons_self) h).leadsOut fun c' q hc => ih hrest hc

/-- A comment is a part of its line. -/
theorem commentBody_subset (raw : Text) : commentBody raw ⊆ raw := by
  have hright : ∀ t : Text, Text.trimRight t ⊆ t := by
    intro t c hc
    have hmem := (List.dropWhile_suffix Text.isBlank).subset (List.mem_reverse.mp hc)
    exact List.mem_reverse.mp hmem
  unfold commentBody
  refine List.Subset.trans (hright _) (List.Subset.trans ?_ (List.drop_subset 1 raw))
  cases h : Text.after? [' '] (raw.drop 1) with
  | none => exact List.Subset.refl _
  | some rest => exact Line.subset_of_after? h

/-- A line that is not blank stands on one line. -/
theorem isPhysical_of_ofText {source t : Text} (ht : t ∈ Text.lines source)
    (hne : (Text.trim t).isEmpty = false) {number : Nat} {l : Line}
    (h : Line.ofText number t = .ok l) : l.IsPhysical := by
  have hline : lineOf (Text.trim t) = some l.unplaced := by
    rw [← unplaced_ofText_eq_lineOf number t, h]
    rfl
  have hcode : Text.trim t ∈ Text.codeLines source :=
    List.mem_filter.mpr ⟨List.mem_map_of_mem ht, by rw [hne]; rfl⟩
  have hinline := Text.isInline_of_mem_lines ht
  refine ⟨?_, fun hcomment => ?_, fun text htext => ?_⟩
  · have hsubset := subset_of_lineOf hline
    rw [Line.text_unplaced] at hsubset
    exact (hinline.of_subset (Text.trim_subset t)).of_subset hsubset
  · exact (isInline_of_codeLines hcode hline (l.isComment_unplaced.trans hcomment)).2
  · obtain ⟨s, hs, rfl⟩ := exists_of_map_eq_ok h
    rw [Option.map_map] at htext
    obtain ⟨⟨raw, position⟩, hremark, rfl⟩ := Option.map_eq_some_iff.mp htext
    refine hinline.of_subset (List.Subset.trans (commentBody_subset raw) fun c hc => ?_)
    rw [← all_of_scan hs]
    unfold Scanned.all
    rw [hremark]
    exact List.mem_append_right _ hc

/-- Every line of a source stands on one line. -/
theorem isPhysical_of_mem_scanLines {source : Text} {l : Line} (h : .ok l ∈ scanLines source) :
    l.IsPhysical := by
  obtain ⟨⟨number, t⟩, ht, hline⟩ := List.mem_map.mp h
  obtain ⟨⟨t', number'⟩, hmem, hsome⟩ := List.mem_filterMap.mp ht
  dsimp only at hsome
  split at hsome
  · cases hsome
  · rename_i hne
    cases hsome
    exact isPhysical_of_ofText (List.fst_mem_of_mem_zipIdx hmem) (Bool.eq_false_iff.mpr hne) hline

/-- The calls that are heard of a source, whatever the options are, can follow on each other. They
leave nothing open. -/
theorem leadsOut_dialogue (o : Options) (source : Text) :
    (dialogue o source).LeadsOut o ⟨Site.initial o.snippet, 0⟩ := by
  refine leadsOut_readLines (fun l hl => isPhysical_of_mem_scanLines hl) ⟨?_, rfl, ?_⟩
  · unfold Control.initial Site.initial
    cases o.snippet
    · exact rfl
    · exact Phase.noConfusion
  · exact ⟨.idle rfl rfl, fun _ hf => absurd hf List.not_mem_nil, rfl, rfl⟩

end Smali
