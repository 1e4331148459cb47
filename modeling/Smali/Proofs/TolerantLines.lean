import Smali.Proofs.Overheard
import Smali.Proofs.ScopeOrder

/-!
# Lines of a tolerant reading

Whatever the options are, a line of a source is told by a call that can follow where the reading
stands, or it is skipped before any call is made. This module states what a dialogue leads to
from a spot, and proves it of everything that a reader does with a single line.
-/

namespace Smali

/-! ## Dialogues -/

namespace Dialogue

variable {α β : Type} {o : Options} {p : Spot}

/-- From a spot on, a dialogue leads to another spot. A result stands in a relation to it. -/
def Leads (o : Options) (p : Spot) (d : Dialogue α) (Q : α → Spot → Prop) : Prop :=
  ∃ calls q, Overhears o.validate p (d.rehearse o).moves calls q ∧
    ∀ a, (d.rehearse o).result = .ok a → Q a q

/-- A result that is there at once. -/
theorem leads_pure {a : α} {Q : α → Spot → Prop} (h : Q a p) : Leads o p (pure a) Q :=
  ⟨[], p, .nil, fun _ ha => Except.ok.inj ha ▸ h⟩

/-- Two dialogues in a row. -/
theorem Leads.bind {d : Dialogue α} {f : α → Dialogue β} {P : α → Spot → Prop}
    {Q : β → Spot → Prop} (h : Leads o p d P) (hf : ∀ a q, P a q → Leads o q (f a) Q) :
    Leads o p (d >>= f) Q := by
  unfold Leads
  rw [rehearse_bind]
  unfold Rehearsal.andThen
  obtain ⟨calls, q, hmoves, ha⟩ := h
  cases hd : (d.rehearse o).result with
  | error fault => exact ⟨calls, q, hmoves, nofun⟩
  | ok a =>
    obtain ⟨more, r, hmore, hr⟩ := hf a q (ha a hd)
    exact ⟨calls ++ more, r, hmoves.append hmore, hr⟩

/-- A weaker relation at the end. -/
theorem Leads.weaken {d : Dialogue α} {P Q : α → Spot → Prop} (h : Leads o p d P)
    (hpq : ∀ a q, P a q → Q a q) : Leads o p d Q := by
  obtain ⟨calls, q, hmoves, hq⟩ := h
  exact ⟨calls, q, hmoves, fun a ha => hpq a q (hq a ha)⟩

/-- An act without moves. -/
theorem leads_perform {a : Act} (h : a.moves o = []) : Leads o p (perform a) fun _ q => q = p := by
  unfold Leads perform rehearse
  cases hstop : a.stop? o with
  | some fault => exact ⟨[], p, .nil, fun _ h => by cases h⟩
  | none =>
    refine ⟨[], p, ?_, fun _ _ => rfl⟩
    simp only [Rehearsal.after, h, rehearse, List.append_nil]
    exact .nil

/-- Skipping over a fault. -/
theorem leads_excuse {fault : Fault} : Leads o p (excuse fault) fun _ q => q = p :=
  leads_perform rfl

/-- Going into a scope that nobody hears. -/
theorem leads_hush : Leads o p hush fun _ q => q = ⟨p.site, p.hushed + 1⟩ :=
  ⟨[], _, .hush .nil, fun _ _ => rfl⟩

end Dialogue

/-! ## Passages -/

namespace Passage

variable {α β : Type} {o : Options} {p : Spot} {E : Spot → Prop}

/-- From a spot on, a passage leads to another spot. Its result, or the fault that cuts it short,
stands in a relation to that spot. -/
def Leads (o : Options) (p : Spot) (d : Passage α) (E : Spot → Prop) (Q : α → Spot → Prop) : Prop :=
  d.run.Leads o p fun
    | .ok a => Q a
    | .error _ => E

/-- A result that is there at once. -/
theorem leads_pure {a : α} {Q : α → Spot → Prop} (h : Q a p) : Leads o p (pure a) E Q :=
  Dialogue.leads_pure h

/-- A fault that is there at once. -/
theorem leads_throw {fault : Fault} {Q : α → Spot → Prop} (h : E p) :
    Leads o p (throw fault) E Q :=
  Dialogue.leads_pure (a := Except.error fault) h

/-- Two passages in a row. -/
theorem Leads.bind {d : Passage α} {f : α → Passage β} {P : α → Spot → Prop}
    {Q : β → Spot → Prop} (h : Leads o p d E P) (hf : ∀ a q, P a q → Leads o q (f a) E Q) :
    Leads o p (d >>= f) E Q := by
  refine Dialogue.Leads.bind h fun r q hr => ?_
  cases r with
  | ok a => exact hf a q hr
  | error fault => exact Dialogue.leads_pure hr

/-- A weaker relation at the end. -/
theorem Leads.weaken {d : Passage α} {E' : Spot → Prop} {P Q : α → Spot → Prop}
    (h : Leads o p d E P) (he : ∀ q, E q → E' q) (hpq : ∀ a q, P a q → Q a q) :
    Leads o p d E' Q := by
  refine Dialogue.Leads.weaken h fun r q hr => ?_
  cases r with
  | ok a => exact hpq a q hr
  | error fault => exact he q hr

/-- A result that was found without acts, and a passage that goes on with it. -/
theorem leads_ofExcept_bind {result : Except Fault α} {f : α → Passage β} {Q : β → Spot → Prop}
    (he : ∀ fault, result = .error fault → E p) (hf : ∀ a, result = .ok a → Leads o p (f a) E Q) :
    Leads o p (ofExcept result >>= f) E Q := by
  cases result with
  | ok a => exact hf a rfl
  | error fault => exact Dialogue.leads_pure (a := Except.error fault) (he fault rfl)

/-- A condition, and a passage behind it. -/
theorem leads_require_bind {holds : Bool} {fault : Fault} {f : Unit → Passage β}
    {Q : β → Spot → Prop} (hf : (o.validate = true → holds = true) → Leads o p (f ()) E Q) :
    Leads o p (require holds fault >>= f) E Q := by
  refine Leads.bind (P := fun _ q => q = p ∧ (o.validate = true → holds = true)) ?_
    fun _ q hq => hq.1 ▸ hf hq.2
  unfold require perform Leads Dialogue.Leads
  simp only [ExceptT.run_mk, Dialogue.rehearse]
  cases hstop : (Act.require holds fault).stop? o with
  | some fault => exact ⟨[], p, .nil, fun _ h => by cases h⟩
  | none =>
    refine ⟨[], p, .nil, fun r hr => ?_⟩
    cases Except.ok.inj hr
    refine ⟨rfl, fun hvalidate => ?_⟩
    simpa [Act.stop?, hvalidate] using hstop

/-- The same for a condition that concerns a type. -/
theorem leads_checkObject_bind {l : Line} {what : Text} {type : TypeName} {f : Unit → Passage β}
    {Q : β → Spot → Prop}
    (hf : (o.validate = true → type.isObject = true) → Leads o p (f ()) E Q) :
    Leads o p (checkObject l what type >>= f) E Q :=
  leads_require_bind hf

/-- The same for the conditions on a value. -/
theorem leads_checkValue_bind {position : Position} {value : Value} {f : Unit → Passage β}
    {Q : β → Spot → Prop}
    (hf : (o.validate = true → value.objections.isEmpty = true) → Leads o p (f ()) E Q) :
    Leads o p (checkValue position value >>= f) E Q := by
  unfold checkValue
  split
  · rename_i hvalue
    exact Leads.bind (P := fun _ q => q = p) (leads_pure rfl) fun _ q hq =>
      hq ▸ hf fun _ => by rw [hvalue]; rfl
  · exact leads_require_bind fun hfalse => hf fun hvalidate =>
      absurd (hfalse hvalidate) Bool.false_ne_true

/-- The same for the condition that there may be code. -/
theorem leads_checkCode_bind {l : Line} {m : OpenMethod} {f : Unit → Passage β}
    {Q : β → Spot → Prop}
    (hf : (o.validate = true → (!(m.access.has .isAbstract || m.access.has .isNative)) = true) →
      Leads o p (f ()) E Q) :
    Leads o p (checkCode l m >>= f) E Q :=
  leads_require_bind hf

/-- A call that can follow, and that opens no scope. -/
theorem leads_tell {call : Call} {q : Spot} (hmoves : call.moves = [.tell call])
    (hline : call.KeepsToLine) (h : p.next? o.validate call = some q) :
    Leads o p (tell call) E fun _ r => r = q := by
  have hcall := Overhears.single hline h
  rw [hmoves] at hcall
  refine ⟨_, q, hcall, fun r hr => ?_⟩
  cases Except.ok.inj hr
  rfl

/-- The moves of a comment. -/
theorem moves_of_isComment {call : Call} (h : call.isComment = true) :
    call.moves = [.tell call] := by
  cases call <;> first | rfl | exact absurd h Bool.false_ne_true

/-- A comment changes nothing. -/
theorem leads_remark {comment : Option Call}
    (h : ∀ call ∈ comment, call.isComment = true ∧ call.KeepsToLine) :
    Leads o p (remark comment) E fun _ q => q = p := by
  cases comment with
  | none => exact leads_pure rfl
  | some call =>
    obtain ⟨hcall, hline⟩ := h call rfl
    have hheard := Overhears.single hline (p.next?_of_isComment o.validate hcall)
    rw [moves_of_isComment hcall] at hheard
    unfold Leads Dialogue.Leads
    cases hcomments : o.comments with
    | true =>
      refine ⟨p.heard call, p, ?_, fun r hr => ?_⟩
      · simpa only [remark, perform, ExceptT.run_mk, Dialogue.rehearse, Act.stop?,
          Rehearsal.after, Act.moves, hcomments, if_true, List.append_nil] using hheard
      · cases Except.ok.inj hr
        rfl
    | false =>
      refine ⟨[], p, ?_, fun r hr => ?_⟩
      · simpa only [remark, perform, ExceptT.run_mk, Dialogue.rehearse, Act.stop?,
          Rehearsal.after, Act.moves, hcomments, Bool.false_eq_true, if_false,
          List.append_nil] using Overhears.nil
      · cases Except.ok.inj hr
        rfl

/-- Comments one after another change nothing. -/
theorem leads_remarks {comments : List Call}
    (h : ∀ call ∈ comments, call.isComment = true ∧ call.KeepsToLine) :
    Leads o p (comments.forM fun call => remark (some call)) E fun _ q => q = p := by
  induction comments with
  | nil => exact leads_pure rfl
  | cons call comments ih =>
    obtain ⟨hcall, hrest⟩ := List.forall_mem_cons.mp h
    rw [List.forM_eq_forM, List.forM_cons]
    exact (leads_remark fun other hother => Option.some.inj hother ▸ hcall).bind
      fun _ q hq => hq ▸ ih hrest

/-- Going into the scope that a call opens. -/
theorem leads_enter {call : Call} {comment : Option Call} {q : Spot}
    (hmoves : call.moves = [.enter call]) (hline : call.KeepsToLine)
    (h : p.next? o.validate call = some q)
    (hcomment : ∀ call ∈ comment, call.isComment = true ∧ call.KeepsToLine) :
    Leads o p (enter call comment) E fun _ r => r = q := by
  refine Leads.bind (P := fun _ r => r = q) ?_ fun _ r hr => ?_
  · have hcall := Overhears.single hline h
    rw [hmoves] at hcall
    refine ⟨_, q, hcall, fun r hr => ?_⟩
    cases Except.ok.inj hr
    rfl
  · subst hr
    refine Dialogue.Leads.bind (leads_remark (E := fun _ => False) hcomment) fun r q' hr => ?_
    cases r with
    | ok _ => exact Dialogue.leads_pure hr
    | error fault => exact hr.elim

/-- A passage whose fault is a result. -/
theorem leads_outcome_bind {d : Passage α} {f : Except Fault α → Passage β} {F : Spot → Prop}
    {P : α → Spot → Prop} {Q : β → Spot → Prop} (h : Leads o p d F P)
    (hok : ∀ a q, P a q → Leads o q (f (.ok a)) E Q)
    (herror : ∀ fault q, F q → Leads o q (f (.error fault)) E Q) :
    Leads o p (d.outcome >>= f) E Q := by
  refine Leads.bind (P := fun r q => match r with
    | .ok a => P a q
    | .error _ => F q) ?_ fun r q hr => ?_
  · refine Dialogue.Leads.bind h fun r q hr => Dialogue.leads_pure ?_
    cases r <;> exact hr
  · cases r with
    | ok a => exact hok a q hr
    | error fault => exact herror fault q hr

end Passage

/-- A passage whose faults are skipped over. -/
theorem leads_attempt {α : Type} {o : Options} {p : Spot} {position : Position} {d : Passage α}
    {E : Spot → Prop} {Q : α → Spot → Prop} (h : d.Leads o p E Q) :
    (Dialogue.attempt position d).Leads o p fun result q =>
      match result with
      | some a => Q a q
      | none => E q := by
  refine Dialogue.Leads.bind h fun r q hr => ?_
  cases r with
  | ok a => exact Dialogue.leads_pure hr
  | error fault =>
    refine Dialogue.leads_excuse.bind fun _ r hq => Dialogue.leads_pure ?_
    exact hq ▸ hr

/-! ## Lines -/

/-- A line that stands on one line of a source. -/
structure Line.IsPhysical (l : Line) : Prop where
  /-- The code holds no line end. -/
  code : l.text.IsInline
  /-- Without a comment alone, it starts with code. -/
  starts : l.isComment = false → l.text.StartsCode
  /-- Neither does a comment. -/
  note : ∀ text ∈ l.remark.map fun t => commentBody t.text, text.IsInline

namespace Line.IsPhysical

variable {l : Line}

/-- The comment behind the line keeps to it. -/
theorem eolCall? (h : l.IsPhysical) :
    ∀ call ∈ l.eolCall?, call.isComment = true ∧ call.KeepsToLine := by
  intro call hcall
  obtain ⟨text, htext, rfl⟩ := Option.map_eq_some_iff.mp hcall
  refine ⟨rfl, Call.keepsToLine_of_note rfl (h.note text ?_)⟩
  unfold Line.eolComment? at htext
  split at htext
  · exact absurd htext (Option.some_ne_none _).symm
  · exact htext

/-- A comment on a line of its own keeps to it. -/
theorem comment? (h : l.IsPhysical) {text : Text} (htext : l.comment? = some text) :
    text.IsInline := by
  refine h.note text ?_
  unfold Line.comment? at htext
  split at htext
  · exact htext
  · exact absurd htext (Option.some_ne_none _).symm

end Line.IsPhysical

section Lines

variable {o : Options} {p q : Spot} {E : Spot → Prop} {l : Line}

/-- A call for a line that opens no scope. -/
theorem leads_tellLine (hl : l.IsPhysical) {call : Call} (hmoves : call.moves = [.tell call])
    (hone : call.IsOneLine) (h : p.next? o.validate call = some q)
    (hcall : call.isComment = false) :
    (Passage.tellLine l call).Leads o p E fun _ r => r = q := by
  have hspelled : call.IsSpelled := by
    rintro name access signature rfl
    exact nomatch hmoves
  exact (Passage.leads_tell hmoves (hone.keepsToLine hspelled hcall) h).bind fun _ _ hr =>
    (Passage.leads_remark hl.eolCall?).weaken (fun _ he => he) fun _ _ hq => hq.trans hr

/-- A call for a line that opens a scope. -/
theorem leads_enterLine (hl : l.IsPhysical) {call : Call} (hmoves : call.moves = [.enter call])
    (hone : call.IsOneLine) (h : p.next? o.validate call = some q)
    (hcall : call.isComment = false) (hspelled : call.IsSpelled) :
    (Passage.enter call l.eolCall?).Leads o p E fun _ r => r = q :=
  Passage.leads_enter hmoves (hone.keepsToLine hspelled hcall) h hl.eolCall?

end Lines

/-- A call that passes its checks and can follow is accepted. -/
theorem Site.accept_of_next? {validate : Bool} {s s' : Site} {call : Call}
    (hallows : validate = true → s.allows call = true) (h : s.next? call = some s') :
    s.accept validate call = some s' := by
  unfold accept
  cases validate with
  | false => exact h
  | true =>
    rw [hallows rfl]
    exact h

/-! ## Frames -/

/-- Frames that are open at a spot, the innermost first. -/
inductive Spans : List Frame → Spot → Prop where
  /-- Nothing is open. -/
  | idle {s : Site} (hnest : s.nest = 0) (hhost : s.host = none) : Spans [] ⟨s, 0⟩
  /-- A field. -/
  | field (f : OpenField) {s : Site} {annotated : Bool} (hnest : s.nest = 0)
    (hhost : s.host = some (.field annotated)) : Spans [.field f] ⟨s, 0⟩
  /-- A field that nobody hears. -/
  | unheardField (f : OpenField) {s : Site} (hnest : s.nest = 0) (hhost : s.host = none) :
    Spans [.field f] ⟨s, 1⟩
  /-- A method. -/
  | method (m : OpenMethod) {s : Site} (hnest : s.nest = 0)
    (hhost : s.host = some (.method m.name m.access m.paramOpen)) : Spans [.method m] ⟨s, 0⟩
  /-- An annotation. -/
  | annotationBody (opened : Position) (name : Text) {frames : List Frame} {s : Site} {outer : Nat}
    (hnest : s.nest = outer + 1) (h : Spans frames ⟨{ s with nest := outer }, 0⟩) :
    Spans (.annotationBody opened name :: frames) ⟨s, 0⟩
  /-- An annotation that nobody hears. -/
  | unheardBody (opened : Position) (name : Text) {frames : List Frame} {s : Site} {outer : Nat}
    (h : Spans frames ⟨s, outer + 1⟩) :
    Spans (.annotationBody opened name :: frames) ⟨s, outer + 2⟩
  /-- An array in an annotation. -/
  | array (g : Gathering) {opened : Position} {name : Text} {frames : List Frame} {p : Spot}
    (h : Spans (.annotationBody opened name :: frames) p) :
    Spans (.array g :: .annotationBody opened name :: frames) p
  /-- A construct that is skipped. -/
  | skipping (name : Text) {frames : List Frame} {p : Spot} (h : Spans frames p) :
    Spans (.skipping name :: frames) p

/-- Whether the comments that a frame holds back keep to their lines. -/
def Frame.HoldsNotes : Frame → Prop
  | .field f => ∀ text ∈ f.held, text.IsInline
  | .array g => (∀ call ∈ g.remarks, call.isComment = true ∧ call.KeepsToLine) ∧
    ∀ text ∈ g.comment, text.IsInline
  | _ => True

/-- Frames that are open at a spot, which was reached from another one without a call at the level
of the class. -/
structure Spot.Reaches (p : Spot) (frames : List Frame) (q : Spot) : Prop where
  /-- The frames are open. -/
  spans : Spans frames q
  /-- What they hold back keeps to its lines. -/
  notes : ∀ f ∈ frames, f.HoldsNotes
  /-- The class has come as far. -/
  phase : q.site.phase = p.site.phase
  /-- It has the same members. -/
  declared : q.site.declared = p.site.declared

namespace Spot.Reaches

variable {p q r : Spot} {f : Frame} {frames : List Frame}

/-- The members are reached from where they are. -/
theorem here (h : p.Reaches frames q) : q.Reaches frames q := ⟨h.spans, h.notes, rfl, rfl⟩

/-- One way after another. -/
theorem trans (h : p.Reaches frames q) {frames' : List Frame} (h' : q.Reaches frames' r) :
    p.Reaches frames' r :=
  ⟨h'.spans, h'.notes, h'.phase.trans h.phase, h'.declared.trans h.declared⟩

/-- What the frames around the innermost one hold back. -/
theorem notes_tail (h : p.Reaches (f :: frames) q) : ∀ f ∈ frames, f.HoldsNotes :=
  fun f hf => h.notes f (List.mem_cons_of_mem _ hf)

/-- The end of the innermost frame, if it is a scope. -/
theorem finish (validate : Bool) (h : p.Reaches (f :: frames) p) (hf : f.isScope = true) :
    ∃ q, p.next? validate .finish = some q ∧ p.Reaches frames q := by
  have haccept : ∀ {s s' : Site}, s.next? .finish = some s' →
      next? validate ⟨s, 0⟩ .finish = some ⟨s', 0⟩ :=
    fun hs => next?_of_accept (Site.accept_of_next? (fun _ => rfl) hs)
  have hnotes := h.notes_tail
  cases h.spans with
  | field f hnest hhost =>
    exact ⟨_, haccept (Site.next?_of_field hnest hhost _), .idle hnest rfl, hnotes, rfl, rfl⟩
  | unheardField f hnest hhost => exact ⟨_, rfl, .idle hnest hhost, hnotes, rfl, rfl⟩
  | method m hnest hhost =>
    exact ⟨_, haccept (Site.next?_of_method hnest hhost _), .idle hnest rfl, hnotes, rfl, rfl⟩
  | @annotationBody opened name _ s outer hnest hspans =>
    have hnext : s.next? .finish = some { s with nest := outer } := by
      rw [Site.next?_of_nest hnest]
      rfl
    exact ⟨_, haccept hnext, hspans, hnotes, rfl, rfl⟩
  | unheardBody opened name hspans => exact ⟨_, rfl, hspans, hnotes, rfl, rfl⟩
  | array g => exact absurd hf Bool.false_ne_true
  | skipping name => exact absurd hf Bool.false_ne_true

end Spot.Reaches

/-! ## Lines of a class header -/

section Header

variable {o : Options} {s : Site} {l : Line}

/-- A line of the class header, where its call can follow. -/
theorem leads_headerLine (hl : l.IsPhysical) {d : Directive} (hd : l.directive? = some d)
    (hheader : d = .ofClass ∨ d = .superType ∨ d = .implements ∨ d = .source) {s' : Site}
    (hnext : ∀ call, l.classCall? = some call → s.next? call = some s') :
    (headerLine l d).Leads o ⟨s, 0⟩ (· = ⟨s, 0⟩) fun _ q => q = ⟨s', 0⟩ := by
  have htold : ∀ {call : Call}, l.classCall? = some call →
      (o.validate = true → s.allows call = true) → call.moves = [.tell call] →
      call.isComment = false →
      (Passage.tellLine l call).Leads o ⟨s, 0⟩ (· = ⟨s, 0⟩) fun _ q => q = ⟨s', 0⟩ := by
    intro call hclass hallows hmoves hcomment
    exact leads_tellLine hl hmoves (Line.isOneLine_of_classCall? hl.code hclass)
      (Spot.next?_of_accept (Site.accept_of_next? hallows (hnext call hclass))) hcomment
  rcases hheader with rfl | rfl | rfl | rfl
  · refine Passage.leads_ofExcept_bind (fun _ _ => rfl) fun (access, type) ha => ?_
    refine Passage.leads_checkObject_bind fun hobject => ?_
    exact htold (by simp only [Line.classCall?, hd, ha]; rfl) hobject rfl rfl
  · refine Passage.leads_ofExcept_bind (fun _ _ => rfl) fun type ha => ?_
    refine Passage.leads_checkObject_bind fun hobject => ?_
    exact htold (by simp only [Line.classCall?, hd, ha]; rfl) hobject rfl rfl
  · refine Passage.leads_ofExcept_bind (fun _ _ => rfl) fun type ha => ?_
    refine Passage.leads_checkObject_bind fun hobject => ?_
    exact htold (by simp only [Line.classCall?, hd, ha]; rfl) hobject rfl rfl
  · refine Passage.leads_ofExcept_bind (fun _ _ => rfl) fun name ha => ?_
    exact htold (by simp only [Line.classCall?, hd, ha]; rfl) (fun _ => rfl) rfl rfl

end Header

/-! ## Lines in a method -/

section Method

variable {o : Options} {s : Site} {m : OpenMethod} {l : Line} {E : Spot → Prop}

/-- The line of a call that is told in a method without opening or ending anything. -/
theorem leads_tellBody (hnest : s.nest = 0) (hl : l.IsPhysical) (hcomment : l.isComment = false)
    (hhost : s.host = some (.method m.name m.access m.paramOpen)) {call : Call}
    (hbody : call.isBody = true) (hcall : l.bodyCall? = some call)
    (hallows : o.validate = true → s.allows call = true) :
    (Passage.tellLine l call).Leads o ⟨s, 0⟩ E fun _ q => q = ⟨s, 0⟩ := by
  have hnext : s.next? call = some s := by
    rw [Site.next?_of_method hnest hhost]
    cases call <;> first | rfl | exact absurd hbody Bool.false_ne_true
  exact leads_tellLine hl (Call.isBody_iff hbody).2.2.2
    (Line.isOneLine_of_bodyCall? hl.code (hl.starts hcomment) hcall)
    (Spot.next?_of_accept (Site.accept_of_next? hallows hnext))
    (Site.isComment_of_next? hnext)

/-- The call of a line of code tells code. -/
theorem isBody_codeCall (s : Site) (l : Line) :
    l.codeCall.isBody = true ∧ s.allows l.codeCall = s.allowsCode := by
  unfold Line.codeCall
  split <;> exact ⟨rfl, rfl⟩

variable (hnest : s.nest = 0) (hhost : s.host = some (.method m.name m.access m.paramOpen))
  (hl : l.IsPhysical) (hcomment : l.isComment = false)

include hhost in
/-- The condition that there may be code, as a check of the site. -/
theorem allowsCode_eq :
    s.allowsCode = !(m.access.has .isAbstract || m.access.has .isNative) := by
  simp only [Site.allowsCode, hhost]

include hnest hhost hl hcomment

/-- A line of code. -/
theorem leads_codeLine (hcall : l.bodyCall? = some l.codeCall) :
    (codeLine m l).Leads o ⟨s, 0⟩ (· = ⟨s, 0⟩) fun _ q => q = ⟨s, 0⟩ := by
  obtain ⟨hbody, hallows⟩ := isBody_codeCall s l
  refine Passage.leads_checkCode_bind fun hcode => ?_
  refine leads_tellBody hnest hl hcomment hhost hbody hcall fun hvalidate => ?_
  change s.allows l.codeCall = true
  rw [hallows, allowsCode_eq hhost]
  exact hcode hvalidate

/-- A line whose arguments are read and told. -/
theorem leads_read {α : Type} {result : Except Fault α} {f : α → Call}
    (hbody : ∀ a, (f a).isBody = true) (hallows : ∀ a, s.allows (f a) = true)
    (hcall : ∀ a, result = .ok a → l.bodyCall? = some (f a)) :
    (do Passage.tellLine l (f (← Passage.ofExcept result)) : Passage Unit).Leads o ⟨s, 0⟩
      (· = ⟨s, 0⟩) fun _ q => q = ⟨s, 0⟩ :=
  Passage.leads_ofExcept_bind (fun _ _ => rfl) fun a ha =>
    leads_tellBody hnest hl hcomment hhost (hbody a) (hcall a ha) fun _ => hallows a

/-- The same for a line that is code. -/
theorem leads_readCode {α : Type} {result : Except Fault α} {call : α → Call}
    (hbody : ∀ a, (call a).isBody = true) (hallows : ∀ a, s.allows (call a) = s.allowsCode)
    (hcall : ∀ a, result = .ok a → l.bodyCall? = some (call a)) :
    (do
      Passage.checkCode l m
      Passage.tellLine l (call (← Passage.ofExcept result)) : Passage Unit).Leads o ⟨s, 0⟩
        (· = ⟨s, 0⟩) fun _ q => q = ⟨s, 0⟩ := by
  refine Passage.leads_checkCode_bind fun hcode => ?_
  refine Passage.leads_ofExcept_bind (fun _ _ => rfl) fun a ha => ?_
  refine leads_tellBody hnest hl hcomment hhost (hbody a) (hcall a ha) fun hvalidate => ?_
  rw [hallows, allowsCode_eq hhost]
  exact hcode hvalidate

/-- A line with a handler for exceptions of one type. -/
theorem leads_catchingLine (hd : l.directive? = some .catching) :
    (catchingLine m l).Leads o ⟨s, 0⟩ (· = ⟨s, 0⟩) fun _ q => q = ⟨s, 0⟩ := by
  refine Passage.leads_checkCode_bind fun hcode => ?_
  refine Passage.leads_ofExcept_bind (fun _ _ => rfl) fun h hh => ?_
  refine Passage.leads_ofExcept_bind (fun _ _ => rfl) fun type ht => ?_
  refine Passage.leads_checkObject_bind fun hobject => ?_
  refine leads_tellBody hnest hl hcomment hhost rfl ?_ fun hvalidate => ?_
  · simp only [Line.bodyCall?, hd, Line.catchingCall?, hh, toOption_ok, Option.bind_some, ht,
      Option.map_some]
  · rw [Site.allows, allowsCode_eq hhost, hcode hvalidate, hobject hvalidate]
    rfl

/-- A line with a handler for all exceptions. -/
theorem leads_catchAllLine (hd : l.directive? = some .catchAll) :
    (catchAllLine m l).Leads o ⟨s, 0⟩ (· = ⟨s, 0⟩) fun _ q => q = ⟨s, 0⟩ := by
  refine Passage.leads_checkCode_bind fun hcode => ?_
  refine Passage.leads_ofExcept_bind (fun _ _ => rfl) fun h hh => ?_
  split
  · rename_i hexception
    refine leads_tellBody hnest hl hcomment hhost rfl ?_ fun hvalidate => ?_
    · simp only [Line.bodyCall?, hd, Line.catchAllCall?, hh, toOption_ok, Option.bind_some,
        hexception, if_true]
    · rw [Site.allows, allowsCode_eq hhost]
      exact hcode hvalidate
  · exact Passage.leads_throw rfl

/-- What a line of the body of a method leads to: frames around the method behind the line. -/
def BehindLine (p : Spot) (m : OpenMethod) (l : Line) (frame : Option Frame) (q : Spot) : Prop :=
  p.Reaches (frame.toList ++ [.method (m.after l)]) q

omit hl hcomment in
/-- A line that leaves the method as it is. -/
theorem behindLine_of_after (hafter : m.after l = m) : BehindLine ⟨s, 0⟩ m l none ⟨s, 0⟩ :=
  ⟨.method _ hnest (by rw [hafter]; exact hhost), List.forall_mem_singleton.mpr trivial, rfl, rfl⟩

/-- A closing line in a method, the end of the method aside. -/
theorem leads_closingLine (hd : l.directive? = some .closing) (hend : l.closes "method" = false) :
    (closingLine m l).Leads o ⟨s, 0⟩ (BehindLine ⟨s, 0⟩ m l none)
      fun _ => BehindLine ⟨s, 0⟩ m l none := by
  have hparam : l.directive? ≠ some .param := by
    rw [hd]
    exact nofun
  have hbody : l.bodyCall? = l.closingCall? := by rw [Line.bodyCall?, hd]
  unfold closingLine
  split
  · rename_i hcloses
    have hafter : m.after l = { m with paramOpen := false } := by
      rw [OpenMethod.after, if_neg hparam, if_pos hcloses]
    split
    · rename_i hopen
      have hnext : s.next? .paramEnd =
          some { s with host := some (.method m.name m.access false) } := by
        rw [Site.next?_of_method hnest hhost, hopen]
        rfl
      have hcall : l.bodyCall? = some .paramEnd := by
        rw [hbody, Line.closingCall?, hend, if_neg Bool.false_ne_true, if_pos hcloses]
      refine (leads_tellLine hl rfl
        (Line.isOneLine_of_bodyCall? hl.code (hl.starts hcomment) hcall)
        (Spot.next?_of_accept (Site.accept_of_next? (fun _ => rfl) hnext)) rfl).weaken
        (fun _ he => he) fun _ q hq => ?_
      rw [hq]
      exact ⟨.method _ hnest (by rw [hafter]), List.forall_mem_singleton.mpr trivial, rfl, rfl⟩
    · rename_i hclosed
      refine Passage.leads_throw (behindLine_of_after hnest hhost ?_)
      rw [hafter, ← Bool.eq_false_iff.mpr hclosed]
  · rename_i hcloses
    have hend' : l.closes "param" = false := Bool.eq_false_iff.mpr hcloses
    have hsame := behindLine_of_after hnest hhost (after_of_code hparam hend')
    have hstay : ∀ {d : Passage Unit},
        d.Leads o ⟨s, 0⟩ (· = ⟨s, 0⟩) (fun _ q => q = ⟨s, 0⟩) →
        d.Leads o ⟨s, 0⟩ (BehindLine ⟨s, 0⟩ m l none) fun _ => BehindLine ⟨s, 0⟩ m l none :=
      fun hd => hd.weaken (fun q hq => hq ▸ hsame) fun _ q hq => hq ▸ hsame
    split
    · rename_i hlocal
      refine hstay (leads_read hnest hhost hl hcomment (fun _ => rfl) (fun _ => rfl) fun a ha => ?_)
      rw [hbody, Line.closingCall?, hend, hend', hlocal, ha]
      rfl
    · split
      · exact Passage.leads_throw hsame
      · rename_i hlocal hother
        refine hstay (leads_codeLine hnest hhost hl hcomment ?_)
        rw [hbody, Line.closingCall?, hend, hend', Bool.eq_false_iff.mpr hlocal,
          Bool.eq_false_iff.mpr hother]
        rfl

/-- A line with a directive in a method, annotations and closing lines aside. -/
theorem leads_directiveLine {d : Directive} (hd : l.directive? = some d)
    (hclosing : d ≠ .closing) :
    (directiveLine m l d).Leads o ⟨s, 0⟩ (BehindLine ⟨s, 0⟩ m l none)
      fun _ => BehindLine ⟨s, 0⟩ m l none := by
  have hend : l.closes "param" = false := Bool.eq_false_iff.mpr fun hc =>
    hclosing (Option.some.inj (hd.symm.trans (Line.directive?_of_closes hc)))
  by_cases hparam : d = .param
  · subst hparam
    have hafter : m.after l = { m with paramOpen := m.paramOpen || l.param.isOk } := by
      rw [OpenMethod.after, if_pos hd]
    refine Passage.leads_ofExcept_bind (fun fault hfault => ?_) fun header ha => ?_
    · refine behindLine_of_after hnest hhost ?_
      rw [hafter, hfault]
      simp [Except.isOk, Except.toBool]
    · obtain ⟨register, name⟩ := header
      have hcall : l.bodyCall? = some (.param register name) := by
        simp only [Line.bodyCall?, hd, ha]
        rfl
      have hnext : s.next? (.param register name) =
          some { s with host := some (.method m.name m.access true) } := by
        rw [Site.next?_of_method hnest hhost]
        rfl
      refine (leads_tellLine hl rfl
        (Line.isOneLine_of_bodyCall? hl.code (hl.starts hcomment) hcall)
        (Spot.next?_of_accept (Site.accept_of_next? (fun _ => rfl) hnext)) rfl).weaken
        (fun _ he => he) fun _ q hq => ?_
      rw [hq]
      refine ⟨.method _ hnest ?_, List.forall_mem_singleton.mpr trivial, rfl, rfl⟩
      rw [hafter, ha]
      simp [Except.isOk, Except.toBool]
  · have hsame := behindLine_of_after hnest hhost
      (after_of_code (fun h => hparam (Option.some.inj (hd.symm.trans h))) hend)
    have hstay : ∀ {d : Passage Unit},
        d.Leads o ⟨s, 0⟩ (· = ⟨s, 0⟩) (fun _ q => q = ⟨s, 0⟩) →
        d.Leads o ⟨s, 0⟩ (BehindLine ⟨s, 0⟩ m l none) fun _ => BehindLine ⟨s, 0⟩ m l none :=
      fun hd => hd.weaken (fun q hq => hq ▸ hsame) fun _ q hq => hq ▸ hsame
    cases d with
    | registers =>
      exact hstay (leads_readCode hnest hhost hl hcomment (fun _ => rfl) (fun _ => rfl)
        fun a ha => by simp only [Line.bodyCall?, hd, ha]; rfl)
    | locals =>
      exact hstay (leads_readCode hnest hhost hl hcomment (fun _ => rfl) (fun _ => rfl)
        fun a ha => by simp only [Line.bodyCall?, hd, ha]; rfl)
    | line =>
      exact hstay (leads_read hnest hhost hl hcomment (fun _ => rfl) (fun _ => rfl)
        fun a ha => by simp only [Line.bodyCall?, hd, ha]; rfl)
    | param => exact absurd rfl hparam
    | catching => exact hstay (leads_catchingLine hnest hhost hl hcomment hd)
    | catchAll => exact hstay (leads_catchAllLine hnest hhost hl hcomment hd)
    | localVariable =>
      exact hstay (leads_read (f := fun v : Line.LocalArguments =>
        .localVariable v.register v.name v.type v.signature) hnest hhost hl hcomment
        (fun _ => rfl) (fun _ => rfl) fun a ha => by simp only [Line.bodyCall?, hd, ha]; rfl)
    | restart =>
      exact hstay (leads_read hnest hhost hl hcomment (fun _ => rfl) (fun _ => rfl)
        fun a ha => by simp only [Line.bodyCall?, hd, ha]; rfl)
    | prologue =>
      exact hstay (leads_tellBody hnest hl hcomment hhost rfl
        (by simp only [Line.bodyCall?, hd]) fun _ => rfl)
    | epilogue =>
      exact hstay (leads_tellBody hnest hl hcomment hhost rfl
        (by simp only [Line.bodyCall?, hd]) fun _ => rfl)
    | other keyword =>
      exact hstay (leads_codeLine hnest hhost hl hcomment (by simp only [Line.bodyCall?, hd]))
    | _ => exact Passage.leads_throw hsame

end Method

/-! ## Lines with annotations -/

section Annotations

variable {o : Options} {p : Spot} {E : Spot → Prop} {l : Line}

/-- The annotation of a line is gone into, or skipped. -/
theorem leads_openAnnotationScope (hl : l.IsPhysical) {q : Spot}
    (hnext : ∀ visibility type, (o.validate = true → type.isObject = true) →
      p.next? o.validate (.annotationStart visibility type) = some q) :
    (openAnnotationScope l).Leads o p E fun f r =>
      f = .skipping "annotation" ∧ r = p ∨ f = .annotationBody l.position "annotation" ∧ r = q := by
  refine Passage.leads_outcome_bind (F := (· = p)) (P := fun header r => r = p ∧
    l.annotationHeader = .ok header ∧ (o.validate = true → header.2.isObject = true)) ?_ ?_ ?_
  · refine Passage.leads_ofExcept_bind (fun _ _ => rfl) fun (visibility, type) hheader => ?_
    exact Passage.leads_checkObject_bind fun hobject => Passage.leads_pure ⟨rfl, hheader, hobject⟩
  · rintro ⟨visibility, type⟩ r ⟨rfl, hheader, hobject⟩
    have hcall : l.annotationCall? = some (.annotationStart visibility type) := by
      rw [Line.annotationCall?, hheader]
      rfl
    exact (leads_enterLine hl rfl (Line.isOneLine_of_annotationCall? hl.code hcall)
      (hnext visibility type hobject) rfl fun _ _ _ h => by cases h).bind
        fun _ r hr => Passage.leads_pure (.inr ⟨rfl, hr⟩)
  · rintro fault r rfl
    refine Passage.Leads.bind (P := fun _ r' => r' = r) ?_
      fun _ r' hr => Passage.leads_pure (.inl ⟨rfl, hr⟩)
    exact Dialogue.leads_excuse.bind fun _ r' hr => Dialogue.leads_pure hr

variable {opened : Position} {name : Text} {frames : List Frame}

/-- An annotation element is told where an annotation is open. -/
theorem Spot.Reaches.value (h : p.Reaches (.annotationBody opened name :: frames) p) {element : Text}
    {v : Value} (hv : o.validate = true → v.objections.isEmpty = true) :
    p.next? o.validate (.value element v) = some p := by
  cases h.spans with
  | @annotationBody opened name _ s outer hnest hspans =>
    refine next?_of_accept (Site.accept_of_next? hv ?_)
    rw [Site.next?_of_nest hnest, Site.nestNext?, Option.map_some, ← hnest]
  | unheardBody opened name hspans => rfl

/-- A nested annotation opens where an annotation is open. -/
theorem Spot.Reaches.subannotation (h : p.Reaches (.annotationBody opened name :: frames) p)
    (opened' : Position) (name' : Text) :
    ∃ q, (∀ element type, (o.validate = true → type.isObject = true) →
        p.next? o.validate (.subannotationStart element type) = some q) ∧
      p.Reaches (.annotationBody opened' name' :: .annotationBody opened name :: frames) q := by
  have hnotes : ∀ f ∈ Frame.annotationBody opened' name' :: .annotationBody opened name :: frames,
      f.HoldsNotes := List.forall_mem_cons.mpr ⟨trivial, h.notes⟩
  have hspans := h.spans
  cases h.spans with
  | @annotationBody _ _ _ s outer hnest _ =>
    refine ⟨⟨{ s with nest := outer + 2 }, 0⟩, fun element type hobject => ?_, ?_⟩
    · refine next?_of_accept (Site.accept_of_next? hobject ?_)
      rw [Site.next?_of_nest hnest]
      rfl
    · refine ⟨.annotationBody opened' name' (s := { s with nest := outer + 2 }) rfl ?_, hnotes,
        rfl, rfl⟩
      have hsame : { s with nest := outer + 1 } = s := by rw [← hnest]
      dsimp only
      rwa [hsame]
  | unheardBody _ _ _ => exact ⟨_, fun _ _ _ => rfl, .unheardBody _ _ hspans, hnotes, rfl, rfl⟩

/-- An element whose value is complete. -/
theorem leads_tellElement (h : p.Reaches (.annotationBody opened name :: frames) p)
    {position : Position} {element text : Text} {comment : Option Call} {remarks : List Call}
    (hcomment : ∀ call ∈ comment, call.isComment = true ∧ call.KeepsToLine)
    (hremarks : ∀ call ∈ remarks, call.isComment = true ∧ call.KeepsToLine) :
    (tellElement position element text comment remarks).Leads o p (· = p) fun _ q => q = p := by
  refine Passage.leads_ofExcept_bind (fun _ _ => rfl) fun v _ => ?_
  refine Passage.leads_checkValue_bind fun hv => ?_
  have hline : (Call.value element v).KeepsToLine :=
    (isOneLine_of_line?_eq_none rfl).keepsToLine nofun rfl
  refine (Passage.leads_tell rfl hline (h.value hv)).bind fun _ q hq => ?_
  subst hq
  exact (Passage.leads_remark hcomment).bind fun _ r hr => hr ▸ Passage.leads_remarks hremarks

/-- A line as an annotation element. -/
theorem leads_elementLine (hl : l.IsPhysical)
    (h : p.Reaches (.annotationBody opened name :: frames) p) :
    (elementLine l).Leads o p (· = p) fun frame q =>
      p.Reaches (frame.toList ++ .annotationBody opened name :: frames) q := by
  unfold elementLine
  dsimp only
  split
  · exact Passage.leads_throw rfl
  · split
    · exact Passage.leads_throw rfl
    · split
      · obtain ⟨q, hnext, hq⟩ := h.subannotation (o := o) l.position "subannotation"
        refine Passage.Leads.bind (P := fun f r =>
          f = .annotationBody l.position "subannotation" ∧ r = q) ?_ ?_
        · refine Passage.leads_ofExcept_bind (fun _ _ => rfl) fun type _ => ?_
          refine Passage.leads_checkObject_bind fun hobject => ?_
          exact (leads_enterLine hl rfl (isOneLine_of_line?_eq_none rfl)
            (hnext _ type hobject) rfl nofun).bind fun _ r hr => Passage.leads_pure ⟨rfl, hr⟩
        · rintro f r ⟨rfl, rfl⟩
          exact Passage.leads_pure hq
      · split
        · refine Passage.leads_pure ⟨.array _ h.spans, List.forall_mem_cons.mpr ⟨?_, h.notes⟩,
            rfl, rfl⟩
          refine ⟨fun call hcall => absurd hcall List.not_mem_nil, fun text htext => ?_⟩
          obtain ⟨-, hline⟩ := hl.eolCall? (.eolComment text)
            (Option.map_eq_some_iff.mpr ⟨text, htext, rfl⟩)
          exact hline.note text rfl
        · refine (leads_tellElement h hl.eolCall? fun call hcall =>
            absurd hcall List.not_mem_nil).bind fun _ q hq => Passage.leads_pure ?_
          exact hq ▸ h

end Annotations

/-- A line of the body of a method. -/
theorem leads_bodyLine {o : Options} {s : Site} {m : OpenMethod} {l : Line} (hnest : s.nest = 0)
    (hhost : s.host = some (.method m.name m.access m.paramOpen)) (hl : l.IsPhysical)
    (hcomment : l.isComment = false) (hend : l.closes "method" = false) :
    (bodyLine m l).Leads o ⟨s, 0⟩ (BehindLine ⟨s, 0⟩ m l none) (BehindLine ⟨s, 0⟩ m l) := by
  have hnone : ∀ {d : Passage Unit}, d.Leads o ⟨s, 0⟩ (BehindLine ⟨s, 0⟩ m l none)
      (fun _ => BehindLine ⟨s, 0⟩ m l none) →
      (do
        d
        return none : Passage (Option Frame)).Leads o ⟨s, 0⟩ (BehindLine ⟨s, 0⟩ m l none)
          (BehindLine ⟨s, 0⟩ m l) :=
    fun hd => hd.bind fun _ q hq => Passage.leads_pure hq
  have hsame : l.directive? ≠ some .param → l.directive? ≠ some .closing →
      BehindLine ⟨s, 0⟩ m l none ⟨s, 0⟩ := fun hparam hclosing =>
    behindLine_of_after hnest hhost (after_of_code hparam
      (Bool.eq_false_iff.mpr fun hc => hclosing (Line.directive?_of_closes hc)))
  unfold bodyLine
  split
  · rename_i hd
    have hstay := hsame (by simp [hd]) (by simp [hd])
    refine hnone ((leads_codeLine hnest hhost hl hcomment ?_).weaken (fun q hq => hq ▸ hstay)
      fun _ q hq => hq ▸ hstay)
    simp only [Line.bodyCall?, hd]
  · rename_i hd
    have hstay := hsame (by simp [hd]) (by simp [hd])
    have hnext : ∀ visibility type, s.next? (.annotationStart visibility type) =
        some { s with nest := 1 } := fun visibility type => by
      rw [Site.next?_of_method hnest hhost]
      rfl
    refine (leads_openAnnotationScope hl fun visibility type hobject =>
      Spot.next?_of_accept (Site.accept_of_next? hobject (hnext visibility type))).bind ?_
    rintro f r (⟨rfl, rfl⟩ | ⟨rfl, rfl⟩)
    · exact Passage.leads_pure ⟨.skipping _ hstay.spans,
        List.forall_mem_cons.mpr ⟨trivial, hstay.notes⟩, rfl, rfl⟩
    · refine Passage.leads_pure ⟨.annotationBody _ _ (s := { s with nest := 1 }) rfl ?_,
        List.forall_mem_cons.mpr ⟨trivial, hstay.notes⟩, rfl, rfl⟩
      have hback : { s with nest := 0 } = s := by rw [← hnest]
      dsimp only
      rw [hback]
      exact hstay.spans
  · rename_i hd
    exact hnone (leads_closingLine hnest hhost hl hcomment hd hend)
  · rename_i d hannotation hclosing hd
    exact hnone (leads_directiveLine hnest hhost hl hcomment hd hclosing)

end Smali
