import Smali.Proofs.Footing
import Smali.Reader.Run

/-!
# The footing of a reader

A reader always knows its footing: the scopes that are open are those of its frames, and
whatever it is received with, the fault is dealt with before the next call. Each of its steps
leads from frames on a clear footing to frames on a clear footing.
-/

namespace Smali

open Dialogue (Heeds)
open Passage (HeedsIn Stays Fails)

/-! ## Frames and scopes -/

/-- The scope that a frame is. -/
def Frame.scope? : Frame → Option Scope
  | .field _ => some .ofField
  | .method _ => some .ofMethod
  | .annotationBody _ _ => some .ofAnnotationBody
  | .array _ | .skipping _ => none

/-- The scopes that are open with some frames, the innermost first. -/
def scopesOf (frames : List Frame) : List Scope := frames.filterMap Frame.scope? ++ [.ofClass]

/-- The class is always open. -/
theorem scopesOf_ne_nil (frames : List Frame) : scopesOf frames ≠ [] := by
  simp [scopesOf]

/-- The class is the outermost scope. -/
theorem scopesOf_getLast? (frames : List Frame) :
    (scopesOf frames).getLast? = some .ofClass := by
  simp [scopesOf]

/-- One more frame that is a scope. -/
theorem scopesOf_cons_scope {f : Frame} {scope : Scope} (h : f.scope? = some scope)
    (outer : List Frame) : scopesOf (f :: outer) = scope :: scopesOf outer := by
  simp [scopesOf, h]

/-- One more frame that is no scope. -/
theorem scopesOf_cons_none {f : Frame} (h : f.scope? = none) (outer : List Frame) :
    scopesOf (f :: outer) = scopesOf outer := by
  simp [scopesOf, h]

/-- Whether a frame can stand inside others: an array stands in an annotation, and what it
holds back are comments. -/
def Frame.StandsIn (outer : List Frame) : Frame → Prop
  | .array g => (∀ call ∈ g.remarks, call.isComment = true) ∧
    (scopesOf outer).head? = some .ofAnnotationBody
  | _ => True

/-- Frames each of which can stand inside those around it. -/
def Nested : List Frame → Prop
  | [] => True
  | f :: outer => f.StandsIn outer ∧ Nested outer

/-- The footing with some frames while no fault waits. -/
def IsGrounded (frames : List Frame) (s : Footing) : Prop :=
  s = ⟨scopesOf frames, none⟩ ∧ Nested frames

/-- Whether what comes out of a scope tells of the fault that waits. -/
def Arrival.Carries (a : Arrival) (s : Footing) : Prop :=
  match a.fault with
  | none => s.due = none
  | some (fault, _) => fault.Settles s

/-! ## Lines in general -/

section Lines

variable {scopes : List Scope}

/-- The comment behind a line. -/
theorem isComment_of_eolCall? (l : Line) (scopes : List Scope) :
    ∀ call ∈ l.eolCall?, call.isComment = true ∧ call.isLast scopes = false := by
  intro call h
  obtain ⟨text, -, rfl⟩ := Option.map_eq_some_iff.mp h
  exact ⟨rfl, Call.isLast_of_kind (by simp [Call.kind]) (by simp [Call.kind]) scopes⟩

/-- A comment on a line of its own inside a member or an annotation. -/
theorem stays_remark_comment (scope : Scope) {outer : List Scope} (h : outer ≠ []) (text : Text) :
    (Passage.remark (some (.comment text))).Stays (scope :: outer) :=
  Passage.stays_remark (List.cons_ne_nil _ _) fun _ hcall =>
    Option.some.inj hcall ▸ ⟨rfl, Call.isLast_cons _ scope h⟩

/-- A condition that concerns a type. -/
theorem stays_checkObject (l : Line) (what : Text) (type : TypeName) :
    (Passage.checkObject l what type).Stays scopes :=
  Passage.stays_require rfl

/-- The conditions on a value. -/
theorem stays_checkValue (position : Position) (value : Value) :
    (Passage.checkValue position value).Stays scopes := by
  unfold Passage.checkValue
  split
  · exact rfl
  · exact Passage.stays_require rfl

/-- A call for a line that opens no scope. -/
theorem stays_tellLine (l : Line) {call : Call} {scope : Scope} {outer : List Scope}
    (hsuits : call.suits scope = true) (hopens : call.opens? = none)
    (hshared : call.isShared = false) : (Passage.tellLine l call).Stays (scope :: outer) := by
  have hlast : call.isLast (scope :: outer) = false := by
    refine Call.isLast_of_kind ?_ ?_ _ <;> cases call <;> simp_all [Call.isShared, Call.kind]
  have hcomment : call.isComment = false := by
    cases call <;> first | rfl | exact absurd hshared Bool.true_eq_false.mp
  exact (Passage.stays_tell rfl hsuits hopens hcomment hlast).bind fun _ =>
    Passage.stays_remark (List.cons_ne_nil _ _) (isComment_of_eolCall? l _)

/-- A call for a line that opens a scope. -/
theorem heedsIn_enterLine (l : Line) {call : Call} {scope opened : Scope}
    (hscope : scopes.head? = some scope) (hsuits : call.suits scope = true)
    (hopens : call.opens? = some opened) :
    (Passage.enter call l.eolCall?).HeedsIn scopes fun _ s => s = ⟨opened :: scopes, none⟩ := by
  refine Passage.heedsIn_enter hscope hsuits hopens (Call.isLast_of_kind ?_ ?_ _)
    fun remark hremark => (isComment_of_eolCall? l scopes remark hremark).1
  all_goals cases call <;> simp_all [Call.opens?, Call.kind]

/-- A fault of a passage is skipped over. -/
theorem heeds_attempt {α : Type} {position : Position} {p : Passage α}
    {Q : α → Footing → Prop} (h : p.HeedsIn scopes Q) :
    (Dialogue.attempt position p).Heeds (fun
      | some a => Q a
      | none => fun s => s = ⟨scopes, none⟩) ⟨scopes, none⟩ := by
  refine Heeds.bind h fun r s hr => ?_
  cases r with
  | ok a => exact hr
  | error fault =>
    refine (Dialogue.heeds_excuse (hr.2.attach position)).bind fun _ s' hs' => ?_
    rw [hs', hr.1]
    exact rfl

end Lines

/-! ## Ends of scopes -/

/-- The end of a scope inside the class is told. A fault that comes out of it waits. -/
theorem heeds_endScope (scope : Scope) {outer : List Scope} (h : outer ≠ []) :
    endScope.Heeds (fun received s => s.scopes = outer ∧
      match received with
      | none => s.due = none
      | some fault => fault.Settles s) ⟨scope :: outer, none⟩ := by
  refine Heeds.bind (Passage.stays_tell rfl rfl rfl rfl (Call.isLast_cons _ scope h))
    fun r s hr => ?_
  cases r with
  | ok _ =>
    subst hr
    exact (Dialogue.heeds_leave rfl h).bind fun _ s hs => hs ▸ ⟨rfl, rfl⟩
  | error fault =>
    exact (Dialogue.heeds_leave hr.1 h).bind fun _ s hs => hs ▸ ⟨rfl, hr.2⟩

/-- The end of a scope, as what comes out of it. -/
theorem heeds_endScope_arrival (scope : Scope) {outer : List Scope} (h : outer ≠ [])
    (opened : Position) (held : List Text) :
    Heeds (fun a s => s.scopes = outer ∧ a.Carries s)
      (do return (⟨(← endScope).map (·, opened), held⟩ : Arrival)) ⟨scope :: outer, none⟩ := by
  refine (heeds_endScope scope h).bind fun received s hs => ?_
  cases received with
  | none => exact hs
  | some fault => exact hs

/-- A comment at the level of the class. -/
theorem heeds_remarkClass (text : Text) :
    (remarkClass text).Heeds (fun _ s => s = ⟨[.ofClass], none⟩) ⟨[.ofClass], none⟩ := by
  refine ⟨⟨⟨rfl, .ofClass, rfl, rfl⟩, rfl⟩, fun received _ => ?_⟩
  cases received with
  | none => exact rfl
  | some fault => exact ⟨_, rfl, rfl, fault.echoes_refl⟩

/-- What comes out of a scope is skipped over. -/
theorem Arrival.Carries.heeds_excuse {a : Arrival} {s : Footing} (h : a.Carries s) :
    a.excuse.Heeds (fun _ s' => s' = ⟨s.scopes, none⟩) s := by
  unfold Carries at h
  unfold Arrival.excuse
  split at h
  · next hfault =>
    rw [hfault]
    obtain ⟨scopes, due⟩ := s
    subst h
    exact rfl
  · next fault position hfault =>
    rw [hfault]
    exact Dialogue.heeds_excuse (h.attach position)

/-- What comes out of a member reaches the class. -/
theorem Arrival.Carries.heeds_reachClass {a : Arrival} {s : Footing} (h : a.Carries s)
    (hscopes : s.scopes = [.ofClass]) :
    a.reachClass.Heeds (fun _ s' => s' = ⟨[.ofClass], none⟩) s := by
  refine h.heeds_excuse.bind fun _ s' hs' => ?_
  subst hs'
  rw [hscopes]
  induction a.held with
  | nil => exact rfl
  | cons text held ih =>
    rw [List.forM_eq_forM, List.forM_cons]
    exact (heeds_remarkClass text).bind fun _ s hs => hs ▸ ih

/-- Nothing comes out of a scope that was not left. -/
theorem carries_nothing (scopes : List Scope) : Arrival.nothing.Carries ⟨scopes, none⟩ := rfl

/-- A frame that ends without a closing line. -/
theorem heeds_close (f : Frame) (outer : List Frame) (before : Option Line) :
    (f.close before).Heeds (fun a s => s.scopes = scopesOf outer ∧ a.Carries s)
      ⟨scopesOf (f :: outer), none⟩ := by
  have houter := scopesOf_ne_nil outer
  -- A missing end is excused where the scope is still open, and then the scope is ended.
  have hmissing : ∀ (scope : Scope) (fault : Fault) (opened : Position) (held : List Text),
      Heeds (fun a s => s.scopes = scopesOf outer ∧ a.Carries s)
        (do
          Dialogue.excuse fault
          return (⟨(← endScope).map (·, opened), held⟩ : Arrival))
        ⟨scope :: scopesOf outer, none⟩ := by
    intro scope fault opened held
    refine (Dialogue.heeds_excuse (fault.settles_clear _)).bind fun _ s hs => ?_
    subst hs
    exact heeds_endScope_arrival scope houter opened held
  cases f with
  | field f =>
    rw [scopesOf_cons_scope rfl]
    simp only [Frame.close]
    split
    · exact hmissing _ _ f.opened f.held.reverse
    · exact heeds_endScope_arrival _ houter f.opened f.held.reverse
  | method m =>
    rw [scopesOf_cons_scope rfl]
    exact hmissing _ _ m.opened []
  | annotationBody opened name =>
    rw [scopesOf_cons_scope rfl]
    exact hmissing _ _ opened []
  | array g =>
    rw [scopesOf_cons_none rfl]
    exact (Dialogue.heeds_excuse (Fault.settles_clear _ _)).bind fun _ s hs => hs ▸ ⟨rfl, rfl⟩
  | skipping name =>
    rw [scopesOf_cons_none rfl]
    exact ⟨rfl, rfl⟩

/-- Frames are left down to the first that stays, and what comes out of them is dealt with. -/
theorem heeds_unwind (before : Option Line) (stays : Frame → Bool) {frames : List Frame}
    (hframes : Nested frames) {a : Arrival} {s : Footing} (hscopes : s.scopes = scopesOf frames)
    (h : a.Carries s) :
    (unwind before stays a frames).Heeds (fun left s' =>
      IsGrounded left s' ∧ ∀ f ∈ left.head?, stays f = true) s := by
  induction frames generalizing a s with
  | nil => exact (h.heeds_reachClass hscopes).bind fun _ s' hs' => ⟨⟨hs', hframes⟩, nofun⟩
  | cons f outer ih =>
    have hstep : Heeds (fun left s' => IsGrounded left s' ∧ ∀ f ∈ left.head?, stays f = true)
        (do
          a.excuse
          if stays f then return f :: outer
          else unwind before stays (← f.close before) outer) s := by
      refine h.heeds_excuse.bind fun _ s' hs' => ?_
      subst hs'
      rw [hscopes]
      split
      · next hstays => exact ⟨⟨rfl, hframes⟩, fun f' hf' => Option.some.inj hf' ▸ hstays⟩
      · exact (heeds_close f outer before).bind fun a s ha => ih hframes.2 ha.1 ha.2
    obtain ⟨_ | ⟨fault, position⟩, held⟩ := a
    · cases f <;> exact hstep
    · cases f with
      | field f =>
        -- A fault takes the field with it.
        refine (Dialogue.heeds_leave (hscopes.trans (scopesOf_cons_scope rfl outer))
          (scopesOf_ne_nil outer)).bind fun _ s' hs' => ?_
        subst hs'
        exact ih hframes.2 rfl h
      | _ => exact hstep

/-- A fault is handed to the frames around. -/
theorem heeds_raise {outer : List Frame} (houter : Nested outer) {fault : Fault} {s : Footing}
    (h : Fails (scopesOf outer) fault s) (opened : Position) :
    (raise fault opened outer).Heeds IsGrounded s := by
  have hcarries : Arrival.Carries ⟨some (fault, opened), []⟩ s := h.2
  exact (heeds_unwind none _ houter h.1 hcarries).weaken fun _ _ hs => hs.1

/-- A closing line ends a scope. -/
theorem heeds_closeBy (l : Line) (opened : Position) (heard : Bool) {outer : List Frame}
    (houter : Nested outer) (scope : Scope) :
    (closeBy l opened heard outer).Heeds IsGrounded ⟨scope :: scopesOf outer, none⟩ := by
  refine (heeds_endScope scope (scopesOf_ne_nil outer)).bind fun received s hs => ?_
  cases received with
  | some fault => exact heeds_raise houter hs opened
  | none =>
    obtain ⟨scopes, due⟩ := s
    obtain ⟨rfl, rfl⟩ := hs
    refine Heeds.bind (Passage.stays_remark (scopesOf_ne_nil outer) ?_) fun r s hr => ?_
    · cases heard with
      | true => exact isComment_of_eolCall? l _
      | false => exact nofun
    · cases r with
      | ok _ => exact ⟨hr, houter⟩
      | error fault => exact heeds_raise houter hr opened

/-- A fault of a passage takes the scope with it. -/
theorem heeds_orRaise {opened : Position} {outer : List Frame} (houter : Nested outer)
    {scope : Scope} {p : Passage (List Frame)} (h : p.HeedsIn (scope :: scopesOf outer) IsGrounded) :
    (orRaise opened outer p).Heeds IsGrounded ⟨scope :: scopesOf outer, none⟩ := by
  refine Heeds.bind h fun r s hr => ?_
  cases r with
  | ok frames => exact hr
  | error fault =>
    refine (Dialogue.heeds_leave hr.1 (scopesOf_ne_nil outer)).bind fun _ s' hs' => ?_
    subst hs'
    have hfails : Fails (scopesOf outer) fault ⟨scopesOf outer, s.due⟩ := ⟨rfl, hr.2⟩
    exact heeds_raise houter hfails opened

/-! ## Annotations -/

/-- A frame that is opened inside others. -/
def StandsWith (outer : List Frame) (f : Frame) (s : Footing) : Prop :=
  s = ⟨scopesOf (f :: outer), none⟩ ∧ f.StandsIn outer

/-- The annotation of a line is gone into, or skipped. -/
theorem heedsIn_openAnnotationScope (l : Line) (outer : List Frame) {scope : Scope}
    (hscope : (scopesOf outer).head? = some scope) (hplace : scope ≠ .ofAnnotationBody) :
    (openAnnotationScope l).HeedsIn (scopesOf outer) (StandsWith outer) := by
  have hheader : (annotationHeader l).Stays (scopesOf outer) :=
    (Passage.stays_ofExcept _).bind fun _ => (stays_checkObject l _ _).bind fun _ => rfl
  refine Passage.Heeds.bind (Passage.heedsIn_outcome hheader) fun r s hr => ?_
  cases r with
  | ok header =>
    subst hr
    refine Passage.Heeds.bind (heedsIn_enterLine l hscope ?_ rfl) fun _ s hs =>
      ⟨hs.trans (by rw [scopesOf_cons_scope rfl]), trivial⟩
    exact decide_eq_true hplace
  | error fault =>
    refine Passage.Heeds.bind (Passage.heeds_lift (Dialogue.heeds_excuse hr.2)) fun _ s' hs' => ?_
    refine ⟨?_, trivial⟩
    rw [hs', hr.1, scopesOf_cons_none rfl]

/-- The nested annotation of a line is gone into. -/
theorem heedsIn_openSubannotationScope (l : Line) (name descriptor : Text) {outer : List Frame}
    (hscope : (scopesOf outer).head? = some .ofAnnotationBody) :
    (openSubannotationScope l name descriptor).HeedsIn (scopesOf outer) (StandsWith outer) := by
  refine (Passage.stays_ofExcept _).bind fun type => ?_
  refine (stays_checkObject l _ type).bind fun _ => ?_
  refine Passage.Heeds.bind (heedsIn_enterLine l hscope rfl rfl) fun _ s hs => ?_
  exact ⟨hs.trans (by rw [scopesOf_cons_scope rfl]), trivial⟩

/-- An element whose value is complete. -/
theorem stays_tellElement (position : Position) (name text : Text) {scopes : List Scope}
    (hscope : scopes.head? = some .ofAnnotationBody) (comment : Option Text)
    {remarks : List Call}
    (hremarks : ∀ call ∈ remarks, call.isComment = true ∧ call.isLast scopes = false) :
    (tellElement position name text (comment.map .eolComment) remarks).Stays scopes := by
  have hne : scopes ≠ [] := List.ne_nil_of_mem (List.mem_of_head? hscope)
  refine (Passage.stays_ofExcept _).bind fun value => ?_
  refine (stays_checkValue position value).bind fun _ => ?_
  refine (Passage.stays_tell hscope rfl rfl rfl ?_).bind fun _ => ?_
  · exact Call.isLast_of_kind (by simp [Call.kind]) (by simp [Call.kind]) scopes
  refine (Passage.stays_remark hne ?_).bind fun _ => ?_
  · intro call hcall
    obtain ⟨text, -, rfl⟩ := Option.map_eq_some_iff.mp hcall
    exact ⟨rfl, Call.isLast_of_kind (by simp [Call.kind]) (by simp [Call.kind]) scopes⟩
  · induction remarks with
    | nil => exact rfl
    | cons call remarks ih =>
      rw [List.forM_eq_forM, List.forM_cons]
      have hcall := hremarks call List.mem_cons_self
      refine (Passage.stays_remark hne fun _ h => Option.some.inj h ▸ hcall).bind fun _ => ?_
      exact ih fun call h => hremarks call (List.mem_cons_of_mem _ h)

/-- A frame that a line may open goes in front of the others. -/
def StandsBefore (outer : List Frame) (frame : Option Frame) (s : Footing) : Prop :=
  match frame with
  | none => s = ⟨scopesOf outer, none⟩
  | some f => StandsWith outer f s

/-- The frames with the one that a line opened. -/
theorem StandsBefore.stands {outer : List Frame} {frame : Option Frame} {s : Footing}
    (h : StandsBefore outer frame s) (houter : Nested outer) :
    IsGrounded (frame.toList ++ outer) s := by
  cases frame with
  | none => exact ⟨h, houter⟩
  | some f => exact ⟨h.1, h.2, houter⟩

/-- A line as an annotation element. -/
theorem heedsIn_elementLine (l : Line) {outer : List Frame}
    (hscope : (scopesOf outer).head? = some .ofAnnotationBody) :
    (elementLine l).HeedsIn (scopesOf outer) (StandsBefore outer) := by
  unfold elementLine
  dsimp only
  split
  · exact Passage.heedsIn_throw _
  · split
    · exact Passage.heedsIn_throw _
    · split
      · exact Passage.Heeds.bind (heedsIn_openSubannotationScope l _ _ hscope) fun _ _ hf => hf
      · split
        · refine ⟨?_, nofun, hscope⟩
          rw [scopesOf_cons_none rfl]
        · exact (stays_tellElement _ _ _ hscope _ (by nofun)).bind fun _ => rfl

/-- A passage that may open a frame, whose faults are skipped over. -/
theorem heeds_attempt_frame {position : Position} {p : Passage (Option Frame)}
    {outer : List Frame} (h : p.HeedsIn (scopesOf outer) (StandsBefore outer)) :
    (Dialogue.attempt position p).Heeds (fun frame => StandsBefore outer frame.join)
      ⟨scopesOf outer, none⟩ := by
  refine (heeds_attempt h).weaken fun frame s hs => ?_
  cases frame with
  | none => exact hs
  | some frame => exact hs

/-- A line in an annotation. -/
theorem heeds_takeInAnnotationBody (opened : Position) (name : Text) (l : Line)
    {outer : List Frame} (houter : Nested outer) :
    (takeInAnnotationBody opened name l outer).Heeds IsGrounded
      ⟨scopesOf (.annotationBody opened name :: outer), none⟩ := by
  have hscopes : scopesOf (.annotationBody opened name :: outer) =
    .ofAnnotationBody :: scopesOf outer := scopesOf_cons_scope rfl outer
  have hnested : Nested (.annotationBody opened name :: outer) := ⟨trivial, houter⟩
  unfold takeInAnnotationBody
  dsimp only
  split
  · next text _ =>
    rw [hscopes]
    refine heeds_orRaise houter
      ((stays_remark_comment _ (scopesOf_ne_nil outer) text).bind fun _ => ?_)
    exact ⟨by rw [hscopes], hnested⟩
  · refine (heeds_attempt_frame (heedsIn_elementLine l (hscopes ▸ rfl))).bind fun frame s hs => ?_
    exact hs.stands hnested
  · split
    · rw [hscopes]
      exact heeds_closeBy l opened true houter _
    · exact (Dialogue.heeds_excuse (Fault.settles_clear _ _)).bind fun _ s hs =>
        ⟨hs, hnested⟩

/-- What an array holds back are comments, also with one more line. -/
theorem Gathering.isComment_add {g : Gathering} (h : ∀ call ∈ g.remarks, call.isComment = true)
    (l : Line) : ∀ call ∈ (g.add l).remarks, call.isComment = true := by
  unfold add
  split
  · exact List.forall_mem_cons.mpr ⟨rfl, h⟩
  · intro call hcall
    rcases List.mem_append.mp hcall with hcall | hcall
    · exact (isComment_of_eolCall? l [] call (Option.mem_toList.mp hcall)).1
    · exact h call hcall

/-- A line in an array, with the closing brace or without it. -/
theorem heeds_takeInArray {g : Gathering} (l : Line) {outer : List Frame}
    (h : Nested (.array g :: outer)) :
    (takeInArray g l outer).Heeds IsGrounded ⟨scopesOf (.array g :: outer), none⟩ := by
  obtain ⟨⟨hg, hscope⟩, houter⟩ := h
  have hremarks := Gathering.isComment_add hg l
  have hlast : ∀ call : Call, call.isLast (scopesOf outer) = false := by
    intro call
    -- The innermost scope is an annotation, so the class is around it.
    cases hscopes : scopesOf outer with
    | nil => exact absurd hscopes (scopesOf_ne_nil outer)
    | cons scope more =>
      refine call.isLast_cons scope ?_
      rintro rfl
      have hclass := scopesOf_getLast? outer
      rw [hscopes] at hclass hscope
      cases hclass
      cases hscope
  rw [scopesOf_cons_none rfl]
  unfold takeInArray
  dsimp only
  split
  · refine (heeds_attempt (stays_tellElement _ _ _ hscope _ fun call hcall =>
      ⟨hremarks call (List.mem_reverse.mp hcall), hlast call⟩)).bind fun told s hs => ?_
    cases told <;> exact ⟨hs, houter⟩
  · refine ⟨?_, ⟨hremarks, hscope⟩, houter⟩
    rw [scopesOf_cons_none rfl]

/-! ## Fields -/

/-- A line in a field. -/
theorem heeds_takeInField (f : OpenField) (l : Line) {outer : List Frame} (houter : Nested outer) :
    (takeInField f l outer).Heeds IsGrounded ⟨scopesOf (.field f :: outer), none⟩ := by
  have hscopes : ∀ f : OpenField, scopesOf (.field f :: outer) = .ofField :: scopesOf outer :=
    fun f => scopesOf_cons_scope rfl outer
  have hheld : ∀ held : List Text,
      (held.forM fun text => Passage.remark (some (.comment text))).Stays
        (.ofField :: scopesOf outer) := by
    intro held
    induction held with
    | nil => exact rfl
    | cons text held ih =>
      rw [List.forM_eq_forM, List.forM_cons]
      exact (stays_remark_comment _ (scopesOf_ne_nil outer) text).bind fun _ => ih
  unfold takeInField
  rw [hscopes]
  split
  · exact ⟨by rw [hscopes], trivial, houter⟩
  · refine Heeds.bind (hheld f.held.reverse) fun told s hs => ?_
    cases told with
    | error fault =>
      refine (Dialogue.heeds_leave hs.1 (scopesOf_ne_nil outer)).bind fun _ s' hs' => ?_
      subst hs'
      have hfails : Fails (scopesOf outer) fault ⟨scopesOf outer, s.due⟩ := ⟨rfl, hs.2⟩
      exact heeds_raise houter hfails f.opened
    | ok _ =>
      subst hs
      dsimp only
      split
      · exact heeds_closeBy l f.opened f.heard houter _
      · refine heeds_orRaise houter ?_
        have hopen := heedsIn_openAnnotationScope l
          (.field { f with annotated := true, held := [] } :: outer) (hscopes _ ▸ rfl)
          (show Scope.ofField ≠ _ by decide)
        rw [hscopes] at hopen
        exact Passage.Heeds.bind hopen fun frame s hs => ⟨hs.1, hs.2, trivial, houter⟩

/-! ## Methods -/

section Methods

variable {outer : List Scope}

/-- A line with code. -/
theorem stays_codeLine (m : OpenMethod) (l : Line) : (codeLine m l).Stays (.ofMethod :: outer) := by
  refine (Passage.stays_require rfl).bind fun _ => ?_
  split <;> exact stays_tellLine l rfl rfl rfl

/-- A closing line in a method. -/
theorem stays_closingLine (m : OpenMethod) (l : Line) :
    (closingLine m l).Stays (.ofMethod :: outer) := by
  unfold closingLine
  split
  · split
    · exact stays_tellLine l rfl rfl rfl
    · exact Passage.heedsIn_throw _
  · split
    · exact (Passage.stays_ofExcept _).bind fun _ => stays_tellLine l rfl rfl rfl
    · split
      · exact Passage.heedsIn_throw _
      · exact stays_codeLine m l

/-- A line with a handler for exceptions of one type. -/
theorem stays_catchingLine (m : OpenMethod) (l : Line) :
    (catchingLine m l).Stays (.ofMethod :: outer) := by
  refine (Passage.stays_require rfl).bind fun _ => ?_
  refine (Passage.stays_ofExcept _).bind fun _ => ?_
  refine (Passage.stays_ofExcept _).bind fun _ => ?_
  refine (stays_checkObject l _ _).bind fun _ => ?_
  exact stays_tellLine l rfl rfl rfl

/-- A line with a handler for all exceptions. -/
theorem stays_catchAllLine (m : OpenMethod) (l : Line) :
    (catchAllLine m l).Stays (.ofMethod :: outer) := by
  refine (Passage.stays_require rfl).bind fun _ => ?_
  refine (Passage.stays_ofExcept _).bind fun _ => ?_
  split
  · exact stays_tellLine l rfl rfl rfl
  · exact Passage.heedsIn_throw _

/-- A line with a directive in a method. -/
theorem stays_directiveLine (m : OpenMethod) (l : Line) (d : Directive) :
    (directiveLine m l d).Stays (.ofMethod :: outer) := by
  unfold directiveLine
  split
  · refine (Passage.stays_require rfl).bind fun _ => ?_
    exact (Passage.stays_ofExcept _).bind fun _ => stays_tellLine l rfl rfl rfl
  · refine (Passage.stays_require rfl).bind fun _ => ?_
    exact (Passage.stays_ofExcept _).bind fun _ => stays_tellLine l rfl rfl rfl
  · exact (Passage.stays_ofExcept _).bind fun _ => stays_tellLine l rfl rfl rfl
  · exact (Passage.stays_ofExcept _).bind fun _ => stays_tellLine l rfl rfl rfl
  · exact stays_catchingLine m l
  · exact stays_catchAllLine m l
  · exact (Passage.stays_ofExcept _).bind fun _ => stays_tellLine l rfl rfl rfl
  · exact (Passage.stays_ofExcept _).bind fun _ => stays_tellLine l rfl rfl rfl
  · exact stays_tellLine l rfl rfl rfl
  · exact stays_tellLine l rfl rfl rfl
  · exact stays_codeLine m l
  · exact Passage.heedsIn_throw _

end Methods

/-- A line of the body of a method. -/
theorem heedsIn_bodyLine (m : OpenMethod) (l : Line) {frames : List Frame} {outer : List Scope}
    (h : scopesOf frames = .ofMethod :: outer) :
    (bodyLine m l).HeedsIn (scopesOf frames) (StandsBefore frames) := by
  have hnone : ∀ {p : Passage Unit}, p.Stays (.ofMethod :: outer) →
      Passage.HeedsIn (scopesOf frames) (StandsBefore frames) (do
        p
        return none) :=
    fun hp => (h ▸ hp).bind fun _ => rfl
  unfold bodyLine
  split
  · exact hnone (stays_codeLine m l)
  · have hopen := heedsIn_openAnnotationScope l frames (h ▸ rfl)
      (show Scope.ofMethod ≠ _ by decide)
    exact Passage.Heeds.bind hopen fun _ _ hf => hf
  · exact hnone (stays_closingLine m l)
  · exact hnone (stays_directiveLine m l _)

/-- A line in a method. -/
theorem heeds_takeInMethod (m : OpenMethod) (l : Line) {outer : List Frame}
    (houter : Nested outer) :
    (takeInMethod m l outer).Heeds IsGrounded ⟨scopesOf (.method m :: outer), none⟩ := by
  have hscopes : ∀ m : OpenMethod, scopesOf (.method m :: outer) = .ofMethod :: scopesOf outer :=
    fun m => scopesOf_cons_scope rfl outer
  unfold takeInMethod
  rw [hscopes]
  split
  · next text _ =>
    refine heeds_orRaise houter
      ((stays_remark_comment _ (scopesOf_ne_nil outer) text).bind fun _ => ?_)
    exact ⟨by rw [hscopes], trivial, houter⟩
  · split
    · exact heeds_closeBy l m.opened true houter _
    · rw [← hscopes (m.after l)]
      refine (heeds_attempt_frame (heedsIn_bodyLine m l (hscopes _))).bind fun frame s hs => ?_
      exact hs.stands ⟨trivial, houter⟩

/-! ## Classes -/

/-- A line of the class header. -/
theorem stays_headerLine (l : Line) (d : Directive) : (headerLine l d).Stays [.ofClass] := by
  unfold headerLine
  split
  · refine (Passage.stays_ofExcept _).bind fun _ => ?_
    exact (stays_checkObject l _ _).bind fun _ => stays_tellLine l rfl rfl rfl
  · refine (Passage.stays_ofExcept _).bind fun _ => ?_
    exact (stays_checkObject l _ _).bind fun _ => stays_tellLine l rfl rfl rfl
  · refine (Passage.stays_ofExcept _).bind fun _ => ?_
    exact (stays_checkObject l _ _).bind fun _ => stays_tellLine l rfl rfl rfl
  · exact (Passage.stays_ofExcept _).bind fun _ => stays_tellLine l rfl rfl rfl

/-- The line of a field. -/
theorem stays_fieldHeader (declared : List Member) (l : Line) {scopes : List Scope} :
    (fieldHeader declared l).Stays scopes := by
  refine (Passage.stays_ofExcept _).bind fun f => ?_
  have hrest : Passage.Stays scopes (do
      Passage.check l (!declared.contains (.field f.name)) ("duplicate field " ++ f.name)
      return f) :=
    (Passage.stays_require rfl).bind fun _ => rfl
  dsimp only
  split
  · exact hrest
  · refine (Passage.stays_require rfl).bind fun _ => ?_
    exact (stays_checkValue _ _).bind fun _ => hrest

/-- The line of a method. -/
theorem stays_methodHeader (declared : List Member) (l : Line) {scopes : List Scope} :
    (methodHeader declared l).Stays scopes := by
  refine (Passage.stays_ofExcept _).bind fun m => ?_
  refine (Passage.stays_require rfl).bind fun _ => ?_
  refine (Passage.stays_require rfl).bind fun _ => ?_
  exact (Passage.stays_require rfl).bind fun _ => rfl

/-- A reader whose frames are on a clear footing. -/
def Control.IsGrounded (c : Control) (s : Footing) : Prop := Smali.IsGrounded c.frames s

/-- Going into the scope of a member. -/
theorem heeds_openMember (l : Line) {call : Call} {scope : Scope}
    (hsuits : call.suits .ofClass = true) (hopens : call.opens? = some scope) {f : Frame}
    (hf : f.scope? = some scope) (hstands : f.StandsIn []) :
    (Dialogue.attempt l.position (Passage.enter call l.eolCall?)).Heeds
      (fun opened => IsGrounded (opened.map fun _ => f).toList) ⟨[.ofClass], none⟩ := by
  refine (heeds_attempt (heedsIn_enterLine l rfl hsuits hopens)).weaken fun opened s hs => ?_
  cases opened with
  | none => exact ⟨hs, trivial⟩
  | some _ =>
    refine ⟨?_, hstands, trivial⟩
    exact hs.trans (congrArg (Footing.mk · none) (scopesOf_cons_scope hf [])).symm

/-- The field of a line is gone into, or a scope that nobody hears. -/
theorem heeds_openField (c : Control) (l : Line) :
    (c.openField l).Heeds Control.IsGrounded ⟨[.ofClass], none⟩ := by
  refine Heeds.bind (stays_fieldHeader c.declared l) fun r s hr => ?_
  cases r with
  | error fault =>
    refine (Dialogue.heeds_excuse hr.2).bind fun _ s' hs' => ?_
    subst hs'
    rw [hr.1]
    exact ⟨⟨rfl, rfl⟩, fun _ _ => ⟨rfl, trivial, trivial⟩⟩
  | ok f =>
    rw [show s = ⟨[.ofClass], none⟩ from hr]
    exact (heeds_openMember l rfl rfl (f := .field ⟨l.position, false, [], true⟩) rfl
      trivial).bind fun _ s hs => hs

/-- The method of a line is gone into, or skipped. -/
theorem heeds_openMethod (c : Control) (l : Line) :
    (c.openMethod l).Heeds Control.IsGrounded ⟨[.ofClass], none⟩ := by
  refine Heeds.bind (stays_methodHeader c.declared l) fun r s hr => ?_
  cases r with
  | error fault =>
    refine (Dialogue.heeds_excuse hr.2).bind fun _ s' hs' => ?_
    subst hs'
    rw [hr.1]
    exact ⟨rfl, trivial, trivial⟩
  | ok m =>
    rw [show s = ⟨[.ofClass], none⟩ from hr]
    exact (heeds_openMember l rfl rfl (f := .method ⟨l.position, m.name, m.access, false⟩) rfl
      trivial).bind fun _ s hs => hs

/-- A line at the level of the class. -/
theorem heeds_classLine {c : Control} (hc : c.frames = []) (l : Line) :
    (c.classLine l).Heeds Control.IsGrounded ⟨[.ofClass], none⟩ := by
  have hsame : c.IsGrounded ⟨[.ofClass], none⟩ := by
    refine ⟨?_, ?_⟩ <;> rw [hc]
    · rfl
    · trivial
  have hexcuse : ∀ fault, Heeds Control.IsGrounded (do
      Dialogue.excuse fault
      return c) ⟨[.ofClass], none⟩ :=
    fun fault => (Dialogue.heeds_excuse (fault.settles_clear _)).bind fun _ s hs => hs ▸ hsame
  unfold Control.classLine
  split
  · exact (heeds_remarkClass _).bind fun _ s hs => hs ▸ hsame
  · exact hexcuse _
  · exact hexcuse _
  · split
    · unfold Control.classDirective
      split
      · refine (heeds_attempt (stays_headerLine l _)).bind fun told s hs => ?_
        cases told <;> exact hs ▸ hsame
      · exact heeds_openField _ l
      · exact heeds_openMethod _ l
      · refine (heeds_attempt (heedsIn_openAnnotationScope l [] rfl
          (show Scope.ofClass ≠ _ by decide))).bind fun frame s hs => ?_
        cases frame with
        | none => exact ⟨hs, trivial⟩
        | some f => exact ⟨hs.1, hs.2, trivial⟩
    · exact hexcuse _

/-- A line in the innermost of some frames. -/
theorem heeds_takeInner (c : Control) (l : Line) {frames : List Frame} (h : Nested frames) :
    (c.takeInner l frames).Heeds Control.IsGrounded ⟨scopesOf frames, none⟩ := by
  have hnext : ∀ {d : Dialogue (List Frame)}, d.Heeds IsGrounded ⟨scopesOf frames, none⟩ →
      Heeds Control.IsGrounded (do return { c with frames := ← d }) ⟨scopesOf frames, none⟩ :=
    fun hd => hd.bind fun _ _ hs => hs
  unfold Control.takeInner
  split
  · exact heeds_classLine rfl l
  · exact hnext (heeds_takeInField _ l h.2)
  · exact hnext (heeds_takeInMethod _ l h.2)
  · exact hnext (heeds_takeInAnnotationBody _ _ l h.2)
  · exact hnext (heeds_takeInArray l h)
  · next name outer =>
    have hscopes : scopesOf (.skipping name :: outer) = scopesOf outer :=
      scopesOf_cons_none rfl outer
    refine ⟨?_, ?_⟩ <;> dsimp only <;> split
    · rw [hscopes]
    · rfl
    · exact h.2
    · exact h

/-- Every line leads from a clear footing to a clear footing. -/
theorem heeds_take {c : Control} (l : Line) (h : Nested c.frames) :
    (c.take l).Heeds Control.IsGrounded ⟨scopesOf c.frames, none⟩ := by
  refine (heeds_unwind (some l) _ h rfl (carries_nothing _)).bind fun frames s hs => ?_
  rw [hs.1.1]
  exact heeds_takeInner c l hs.1.2

/-- The end of the class. A fault of this call has nobody who could skip over it. -/
theorem heeds_tellFinish :
    Heeds (fun _ s => s.due = none) (do
      match ← (Passage.tell .finish).run with
      | .ok _ => return ()
      | .error fault => .halt fault) ⟨[.ofClass], none⟩ := by
  refine ⟨⟨⟨rfl, .ofClass, rfl, rfl⟩, rfl, rfl⟩, fun received _ => ?_⟩
  cases received with
  | none => exact rfl
  | some fault => exact ⟨_, rfl, rfl, fault.echoes_refl⟩

/-- The end of a source. -/
theorem heeds_finish {c : Control} (h : Nested c.frames) :
    c.finish.Heeds (fun _ s => s.due = none) ⟨scopesOf c.frames, none⟩ := by
  refine (heeds_unwind none _ h rfl (carries_nothing _)).bind fun left s hs => ?_
  have hleft : left = [] := by
    cases left with
    | nil => rfl
    | cons f _ => exact absurd (hs.2 f rfl) Bool.false_ne_true
  subst hleft
  rw [hs.1.1]
  dsimp only
  split
  · exact (Dialogue.heeds_excuse (Fault.settles_clear _ _)).bind fun _ s hs => hs ▸ heeds_tellFinish
  · exact heeds_tellFinish

/-- Any lines are read on a footing. -/
theorem heeds_readLines (lines : List (Except Fault Line)) {c : Control} (h : Nested c.frames) :
    (c.readLines lines).Heeds (fun _ s => s.due = none) ⟨scopesOf c.frames, none⟩ := by
  induction lines generalizing c with
  | nil => exact heeds_finish h
  | cons line lines ih =>
    cases line with
    | error fault =>
      exact (Dialogue.heeds_excuse (fault.settles_clear _)).bind fun _ s hs => hs ▸ ih h
    | ok l => exact (heeds_take l h).bind fun c' s hs => hs.1 ▸ ih hs.2

/-- Whatever a reading is received with, it heeds its footing from the class on, and at its
end no fault waits. -/
theorem dialogue_heeds (o : Options) (source : Text) :
    (dialogue o source).Heeds (fun _ s => s.due = none) ⟨[.ofClass], none⟩ :=
  heeds_readLines (scanLines source) (c := .initial o) trivial

end Smali
