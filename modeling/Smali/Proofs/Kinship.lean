import Smali.Proofs.Trace
import Mathlib.Data.List.Forall2

/-!
# Readings that go alike

Two readings are compared act by act. A kinship says which places of the two sources correspond
and which faults do. Two dialogues are akin if they make the same moves, skip over corresponding
faults and end alike: both with results that are related, or both with corresponding faults. A row
of dialogues is akin to another if the dialogues in the two rows are, one by one; so kinship is
shown along the definition of a reader, one rule for each kind of act.
-/

namespace Smali

/-- What two readings are compared by. -/
structure Kinship where
  /-- Places that correspond. -/
  places : Position → Position → Prop
  /-- Faults that correspond. -/
  faults : Fault → Fault → Prop
  /-- They are of one kind. -/
  kind_eq : ∀ {fault fault' : Fault}, faults fault fault' → fault.kind = fault'.kind
  /-- A fault without a place corresponds to itself. -/
  plain : ∀ (kind : FaultKind) (details : Text), faults (.plain kind details) (.plain kind details)
  /-- They still correspond with places that do. -/
  attach : ∀ {fault fault' : Fault} {p p' : Position}, faults fault fault' → places p p' →
    faults (fault.attach p) (fault'.attach p')

/-- Comments that are alike: the same ones, unless comments are not told at all. -/
def Options.Alike (o : Options) {α : Type} (a b : α) : Prop := o.comments = true → a = b

namespace Options.Alike

variable {o : Options} {α β : Type}

/-- A comment is like itself. -/
theorem refl (a : α) : o.Alike a a := fun _ => rfl

/-- The same is made of comments that are alike. -/
theorem map {a b : α} (h : o.Alike a b) (f : α → β) : o.Alike (f a) (f b) :=
  fun hcomments => congrArg f (h hcomments)

/-- The same is made of two pairs of them. -/
theorem map₂ {γ : Type} {a a' : α} {b b' : β} (ha : o.Alike a a') (hb : o.Alike b b')
    (f : α → β → γ) : o.Alike (f a b) (f a' b') :=
  fun hcomments => congrArg₂ f (ha hcomments) (hb hcomments)

end Options.Alike

namespace Kinship

variable {K : Kinship} {o : Options} {α β γ δ ε : Type}

/-- The same fault at places that correspond. -/
theorem located {p p' : Position} (h : K.places p p') (kind : FaultKind) (details : Text) :
    K.faults (.located kind p details) (.located kind p' details) :=
  K.attach (K.plain kind details) h

/-- Faults that are compared by their kinds alone, at any places. -/
def byKind : Kinship where
  places _ _ := True
  faults fault fault' := fault.kind = fault'.kind
  kind_eq h := h
  plain _ _ := rfl
  attach h _ := h

/-! ## Results -/

/-- Two results that are related, or two faults that correspond. -/
inductive Outcomes (K : Kinship) (R : α → β → Prop) : Except Fault α → Except Fault β → Prop
  /-- Two results. -/
  | ok {a : α} {b : β} (h : R a b) : Outcomes K R (.ok a) (.ok b)
  /-- Two faults. -/
  | error {fault fault' : Fault} (h : K.faults fault fault') :
      Outcomes K R (.error fault) (.error fault')

namespace Outcomes

variable {R : α → β → Prop} {S : γ → δ → Prop}

/-- What goes on with a result. -/
theorem bind {r : Except Fault α} {r' : Except Fault β} {f : α → Except Fault γ}
    {f' : β → Except Fault δ} (h : K.Outcomes R r r') (hf : ∀ a b, R a b → K.Outcomes S (f a) (f' b)) :
    K.Outcomes S (r >>= f) (r' >>= f') := by
  cases h with
  | ok h => exact hf _ _ h
  | error h => exact .error h

/-- What is made of a result. -/
theorem map {r : Except Fault α} {r' : Except Fault β} {f : α → γ} {f' : β → δ}
    (h : K.Outcomes R r r') (hf : ∀ a b, R a b → S (f a) (f' b)) :
    K.Outcomes S (r.map f) (r'.map f') := by
  cases h with
  | ok h => exact .ok (hf _ _ h)
  | error h => exact .error h

/-- The same result, and the same that goes on with it. -/
theorem next {r r' : Except Fault α} {f : α → Except Fault γ} {f' : α → Except Fault δ}
    (h : K.Outcomes Eq r r') (hf : ∀ a, K.Outcomes S (f a) (f' a)) :
    K.Outcomes S (r >>= f) (r' >>= f') :=
  h.bind fun a _ hab => hab ▸ hf a

/-- Results that are the same are the same without their faults. -/
theorem toOption_eq {r r' : Except Fault α} (h : K.Outcomes Eq r r') : r.toOption = r'.toOption := by
  cases h with
  | ok h => exact congrArg some h
  | error h => rfl

/-- There is a result in both cases or in none. -/
theorem isOk_eq {r : Except Fault α} {r' : Except Fault β} (h : K.Outcomes R r r') :
    r.isOk = r'.isOk := by
  cases h <;> rfl

end Outcomes

/-- A result that has nothing to do with places, with faults that do. -/
theorem outcomes_mapError (r : Except ε α) {f f' : ε → Fault} (h : ∀ e, K.faults (f e) (f' e)) :
    K.Outcomes Eq (r.mapError f) (r.mapError f') := by
  cases r with
  | ok a => exact .ok rfl
  | error e => exact .error (h e)

/-! ## Courses -/

/-- Two rehearsals with the same moves, with skipped faults that correspond, and with results that
are related. -/
structure Courses (K : Kinship) (R : α → β → Prop) (r : Rehearsal α) (r' : Rehearsal β) : Prop where
  /-- The moves are the same. -/
  moves : r.moves = r'.moves
  /-- The skipped faults correspond. -/
  skipped : List.Forall₂ K.faults r.skipped r'.skipped
  /-- They end alike. -/
  result : K.Outcomes R r.result r'.result

/-- The same moves and corresponding faults in front. -/
theorem Courses.after {R : α → β → Prop} {r : Rehearsal α} {r' : Rehearsal β}
    (h : K.Courses R r r') (moves : List Move) {skipped skipped' : List Fault}
    (hskipped : List.Forall₂ K.faults skipped skipped') :
    K.Courses R (r.after moves skipped) (r'.after moves skipped') :=
  ⟨congrArg (moves ++ ·) h.moves, List.rel_append hskipped h.skipped, h.result⟩

/-- What goes on with the results. -/
theorem Courses.andThen {R : α → β → Prop} {S : γ → δ → Prop} {r : Rehearsal α} {r' : Rehearsal β}
    {f : α → Rehearsal γ} {f' : β → Rehearsal δ} (h : K.Courses R r r')
    (hf : ∀ a b, R a b → K.Courses S (f a) (f' b)) :
    K.Courses S (r.andThen f) (r'.andThen f') := by
  obtain ⟨moves, skipped, result⟩ := r
  obtain ⟨moves', skipped', result'⟩ := r'
  obtain ⟨hmoves, hskipped, hresult⟩ := h
  obtain rfl : moves = moves' := hmoves
  cases hresult with
  | ok hab => exact (hf _ _ hab).after moves hskipped
  | error hfaults => exact ⟨rfl, hskipped, .error hfaults⟩

end Kinship

/-! ## Acts -/

/-- Two acts that make the same moves and skip over or stop at corresponding faults. -/
structure Act.Akin (K : Kinship) (o : Options) (a a' : Act) : Prop where
  /-- They stop at faults that correspond, or none of them stops. -/
  stop : Option.Rel K.faults (a.stop? o) (a'.stop? o)
  /-- The moves are the same. -/
  moves : a.moves o = a'.moves o
  /-- The skipped faults correspond. -/
  skips : List.Forall₂ K.faults a.skips a'.skips

namespace Act

variable {K : Kinship} {o : Options}

/-- An act without a fault is akin to itself. -/
theorem akin_self {a : Act} (hstop : a.stop? o = none) (hskips : a.skips = []) :
    a.Akin K o a :=
  ⟨hstop ▸ .none, rfl, hskips ▸ .nil⟩

/-- Corresponding faults are skipped over alike, since they are of one kind. -/
theorem akin_excuse {fault fault' : Fault} (h : K.faults fault fault') :
    (excuse fault).Akin K o (excuse fault') := by
  refine ⟨?_, rfl, .cons h .nil⟩
  simp only [stop?, K.kind_eq h]
  split
  · exact .none
  · exact .some h

/-- The same condition, with corresponding faults that stand for its failure. -/
theorem akin_require (holds : Bool) {fault fault' : Fault} (h : K.faults fault fault') :
    (require holds fault).Akin K o (require holds fault') := by
  refine ⟨?_, rfl, .nil⟩
  simp only [stop?]
  split
  · exact .some h
  · exact .none

end Act

/-! ## Dialogues -/

namespace Dialogue

variable {K : Kinship} {o : Options} {α β γ δ : Type} {R : α → β → Prop} {S : γ → δ → Prop}

/-- Two dialogues take courses that are akin. -/
def Akin (K : Kinship) (o : Options) (R : α → β → Prop) (d : Dialogue α) (d' : Dialogue β) : Prop :=
  K.Courses R (d.rehearse o) (d'.rehearse o)

/-- Results that are there at once. -/
theorem akin_pure {a : α} {b : β} (h : R a b) :
    Akin K o R (pure a : Dialogue α) (pure b : Dialogue β) :=
  ⟨rfl, .nil, .ok h⟩

/-- Faults that end the dialogues. -/
theorem akin_halt {fault fault' : Fault} (h : K.faults fault fault') :
    Akin K o R (.halt fault) (.halt fault') :=
  ⟨rfl, .nil, .error h⟩

/-- Acts, and what follows them if they are received well. -/
theorem akin_act {a a' : Act} (h : a.Akin K o a') {next : Option Fault → Dialogue α}
    {next' : Option Fault → Dialogue β} (hnext : Akin K o R (next none) (next' none)) :
    Akin K o R (.act a next) (.act a' next') := by
  obtain ⟨hstop, hmoves, hskips⟩ := h
  unfold Akin rehearse
  generalize a.stop? o = stop at hstop
  generalize a'.stop? o = stop' at hstop
  cases hstop with
  | none =>
    dsimp only
    rw [← hmoves]
    exact hnext.after _ hskips
  | some hfaults => exact ⟨rfl, .nil, .error hfaults⟩

/-- Dialogues in a row. -/
theorem Akin.bind {d : Dialogue α} {d' : Dialogue β} {f : α → Dialogue γ} {f' : β → Dialogue δ}
    (h : Akin K o R d d') (hf : ∀ a b, R a b → Akin K o S (f a) (f' b)) :
    Akin K o S (d >>= f) (d' >>= f') := by
  unfold Akin
  rw [rehearse_bind, rehearse_bind]
  exact Kinship.Courses.andThen h hf

/-- Dialogues behind others with the same result. -/
theorem Akin.next {d d' : Dialogue α} {f : α → Dialogue γ} {f' : α → Dialogue δ}
    (h : Akin K o Eq d d') (hf : ∀ a, Akin K o S (f a) (f' a)) :
    Akin K o S (d >>= f) (d' >>= f') :=
  h.bind fun a _ hab => hab ▸ hf a

/-- What is planned with comments is akin to what is planned with comments that are alike, if the
plans do not differ where comments are not told. -/
theorem akin_of_alike {a b : γ} (h : o.Alike a b) (d : γ → Dialogue α) {R : α → α → Prop}
    (hself : Akin K o R (d a) (d a))
    (hquiet : o.comments = false → (d a).rehearse o = (d b).rehearse o) :
    Akin K o R (d a) (d b) := by
  cases hcomments : o.comments with
  | false =>
    -- the comments may differ, but then they are not told
    unfold Akin at hself ⊢
    rwa [← hquiet hcomments]
  | true => exact h hcomments ▸ hself

/-- The same step into a scope that nobody hears. -/
theorem akin_hush : Akin K o Eq hush hush := akin_act (Act.akin_self rfl rfl) (akin_pure rfl)

/-- The same step out of a scope. -/
theorem akin_leave : Akin K o Eq leave leave := akin_act (Act.akin_self rfl rfl) (akin_pure rfl)

/-- Faults that are skipped over. -/
theorem akin_excuse {fault fault' : Fault} (h : K.faults fault fault') :
    Akin K o Eq (excuse fault) (excuse fault') :=
  akin_act (Act.akin_excuse h) (akin_pure rfl)

end Dialogue

/-! ## Passages -/

namespace Passage

variable {K : Kinship} {o : Options} {α β γ δ : Type} {R : α → β → Prop} {S : γ → δ → Prop}

/-- Two passages take courses that are akin, and the faults that cut them short correspond. -/
def Akin (K : Kinship) (o : Options) (R : α → β → Prop) (p : Passage α) (p' : Passage β) : Prop :=
  Dialogue.Akin K o (K.Outcomes R) p.run p'.run

/-- Results that are there at once. -/
theorem akin_pure {a : α} {b : β} (h : R a b) :
    Akin K o R (pure a : Passage α) (pure b : Passage β) :=
  Dialogue.akin_pure (.ok h)

/-- Faults that are there at once. -/
theorem akin_throw {fault fault' : Fault} (h : K.faults fault fault') :
    Akin K o R (throw fault : Passage α) (throw fault' : Passage β) :=
  Dialogue.akin_pure (.error h)

/-- Results that were found without acts. -/
theorem akin_ofExcept {r : Except Fault α} {r' : Except Fault β} (h : K.Outcomes R r r') :
    Akin K o R (ofExcept r) (ofExcept r') :=
  Dialogue.akin_pure h

/-- Passages in a row. -/
theorem Akin.bind {p : Passage α} {p' : Passage β} {f : α → Passage γ} {f' : β → Passage δ}
    (h : Akin K o R p p') (hf : ∀ a b, R a b → Akin K o S (f a) (f' b)) :
    Akin K o S (p >>= f) (p' >>= f') := by
  refine Dialogue.Akin.bind h fun r r' hr => ?_
  cases hr with
  | ok hab => exact hf _ _ hab
  | error hfaults => exact Dialogue.akin_pure (.error hfaults)

/-- Passages behind others with the same result. -/
theorem Akin.next {p p' : Passage α} {f : α → Passage γ} {f' : α → Passage δ}
    (h : Akin K o Eq p p') (hf : ∀ a, Akin K o S (f a) (f' a)) :
    Akin K o S (p >>= f) (p' >>= f') :=
  h.bind fun a _ hab => hab ▸ hf a

/-- Dialogues as passages that nothing cuts short. -/
theorem akin_lift {d : Dialogue α} {d' : Dialogue β} (h : Dialogue.Akin K o R d d') :
    Akin K o R (liftM d : Passage α) (liftM d' : Passage β) :=
  Dialogue.Akin.bind h fun _ _ hab => Dialogue.akin_pure (.ok hab)

/-- Results together with their faults. -/
theorem Akin.outcome {p : Passage α} {p' : Passage β} (h : Akin K o R p p') :
    Akin K o (K.Outcomes R) p.outcome p'.outcome :=
  Dialogue.Akin.bind h fun _ _ hr => Dialogue.akin_pure (.ok hr)

/-- Acts that a listener without faults receives well. -/
theorem akin_perform {a a' : Act} (h : a.Akin K o a') :
    Akin K o Eq (perform a) (perform a') :=
  Dialogue.akin_act h (Dialogue.akin_pure (.ok rfl))

/-- The same call in both. -/
theorem akin_tell (call : Call) : Akin K o Eq (tell call) (tell call) :=
  akin_perform (Act.akin_self rfl rfl)

/-- The same condition in both, with faults that correspond. -/
theorem akin_require (holds : Bool) {fault fault' : Fault} (h : K.faults fault fault') :
    Akin K o Eq (require holds fault) (require holds fault') :=
  akin_perform (Act.akin_require holds h)

/-! ## Comments -/

/-- A comment that is not told leaves no trace. -/
theorem rehearse_remark (h : o.comments = false) (comment : Option Call) :
    (remark comment).run.rehearse o = ⟨[], [], .ok (.ok ())⟩ := by
  cases comment with
  | none => rfl
  | some call =>
    simp only [remark, perform, ExceptT.run_mk, Dialogue.rehearse, Act.stop?, Act.moves, h,
      Rehearsal.after, Act.skips]
    rfl

/-- Nor does any number of them. -/
theorem rehearse_remarks (h : o.comments = false) (f : α → Call) (comments : List α) :
    (comments.forM (m := Passage) fun a => remark (some (f a))).run.rehearse o =
      ⟨[], [], .ok (.ok ())⟩ := by
  induction comments with
  | nil => rfl
  | cons a comments ih =>
    change Dialogue.rehearse o ((remark (some (f a))).run >>= _) = _
    rw [Dialogue.rehearse_bind, rehearse_remark h]
    simp only [Rehearsal.andThen]
    exact congrArg (Rehearsal.after [] []) ih

/-- Comments that are alike. -/
theorem akin_remark {comment comment' : Option Call} (h : o.Alike comment comment') :
    Akin K o Eq (remark comment) (remark comment') := by
  refine Dialogue.akin_of_alike h (fun comment => (remark comment).run) ?_ fun hcomments => ?_
  · cases comment with
    | none => exact akin_pure rfl
    | some call => exact akin_perform (Act.akin_self rfl rfl)
  · rw [rehearse_remark hcomments, rehearse_remark hcomments]

/-- Lists of comments that are alike. -/
theorem akin_remarks {comments comments' : List α} (h : o.Alike comments comments')
    (f : α → Call) :
    Akin K o Eq (comments.forM fun a => remark (some (f a)))
      (comments'.forM fun a => remark (some (f a))) := by
  refine Dialogue.akin_of_alike h
    (fun comments => (comments.forM (m := Passage) fun a => remark (some (f a))).run) ?_
    fun hcomments => ?_
  · clear h
    induction comments with
    | nil => exact akin_pure rfl
    | cons a comments ih => exact (akin_remark (.refl _)).next fun _ => ih
  · rw [rehearse_remarks hcomments, rehearse_remarks hcomments]

/-- The same call that opens a scope, with comments that are alike. -/
theorem akin_enter (call : Call) {comment comment' : Option Call} (h : o.Alike comment comment') :
    Akin K o Eq (enter call comment) (enter call comment') := by
  refine (akin_perform (Act.akin_self rfl rfl)).next fun _ => ?_
  refine Dialogue.Akin.bind (akin_remark h) fun r r' hr => ?_
  cases hr with
  | ok _ => exact Dialogue.akin_pure (.ok rfl)
  | error hfaults => exact Dialogue.akin_leave.next fun _ => Dialogue.akin_pure (.error hfaults)

end Passage

/-! ## Readings -/

/-- Sources whose dialogues are akin are read alike by whoever never fails: the calls are the same,
the diagnostics correspond, and both readings come to their end or to corresponding faults. -/
theorem Dialogue.Akin.readings {K : Kinship} {o : Options} {source source' : Text}
    (h : Akin K o Eq (dialogue o source) (dialogue o source')) {σ κ : Type} {L : Listener σ κ}
    (hL : L.NeverFails) (root : κ) (state : σ) :
    callsOf o L root state source = callsOf o L root state source' ∧
      K.Outcomes Eq (read o L root state source).1 (read o L root state source').1 ∧
      List.Forall₂ K.faults (read o L root state source).2.diagnostics
        (read o L root state source').2.diagnostics := by
  obtain ⟨hmoves, hskipped, hresult⟩ := h
  simp only [callsOf_eq _ _ _ _ hL, read_result _ _ _ _ hL, read_diagnostics _ _ _ _ hL]
  exact ⟨by rw [hmoves], hresult, hskipped⟩

end Smali
