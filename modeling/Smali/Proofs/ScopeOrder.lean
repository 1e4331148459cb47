import Smali.Proofs.Rehearsal
import Smali.Reader.Run

/-!
# The order of moves

Whatever the source and the options are, a reader goes into a scope only with a call that
opens one, and goes back only behind the end of the scope. The depth that this leads to is
the number of frames that are scopes.
-/

namespace Smali

/-- Moves that keep to the scopes, from `n` scopes inside the class to some others. -/
inductive Ordered : Nat → List Move → Nat → Prop where
  /-- No moves. -/
  | nil {n : Nat} : Ordered n [] n
  /-- A call that neither opens nor ends a scope. -/
  | tell {n m : Nat} {call : Call} {moves : List Move} (hopens : call.opens? = none)
    (hfinish : call ≠ .finish) (h : Ordered n moves m) : Ordered n (.tell call :: moves) m
  /-- A call that opens a scope. -/
  | enter {n m : Nat} {call : Call} {moves : List Move} (hopens : call.opens?.isSome)
    (h : Ordered (n + 1) moves m) : Ordered n (.enter call :: moves) m
  /-- A scope that nobody hears. -/
  | hush {n m : Nat} {moves : List Move} (h : Ordered (n + 1) moves m) :
    Ordered n (.hush :: moves) m
  /-- The end of a scope. -/
  | close {n m : Nat} {moves : List Move} (h : Ordered n moves m) :
    Ordered (n + 1) (.tell .finish :: .leave :: moves) m

/-- Moves that keep to the scopes, one after another. -/
theorem Ordered.append {n m k : Nat} {first second : List Move} (h : Ordered n first m)
    (h' : Ordered m second k) : Ordered n (first ++ second) k := by
  induction h with
  | nil => exact h'
  | tell hopens hfinish _ ih => exact .tell hopens hfinish (ih h')
  | enter hopens _ ih => exact .enter hopens (ih h')
  | hush _ ih => exact .hush (ih h')
  | close _ ih => exact .close (ih h')

/-- Calls that can be told in passing: they neither open nor end a scope. -/
def Call.IsPlain (call : Call) : Prop := call.opens? = none ∧ call ≠ .finish

/-! ## Dialogues that keep to the scopes -/

namespace Dialogue

variable {α β : Type} {o : Options}

/-- From `n` scopes on, the moves of a dialogue keep to the scopes, and a result stands in
a relation to the depth at the end. -/
def Keeps (o : Options) (n : Nat) (d : Dialogue α) (Q : α → Nat → Prop) : Prop :=
  ∃ m, Ordered n (d.rehearse o).moves m ∧ ∀ a, (d.rehearse o).result = .ok a → Q a m

/-- A result that is there at once. -/
theorem keeps_pure {n : Nat} {a : α} {Q : α → Nat → Prop} (h : Q a n) :
    Keeps o n (pure a) Q :=
  ⟨n, .nil, fun _ ha => Except.ok.inj ha ▸ h⟩

/-- Two dialogues in a row. -/
theorem Keeps.bind {n : Nat} {d : Dialogue α} {f : α → Dialogue β} {P : α → Nat → Prop}
    {Q : β → Nat → Prop} (h : Keeps o n d P) (hf : ∀ a m, P a m → Keeps o m (f a) Q) :
    Keeps o n (d >>= f) Q := by
  obtain ⟨m, hmoves, hresult⟩ := h
  unfold Keeps
  rw [rehearse_bind]
  unfold Rehearsal.andThen
  cases hd : (d.rehearse o).result with
  | error fault => exact ⟨m, hmoves, nofun⟩
  | ok a =>
    obtain ⟨k, hmoves', hresult'⟩ := hf a m (hresult a hd)
    exact ⟨k, hmoves.append hmoves', hresult'⟩

/-- A weaker relation at the end. -/
theorem Keeps.weaken {n : Nat} {d : Dialogue α} {P Q : α → Nat → Prop} (h : Keeps o n d P)
    (hpq : ∀ a m, P a m → Q a m) : Keeps o n d Q := by
  obtain ⟨m, hmoves, hresult⟩ := h
  exact ⟨m, hmoves, fun a ha => hpq a m (hresult a ha)⟩

/-- Skipping over a fault. -/
theorem keeps_excuse {n : Nat} {fault : Fault} :
    Keeps o n (excuse fault) fun _ m => m = n := by
  unfold Keeps excuse perform rehearse
  cases (Act.excuse fault).stop? o with
  | some fault => exact ⟨n, .nil, fun _ h => by cases h⟩
  | none => exact ⟨n, .nil, fun _ _ => rfl⟩

/-- Going into a scope that nobody hears. -/
theorem keeps_hush {n : Nat} : Keeps o n hush fun _ m => m = n + 1 :=
  ⟨n + 1, .hush .nil, fun _ _ => rfl⟩

end Dialogue

/-! ## Passages that keep to the scopes -/

namespace Passage

variable {α β : Type} {o : Options}

/-- From `n` scopes on, the moves of a passage keep to the scopes; its result, or the
fault that cuts it short, stands in a relation to the depth at the end. -/
def Keeps (o : Options) (n : Nat) (p : Passage α) (E : Nat → Prop) (Q : α → Nat → Prop) :
    Prop :=
  p.run.Keeps o n fun
    | .ok a => Q a
    | .error _ => E

/-- A passage that goes into no scope. -/
def Level (o : Options) (n : Nat) (p : Passage α) : Prop :=
  p.Keeps o n (· = n) fun _ m => m = n

variable {n : Nat} {E : Nat → Prop}

/-- A result that is there at once. -/
theorem keeps_pure {a : α} {Q : α → Nat → Prop} (h : Q a n) :
    Keeps o n (pure a) E Q :=
  Dialogue.keeps_pure h

/-- A fault that is there at once. -/
theorem keeps_throw {fault : Fault} {Q : α → Nat → Prop} (h : E n) :
    Keeps o n (throw fault) E Q :=
  Dialogue.keeps_pure (a := Except.error fault) h

/-- Two passages in a row. -/
theorem Keeps.bind {p : Passage α} {f : α → Passage β} {P : α → Nat → Prop}
    {Q : β → Nat → Prop} (h : Keeps o n p E P) (hf : ∀ a m, P a m → Keeps o m (f a) E Q) :
    Keeps o n (p >>= f) E Q := by
  refine Dialogue.Keeps.bind h fun r m hr => ?_
  cases r with
  | ok a => exact hf a m hr
  | error fault => exact Dialogue.keeps_pure hr

/-- A weaker relation at the end. -/
theorem Keeps.weaken {p : Passage α} {P Q : α → Nat → Prop} (h : Keeps o n p E P)
    (hpq : ∀ a m, P a m → Q a m) : Keeps o n p E Q := by
  refine Dialogue.Keeps.weaken h fun r m hr => ?_
  cases r with
  | ok a => exact hpq a m hr
  | error fault => exact hr

/-- A result that was found without acts. -/
theorem level_ofExcept {result : Except Fault α} : Level o n (ofExcept result) := by
  cases result with
  | ok a => exact keeps_pure rfl
  | error fault => exact keeps_throw rfl

/-- A passage that goes into no scope, and another one behind it. -/
theorem Level.bind {p : Passage α} {f : α → Passage β} {Q : β → Nat → Prop}
    (h : Level o n p) (hf : ∀ a, Keeps o n (f a) (· = n) Q) : Keeps o n (p >>= f) (· = n) Q :=
  Keeps.bind h fun a _ hm => hm ▸ hf a

/-- A call in passing, which is received well. -/
theorem keeps_tell {call : Call} (h : call.IsPlain) :
    Keeps o n (tell call) E fun _ m => m = n := by
  refine ⟨n, .tell h.1 h.2 .nil, fun r hr => ?_⟩
  cases Except.ok.inj hr
  rfl

/-- A comment, which is received well. -/
theorem keeps_remark {comment : Option Call} (h : ∀ call ∈ comment, call.IsPlain) :
    Keeps o n (remark comment) E fun _ m => m = n := by
  cases comment with
  | none => exact keeps_pure rfl
  | some call =>
    refine ⟨n, ?_, fun r hr => ?_⟩
    · unfold remark perform
      simp only [ExceptT.run_mk, Dialogue.rehearse, Act.stop?, Rehearsal.after, Act.moves,
        List.append_nil]
      split
      · exact .tell (h call rfl).1 (h call rfl).2 .nil
      · exact .nil
    · cases Except.ok.inj hr
      rfl

/-- A condition. -/
theorem level_require {holds : Bool} {fault : Fault} : Level o n (require holds fault) := by
  unfold Level Keeps Dialogue.Keeps require perform
  simp only [ExceptT.run_mk, Dialogue.rehearse]
  cases (Act.require holds fault).stop? o with
  | some fault => exact ⟨n, .nil, fun _ h => by cases h⟩
  | none =>
    refine ⟨n, .nil, fun r hr => ?_⟩
    cases Except.ok.inj hr
    rfl

/-- A condition that concerns a type. -/
theorem level_checkObject {l : Line} {what : Text} {type : TypeName} :
    Level o n (checkObject l what type) :=
  level_require

/-- The conditions on a value. -/
theorem level_checkValue {position : Position} {value : Value} :
    Level o n (checkValue position value) := by
  unfold checkValue
  split
  · exact keeps_pure rfl
  · exact level_require

/-- The comment behind a line is told in passing. -/
theorem eolCall?_isPlain (l : Line) : ∀ call ∈ l.eolCall?, call.IsPlain := by
  intro call h
  obtain ⟨text, -, rfl⟩ := Option.map_eq_some_iff.mp h
  exact ⟨rfl, nofun⟩

/-- A comment on a line of its own is told in passing. -/
theorem comment_isPlain (text : Text) : ∀ call ∈ some (Call.comment text), call.IsPlain := by
  intro call h
  cases h
  exact ⟨rfl, nofun⟩

/-- A call for a line. -/
theorem level_tellLine {l : Line} {call : Call} (h : call.IsPlain) : Level o n (tellLine l call) :=
  Keeps.bind (keeps_tell h) fun _ _ hm => hm ▸ keeps_remark (eolCall?_isPlain l)

/-- Going into the scope that a call opens, which is received well. -/
theorem keeps_enter {call : Call} {l : Line} (h : call.opens?.isSome) :
    Keeps o n (enter call l.eolCall?) E fun _ m => m = n + 1 := by
  refine Keeps.bind (P := fun _ m => m = n + 1) ?_ fun _ m hm => ?_
  · refine ⟨n + 1, .enter h .nil, fun r hr => ?_⟩
    cases Except.ok.inj hr
    rfl
  · subst hm
    refine Dialogue.Keeps.bind (keeps_remark (E := fun _ => False) (eolCall?_isPlain l))
      fun r m hr => ?_
    cases r with
    | ok _ => exact Dialogue.keeps_pure hr
    | error fault => exact hr.elim

end Passage

/-! ## Steps that keep to the scopes -/

/-- Whether a frame is a scope of its own, heard or not. -/
def Frame.isScope : Frame → Bool
  | .field _ | .method _ | .annotationBody _ _ => true
  | .array _ | .skipping _ => false

/-- The number of scopes inside the class. -/
def depth (frames : List Frame) : Nat := frames.countP Frame.isScope

/-- One more frame that is a scope. -/
theorem depth_cons_scope {f : Frame} (h : f.isScope = true) (frames : List Frame) :
    depth (f :: frames) = depth frames + 1 :=
  List.countP_cons_of_pos h

/-- One more frame that is no scope. -/
theorem depth_cons_other {f : Frame} (h : f.isScope = false) (frames : List Frame) :
    depth (f :: frames) = depth frames :=
  List.countP_cons_of_neg (by rw [h]; exact Bool.false_ne_true)

/-- Whether what a frame holds back can be told in passing. -/
def Frame.HoldsPlain : Frame → Prop
  | .array g => ∀ call ∈ g.remarks, call.IsPlain
  | _ => True

/-- Frames that are left behind at a depth. -/
def Kept (frames : List Frame) (m : Nat) : Prop :=
  m = depth frames ∧ ∀ f ∈ frames, f.HoldsPlain

/-- One more frame that is a scope. -/
theorem Kept.cons {f : Frame} (hf : f.HoldsPlain) {frames : List Frame}
    {n : Nat} (h : Kept frames n) : Kept (f :: frames) (depth [f] + n) := by
  refine ⟨?_, List.forall_mem_cons.mpr ⟨hf, h.2⟩⟩
  rw [h.1, ← List.singleton_append]
  exact List.countP_append.symm

section Steps

variable {o : Options} {n : Nat} {E : Nat → Prop}

/-- The end of a scope is received well. -/
theorem keeps_endScope :
    endScope.Keeps o (n + 1) fun fault m => fault = none ∧ m = n :=
  ⟨n, .close .nil, fun _ h => Except.ok.inj h ▸ ⟨rfl, rfl⟩⟩

/-- A comment at the level of the class. -/
theorem keeps_remarkClass {text : Text} : (remarkClass text).Keeps o n fun _ m => m = n := by
  refine Dialogue.Keeps.bind
    (Passage.keeps_remark (E := fun _ => False) (Passage.comment_isPlain text)) fun r m h => ?_
  cases r with
  | ok _ => exact Dialogue.keeps_pure h
  | error fault => exact h.elim

/-- What comes out of a scope is no fault. -/
theorem keeps_reachClass {a : Arrival} (h : a.fault = none) :
    a.reachClass.Keeps o n fun _ m => m = n := by
  unfold Arrival.reachClass Arrival.excuse
  rw [h]
  refine Dialogue.Keeps.bind (P := fun _ m => m = n) (Dialogue.keeps_pure rfl) ?_
  intro _ m hm
  subst hm
  induction a.held with
  | nil => exact Dialogue.keeps_pure rfl
  | cons text held ih =>
    rw [List.forM_eq_forM, List.forM_cons]
    exact keeps_remarkClass.bind fun _ m hm => hm ▸ ih

/-- A frame that ends without a closing line is left, and no fault comes out of it. -/
theorem keeps_close (f : Frame) (outer : List Frame) (before : Option Line) :
    (f.close before).Keeps o (depth (f :: outer)) fun a m =>
      a.fault = none ∧ m = depth outer := by
  have hend : ∀ (opened : Position) (held : List Text) (n : Nat),
      Dialogue.Keeps o (n + 1)
        (do return (⟨(← endScope).map (·, opened), held⟩ : Arrival))
        fun a m => a.fault = none ∧ m = n := by
    intro opened held n
    refine keeps_endScope.bind fun received m h => Dialogue.keeps_pure ?_
    rw [h.1]
    exact ⟨rfl, h.2⟩
  -- A missing end is excused where the scope is still open, and then the scope is ended.
  have hmissing : ∀ (fault : Fault) (opened : Position) (held : List Text) (n : Nat),
      Dialogue.Keeps o (n + 1)
        (do
          Dialogue.excuse fault
          return (⟨(← endScope).map (·, opened), held⟩ : Arrival))
        fun a m => a.fault = none ∧ m = n := by
    intro fault opened held n
    exact Dialogue.keeps_excuse.bind fun _ m hm => hm ▸ hend opened held n
  cases f with
  | field f =>
    rw [depth_cons_scope rfl]
    simp only [Frame.close]
    split
    · exact hmissing _ f.opened f.held.reverse (depth outer)
    · exact hend f.opened f.held.reverse (depth outer)
  | method m =>
    rw [depth_cons_scope rfl]
    exact hmissing _ m.opened [] (depth outer)
  | annotationBody opened name =>
    rw [depth_cons_scope rfl]
    exact hmissing _ opened [] (depth outer)
  | array g =>
    rw [depth_cons_other rfl]
    exact Dialogue.keeps_excuse.bind fun _ m hm => Dialogue.keeps_pure ⟨rfl, hm⟩
  | skipping name =>
    rw [depth_cons_other rfl]
    exact Dialogue.keeps_pure ⟨rfl, rfl⟩

/-- Frames are left down to the first that stays. -/
theorem keeps_unwind (before : Option Line) (stays : Frame → Bool) {frames : List Frame}
    (hframes : ∀ f ∈ frames, f.HoldsPlain) {a : Arrival} (h : a.fault = none) :
    (unwind before stays a frames).Keeps o (depth frames) fun left m =>
      Kept left m ∧ ∀ f ∈ left.head?, stays f = true := by
  induction frames generalizing a with
  | nil =>
    exact (keeps_reachClass h).bind fun _ m hm => Dialogue.keeps_pure ⟨⟨hm, hframes⟩, nofun⟩
  | cons f outer ih =>
    have hstep : unwind before stays a (f :: outer) = (do
        a.excuse
        if stays f then return f :: outer
        else unwind before stays (← f.close before) outer) := by
      obtain ⟨fault, held⟩ := a
      subst h
      cases f <;> rfl
    rw [hstep]
    unfold Arrival.excuse
    rw [h]
    refine Dialogue.Keeps.bind (P := fun _ m => m = depth (f :: outer))
      (Dialogue.keeps_pure rfl) fun _ m hm => ?_
    subst hm
    split
    · refine Dialogue.keeps_pure ⟨⟨rfl, hframes⟩, ?_⟩
      intro f' hf'
      cases hf'
      assumption
    · refine (keeps_close f outer before).bind fun a m ha => ?_
      rw [ha.2]
      exact ih (fun f' hf' => hframes f' (List.mem_cons_of_mem f hf')) ha.1

/-- A closing line ends a scope. -/
theorem keeps_closeBy {l : Line} {opened : Position} {heard : Bool} {outer : List Frame}
    (h : Kept outer n) : (closeBy l opened heard outer).Keeps o (n + 1) Kept := by
  refine keeps_endScope.bind fun received m hm => ?_
  rw [hm.1, hm.2]
  refine Dialogue.Keeps.bind (Passage.keeps_remark (E := fun _ => False) ?_) fun r m hr => ?_
  · cases heard with
    | true => exact Passage.eolCall?_isPlain l
    | false => exact nofun
  · cases r with
    | ok _ => exact Dialogue.keeps_pure (hr ▸ h)
    | error fault => exact hr.elim

/-- A passage that no fault cuts short. -/
theorem keeps_orRaise {opened : Position} {outer : List Frame} {p : Passage (List Frame)}
    {Q : List Frame → Nat → Prop} (h : p.Keeps o n (fun _ => False) Q) :
    (orRaise opened outer p).Keeps o n Q := by
  refine Dialogue.Keeps.bind h fun r m hr => ?_
  cases r with
  | ok frames => exact Dialogue.keeps_pure hr
  | error fault => exact hr.elim

/-- A passage whose faults are skipped over. -/
theorem keeps_attempt {α : Type} {position : Position} {p : Passage α} {Q : α → Nat → Prop}
    (h : p.Keeps o n (· = n) Q) :
    (Dialogue.attempt position p).Keeps o n fun result m =>
      match result with
      | some a => Q a m
      | none => m = n := by
  refine Dialogue.Keeps.bind h fun r m hr => ?_
  cases r with
  | ok a => exact Dialogue.keeps_pure hr
  | error fault =>
    refine Dialogue.keeps_excuse.bind fun _ k hk => Dialogue.keeps_pure ?_
    exact hk.trans hr

/-! ### Lines -/

/-- The annotation of a line is gone into, or skipped. -/
theorem keeps_openAnnotationScope (l : Line) :
    (openAnnotationScope l).Keeps o n E fun f m => m = depth [f] + n ∧ f.HoldsPlain := by
  have hheader : (annotationHeader l).Level o n :=
    Passage.Level.bind Passage.level_ofExcept fun _ =>
      Passage.Level.bind Passage.level_checkObject fun _ => Passage.keeps_pure rfl
  refine Passage.Keeps.bind (P := fun _ m => m = n) ?_ fun result m hm => ?_
  · refine Dialogue.Keeps.bind hheader fun r m hr => Dialogue.keeps_pure ?_
    cases r <;> exact hr
  · subst hm
    cases result with
    | error fault =>
      refine Passage.Keeps.bind (P := fun _ k => k = m) ?_ fun _ k hk =>
        Passage.keeps_pure ⟨?_, trivial⟩
      · exact Dialogue.keeps_excuse.bind fun _ k hk => Dialogue.keeps_pure hk
      · rw [hk, depth_cons_other rfl]
        exact (Nat.zero_add m).symm
    | ok header =>
      refine Passage.Keeps.bind (Passage.keeps_enter rfl) fun _ k hk =>
        Passage.keeps_pure ⟨?_, trivial⟩
      rw [hk, depth_cons_scope rfl]
      exact Nat.add_comm m 1

/-- The nested annotation of a line is gone into. -/
theorem keeps_openSubannotationScope (l : Line) (name descriptor : Text) :
    (openSubannotationScope l name descriptor).Keeps o n (· = n) fun f m =>
      m = depth [f] + n ∧ f.HoldsPlain := by
  refine Passage.Level.bind Passage.level_ofExcept fun type => ?_
  refine Passage.Level.bind Passage.level_checkObject fun _ => ?_
  refine Passage.Keeps.bind (Passage.keeps_enter rfl) fun _ k hk =>
    Passage.keeps_pure ⟨?_, trivial⟩
  rw [hk, depth_cons_scope rfl]
  exact Nat.add_comm n 1

/-- An element whose value is complete. -/
theorem level_tellElement {position : Position} {name text : Text} {comment : Option Text}
    {remarks : List Call} (hremarks : ∀ call ∈ remarks, call.IsPlain) :
    (tellElement position name text (comment.map .eolComment) remarks).Level o n := by
  refine Passage.Level.bind Passage.level_ofExcept fun value => ?_
  refine Passage.Level.bind Passage.level_checkValue fun _ => ?_
  refine Passage.Level.bind (Passage.keeps_tell ⟨rfl, nofun⟩) fun _ => ?_
  refine Passage.Level.bind (Passage.keeps_remark ?_) fun _ => ?_
  · intro call h
    obtain ⟨text, -, rfl⟩ := Option.map_eq_some_iff.mp h
    exact ⟨rfl, nofun⟩
  · induction remarks with
    | nil => exact Passage.keeps_pure rfl
    | cons call remarks ih =>
      rw [List.forM_eq_forM, List.forM_cons]
      refine Passage.Level.bind (Passage.keeps_remark ?_) fun _ => ?_
      · intro _ h
        cases h
        exact hremarks call List.mem_cons_self
      · exact ih fun call h => hremarks call (List.mem_cons_of_mem _ h)

/-- A frame that a line may open goes in front of the others. -/
def Opens (n : Nat) (frame : Option Frame) (m : Nat) : Prop :=
  m = depth frame.toList + n ∧ ∀ f ∈ frame, f.HoldsPlain

/-- No frame is opened. -/
theorem opens_none : Opens n none n := ⟨(Nat.zero_add n).symm, nofun⟩

/-- A frame is opened. -/
theorem opens_some {f : Frame} {m : Nat} (h : m = depth [f] + n ∧ f.HoldsPlain) :
    Opens n (some f) m := by
  refine ⟨h.1, fun f' hf' => ?_⟩
  cases hf'
  exact h.2

/-- The frames with the one that a line opened. -/
theorem Opens.kept {frame : Option Frame} {m : Nat} (h : Opens n frame m) {frames : List Frame}
    (hframes : Kept frames n) : Kept (frame.toList ++ frames) m := by
  cases frame with
  | none => exact (h.1.trans (Nat.zero_add n)) ▸ hframes
  | some f => exact h.1 ▸ hframes.cons (h.2 f rfl)

/-- A line as an annotation element. -/
theorem keeps_elementLine (l : Line) : (elementLine l).Keeps o n (· = n) (Opens n) := by
  unfold elementLine
  dsimp only
  split
  · exact Passage.keeps_throw rfl
  · split
    · exact Passage.keeps_throw rfl
    · split
      · exact (keeps_openSubannotationScope l _ _).bind fun f m hm =>
          Passage.keeps_pure (opens_some hm)
      · split
        · refine Passage.keeps_pure (opens_some ⟨?_, nofun⟩)
          rw [depth_cons_other rfl]
          exact (Nat.zero_add n).symm
        · exact Passage.Level.bind (level_tellElement nofun) fun _ => Passage.keeps_pure opens_none

/-- A passage that may open a frame, whose faults are skipped over. -/
theorem keeps_attempt_frame {position : Position} {p : Passage (Option Frame)}
    (h : p.Keeps o n (· = n) (Opens n)) {frames : List Frame} (hframes : Kept frames n) :
    (Dialogue.attempt position p).Keeps o n fun frame m =>
      Kept ((frame.join).toList ++ frames) m := by
  refine (keeps_attempt h).weaken fun frame m hm => ?_
  cases frame with
  | none => exact hm ▸ hframes
  | some frame => exact hm.kept hframes

/-- A line in an annotation. -/
theorem keeps_takeInAnnotationBody {opened : Position} {name : Text} {outer : List Frame}
    (l : Line) (h : Kept (.annotationBody opened name :: outer) n) :
    (takeInAnnotationBody opened name l outer).Keeps o n Kept := by
  unfold takeInAnnotationBody
  dsimp only
  split
  · refine keeps_orRaise (Passage.Keeps.bind (Passage.keeps_remark ?_) fun _ m hm =>
      Passage.keeps_pure (hm ▸ h))
    exact Passage.comment_isPlain _
  · exact (keeps_attempt_frame (keeps_elementLine l) h).bind fun frame m hm =>
      Dialogue.keeps_pure hm
  · split
    · rw [h.1, depth_cons_scope rfl]
      exact keeps_closeBy ⟨rfl, fun f hf => h.2 f (List.mem_cons_of_mem _ hf)⟩
    · exact Dialogue.keeps_excuse.bind fun _ m hm => Dialogue.keeps_pure (hm ▸ h)

/-- A line in an array, with the closing brace or without it. -/
theorem keeps_takeInArray {g : Gathering} {outer : List Frame} (l : Line)
    (h : Kept (.array g :: outer) n) : (takeInArray g l outer).Keeps o n Kept := by
  have hremarks : ∀ call ∈ (g.add l).remarks, call.IsPlain := by
    have hg := h.2 (.array g) List.mem_cons_self
    unfold Gathering.add
    split
    · exact List.forall_mem_cons.mpr ⟨⟨rfl, nofun⟩, hg⟩
    · intro call hcall
      rcases List.mem_append.mp hcall with hcall | hcall
      · exact Passage.eolCall?_isPlain l call (Option.mem_toList.mp hcall)
      · exact hg call hcall
  have houter : Kept outer n :=
    ⟨h.1.trans (depth_cons_other rfl outer), fun f hf => h.2 f (List.mem_cons_of_mem _ hf)⟩
  unfold takeInArray
  dsimp only
  split
  · refine (keeps_attempt (level_tellElement ?_)).bind fun told m hm => Dialogue.keeps_pure ?_
    · exact fun call hcall => hremarks call (List.mem_reverse.mp hcall)
    · cases told <;> exact hm ▸ houter
  · refine Dialogue.keeps_pure ⟨h.1, ?_⟩
    exact List.forall_mem_cons.mpr ⟨hremarks, houter.2⟩

/-- A line in a field. -/
theorem keeps_takeInField {f : OpenField} {outer : List Frame} (l : Line)
    (h : Kept (.field f :: outer) n) : (takeInField f l outer).Keeps o n Kept := by
  have houter : Kept outer (depth outer) :=
    ⟨rfl, fun f hf => h.2 f (List.mem_cons_of_mem _ hf)⟩
  have hn : n = depth outer + 1 := h.1.trans (depth_cons_scope rfl outer)
  have hheld : ∀ held : List Text,
      (held.forM fun text => Passage.remark (some (.comment text))).Keeps o n (fun _ => False)
        fun _ m => m = n := by
    intro held
    induction held with
    | nil => exact Passage.keeps_pure rfl
    | cons text held ih =>
      rw [List.forM_eq_forM, List.forM_cons]
      exact (Passage.keeps_remark (Passage.comment_isPlain text)).bind fun _ m hm => hm ▸ ih
  unfold takeInField
  split
  · refine Dialogue.keeps_pure ⟨hn.trans (depth_cons_scope rfl outer).symm, ?_⟩
    exact List.forall_mem_cons.mpr ⟨trivial, houter.2⟩
  · refine Dialogue.Keeps.bind (hheld f.held.reverse) fun told m hm => ?_
    cases told with
    | error fault => exact hm.elim
    | ok _ =>
      dsimp only
      rw [hm]
      split
      · rw [hn]
        exact keeps_closeBy houter
      · refine keeps_orRaise (Passage.Keeps.bind (keeps_openAnnotationScope l) ?_)
        intro frame m hm
        refine Passage.keeps_pure ?_
        have hfield : Kept (.field { f with annotated := true, held := [] } :: outer) n :=
          ⟨hn.trans (depth_cons_scope rfl outer).symm,
            List.forall_mem_cons.mpr ⟨trivial, houter.2⟩⟩
        exact hm.1 ▸ hfield.cons hm.2

/-- A line with code. -/
theorem level_codeLine (m : OpenMethod) (l : Line) : (codeLine m l).Level o n := by
  refine Passage.Level.bind Passage.level_require fun _ => Passage.level_tellLine ?_
  split <;> exact ⟨rfl, nofun⟩

/-- A closing line in a method. -/
theorem level_closingLine (m : OpenMethod) (l : Line) : (closingLine m l).Level o n := by
  unfold closingLine
  split
  · split
    · exact Passage.level_tellLine ⟨rfl, nofun⟩
    · exact Passage.keeps_throw rfl
  · split
    · exact Passage.Level.bind Passage.level_ofExcept fun _ =>
        Passage.level_tellLine ⟨rfl, nofun⟩
    · split
      · exact Passage.keeps_throw rfl
      · exact level_codeLine m l

/-- A line with a handler for exceptions of one type. -/
theorem level_catchingLine (m : OpenMethod) (l : Line) : (catchingLine m l).Level o n := by
  refine Passage.Level.bind Passage.level_require fun _ => ?_
  refine Passage.Level.bind Passage.level_ofExcept fun _ => ?_
  refine Passage.Level.bind Passage.level_ofExcept fun _ => ?_
  refine Passage.Level.bind Passage.level_checkObject fun _ => ?_
  exact Passage.level_tellLine ⟨rfl, nofun⟩

/-- A line with a handler for all exceptions. -/
theorem level_catchAllLine (m : OpenMethod) (l : Line) : (catchAllLine m l).Level o n := by
  refine Passage.Level.bind Passage.level_require fun _ => ?_
  refine Passage.Level.bind Passage.level_ofExcept fun _ => ?_
  split
  · exact Passage.level_tellLine ⟨rfl, nofun⟩
  · exact Passage.keeps_throw rfl

/-- A line with a directive in a method. -/
theorem level_directiveLine (m : OpenMethod) (l : Line) (d : Directive) :
    (directiveLine m l d).Level o n := by
  have hread : ∀ {α : Type} {result : Except Fault α} {call : α → Call},
      (∀ a, (call a).IsPlain) →
        Passage.Level o n (do Passage.tellLine l (call (← Passage.ofExcept result))) :=
    fun h => Passage.Level.bind Passage.level_ofExcept fun a => Passage.level_tellLine (h a)
  unfold directiveLine
  split
  · exact Passage.Level.bind Passage.level_require fun _ => hread fun _ => ⟨rfl, nofun⟩
  · exact Passage.Level.bind Passage.level_require fun _ => hread fun _ => ⟨rfl, nofun⟩
  · exact hread fun _ => ⟨rfl, nofun⟩
  · exact Passage.Level.bind Passage.level_ofExcept fun _ => Passage.level_tellLine ⟨rfl, nofun⟩
  · exact level_catchingLine m l
  · exact level_catchAllLine m l
  · exact Passage.Level.bind Passage.level_ofExcept fun _ => Passage.level_tellLine ⟨rfl, nofun⟩
  · exact hread fun _ => ⟨rfl, nofun⟩
  · exact Passage.level_tellLine ⟨rfl, nofun⟩
  · exact Passage.level_tellLine ⟨rfl, nofun⟩
  · exact level_codeLine m l
  · exact Passage.keeps_throw rfl

/-- A line of the body of a method. -/
theorem keeps_bodyLine (m : OpenMethod) (l : Line) :
    (bodyLine m l).Keeps o n (· = n) (Opens n) := by
  unfold bodyLine
  split
  · exact Passage.Level.bind (level_codeLine m l) fun _ => Passage.keeps_pure opens_none
  · exact (keeps_openAnnotationScope l).bind fun f m hm => Passage.keeps_pure (opens_some hm)
  · exact Passage.Level.bind (level_closingLine m l) fun _ => Passage.keeps_pure opens_none
  · exact Passage.Level.bind (level_directiveLine m l _) fun _ => Passage.keeps_pure opens_none

/-- A line in a method. -/
theorem keeps_takeInMethod {m : OpenMethod} {outer : List Frame} (l : Line)
    (h : Kept (.method m :: outer) n) : (takeInMethod m l outer).Keeps o n Kept := by
  have houter : ∀ f ∈ outer, f.HoldsPlain := fun f hf => h.2 f (List.mem_cons_of_mem _ hf)
  have hafter : Kept (.method (m.after l) :: outer) n := by
    refine ⟨h.1.trans ?_, List.forall_mem_cons.mpr ⟨trivial, houter⟩⟩
    rw [depth_cons_scope rfl, depth_cons_scope rfl]
  unfold takeInMethod
  split
  · exact keeps_orRaise (Passage.Keeps.bind (Passage.keeps_remark (Passage.comment_isPlain _))
      fun _ k hk => Passage.keeps_pure (hk ▸ h))
  · split
    · rw [h.1, depth_cons_scope rfl]
      exact keeps_closeBy ⟨rfl, houter⟩
    · exact (keeps_attempt_frame (keeps_bodyLine m l) hafter).bind fun frame k hk =>
        Dialogue.keeps_pure hk

/-- A line of the class header. -/
theorem level_headerLine (l : Line) (d : Directive) : (headerLine l d).Level o n := by
  unfold headerLine
  split
  · refine Passage.Level.bind Passage.level_ofExcept fun _ => ?_
    refine Passage.Level.bind Passage.level_checkObject fun _ => ?_
    exact Passage.level_tellLine ⟨rfl, nofun⟩
  · refine Passage.Level.bind Passage.level_ofExcept fun _ => ?_
    refine Passage.Level.bind Passage.level_checkObject fun _ => ?_
    exact Passage.level_tellLine ⟨rfl, nofun⟩
  · refine Passage.Level.bind Passage.level_ofExcept fun _ => ?_
    refine Passage.Level.bind Passage.level_checkObject fun _ => ?_
    exact Passage.level_tellLine ⟨rfl, nofun⟩
  · exact Passage.Level.bind Passage.level_ofExcept fun _ => Passage.level_tellLine ⟨rfl, nofun⟩

/-- The line of a field. -/
theorem level_fieldHeader (declared : List Member) (l : Line) :
    (fieldHeader declared l).Level o n := by
  refine Passage.Level.bind Passage.level_ofExcept fun f => ?_
  have hrest : Passage.Keeps o n (do
      Passage.check l (!declared.contains (.field f.name)) ("duplicate field " ++ f.name)
      return f) (· = n) fun _ m => m = n :=
    Passage.Level.bind Passage.level_require fun _ => Passage.keeps_pure rfl
  dsimp only
  split
  · exact hrest
  · refine Passage.Level.bind Passage.level_require fun _ => ?_
    exact Passage.Level.bind Passage.level_checkValue fun _ => hrest

/-- The line of a method. -/
theorem level_methodHeader (declared : List Member) (l : Line) :
    (methodHeader declared l).Level o n := by
  refine Passage.Level.bind Passage.level_ofExcept fun m => ?_
  refine Passage.Level.bind Passage.level_require fun _ => ?_
  refine Passage.Level.bind Passage.level_require fun _ => ?_
  exact Passage.Level.bind Passage.level_require fun _ => Passage.keeps_pure rfl

/-- A reader that is at the level of the class, outside of all frames. -/
def Control.IsKept (c : Control) (m : Nat) : Prop := Kept c.frames m

/-- Going into the scope of a member, which is received well. -/
theorem keeps_openMember {l : Line} {call : Call} (h : call.opens?.isSome) {f : Frame}
    (hf : f.isScope = true) (hheld : f.HoldsPlain) :
    (Dialogue.attempt l.position (Passage.enter call l.eolCall?)).Keeps o 0 fun opened m =>
      Kept (opened.map fun _ => f).toList m := by
  refine (keeps_attempt (Passage.keeps_enter h)).weaken fun opened m hm => ?_
  cases opened with
  | none => exact ⟨hm, nofun⟩
  | some _ =>
    refine ⟨hm.trans (depth_cons_scope hf []).symm, fun f' hf' => ?_⟩
    rw [List.mem_singleton.mp hf']
    exact hheld

/-- The field of a line is gone into, or a scope that nobody hears. -/
theorem keeps_openField (c : Control) (l : Line) :
    (c.openField l).Keeps o 0 Control.IsKept := by
  refine Dialogue.Keeps.bind (level_fieldHeader c.declared l) fun r m hr => ?_
  cases r with
  | error fault =>
    refine Dialogue.keeps_excuse.bind fun _ m hm => ?_
    refine Dialogue.keeps_hush.bind fun _ k hk => Dialogue.keeps_pure ⟨?_, ?_⟩
    · rw [hk, hm, hr]
      rfl
    · exact fun f hf => List.mem_singleton.mp hf ▸ trivial
  | ok f =>
    rw [show m = 0 from hr]
    exact (keeps_openMember (f := .field ⟨l.position, false, [], true⟩) rfl rfl trivial).bind
      fun _ m hm => Dialogue.keeps_pure hm

/-- The method of a line is gone into, or skipped. -/
theorem keeps_openMethod (c : Control) (l : Line) :
    (c.openMethod l).Keeps o 0 Control.IsKept := by
  refine Dialogue.Keeps.bind (level_methodHeader c.declared l) fun r m hr => ?_
  cases r with
  | error fault =>
    refine Dialogue.keeps_excuse.bind fun _ m hm => Dialogue.keeps_pure ⟨hm.trans hr, ?_⟩
    exact fun f hf => List.mem_singleton.mp hf ▸ trivial
  | ok a =>
    rw [show m = 0 from hr]
    exact (keeps_openMember (f := .method ⟨l.position, a.name, a.access, false⟩) rfl rfl
      trivial).bind fun _ m hm => Dialogue.keeps_pure hm

/-- A line at the level of the class. -/
theorem keeps_classLine {c : Control} (hc : c.frames = []) (l : Line) :
    (c.classLine l).Keeps o 0 Control.IsKept := by
  have hsame : ∀ {m}, m = 0 → c.IsKept m := by
    intro m hm
    subst hm
    exact ⟨by rw [hc]; rfl, by rw [hc]; exact nofun⟩
  have hexcuse : ∀ fault, Dialogue.Keeps o 0 (do
      Dialogue.excuse fault
      return c) Control.IsKept :=
    fun fault => Dialogue.keeps_excuse.bind fun _ m hm => Dialogue.keeps_pure (hsame hm)
  unfold Control.classLine
  split
  · exact keeps_remarkClass.bind fun _ m hm => Dialogue.keeps_pure (hsame hm)
  · exact hexcuse _
  · exact hexcuse _
  · split
    · unfold Control.classDirective
      split
      · refine (keeps_attempt (level_headerLine l _)).bind fun told m hm => Dialogue.keeps_pure ?_
        refine hsame ?_
        cases told <;> exact hm
      · exact keeps_openField _ l
      · exact keeps_openMethod _ l
      · refine (keeps_attempt (keeps_openAnnotationScope l)).bind fun frame m hm =>
          Dialogue.keeps_pure ?_
        cases frame with
        | none => exact ⟨hm, nofun⟩
        | some f => exact ⟨hm.1, fun f' hf' => List.mem_singleton.mp hf' ▸ hm.2⟩
    · exact hexcuse _

/-- A line in the innermost of some frames. -/
theorem keeps_takeInner (c : Control) (l : Line) {frames : List Frame} (h : Kept frames n) :
    (c.takeInner l frames).Keeps o n Control.IsKept := by
  have hnext : ∀ {d : Dialogue (List Frame)}, d.Keeps o n Kept →
      Dialogue.Keeps o n (do return { c with frames := ← d }) Control.IsKept :=
    fun hd => hd.bind fun _ m hm => Dialogue.keeps_pure hm
  unfold Control.takeInner
  split
  · rw [h.1]
    exact keeps_classLine rfl l
  · exact hnext (keeps_takeInField l h)
  · exact hnext (keeps_takeInMethod l h)
  · exact hnext (keeps_takeInAnnotationBody l h)
  · exact hnext (keeps_takeInArray l h)
  · refine Dialogue.keeps_pure ?_
    split
    · exact ⟨h.1.trans (depth_cons_other rfl _), fun f hf => h.2 f (List.mem_cons_of_mem _ hf)⟩
    · exact h

/-- Every line keeps to the scopes. -/
theorem keeps_take {c : Control} (l : Line) (h : c.IsKept n) :
    (c.take l).Keeps o n Control.IsKept := by
  unfold Control.take
  rw [h.1]
  exact (keeps_unwind (some l) _ h.2 rfl).bind fun _ _ hm => keeps_takeInner c l hm.1

end Steps

/-! ## Whole readings -/

/-- From `n` scopes on, a dialogue that comes to its end has left all scopes and ends the
class as the last thing; one that does not come to its end does not end the class. -/
def Dialogue.EndsClass (o : Options) (n : Nat) (d : Dialogue Unit) : Prop :=
  match (d.rehearse o).result with
  | .ok _ => ∃ moves, (d.rehearse o).moves = moves ++ [.tell .finish] ∧ Ordered n moves 0
  | .error _ => ∃ m, Ordered n (d.rehearse o).moves m

/-- A dialogue that keeps to the scopes, and one behind it that ends the class. -/
theorem Dialogue.Keeps.endsClass {α : Type} {o : Options} {n : Nat} {d : Dialogue α}
    {f : α → Dialogue Unit} {P : α → Nat → Prop} (h : d.Keeps o n P)
    (hf : ∀ a m, P a m → (f a).EndsClass o m) : (d >>= f).EndsClass o n := by
  obtain ⟨m, hmoves, hresult⟩ := h
  unfold EndsClass
  rw [rehearse_bind]
  unfold Rehearsal.andThen
  cases hd : (d.rehearse o).result with
  | error fault => exact ⟨m, hmoves⟩
  | ok a =>
    have hrest := hf a m (hresult a hd)
    unfold EndsClass at hrest
    dsimp only [Rehearsal.after]
    cases hr : ((f a).rehearse o).result with
    | error fault =>
      simp only [hr] at hrest
      obtain ⟨k, hk⟩ := hrest
      exact ⟨k, hmoves.append hk⟩
    | ok _ =>
      simp only [hr] at hrest
      obtain ⟨moves, heq, hk⟩ := hrest
      refine ⟨(d.rehearse o).moves ++ moves, ?_, hmoves.append hk⟩
      rw [heq, List.append_assoc]

/-- The end of a source ends all frames and then the class. -/
theorem finish_endsClass {o : Options} {n : Nat} {c : Control} (h : c.IsKept n) :
    c.finish.EndsClass o n := by
  unfold Control.finish
  rw [h.1]
  refine (keeps_unwind none _ h.2 rfl).endsClass fun left m hm => ?_
  have hleft : left = [] := by
    cases left with
    | nil => rfl
    | cons f _ => exact absurd (hm.2 f rfl) Bool.false_ne_true
  have hclass : ∀ k, k = 0 → Dialogue.EndsClass o k (do
      match ← (Passage.tell .finish).run with
      | .ok _ => return ()
      | .error fault => .halt fault) := by
    intro k hk
    exact ⟨[], rfl, hk ▸ .nil⟩
  have hm0 : m = 0 := by
    rw [hm.1.1, hleft]
    rfl
  dsimp only
  split
  · exact Dialogue.keeps_excuse.endsClass fun _ k hk => hclass k (hk.trans hm0)
  · exact hclass m hm0

/-- Any lines are read so that the class ends behind them. -/
theorem readLines_endsClass {o : Options} (lines : List (Except Fault Line)) {n : Nat}
    {c : Control} (h : c.IsKept n) : (c.readLines lines).EndsClass o n := by
  induction lines generalizing c n with
  | nil => exact finish_endsClass h
  | cons line lines ih =>
    cases line with
    | error fault =>
      exact Dialogue.keeps_excuse.endsClass fun _ m hm => ih (hm ▸ h)
    | ok l => exact (keeps_take l h).endsClass fun c' m hm => ih hm

/-- A whole reading keeps to the scopes and ends the class at its end only. -/
theorem dialogue_endsClass (o : Options) (source : Text) :
    (dialogue o source).EndsClass o 0 :=
  readLines_endsClass _ ⟨rfl, nofun⟩

end Smali
