import Smali.Proofs.Descent

/-!
# Progress of recursive descent

With more turns than lines, every loop of a reader by recursive descent comes to an end of its
own and leaves no more lines than it was given. The measure is the number of lines that are
still to be read. A loop takes at least one line in every round; what it hands back, it has
taken before; and a descent starts behind the line that opens the scope.
-/

namespace Smali

namespace Descent

variable {α β : Type}

/-- Whatever a part of a reading is received with, it does not run out of turns, and its end and
the lines that are left have a property. -/
def Ends (Q : Except Fault α → Lines → Prop) (d : Descent α) (lines : Lines) : Prop :=
  (d lines).Yields fun r => ∃ result rest, r = some (result, rest) ∧ Q result rest

/-- A part of a reading that comes to an end with at most so many lines left. -/
def LeavesAtMost (k : Nat) (d : Descent α) (lines : Lines) : Prop :=
  d.Ends (fun _ rest => rest.length ≤ k) lines

section Rules

variable {P Q : Except Fault α → Lines → Prop} {d : Descent α} {lines : Lines} {k : Nat}

/-- A weaker property. -/
theorem Ends.weaken (h : d.Ends P lines) (hpq : ∀ result rest, P result rest → Q result rest) :
    d.Ends Q lines :=
  Dialogue.Yields.weaken h fun _ ⟨result, rest, hr, hp⟩ =>
    ⟨result, rest, hr, hpq result rest hp⟩

/-- A result that is there at once. -/
theorem ends_pure {a : α} (h : Q (.ok a) lines) : (pure a : Descent α).Ends Q lines :=
  ⟨_, _, rfl, h⟩

/-- A fault that is there at once. -/
theorem ends_fail {fault : Fault} (h : Q (.error fault) lines) :
    (fail fault : Descent α).Ends Q lines :=
  ⟨_, _, rfl, h⟩

/-- One part after another. -/
theorem Ends.bind {f : α → Descent β} {R : Except Fault β → Lines → Prop} (h : d.Ends P lines)
    (hok : ∀ a rest, P (.ok a) rest → (f a).Ends R rest)
    (herror : ∀ fault rest, P (.error fault) rest → R (.error fault) rest) :
    (d >>= f).Ends R lines := by
  refine Dialogue.Yields.bind h fun r hr => ?_
  obtain ⟨result, rest, rfl, hp⟩ := hr
  cases result with
  | ok a => exact hok a rest hp
  | error fault => exact ⟨_, _, rfl, herror fault rest hp⟩

/-- A part together with its fault, and what deals with both. -/
theorem Ends.outcome_bind {f : Except Fault α → Descent β} {R : Except Fault β → Lines → Prop}
    (h : d.Ends P lines) (hf : ∀ r rest, P r rest → (f r).Ends R rest) :
    (d.outcome >>= f).Ends R lines := by
  have houtcome : d.outcome.Ends (fun r rest => ∃ result, r = .ok result ∧ P result rest) lines :=
    Dialogue.Yields.bind h fun r ⟨result, rest, hr, hp⟩ => hr ▸ ⟨_, _, rfl, result, rfl, hp⟩
  refine houtcome.bind (fun r rest hr => ?_) fun _ _ hr => ?_
  · obtain ⟨_, ha, hp⟩ := hr
    exact hf r rest (Except.ok.inj ha ▸ hp)
  · obtain ⟨_, hr, -⟩ := hr
    exact nomatch hr

/-- A part that a fault leaves the scope with. -/
theorem Ends.orLeave (h : d.Ends P lines) : d.orLeave.Ends P lines := by
  refine Dialogue.Yields.bind h fun r hr => ?_
  obtain ⟨result, rest, rfl, hp⟩ := hr
  cases result with
  | ok a => exact ⟨_, _, rfl, hp⟩
  | error fault => exact fun _ => ⟨_, _, rfl, hp⟩

/-- Acts take no line. -/
theorem ends_plan {acts : Dialogue α} {R : α → Prop} (h : acts.Yields R)
    (hq : ∀ a, R a → Q (.ok a) lines) : (plan acts).Ends Q lines :=
  Dialogue.Yields.bind h fun a ha => ⟨_, _, rfl, hq a ha⟩

/-- Acts, and what follows them. -/
theorem ends_plan_bind {acts : Dialogue α} {R : α → Prop} (h : acts.Yields R)
    {f : α → Descent β} {S : Except Fault β → Lines → Prop}
    (hf : ∀ a, R a → (f a).Ends S lines) : (plan acts >>= f).Ends S lines := by
  have hplan : (plan acts).Ends (fun r rest => rest = lines ∧ ∃ a, r = .ok a ∧ R a) lines :=
    ends_plan h fun a ha => ⟨rfl, a, rfl, ha⟩
  refine hplan.bind (fun a rest hr => ?_) fun _ _ hr => ?_
  · obtain ⟨rfl, _, ha, hp⟩ := hr
    exact hf a (Except.ok.inj ha ▸ hp)
  · obtain ⟨-, _, hr, -⟩ := hr
    exact nomatch hr

/-- Acts that a fault may cut short take no line. -/
theorem ends_say {R : Except Fault α → Prop} {p : Passage α} (h : p.run.Yields R) (lines : Lines) :
    (say p).Ends (fun r rest => rest = lines ∧ R r) lines :=
  h.bind fun r hr => ⟨r, _, rfl, rfl, hr⟩

/-- The next line is gone, or there is none. -/
theorem ends_nextLine (lines : Lines) :
    nextLine.Ends (fun r rest => (r = .ok none ∧ rest = []) ∨
      ∃ l, r = .ok (some l) ∧ rest.length < lines.length) lines := by
  induction lines with
  | nil => exact ⟨_, _, rfl, .inl ⟨rfl, rfl⟩⟩
  | cons line rest ih =>
    cases line with
    | error fault =>
      intro _
      refine ih.weaken fun r rest' h => h.imp_right ?_
      rintro ⟨l, hr, hlt⟩
      exact ⟨l, hr, Nat.lt_succ_of_lt hlt⟩
    | ok l => exact ⟨_, _, rfl, .inr ⟨l, rfl, Nat.lt_succ_self _⟩⟩

/-- More lines may be left than are. -/
theorem LeavesAtMost.mono {k' : Nat} (h : d.LeavesAtMost k lines) (hk : k ≤ k') :
    d.LeavesAtMost k' lines :=
  h.weaken fun _ _ hrest => Nat.le_trans hrest hk

/-- One part after another. -/
theorem LeavesAtMost.bind {f : α → Descent β} (h : d.LeavesAtMost k lines)
    (hf : ∀ a rest, rest.length ≤ k → (f a).LeavesAtMost k rest) :
    (d >>= f).LeavesAtMost k lines :=
  Ends.bind h hf fun _ _ hrest => hrest

/-- One part after another, where the first leaves fewer lines than may be left in the end. -/
theorem LeavesAtMost.bind_lt {j : Nat} {f : α → Descent β} (h : d.LeavesAtMost j lines)
    (hj : j < k) (hf : ∀ a rest, rest.length < k → (f a).LeavesAtMost k rest) :
    (d >>= f).LeavesAtMost k lines :=
  Ends.bind h (fun a rest hrest => hf a rest (Nat.lt_of_le_of_lt hrest hj)) fun _ _ hrest =>
    Nat.le_of_lt (Nat.lt_of_le_of_lt hrest hj)

/-- A result that is there at once. -/
theorem leavesAtMost_pure (a : α) (h : lines.length ≤ k) :
    (pure a : Descent α).LeavesAtMost k lines :=
  ends_pure h

/-- Acts take no line. -/
theorem leavesAtMost_plan (acts : Dialogue α) {f : α → Descent β}
    (hf : ∀ a, (f a).LeavesAtMost k lines) : (plan acts >>= f).LeavesAtMost k lines :=
  ends_plan_bind acts.yields_true fun a _ => hf a

/-- Acts that a fault may cut short take no line. -/
theorem leavesAtMost_say (p : Passage α) (h : lines.length ≤ k) :
    (say p).LeavesAtMost k lines :=
  (ends_say p.run.yields_true lines).weaken
    fun _ _ hr => hr.1 ▸ h

/-- Such acts, and what follows them. -/
theorem leavesAtMost_say_bind (p : Passage α) (h : lines.length ≤ k) {f : α → Descent β}
    (hf : ∀ a, (f a).LeavesAtMost k lines) : (say p >>= f).LeavesAtMost k lines :=
  Ends.bind (ends_say p.run.yields_true lines)
    (fun a _ hr => hr.1 ▸ hf a) fun _ _ hr => hr.1 ▸ h

/-- A loop that takes the next line. -/
theorem leavesAtMost_nextLine {f : Option Line → Descent β}
    (hnone : (f none).LeavesAtMost k [])
    (hsome : ∀ l rest, rest.length < lines.length → (f (some l)).LeavesAtMost k rest) :
    (nextLine >>= f).LeavesAtMost k lines := by
  refine (ends_nextLine lines).bind (fun a rest h => ?_) (fun fault rest h => ?_)
  · rcases h with ⟨ha, rfl⟩ | ⟨l, ha, hlt⟩
    · exact Except.ok.inj ha ▸ hnone
    · exact Except.ok.inj ha ▸ hsome l rest hlt
  · rcases h with ⟨hr, -⟩ | ⟨l, hr, -⟩ <;> exact nomatch hr

end Rules

/-! ## Scopes -/

variable {lines : Lines} {k : Nat}

/-- The end of a scope. -/
theorem finishScope_leaves (h : lines.length ≤ k) : finishScope.LeavesAtMost k lines := by
  refine leavesAtMost_plan endScope fun received => ?_
  cases received with
  | none => exact leavesAtMost_pure () h
  | some fault => exact ends_fail h

/-- Lines are handed back. -/
theorem handBack_leaves (back : List Line) (h : back.length + lines.length ≤ k) :
    (handBack back).LeavesAtMost k lines :=
  ⟨_, _, rfl, by simpa using h⟩

/-- The end of a scope without its closing line. -/
theorem closeImplicitly_leaves (fault : Fault) (back : List Line)
    (h : back.length + lines.length ≤ k) : (closeImplicitly fault back).LeavesAtMost k lines :=
  leavesAtMost_plan _ fun _ => (handBack_leaves back h).bind fun _ _ hrest =>
    (finishScope_leaves hrest).bind fun _ _ hrest => leavesAtMost_pure none hrest

/-- A construct that is dropped. -/
theorem skipConstruct_leaves (name : Text) (lines : Lines) :
    (skipConstruct name).LeavesAtMost lines.length lines := by
  induction lines with
  | nil => exact ⟨_, _, rfl, Nat.le_refl 0⟩
  | cons line rest ih =>
    have hmore := ih.mono (Nat.le_succ rest.length)
    cases line with
    | error fault => exact fun _ => hmore
    | ok l =>
      unfold LeavesAtMost Ends skipConstruct
      split
      · exact ⟨_, _, rfl, Nat.le_succ rest.length⟩
      · split
        · exact ⟨_, _, rfl, Nat.le_refl _⟩
        · exact hmore

/-- An array that is collected. -/
theorem gatherArray_leaves (g : Gathering) (lines : Lines) :
    (gatherArray g).LeavesAtMost lines.length lines := by
  induction lines generalizing g with
  | nil => exact ⟨_, _, rfl, Nat.le_refl 0⟩
  | cons line rest ih =>
    cases line with
    | error fault => exact fun _ => (ih g).mono (Nat.le_succ rest.length)
    | ok l =>
      unfold LeavesAtMost Ends gatherArray
      split
      · exact ⟨_, _, rfl, Nat.le_refl _⟩
      · split
        · exact ⟨_, _, rfl, Nat.le_succ rest.length⟩
        · exact (ih (g.add l)).mono (Nat.le_succ rest.length)

/-- What a line has opened, if annotations leave no more lines than they are given. -/
theorem descend_leaves {inner : Position → Text → Descent (Option Call)}
    (hinner : ∀ opened name, (inner opened name).LeavesAtMost lines.length lines)
    (frame : Option Frame) : (descend inner frame).LeavesAtMost lines.length lines := by
  unfold descend
  split
  · exact (hinner _ _).bind fun _ _ hrest => leavesAtMost_say _ hrest
  · exact (gatherArray_leaves _ lines).bind fun _ _ hrest => leavesAtMost_say _ hrest
  · exact skipConstruct_leaves _ lines
  · exact leavesAtMost_pure () (Nat.le_refl _)

/-- An element of an annotation. -/
theorem element_leaves {inner : Position → Text → Descent (Option Call)}
    (hinner : ∀ opened name, (inner opened name).LeavesAtMost lines.length lines)
    (l : Line) : (element inner l).LeavesAtMost lines.length lines :=
  leavesAtMost_say_bind _ (Nat.le_refl _) (descend_leaves hinner)

/-- An annotation. -/
theorem annotationBody_leaves {n : Nat} (h : lines.length < n) (opened : Position) (name : Text) :
    (annotationBody n opened name).LeavesAtMost lines.length lines := by
  induction n generalizing lines opened name with
  | zero => exact absurd h (Nat.not_lt_zero _)
  | succ n ih =>
    -- One line is gone when a round goes on, so the turns that are left suffice again.
    have hloop : ∀ (_ : Unit) (rest : Lines), rest.length < lines.length →
        (annotationBody n opened name).LeavesAtMost lines.length rest :=
      fun _ rest hrest => (ih (by omega) opened name).mono (Nat.le_of_lt hrest)
    unfold annotationBody
    refine leavesAtMost_nextLine (closeImplicitly_leaves _ [] (Nat.zero_le _))
      fun l rest hrest => ?_
    dsimp only
    split
    · exact LeavesAtMost.bind_lt (Ends.orLeave (leavesAtMost_say _ (Nat.le_refl _))) hrest hloop
    · have helement : (element (annotationBody n) l).LeavesAtMost rest.length rest :=
        element_leaves (fun opened name => ih (by omega) opened name) l
      refine Ends.outcome_bind helement fun r rest' hrest' => ?_
      replace hrest := Nat.lt_of_le_of_lt hrest' hrest
      cases r with
      | ok _ => exact hloop () rest' hrest
      | error fault => exact leavesAtMost_plan _ fun _ => hloop () rest' hrest
    · split
      · exact (finishScope_leaves (Nat.le_of_lt hrest)).bind fun _ _ hrest =>
          leavesAtMost_pure _ hrest
      · split
        · exact closeImplicitly_leaves _ [l] (by rw [List.length_singleton]; omega)
        · exact leavesAtMost_plan _ fun _ => hloop () rest hrest

/-- A line of a method. -/
theorem methodLine_leaves {n : Nat} (h : lines.length < n) (m : OpenMethod) (l : Line) :
    (methodLine n m l).LeavesAtMost lines.length lines := by
  unfold methodLine
  split
  · exact leavesAtMost_pure _ (Nat.le_refl _)
  · split
    · exact leavesAtMost_pure _ (Nat.le_refl _)
    · refine leavesAtMost_say_bind _ (Nat.le_refl _) fun frame => ?_
      exact (descend_leaves (annotationBody_leaves h) frame).bind fun _ _ hrest =>
        leavesAtMost_pure _ hrest

/-- A method. -/
theorem methodBody_leaves {n : Nat} (h : lines.length < n) (m : OpenMethod) :
    (methodBody n m).LeavesAtMost lines.length lines := by
  induction n generalizing lines m with
  | zero => exact absurd h (Nat.not_lt_zero _)
  | succ n ih =>
    have hloop : ∀ (m : OpenMethod) (rest : Lines), rest.length < lines.length →
        (methodBody n m).LeavesAtMost lines.length rest :=
      fun m rest hrest => (ih (by omega) m).mono (Nat.le_of_lt hrest)
    unfold methodBody
    refine leavesAtMost_nextLine (closeImplicitly_leaves _ [] (Nat.zero_le _))
      fun l rest hrest => ?_
    dsimp only
    split
    · exact LeavesAtMost.bind_lt (Ends.orLeave (leavesAtMost_say _ (Nat.le_refl _))) hrest
        fun _ => hloop m
    · have hline : (methodLine n m l).LeavesAtMost rest.length rest :=
        methodLine_leaves (by omega) m l
      refine Ends.outcome_bind hline fun r rest' hrest' => ?_
      replace hrest := Nat.lt_of_le_of_lt hrest' hrest
      cases r with
      | error fault => exact leavesAtMost_plan _ fun _ => hloop _ rest' hrest
      | ok step =>
        cases step with
        | next => exact hloop _ rest' hrest
        | close =>
          exact (finishScope_leaves (Nat.le_of_lt hrest)).bind fun _ _ hrest =>
            leavesAtMost_pure _ hrest
        | parent => exact closeImplicitly_leaves _ [l] (by rw [List.length_singleton]; omega)

/-- A field without its closing line. -/
theorem closeField_leaves (opened : Position) (annotated : Bool) (back : List Line)
    (h : back.length + lines.length ≤ k) :
    (closeField opened annotated back).LeavesAtMost k lines := by
  unfold closeField
  split
  · exact closeImplicitly_leaves _ back h
  · exact (handBack_leaves back h).bind fun _ _ hrest =>
      (finishScope_leaves hrest).bind fun _ _ hrest => leavesAtMost_pure none hrest

/-- A field, with the comments that it holds. -/
theorem fieldBody_leaves {n : Nat} (h : lines.length < n) (opened : Position)
    (annotated heard : Bool) (held : List Line) :
    (fieldBody n opened annotated heard held).LeavesAtMost (held.length + lines.length) lines := by
  induction n generalizing lines annotated held with
  | zero => exact absurd h (Nat.not_lt_zero _)
  | succ n ih =>
    unfold fieldBody
    refine leavesAtMost_nextLine ?_ fun l rest hrest => ?_
    · exact closeField_leaves _ _ _ (by simp)
    dsimp only
    split
    · refine (ih (by omega) annotated (l :: held)).mono ?_
      rw [List.length_cons]
      omega
    · split
      · -- What is held belongs to the field here, and is not handed back any more.
        refine LeavesAtMost.mono (k := lines.length) ?_ (by omega)
        refine LeavesAtMost.bind_lt (Ends.orLeave (leavesAtMost_say _ (Nat.le_refl _))) hrest
          fun _ rest hrest => ?_
        split
        · exact (finishScope_leaves (Nat.le_of_lt hrest)).bind fun _ _ hrest =>
            leavesAtMost_pure _ hrest
        · have hinner : (do
              descend (annotationBody n) (some (← say (openAnnotationScope l)))
              : Descent Unit).LeavesAtMost rest.length rest :=
            leavesAtMost_say_bind _ (Nat.le_refl _) fun frame =>
              descend_leaves (annotationBody_leaves (by omega)) (some frame)
          refine LeavesAtMost.bind_lt (Ends.orLeave hinner) hrest fun _ rest hrest => ?_
          exact (ih (by omega) true []).mono (by rw [List.length_nil]; omega)
      · exact closeField_leaves _ _ _ (by simp; omega)

/-- What a line at the level of the class has opened. -/
theorem member_leaves {n : Nat} (h : lines.length < n) (frames : List Frame) :
    (member n frames).LeavesAtMost lines.length lines := by
  unfold member
  split
  · refine LeavesAtMost.bind ((fieldBody_leaves h _ _ _ []).mono ?_) fun _ _ hrest =>
      leavesAtMost_say _ hrest
    exact Nat.le_of_eq (Nat.zero_add _)
  · exact (methodBody_leaves h _).bind fun _ _ hrest => leavesAtMost_say _ hrest
  · exact descend_leaves (annotationBody_leaves h) _
  · exact leavesAtMost_pure () (Nat.le_refl _)

/-- A line at the level of the class, with the member that it opens. No fault comes out. -/
theorem classLine_ends {n : Nat} (h : lines.length < n) (c : Control) (l : Line) :
    (classLine n c l).Ends (fun r rest => (∃ c, r = .ok c) ∧ rest.length ≤ lines.length) lines := by
  refine ends_plan_bind (Dialogue.yields_true _) fun c _ => ?_
  refine Ends.outcome_bind (member_leaves h c.frames) fun r rest hrest => ?_
  cases r with
  | ok _ => exact ends_pure ⟨⟨_, rfl⟩, hrest⟩
  | error fault =>
    exact ends_plan_bind (Dialogue.yields_true _) fun _ _ =>
      ends_pure ⟨⟨_, rfl⟩, hrest⟩

/-- A whole source: there is no fault around the class, and no line is left. -/
theorem classBody_ends {n : Nat} (h : lines.length < n) (c : Control) :
    (classBody n c).Ends (fun r rest => r = .ok () ∧ rest = []) lines := by
  induction n generalizing lines c with
  | zero => exact absurd h (Nat.not_lt_zero _)
  | succ n ih =>
    refine (ends_nextLine lines).bind (fun a rest hnext => ?_) fun _ _ hnext => ?_
    · rcases hnext with ⟨ha, rfl⟩ | ⟨l, ha, hrest⟩ <;> cases Except.ok.inj ha
      · exact ends_plan c.finish.yields_true fun _ _ => ⟨rfl, rfl⟩
      · refine (classLine_ends (n := n) (by omega) c l).bind (fun c rest hline => ?_)
          fun _ _ hline => ?_
        · exact ih (by omega) c
        · obtain ⟨⟨_, hr⟩, -⟩ := hline
          exact nomatch hr
    · rcases hnext with ⟨hr, -⟩ | ⟨_, hr, -⟩ <;> exact nomatch hr

end Descent

end Smali
