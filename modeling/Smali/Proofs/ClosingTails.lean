import Smali.Proofs.DescentFrames
import Smali.Proofs.Insertions

/-!
# Tokens behind a mark

The reader knows a line that closes a scope or a parameter by its first two tokens, and a line that
marks a prologue or an epilogue by its first one. Where it takes such a line it does not look at the
tokens behind them: a line that goes on is read as the line that ends there, by every listener and
under all options. So such tokens are lost, and no fault tells of them.
-/

namespace Smali

open scoped Dialogue.Laws

/-! ## Lines that go on -/

namespace Line

/-- A line that has the tokens of another one and perhaps more behind them. -/
structure Prolongs (l' l : Line) : Prop where
  /-- The tokens of the other line come first. -/
  code : ∃ more, l'.code = l.code ++ more
  /-- The comment behind both is the same. -/
  comment : l'.eolComment? = l.eolComment?
  /-- They stand at the same place. -/
  position : l'.position = l.position

/-- Two lines that are the same for whoever looks at their marks only. -/
structure LooksLike (l' l : Line) : Prop where
  /-- Both are the same comment, or none of them is one. -/
  comment? : l'.comment? = l.comment?
  /-- They start with the same directive. -/
  directive? : l'.directive? = l.directive?
  /-- They close the same scope. -/
  endOf? : l'.endOf? = l.endOf?
  /-- The comment behind both is the same. -/
  eolCall? : l'.eolCall? = l.eolCall?
  /-- They stand at the same place. -/
  position : l'.position = l.position

/-- Whether a line closes something, or marks a prologue or an epilogue. -/
def isMark (l : Line) : Bool :=
  l.endOf?.isSome || l.directive? = some .prologue || l.directive? = some .epilogue

variable {l l' : Line}

/-- A line that closes something has the directive for that. -/
theorem directive?_of_isSome_endOf? (h : l.endOf?.isSome = true) :
    l.directive? = some .closing := by
  unfold endOf? at h
  split at h
  · assumption
  · cases h

/-- The directives that a line with a mark can start with. -/
theorem directive?_of_isMark (h : l.isMark = true) :
    ∃ d, l.directive? = some d ∧ (d = .closing ∨ d = .prologue ∨ d = .epilogue) := by
  simp only [isMark, Bool.or_eq_true, decide_eq_true_eq] at h
  obtain (hend | hd) | hd := h
  · exact ⟨_, directive?_of_isSome_endOf? hend, .inl rfl⟩
  · exact ⟨_, hd, .inr (.inl rfl)⟩
  · exact ⟨_, hd, .inr (.inr rfl)⟩

namespace Prolongs

/-- More tokens do not change the directive. -/
theorem directive? {d : Directive} (h : l'.Prolongs l) (hd : l.directive? = some d) :
    l'.directive? = some d := by
  obtain ⟨more, hcode⟩ := h.code
  unfold Line.directive? at hd ⊢
  split at hd
  · rename_i hl
    rw [hcode, hl]
    exact hd
  · cases hd

/-- More tokens do not change what a line closes. -/
theorem endOf? {name : Text} (h : l'.Prolongs l) (hend : l.endOf? = some name) :
    l'.endOf? = some name := by
  obtain ⟨more, hcode⟩ := h.code
  have hclosing := directive?_of_isSome_endOf? (Option.isSome_of_eq_some hend)
  unfold Line.endOf? at hend ⊢
  rw [h.directive? hclosing]
  rw [hclosing] at hend
  match hl : l.code with
  | [] => rw [hl] at hend; cases hend
  | [_] => rw [hl] at hend; cases hend
  | _ :: second :: rest =>
    rw [hl] at hend
    rwa [hcode, hl]

/-- A line with a mark that goes on looks like the line that ends there. -/
theorem looksLike (h : l'.Prolongs l) (hl : l.isMark = true) : l'.LooksLike l := by
  obtain ⟨d, hd, -⟩ := directive?_of_isMark hl
  have hd' := h.directive? hd
  refine ⟨?_, hd'.trans hd.symm, ?_, congrArg (Option.map Call.eolComment) h.comment, h.position⟩
  · rw [comment?_of_directive hd, comment?_of_directive hd']
  · cases hend : l.endOf? with
    | some name => exact h.endOf? hend
    | none =>
      -- a mark that closes nothing starts with a directive of its own
      have hne : d ≠ .closing := by
        rintro rfl
        simp [isMark, hend, hd] at hl
      cases hend' : l'.endOf? with
      | none => rfl
      | some name =>
        have hclosing := directive?_of_isSome_endOf? (Option.isSome_of_eq_some hend')
        exact absurd (Option.some.inj (hd'.symm.trans hclosing)) hne

end Prolongs

namespace LooksLike

theorem closes (h : l'.LooksLike l) (name : Text) : l'.closes name = l.closes name := by
  rw [Line.closes, Line.closes, h.endOf?]

theorem takes (h : l'.LooksLike l) (f : Frame) : f.takes l' = f.takes l := by
  cases f <;>
    simp only [Frame.takes, Line.isComment, Line.leavesMethod, Line.leavesAnnotationBody,
      Line.opensMember, Gathering.isEndedBy, h.comment?, h.directive?, h.endOf?, h.closes]

theorem tellLine (h : l'.LooksLike l) (call : Call) :
    Passage.tellLine l' call = Passage.tellLine l call := by
  rw [Passage.tellLine, Passage.tellLine, h.eolCall?]

theorem closeBy (h : l'.LooksLike l) (opened : Position) (heard : Bool) (outer : List Frame) :
    closeBy l' opened heard outer = closeBy l opened heard outer := by
  rw [Smali.closeBy, Smali.closeBy, h.eolCall?]

end LooksLike

end Line

/-! ## Where marks are taken -/

/-- Whether a frame takes a line for its mark alone: the line closes the frame or a parameter in it,
or it marks a prologue or an epilogue. -/
def Frame.marks (f : Frame) (l : Line) : Bool :=
  match f with
  | .field _ => l.closes "field"
  | .method _ =>
    l.closes "method" || l.closes "param" || l.directive? = some .prologue ||
      l.directive? = some .epilogue
  | .annotationBody _ name => l.closes name
  | .array _ => false
  | .skipping name => l.closes name

variable {l l' : Line}

/-- Such a line has a mark. -/
theorem Frame.isMark_of_marks {f : Frame} (h : f.marks l = true) : l.isMark = true := by
  have hcloses : ∀ {name : Text}, l.closes name = true → l.isMark = true := fun h => by
    simp [Line.isMark, of_decide_eq_true h]
  cases f with
  | field f => exact hcloses h
  | method m =>
    simp only [marks, Bool.or_eq_true] at h
    obtain ((h | h) | h) | h := h
    · exact hcloses h
    · exact hcloses h
    · simp [Line.isMark, of_decide_eq_true h]
    · simp [Line.isMark, of_decide_eq_true h]
  | annotationBody opened name => exact hcloses h
  | array g => cases h
  | skipping name => exact hcloses h

/-- A frame takes the lines with a mark for it. -/
theorem Frame.takes_of_marks {f : Frame} (h : f.marks l = true) : f.takes l = true := by
  cases f with
  | field f => exact Bool.or_eq_true_iff.mpr (.inr h)
  | method m =>
    obtain ⟨d, hd, rfl | rfl | rfl⟩ := Line.directive?_of_isMark (isMark_of_marks h) <;>
      simp [takes, Line.leavesMethod, hd]
  | annotationBody opened name =>
    have hstays : l.leavesAnnotationBody name = false := by
      by_contra hleaves
      have hcloses := (Line.directive_of_leavesAnnotationBody (eq_true_of_ne_false hleaves)).2
      exact absurd (h.symm.trans hcloses) Bool.noConfusion
    simp [takes, hstays]
  | array g => cases h
  | skipping name => exact Bool.or_eq_true_iff.mpr (.inl h)

namespace Line.LooksLike

/-- In a field nothing is looked at but the mark. -/
theorem takeInField (h : l'.LooksLike l) {f : OpenField} (hl : (Frame.field f).marks l = true)
    (outer : List Frame) : takeInField f l' outer = takeInField f l outer := by
  have hcloses : l.closes "field" = true := hl
  simp only [Smali.takeInField, h.comment?, h.closes, if_pos hcloses, h.closeBy]

/-- In an annotation nothing is looked at but the mark. -/
theorem takeInAnnotationBody (h : l'.LooksLike l) {opened : Position} {name : Text}
    (hl : (Frame.annotationBody opened name).marks l = true) (outer : List Frame) :
    takeInAnnotationBody opened name l' outer = takeInAnnotationBody opened name l outer := by
  have hcloses : l.closes name = true := hl
  have hd := directive?_of_closes hcloses
  unfold Smali.takeInAnnotationBody
  rw [h.comment?, comment?_of_directive hd, h.directive?, hd]
  dsimp only
  rw [h.closes, if_pos hcloses, if_pos hcloses, h.closeBy]

/-- In the body of a method nothing is looked at but the mark. -/
theorem bodyLine (h : l'.LooksLike l) {m : OpenMethod} (hl : (Frame.method m).marks l = true)
    (hmethod : l.closes "method" = false) : bodyLine m l' = bodyLine m l := by
  simp only [Frame.marks, hmethod, Bool.false_or, Bool.or_eq_true, decide_eq_true_eq] at hl
  obtain (hparam | hd) | hd := hl
  · have hd := directive?_of_closes hparam
    simp only [Smali.bodyLine, h.directive?, hd, closingLine, h.closes, if_pos hparam, h.tellLine,
      Line.grammar, h.position]
  · simp only [Smali.bodyLine, h.directive?, hd, directiveLine, h.tellLine]
  · simp only [Smali.bodyLine, h.directive?, hd, directiveLine, h.tellLine]

/-- A method goes on behind both in the same way. -/
theorem after (h : l'.LooksLike l) (hl : l.isMark = true) (m : OpenMethod) :
    m.after l' = m.after l := by
  have hparam : l.directive? ≠ some .param := by
    obtain ⟨d, hd, rfl | rfl | rfl⟩ := directive?_of_isMark hl <;> simp [hd]
  rw [OpenMethod.after, OpenMethod.after, h.directive?, if_neg hparam, if_neg hparam, h.closes]

/-- In a method nothing is looked at but the mark. -/
theorem takeInMethod (h : l'.LooksLike l) {m : OpenMethod} (hl : (Frame.method m).marks l = true)
    (outer : List Frame) : takeInMethod m l' outer = takeInMethod m l outer := by
  have hmark := Frame.isMark_of_marks hl
  obtain ⟨d, hd, -⟩ := directive?_of_isMark hmark
  unfold Smali.takeInMethod
  rw [h.comment?, comment?_of_directive hd]
  dsimp only
  rw [h.closes, h.closeBy, h.position, h.after hmark]
  cases hmethod : l.closes "method" with
  | true => rfl
  | false => rw [h.bodyLine hl hmethod]

/-- A line that the innermost frame takes for its mark is taken as one that looks like it. -/
theorem take (h : l'.LooksLike l) {c : Control} {f : Frame} (hf : c.frames.head? = some f)
    (hl : f.marks l = true) : c.take l' = c.take l := by
  obtain ⟨stage, declared, frames⟩ := c
  obtain ⟨outer, rfl⟩ := List.head?_eq_some_iff.mp hf
  have htakes := Frame.takes_of_marks hl
  unfold Control.take
  rw [unwind_nothing_cons, unwind_nothing_cons, h.takes, if_pos htakes, if_pos htakes,
    pure_bind, pure_bind]
  cases f with
  | field f => simp only [Control.takeInner, h.takeInField hl]
  | method m => simp only [Control.takeInner, h.takeInMethod hl]
  | annotationBody opened name => simp only [Control.takeInner, h.takeInAnnotationBody hl]
  | array g => cases hl
  | skipping name => simp only [Control.takeInner, h.closes]

end Line.LooksLike

/-! ## Readings -/

/-- The innermost frame behind some lines at the start of a source, if the reading before a listener
comes so far. -/
def frameBehind? {σ κ : Type} (o : Options) (L : Listener σ κ) (root : κ) (state : σ)
    (before : List Text) : Option Frame :=
  match (((Control.initial o).takeLines (scanFrom 1 before)).conduct o L
    (.initial root state)).1 with
  | .ok c => c.frames.head?
  | .error _ => none

/-- Tokens behind a mark are not read. A line of a source closes a scope or a parameter that is
open, or it marks a prologue or an epilogue in a method; another source has the same lines, but for
more tokens at the end of this one. Then both sources are read alike, under all options and by every
listener: the calls, the diagnostics and the end of the reading are the same. -/
theorem tail_behind_mark_unread {σ κ : Type} (o : Options) (L : Listener σ κ) (root : κ) (state : σ)
    {source source' : Text} {before after : List Text} {t t' : Text}
    (hsource : Text.lines source = before ++ ([t] ++ after))
    (hsource' : Text.lines source' = before ++ ([t'] ++ after)) {l l' : Line}
    (hscan : scanFrom (before.length + 1) [t] = [.ok l])
    (hscan' : scanFrom (before.length + 1) [t'] = [.ok l']) (hlonger : l'.Prolongs l)
    (hmark : (frameBehind? o L root state before).any (·.marks l) = true) :
    read o L root state source' = read o L root state source := by
  obtain ⟨f, hframe, hmarks⟩ := (Option.any_eq_true _ _).mp hmark
  have hlooks := hlonger.looksLike (Frame.isMark_of_marks hmarks)
  unfold frameBehind? at hframe
  rcases hreach : Dialogue.conduct o L _ (.initial root state) with ⟨_ | c, desk⟩
  · rw [hreach] at hframe
    cases hframe
  · rw [hreach] at hframe
    rw [read_from_point hsource hreach, read_from_point hsource' hreach, scanFrom_append,
      scanFrom_append, hscan, hscan', List.singleton_append, List.singleton_append,
      Control.readLines, Control.readLines, hlooks.take hframe hmarks]
    rfl

/-- A class in which every line with a mark ends there. -/
def plainMarks : Text :=
  ".class La;\n.field x:I\n.annotation runtime Lb;\ny = .subannotation Lc;\n".toList ++
    ".end subannotation\n.end annotation\n.end field\n".toList ++
    ".method m()V\n.prologue\n.param p0\n.end param\n.epilogue\n.end method\n".toList

/-- The same class with one more token on each of them. -/
def longMarks : Text :=
  ".class La;\n.field x:I\n.annotation runtime Lb;\ny = .subannotation Lc;\n".toList ++
    ".end subannotation 1\n.end annotation 2\n.end field 3\n".toList ++
    ".method m()V\n.prologue 4\n.param p0\n.end param 5\n.epilogue 6\n.end method 7\n".toList

/-- The word `foo` behind the end of a method is not read. -/
theorem tail_behind_mark_unread_at :
    let L := Recorder.listener .obliging
    let root := Recorder.root .ofClass
    let plain := ".class La;\n.method m()V\n.end method\n".toList
    let long := ".class La;\n.method m()V\n.end method foo\n".toList
    read .default L root .initial long = read .default L root .initial plain ∧
      (read .default L root .initial plain).1 = .ok () := by
  intro L root plain long
  have hplain : Text.lines plain =
      [".class La;".toList, ".method m()V".toList] ++ ([".end method".toList] ++ []) := by
    decide +kernel
  have hlong : Text.lines long =
      [".class La;".toList, ".method m()V".toList] ++ ([".end method foo".toList] ++ []) := by
    decide +kernel
  let l : Line := ⟨[⟨.directive, ".end", ⟨3, 1⟩⟩, ⟨.identifier, "method", ⟨3, 6⟩⟩], ".end method",
    none, ⟨3, 1⟩⟩
  let l' : Line := ⟨l.code ++ [⟨.identifier, "foo", ⟨3, 13⟩⟩], ".end method foo", none, ⟨3, 1⟩⟩
  have hscan : scanFrom 3 [".end method".toList] = [.ok l] := by decide +kernel
  have hscan' : scanFrom 3 [".end method foo".toList] = [.ok l'] := by decide +kernel
  have hlonger : l'.Prolongs l := ⟨⟨_, rfl⟩, rfl, rfl⟩
  have hmark : (frameBehind? .default L root .initial
      [".class La;".toList, ".method m()V".toList]).any (·.marks l) = true := by decide +kernel
  exact ⟨tail_behind_mark_unread .default L root .initial hplain hlong hscan hscan' hlonger hmark,
    by decide +kernel⟩

/-- A strict reading accepts more tokens on every line with a mark, and it makes the calls that it
makes without them. -/
theorem long_marks_accepted :
    let L := Recorder.listener .obliging
    let root := Recorder.root .ofClass
    (read .default L root .initial longMarks).1 = .ok () ∧
      (callsOf .default L root .initial longMarks).map (·.call.kind) =
        (callsOf .default L root .initial plainMarks).map (·.call.kind) ∧
      (callsOf .default L root .initial longMarks).map (·.call.kind) =
        [.header, .field, .annotationStart, .subannotationStart, .finish, .finish, .finish,
          .method, .prologue, .param, .paramEnd, .epilogue, .finish, .finish] := by
  decide +kernel

end Smali
