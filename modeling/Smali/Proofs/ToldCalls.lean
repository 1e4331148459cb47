import Smali.Proofs.StrictStep

/-!
# The calls of a strict reading

The calls that the steps over lines lead to follow on each other at the site where the reading
stands, and at the end of a source nothing is left open. The steps over two portions of lines
are those over the first and then those over the second.

`Takes` says once what a step over a line can be. What is known of all steps follows from it case by
case.
-/

namespace Smali

namespace Site

/-- Calls after which the class can end. -/
structure Ends (s : Site) : Prop where
  /-- The class was told of. -/
  phase : s.phase ≠ .start
  /-- No member is open. -/
  host : s.host = none
  /-- No annotation is open. -/
  nest : s.nest = 0

/-- No calls. -/
@[simp]
theorem run_nil (validate : Bool) (s : Site) : s.run validate [] = some s := rfl

/-- One call, and the others. -/
theorem run_cons (validate : Bool) (s : Site) (call : Call) (rest : List Call) :
    s.run validate (call :: rest) = (s.accept validate call).bind (·.run validate rest) := rfl

/-- One call. -/
theorem run_singleton (validate : Bool) (s : Site) (call : Call) :
    s.run validate [call] = s.accept validate call := by
  rw [run_cons]
  cases s.accept validate call <;> rfl

/-- The end of a field passes all checks. -/
theorem accept_endField (validate : Bool) {s : Site} {annotated : Bool} (hnest : s.nest = 0)
    (hhost : s.host = some (.field annotated)) :
    s.accept validate .finish = some { s with host := none } := by
  unfold accept
  rw [next?_of_field hnest hhost]
  cases validate <;> rfl

end Site

namespace Line

/-- The call of a line in an annotation that a closing line with a name ends. -/
def elementCall? (l : Line) (name : Text) : Option Call :=
  match l.directive? with
  | none =>
    match l.element? with
    | some (.call call) => some call
    | _ => none
  | some _ => if l.closes name then some .finish else none

end Line

/-- An array with one more line. -/
def Braces.add (b : Braces) (l : Line) : Braces :=
  ⟨b.name, b.text ++ '\n' :: l.text, b.depth + Literal.braceDepth l.text⟩

namespace Site

/-- The call of a line in the innermost scope at a site. -/
def callOf? (s : Site) (l : Line) : Option Call :=
  match s.nest, s.host with
  | outer + 1, _ => l.elementCall? (closingName outer)
  | 0, some (.field _) =>
    if l.closes "field" then some .finish
    else if l.directive? = some .annotationStart then l.annotationCall?
    else none
  | 0, some (.method _ _ _) => l.bodyCall?
  | 0, none => l.classCall?

/-- In an annotation. -/
theorem callOf?_of_nest {s : Site} {outer : Nat} (hnest : s.nest = outer + 1) (l : Line) :
    s.callOf? l = l.elementCall? (closingName outer) := by
  unfold callOf?
  rw [hnest]

/-- In a field. -/
theorem callOf?_of_field {s : Site} {annotated : Bool} (hnest : s.nest = 0)
    (hhost : s.host = some (.field annotated)) (l : Line) :
    s.callOf? l = if l.closes "field" then some .finish
      else if l.directive? = some .annotationStart then l.annotationCall?
      else none := by
  unfold callOf?
  rw [hnest, hhost]

end Site

/-! ## Steps over lines -/

namespace Stance

variable {validate : Bool}

/-- A call that is told follows. -/
theorem run_of_tell {s : Site} {call : Call} {s' : Stance} {calls : List Call}
    (h : tell validate s call = some (s', calls)) :
    s.run validate calls = some s'.site ∧ s'.braces = none ∧ calls = [call] := by
  obtain ⟨site, hsite, heq⟩ := Option.map_eq_some_iff.mp h
  obtain ⟨rfl, rfl⟩ := Prod.mk.inj heq
  exact ⟨(Site.run_singleton validate s call).trans hsite, rfl, rfl⟩

/-- What a step over a line can be, with the calls that it leads to. -/
inductive Takes (validate : Bool) (l : Line) : Stance → Stance → List Call → Prop where
  /-- A comment tells nothing. -/
  | comment {s : Stance} (hl : l.isComment = true) : Takes validate l s s []
  /-- The call of the line is told. -/
  | told {s : Site} {s' : Stance} {call : Call} (hl : l.isComment = false)
    (hcall : s.callOf? l = some call) (htell : tell validate s call = some (s', [call])) :
    Takes validate l ⟨s, none⟩ s' [call]
  /-- An array starts in an annotation. -/
  | opens {s : Site} {outer : Nat} {b : Braces} (hl : l.isComment = false)
    (hnest : s.nest = outer + 1) (hdirective : l.directive? = none)
    (helement : l.element? = some (.braces b)) : Takes validate l ⟨s, none⟩ ⟨s, some b⟩ []
  /-- An array goes on. -/
  | gathers {s : Site} {b : Braces} (hl : l.isComment = false)
    (hinside : Gathering.isEndedBy l = false) (hopen : 0 < (b.add l).depth) :
    Takes validate l ⟨s, some b⟩ ⟨s, some (b.add l)⟩ []
  /-- An array is complete. -/
  | closes {s : Site} {b : Braces} {v : Value} {s' : Stance} (hl : l.isComment = false)
    (hinside : Gathering.isEndedBy l = false) (hclosed : (b.add l).depth ≤ 0)
    (hv : Literal.decode (b.add l).text = .ok v)
    (htell : tell validate s (.value b.name v) = some (s', [.value b.name v])) :
    Takes validate l ⟨s, some b⟩ s' [.value b.name v]
  /-- A field ends before the line, whose call is told at the level of the class. -/
  | behindField {s : Site} {s' : Stance} {call : Call} (hl : l.isComment = false)
    (hnest : s.nest = 0) (hhost : s.host = some (.field false))
    (hstays : l.closes "field" = false ∧ l.directive? ≠ some .annotationStart)
    (hcall : l.classCall? = some call)
    (htell : tell validate { s with host := none } call = some (s', [call])) :
    Takes validate l ⟨s, none⟩ s' [.finish, call]

/-- The call of a line is told. -/
theorem Takes.of_tell {s : Site} {l : Line} {call : Call} {s' : Stance} {calls : List Call}
    (hl : l.isComment = false) (hcall : s.callOf? l = some call)
    (h : tell validate s call = some (s', calls)) : Takes validate l ⟨s, none⟩ s' calls := by
  obtain ⟨-, -, rfl⟩ := run_of_tell h
  exact .told hl hcall h

/-- The call of a line is told, if there is one. -/
theorem Takes.of_bind {s : Site} {l : Line} {r : Option Call} {s' : Stance} {calls : List Call}
    (hl : l.isComment = false) (hcall : s.callOf? l = r)
    (h : r.bind (tell validate s) = some (s', calls)) : Takes validate l ⟨s, none⟩ s' calls := by
  obtain ⟨call, rfl, htell⟩ := Option.bind_eq_some_iff.mp h
  exact .of_tell hl hcall htell

/-- A line in an array. -/
theorem takes_of_inArray? {s : Site} {b : Braces} {l : Line} {s' : Stance} {calls : List Call}
    (hl : l.isComment = false) (h : inArray? validate s b l = some (s', calls)) :
    Takes validate l ⟨s, some b⟩ s' calls := by
  unfold inArray? at h
  dsimp only at h
  split at h
  · cases h
  · next hinside =>
    rw [Bool.not_eq_true] at hinside
    split at h
    · next hclosed =>
      obtain ⟨v, hv, htell⟩ := Option.bind_eq_some_iff.mp h
      obtain ⟨-, -, rfl⟩ := run_of_tell htell
      exact .closes hl hinside hclosed (toOption_eq_some.mp hv) htell
    · next hopen =>
      obtain ⟨rfl, rfl⟩ := Prod.mk.inj (Option.some.inj h)
      exact .gathers hl hinside (Int.not_le.mp hopen)

/-- A line in an annotation. -/
theorem takes_of_inAnnotation? {s : Site} {outer : Nat} (hnest : s.nest = outer + 1) {l : Line}
    {s' : Stance} {calls : List Call} (hl : l.isComment = false)
    (h : inAnnotation? validate s outer l = some (s', calls)) :
    Takes validate l ⟨s, none⟩ s' calls := by
  have hcall := Site.callOf?_of_nest hnest l
  unfold inAnnotation? at h
  split at h
  · next hdirective =>
    obtain ⟨element, helement, h⟩ := Option.bind_eq_some_iff.mp h
    cases element with
    | call call =>
      refine .of_tell hl (hcall.trans ?_) h
      simp only [Line.elementCall?, hdirective, helement]
    | braces b =>
      obtain ⟨rfl, rfl⟩ := Prod.mk.inj (Option.some.inj h)
      exact .opens hl hnest hdirective helement
  · next d hdirective =>
    split at h
    · next hcloses =>
      refine .of_tell hl (hcall.trans ?_) h
      simp only [Line.elementCall?, hdirective, hcloses, if_true]
    · cases h

/-- A line in a field, or behind a field that ends before it. -/
theorem takes_of_inField? {s : Site} {annotated : Bool} (hnest : s.nest = 0)
    (hhost : s.host = some (.field annotated)) {l : Line} {s' : Stance} {calls : List Call}
    (hl : l.isComment = false) (h : inField? validate s annotated l = some (s', calls)) :
    Takes validate l ⟨s, none⟩ s' calls := by
  have hcall := Site.callOf?_of_field hnest hhost l
  unfold inField? at h
  split at h
  · next hcloses => exact .of_tell hl (hcall.trans (if_pos hcloses)) h
  · next hcloses =>
    rw [if_neg hcloses] at hcall
    split at h
    · next hdirective => exact .of_bind hl (hcall.trans (if_pos hdirective)) h
    · next hdirective =>
      cases annotated with
      | true => cases h
      | false =>
        obtain ⟨⟨s'', more⟩, hclass, heq⟩ := Option.map_eq_some_iff.mp h
        obtain ⟨rfl, rfl⟩ := Prod.mk.inj heq
        obtain ⟨call, hclasscall, htell⟩ := Option.bind_eq_some_iff.mp hclass
        obtain ⟨-, -, rfl⟩ := run_of_tell htell
        exact .behindField hl hnest hhost ⟨Bool.eq_false_iff.mpr hcloses, hdirective⟩ hclasscall
          htell

/-- What a step over a line is. -/
theorem takes_of_take {s s' : Stance} {l : Line} {calls : List Call}
    (h : s.take validate l = some (s', calls)) : Takes validate l s s' calls := by
  obtain ⟨⟨phase, declared, host, nest⟩, braces⟩ := s
  unfold take at h
  cases hl : l.isComment with
  | true =>
    rw [hl, if_pos rfl] at h
    obtain ⟨rfl, rfl⟩ := Prod.mk.inj (Option.some.inj h)
    exact .comment hl
  | false =>
    rw [hl, if_neg Bool.false_ne_true] at h
    cases braces with
    | some b => exact takes_of_inArray? hl h
    | none =>
      match nest, host with
      | outer + 1, _ => exact takes_of_inAnnotation? rfl hl h
      | 0, some (.field annotated) => exact takes_of_inField? rfl rfl hl h
      | 0, some (.method _ _ _) => exact .of_bind hl rfl h
      | 0, none => exact .of_bind hl rfl h

/-- The call of a line is told by the step over it. -/
theorem take_of_callOf? {s : Site} {l : Line} {call : Call} (hl : l.isComment = false)
    (hcall : s.callOf? l = some call) : take validate ⟨s, none⟩ l = tell validate s call := by
  obtain ⟨phase, declared, host, nest⟩ := s
  unfold take
  rw [hl, if_neg Bool.false_ne_true]
  unfold Site.callOf? at hcall
  match nest, host with
  | outer + 1, _ =>
    dsimp only at hcall ⊢
    unfold Line.elementCall? at hcall
    unfold inAnnotation?
    cases hdirective : l.directive? with
    | none =>
      rw [hdirective] at hcall
      dsimp only at hcall ⊢
      split at hcall
      · next element helement =>
        obtain rfl := Option.some.inj hcall
        rw [helement]
        rfl
      · cases hcall
    | some d =>
      rw [hdirective] at hcall
      dsimp only at hcall ⊢
      split at hcall
      · next hcloses =>
        obtain rfl := Option.some.inj hcall
        rw [if_pos hcloses]
      · cases hcall
  | 0, some (.field annotated) =>
    dsimp only at hcall ⊢
    unfold inField?
    split at hcall
    · obtain rfl := Option.some.inj hcall
      rw [if_pos ‹_›]
    · rw [if_neg ‹_›]
      split at hcall
      · rw [if_pos ‹_›, hcall, Option.bind_some]
      · cases hcall
  | 0, some (.method _ _ _) =>
    dsimp only at hcall ⊢
    rw [hcall, Option.bind_some]
  | 0, none =>
    dsimp only at hcall ⊢
    rw [inClass?, hcall, Option.bind_some]

/-- Each of these steps is taken. -/
theorem take_of_takes {s s' : Stance} {l : Line} {calls : List Call}
    (h : Takes validate l s s' calls) : s.take validate l = some (s', calls) := by
  cases h with
  | comment hl =>
    unfold take
    rw [hl, if_pos rfl]
  | told hl hcall htell => exact (take_of_callOf? hl hcall).trans htell
  | opens hl hnest hdirective helement =>
    unfold take inAnnotation?
    simp only [hl, hnest, hdirective, helement]
    rfl
  | gathers hl hinside hopen =>
    unfold take inArray?
    rw [hl, hinside]
    exact if_neg (Int.not_le.mpr hopen)
  | @closes s b v _ hl hinside hclosed hv htell =>
    have hread : (Literal.decode (b.text ++ '\n' :: l.text)).toOption = some v :=
      toOption_eq_some.mpr hv
    unfold take inArray?
    rw [hl, hinside]
    refine (if_pos hclosed).trans ?_
    rw [hread]
    exact htell
  | @behindField s _ call hl hnest hhost hstays hcall htell =>
    obtain ⟨phase, declared, host, nest⟩ := s
    obtain rfl : nest = 0 := hnest
    obtain rfl : host = some (.field false) := hhost
    unfold take
    rw [hl, if_neg Bool.false_ne_true]
    dsimp only
    unfold inField? inClass?
    rw [if_neg (Bool.eq_false_iff.mp hstays.1), if_neg hstays.2, if_neg Bool.false_ne_true, hcall,
      Option.bind_some, htell]
    rfl

/-- The calls over a line follow. -/
theorem run_of_take {s s' : Stance} {l : Line} {calls : List Call}
    (h : s.take validate l = some (s', calls)) : s.site.run validate calls = some s'.site := by
  cases takes_of_take h with
  | comment => rfl
  | told _ _ htell => exact (run_of_tell htell).1
  | opens => rfl
  | gathers => rfl
  | closes _ _ _ _ htell => exact (run_of_tell htell).1
  | behindField _ hnest hhost _ _ htell =>
    rw [Site.run_cons, Site.accept_endField validate hnest hhost]
    exact (run_of_tell htell).1

/-- The calls over lines follow. -/
theorem run_of_takeAll {s s' : Stance} {lines : List (Option Line)} {calls : List Call}
    (h : s.takeAll validate lines = some (s', calls)) :
    s.site.run validate calls = some s'.site := by
  induction lines generalizing s calls with
  | nil =>
    obtain ⟨rfl, rfl⟩ := Prod.mk.inj (Option.some.inj h)
    rfl
  | cons line rest ih =>
    cases line with
    | none => exact absurd h (Option.some_ne_none _).symm
    | some l =>
      obtain ⟨⟨mid, first⟩, hfirst, h⟩ := Option.bind_eq_some_iff.mp h
      obtain ⟨⟨last, second⟩, hsecond, heq⟩ := Option.map_eq_some_iff.mp h
      obtain ⟨rfl, rfl⟩ := Prod.mk.inj heq
      rw [Site.run_append, run_of_take hfirst, Option.bind_some, ih hsecond]

/-- Two portions of lines. -/
theorem takeAll_append (s : Stance) (first second : List (Option Line)) :
    s.takeAll validate (first ++ second) =
      (s.takeAll validate first).bind fun (s, calls) =>
        (s.takeAll validate second).map fun (s, more) => (s, calls ++ more) := by
  induction first generalizing s with
  | nil => simp [takeAll]
  | cons line rest ih =>
    cases line with
    | none => rfl
    | some l =>
      simp only [List.cons_append, takeAll, ih]
      cases s.take validate l with
      | none => rfl
      | some step =>
        obtain ⟨mid, calls⟩ := step
        simp only [Option.bind_some]
        cases mid.takeAll validate rest with
        | none => rfl
        | some taken =>
          obtain ⟨last, more⟩ := taken
          simp only [Option.bind_some, Option.map_some]
          cases last.takeAll validate second with
          | none => rfl
          | some final => simp

/-- The same for the calls up to the end of a source. -/
theorem readAll_append (s : Stance) (first second : List (Option Line)) :
    s.readAll validate (first ++ second) =
      (s.takeAll validate first).bind fun (s, calls) =>
        (s.readAll validate second).map (calls ++ ·) := by
  unfold readAll
  rw [takeAll_append]
  cases s.takeAll validate first with
  | none => rfl
  | some taken =>
    obtain ⟨mid, calls⟩ := taken
    simp only [Option.bind_some]
    cases mid.takeAll validate second with
    | none => rfl
    | some final =>
      obtain ⟨last, more⟩ := final
      simp only [Option.map_some, Option.bind_some]
      cases last.finish? with
      | none => rfl
      | some ends => simp

/-- The first line, and the others. -/
theorem readAll_cons (st : Stance) (l : Line) (lines : List (Option Line)) :
    st.readAll validate (some l :: lines) =
      (st.take validate l).bind fun (st, calls) =>
        (st.readAll validate lines).map (calls ++ ·) := by
  have h := @readAll_append validate st [some l] lines
  rw [List.singleton_append] at h
  rw [h]
  unfold takeAll
  cases st.take validate l with
  | none => rfl
  | some step => simp [takeAll]

/-- The end of a source leaves nothing open. -/
theorem run_of_finish? {s : Stance} {calls : List Call} (h : s.finish? = some calls) :
    ∃ s', s.site.run validate calls = some s' ∧ s'.Ends := by
  obtain ⟨⟨phase, declared, host, nest⟩, braces⟩ := s
  unfold finish? at h
  split at h
  · exact absurd h (Option.some_ne_none _).symm
  · rename_i hphase
    split at h
    · rename_i hnest hhost
      obtain rfl := Option.some.inj h
      exact ⟨_, rfl, hphase, hhost, hnest⟩
    · rename_i hnest hhost
      obtain rfl := Option.some.inj h
      obtain rfl : nest = 0 := hnest
      obtain rfl : host = some (.field false) := hhost
      refine ⟨⟨phase, declared, none, 0⟩, ?_, hphase, rfl, rfl⟩
      rw [Site.run_singleton]
      unfold Site.accept
      cases validate <;> rfl
    · exact absurd h (Option.some_ne_none _).symm

/-- The calls up to the end of a source follow, and they leave nothing open. -/
theorem run_of_readAll {s : Stance} {lines : List (Option Line)} {calls : List Call}
    (h : s.readAll validate lines = some calls) :
    ∃ s', s.site.run validate calls = some s' ∧ s'.Ends := by
  obtain ⟨⟨mid, first⟩, hfirst, h⟩ := Option.bind_eq_some_iff.mp h
  obtain ⟨ends, hends, rfl⟩ := Option.map_eq_some_iff.mp h
  obtain ⟨s', hs', hend⟩ := @run_of_finish? validate _ _ hends
  exact ⟨s', by rw [Site.run_append, run_of_takeAll hfirst, Option.bind_some, hs'], hend⟩

end Stance

/-- The calls of a source follow on each other, and they leave nothing open. -/
theorem run_of_strictCalls {o : Options} {source : Text} {calls : List Call}
    (h : strictCalls o source = some calls) :
    ∃ s, (Site.initial o.snippet).run o.validate calls = some s ∧ s.Ends :=
  Stance.run_of_readAll h

end Smali
