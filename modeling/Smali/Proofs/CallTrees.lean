import Smali.Proofs.ReadableCalls

/-!
# Trees of calls

The calls about a class form a tree: what is told of the class itself, then its members, with
their code and their annotations in them. A writer that hears the calls of a tree writes code,
and the calls that are read from this code are those of the tree exactly if every call of the
tree is readable, no annotation of the class strays and every end of a parameter follows a
parameter that is open.
-/

namespace Smali

/-! ## Trees -/

/-- What is told in an annotation. -/
inductive Elements where
  /-- Nothing more. -/
  | nil
  /-- An element with its value. -/
  | value (name : Text) (v : Value) (rest : Elements)
  /-- An element that is an annotation. -/
  | nested (name : Text) (type : TypeName) (inner rest : Elements)

/-- The calls in an annotation. -/
def Elements.calls : Elements → List Call
  | .nil => []
  | .value name v rest => .value name v :: rest.calls
  | .nested name type inner rest =>
    .subannotationStart name type :: (inner.calls ++ .finish :: rest.calls)

/-- An annotation with what is told in it. -/
structure AnnotationTree where
  /-- Who can see it. -/
  visibility : Visibility
  /-- Its type. -/
  type : TypeName
  /-- Its elements. -/
  elements : Elements

/-- The calls about an annotation. -/
def AnnotationTree.calls (a : AnnotationTree) : List Call :=
  .annotationStart a.visibility a.type :: (a.elements.calls ++ [.finish])

/-- Whether a call is one that only a method hears, its annotations aside. -/
def Call.isCode : Call → Bool
  | .param _ _ | .paramEnd => true
  | call => call.isBody

/-- A part of a method. -/
inductive CodePart where
  /-- A call of the method. -/
  | code (call : Call) (h : call.isCode = true)
  /-- An annotation of the method or of a parameter. -/
  | annotated (a : AnnotationTree)

/-- The calls about a part of a method. -/
def CodePart.calls : CodePart → List Call
  | .code call _ => [call]
  | .annotated a => a.calls

/-- A member of a class, or an annotation of it. -/
inductive MemberTree where
  /-- A field with its annotations. -/
  | field (name : Text) (access : Access) (type : TypeName) (initial : Option Value)
    (annotations : List AnnotationTree)
  /-- A method with its parts. -/
  | method (name : Text) (access : Access) (signature : Signature) (parts : List CodePart)
  /-- An annotation of the class. -/
  | annotated (a : AnnotationTree)

/-- The calls about a member. -/
def MemberTree.calls : MemberTree → List Call
  | .field name access type initial annotations =>
    .field name access type initial :: (annotations.flatMap AnnotationTree.calls ++ [.finish])
  | .method name access signature parts =>
    .method name access signature :: (parts.flatMap CodePart.calls ++ [.finish])
  | .annotated a => a.calls

/-- What is told of the class itself behind its type. -/
inductive HeaderPart where
  /-- The superclass. -/
  | superType (type : TypeName)
  /-- An interface. -/
  | implements (type : TypeName)
  /-- The name of the source file. -/
  | source (name : Text)

/-- The call about a part of the header. -/
def HeaderPart.call : HeaderPart → Call
  | .superType type => .superType type
  | .implements type => .implements type
  | .source name => .source name

/-- All that is told of a class. -/
structure ClassTree where
  /-- Its type. -/
  type : TypeName
  /-- Its flags. -/
  access : Access
  /-- The rest of its header. -/
  header : List HeaderPart
  /-- Its members. -/
  members : List MemberTree

/-- The calls about a class, without the end of the class. -/
def ClassTree.calls (tree : ClassTree) : List Call :=
  .header tree.type tree.access ::
    (tree.header.map HeaderPart.call ++ tree.members.flatMap MemberTree.calls)

/-- Whether a parameter is open behind parts of a method. There is no answer if a parameter is
ended that is not open. -/
def paramOpenAfter? (paramOpen : Bool) : List CodePart → Option Bool
  | [] => some paramOpen
  | .code (.param _ _) _ :: rest => paramOpenAfter? true rest
  | .code .paramEnd _ :: rest => if paramOpen then paramOpenAfter? false rest else none
  | _ :: rest => paramOpenAfter? paramOpen rest

/-- Whether every end of a parameter of a member follows a parameter that is open. -/
def MemberTree.EndsParams : MemberTree → Prop
  | .method _ _ _ parts => (paramOpenAfter? false parts).isSome = true
  | _ => True

/-! ## Sites of trees -/

/-- Behind the elements of an annotation. -/
theorem Elements.run_calls {s : Site} {outer : Nat} (hnest : s.nest = outer + 1) (e : Elements) :
    s.run false e.calls = some s := by
  have hcall : ∀ {s : Site} {outer : Nat}, s.nest = outer + 1 → ∀ call : Call,
      s.accept false call = (Site.nestNext? outer call).map fun nest => { s with nest := nest } :=
    fun hnest call => Site.next?_of_nest hnest call
  have hsame : ∀ {s : Site} {nest : Nat}, s.nest = nest → { s with nest := nest } = s := by
    rintro s nest rfl
    rfl
  induction e generalizing s outer with
  | nil => rfl
  | value name v rest ih =>
    rw [calls, Site.run_cons, hcall hnest]
    change ({ s with nest := outer + 1 } : Site).run false rest.calls = some s
    rw [hsame hnest]
    exact ih hnest
  | nested name type inner rest hinner hrest =>
    rw [calls, Site.run_cons, hcall hnest]
    change ({ s with nest := outer + 2 } : Site).run false _ = some s
    rw [Site.run_append, hinner (s := { s with nest := outer + 2 }) rfl, Option.bind_some,
      Site.run_cons, hcall (s := { s with nest := outer + 2 }) rfl]
    change ({ s with nest := outer + 1 } : Site).run false rest.calls = some s
    rw [hsame hnest]
    exact hrest hnest

/-- Behind an annotation. -/
theorem AnnotationTree.run_calls {s t : Site} (a : AnnotationTree)
    (h : s.next? (.annotationStart a.visibility a.type) = some { t with nest := 1 })
    (hnest : t.nest = 0) : s.run false a.calls = some t := by
  have hopen : s.accept false (.annotationStart a.visibility a.type) =
      some { t with nest := 1 } := h
  have hclose : ({ t with nest := 1 } : Site).accept false .finish = some t := by
    have hnext := Site.next?_of_nest (s := { t with nest := 1 }) rfl .finish
    refine Eq.trans hnext ?_
    change some { t with nest := 0 } = some t
    rw [← hnest]
  rw [calls, Site.run_cons, hopen, Option.bind_some, Site.run_append,
    a.elements.run_calls (s := { t with nest := 1 }) rfl, Option.bind_some, Site.run_singleton,
    hclose]

/-- Behind parts of a method. -/
theorem run_codeParts {s : Site} (hnest : s.nest = 0) {name : Text} {access : Access}
    {paramOpen : Bool} (hhost : s.host = some (.method name access paramOpen))
    (parts : List CodePart) :
    s.run false (parts.flatMap CodePart.calls) =
      (paramOpenAfter? paramOpen parts).map fun paramOpen =>
        { s with host := some (.method name access paramOpen) } := by
  induction parts generalizing s paramOpen with
  | nil =>
    obtain ⟨phase, declared, host, nest⟩ := s
    obtain rfl : host = _ := hhost
    rfl
  | cons part rest ih =>
    rw [List.flatMap_cons, Site.run_append]
    cases part with
    | annotated a =>
      have hnext : s.next? (.annotationStart a.visibility a.type) = some { s with nest := 1 } :=
        Site.next?_of_method hnest hhost _
      have hrun : s.run false (CodePart.annotated a).calls = some s := a.run_calls hnext hnest
      rw [hrun]
      exact ih hnest hhost
    | code call h =>
      have hcall : s.run false (CodePart.code call h).calls =
          s.inMethod? name access paramOpen call :=
        (Site.run_singleton false s call).trans (Site.next?_of_method hnest hhost call)
      rw [hcall]
      cases call with
      | param register label =>
        exact ih (s := { s with host := some (.method name access true) }) hnest rfl
      | paramEnd =>
        cases paramOpen with
        | false => rfl
        | true => exact ih (s := { s with host := some (.method name access false) }) hnest rfl
      | _ => first | exact ih hnest hhost | exact absurd h Bool.false_ne_true

/-- Behind annotations of a field. -/
theorem run_fieldAnnotations {s : Site} (hnest : s.nest = 0) {annotated : Bool}
    (hhost : s.host = some (.field annotated)) (annotations : List AnnotationTree) :
    ∃ annotated, s.run false (annotations.flatMap AnnotationTree.calls) =
      some { s with host := some (.field annotated) } := by
  induction annotations generalizing s annotated with
  | nil =>
    obtain ⟨phase, declared, host, nest⟩ := s
    obtain rfl : host = _ := hhost
    exact ⟨annotated, rfl⟩
  | cons a rest ih =>
    have hnext : s.next? (.annotationStart a.visibility a.type) =
        some { s with host := some (.field true), nest := 1 } :=
      Site.next?_of_field hnest hhost _
    have hrun := a.run_calls (t := { s with host := some (.field true) }) hnext hnest
    rw [List.flatMap_cons, Site.run_append, hrun]
    exact ih (s := { s with host := some (.field true) }) hnest rfl

/-- Behind a member there can be an end. The calls of a member can follow on each other exactly
if it ends no parameter that is not open. -/
theorem MemberTree.run_calls {s : Site} (hs : s.Ends) (m : MemberTree) :
    (m.EndsParams → ∃ s', s.run false m.calls = some s' ∧ s'.Ends) ∧
      (¬m.EndsParams → s.run false m.calls = none) := by
  obtain ⟨hphase, hhost, hnest⟩ := hs
  have hcall : ∀ call, s.accept false call = s.inClass? call :=
    fun call => Site.next?_of_class hnest hhost call
  have hopen : ∀ t : Site, (if s.phase = .start then none else some t) = some t :=
    fun t => if_neg hphase
  cases m with
  | field name access type initial annotations =>
    refine ⟨fun _ => ?_, fun h => absurd trivial h⟩
    let inner : Site :=
      { s with phase := .body, declared := .field name :: s.declared, host := some (.field false) }
    obtain ⟨annotated, hrun⟩ := run_fieldAnnotations (s := inner) hnest rfl annotations
    have hend := Site.accept_endField false
      (s := { inner with host := some (.field annotated) }) hnest rfl
    refine ⟨{ inner with host := none }, ?_, Phase.noConfusion, rfl, hnest⟩
    rw [calls, Site.run_cons, hcall, Site.inClass?, hopen, Option.bind_some, Site.run_append, hrun,
      Option.bind_some, Site.run_singleton, hend]
  | method name access signature parts =>
    let inner : Site := { s with
      phase := .body, declared := .method name signature :: s.declared
      host := some (.method name access false) }
    have hrun : s.run false (MemberTree.method name access signature parts).calls =
        (paramOpenAfter? false parts).map fun _ => { inner with host := none } := by
      have hparts := run_codeParts (s := inner) hnest rfl parts
      rw [calls, Site.run_cons, hcall, Site.inClass?, hopen, Option.bind_some, Site.run_append,
        hparts]
      cases paramOpenAfter? false parts with
      | none => rfl
      | some paramOpen =>
        have hend : ({ inner with host := some (.method name access paramOpen) } : Site).accept
            false .finish = some { inner with host := none } :=
          Site.next?_of_method (s := { inner with host := some (.method name access paramOpen) })
            hnest rfl .finish
        rw [Option.map_some, Option.bind_some, Site.run_singleton, hend]
        rfl
    rw [hrun]
    constructor
    · intro h
      obtain ⟨paramOpen, hopen⟩ := Option.isSome_iff_exists.mp h
      exact ⟨_, congrArg _ hopen, Phase.noConfusion, rfl, hnest⟩
    · intro h
      rw [Option.not_isSome_iff_eq_none.mp h]
      rfl
  | annotated a =>
    refine ⟨fun _ => ⟨{ s with phase := .body }, ?_, Phase.noConfusion, hhost, hnest⟩,
      fun h => absurd trivial h⟩
    exact a.run_calls (t := { s with phase := .body }) ((hcall _).trans (hopen _)) hnest

/-- The calls of members can follow on each other exactly if none ends a parameter that is not
open. -/
theorem run_members {s : Site} (hs : s.Ends) (members : List MemberTree) :
    (∃ s', s.run false (members.flatMap MemberTree.calls) = some s' ∧ s'.Ends) ↔
      ∀ m ∈ members, m.EndsParams := by
  induction members generalizing s with
  | nil => exact iff_of_true ⟨s, rfl, hs⟩ fun m hm => absurd hm List.not_mem_nil
  | cons m rest ih =>
    obtain ⟨hruns, hfails⟩ := m.run_calls hs
    rw [List.flatMap_cons, Site.run_append, List.forall_mem_cons]
    by_cases hm : m.EndsParams
    · obtain ⟨mid, hmid, hends⟩ := hruns hm
      rw [hmid, and_iff_right hm]
      exact ih hends
    · rw [hfails hm]
      exact iff_of_false (fun ⟨_, h, _⟩ => Option.some_ne_none _ h.symm) fun h => hm h.1

/-- The calls of a class can follow on each other exactly if no member ends a parameter that is
not open. -/
theorem ClassTree.run_calls (tree : ClassTree) :
    (∃ s, (Site.initial false).run false tree.calls = some s ∧ s.Ends) ↔
      ∀ m ∈ tree.members, m.EndsParams := by
  let opened : Site := { Site.initial false with phase := .header }
  have hheader : opened.run false (tree.header.map HeaderPart.call) = some opened := by
    induction tree.header with
    | nil => rfl
    | cons part rest ih =>
      cases part <;> exact ih
  have hall : (Site.initial false).run false tree.calls =
      opened.run false (tree.members.flatMap MemberTree.calls) := by
    have hopened : (Site.initial false).run false tree.calls =
        opened.run false
          (tree.header.map HeaderPart.call ++ tree.members.flatMap MemberTree.calls) := rfl
    rw [hopened, Site.run_append, hheader, Option.bind_some]
  rw [hall]
  exact run_members ⟨Phase.noConfusion, rfl, rfl⟩ tree.members

/-! ## Reading a tree back -/

/-- A recorder hears certain calls and the end of the class exactly if the source tells these
calls. -/
theorem exists_heard_iff {o : Options} (h : o.IsPlain) {source : Text} {calls : List Call} :
    (∃ events, heard o source = .ok events ∧
        events.map Recorder.Event.call = calls ++ [.finish]) ↔
      strictCalls o source = some calls := by
  have heq := heard_eq h source
  constructor
  · rintro ⟨events, hheard, hevents⟩
    rw [hheard] at heq
    obtain ⟨told, htold, rfl⟩ := Option.map_eq_some_iff.mp heq.symm
    obtain ⟨s, hrun, -⟩ := run_of_strictCalls htold
    rw [Recorder.calls_eventsOf hrun] at hevents
    rw [htold, List.append_cancel_right hevents]
  · intro htold
    obtain ⟨s, hrun, -⟩ := run_of_strictCalls htold
    exact ⟨_, (heard_eq_iff h hrun).mpr htold, Recorder.calls_eventsOf hrun⟩

/-- The calls of a plain tree are read from the code that is written for them exactly if every
call is readable, no annotation of the class strays and every end of a parameter follows a
parameter that is open. -/
theorem written_tree_heard_iff (tree : ClassTree)
    (hplain : ∀ call ∈ tree.calls, call.HasPlainParts) :
    (∃ events, heard .default (Writer.codeOf tree.calls) = .ok events ∧
        events.map Recorder.Event.call = tree.calls ++ [.finish]) ↔
      (∀ call ∈ tree.calls, call.IsReadable) ∧ ¬Strays tree.calls ∧
        ∀ m ∈ tree.members, m.EndsParams := by
  have hplainOptions : Options.default.IsPlain := ⟨rfl, rfl⟩
  rw [exists_heard_iff hplainOptions, ← tree.run_calls]
  constructor
  · intro hread
    obtain ⟨s, hrun, hs⟩ := run_of_strictCalls hread
    obtain ⟨hreadable, hstrays⟩ := (strictCalls_codeOf_plain_iff hrun hs hplain).mp hread
    exact ⟨hreadable, hstrays, s, hrun, hs⟩
  · rintro ⟨hreadable, hstrays, s, hrun, hs⟩
    exact (strictCalls_codeOf_plain_iff (o := .default) hrun hs hplain).mpr ⟨hreadable, hstrays⟩

/-- A class with a field and with a method whose parameter is annotated. -/
def treeOfMembers : ClassTree where
  type := .object "a"
  access := .none
  header := [.source "a\".smali"]
  members :=
    [.field "x" .none (.primitive .int) (some (.int (-1))) [],
      .method "<init>" .none ⟨[.primitive .int], .void⟩
        [.code (.param "p0" (some "#")) rfl,
          .annotated ⟨.runtime, .object "b", .value "v" (.array [.string "\x7d,"]) .nil⟩,
          .code .paramEnd rfl, .code (.instruction "return-void") rfl]]

/-- The type of a class whose name is an identifier is plain. -/
theorem TypeName.isPlain_object {name : Text} (h : name.IsIdentifier)
    (hname : name.all TypeName.isNameChar = true) : (TypeName.object name).IsPlain :=
  ⟨⟨h.ne_nil, List.all_eq_true.mp hname⟩, fun _ hmem => Option.some.inj hmem ▸ h.isClassName⟩

/-- The tree of the class is plain. -/
theorem written_tree_heard_members :
    (∀ call ∈ treeOfMembers.calls, call.HasPlainParts) ∧
      ((∃ events, heard .default (Writer.codeOf treeOfMembers.calls) = .ok events ∧
          events.map Recorder.Event.call = treeOfMembers.calls ++ [.finish]) ↔
        (∀ call ∈ treeOfMembers.calls, call.IsReadable) ∧ ¬Strays treeOfMembers.calls ∧
          ∀ m ∈ treeOfMembers.members, m.EndsParams) := by
  have hvoid : TypeName.void.IsPlain := ⟨trivial, nofun⟩
  have hint : (TypeName.primitive .int).IsPlain := ⟨trivial, nofun⟩
  have hobject : ∀ {name : Text}, name.IsIdentifier → name.all TypeName.isNameChar = true →
      (TypeName.object name).IsPlain := TypeName.isPlain_object
  have hplain : ∀ call ∈ treeOfMembers.calls, call.HasPlainParts := by
    have hcalls : treeOfMembers.calls =
      [.header (.object "a") .none, .source "a\".smali",
        .field "x" .none (.primitive .int) (some (.int (-1))), .finish,
        .method "<init>" .none ⟨[.primitive .int], .void⟩, .param "p0" (some "#"),
        .annotationStart .runtime (.object "b"), .value "v" (.array [.string "\x7d,"]), .finish,
        .paramEnd, .instruction "return-void", .finish] := rfl
    rw [hcalls]
    simp only [List.forall_mem_cons]
    refine ⟨hobject (by decide) rfl, trivial, ⟨by decide, hint, rfl, ?_⟩, trivial,
      ⟨.inr (.inl rfl), ?_, hvoid⟩, (by decide : Text.IsIdentifier "p0".toList),
      hobject (by decide) rfl, ⟨by decide, .array ?_⟩, trivial, trivial, trivial, trivial,
      List.forall_mem_nil _⟩
    · rintro _ ⟨⟩
      exact .int (-1)
    · exact List.forall_mem_singleton.mpr ⟨hint, rfl⟩
    · exact List.forall_mem_singleton.mpr (.string _)
  exact ⟨hplain, written_tree_heard_iff treeOfMembers hplain⟩

/-- A class with a field without annotations, and with an annotation of the class behind it. -/
def treeThatStrays : ClassTree where
  type := .object "a"
  access := .none
  header := []
  members :=
    [.field "x" .none (.primitive .int) none [], .annotated ⟨.runtime, .object "b", .nil⟩]

/-- Its calls are plain and readable, but the annotation is taken for one of the field. -/
theorem written_tree_strays :
    (∀ call ∈ treeThatStrays.calls, call.HasPlainParts ∧ call.IsReadable) ∧
      heard .default (Writer.codeOf treeThatStrays.calls) =
        .error ⟨.unterminated, "missing .end field", some ⟨3, 1⟩⟩ := by
  have hint : (TypeName.primitive .int).IsPlain := ⟨trivial, nofun⟩
  have hfault : (match heard .default (Writer.codeOf treeThatStrays.calls) with
      | .ok _ => none
      | .error fault => some fault) =
        some ⟨.unterminated, "missing .end field", some ⟨3, 1⟩⟩ := by decide +kernel
  have hheard : heard .default (Writer.codeOf treeThatStrays.calls) =
      .error ⟨.unterminated, "missing .end field", some ⟨3, 1⟩⟩ := by
    generalize heard .default (Writer.codeOf treeThatStrays.calls) = result at hfault
    cases result with
    | ok events => exact absurd hfault (Option.some_ne_none _).symm
    | error fault => exact congrArg Except.error (Option.some.inj hfault)
  refine ⟨?_, hheard⟩
  have hcalls : treeThatStrays.calls =
      [.header (.object "a") .none, .field "x" .none (.primitive .int) none, .finish,
        .annotationStart .runtime (.object "b"), .finish] := rfl
  rw [hcalls]
  simp only [List.forall_mem_cons]
  exact ⟨⟨TypeName.isPlain_object (by decide) rfl, trivial⟩,
    ⟨⟨by decide, hint, rfl, nofun⟩, trivial⟩, ⟨trivial, trivial⟩,
    ⟨TypeName.isPlain_object (by decide) rfl, trivial⟩, ⟨trivial, trivial⟩, List.forall_mem_nil _⟩

end Smali
