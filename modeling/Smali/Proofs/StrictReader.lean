import Smali.Proofs.Sites
import Smali.Proofs.StrictCourse
import Smali.Reader.Run

/-!
# Strict readings as steps

A strict reading without comments goes from line to line without acts and without faults:
a line in a scope stands for one call, which the site has to accept, or it is part of an
array. This module states the step over a line and proves that a strict reader takes it.
-/

namespace Smali

namespace Line

/-! ## Lines as calls -/

/-- The call of a line that opens an annotation. -/
def annotationCall? (l : Line) : Option Call :=
  l.annotationHeader.toOption.map fun (visibility, type) => .annotationStart visibility type

/-- The call of a line at the level of the class. -/
def classCall? (l : Line) : Option Call :=
  match l.directive? with
  | some .ofClass => l.classHeader.toOption.map fun (access, type) => .header type access
  | some .superType => l.singleType.toOption.map .superType
  | some .implements => l.singleType.toOption.map .implements
  | some .source => l.sourceName.toOption.map .source
  | some .field => l.field.toOption.map fun f => .field f.name f.access f.type f.value
  | some .method => l.method.toOption.map fun m => .method m.name m.access m.signature
  | some .annotationStart => l.annotationCall?
  | _ => none

/-- The call of a line of code. -/
def codeCall (l : Line) : Call :=
  match l.text with
  | ':' :: name => .label name
  | text => .instruction text

/-- The call of a closing line in a method. -/
def closingCall? (l : Line) : Option Call :=
  if l.closes "method" then some .finish
  else if l.closes "param" then some .paramEnd
  else if l.closes "local" then l.localRegister.toOption.map .endLocal
  else if l.closes "field" || l.closes "annotation" || l.closes "subannotation" then none
  else some l.codeCall

/-- The call of a handler for exceptions of one type. -/
def catchingCall? (l : Line) : Option Call :=
  l.handler.toOption.bind fun h =>
    (l.parseType h.exception).toOption.map fun exception =>
      .catching exception h.first h.last h.handler

/-- The call of a handler for all exceptions. -/
def catchAllCall? (l : Line) : Option Call :=
  l.handler.toOption.bind fun h =>
    if h.exception.isEmpty then some (.catchAll h.first h.last h.handler) else none

/-- The call of a line in a method. -/
def bodyCall? (l : Line) : Option Call :=
  match l.directive? with
  | none => some l.codeCall
  | some .annotationStart => l.annotationCall?
  | some .closing => l.closingCall?
  | some .registers => l.count.toOption.map .registers
  | some .locals => l.count.toOption.map .locals
  | some .line => l.count.toOption.map .line
  | some .param => l.param.toOption.map fun (register, name) => .param register name
  | some .catching => l.catchingCall?
  | some .catchAll => l.catchAllCall?
  | some .localVariable =>
    l.localVariable.toOption.map fun v => .localVariable v.register v.name v.type v.signature
  | some .restart => l.localRegister.toOption.map .restartLocal
  | some .prologue => some .prologue
  | some .epilogue => some .epilogue
  | some (.other _) => some l.codeCall
  | _ => none

end Line

/-- An array whose braces are not closed yet. -/
structure Braces where
  /-- The name of the element. -/
  name : Text
  /-- The text of the array so far. -/
  text : Text
  /-- Opening less closing braces so far. -/
  depth : Int

/-- What an element line stands for. -/
inductive Element where
  /-- A call. -/
  | call (call : Call)
  /-- The start of an array. -/
  | braces (b : Braces)

/-- What a line stands for as an element. -/
def Line.element? (l : Line) : Option Element :=
  match Text.cut? (· == '=') l.text with
  | none => none
  | some (before, after) =>
    let name := Text.trim before
    let value := Text.trim after
    if name.isEmpty then none
    else
      match Text.after? ".subannotation" value with
      | some descriptor =>
        (l.parseType (Text.trim descriptor)).toOption.map fun type =>
          .call (.subannotationStart name type)
      | none =>
        if value.head? = some '\x7b' ∧ 0 < Literal.braceDepth value then
          some (.braces ⟨name, value, Literal.braceDepth value⟩)
        else (Literal.decode value).toOption.map fun v => .call (.value name v)

/-- The name behind `.end` on the closing line of an annotation with others around it. -/
def closingName : Nat → Text
  | 0 => "annotation"
  | _ + 1 => "subannotation"

/-! ## Steps -/

/-- Where a strict reading stands: at a site, or in an array there. -/
structure Stance where
  /-- The site. -/
  site : Site
  /-- The array that is open. -/
  braces : Option Braces

namespace Stance

/-- Before the first line. -/
def initial (snippet : Bool) : Stance := ⟨.initial snippet, none⟩

/-- A call at a site. -/
def tell (validate : Bool) (s : Site) (call : Call) : Option (Stance × List Call) :=
  (s.accept validate call).map fun s => (⟨s, none⟩, [call])

/-- A line in an array. -/
def inArray? (validate : Bool) (s : Site) (b : Braces) (l : Line) : Option (Stance × List Call) :=
  let text := b.text ++ '\n' :: l.text
  let depth := b.depth + Literal.braceDepth l.text
  if Gathering.isEndedBy l then none
  else if depth ≤ 0 then
    (Literal.decode text).toOption.bind fun v => tell validate s (.value b.name v)
  else some (⟨s, some ⟨b.name, text, depth⟩⟩, [])

/-- A line in an annotation. -/
def inAnnotation? (validate : Bool) (s : Site) (outer : Nat) (l : Line) :
    Option (Stance × List Call) :=
  match l.directive? with
  | none =>
    l.element?.bind fun
      | .call call => tell validate s call
      | .braces b => some (⟨s, some b⟩, [])
  | some _ => if l.closes (closingName outer) then tell validate s .finish else none

/-- A line at the level of the class. -/
def inClass? (validate : Bool) (s : Site) (l : Line) : Option (Stance × List Call) :=
  l.classCall?.bind (tell validate s)

/-- A line in a field. A field without annotations ends before a line that is not its own. -/
def inField? (validate : Bool) (s : Site) (annotated : Bool) (l : Line) :
    Option (Stance × List Call) :=
  if l.closes "field" then tell validate s .finish
  else if l.directive? = some .annotationStart then l.annotationCall?.bind (tell validate s)
  else if annotated then none
  else (inClass? validate { s with host := none } l).map fun (s, calls) => (s, .finish :: calls)

/-- The step over a line, with the calls that it leads to. -/
def take (validate : Bool) (s : Stance) (l : Line) : Option (Stance × List Call) :=
  if l.isComment then some (s, [])
  else
    match s.braces, s.site.nest, s.site.host with
    | some b, _, _ => inArray? validate s.site b l
    | none, outer + 1, _ => inAnnotation? validate s.site outer l
    | none, 0, some (.field annotated) => inField? validate s.site annotated l
    | none, 0, some (.method _ _ _) => l.bodyCall?.bind (tell validate s.site)
    | none, 0, none => inClass? validate s.site l

/-- The steps over lines one after another. A line that cannot be scanned has none. -/
def takeAll (validate : Bool) (s : Stance) : List (Option Line) → Option (Stance × List Call)
  | [] => some (s, [])
  | none :: _ => none
  | some l :: rest =>
    (s.take validate l).bind fun (s, calls) =>
      (s.takeAll validate rest).map fun (s, more) => (s, calls ++ more)

/-- The end of a source: the class ends, and before it a field without annotations. -/
def finish? (s : Stance) : Option (List Call) :=
  if s.site.phase = .start then none
  else
    match s.braces, s.site.nest, s.site.host with
    | none, 0, none => some []
    | none, 0, some (.field false) => some [.finish]
    | _, _, _ => none

/-- The calls of lines up to the end of a source. -/
def readAll (validate : Bool) (s : Stance) (lines : List (Option Line)) : Option (List Call) :=
  (s.takeAll validate lines).bind fun (s, calls) => s.finish?.map (calls ++ ·)

end Stance

/-- The calls about a class before its end, if a strict reading of the source comes to an end. -/
def strictCalls (o : Options) (source : Text) : Option (List Call) :=
  (Stance.initial o.snippet).readAll o.validate ((scanLines source).map Except.toOption)

/-! ## Lines in a method -/

/-- Only a closing line closes a scope. -/
theorem Line.directive?_of_closes {l : Line} {name : Text} (h : l.closes name = true) :
    l.directive? = some .closing := by
  unfold closes endOf? at h
  split at h
  · assumption
  · exact absurd h (by simp)

/-- A line that closes one scope closes no other. -/
theorem Line.closes_unique {l : Line} {name other : Text} (h : l.closes name = true)
    (hne : name ≠ other) : l.closes other = false := by
  have hend : l.endOf? = some name := of_decide_eq_true h
  exact decide_eq_false fun hother => hne (Option.some.inj (hend.symm.trans hother))

/-- What a line in a method can tell, by what the call opens and ends. -/
inductive TellsBody (l : Line) : Call → Prop where
  /-- Code, and what goes with it. -/
  | code {call : Call} (h : call.isBody = true) (hparam : l.directive? ≠ some .param)
    (hend : l.closes "param" = false) : TellsBody l call
  /-- An annotation. -/
  | annotationStart (hd : l.directive? = some .annotationStart) (visibility : Visibility)
    (type : TypeName) : TellsBody l (.annotationStart visibility type)
  /-- The end of the method. -/
  | finish (hend : l.closes "method" = true) : TellsBody l .finish
  /-- A parameter. -/
  | param (hd : l.directive? = some .param) (hl : l.param.isOk = true) (register : Text)
    (name : Option Text) : TellsBody l (.param register name)
  /-- The end of a parameter. -/
  | paramEnd (hend : l.closes "param" = true) : TellsBody l .paramEnd

/-- The call of a closing line in a method. -/
theorem tellsBody_of_closingCall? {l : Line} {call : Call} (hd : l.directive? = some .closing)
    (h : l.closingCall? = some call) : TellsBody l call := by
  have hparam : l.directive? ≠ some .param := by
    rw [hd]
    exact nofun
  unfold Line.closingCall? at h
  split at h
  · exact Option.some.inj h ▸ .finish ‹_›
  · split at h
    · exact Option.some.inj h ▸ .paramEnd ‹_›
    · have hend : l.closes "param" = false := Bool.eq_false_iff.mpr ‹_›
      split at h
      · obtain ⟨register, -, rfl⟩ := Option.map_eq_some_iff.mp h
        exact .code rfl hparam hend
      · split at h
        · exact absurd h (Option.some_ne_none call).symm
        · rw [← Option.some.inj h]
          unfold Line.codeCall
          split <;> exact .code rfl hparam hend

/-- The call of a line in a method. -/
theorem tellsBody_of_bodyCall? {l : Line} {call : Call} (h : l.bodyCall? = some call) :
    TellsBody l call := by
  by_cases hc : l.directive? = some .closing
  · rw [Line.bodyCall?, hc] at h
    exact tellsBody_of_closingCall? hc h
  · have hend : l.closes "param" = false :=
      Bool.eq_false_iff.mpr fun hend => hc (Line.directive?_of_closes hend)
    by_cases hp : l.directive? = some .param
    · rw [Line.bodyCall?, hp] at h
      obtain ⟨a, ha, rfl⟩ := Option.map_eq_some_iff.mp h
      cases hl : l.param with
      | error fault => simp [hl, Except.toOption] at ha
      | ok a => exact .param hp (by rw [hl]; rfl) _ _
    · have hcode : TellsBody l l.codeCall := by
        unfold Line.codeCall
        split <;> exact .code rfl hp hend
      have hmap : ∀ {γ : Type} {r : Option γ} {f : γ → Call},
          (∀ a, (f a).isBody = true) → r.map f = some call → TellsBody l call := by
        intro γ r f hf hr
        obtain ⟨a, -, rfl⟩ := Option.map_eq_some_iff.mp hr
        exact .code (hf a) hp hend
      unfold Line.bodyCall? at h
      split at h
      · exact Option.some.inj h ▸ hcode
      · obtain ⟨a, -, rfl⟩ := Option.map_eq_some_iff.mp h
        exact .annotationStart ‹_› _ _
      · exact absurd ‹_› hc
      · exact hmap (fun _ => rfl) h
      · exact hmap (fun _ => rfl) h
      · exact hmap (fun _ => rfl) h
      · exact absurd ‹_› hp
      · obtain ⟨a, -, h⟩ := Option.bind_eq_some_iff.mp h
        exact hmap (fun _ => rfl) h
      · obtain ⟨a, -, h⟩ := Option.bind_eq_some_iff.mp h
        split at h
        · exact Option.some.inj h ▸ .code rfl hp hend
        · exact absurd h (Option.some_ne_none call).symm
      · exact hmap (fun _ => rfl) h
      · exact hmap (fun _ => rfl) h
      · exact Option.some.inj h ▸ .code rfl hp hend
      · exact Option.some.inj h ▸ .code rfl hp hend
      · exact Option.some.inj h ▸ hcode
      · exact absurd h (Option.some_ne_none call).symm

/-- Such calls open nothing and end nothing. -/
theorem Call.isBody_iff {call : Call} (h : call.isBody = true) :
    call.opens? = none ∧ call.kind ≠ .paramEnd ∧ call ≠ .finish ∧
      call.moves = [.tell call] := by
  cases call <;> first | exact absurd h Bool.false_ne_true | exact ⟨rfl, nofun, nofun, rfl⟩

/-! ## Passages as calls -/

section Passages

variable {o : Options} {α β : Type}

/-- The course in which a call is made, unless it fails the checks. -/
def Course.told (o : Options) (s : Site) (call : Call) (a : α) : Course α :=
  guard o (s.allows call) (some (a, call.moves))

/-- A result with a call goes on with it. -/
theorem Course.told_andThen (s : Site) (call : Call) (a : α) (f : α → β) :
    ((Course.told o s call a).andThen fun a => Course.still (f a)) = Course.told o s call (f a) := by
  simp [told, still]

/-- A call without checks. -/
theorem Course.told_of_allows {s : Site} {call : Call} (hallows : s.allows call = true) (a : α) :
    Course.told o s call a = some (a, call.moves) := by
  rw [told, hallows, guard_true]

/-- A line with a call and a comment behind it. -/
theorem course_tellLine (h : o.IsPlain) (l : Line) (call : Call) :
    Passage.course o (Passage.tellLine l call) = some ((), [.tell call]) := by
  simp [Passage.tellLine, Passage.course_remark h, Course.still]

/-- The checks on a value. -/
theorem course_checkValue (position : Position) (value : Value) :
    Passage.course o (Passage.checkValue position value) =
      Course.guard o value.objections.isEmpty (Course.still ()) := by
  unfold Passage.checkValue
  cases value.objections with
  | nil => simp
  | cons details more => simp

/-- A type, a condition on it, and a call for the line. -/
theorem course_checkedType (h : o.IsPlain) (s : Site) (l : Line) (what : Text)
    (result : Except Fault α) (type : α → TypeName) (call : α → Call)
    (hallows : ∀ a, s.allows (call a) = (type a).isObject)
    (hmoves : ∀ a, (call a).moves = [.tell (call a)]) :
    Passage.course o (do
      let a ← Passage.ofExcept result
      Passage.checkObject l what (type a)
      Passage.tellLine l (call a)) =
      (result.toOption.map call).bind fun call => Course.told o s call () := by
  cases result with
  | error fault => rfl
  | ok a =>
    simp [Passage.checkObject, Passage.check, course_tellLine h, Except.toOption, Course.told,
      hallows, hmoves]

/-- A line of the class header. -/
theorem course_headerLine (h : o.IsPlain) (s : Site) {l : Line} {d : Directive}
    (hl : l.directive? = some d)
    (hd : d = .ofClass ∨ d = .superType ∨ d = .implements ∨ d = .source) :
    Passage.course o (headerLine l d) =
      l.classCall?.bind fun call => Course.told o s call () := by
  unfold Line.classCall?
  rw [hl]
  rcases hd with rfl | rfl | rfl | rfl
  · exact course_checkedType h s l "class type" l.classHeader (·.2)
      (fun (access, type) => .header type access) (fun _ => rfl) fun _ => rfl
  · exact course_checkedType h s l "super type" l.singleType id .superType (fun _ => rfl)
      fun _ => rfl
  · exact course_checkedType h s l "interface" l.singleType id .implements (fun _ => rfl)
      fun _ => rfl
  · cases hc : l.sourceName with
    | error fault => simp [headerLine, hc, Except.toOption]
    | ok name =>
      simp only [headerLine, hc, Passage.course_bind, Passage.course_ofExcept, Except.toOption,
        Option.map_some, Course.some_andThen, course_tellLine h, Option.bind_some]
      rw [Course.told_of_allows (by rfl)]
      rfl

/-- The annotation of a line is gone into. -/
theorem course_openAnnotationScope (h : o.IsPlain) (s : Site) (l : Line) :
    Passage.course o (openAnnotationScope l) =
      l.annotationCall?.bind fun call =>
        Course.told o s call (.annotationBody l.position "annotation") := by
  unfold openAnnotationScope
  rw [Passage.course_outcome_bind _ _ fun fault => ?_]
  · unfold annotationHeader Line.annotationCall?
    cases l.annotationHeader with
    | error fault => rfl
    | ok header =>
      simp only [Passage.course_bind, Passage.course_ofExcept, Except.toOption, Option.map_some,
        Course.some_andThen, Passage.checkObject, Passage.check, Passage.course_require,
        Course.guard_andThen, Course.map_guard, Passage.course_pure, Option.bind_some,
        Passage.course_enter h, Course.told]
      rfl
  · simp [Passage.course_excuse h.strict]

/-- The condition that a method may have code. -/
theorem course_checkCode {s : Site} {m : OpenMethod} {paramOpen : Bool}
    (hs : s.host = some (.method m.name m.access paramOpen)) (l : Line) :
    Passage.course o (Passage.checkCode l m) = Course.guard o s.allowsCode (.still ()) := by
  have hcode : s.allowsCode = !(m.access.has .isAbstract || m.access.has .isNative) := by
    simp only [Site.allowsCode, hs]
  rw [hcode]
  exact Passage.course_require _ _

/-- A call behind that condition. -/
theorem told_of_allowsCode {s : Site} {call : Call} (hallows : s.allows call = s.allowsCode)
    (hmoves : call.moves = [.tell call]) :
    Course.told o s call () = Course.guard o s.allowsCode (some ((), [.tell call])) := by
  rw [Course.told, hallows, hmoves]

/-- A line of code. -/
theorem course_codeLine (h : o.IsPlain) {s : Site} {m : OpenMethod} {paramOpen : Bool}
    (hs : s.host = some (.method m.name m.access paramOpen)) (l : Line) :
    Passage.course o (codeLine m l) = Course.told o s l.codeCall () := by
  have hcode : s.allows l.codeCall = s.allowsCode ∧ l.codeCall.moves = [.tell l.codeCall] := by
    unfold Line.codeCall
    split <;> exact ⟨rfl, rfl⟩
  unfold codeLine
  rw [told_of_allowsCode hcode.1 hcode.2, Passage.course_bind, course_checkCode hs,
    Course.guard_andThen, Course.still_andThen, course_tellLine h]
  rfl

/-- A result that was found without acts, and a call for the line. -/
theorem course_read (h : o.IsPlain) {s : Site} (l : Line) (result : Except Fault α)
    (call : α → Call) (hallows : ∀ a, s.allows (call a) = true)
    (hmoves : ∀ a, (call a).moves = [.tell (call a)]) :
    Passage.course o (do Passage.tellLine l (call (← Passage.ofExcept result))) =
      (result.toOption.map call).bind fun call => Course.told o s call () := by
  cases result with
  | error fault => rfl
  | ok a => simp [course_tellLine h, Except.toOption, Course.told, hallows, hmoves]

/-- The same behind the condition that there may be code. -/
theorem course_readCode (h : o.IsPlain) {s : Site} {m : OpenMethod} {paramOpen : Bool}
    (hs : s.host = some (.method m.name m.access paramOpen)) (l : Line)
    (result : Except Fault α) (call : α → Call)
    (hallows : ∀ a, s.allows (call a) = s.allowsCode)
    (hmoves : ∀ a, (call a).moves = [.tell (call a)]) :
    Passage.course o (do
      Passage.checkCode l m
      Passage.tellLine l (call (← Passage.ofExcept result))) =
      (result.toOption.map call).bind fun call => Course.told o s call () := by
  rw [Passage.course_bind, course_checkCode hs, Course.guard_andThen, Course.still_andThen]
  cases result with
  | error fault => exact Course.guard_none _
  | ok a =>
    rw [Passage.course_bind, Passage.course_ofExcept]
    simp only [Except.toOption, Option.map_some, Course.some_andThen, course_tellLine h,
      Option.bind_some]
    exact (told_of_allowsCode (hallows a) (hmoves a)).symm

/-- A line with a handler for exceptions of one type. -/
theorem course_catchingLine (h : o.IsPlain) {s : Site} {m : OpenMethod} {paramOpen : Bool}
    (hs : s.host = some (.method m.name m.access paramOpen)) (l : Line) :
    Passage.course o (catchingLine m l) =
      l.catchingCall?.bind fun call => Course.told o s call () := by
  have htold : ∀ type first last handler,
      Course.told o s (.catching type first last handler) () =
        Course.guard o s.allowsCode (Course.guard o type.isObject
          (some ((), [.tell (.catching type first last handler)]))) :=
    fun type first last handler => Course.guard_and _ _ _
  unfold catchingLine Line.catchingCall?
  rw [Passage.course_bind, course_checkCode hs, Course.guard_andThen, Course.still_andThen]
  cases l.handler with
  | error fault => exact Course.guard_none _
  | ok a =>
    cases hp : l.parseType a.exception with
    | error fault =>
      simp only [Passage.course_bind, Passage.course_ofExcept, Except.toOption, hp,
        Option.map_some, Option.map_none, Option.bind_some, Option.bind_none,
        Course.some_andThen, Course.none_andThen, Course.guard_none]
    | ok type =>
      simp only [Passage.course_bind, Passage.checkObject, Passage.check,
        Passage.course_require, Passage.course_ofExcept, Except.toOption, hp, Option.map_some,
        Option.bind_some, Course.some_andThen, Course.guard_andThen, Course.still_andThen,
        Course.map_guard, course_tellLine h, List.nil_append, htold]

/-- A line with a handler for all exceptions. -/
theorem course_catchAllLine (h : o.IsPlain) {s : Site} {m : OpenMethod} {paramOpen : Bool}
    (hs : s.host = some (.method m.name m.access paramOpen)) (l : Line) :
    Passage.course o (catchAllLine m l) =
      l.catchAllCall?.bind fun call => Course.told o s call () := by
  unfold catchAllLine Line.catchAllCall?
  rw [Passage.course_bind, course_checkCode hs, Course.guard_andThen, Course.still_andThen]
  cases l.handler with
  | error fault => exact Course.guard_none _
  | ok a =>
    rw [Passage.course_bind, Passage.course_ofExcept]
    simp only [Except.toOption, Option.map_some, Course.some_andThen, Option.bind_some]
    cases a.exception.isEmpty with
    | false => exact Course.guard_none _
    | true =>
      simp only [if_true, course_tellLine h, Option.map_some, Option.bind_some]
      exact (told_of_allowsCode rfl rfl).symm

/-- A closing line in a method, the end of the method aside. -/
theorem course_closingLine (h : o.IsPlain) {s : Site} {m : OpenMethod}
    (hs : s.host = some (.method m.name m.access m.paramOpen)) {l : Line}
    (hl : l.closes "method" = false) :
    Passage.course o (closingLine m l) =
      l.closingCall?.bind fun call =>
        if call.kind = .paramEnd ∧ m.paramOpen = false then none else Course.told o s call () := by
  have htold : ∀ call : Call, call.kind ≠ .paramEnd →
      (if call.kind = .paramEnd ∧ m.paramOpen = false then none else Course.told o s call ()) =
        Course.told o s call () := fun call hk => if_neg fun hc => hk hc.1
  unfold closingLine Line.closingCall?
  rw [hl]
  rw [if_neg Bool.false_ne_true]
  by_cases hparam : l.closes "param"
  · rw [if_pos hparam, if_pos hparam, Option.bind_some]
    cases hp : m.paramOpen with
    | true =>
      rw [if_pos rfl, if_neg fun hc => Bool.noConfusion hc.2, Course.told_of_allows (by rfl)]
      exact course_tellLine h l .paramEnd
    | false => rfl
  · rw [if_neg hparam, if_neg hparam]
    by_cases hlocal : l.closes "local"
    · rw [if_pos hlocal, if_pos hlocal,
        course_read h (s := s) l l.localRegister .endLocal (fun _ => rfl) fun _ => rfl]
      cases l.localRegister with
      | error fault => rfl
      | ok register => exact (htold (.endLocal register) nofun).symm
    · rw [if_neg hlocal, if_neg hlocal]
      split
      · rfl
      · rw [course_codeLine h hs, Option.bind_some, htold]
        unfold Line.codeCall
        split <;> exact nofun

/-- A line with a directive in a method, annotations and closing lines aside. -/
theorem course_directiveLine (h : o.IsPlain) {s : Site} {m : OpenMethod} {paramOpen : Bool}
    (hs : s.host = some (.method m.name m.access paramOpen)) {l : Line} {d : Directive}
    (hd : l.directive? = some d) (ha : d ≠ .annotationStart) (hc : d ≠ .closing) :
    Passage.course o (directiveLine m l d) =
      l.bodyCall?.bind fun call => Course.told o s call () := by
  unfold Line.bodyCall?
  rw [hd]
  cases d with
  | annotationStart => exact absurd rfl ha
  | closing => exact absurd rfl hc
  | registers => exact course_readCode h hs l l.count .registers (fun _ => rfl) fun _ => rfl
  | locals => exact course_readCode h hs l l.count .locals (fun _ => rfl) fun _ => rfl
  | line => exact course_read h l l.count .line (fun _ => rfl) fun _ => rfl
  | param =>
    exact course_read h l l.param (fun (register, name) => .param register name) (fun _ => rfl)
      fun _ => rfl
  | catching => exact course_catchingLine h hs l
  | catchAll => exact course_catchAllLine h hs l
  | localVariable =>
    exact course_read h l l.localVariable
      (fun v => .localVariable v.register v.name v.type v.signature) (fun _ => rfl) fun _ => rfl
  | restart => exact course_read h l l.localRegister .restartLocal (fun _ => rfl) fun _ => rfl
  | prologue =>
    rw [Option.bind_some, Course.told_of_allows (by rfl)]
    exact course_tellLine h l .prologue
  | epilogue =>
    rw [Option.bind_some, Course.told_of_allows (by rfl)]
    exact course_tellLine h l .epilogue
  | other keyword => exact course_codeLine h hs l
  | _ => rfl

/-- A line of the body of a method, with the frame that it opens. -/
theorem course_bodyLine (h : o.IsPlain) {s : Site} {m : OpenMethod}
    (hs : s.host = some (.method m.name m.access m.paramOpen)) {l : Line}
    (hl : l.closes "method" = false) :
    Passage.course o (bodyLine m l) =
      l.bodyCall?.bind fun call =>
        if call.kind = .paramEnd ∧ m.paramOpen = false then none
        else Course.told o s call
          (call.opens?.map fun _ => .annotationBody l.position "annotation") := by
  -- A line that opens nothing: the call is told, and there is no frame.
  have htell : ∀ {p : Passage Unit} {r : Option Call} {P : Call → Prop} [DecidablePred P],
      (∀ call ∈ r, call.opens? = none) →
      Passage.course o p = r.bind
        (fun call => if P call then none else Course.told o s call ()) →
      Passage.course o (do
        p
        return none : Passage (Option Frame)) = r.bind fun call =>
          if P call then none
          else Course.told o s call
            (call.opens?.map fun _ => .annotationBody l.position "annotation") := by
    intro p r P _ hr hp
    rw [Passage.course_bind, hp]
    cases r with
    | none => rfl
    | some call =>
      rw [Option.bind_some, Option.bind_some, hr call rfl]
      split
      · rfl
      · exact Course.told_andThen s call () fun _ => none
  by_cases hc : l.directive? = some .closing
  · have hbody : l.bodyCall? = l.closingCall? := by rw [Line.bodyCall?, hc]
    rw [hbody]
    unfold bodyLine
    rw [hc]
    refine htell (fun call hr => ?_) (course_closingLine h hs hl)
    cases tellsBody_of_closingCall? hc hr with
    | code hcode => exact (Call.isBody_iff hcode).1
    | annotationStart hd => exact absurd (hd.symm.trans hc) nofun
    | _ => rfl
  · by_cases ha : l.directive? = some .annotationStart
    · unfold bodyLine Line.bodyCall?
      rw [ha, Passage.course_bind, course_openAnnotationScope h s]
      cases hr : l.annotationCall? with
      | none => rfl
      | some call =>
        have hcall : call.kind ≠ .paramEnd ∧ call.opens? = some .ofAnnotationBody := by
          obtain ⟨header, -, rfl⟩ := Option.map_eq_some_iff.mp hr
          exact ⟨nofun, rfl⟩
        rw [Option.bind_some, Option.bind_some, if_neg fun hk => hcall.1 hk.1, hcall.2]
        exact Course.told_andThen s _ _ some
    · have hkind : ∀ call ∈ l.bodyCall?, call.opens? = none ∧ call.kind ≠ .paramEnd := by
        intro call hr
        cases tellsBody_of_bodyCall? hr with
        | code hcode => exact ⟨(Call.isBody_iff hcode).1, (Call.isBody_iff hcode).2.1⟩
        | annotationStart hd => exact absurd hd ha
        | finish hend => exact absurd (Line.directive?_of_closes hend) hc
        | param => exact ⟨rfl, nofun⟩
        | paramEnd hend => exact absurd (Line.directive?_of_closes hend) hc
      have hplain : ∀ {p : Passage Unit},
          Passage.course o p = l.bodyCall?.bind (fun call => Course.told o s call ()) →
          Passage.course o p = l.bodyCall?.bind fun call =>
            if call.kind = .paramEnd ∧ m.paramOpen = false then none
            else Course.told o s call () := by
        intro p hp
        rw [hp]
        cases hr : l.bodyCall? with
        | none => rfl
        | some call => exact (if_neg fun hk => (hkind call hr).2 hk.1).symm
      have hopens : ∀ call ∈ l.bodyCall?, call.opens? = none := fun call hr => (hkind call hr).1
      unfold bodyLine
      cases hd : l.directive? with
      | none =>
        refine htell hopens (hplain ?_)
        rw [Line.bodyCall?, hd]
        exact course_codeLine h hs l
      | some d =>
        have hline := hplain (course_directiveLine h hs hd (fun hd' => ha (hd' ▸ hd))
          fun hd' => hc (hd' ▸ hd))
        cases d with
        | annotationStart => exact absurd hd ha
        | closing => exact absurd hd hc
        | _ => exact htell hopens hline

end Passages

end Smali
