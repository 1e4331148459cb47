import Smali.Proofs.Rehearsal
import Smali.Reader.Step

/-!
# Sites

Which call can follow on others depends on what the calls before it have opened: the phase
of the class, the member that is open, and the annotations that are open in it. A site
holds this much. The semantic checks look at nothing but the site and the call either.
-/

namespace Smali

/-- How far the calls at the level of a class have come. -/
inductive Phase where
  /-- Before the class itself. -/
  | start
  /-- In its header. -/
  | header
  /-- Among its members. -/
  | body
  deriving DecidableEq

/-- The stage of a reader. -/
def Phase.stage : Phase → Stage
  | .start => .start
  | .header => .header
  | .body => .body

/-- A member that is open. -/
inductive Host where
  /-- A field, and whether an annotation was opened in it. -/
  | field (annotated : Bool)
  /-- A method, with its name and flags, and whether a parameter is open in it. -/
  | method (name : Text) (access : Access) (paramOpen : Bool)

/-- Whether a call is told in a method without opening or ending anything. -/
def Call.isBody : Call → Bool
  | .registers _ | .locals _ | .line _ | .label _ | .instruction _ | .catching _ _ _ _
  | .catchAll _ _ _ | .localVariable _ _ _ _ | .endLocal _ | .restartLocal _ | .prologue
  | .epilogue => true
  | _ => false

/-- What the calls about a class have led to. -/
structure Site where
  /-- How far the calls at the level of the class have come. -/
  phase : Phase
  /-- The members so far. -/
  declared : List Member
  /-- The member that is open. -/
  host : Option Host
  /-- How many annotations are open. All but the outermost are nested. -/
  nest : Nat

namespace Site

/-- Before the first call. -/
def initial (snippet : Bool) : Site := ⟨if snippet then .body else .start, [], none, 0⟩

/-- How many annotations are open after a call in the innermost of them. -/
def nestNext? (outer : Nat) : Call → Option Nat
  | .value _ _ => some (outer + 1)
  | .subannotationStart _ _ => some (outer + 2)
  | .finish => some outer
  | _ => none

/-- The site after a call at the level of the class. -/
def inClass? (s : Site) : Call → Option Site
  | .header _ _ => if s.phase = .start then some { s with phase := .header } else none
  | .superType _ | .implements _ | .source _ => if s.phase = .header then some s else none
  | .field name _ _ _ =>
    if s.phase = .start then none
    else some { s with
      phase := .body
      declared := .field name :: s.declared
      host := some (.field false) }
  | .method name access signature =>
    if s.phase = .start then none
    else some { s with
      phase := .body
      declared := .method name signature :: s.declared
      host := some (.method name access false) }
  | .annotationStart _ _ =>
    if s.phase = .start then none else some { s with phase := .body, nest := 1 }
  | _ => none

/-- The site after a call in a field. -/
def inField? (s : Site) : Call → Option Site
  | .annotationStart _ _ => some { s with host := some (.field true), nest := 1 }
  | .finish => some { s with host := none }
  | _ => none

/-- The site after a call in a method. -/
def inMethod? (s : Site) (name : Text) (access : Access) (paramOpen : Bool) : Call → Option Site
  | .annotationStart _ _ => some { s with nest := 1 }
  | .finish => some { s with host := none }
  | .param _ _ => some { s with host := some (.method name access true) }
  | .paramEnd =>
    if paramOpen then some { s with host := some (.method name access false) } else none
  | call => if call.isBody then some s else none

/-- The site after a call, if the call can follow. -/
def next? (s : Site) (call : Call) : Option Site :=
  match s.nest, s.host with
  | outer + 1, _ => (nestNext? outer call).map fun nest => { s with nest := nest }
  | 0, some (.field _) => s.inField? call
  | 0, some (.method name access paramOpen) => s.inMethod? name access paramOpen call
  | 0, none => s.inClass? call

/-- In an annotation. -/
theorem next?_of_nest {s : Site} {outer : Nat} (hnest : s.nest = outer + 1) (call : Call) :
    s.next? call = (nestNext? outer call).map fun nest => { s with nest := nest } := by
  simp only [next?, hnest]

/-- In a field. -/
theorem next?_of_field {s : Site} {annotated : Bool} (hnest : s.nest = 0)
    (hs : s.host = some (.field annotated)) (call : Call) : s.next? call = s.inField? call := by
  simp only [next?, hnest, hs]

/-- In a method. -/
theorem next?_of_method {s : Site} {name : Text} {access : Access} {paramOpen : Bool}
    (hnest : s.nest = 0) (hs : s.host = some (.method name access paramOpen)) (call : Call) :
    s.next? call = s.inMethod? name access paramOpen call := by
  simp only [next?, hnest, hs]

/-- At the level of the class. -/
theorem next?_of_class {s : Site} (hnest : s.nest = 0) (hs : s.host = none) (call : Call) :
    s.next? call = s.inClass? call := by
  simp only [next?, hnest, hs]

/-- Whether the method that is open may have code. -/
def allowsCode (s : Site) : Bool :=
  match s.host with
  | some (.method _ access _) => !(access.has .isAbstract || access.has .isNative)
  | _ => true

/-- Whether a call passes the semantic checks. -/
def allows (s : Site) : Call → Bool
  | .header type _ | .superType type | .implements type | .annotationStart _ type
  | .subannotationStart _ type => type.isObject
  | .field name _ type value =>
    (match value with
      | some v => v.isAssignableTo type && v.objections.isEmpty
      | none => true) && !s.declared.contains (.field name)
  | .method name _ signature =>
    (!(name = "<clinit>".toList || name = "<init>".toList) || signature.result.isVoid) &&
      (!(name = "<clinit>".toList) || signature.params.isEmpty) &&
      !s.declared.contains (.method name signature)
  | .registers _ | .locals _ | .label _ | .instruction _ | .catchAll _ _ _ => s.allowsCode
  | .catching exception _ _ _ => s.allowsCode && exception.isObject
  | .value _ value => value.objections.isEmpty
  | _ => true

/-- The site after a call, if the call can follow and passes the checks that are made. -/
def accept (validate : Bool) (s : Site) (call : Call) : Option Site :=
  if validate && !s.allows call then none else s.next? call

/-- A call that is accepted can follow. -/
theorem next?_of_accept {validate : Bool} {s s' : Site} {call : Call}
    (h : s.accept validate call = some s') : s.next? call = some s' := by
  unfold accept at h
  split at h
  · exact absurd h (Option.some_ne_none _).symm
  · exact h

/-- The site after calls one after another. -/
def run (validate : Bool) (s : Site) (calls : List Call) : Option Site :=
  calls.foldlM (accept validate) s

/-- The site after two portions of calls. -/
theorem run_append (validate : Bool) (s : Site) (first second : List Call) :
    s.run validate (first ++ second) = (s.run validate first).bind (·.run validate second) :=
  List.foldlM_append

end Site

/-- The moves of a call inside the class. -/
def Call.moves (call : Call) : List Move :=
  match call with
  | .finish => [.tell .finish, .leave]
  | call => if call.opens?.isSome then [.enter call] else [.tell call]

/-- The moves of calls one after another. -/
theorem Desk.makeAll_cons {σ κ : Type} (L : Listener σ κ) (d : Desk σ κ) (call : Call)
    (rest : List Call) :
    d.makeAll L ((call :: rest).flatMap Call.moves) =
      (d.makeAll L call.moves).makeAll L (rest.flatMap Call.moves) := by
  rw [List.flatMap_cons, makeAll_append]

/-- Whether a call belongs to the header of a class. -/
def Call.isHeader : Call → Bool
  | .header _ _ | .superType _ | .implements _ | .source _ => true
  | _ => false

namespace Site

/-- All that a call can lead to. -/
inductive Step (s : Site) : Call → Site → Prop where
  /-- A line of the class header. -/
  | header {call : Call} (hnest : s.nest = 0) (hhost : s.host = none)
    (hcall : call.isHeader = true) (hphase : s.phase ≠ .body) :
    Step s call { s with phase := .header }
  /-- A field opens. -/
  | field (hnest : s.nest = 0) (hhost : s.host = none) (hphase : s.phase ≠ .start) (name : Text)
    (access : Access) (type : TypeName) (v : Option Value) :
    Step s (.field name access type v) { s with
      phase := .body
      declared := .field name :: s.declared
      host := some (.field false) }
  /-- A method opens. -/
  | method (hnest : s.nest = 0) (hhost : s.host = none) (hphase : s.phase ≠ .start) (name : Text)
    (access : Access) (signature : Signature) :
    Step s (.method name access signature) { s with
      phase := .body
      declared := .method name signature :: s.declared
      host := some (.method name access false) }
  /-- An annotation of the class opens. -/
  | annotationOfClass (hnest : s.nest = 0) (hhost : s.host = none) (hphase : s.phase ≠ .start)
    (visibility : Visibility) (type : TypeName) :
    Step s (.annotationStart visibility type) { s with phase := .body, nest := 1 }
  /-- An annotation of a field opens. -/
  | annotationOfField {annotated : Bool} (hnest : s.nest = 0)
    (hhost : s.host = some (.field annotated)) (visibility : Visibility) (type : TypeName) :
    Step s (.annotationStart visibility type)
      { s with host := some (.field true), nest := 1 }
  /-- A field ends. -/
  | endField {annotated : Bool} (hnest : s.nest = 0) (hhost : s.host = some (.field annotated)) :
    Step s .finish { s with host := none }
  /-- An annotation of a method opens. -/
  | annotationOfMethod {name : Text} {access : Access} {paramOpen : Bool} (hnest : s.nest = 0)
    (hhost : s.host = some (.method name access paramOpen)) (visibility : Visibility)
    (type : TypeName) : Step s (.annotationStart visibility type) { s with nest := 1 }
  /-- A method ends. -/
  | endMethod {name : Text} {access : Access} {paramOpen : Bool} (hnest : s.nest = 0)
    (hhost : s.host = some (.method name access paramOpen)) : Step s .finish { s with host := none }
  /-- A parameter opens. -/
  | param {name : Text} {access : Access} {paramOpen : Bool} (hnest : s.nest = 0)
    (hhost : s.host = some (.method name access paramOpen)) (register : Text)
    (label : Option Text) :
    Step s (.param register label) { s with host := some (.method name access true) }
  /-- A parameter ends. -/
  | paramEnd {name : Text} {access : Access} (hnest : s.nest = 0)
    (hhost : s.host = some (.method name access true)) :
    Step s .paramEnd { s with host := some (.method name access false) }
  /-- Code, and what goes with it. -/
  | body {name : Text} {access : Access} {paramOpen : Bool} {call : Call} (hnest : s.nest = 0)
    (hhost : s.host = some (.method name access paramOpen)) (hcall : call.isBody = true) :
    Step s call s
  /-- An annotation element. -/
  | value {outer : Nat} (hnest : s.nest = outer + 1) (name : Text) (v : Value) :
    Step s (.value name v) s
  /-- A nested annotation opens. -/
  | nested {outer : Nat} (hnest : s.nest = outer + 1) (name : Text) (type : TypeName) :
    Step s (.subannotationStart name type) { s with nest := outer + 2 }
  /-- An annotation ends. -/
  | annotationEnd {outer : Nat} (hnest : s.nest = outer + 1) :
    Step s .finish { s with nest := outer }

/-- What a call leads to at the level of the class. -/
theorem step_of_inClass? {s s' : Site} {call : Call} (hnest : s.nest = 0) (hhost : s.host = none)
    (h : s.inClass? call = some s') : Step s call s' := by
  have hbody : ∀ {a : Site}, (if s.phase = .start then none else some a) = some s' →
      s.phase ≠ .start ∧ a = s' := by
    intro a ha
    split at ha
    · exact absurd ha (Option.some_ne_none _).symm
    · exact ⟨‹_›, Option.some.inj ha⟩
  have hheader : call.isHeader = true → (if s.phase = .header then some s else none) = some s' →
      Step s call s' := by
    intro hcall ha
    split at ha
    · rename_i hphase
      obtain rfl := Option.some.inj ha
      have hs : { s with phase := .header } = s := by rw [← hphase]
      have hstep : Step s call { s with phase := .header } :=
        .header hnest hhost hcall (by rw [hphase]; exact nofun)
      rwa [hs] at hstep
    · exact absurd ha (Option.some_ne_none _).symm
  cases call with
  | header type access =>
    unfold inClass? at h
    dsimp only at h
    split at h
    · rename_i hphase
      obtain rfl := Option.some.inj h
      exact .header hnest hhost rfl (by rw [hphase]; exact nofun)
    · exact absurd h (Option.some_ne_none _).symm
  | superType type => exact hheader rfl h
  | implements type => exact hheader rfl h
  | source name => exact hheader rfl h
  | field name access type value =>
    obtain ⟨hphase, rfl⟩ := hbody h
    exact .field hnest hhost hphase name access type value
  | method name access signature =>
    obtain ⟨hphase, rfl⟩ := hbody h
    exact .method hnest hhost hphase name access signature
  | annotationStart visibility type =>
    obtain ⟨hphase, rfl⟩ := hbody h
    exact .annotationOfClass hnest hhost hphase visibility type
  | _ => exact absurd h (Option.some_ne_none _).symm

/-- What a call leads to. -/
theorem step_of_next? {s s' : Site} {call : Call} (h : s.next? call = some s') :
    Step s call s' := by
  cases hnest : s.nest with
  | succ outer =>
    rw [next?_of_nest hnest] at h
    obtain ⟨nest, hnext, rfl⟩ := Option.map_eq_some_iff.mp h
    cases call with
    | value name v =>
      obtain rfl := Option.some.inj hnext
      rw [← hnest]
      exact .value hnest name v
    | subannotationStart name type =>
      obtain rfl := Option.some.inj hnext
      exact .nested hnest name type
    | finish =>
      obtain rfl := Option.some.inj hnext
      exact .annotationEnd hnest
    | _ => exact absurd hnext (Option.some_ne_none _).symm
  | zero =>
    cases hhost : s.host with
    | none =>
      rw [next?_of_class hnest hhost] at h
      exact step_of_inClass? hnest hhost h
    | some host =>
      cases host with
      | field annotated =>
        rw [next?_of_field hnest hhost] at h
        cases call with
        | annotationStart visibility type =>
          obtain rfl := Option.some.inj h
          exact .annotationOfField hnest hhost visibility type
        | finish =>
          obtain rfl := Option.some.inj h
          exact .endField hnest hhost
        | _ => exact absurd h (Option.some_ne_none _).symm
      | method name access paramOpen =>
        rw [next?_of_method hnest hhost] at h
        cases call with
        | annotationStart visibility type =>
          obtain rfl := Option.some.inj h
          exact .annotationOfMethod hnest hhost visibility type
        | finish =>
          obtain rfl := Option.some.inj h
          exact .endMethod hnest hhost
        | param register label =>
          obtain rfl := Option.some.inj h
          exact .param hnest hhost register label
        | paramEnd =>
          cases paramOpen with
          | false => exact absurd h (Option.some_ne_none _).symm
          | true =>
            obtain rfl := Option.some.inj h
            exact .paramEnd hnest hhost
        | _ =>
          first
          | exact absurd h (Option.some_ne_none _).symm
          | exact Option.some.inj h ▸ .body hnest hhost rfl

/-- How many scopes are open inside the class. -/
def depth (s : Site) : Nat := s.nest + s.host.toList.length

/-- What a call opens and ends. -/
inductive Leads (call : Call) (before after : Nat) : Prop where
  /-- It ends a scope. -/
  | finish (h : call = .finish) (hdepth : before = after + 1)
  /-- It opens a scope. -/
  | enter (hmoves : call.moves = [.enter call]) (hopens : call.opens?.isSome = true)
    (hdepth : after = before + 1)
  /-- It does neither. -/
  | tell (hmoves : call.moves = [.tell call]) (hdepth : after = before)

/-- The scopes that are open after a call. -/
theorem leads_of_next? {s s' : Site} {call : Call} (h : s.next? call = some s') :
    Leads call s.depth s'.depth := by
  cases step_of_next? h with
  | header hnest hhost hcall hphase =>
    refine .tell ?_ rfl
    cases call <;> first | rfl | exact absurd hcall Bool.noConfusion
  | field hnest hhost => exact .enter rfl rfl (by simp [depth, hhost])
  | method hnest hhost => exact .enter rfl rfl (by simp [depth, hhost])
  | annotationOfClass hnest => exact .enter rfl rfl (by simp [depth, hnest]; omega)
  | annotationOfField hnest hhost => exact .enter rfl rfl (by simp [depth, hnest, hhost])
  | endField hnest hhost => exact .finish rfl (by simp [depth, hhost])
  | annotationOfMethod hnest => exact .enter rfl rfl (by simp [depth, hnest]; omega)
  | endMethod hnest hhost => exact .finish rfl (by simp [depth, hhost])
  | param hnest hhost => exact .tell rfl (by simp [depth, hhost])
  | paramEnd hnest hhost => exact .tell rfl (by simp [depth, hhost])
  | body hnest hhost hcall =>
    refine .tell ?_ rfl
    cases call <;> first | rfl | exact absurd hcall Bool.noConfusion
  | value => exact .tell rfl rfl
  | nested hnest => exact .enter rfl rfl (by simp only [depth, hnest]; omega)
  | annotationEnd hnest => exact .finish rfl (by simp only [depth, hnest]; omega)

end Site

end Smali
