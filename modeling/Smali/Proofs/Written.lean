import Smali.Output.Writer
import Smali.Proofs.CodeLines
import Smali.Proofs.Sites
import Smali.Proofs.StrictStep

/-!
# What a writer writes

A writer that hears calls one after another puts the lines of each behind those of the calls
before it. Apart from blanks the lines are fixed by the call, and those of an end by what
ends: a field that no annotation was opened in ends without a line.
-/

namespace Smali

namespace Writer

/-- The texts of array elements that take lines of their own. -/
def elementTexts : List Value → List Text
  | [] => []
  | [value] => valueLines [] value []
  | value :: more => valueLines [] value [','] ++ elementTexts more

/-- The texts of an annotation element. -/
def valueTexts (name : Text) : Value → List Text
  | .array (first :: more) => (name ++ " = \x7b") :: elementTexts (first :: more) ++ ["\x7d".toList]
  | value => valueLines (name ++ " = ") value []

end Writer

/-- The line of a call that opens or ends no annotation element and no scope. -/
def Call.line? (call : Call) : Option Text :=
  (Writer.headerLine? call).or ((Writer.memberLine? call).or (Writer.methodLine? call))

/-- The texts of a call, ends of scopes aside. -/
def Call.texts : Call → List Text
  | .value name v => Writer.valueTexts name v
  | .subannotationStart name type => [name ++ " = .subannotation " ++ type.descriptor]
  | call => call.line?.toList

namespace Site

/-- The text of the end of the innermost scope. -/
def closingText? (s : Site) : Option Text :=
  match s.nest, s.host with
  | 1, _ => some ".end annotation"
  | _ + 2, _ => some ".end subannotation"
  | 0, some (.field annotated) => if annotated then some ".end field" else none
  | 0, some (.method _ _ _) => some ".end method"
  | 0, none => none

/-- The code lines of a call. -/
def codeLines (s : Site) (call : Call) : List Text :=
  match call with
  | .finish => s.closingText?.toList
  | call => call.texts.flatMap Text.codeLines

/-- The code lines of calls one after another. -/
def written (s : Site) : List Call → List Text
  | [] => []
  | call :: rest =>
    s.codeLines call ++
      match s.next? call with
      | some s => s.written rest
      | none => []

end Site

/-! ## Sheets -/

namespace Writer

/-- Texts that take a line each. -/
theorem holds_writeElements {p : Page} {lines : List Text} (h : p.Holds lines) (level : Nat)
    (values : List Value) :
    (writeElements level p values).Holds
      (lines ++ (elementTexts values).flatMap Text.codeLines) := by
  fun_induction writeElements level p values generalizing lines with
  | case1 p => simpa [elementTexts] using h
  | case2 p value => exact h.stack level _
  | case3 p value more hmore ih =>
    have hstep := ih (h.stack level (valueLines [] value [',']))
    rw [elementTexts, List.flatMap_append, ← List.append_assoc]
    · exact hstep
    · exact hmore

/-- An annotation element. -/
theorem holds_writeElement {p : Page} {lines : List Text} (h : p.Holds lines) (level : Nat)
    (name : Text) (value : Value) :
    (writeElement p level name value).Holds
      (lines ++ (valueTexts name value).flatMap Text.codeLines) := by
  cases value with
  | array values =>
    cases values with
    | nil => exact h.stack level _
    | cons first more =>
      have hclose := (holds_writeElements (h.line level (name ++ " = \x7b")) (level + 1)
        (first :: more)).line level "\x7d"
      unfold writeElement valueTexts
      simpa only [List.flatMap_cons, List.flatMap_append, List.flatMap_nil, List.append_nil,
        List.append_assoc, List.cons_append] using hclose
  | _ => exact h.stack level _

/-- A sheet whose page has certain code lines. -/
abbrev Sheet.Holds (s : Sheet) (lines : List Text) : Prop := s.page.Holds lines

/-- A line inside a member. -/
theorem holds_inner {s : Sheet} {lines : List Text} (h : s.Holds lines) (level : Nat)
    (text : Text) : (s.inner level text).Holds (lines ++ Text.codeLines text) := h.line level text

/-- A blank line in front of what follows. -/
theorem holds_separate {s : Sheet} {lines : List Text} (h : s.Holds lines) :
    s.separate.Holds lines := by
  unfold Sheet.separate
  split
  · exact h.skip
  · exact h.skip
  · exact h

/-- The first line of a member. -/
theorem holds_member {s : Sheet} {lines : List Text} (h : s.Holds lines) (text : Text) :
    (s.member text).Holds (lines ++ Text.codeLines text) := (holds_separate h).line 0 text

end Writer

/-! ## Pens at sites -/

namespace Writer

/-- The handles of a writer without a delegate whose scopes are those of a site. -/
inductive Penned : List (Option (Handle Unit)) → Nat → Option Host → Prop where
  /-- The class alone. -/
  | ofClass (slot : Slot Unit) (h : slot.delegate = none) :
    Penned [some ⟨.ofClass, slot⟩] 0 none
  /-- A field. -/
  | ofField (slot : Slot Unit) (h : slot.delegate = none) (annotated : Bool)
    {outer : List (Option (Handle Unit))} (houter : Penned outer 0 none) :
    Penned (some ⟨.ofField annotated, slot⟩ :: outer) 0 (some (.field annotated))
  /-- A method. -/
  | ofMethod (slot : Slot Unit) (h : slot.delegate = none) (held : Bool) (name : Text)
    (access : Access) (paramOpen : Bool) {outer : List (Option (Handle Unit))}
    (houter : Penned outer 0 none) :
    Penned (some ⟨.ofMethod held, slot⟩ :: outer) 0 (some (.method name access paramOpen))
  /-- An annotation. -/
  | ofAnnotationBody (slot : Slot Unit) (h : slot.delegate = none) (level : Nat)
    {nest : Nat} {host : Option Host} {outer : List (Option (Handle Unit))}
    (houter : Penned outer nest host) :
    Penned (some ⟨.ofAnnotationBody level (decide (nest ≠ 0)), slot⟩ :: outer) (nest + 1) host

/-- A desk of a writer that has written certain code lines and stands at a site. -/
structure Wrote (d : Desk (State Unit) (Handle Unit)) (s : Site) (lines : List Text) : Prop where
  /-- The scopes that are open. -/
  penned : Penned d.scopes s.nest s.host
  /-- What is written. -/
  holds : d.state.sheet.Holds lines

/-- A call that the innermost pen writes. -/
theorem call_eq {d : Desk (State Unit) (Handle Unit)} {pen : Pen} {slot : Slot Unit}
    {outer : List (Option (Handle Unit))} (hscopes : d.scopes = some ⟨pen, slot⟩ :: outer)
    (hslot : slot.delegate = none) {call : Call} (hsuits : call.suits pen.scope = true) :
    d.call (listener .discard) call =
      (.ok ((pen.opened? call).map fun child => ⟨child, .vacant child.scope⟩),
        { d with
          state := ⟨pen.write call d.state.sheet, d.state.inner⟩
          scopes := some ⟨pen.after call, slot⟩ :: outer }) := by
  have hpass : slot.pass .discard call d.state.inner = ⟨.ok none, slot, d.state.inner⟩ := by
    unfold Slot.pass
    rw [hslot]
  simp only [Desk.call, hscopes, listener, hear, if_pos hsuits, reply, hpass]
  cases pen.opened? call <;> rfl

/-- A call that opens no scope. -/
theorem make_tell {d : Desk (State Unit) (Handle Unit)} {pen : Pen} {slot : Slot Unit}
    {outer : List (Option (Handle Unit))} (hscopes : d.scopes = some ⟨pen, slot⟩ :: outer)
    (hslot : slot.delegate = none) {call : Call} (hsuits : call.suits pen.scope = true) :
    d.make (listener .discard) (.tell call) =
      { d with
        state := ⟨pen.write call d.state.sheet, d.state.inner⟩
        scopes := some ⟨pen.after call, slot⟩ :: outer } := by
  rw [Desk.make, call_eq hscopes hslot hsuits]

/-- A call that opens a scope. -/
theorem make_enter {d : Desk (State Unit) (Handle Unit)} {pen child : Pen} {slot : Slot Unit}
    {outer : List (Option (Handle Unit))} (hscopes : d.scopes = some ⟨pen, slot⟩ :: outer)
    (hslot : slot.delegate = none) {call : Call} (hsuits : call.suits pen.scope = true)
    (hopened : pen.opened? call = some child) :
    d.make (listener .discard) (.enter call) =
      { d with
        state := ⟨pen.write call d.state.sheet, d.state.inner⟩
        scopes := some ⟨child, .vacant child.scope⟩ :: some ⟨pen.after call, slot⟩ :: outer } := by
  rw [Desk.make, call_eq hscopes hslot hsuits, hopened]
  rfl

/-- The code lines of a call that a pen writes, ends and comments aside. -/
theorem holds_write {sheet : Sheet} {lines : List Text} (h : sheet.Holds lines) (pen : Pen)
    {call : Call} (hshared : call.isShared = false) (hsuits : call.suits pen.scope = true) :
    (pen.write call sheet).Holds (lines ++ call.texts.flatMap Text.codeLines) := by
  have hone : ∀ {sheet' : Sheet} {text : Text}, sheet'.Holds (lines ++ Text.codeLines text) →
      call.texts = [text] → sheet'.Holds (lines ++ call.texts.flatMap Text.codeLines) := by
    intro sheet' text hsheet htexts
    rw [htexts, List.flatMap_cons, List.flatMap_nil, List.append_nil]
    exact hsheet
  have hheader : ∀ text, (sheet.header text).Holds (lines ++ Text.codeLines text) :=
    fun text => h.line 0 text
  cases pen with
  | ofClass =>
    cases call with
    | header type access => exact hone (hheader _) rfl
    | superType type => exact hone (hheader _) rfl
    | implements type => exact hone (hheader _) rfl
    | source name => exact hone (hheader _) rfl
    | field name access type value => exact hone (holds_member h _) rfl
    | method name access signature => exact hone (holds_member h _) rfl
    | annotationStart visibility type => exact hone (holds_member h _) rfl
    | comment text => exact absurd hshared Bool.noConfusion
    | eolComment text => exact absurd hshared Bool.noConfusion
    | finish => exact absurd hshared Bool.noConfusion
    | _ => exact absurd hsuits Bool.noConfusion
  | ofField annotated =>
    cases call with
    | annotationStart visibility type => exact hone (holds_inner h _ _) rfl
    | comment text => exact absurd hshared Bool.noConfusion
    | eolComment text => exact absurd hshared Bool.noConfusion
    | finish => exact absurd hshared Bool.noConfusion
    | _ => exact absurd hsuits Bool.noConfusion
  | ofMethod paramOpen =>
    cases call with
    | comment text => exact absurd hshared Bool.noConfusion
    | eolComment text => exact absurd hshared Bool.noConfusion
    | finish => exact absurd hshared Bool.noConfusion
    | header type access => exact absurd hsuits Bool.noConfusion
    | superType type => exact absurd hsuits Bool.noConfusion
    | implements type => exact absurd hsuits Bool.noConfusion
    | source name => exact absurd hsuits Bool.noConfusion
    | field name access type value => exact absurd hsuits Bool.noConfusion
    | method name access signature => exact absurd hsuits Bool.noConfusion
    | value name v => exact absurd hsuits Bool.noConfusion
    | subannotationStart name type => exact absurd hsuits Bool.noConfusion
    | param register name => cases name <;> exact hone (holds_inner h _ _) rfl
    | _ => exact hone (holds_inner h _ _) rfl
  | ofAnnotationBody level nested =>
    cases call with
    | value name v => exact holds_writeElement h _ _ _
    | subannotationStart name type => exact hone (holds_inner h _ _) rfl
    | comment text => exact absurd hshared Bool.noConfusion
    | eolComment text => exact absurd hshared Bool.noConfusion
    | finish => exact absurd hshared Bool.noConfusion
    | _ => exact absurd hsuits Bool.noConfusion

/-- A call is made, and it opens no scope. -/
theorem wrote_tell {d : Desk (State Unit) (Handle Unit)} {lines : List Text} {pen : Pen}
    {slot : Slot Unit} {outer : List (Option (Handle Unit))} {s : Site} {call : Call}
    (hscopes : d.scopes = some ⟨pen, slot⟩ :: outer) (hslot : slot.delegate = none)
    (hholds : d.state.sheet.Holds lines) (hshared : call.isShared = false)
    (hsuits : call.suits pen.scope = true) (hopens : call.opens? = none)
    (hpenned : Penned (some ⟨pen.after call, slot⟩ :: outer) s.nest s.host) :
    Wrote (d.makeAll (listener .discard) call.moves) s
      (lines ++ call.texts.flatMap Text.codeLines) := by
  have hmoves : call.moves = [.tell call] := by
    cases call <;> first | rfl | exact absurd hopens (Option.some_ne_none _) | skip
    exact absurd hshared Bool.noConfusion
  have hmake : d.makeAll (listener .discard) call.moves =
      d.make (listener .discard) (.tell call) := by rw [hmoves]; rfl
  rw [hmake, make_tell hscopes hslot hsuits]
  exact ⟨hpenned, holds_write hholds pen hshared hsuits⟩

/-- A call is made, and it opens a scope. -/
theorem wrote_enter {d : Desk (State Unit) (Handle Unit)} {lines : List Text} {pen child : Pen}
    {slot : Slot Unit} {outer : List (Option (Handle Unit))} {s : Site} {call : Call}
    (hscopes : d.scopes = some ⟨pen, slot⟩ :: outer) (hslot : slot.delegate = none)
    (hholds : d.state.sheet.Holds lines) (hshared : call.isShared = false)
    (hsuits : call.suits pen.scope = true) (hopened : pen.opened? call = some child)
    (hmoves : call.moves = [.enter call])
    (hpenned : Penned (some ⟨child, .vacant child.scope⟩ :: some ⟨pen.after call, slot⟩ :: outer)
      s.nest s.host) :
    Wrote (d.makeAll (listener .discard) call.moves) s
      (lines ++ call.texts.flatMap Text.codeLines) := by
  have hmake : d.makeAll (listener .discard) call.moves =
      d.make (listener .discard) (.enter call) := by rw [hmoves]; rfl
  rw [hmake, make_enter hscopes hslot hsuits hopened]
  exact ⟨hpenned, holds_write hholds pen hshared hsuits⟩

/-- A scope is ended. -/
theorem wrote_finish {d : Desk (State Unit) (Handle Unit)} {lines : List Text} {pen : Pen}
    {slot : Slot Unit} {outer : List (Option (Handle Unit))} {s s' : Site}
    (hscopes : d.scopes = some ⟨pen, slot⟩ :: outer) (hslot : slot.delegate = none)
    (hfinish : (pen.finish d.state.sheet).Holds (lines ++ s.closingText?.toList))
    (hpenned : Penned outer s'.nest s'.host) :
    Wrote (d.makeAll (listener .discard) Call.finish.moves) s' (lines ++ s.codeLines .finish) := by
  have hmake : d.makeAll (listener .discard) Call.finish.moves =
      (d.make (listener .discard) (.tell .finish)).make (listener .discard) .leave := rfl
  rw [hmake, make_tell hscopes hslot rfl]
  exact ⟨hpenned, hfinish⟩

/-- A writer writes the code lines of a call. -/
theorem Wrote.call {d : Desk (State Unit) (Handle Unit)} {s s' : Site} {lines : List Text}
    (h : Wrote d s lines) {call : Call} (hs : s.next? call = some s') :
    Wrote (d.makeAll (listener .discard) call.moves) s' (lines ++ s.codeLines call) := by
  obtain ⟨phase, declared, host, nest⟩ := s
  obtain ⟨hpenned, hholds⟩ := h
  dsimp only at hpenned
  generalize hscopes : d.scopes = scopes at hpenned
  have hclosing : ∀ (sheet : Sheet) (level : Nat) (text : Text),
      Text.codeLines text = [text] → sheet.Holds lines →
      (sheet.inner level text).Holds (lines ++ [text]) := by
    intro sheet level text htext hsheet
    rw [← htext]
    exact holds_inner hsheet level text
  have hsome : ∀ {P : Prop} [Decidable P] {a : Site},
      (if P then none else some a) = some s' → a = s' := by
    intro P _ a ha
    split at ha
    · exact absurd ha (Option.some_ne_none _).symm
    · exact Option.some.inj ha
  cases hpenned with
  | ofClass slot hslot =>
    have hs' : Site.inClass? ⟨phase, declared, none, 0⟩ call = some s' := hs
    have hheader : ∀ {P : Prop} [Decidable P] {a : Site},
        (if P then some a else none) = some s' → a = s' := by
      intro P _ a ha
      split at ha
      · exact Option.some.inj ha
      · exact absurd ha (Option.some_ne_none _).symm
    cases call with
    | header type access =>
      obtain rfl := hheader hs'
      exact wrote_tell hscopes hslot hholds rfl rfl rfl (.ofClass slot hslot)
    | superType type =>
      obtain rfl := hheader hs'
      exact wrote_tell hscopes hslot hholds rfl rfl rfl (.ofClass slot hslot)
    | implements type =>
      obtain rfl := hheader hs'
      exact wrote_tell hscopes hslot hholds rfl rfl rfl (.ofClass slot hslot)
    | source name =>
      obtain rfl := hheader hs'
      exact wrote_tell hscopes hslot hholds rfl rfl rfl (.ofClass slot hslot)
    | field name access type value =>
      obtain rfl := hsome hs'
      exact wrote_enter hscopes hslot hholds rfl rfl rfl rfl
        (.ofField _ rfl false (.ofClass slot hslot))
    | method name access signature =>
      obtain rfl := hsome hs'
      exact wrote_enter hscopes hslot hholds rfl rfl rfl rfl
        (.ofMethod _ rfl false name access false (.ofClass slot hslot))
    | annotationStart visibility type =>
      obtain rfl := hsome hs'
      exact wrote_enter hscopes hslot hholds rfl rfl rfl rfl
        (.ofAnnotationBody _ rfl 0 (.ofClass slot hslot))
    | _ => exact absurd hs' (Option.some_ne_none _).symm
  | ofField slot hslot annotated houter =>
    have hs' : Site.inField? ⟨phase, declared, some (.field annotated), 0⟩ call = some s' := hs
    cases call with
    | annotationStart visibility type =>
      obtain rfl := Option.some.inj hs'
      exact wrote_enter hscopes hslot hholds rfl rfl rfl rfl
        (.ofAnnotationBody _ rfl _ (.ofField slot hslot true houter))
    | finish =>
      obtain rfl := Option.some.inj hs'
      refine wrote_finish hscopes hslot ?_ houter
      cases annotated with
      | false => simpa [Site.closingText?, Pen.finish] using hholds
      | true => exact hclosing _ _ _ (by decide) hholds
    | _ => exact absurd hs' (Option.some_ne_none _).symm
  | ofMethod slot hslot held name access paramOpen houter =>
    have hs' : Site.inMethod? ⟨phase, declared, some (.method name access paramOpen), 0⟩ name
        access paramOpen call = some s' := hs
    cases call with
    | annotationStart visibility type =>
      obtain rfl := Option.some.inj hs'
      exact wrote_enter hscopes hslot hholds rfl rfl rfl rfl
        (.ofAnnotationBody _ rfl _ (.ofMethod slot hslot held name access paramOpen houter))
    | finish =>
      obtain rfl := Option.some.inj hs'
      exact wrote_finish hscopes hslot (hclosing _ _ _ (by decide) hholds) houter
    | param register name' =>
      obtain rfl := Option.some.inj hs'
      exact wrote_tell hscopes hslot hholds rfl rfl rfl (.ofMethod slot hslot true _ _ _ houter)
    | paramEnd =>
      cases paramOpen with
      | false => exact absurd hs' (Option.some_ne_none _).symm
      | true =>
        obtain rfl := Option.some.inj hs'
        exact wrote_tell hscopes hslot hholds rfl rfl rfl (.ofMethod slot hslot false _ _ _ houter)
    | comment text => exact absurd hs' (Option.some_ne_none _).symm
    | eolComment text => exact absurd hs' (Option.some_ne_none _).symm
    | header type access => exact absurd hs' (Option.some_ne_none _).symm
    | superType type => exact absurd hs' (Option.some_ne_none _).symm
    | implements type => exact absurd hs' (Option.some_ne_none _).symm
    | source name => exact absurd hs' (Option.some_ne_none _).symm
    | field name access type value => exact absurd hs' (Option.some_ne_none _).symm
    | method name access signature => exact absurd hs' (Option.some_ne_none _).symm
    | value name v => exact absurd hs' (Option.some_ne_none _).symm
    | subannotationStart name type => exact absurd hs' (Option.some_ne_none _).symm
    | _ =>
      obtain rfl := Option.some.inj hs'
      exact wrote_tell hscopes hslot hholds rfl rfl rfl
        (.ofMethod slot hslot false name access paramOpen houter)
  | @ofAnnotationBody slot hslot level outer _ _ houter =>
    have hs' : (Site.nestNext? outer call).map
        (fun nest => (⟨phase, declared, host, nest⟩ : Site)) = some s' := hs
    cases call with
    | value name v =>
      obtain rfl := Option.some.inj hs'
      exact wrote_tell hscopes hslot hholds rfl rfl rfl (.ofAnnotationBody slot hslot level houter)
    | subannotationStart name type =>
      obtain rfl := Option.some.inj hs'
      exact wrote_enter hscopes hslot hholds rfl rfl rfl rfl
        (.ofAnnotationBody _ rfl _ (.ofAnnotationBody slot hslot level houter))
    | finish =>
      obtain rfl := Option.some.inj hs'
      refine wrote_finish hscopes hslot ?_ houter
      cases outer with
      | zero => exact hclosing _ _ ".end annotation" (by decide) hholds
      | succ outer => exact hclosing _ _ ".end subannotation" (by decide) hholds
    | _ => exact absurd hs' (Option.some_ne_none _).symm

/-- A writer writes the code lines of calls one after another. -/
theorem Wrote.calls {d : Desk (State Unit) (Handle Unit)} {s s' : Site} {lines : List Text}
    (h : Wrote d s lines) {validate : Bool} {calls : List Call}
    (hs : s.run validate calls = some s') :
    Wrote (d.makeAll (listener .discard) (calls.flatMap Call.moves)) s'
      (lines ++ s.written calls) := by
  induction calls generalizing d s lines with
  | nil =>
    obtain rfl := Option.some.inj hs
    simpa [Site.written, Desk.makeAll] using h
  | cons call rest ih =>
    obtain ⟨mid, hmid, hrest⟩ := Option.bind_eq_some_iff.mp hs
    have hnext := Site.next?_of_accept hmid
    rw [Desk.makeAll_cons, Site.written, hnext, ← List.append_assoc]
    exact ih (h.call hnext) hrest

end Writer

/-- The code that a new writer holds after calls about a class and the end of the class. -/
def Writer.codeOf (calls : List Call) : Text :=
  ((Desk.initial Writer.root (Writer.State.initial ())).makeAll (Writer.listener .discard)
    (calls.flatMap Call.moves ++ [.tell .finish])).state.code

/-- A new writer has written nothing. -/
theorem Writer.wrote_initial (snippet : Bool) :
    Wrote (Desk.initial root (State.initial ())) (Site.initial snippet) [] :=
  ⟨.ofClass _ rfl, Page.holds_blank⟩

/-- The end of the class writes nothing. -/
theorem Writer.Wrote.codeLines_codeOf {calls : List Call} {s : Site} {lines : List Text}
    (h : Wrote ((Desk.initial root (State.initial ())).makeAll (listener .discard)
      (calls.flatMap Call.moves)) s lines) (hnest : s.nest = 0) (hhost : s.host = none) :
    Text.codeLines (codeOf calls) = lines := by
  unfold codeOf
  rw [Desk.makeAll_append]
  generalize (Desk.initial root (State.initial ())).makeAll (listener .discard)
    (calls.flatMap Call.moves) = d at h ⊢
  obtain ⟨hpenned, hholds⟩ := h
  rw [hnest, hhost] at hpenned
  generalize hscopes : d.scopes = scopes at hpenned
  cases hpenned with
  | ofClass slot hslot =>
    have hfinish : d.makeAll (listener .discard) [.tell .finish] =
        d.make (listener .discard) (.tell .finish) := rfl
    rw [hfinish, make_tell hscopes hslot rfl]
    exact hholds.codeLines

/-- The code lines of calls, if these can follow on each other. -/
theorem Writer.codeLines_codeOf {snippet validate : Bool} {calls : List Call} {s : Site}
    (hrun : (Site.initial snippet).run validate calls = some s) (hnest : s.nest = 0)
    (hhost : s.host = none) :
    Text.codeLines (Writer.codeOf calls) = (Site.initial snippet).written calls :=
  ((wrote_initial snippet).calls hrun).codeLines_codeOf hnest hhost

/-- A writer in front of a listener that opens no scope never fails. -/
theorem Writer.listener_neverFails : (Writer.listener .discard).NeverFails := by
  intro handle call state
  have hpass : (handle.slot.pass .discard call state.inner).outcome = .ok none := by
    unfold Slot.pass
    split
    · rfl
    · split <;> rfl
  simp only [Writer.listener, Writer.hear]
  split
  · simp only [Writer.reply, hpass]
    cases handle.pen.opened? call with
    | none => exact ⟨none, rfl⟩
    | some child => exact ⟨_, rfl⟩
  · exact ⟨none, rfl⟩

/-- A source in its canonical layout is the code of its calls. -/
theorem format_eq {o : Options} (h : o.IsPlain) (source : Text) :
    (format o source).toOption = (strictCalls o source).map Writer.codeOf := by
  have hread := read_eq h Writer.listener_neverFails Writer.root (.initial ()) source
  unfold format
  generalize read o (Writer.listener .discard) Writer.root (.initial ()) source = outcome at hread ⊢
  obtain ⟨result, desk⟩ := outcome
  cases hcalls : strictCalls o source with
  | none =>
    rw [hcalls] at hread
    obtain ⟨fault, hresult⟩ := hread
    obtain rfl : result = .error fault := hresult
    rfl
  | some calls =>
    rw [hcalls] at hread
    obtain ⟨hresult, hstate⟩ := hread
    obtain rfl : result = .ok () := hresult
    exact congrArg (fun state => some (Writer.State.code state)) hstate

end Smali
