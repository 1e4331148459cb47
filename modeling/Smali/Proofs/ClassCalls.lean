import Smali.Proofs.CutShort
import Smali.Proofs.DialogueLaws
import Smali.Proofs.ReaderRemit
import Smali.Proofs.ScopeProtocol

/-!
# The order of calls about a class

A class is told of first, then its superclass, its interfaces and its source file, then its
members. The reader has gone on to a later stage before it knows whether a line is well formed,
and a listener may refuse any call; but a stage never comes back, and each stage tells only
calls of its own. So every two calls of a reading stand in the right order, whatever is skipped
over between them.
-/

namespace Smali

open scoped Dialogue.Laws

/-! ## Order -/

/-- Whether a call opens a member of a class, or an annotation. -/
def Call.isMember : Call → Bool
  | .field _ _ _ _ | .method _ _ _ | .annotationStart _ _ => true
  | _ => false

/-- Only comments come before the class is told of, and no call of its header comes after a
member. -/
def Call.MayPrecede (earlier later : Call) : Prop :=
  (later.kind = .header → earlier.kind = .comment) ∧
    (later.isHeader = true → earlier.isMember = false)

/-- Calls each two of which stand in order. -/
def InOrder (log : List Heard) : Prop := (log.map Heard.call).Pairwise Call.MayPrecede

/-- The class is told of. -/
def HeaderTold (log : List Heard) : Prop :=
  ∃ heard ∈ log, heard.who = 0 ∧ heard.call.kind = .header

/-- More calls that stand in order, and do so with those before. -/
theorem InOrder.append {log told : List Heard} (h : InOrder log) (htold : InOrder told)
    (hall : ∀ earlier ∈ log, ∀ later ∈ told, earlier.call.MayPrecede later.call) :
    InOrder (log ++ told) := by
  unfold InOrder at *
  rw [List.map_append, List.pairwise_append]
  refine ⟨h, htold, fun a ha b hb => ?_⟩
  obtain ⟨earlier, hearlier, rfl⟩ := List.mem_map.mp ha
  obtain ⟨later, hlater, rfl⟩ := List.mem_map.mp hb
  exact hall earlier hearlier later hlater

/-- A call that is not of the class header may follow on any other. -/
theorem Call.mayPrecede_of_isHeader {later : Call} (h : later.isHeader = false) (earlier : Call) :
    earlier.MayPrecede later := by
  refine ⟨fun hkind => ?_, fun hheader => ?_⟩
  · cases later <;> simp_all [Call.kind, Call.isHeader]
  · exact absurd (h.symm.trans hheader) Bool.false_ne_true

/-- A single call stands in order. -/
theorem InOrder.singleton (heard : Heard) : InOrder [heard] := List.pairwise_singleton _ _

/-- Calls that are not of the class header may follow on any others. -/
theorem InOrder.append_members {log told : List Heard} (h : InOrder log)
    (htold : ∀ heard ∈ told, heard.call.isHeader = false) : InOrder (log ++ told) := by
  have hall : ∀ earlier, ∀ later ∈ told, Call.MayPrecede earlier later.call :=
    fun earlier later hlater => Call.mayPrecede_of_isHeader (htold later hlater) earlier
  refine h.append (List.pairwise_of_forall_mem_list fun a _ b hb => ?_) fun earlier _ =>
    hall earlier.call
  obtain ⟨later, hlater, rfl⟩ := List.mem_map.mp hb
  exact hall a later hlater

/-- Calls of members stand in order. -/
theorem inOrder_of_members {told : List Heard}
    (htold : ∀ heard ∈ told, heard.call.isHeader = false) : InOrder told := by
  have hnil : InOrder [] := List.Pairwise.nil
  exact hnil.append_members htold

/-- The class stays told of. -/
theorem HeaderTold.append {log : List Heard} (h : HeaderTold log) (told : List Heard) :
    HeaderTold (log ++ told) :=
  let ⟨heard, hmem, hheard⟩ := h
  ⟨heard, List.mem_append_left told hmem, hheard⟩

/-! ## Calls of a dialogue -/

/-- The call that an act makes, if it makes one. -/
def Act.call? : Act → Option Call
  | .tell call | .remark call | .enter call => some call
  | _ => none

/-- An act that makes no call but those with a property, and changes no scope. -/
def Act.Utters (P : Call → Prop) : Act → Prop
  | .tell call | .remark call => P call
  | .excuse _ | .require _ _ => True
  | .enter _ | .hush | .leave => False

/-- A dialogue that makes no call but those with a property, all in one scope. Its result has
a property as well. -/
def Dialogue.Utters {α : Type} (P : Call → Prop) (Q : α → Prop) : Dialogue α → Prop
  | .done a => Q a
  | .halt _ => True
  | .act first next => first.Utters P ∧ ∀ received, (next received).Utters P Q

/-- Two dialogues in a row. -/
theorem Dialogue.Utters.bind {α β : Type} {P : Call → Prop} {Q : α → Prop} {R : β → Prop}
    {d : Dialogue α} {f : α → Dialogue β} (h : d.Utters P Q)
    (hf : ∀ a, Q a → (f a).Utters P R) : (d >>= f).Utters P R := by
  change (d.bind f).Utters P R
  induction d with
  | done a => exact hf a h
  | halt fault => exact trivial
  | act first next ih => exact ⟨h.1, fun received => ih received (h.2 received)⟩

section Conduct

variable {σ κ α : Type} (o : Options) (L : Listener σ κ)

/-- With an act at most one call is added to the list, the one that it makes. -/
theorem Desk.log_receive (a : Act) (d : Desk (σ × List Heard) (Nat × κ)) :
    ∃ told : Option Heard, (d.receive o L.traced a).desk.state.2 = d.state.2 ++ told.toList ∧
      ∀ heard ∈ told, a.call? = some heard.call := by
  have hcall : ∀ call, ∃ told : Option Heard,
      (d.call L.traced call).2.state.2 = d.state.2 ++ told.toList ∧
        ∀ heard ∈ told, some call = some heard.call := by
    intro call
    obtain ⟨⟨state, log⟩, scopes, skipped⟩ := d
    rcases scopes with _ | ⟨_ | ⟨who, handle⟩, outer⟩
    · exact ⟨none, (List.append_nil log).symm, nofun⟩
    · exact ⟨none, (List.append_nil log).symm, nofun⟩
    · exact ⟨some ⟨who, call, _⟩, rfl, fun _ h => Option.some.inj h ▸ rfl⟩
  have htell : ∀ call, (d.tell L.traced call).desk = (d.call L.traced call).2 := by
    intro call
    unfold Desk.tell
    rcases d.call L.traced call with ⟨_ | _, _⟩ <;> rfl
  have hnone : ∃ told : Option Heard, d.state.2 = d.state.2 ++ told.toList ∧
      ∀ heard ∈ told, a.call? = some heard.call :=
    ⟨none, (List.append_nil _).symm, nofun⟩
  cases a with
  | tell call =>
    obtain ⟨told, hlog, htold⟩ := hcall call
    exact ⟨told, (congrArg (·.state.2) (htell call)).trans hlog, htold⟩
  | remark call =>
    simp only [Desk.receive]
    split
    · obtain ⟨told, hlog, htold⟩ := hcall call
      exact ⟨told, (congrArg (·.state.2) (htell call)).trans hlog, htold⟩
    · exact hnone
  | enter call =>
    obtain ⟨told, hlog, htold⟩ := hcall call
    refine ⟨told, Eq.trans ?_ hlog, htold⟩
    simp only [Desk.receive, Desk.enter]
    rcases d.call L.traced call with ⟨_ | _, _⟩ <;> rfl
  | excuse fault =>
    simp only [Desk.receive, Desk.excuse]
    split <;> exact hnone
  | require holds fault =>
    simp only [Desk.receive]
    split <;> exact hnone
  | _ => exact hnone

/-- Where no scope is changed, the same visitors listen after an act as before. -/
theorem Desk.numbers_receive {P : Call → Prop} {a : Act} (ha : a.Utters P)
    (d : Desk (σ × List Heard) (Nat × κ)) :
    (d.receive o L.traced a).desk.numbers = d.numbers := by
  have htell : ∀ call, (d.tell L.traced call).desk.numbers = d.numbers := by
    intro call
    obtain ⟨⟨state, log⟩, scopes, skipped⟩ := d
    rcases scopes with _ | ⟨_ | ⟨who, handle⟩, outer⟩
    · rfl
    · rfl
    · unfold Desk.tell Desk.call
      simp only [Listener.traced]
      cases (L.hear handle call state).outcome <;> rfl
  cases a with
  | tell call => exact htell call
  | remark call =>
    simp only [Desk.receive]
    split
    · exact htell call
    · rfl
  | excuse fault =>
    simp only [Desk.receive, Desk.excuse]
    split <;> rfl
  | require holds fault =>
    simp only [Desk.receive]
    split <;> rfl
  | _ => exact ha.elim

/-- What a dialogue that keeps to one scope adds to the list. -/
theorem Dialogue.Utters.conduct {P : Call → Prop} {Q : α → Prop} {d : Dialogue α}
    (h : d.Utters P Q) (desk : Desk (σ × List Heard) (Nat × κ)) :
    ∃ told, (d.conduct o L.traced desk).2.state.2 = desk.state.2 ++ told ∧
      (∀ heard ∈ told, P heard.call) ∧ (d.conduct o L.traced desk).2.numbers = desk.numbers ∧
      ∀ a, (d.conduct o L.traced desk).1 = .ok a → Q a := by
  induction d generalizing desk with
  | done a =>
    exact ⟨[], (List.append_nil _).symm, List.forall_mem_nil _, rfl, fun _ ha =>
      Except.ok.inj ha ▸ h⟩
  | halt fault =>
    exact ⟨[], (List.append_nil _).symm, List.forall_mem_nil _, rfl, fun _ ha =>
      absurd ha (by simp [Dialogue.conduct])⟩
  | act first next ih =>
    obtain ⟨told, hlog, htold⟩ := desk.log_receive o L first
    have hnumbers := desk.numbers_receive o L h.1
    have hfirst : ∀ heard ∈ told.toList, P heard.call := by
      intro heard hheard
      have hcall := htold heard (Option.mem_toList.mp hheard)
      have ha := h.1
      cases first <;> simp_all [Act.call?, Act.Utters]
    unfold Dialogue.conduct
    cases hreceive : desk.receive o L.traced first with
    | final fault desk' =>
      rw [hreceive] at hlog hnumbers
      exact ⟨told.toList, hlog, hfirst, hnumbers, fun _ ha => absurd ha (by simp)⟩
    | onward received desk' =>
      rw [hreceive] at hlog hnumbers
      obtain ⟨more, hmore, hheard, hsame, hresult⟩ := ih received (h.2 received) desk'
      refine ⟨told.toList ++ more, ?_, List.forall_mem_append.mpr ⟨hfirst, hheard⟩,
        hsame.trans hnumbers, hresult⟩
      rw [← List.append_assoc]
      exact hmore.trans (congrArg (· ++ more) hlog)

/-- What a dialogue within a remit adds to the list. -/
theorem Dialogue.Within.conduct {r : Remit} {Q : α → Prop} {d : Dialogue α}
    (h : d.Within r Q) (hreceived : ∀ fault, r.received fault)
    (desk : Desk (σ × List Heard) (Nat × κ)) :
    ∃ told, (d.conduct o L.traced desk).2.state.2 = desk.state.2 ++ told ∧
      ∀ heard ∈ told, r.calls heard.call := by
  induction d generalizing desk with
  | done a => exact ⟨[], (List.append_nil _).symm, nofun⟩
  | halt fault => exact ⟨[], (List.append_nil _).symm, nofun⟩
  | act first next ih =>
    obtain ⟨told, hlog, htold⟩ := desk.log_receive o L first
    have hfirst : ∀ heard ∈ told.toList, r.calls heard.call := by
      intro heard hheard
      have hcall := htold heard (Option.mem_toList.mp hheard)
      have ha := h.1
      cases first <;> simp_all [Act.call?, Act.Within]
    unfold Dialogue.conduct
    cases hreceive : desk.receive o L.traced first with
    | final fault desk' =>
      rw [hreceive] at hlog
      exact ⟨told.toList, hlog, hfirst⟩
    | onward received desk' =>
      rw [hreceive] at hlog
      have hcall := Desk.isCall_of_receive hreceive
      obtain ⟨more, hmore, hheard⟩ := ih received (h.2 received fun fault hfault =>
        ⟨hcall.resolve_left fun hnone => Option.some_ne_none fault (hfault.symm.trans hnone),
          hreceived fault⟩) desk'
      refine ⟨told.toList ++ more, ?_, List.forall_mem_append.mpr ⟨hfirst, hheard⟩⟩
      rw [← List.append_assoc]
      exact hmore.trans (congrArg (· ++ more) hlog)

end Conduct

/-- The remit of everything but the class header. -/
def Remit.ofMembers : Remit where
  calls call := call.isHeader = false
  places _ := True
  received _ := True
  faults _ := True
  calls_of_isHeader _ h := h
  faults_of_isAt _ _ _ _ := trivial
  faults_of_received _ _ := trivial
  faults_attach _ _ _ _ := trivial

/-! ## The class header -/

/-- The call of a line of the class header, checked. -/
def headerCall (l : Line) : Directive → Passage Call
  | .ofClass => do
    let (access, type) ← Passage.ofExcept l.classHeader
    Passage.checkObject l "class type" type
    return .header type access
  | .superType => do
    let type ← Passage.ofExcept l.singleType
    Passage.checkObject l "super type" type
    return .superType type
  | .implements => do
    let type ← Passage.ofExcept l.singleType
    Passage.checkObject l "interface" type
    return .implements type
  | _ => do return .source (← Passage.ofExcept l.sourceName)

/-- A line of the class header makes its call, once the call is known. -/
theorem headerLine_eq (l : Line) (d : Directive) :
    headerLine l d = (do Passage.tellLine l (← headerCall l d)) := by
  unfold headerLine headerCall
  split <;> simp only [bind_assoc, pure_bind]

/-- Before the call of a line of the class header is known, no call is made. -/
theorem utters_headerCall (l : Line) (d : Directive) :
    (headerCall l d).run.Utters (fun _ => False) fun result => ∀ call, result = .ok call →
      call.isHeader = true ∧ (call.kind = .header ↔ d = .ofClass) := by
  have hcheck : ∀ {d : Directive} (what : Text) (type : TypeName) {call : Call},
      call.isHeader = true → (call.kind = .header ↔ d = .ofClass) →
      ((do
        Passage.checkObject l what type
        return call : Passage Call) : Dialogue (Except Fault Call)).Utters (fun _ => False)
          fun result => ∀ call, result = .ok call →
            call.isHeader = true ∧ (call.kind = .header ↔ d = .ofClass) := by
    intro d what type call hcall hkind
    refine ⟨trivial, fun received => ?_⟩
    cases received with
    | none => exact fun _ h => Except.ok.inj h ▸ ⟨hcall, hkind⟩
    | some fault => exact nofun
  unfold headerCall
  split
  · cases l.classHeader with
    | error fault => exact nofun
    | ok header => exact hcheck _ _ rfl (iff_of_true rfl rfl)
  · cases l.singleType with
    | error fault => exact nofun
    | ok type => exact hcheck _ _ rfl (iff_of_false nofun nofun)
  · cases l.singleType with
    | error fault => exact nofun
    | ok type => exact hcheck _ _ rfl (iff_of_false nofun nofun)
  · next hd _ _ =>
    cases l.sourceName with
    | error fault => exact nofun
    | ok name => exact fun _ h => Except.ok.inj h ▸ ⟨rfl, iff_of_false nofun hd⟩

/-- A line of the class header goes on as soon as its call is known, or is skipped over. -/
theorem attempt_headerLine (l : Line) (d : Directive) :
    Dialogue.attempt l.position (headerLine l d) = (headerCall l d).run >>= fun
      | .ok call => Dialogue.attempt l.position (Passage.tellLine l call)
      | .error fault => do
        Dialogue.excuse (fault.attach l.position)
        return none := by
  rw [headerLine_eq]
  simp only [Dialogue.attempt, ExceptT.run_bind, bind_assoc]
  refine bind_congr fun result => ?_
  cases result <;> rfl

/-- Nothing is told where a fault is skipped over. -/
theorem utters_excuse {α : Type} {P : Call → Prop} (fault : Fault) (a : α) :
    Dialogue.Utters P (fun _ => True) (do
      Dialogue.excuse fault
      return a) :=
  ⟨trivial, fun _ => trivial⟩

/-- What is told behind the call of a line is the comment of the line. -/
theorem utters_tellLine (l : Line) (call : Call) (received : Option Fault) :
    ∃ next, Dialogue.attempt l.position (Passage.tellLine l call) = .act (.tell call) next ∧
      (next received).Utters (fun call => call.kind = .eolComment) fun _ => True := by
  refine ⟨_, rfl, ?_⟩
  cases received with
  | some fault => exact utters_excuse _ _
  | none =>
    unfold Line.eolCall?
    cases l.eolComment? with
    | none => exact trivial
    | some text =>
      refine ⟨rfl, fun received => ?_⟩
      cases received with
      | none => exact trivial
      | some fault => exact utters_excuse _ _

section Opening

variable {σ κ : Type} (o : Options) (L : Listener σ κ)

/-- What a line of the class header adds to the list of calls: nothing, which ends a strict
reading, or its own call and perhaps the comment behind it. -/
def AddsHeader (d : Directive) (result : Except Fault (Option Unit)) (told : List Heard) : Prop :=
  (told = [] ∧ (o.errors = .strict → ∀ a, result ≠ .ok a)) ∨
    ∃ heard more, told = heard :: more ∧ heard.who = 0 ∧ heard.call.isHeader = true ∧
      (heard.call.kind = .header ↔ d = .ofClass) ∧ ∀ later ∈ more, later.call.kind = .eolComment

/-- A strict reading does not skip over anything. -/
theorem conduct_excuse_strict {o : Options} (ho : o.errors = .strict) {α : Type} (fault : Fault)
    (d : Dialogue α) (desk : Desk σ κ) (a : α) :
    ((Dialogue.excuse fault >>= fun _ => d).conduct o L desk).1 ≠ .ok a := by
  have hreceive : desk.receive o L (.excuse fault) = .final fault desk := by
    simp only [Desk.receive, Desk.excuse, ho, reduceCtorEq, false_and, if_false]
  change (Dialogue.conduct o L (.act (.excuse fault) _) desk).1 ≠ .ok a
  unfold Dialogue.conduct
  rw [hreceive]
  exact fun h => absurd h (by simp)

/-- Where no scope is open but the class, a call reaches the class. -/
theorem Desk.receive_tell_class (call : Call) {desk : Desk (σ × List Heard) (Nat × κ)}
    (hdesk : desk.numbers = [some 0]) :
    ∃ received desk' opened, desk.receive o L.traced (.tell call) = .onward received desk' ∧
      desk'.state.2 = desk.state.2 ++ [⟨0, call, opened⟩] ∧ desk'.numbers = [some 0] := by
  obtain ⟨⟨state, log⟩, scopes, skipped⟩ := desk
  rcases scopes with _ | ⟨_ | ⟨who, handle⟩, outer⟩
  · exact absurd hdesk (by simp [Desk.numbers])
  · exact absurd hdesk (by simp [Desk.numbers])
  · obtain ⟨rfl, houter⟩ : who = 0 ∧ outer = [] := by simpa [Desk.numbers] using hdesk
    subst houter
    simp only [Desk.receive, Desk.tell, Desk.call, Listener.traced]
    cases (L.hear handle call state).outcome <;> exact ⟨_, _, _, rfl, rfl, rfl⟩

/-- A line of the class header in a reading that has opened no scope. -/
theorem conduct_headerLine (l : Line) (d : Directive) (desk : Desk (σ × List Heard) (Nat × κ))
    (hdesk : desk.numbers = [some 0]) :
    let r := (Dialogue.attempt l.position (headerLine l d)).conduct o L.traced desk
    ∃ told, r.2.state.2 = desk.state.2 ++ told ∧ r.2.numbers = [some 0] ∧
      AddsHeader o d r.1 told := by
  dsimp only
  rw [attempt_headerLine, Dialogue.conduct_bind]
  obtain ⟨told, hlog, htold, hnumbers, hresult⟩ := (utters_headerCall l d).conduct o L desk
  obtain rfl : told = [] := List.eq_nil_iff_forall_not_mem.mpr htold
  rw [List.append_nil] at hlog
  generalize (headerCall l d).run.conduct o L.traced desk = r at hlog hnumbers hresult ⊢
  obtain ⟨_ | _ | call, desk'⟩ := r
  · exact ⟨[], hlog.trans (List.append_nil _).symm, hnumbers.trans hdesk,
      .inl ⟨rfl, fun _ => nofun⟩⟩
  · next fault =>
    have hexcuse := utters_excuse (P := fun _ => False) (fault.attach l.position)
      (none : Option Unit)
    obtain ⟨told, hmore, hfalse, hsame, -⟩ := hexcuse.conduct o L desk'
    obtain rfl : told = [] := List.eq_nil_iff_forall_not_mem.mpr hfalse
    refine ⟨[], hmore.trans (by rw [hlog]), hsame.trans (hnumbers.trans hdesk), .inl ⟨rfl, ?_⟩⟩
    exact fun ho a => conduct_excuse_strict L.traced ho _ _ desk' a
  · obtain ⟨hheader, hkind⟩ := hresult _ rfl call rfl
    obtain ⟨received, desk'', opened, hreceive, htell, hclass⟩ :=
      Desk.receive_tell_class o L call (hnumbers.trans hdesk)
    obtain ⟨next, hnext, hutters⟩ := utters_tellLine l call received
    obtain ⟨more, hmore, heol, hsame, -⟩ := hutters.conduct o L desk''
    dsimp only
    rw [hnext]
    unfold Dialogue.conduct
    rw [hreceive]
    refine ⟨⟨0, call, opened⟩ :: more, ?_, hsame.trans hclass,
      .inr ⟨_, more, rfl, rfl, hheader, hkind, heol⟩⟩
    rw [hmore, htell, hlog, List.append_assoc]
    rfl

/-! ## Lines in front of the members -/

/-- The list of calls at the end of a reading. A strict one has told of the class. -/
def Settled (r : Except Fault Unit × Desk (σ × List Heard) (Nat × κ)) : Prop :=
  InOrder r.2.state.2 ∧ (o.errors = .strict → r.1 = .ok () → HeaderTold r.2.state.2)

/-- Before the class is told of. -/
structure AtStart (desk : Desk (σ × List Heard) (Nat × κ)) : Prop where
  /-- Only comments were told. -/
  comments : ∀ heard ∈ desk.state.2, heard.call.kind = .comment
  /-- No scope is open but the class. -/
  numbers : desk.numbers = [some 0]

/-- In the class header. -/
structure AtHeader (desk : Desk (σ × List Heard) (Nat × κ)) : Prop where
  /-- The calls stand in order. -/
  order : InOrder desk.state.2
  /-- No member was told of. -/
  members : ∀ heard ∈ desk.state.2, heard.call.isMember = false
  /-- A strict reading has told of the class. -/
  told : o.errors = .strict → HeaderTold desk.state.2
  /-- No scope is open but the class. -/
  numbers : desk.numbers = [some 0]

/-- A comment is neither a call of the class header nor a member. -/
theorem Call.plain_of_comment {call : Call} (h : call.kind = .comment ∨ call.kind = .eolComment) :
    call.isHeader = false ∧ call.isMember = false := by
  cases call <;> simp_all [Call.kind, Call.isHeader, Call.isMember]

/-- No call of the class header opens a member. -/
theorem Call.isMember_of_isHeader {call : Call} (h : call.isHeader = true) :
    call.isMember = false := by
  cases call <;> simp_all [Call.isHeader, Call.isMember]

/-- Everything behind the class header. -/
theorem settled_of_within {Q : Unit → Prop} {d : Dialogue Unit} (h : d.Within .ofMembers Q)
    {desk : Desk (σ × List Heard) (Nat × κ)} (horder : InOrder desk.state.2)
    (htold : o.errors = .strict → HeaderTold desk.state.2) :
    Settled o (d.conduct o L.traced desk) := by
  obtain ⟨told, hlog, hmembers⟩ := h.conduct o L (fun _ => trivial) desk
  unfold Settled
  rw [hlog]
  exact ⟨horder.append_members hmembers, fun ho _ => (htold ho).append told⟩

/-- A line at the level of the class either changes nothing and tells at most of a comment, or
it leads to the stage of its directive. -/
theorem Control.classLine_cases (c : Control) (l : Line) :
    (c.classLine l).Utters (fun call => call.kind = .comment) (· = c) ∨
      ∃ d next, c.stage.next? d = some next ∧ c.classLine l = c.classDirective l d next := by
  have hexcuse : ∀ fault, Dialogue.Utters (fun call => call.kind = .comment) (· = c) (do
      Dialogue.excuse fault
      return c) :=
    fun fault => ⟨trivial, fun _ => rfl⟩
  unfold Control.classLine
  split
  · refine .inl ⟨rfl, fun received => ?_⟩
    cases received with
    | none => exact rfl
    | some fault => exact trivial
  · exact .inl (hexcuse _)
  · exact .inl (hexcuse _)
  · split
    · next next hnext => exact .inr ⟨_, next, hnext, rfl⟩
    · exact .inl (hexcuse _)

/-- Comments change nothing before the class. -/
theorem AtStart.more {desk desk' : Desk (σ × List Heard) (Nat × κ)} (h : AtStart desk)
    {told : List Heard} (hlog : desk'.state.2 = desk.state.2 ++ told)
    (htold : ∀ heard ∈ told, heard.call.kind = .comment) (hnumbers : desk'.numbers = desk.numbers) :
    AtStart desk' :=
  ⟨hlog ▸ List.forall_mem_append.mpr ⟨h.comments, htold⟩, hnumbers.trans h.numbers⟩

/-- Comments stand in order. -/
theorem AtStart.order {desk : Desk (σ × List Heard) (Nat × κ)} (h : AtStart desk) :
    InOrder desk.state.2 :=
  inOrder_of_members fun heard hheard =>
    (Call.plain_of_comment (.inl (h.comments heard hheard))).1

/-- Comments change nothing in the class header. -/
theorem AtHeader.more {desk desk' : Desk (σ × List Heard) (Nat × κ)} (h : AtHeader o desk)
    {told : List Heard} (hlog : desk'.state.2 = desk.state.2 ++ told)
    (htold : ∀ heard ∈ told, heard.call.kind = .comment) (hnumbers : desk'.numbers = desk.numbers) :
    AtHeader o desk' where
  order := hlog ▸ h.order.append_members fun heard hheard =>
    (Call.plain_of_comment (.inl (htold heard hheard))).1
  members := hlog ▸ List.forall_mem_append.mpr ⟨h.members, fun heard hheard =>
    (Call.plain_of_comment (.inl (htold heard hheard))).2⟩
  told ho := hlog ▸ (h.told ho).append told
  numbers := hnumbers.trans h.numbers

/-- A line that tells at most of a comment, if all is well from there on. -/
theorem settled_of_stays {At : Desk (σ × List Heard) (Nat × κ) → Prop}
    (hmore : ∀ {desk desk'}, At desk → ∀ {told}, desk'.state.2 = desk.state.2 ++ told →
      (∀ heard ∈ told, heard.call.kind = .comment) → desk'.numbers = desk.numbers → At desk')
    (horder : ∀ {desk}, At desk → InOrder desk.state.2) {c : Control} {d : Dialogue Control}
    (hd : d.Utters (fun call => call.kind = .comment) (· = c)) {rest : Control → Dialogue Unit}
    (hrest : ∀ {desk}, At desk → Settled o ((rest c).conduct o L.traced desk))
    {desk : Desk (σ × List Heard) (Nat × κ)} (h : At desk) :
    Settled o ((d >>= rest).conduct o L.traced desk) := by
  obtain ⟨told, hlog, hcomments, hnumbers, hresult⟩ := hd.conduct o L desk
  have hnext := hmore h hlog hcomments hnumbers
  rw [Dialogue.conduct_bind]
  generalize d.conduct o L.traced desk = r at hnext hresult ⊢
  obtain ⟨fault | c', desk'⟩ := r
  · exact ⟨horder hnext, fun _ => nofun⟩
  · obtain rfl := hresult c' rfl
    exact hrest hnext

/-- One more line of the class header, in order. -/
theorem AddsHeader.order {d : Directive} {result : Except Fault (Option Unit)}
    {log told : List Heard} (h : AddsHeader o d result told) (horder : InOrder log)
    (hmembers : ∀ heard ∈ log, heard.call.isMember = false)
    (hcomments : d = .ofClass → ∀ heard ∈ log, heard.call.kind = .comment) :
    InOrder (log ++ told) := by
  rcases h with ⟨rfl, -⟩ | ⟨heard, more, rfl, -, -, hkind, hmore⟩
  · exact (List.append_nil log).symm ▸ horder
  · rw [List.append_cons]
    refine (horder.append (.singleton heard) fun earlier hearlier later hlater => ?_).append_members
      fun later hlater => (Call.plain_of_comment (.inr (hmore later hlater))).1
    obtain rfl := List.mem_singleton.mp hlater
    exact ⟨fun h => hcomments (hkind.mp h) earlier hearlier, fun _ => hmembers earlier hearlier⟩

/-- Behind one more line of the class header. -/
theorem AddsHeader.atHeader {d : Directive} {log told : List Heard}
    {desk : Desk (σ × List Heard) (Nat × κ)} {a : Option Unit} (h : AddsHeader o d (.ok a) told)
    (horder : InOrder log) (hmembers : ∀ heard ∈ log, heard.call.isMember = false)
    (hcomments : d = .ofClass → ∀ heard ∈ log, heard.call.kind = .comment)
    (hclass : d ≠ .ofClass → o.errors = .strict → HeaderTold log)
    (hlog : desk.state.2 = log ++ told) (hnumbers : desk.numbers = [some 0]) :
    AtHeader o desk := by
  refine ⟨hlog ▸ h.order o horder hmembers hcomments, ?_, fun ho => ?_, hnumbers⟩ <;>
    rw [hlog] <;> rcases h with ⟨rfl, hstrict⟩ | ⟨heard, more, rfl, hwho, hheader, hkind, hmore⟩
  · exact (List.append_nil log).symm ▸ hmembers
  · refine List.forall_mem_append.mpr ⟨hmembers, List.forall_mem_cons.mpr ⟨?_, ?_⟩⟩
    · exact Call.isMember_of_isHeader hheader
    · exact fun later hlater => (Call.plain_of_comment (.inr (hmore later hlater))).2
  · exact absurd rfl (hstrict ho a)
  · by_cases hd : d = .ofClass
    · exact ⟨heard, List.mem_append_right _ List.mem_cons_self, hwho, hkind.mpr hd⟩
    · exact (hclass hd ho).append _

/-- A line of the class header, if all is well from there on. -/
theorem settled_of_headerLine {c : Control} {l : Line} {d : Directive}
    {rest : Control → Dialogue Unit} {desk : Desk (σ × List Heard) (Nat × κ)}
    (horder : InOrder desk.state.2) (hmembers : ∀ heard ∈ desk.state.2, heard.call.isMember = false)
    (hcomments : d = .ofClass → ∀ heard ∈ desk.state.2, heard.call.kind = .comment)
    (hclass : d ≠ .ofClass → o.errors = .strict → HeaderTold desk.state.2)
    (hnumbers : desk.numbers = [some 0])
    (hrest : ∀ {desk'}, AtHeader o desk' →
      Settled o ((rest { c with stage := .header }).conduct o L.traced desk')) :
    Settled o ((c.classDirective l d .header >>= rest).conduct o L.traced desk) := by
  have hshape : c.classDirective l d .header >>= rest =
      Dialogue.attempt l.position (headerLine l d) >>= fun _ => rest { c with stage := .header } :=
    bind_assoc _ _ _
  obtain ⟨told, hlog, hsame, hadds⟩ := conduct_headerLine o L l d desk hnumbers
  rw [hshape, Dialogue.conduct_bind]
  generalize (Dialogue.attempt l.position (headerLine l d)).conduct o L.traced desk = r
    at hlog hsame hadds ⊢
  obtain ⟨fault | a, desk'⟩ := r
  · exact ⟨hlog ▸ hadds.order o horder hmembers hcomments, fun _ => nofun⟩
  · exact hrest (hadds.atHeader o horder hmembers hcomments hclass hlog hsame)

/-- The lines from the class header on. -/
theorem settled_of_header {lines : List (Except Fault Line)} {c : Control}
    (hstage : c.stage = .header) (hframes : c.frames = [])
    {desk : Desk (σ × List Heard) (Nat × κ)} (h : AtHeader o desk) :
    Settled o ((c.readLines lines).conduct o L.traced desk) := by
  induction lines generalizing c desk with
  | nil =>
    refine settled_of_within o L (within_finish ?_ trivial) h.order h.told
    exact hframes ▸ nofun
  | cons line lines ih =>
    have hstays : ∀ {d : Dialogue Control},
        d.Utters (fun call => call.kind = .comment) (· = c) →
          Settled o ((d >>= fun c => c.readLines lines).conduct o L.traced desk) :=
      fun hd => settled_of_stays o L (AtHeader.more o) AtHeader.order hd (ih hstage hframes) h
    cases line with
    | error fault => exact hstays (d := do Dialogue.excuse fault; return c) ⟨trivial, fun _ => rfl⟩
    | ok l =>
      change Settled o ((c.take l >>= fun c => c.readLines lines).conduct o L.traced desk)
      rw [Control.take_of_frames hframes]
      rcases c.classLine_cases l with hsame | ⟨d, next, hnext, hline⟩
      · exact hstays hsame
      · rw [hline]
        by_cases hheader : next = .header
        · subst hheader
          have hd : d ≠ .ofClass := by
            rintro rfl
            rw [hstage] at hnext
            exact Option.noConfusion rfl (heq_of_eq hnext)
          exact settled_of_headerLine o L h.order h.members (absurd · hd) (fun _ => h.told)
            h.numbers fun hnext => ih (c := { c with stage := .header }) rfl hframes hnext
        · have hmembers := within_classDirective (r := .ofMembers) (c := c) (l := l)
            (hframes ▸ nofun) trivial d hheader
          have hrest : Dialogue.Within .ofMembers (fun _ => True)
              (c.classDirective l d next >>= fun c => c.readLines lines) :=
            hmembers.bind fun c' hc' =>
              within_readLines trivial (fun _ _ => trivial) (fun _ _ => trivial) hc'
          exact settled_of_within o L hrest h.order h.told

/-- The lines from the first on. -/
theorem settled_of_start {lines : List (Except Fault Line)} {c : Control}
    (hstage : c.stage = .start) (hframes : c.frames = [])
    {desk : Desk (σ × List Heard) (Nat × κ)} (h : AtStart desk) :
    Settled o ((c.readLines lines).conduct o L.traced desk) := by
  induction lines generalizing c desk with
  | nil =>
    have hfinish : c.finish.Within .ofMembers fun _ => True :=
      within_finish (hframes ▸ nofun) trivial
    obtain ⟨told, hlog, hmembers⟩ := hfinish.conduct o L (fun _ => trivial) desk
    refine ⟨(congrArg InOrder hlog).mpr (h.order.append_members hmembers), fun ho hresult => ?_⟩
    -- A strict reading does not end without a class.
    obtain ⟨stage, declared, frames⟩ := c
    subst hstage hframes
    exact absurd hresult (conduct_excuse_strict L.traced ho _ _ desk ())
  | cons line lines ih =>
    have hstays : ∀ {d : Dialogue Control},
        d.Utters (fun call => call.kind = .comment) (· = c) →
          Settled o ((d >>= fun c => c.readLines lines).conduct o L.traced desk) :=
      fun hd => settled_of_stays o L AtStart.more AtStart.order hd (ih hstage hframes) h
    cases line with
    | error fault => exact hstays (d := do Dialogue.excuse fault; return c) ⟨trivial, fun _ => rfl⟩
    | ok l =>
      change Settled o ((c.take l >>= fun c => c.readLines lines).conduct o L.traced desk)
      rw [Control.take_of_frames hframes]
      rcases c.classLine_cases l with hsame | ⟨d, next, hnext, hline⟩
      · exact hstays hsame
      · obtain ⟨rfl, rfl⟩ : d = .ofClass ∧ next = .header := by
          rw [hstage] at hnext
          cases d <;> simp_all [Stage.next?]
        rw [hline]
        refine settled_of_headerLine o L h.order (fun heard hheard => ?_) (fun _ => h.comments)
          (absurd rfl) h.numbers fun hnext =>
            settled_of_header o L (c := { c with stage := .header }) rfl hframes hnext
        exact (Call.plain_of_comment (.inl (h.comments heard hheard))).2

end Opening

/-! ## Whole sources -/

/-- The calls that the class itself is told. -/
def classCalls (log : List Heard) : List Call :=
  (log.filter fun heard => heard.who = 0).map Heard.call

/-- The calls that the class itself is told, by how the reading has ended. -/
structure ClassOrder (o : Options) (result : Except Fault Unit) (calls : List Call) : Prop where
  /-- The class is told of at most once. -/
  once : calls.countP (fun call => call.kind = .header) ≤ 1
  /-- Only comments are told before. -/
  first : ∀ before call after, calls = before ++ call :: after → call.kind = .header →
    ∀ earlier ∈ before, earlier.kind = .comment
  /-- Superclass, interfaces and source file are not told behind a member. -/
  last : ∀ before call after, calls = before ++ call :: after → call.isMember = true →
    ∀ later ∈ after, later.kind ≠ .superType ∧ later.kind ≠ .implements ∧ later.kind ≠ .source
  /-- Without a header nothing of it is told. -/
  snippet : o.snippet = true → ∀ call ∈ calls, call.isHeader = false
  /-- At the end of a strict reading the class was told of. -/
  strict : o.errors = .strict → o.snippet = false → result = .ok () →
    calls.countP (fun call => call.kind = .header) = 1

/-- Only a call of the class header tells of the class. -/
theorem Call.isHeader_of_kind {call : Call} (h : call.kind = .header ∨ call.kind = .superType ∨
    call.kind = .implements ∨ call.kind = .source) : call.isHeader = true := by
  cases call <;> simp_all [Call.kind, Call.isHeader]

/-- In order, the class is told of at most once. -/
theorem countP_header_le_one {calls : List Call} (h : calls.Pairwise Call.MayPrecede) :
    calls.countP (fun call => call.kind = .header) ≤ 1 := by
  induction calls with
  | nil => exact Nat.zero_le 1
  | cons call calls ih =>
    obtain ⟨hcall, hcalls⟩ := List.pairwise_cons.mp h
    by_cases hkind : call.kind = .header
    · have hnone : calls.countP (fun call => call.kind = .header) = 0 := by
        refine List.countP_eq_zero.mpr fun later hlater hheader => ?_
        have hcomment := (hcall later hlater).1 (of_decide_eq_true hheader)
        exact absurd (hkind.symm.trans hcomment) (by decide)
      simp [hnone, hkind]
    · rw [List.countP_cons, if_neg (by simpa using hkind)]
      exact ih hcalls

/-- In a snippet nothing but members is told. -/
theorem not_isHeader_of_snippet {σ κ : Type} {o : Options} (ho : o.snippet = true)
    (L : Listener σ κ) (root : κ) (state : σ) (source : Text) :
    ∀ heard ∈ callsOf o L root state source, heard.call.isHeader = false := by
  have hcontrol : (Control.initial o).Within .ofMembers :=
    ⟨.inl (by rw [Control.initial, ho]; rfl), nofun⟩
  have hwithin : (dialogue o source).Within .ofMembers fun _ => True :=
    within_readLines trivial (fun _ _ => trivial) (fun _ _ => trivial) hcontrol
  obtain ⟨told, hlog, htold⟩ :=
    hwithin.conduct o L (fun _ => trivial) (.initial (0, root) (state, []))
  intro heard hheard
  exact htold heard ((congrArg (heard ∈ ·) hlog).mp hheard)

/-- The list of calls of any reading is in order, and a strict one tells of the class. -/
theorem settled_readTraced {σ κ : Type} (o : Options) (L : Listener σ κ) (root : κ) (state : σ)
    (source : Text) : InOrder (callsOf o L root state source) ∧
      (o.errors = .strict → o.snippet = false → (read o L root state source).1 = .ok () →
        HeaderTold (callsOf o L root state source)) := by
  cases hsnippet : o.snippet with
  | true =>
    refine ⟨?_, fun _ => nofun⟩
    exact inOrder_of_members (not_isHeader_of_snippet hsnippet L root state source)
  | false =>
    have hstage : (Control.initial o).stage = .start := by rw [Control.initial, hsnippet]; rfl
    have hstart : AtStart (.initial (0, root) (state, [])) := ⟨nofun, rfl⟩
    have hsettled : Settled o (readTraced o L root state source) :=
      settled_of_start o L hstage rfl hstart
    rw [read_untraced]
    exact ⟨hsettled.1, fun ho _ => hsettled.2 ho⟩

/-- Whatever the source, the options and the listener are, the class itself is told of its
parts in order. -/
theorem class_told_in_order {σ κ : Type} (o : Options) (L : Listener σ κ) (root : κ) (state : σ)
    (source : Text) :
    ClassOrder o (read o L root state source).1 (classCalls (callsOf o L root state source)) := by
  obtain ⟨horder, htold⟩ := settled_readTraced o L root state source
  have hpairs : (classCalls (callsOf o L root state source)).Pairwise Call.MayPrecede :=
    horder.sublist (List.filter_sublist.map Heard.call)
  refine ⟨countP_header_le_one hpairs, ?_, ?_, ?_, ?_⟩
  · intro before call after heq hkind earlier hearlier
    rw [heq] at hpairs
    exact ((List.pairwise_append.mp hpairs).2.2 earlier hearlier call List.mem_cons_self).1 hkind
  · intro before call after heq hmember later hlater
    rw [heq] at hpairs
    have hafter := (List.pairwise_cons.mp (List.pairwise_append.mp hpairs).2.1).1 later hlater
    have hheader : later.isHeader ≠ true := fun h => absurd (hafter.2 h) (by simp [hmember])
    exact ⟨fun h => hheader (Call.isHeader_of_kind (.inr (.inl h))),
      fun h => hheader (Call.isHeader_of_kind (.inr (.inr (.inl h)))),
      fun h => hheader (Call.isHeader_of_kind (.inr (.inr (.inr h))))⟩
  · intro ho call hcall
    obtain ⟨heard, hheard, rfl⟩ := List.mem_map.mp hcall
    exact not_isHeader_of_snippet ho L root state source heard (List.mem_filter.mp hheard).1
  · intro ho hsnippet hresult
    refine Nat.le_antisymm (countP_header_le_one hpairs) (List.countP_pos_iff.mpr ?_)
    obtain ⟨heard, hheard, hwho, hkind⟩ := htold ho hsnippet hresult
    exact ⟨heard.call, List.mem_map_of_mem (List.mem_filter.mpr ⟨hheard, decide_eq_true hwho⟩),
      decide_eq_true hkind⟩

/-- The first class line is malformed and skipped over, but the header has begun: the second
one comes too late, and so does the superclass behind the field. -/
example : (classCalls (callsOf ⟨true, false, false, .ignore⟩ (Recorder.listener .obliging)
    (Recorder.root .ofClass) .initial
    "# a\n.class x\n.class La;\n.source \"a\"\n.field x:I\n.super Lb;".toList)).map Call.kind =
      [.comment, .source, .field, .finish] := by
  decide +kernel

end Smali
