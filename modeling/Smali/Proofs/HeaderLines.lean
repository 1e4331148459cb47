import Smali.Proofs.ClassBodies
import Smali.Proofs.ClassCalls

/-!
# The lines of the class header

The header of a class is what stands in front of its first member. A reader is in the header or it
is not; which lines of the header it has already read makes no difference to it. So a reading that
accepts a source tells of every line of the header, in order, and of nothing else that belongs
there: there are as many superclasses and source files as there are lines that give one.
-/

namespace Smali

open scoped Dialogue.Laws

/-! ## Headers -/

/-- Whether a line opens a member. -/
def Line.opensBody (l : Line) : Bool := l.directive?.any Directive.opensBody

/-- The lines of code in front of the first one that opens a member. -/
def headerPart (lines : List (Except Fault Line)) : List Line :=
  ((lines.filterMap Except.toOption).filter fun l => !l.isComment).takeWhile fun l => !l.opensBody

/-- The lines of the header of a source. A snippet has none. -/
def headerLines (o : Options) (source : Text) : List Line :=
  if o.snippet then [] else headerPart (scanLines source)

/-- A comment does not count as a line of the header. -/
theorem headerPart_comment {l : Line} (hl : l.isComment = true) (rest : List (Except Fault Line)) :
    headerPart (.ok l :: rest) = headerPart rest := by
  simp [headerPart, Except.toOption, hl]

/-- A line that opens a member ends the header. -/
theorem headerPart_member {l : Line} (hl : l.isComment = false) (hbody : l.opensBody = true)
    (rest : List (Except Fault Line)) : headerPart (.ok l :: rest) = [] := by
  simp [headerPart, Except.toOption, hl, hbody]

/-- Any other line of code is one of the header. -/
theorem headerPart_header {l : Line} (hl : l.isComment = false) (hbody : l.opensBody = false)
    (rest : List (Except Fault Line)) : headerPart (.ok l :: rest) = l :: headerPart rest := by
  simp [headerPart, Except.toOption, hl, hbody]

/-- The calls of a class header among those of a reading. -/
def headerCalls (log : List Heard) : List Call := (log.map Heard.call).filter Call.isHeader

/-- Two portions of calls. -/
theorem headerCalls_append (log more : List Heard) :
    headerCalls (log ++ more) = headerCalls log ++ headerCalls more := by
  rw [headerCalls, List.map_append, List.filter_append]
  rfl

/-- Calls of members and comments are not counted. -/
theorem headerCalls_eq_nil {log : List Heard} (h : ∀ heard ∈ log, heard.call.isHeader = false) :
    headerCalls log = [] := by
  refine List.filter_eq_nil_iff.mpr fun call hcall => ?_
  obtain ⟨heard, hheard, rfl⟩ := List.mem_map.mp hcall
  exact ne_true_of_eq_false (h heard hheard)

/-! ## One line -/

/-- Whether a directive stands in a class header. -/
def Directive.ofHeader (d : Directive) : Bool :=
  d = .ofClass || d = .superType || d = .implements || d = .source

/-- The call of a line of the class header is known from the line. -/
theorem utters_headerCall_classCall {l : Line} {d : Directive} (hd : l.directive? = some d)
    (hheader : d.ofHeader = true) {P : Call → Prop} :
    (headerCall l d).run.Utters P fun result => ∀ call, result = .ok call →
      l.classCall? = some call := by
  have hcheck : ∀ (what : Text) (type : TypeName) {call : Call}, l.classCall? = some call →
      ((do
        Passage.checkObject l what type
        return call : Passage Call) : Dialogue (Except Fault Call)).Utters P
          fun result => ∀ call, result = .ok call → l.classCall? = some call := by
    intro what type call hcall
    refine ⟨trivial, fun received => ?_⟩
    cases received with
    | none => exact fun _ h => Except.ok.inj h ▸ hcall
    | some fault => exact nofun
  obtain ((rfl | rfl) | rfl) | rfl :
      ((d = .ofClass ∨ d = .superType) ∨ d = .implements) ∨ d = .source := by
    simpa [Directive.ofHeader] using hheader
  all_goals unfold headerCall
  · cases h : l.classHeader with
    | error fault => exact nofun
    | ok header => exact hcheck _ _ (by simp [Line.classCall?, hd, h])
  · cases h : l.singleType with
    | error fault => exact nofun
    | ok type => exact hcheck _ _ (by simp [Line.classCall?, hd, h])
  · cases h : l.singleType with
    | error fault => exact nofun
    | ok type => exact hcheck _ _ (by simp [Line.classCall?, hd, h])
  · cases h : l.sourceName with
    | error fault => exact nofun
    | ok name =>
      rintro call hcall
      obtain rfl := Except.ok.inj hcall
      simp [Line.classCall?, hd, h]

/-- More calls are allowed. -/
theorem Dialogue.Utters.weaken {α : Type} {P P' : Call → Prop} {Q : α → Prop} {d : Dialogue α}
    (h : d.Utters P Q) (hP : ∀ call, P call → P' call) : d.Utters P' Q := by
  induction d with
  | done a => exact h
  | halt fault => exact trivial
  | act first next ih =>
    refine ⟨?_, fun received => ih received (h.2 received)⟩
    have hfirst := h.1
    cases first with
    | tell call | remark call => exact hP call hfirst
    | _ => exact hfirst

/-- A line of the class header tells its call and perhaps the comment behind it. -/
theorem utters_headerLine {l : Line} {d : Directive} (hd : l.directive? = some d)
    (hheader : d.ofHeader = true) :
    (Dialogue.attempt l.position (headerLine l d)).Utters
      (fun call => l.classCall? = some call ∨ call.kind = .eolComment) fun _ => True := by
  rw [attempt_headerLine]
  refine (utters_headerCall_classCall hd hheader).bind fun result hresult => ?_
  cases result with
  | error fault => exact utters_excuse _ _
  | ok call =>
    obtain ⟨next, hact, -⟩ := utters_tellLine l call none
    dsimp only
    rw [hact]
    refine ⟨.inl (hresult call rfl), fun received => ?_⟩
    obtain ⟨next', hact', hnext⟩ := utters_tellLine l call received
    obtain rfl : next = next' := by
      injection hact.symm.trans hact'
    exact hnext.weaken fun _ => .inr

/-- A comment is told at most, where no frame is open. -/
theorem utters_take_comment {c : Control} (hframes : c.frames = []) {l : Line}
    (hl : l.isComment = true) :
    (c.take l).Utters (fun call => call.kind = .comment) (· = c) := by
  obtain ⟨text, htext⟩ := Option.isSome_iff_exists.mp hl
  rw [Control.take_comment hframes htext]
  refine ⟨rfl, fun received => ?_⟩
  cases received with
  | none => exact rfl
  | some fault => exact trivial

/-- A dialogue in two parts that is conducted to its end is so conducted part by part. -/
theorem Dialogue.conduct_of_bind_ok {σ κ α β : Type} {o : Options} {L : Listener σ κ}
    {d : Dialogue α} {f : α → Dialogue β} {desk : Desk σ κ} {b : β}
    (hok : ((d >>= f).conduct o L desk).1 = .ok b) :
    ∃ a desk', d.conduct o L desk = (.ok a, desk') ∧
      (d >>= f).conduct o L desk = (f a).conduct o L desk' := by
  rw [conduct_bind] at hok ⊢
  generalize d.conduct o L desk = r at hok ⊢
  obtain ⟨fault | a, desk'⟩ := r
  · exact nomatch hok
  · exact ⟨a, desk', rfl, rfl⟩

section Reading

variable {σ κ : Type} {o : Options} (L : Listener σ κ)

/-- In a strict reading a line of the class header adds its call to the calls of the header. -/
theorem headerCalls_of_headerLine (hstrict : o.errors = .strict) {l : Line} {d : Directive}
    (hd : l.directive? = some d) (hheader : d.ofHeader = true)
    {desk desk' : Desk (σ × List Heard) (Nat × κ)} (hdesk : desk.numbers = [some 0])
    {a : Option Unit} (hok : (Dialogue.attempt l.position (headerLine l d)).conduct o L.traced desk =
      (.ok a, desk')) :
    desk'.numbers = [some 0] ∧ ∃ call, l.classCall? = some call ∧
      headerCalls desk'.state.2 = headerCalls desk.state.2 ++ [call] := by
  obtain ⟨told, hlog, hnumbers, hadds⟩ := conduct_headerLine o L l d desk hdesk
  obtain ⟨told', hlog', hcalls, -⟩ := (utters_headerLine hd hheader).conduct o L desk
  obtain rfl : told = told' := List.append_cancel_left (hlog.symm.trans hlog')
  rw [hok] at hlog hnumbers hadds
  obtain ⟨-, hskipped⟩ | ⟨heard, more, rfl, -, hhead, -, hmore⟩ := hadds
  · exact absurd rfl (hskipped hstrict a)
  · obtain ⟨hcall, -⟩ := List.forall_mem_cons.mp hcalls
    refine ⟨hnumbers, heard.call, hcall.resolve_right fun hkind => ?_, ?_⟩
    · exact absurd ((Call.plain_of_comment (.inr hkind)).1.symm.trans hhead) Bool.false_ne_true
    · have hnone := headerCalls_eq_nil fun later hlater =>
        (Call.plain_of_comment (.inr (hmore later hlater))).1
      dsimp only at hlog
      rw [hlog, headerCalls_append, ← List.singleton_append, headerCalls_append, hnone,
        List.append_nil]
      simp [headerCalls, hhead]

/-- A comment adds nothing to the calls of the header. -/
theorem headerCalls_of_comment {c : Control} (hframes : c.frames = []) {l : Line}
    (hl : l.isComment = true) {desk desk' : Desk (σ × List Heard) (Nat × κ)} {c' : Control}
    (hok : (c.take l).conduct o L.traced desk = (.ok c', desk')) :
    c' = c ∧ desk'.numbers = desk.numbers ∧
      headerCalls desk'.state.2 = headerCalls desk.state.2 := by
  obtain ⟨told, hlog, hcomments, hnumbers, hstays⟩ :=
    (utters_take_comment hframes hl).conduct o L desk
  rw [hok] at hlog hnumbers hstays
  refine ⟨hstays c' rfl, hnumbers, ?_⟩
  dsimp only at hlog
  rw [hlog, headerCalls_append, headerCalls_eq_nil fun heard hheard =>
    (Call.plain_of_comment (.inl (hcomments heard hheard))).1, List.append_nil]

/-- In a strict reading a line of code in front of the members belongs to the header, or it opens
the first member. -/
theorem classLine_of_strict (hstrict : o.errors = .strict) {c : Control} {l : Line}
    (hl : l.isComment = false) {rest : Control → Dialogue Unit}
    {desk : Desk (σ × List Heard) (Nat × κ)}
    (hok : ((c.classLine l >>= rest).conduct o L.traced desk).1 = .ok ()) :
    ∃ d next, l.directive? = some d ∧ c.stage.next? d = some next ∧
      c.classLine l = c.classDirective l d next := by
  have hrefused : ∀ fault, c.classLine l = (do Dialogue.excuse fault; return c) → False := by
    intro fault hline
    rw [hline, bind_assoc] at hok
    exact conduct_excuse_strict L.traced hstrict _ _ desk () hok
  cases hd : l.directive? with
  | none =>
    exact (hrefused (l.grammar ("unexpected '" ++ l.text ++ "' outside of a method"))
      (by rw [Control.classLine, comment?_eq_none hl, hd])).elim
  | some d =>
    cases hnext : c.stage.next? d with
    | none =>
      obtain ⟨fault, hline⟩ := Control.classLine_of_refused hl hd hnext
      exact (hrefused fault hline).elim
    | some next => exact ⟨d, next, rfl, hnext, Control.classLine_of_next hl hd hnext⟩

/-- Everything behind the class header. -/
theorem headerCalls_of_within {Q : Unit → Prop} {d : Dialogue Unit} (h : d.Within .ofMembers Q)
    (desk : Desk (σ × List Heard) (Nat × κ)) :
    headerCalls (d.conduct o L.traced desk).2.state.2 = headerCalls desk.state.2 := by
  obtain ⟨told, hlog, hmembers⟩ := h.conduct o L (fun _ => trivial) desk
  rw [hlog, headerCalls_append, headerCalls_eq_nil hmembers, List.append_nil]

/-- From the line that opens the first member on no call of the header is made. -/
theorem headerCalls_of_member {c : Control} (hframes : c.frames = []) (l : Line) (d : Directive)
    {next : Stage} (hmember : next ≠ .header) (lines : List (Except Fault Line))
    (desk : Desk (σ × List Heard) (Nat × κ)) :
    headerCalls ((c.classDirective l d next >>= fun c => c.readLines lines).conduct o L.traced
      desk).2.state.2 = headerCalls desk.state.2 := by
  have hline : (c.classDirective l d next).Within .ofMembers (Control.Within .ofMembers) :=
    within_classDirective (hframes ▸ nofun) trivial d hmember
  exact headerCalls_of_within L (hline.bind fun c' hc' =>
    within_readLines trivial (fun _ _ => trivial) (fun _ _ => trivial) hc') desk

/-- Where a header may stand, a directive either belongs to it or opens a member. -/
theorem next?_in_header {stage next : Stage} {d : Directive}
    (hstage : stage = .start ∨ stage = .header) (h : stage.next? d = some next) :
    (next = .header ∧ d.ofHeader = true ∧ d.opensBody = false) ∨
      (next ≠ .header ∧ d.opensBody = true) := by
  obtain rfl | rfl := hstage <;> cases d <;> simp_all [Stage.next?, Directive.ofHeader,
    Directive.opensBody] <;> simp [← h]

/-- A strict reading from the header on tells of every line of the header. -/
theorem headerCalls_of_readLines (hstrict : o.errors = .strict) {lines : List (Except Fault Line)}
    {c : Control} (hstage : c.stage = .start ∨ c.stage = .header) (hframes : c.frames = [])
    {desk : Desk (σ × List Heard) (Nat × κ)} (hdesk : desk.numbers = [some 0])
    (hok : ((c.readLines lines).conduct o L.traced desk).1 = .ok ()) :
    ∃ calls, headerCalls ((c.readLines lines).conduct o L.traced desk).2.state.2 =
        headerCalls desk.state.2 ++ calls ∧
      (headerPart lines).map Line.classCall? = calls.map some := by
  induction lines generalizing c desk with
  | nil =>
    have hfinish : c.finish.Within .ofMembers fun _ => True :=
      within_finish (hframes ▸ nofun) trivial
    exact ⟨[], by rw [List.append_nil]; exact headerCalls_of_within L hfinish desk, rfl⟩
  | cons line lines ih =>
    cases line with
    | error fault => exact absurd hok (conduct_excuse_strict L.traced hstrict _ _ desk ())
    | ok l =>
      change ((c.take l >>= fun c => c.readLines lines).conduct o L.traced desk).1 = _ at hok
      change ∃ calls, headerCalls ((c.take l >>= fun c => c.readLines lines).conduct o L.traced
        desk).2.state.2 = _ ∧ _
      cases hl : l.isComment with
      | true =>
        obtain ⟨c', desk', htake, hrest⟩ := Dialogue.conduct_of_bind_ok hok
        rw [hrest] at hok ⊢
        obtain ⟨rfl, hnumbers, hsame⟩ := headerCalls_of_comment L hframes hl htake
        rw [← hsame, headerPart_comment hl]
        exact ih hstage hframes (hnumbers.trans hdesk) hok
      | false =>
        rw [Control.take_of_frames hframes] at hok ⊢
        obtain ⟨d, next, hd, hnext, hline⟩ := classLine_of_strict L hstrict hl hok
        have hopens : l.opensBody = d.opensBody := by rw [Line.opensBody, hd, Option.any_some]
        rw [hline] at hok ⊢
        obtain ⟨rfl, hheader, hbody⟩ | ⟨hmember, hbody⟩ := next?_in_header hstage hnext
        · have hshape : c.classDirective l d .header >>= (fun c => c.readLines lines) =
              Dialogue.attempt l.position (headerLine l d) >>= fun _ =>
                ({ c with stage := .header } : Control).readLines lines := bind_assoc _ _ _
          rw [hshape] at hok ⊢
          obtain ⟨a, desk', hattempt, hrest⟩ := Dialogue.conduct_of_bind_ok hok
          rw [hrest] at hok ⊢
          obtain ⟨hnumbers, call, hcall, htold⟩ :=
            headerCalls_of_headerLine L hstrict hd hheader hdesk hattempt
          obtain ⟨calls, hcalls, hlines⟩ :=
            ih (c := { c with stage := .header }) (.inr rfl) hframes hnumbers hok
          refine ⟨call :: calls, ?_, ?_⟩
          · rw [hcalls, htold, List.append_assoc]
            rfl
          · rw [headerPart_header hl (hopens.trans hbody), List.map_cons, List.map_cons, hlines,
              hcall]
        · refine ⟨[], ?_, by rw [headerPart_member hl (hopens.trans hbody)]; rfl⟩
          rw [List.append_nil]
          exact headerCalls_of_member L hframes l d hmember lines desk

end Reading

/-! ## Whole sources -/

/-- A line tells of a superclass or of a source file by its directive. -/
theorem Line.kind_of_classCall? {l : Line} {call : Call} (h : l.classCall? = some call) :
    (l.directive? = some .superType ↔ call.kind = .superType) ∧
      (l.directive? = some .source ↔ call.kind = .source) := by
  unfold classCall? annotationCall? at h
  split at h
  case h_8 => exact nomatch h
  all_goals
    next hd =>
      obtain ⟨a, -, rfl⟩ := Option.map_eq_some_iff.mp h
      simp [hd, Call.kind]

/-- Lines and their calls are counted alike. -/
theorem countP_of_classCalls {lines : List Line} {calls : List Call}
    (h : lines.map Line.classCall? = calls.map some) {p : Line → Bool} {q : Call → Bool}
    (hpq : ∀ l call, l.classCall? = some call → p l = q call) : calls.countP q = lines.countP p := by
  induction lines generalizing calls with
  | nil =>
    obtain rfl : calls = [] := List.map_eq_nil_iff.mp h.symm
    rfl
  | cons l lines ih =>
    cases calls with
    | nil => exact nomatch h
    | cons call calls =>
      obtain ⟨hl, hlines⟩ := List.cons.inj h
      rw [List.countP_cons, List.countP_cons, ih hlines, hpq l call hl]

/-- A strict reading that comes to its end tells of every line of the header. -/
theorem classCalls_of_headerLines {σ κ : Type} {o : Options} (hstrict : o.errors = .strict)
    (L : Listener σ κ) (root : κ) (state : σ) {source : Text}
    (hread : (read o L root state source).1 = .ok ()) :
    (headerLines o source).map Line.classCall? =
      (headerCalls (callsOf o L root state source)).map some := by
  unfold headerLines
  cases hsnippet : o.snippet with
  | true =>
    rw [headerCalls_eq_nil (not_isHeader_of_snippet hsnippet L root state source)]
    rfl
  | false =>
    have hstage : (Control.initial o).stage = .start := by rw [Control.initial, hsnippet]; rfl
    rw [read_untraced] at hread
    have hnumbers : (Desk.initial (0, root) (state, ([] : List Heard))).numbers = [some 0] := rfl
    obtain ⟨calls, hcalls, hlines⟩ :=
      headerCalls_of_readLines L hstrict (.inl hstage) rfl hnumbers hread
    rw [if_neg Bool.false_ne_true, hlines]
    exact congrArg (List.map some) hcalls.symm

/-- **The header is told line by line.** A strict reading that accepts a source tells of every line
of its header, in order, and of nothing else that belongs there. So a superclass is told of as often
as a line of the header gives one, and a source file as well; it is at most once only where the
header has at most one such line. -/
theorem header_told_line_by_line {σ κ : Type} {o : Options} (hstrict : o.errors = .strict)
    (L : Listener σ κ) (root : κ) (state : σ) {source : Text}
    (hread : (read o L root state source).1 = .ok ()) :
    let calls := (callsOf o L root state source).map Heard.call
    let header := headerLines o source
    header.map Line.classCall? = (calls.filter Call.isHeader).map some ∧
      calls.countP (fun call => call.kind = .superType) =
        header.countP (fun l => l.directive? = some .superType) ∧
      calls.countP (fun call => call.kind = .source) =
        header.countP (fun l => l.directive? = some .source) := by
  intro calls header
  have hlines : header.map Line.classCall? = (calls.filter Call.isHeader).map some :=
    classCalls_of_headerLines hstrict L root state hread
  have hcount : ∀ kind : CallKind, (∀ call : Call, call.kind = kind → call.isHeader = true) →
      calls.countP (fun call => call.kind = kind) =
        (calls.filter Call.isHeader).countP fun call => call.kind = kind := by
    intro kind hkind
    rw [List.countP_filter]
    refine List.countP_congr fun call _ => ?_
    simp only [decide_eq_true_eq, Bool.and_eq_true]
    exact ⟨fun h => ⟨h, hkind call h⟩, And.left⟩
  refine ⟨hlines, ?_, ?_⟩
  · rw [hcount .superType fun call h => Call.isHeader_of_kind (.inr (.inl h))]
    exact countP_of_classCalls hlines fun l call hcall =>
      decide_eq_decide.mpr (Line.kind_of_classCall? hcall).1
  · rw [hcount .source fun call h => Call.isHeader_of_kind (.inr (.inr (.inr h)))]
    exact countP_of_classCalls hlines fun l call hcall =>
      decide_eq_decide.mpr (Line.kind_of_classCall? hcall).2

/-- A header with two superclasses around a comment and other lines. -/
theorem header_told_line_by_line_at :
    let L := Recorder.listener .obliging
    let source := ".class La;\n.super Lb; # d\n# c\n.source \"a\"\n.super Lc;\n.field f:I".toList
    (read .default L (Recorder.root .ofClass) .initial source).1 = .ok () ∧
      (headerLines .default source).length = 4 ∧
      ((callsOf .default L (Recorder.root .ofClass) .initial source).map Heard.call).countP
          (fun call => call.kind = .superType) =
        (headerLines .default source).countP fun l => l.directive? = some .superType := by
  intro L source
  have hread : (read .default L (Recorder.root .ofClass) .initial source).1 = .ok () := by
    decide +kernel
  exact ⟨hread, by decide +kernel, (header_told_line_by_line rfl L _ _ hread).2.1⟩

/-- A second superclass and a second source file are accepted in the header of a class. -/
theorem second_parent_accepted :
    let reading := fun source : String => read .default (Recorder.listener .obliging)
      (Recorder.root .ofClass) .initial source.toList
    let told := fun (kind : CallKind) (source : String) =>
      ((callsOf .default (Recorder.listener .obliging) (Recorder.root .ofClass) .initial
        source.toList).map Heard.call).countP fun call => call.kind = kind
    (reading ".class La;\n.super Lb;\n.super Lc;\n").1 = .ok () ∧
      told .superType ".class La;\n.super Lb;\n.super Lc;\n" = 2 ∧
      (reading ".class La;\n.source \"a\"\n.source \"b\"\n").1 = .ok () ∧
      told .source ".class La;\n.source \"a\"\n.source \"b\"\n" = 2 := by
  decide +kernel

end Smali
