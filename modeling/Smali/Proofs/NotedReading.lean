import Smali.Proofs.NotedCalls

/-!
# Reading calls with comments

Each line that is written for a call tells nothing before the last of them is read, and then it
tells the call and the comment behind it. Between the calls a reader finds the comments on lines of
their own. Those in a field wait for the next line of code, and so they are told in front of it.
-/

namespace Smali

open Text

/-! ## Lines with comments behind them -/

/-- What can be put behind a line, and the comments that are told of it. -/
inductive Text.Remarks : Text → List Call → Prop where
  /-- Nothing. -/
  | nil : Remarks [] []
  /-- A comment. -/
  | comment {w words : Text} (hw : IsBlank w) (hne : w ≠ []) (hwords : words.IsNote) :
    Remarks (w ++ Page.comment words) [.eolComment words]

/-- A text that is read as a line of code without a comment. -/
structure Line.IsCodeOf (l : Line) (t : Text) : Prop where
  /-- It is read as the line. -/
  line : lineOf t = some l
  /-- There is code. -/
  code : l.code ≠ []
  /-- There is no comment. -/
  remark : l.remark = none

/-- A line of code is no comment. -/
theorem Line.IsCodeOf.isComment {l : Line} {t : Text} (h : l.IsCodeOf t) : l.isComment = false := by
  simp [Line.isComment, Line.comment?, h.code]

/-- A line that reads as another line, with certain comments. -/
structure Line.Shows (p l : Line) (remarks : List Call) : Prop where
  /-- It holds code. -/
  code : p.isComment = false
  /-- Its comments. -/
  remarks : p.remarks = remarks
  /-- It goes on with a field if the other line does. -/
  stays : p.staysInField = l.staysInField
  /-- It leads where the other line leads. -/
  take : ∀ (validate : Bool) (st : Stance), st.take validate p = st.take validate l

/-- What is put behind a line changes neither its code nor its text. -/
theorem Text.Remarks.exists_scan {rest : Text} {remarks : List Call} (h : rest.Remarks remarks)
    {t : Text} {s : Scanned} (hscan : scan 1 1 t = .ok s) (hremark : s.remark = none) :
    ∃ s', scan 1 1 (t ++ rest) = .ok s' ∧ s'.code = s.code ∧
      Text.trim s'.text = Text.trim s.text ∧
      (s'.remark.map (commentBody ∘ Prod.fst)).toList.map Call.eolComment = remarks := by
  cases h with
  | nil => exact ⟨s, by rw [List.append_nil, hscan], rfl, rfl, by rw [hremark]; rfl⟩
  | @comment w words hw hne hnote =>
    obtain ⟨more, hmore, -⟩ := Page.exists_comment hnote.inline
    obtain ⟨s', hs', hcode, htext, -, hfound⟩ := scan_append_remark hw hne more hscan
    obtain ⟨r, hr, hfirst⟩ := Option.map_eq_some_iff.mp (hfound hremark)
    refine ⟨s', hmore ▸ hs', hcode, ?_, ?_⟩
    · rw [← Text.trim_trimRight, htext, Text.trim_trimRight]
    · rw [hr, Option.map_some, Function.comp_apply, hfirst, ← hmore, hnote.commentBody_comment]
      rfl

/-- A line of code with what is put behind it. -/
theorem Line.IsCodeOf.exists_shows {l : Line} {t rest : Text} {remarks : List Call}
    (h : l.IsCodeOf t) (hrest : rest.Remarks remarks) :
    ∃ p, physicalLine? (t ++ rest) = some p ∧ p.Shows l remarks := by
  obtain ⟨s, hs, rfl⟩ := Option.map_eq_some_iff.mp h.line
  have hscan := toOption_eq_some.mp hs
  have hremark : s.remark = none := Option.map_eq_none_iff.mp h.remark
  obtain ⟨s', hscan', hcode, htext, hwords⟩ := hrest.exists_scan hscan hremark
  have hseen := seen_physicalLine? (t ++ rest)
  rw [hscan', toOption_ok, Option.map_some] at hseen
  obtain ⟨p, hp, hseen⟩ := Option.map_eq_some_iff.mp hseen
  obtain ⟨hline, hbody⟩ := Prod.mk.inj hseen
  have hne : p.code.isEmpty = false := by
    have hcodes : p.code.isEmpty = s'.code.isEmpty := by
      simpa [Line.unplaced, Scanned.line] using congrArg (List.isEmpty ∘ Line.code) hline
    rw [hcodes, hcode, List.isEmpty_eq_false_iff]
    exact fun hnil => h.code (by rw [Scanned.line, hnil]; rfl)
  have hpcode : p.isComment = false := by
    simp [Line.isComment, Line.comment?, hne]
  have hbare : s'.line = { s.line with remark := s'.line.remark } := by
    rw [Scanned.line, Scanned.line, hcode, htext]
  have htake : ∀ (validate : Bool) (st : Stance),
      st.take validate s'.line = st.take validate s.line := by
    intro validate st
    rw [hbare]
    cases s'.line.remark with
    | none => rw [← h.remark]
    | some r => exact Stance.take_remark st (.inl h.code) r
  have hdirective : p.directive? = s.line.directive? := by
    rw [← Line.directive?_unplaced, hline, hbare]
    rfl
  have hcloses : p.closes "field" = s.line.closes "field" := by
    rw [← Line.closes_unplaced, hline, hbare]
    rfl
  refine ⟨p, hp, hpcode, ?_, ?_, fun validate st => ?_⟩
  · rw [Line.remarks_of_code hpcode, Line.eolCall?, Line.eolComment?, hne,
      if_neg Bool.false_ne_true, hbody, ← hwords]
    cases s'.remark <;> rfl
  · rw [Line.staysInField, hcloses, hdirective]
    rfl
  · rw [← Stance.take_unplaced, hline, htake]

/-- A line that is a comment. -/
theorem Text.IsNote.exists_line {words : Text} (h : words.IsNote) :
    ∃ p, physicalLine? (Page.comment words) = some p ∧ p.isComment = true ∧
      p.remarks = [.comment words] := by
  obtain ⟨more, hmore, -⟩ := Page.exists_comment h.inline
  refine ⟨⟨[], [], some ⟨.comment, '#' :: more, ⟨1, 1⟩⟩, ⟨1, 1⟩⟩, ?_, rfl, ?_⟩
  · rw [hmore, physicalLine?, Line.ofText, scan_comment]
    rfl
  · have hbody := h.commentBody_comment
    rw [hmore] at hbody
    change [Call.comment (commentBody ('#' :: more))] = _
    rw [hbody]

/-! ## Lines that lead a watch on -/

namespace Watch

variable {validate : Bool}

/-- Lines that lead a watch to another one, with calls that they tell, whatever follows. -/
def Leads (validate : Bool) (w : Watch) (lines : List (Option Line)) (w' : Watch)
    (calls : List Call) : Prop :=
  ∀ rest, w.readAll validate (lines ++ rest) = (w'.readAll validate rest).map (calls ++ ·)

variable {w mid w' : Watch} {first second : List (Option Line)} {calls more : List Call}

/-- No lines. -/
theorem Leads.nil (validate : Bool) (w : Watch) : Leads validate w [] w [] :=
  fun _ => Option.map_id'.symm

/-- Lines one after another. -/
theorem Leads.append (h : Leads validate w first mid calls)
    (h' : Leads validate mid second w' more) :
    Leads validate w (first ++ second) w' (calls ++ more) := by
  intro rest
  rw [List.append_assoc, h, h', Option.map_map]
  congr 1
  funext told
  exact (List.append_assoc _ _ _).symm

/-- One line. -/
theorem leads_of_take {l : Line} (h : w.take validate l = some (w', calls)) :
    Leads validate w [some l] w' calls := by
  intro rest
  rw [List.singleton_append, readAll, h, Option.bind_some]

/-- A comment on a line of its own is told, or it waits. -/
theorem leads_note (validate : Bool) (st : Stance) (waiting : List Call) {words : Text}
    (h : words.IsNote) :
    Leads validate ⟨st, waiting⟩ [physicalLine? (Page.comment words)]
      ⟨st, if st.defers then waiting ++ [.comment words] else waiting⟩
      (if st.defers then [] else [.comment words]) := by
  obtain ⟨p, hp, hcomment, hremarks⟩ := h.exists_line
  rw [hp]
  refine leads_of_take ?_
  rw [take, if_pos hcomment, hremarks]
  split <;> rfl

/-- A line of code that leaves no array open. -/
theorem leads_line {st st' : Stance} {l : Line} {t rest : Text} {told remarks : List Call}
    (hl : l.IsCodeOf t) (htake : st.take validate l = some (st', told))
    (hbraces : st'.braces = none) (hrest : rest.Remarks remarks) (waiting : List Call) :
    Leads validate ⟨st, waiting⟩ [physicalLine? (t ++ rest)] ⟨st', []⟩
      (st.weave l waiting told ++ remarks) := by
  obtain ⟨p, hp, hcode, hremarks, hstays, hsame⟩ := hl.exists_shows hrest
  have hweave : st.weave p waiting told = st.weave l waiting told := by
    rw [Stance.weave, Stance.weave, hstays]
  rw [hp]
  refine leads_of_take ?_
  rw [take_of_code hcode, hsame, htake, Option.map_some]
  unfold heed
  rw [hbraces, if_neg (by simp), hremarks, hweave]

/-- A line of code in an array that stays open. -/
theorem leads_open {st st' : Stance} {l : Line} {t : Text} (hl : l.IsCodeOf t)
    (htake : st.take validate l = some (st', [])) (hbraces : st'.braces.isSome = true) :
    Leads validate ⟨st, []⟩ [physicalLine? t] ⟨st', []⟩ [] := by
  obtain ⟨p, hp, hcode, hremarks, -, hsame⟩ := hl.exists_shows .nil
  rw [List.append_nil] at hp
  rw [hp]
  refine leads_of_take ?_
  rw [take_of_code hcode, hsame, htake, Option.map_some]
  unfold heed
  rw [if_pos hbraces, hremarks]
  rfl

end Watch

/-! ## Lines of one call -/

/-- Lines that tell nothing before the last of them. -/
inductive Stance.Spells (validate : Bool) : Stance → List Text → Stance → List Call → Prop where
  /-- The last line. -/
  | last {st st' : Stance} {l : Line} {t : Text} {calls : List Call} (hl : l.IsCodeOf t)
    (htake : st.take validate l = some (st', calls)) (hbraces : st'.braces = none) :
    Spells validate st [t] st' calls
  /-- A line that leaves an array open. -/
  | more {st mid st' : Stance} {l : Line} {t : Text} {lines : List Text} {calls : List Call}
    (hl : l.IsCodeOf t) (htake : st.take validate l = some (mid, []))
    (hbraces : mid.braces.isSome = true) (h : Spells validate mid lines st' calls) :
    Spells validate st (t :: lines) st' calls

namespace Stance

variable {validate : Bool} {st st' : Stance} {lines : List Text} {calls : List Call}

/-- There is a last line. -/
theorem Spells.exists_concat (h : Spells validate st lines st' calls) :
    ∃ front last, lines = front ++ [last] :=
  (List.eq_nil_or_concat' lines).resolve_left (by cases h <;> exact List.cons_ne_nil _ _)

/-- They tell what they tell, and then the comment behind the last of them. -/
theorem Spells.leads (h : Spells validate st lines st' calls) {front : List Text} {last rest : Text}
    (hlines : lines = front ++ [last]) {remarks : List Call} (hrest : rest.Remarks remarks) :
    Watch.Leads validate ⟨st, []⟩ ((front ++ [last ++ rest]).map physicalLine?) ⟨st', []⟩
      (calls ++ remarks) := by
  induction h generalizing front with
  | last hl htake hbraces =>
    obtain ⟨rfl, hlast⟩ := List.append_eq_singleton_iff.mp hlines.symm |>.resolve_right (by simp)
    obtain rfl := List.cons.inj hlast |>.1
    have hleads := Watch.leads_line hl htake hbraces hrest []
    rwa [weave_nil] at hleads
  | more hl htake hbraces h ih =>
    cases front with
    | nil =>
      obtain ⟨front, last, rfl⟩ := h.exists_concat
      simp at hlines
    | cons t front =>
      obtain ⟨rfl, hmore⟩ := List.cons.inj hlines
      rw [List.cons_append, List.map_cons, ← List.singleton_append]
      exact (Watch.leads_open hl htake hbraces).append (ih hmore)

end Stance

/-! ## Calls that are read from their lines -/

/-- A call, no comment, whose lines are read as the call and as nothing else. -/
structure Call.IsAudible (call : Call) : Prop where
  /-- All its lines hold code and no comment. -/
  code : ∀ t ∈ call.texts.flatMap codeLines, ∃ l : Line, l.IsCodeOf t
  /-- Its line, if it has one of its own, is read as the call. -/
  legible : ∀ text, call.line? = some text → call.IsLegible
  /-- The lines of an element are read as the element. -/
  element : call.suits .ofAnnotationBody = true → call ≠ .finish →
    Stance.Spells false ⟨.within 1, none⟩ (call.texts.flatMap codeLines)
      ⟨.within (call.nestFrom 1), none⟩ [call]

/-- An element of an annotation is the same in every other one. -/
theorem Line.elementCall?_of_ne_finish {l : Line} {name : Text} {call : Call}
    (h : l.elementCall? name = some call) (hcall : call ≠ .finish) (other : Text) :
    l.elementCall? other = some call := by
  unfold elementCall? at h ⊢
  split at h
  · exact h
  · split at h
    · exact absurd (Option.some.inj h).symm hcall
    · cases h

namespace Stance

variable {validate : Bool} {s t : Site}

/-- A line that ends nothing is read in every annotation as in any other one. -/
theorem take_transfer (hs : s.nest ≠ 0) (ht : t.nest ≠ 0) {braces : Option Braces} {l : Line}
    {st : Stance} {calls : List Call} (h : take false ⟨s, braces⟩ l = some (st, calls))
    (hcalls : Call.finish ∉ calls) {t' : Site} (hrun : t.run validate calls = some t') :
    take validate ⟨t, braces⟩ l = some (⟨t', st.braces⟩, calls) := by
  obtain ⟨outer, houter⟩ := Nat.exists_eq_succ_of_ne_zero hs
  obtain ⟨outer', houter'⟩ := Nat.exists_eq_succ_of_ne_zero ht
  have htells : ∀ {call : Call}, tell false s call = some (st, [call]) →
      t.run validate [call] = some t' →
      tell validate t call = some (⟨t', st.braces⟩, [call]) := by
    intro call htell hrun
    rw [Site.run_singleton] at hrun
    rw [tell, hrun, (run_of_tell htell).2.1]
    rfl
  refine take_of_takes ?_
  cases takes_of_take h with
  | comment hl =>
    obtain rfl := Option.some.inj hrun
    exact .comment hl
  | told hl hcall htell =>
    rw [Site.callOf?_of_nest houter] at hcall
    have hcall' := Line.elementCall?_of_ne_finish hcall
      (fun heq => hcalls (heq ▸ List.mem_cons_self)) (closingName outer')
    exact .told hl ((Site.callOf?_of_nest houter' l).trans hcall') (htells htell hrun)
  | opens hl _ hdirective helement =>
    obtain rfl := Option.some.inj hrun
    exact .opens hl houter' hdirective helement
  | gathers hl hinside hopen =>
    obtain rfl := Option.some.inj hrun
    exact .gathers hl hinside hopen
  | closes hl hinside hclosed hv htell =>
    exact .closes hl hinside hclosed hv (htells htell hrun)
  | behindField _ hzero => exact absurd hzero hs

/-- The same for the lines of a call. -/
theorem Spells.transfer {st : Stance} {lines : List Text} {call : Call}
    {braces : Option Braces} (h : Spells false ⟨s, braces⟩ lines st [call]) (hs : s.nest ≠ 0)
    (ht : t.nest ≠ 0) (hcall : call ≠ .finish) {t' : Site}
    (haccept : t.accept validate call = some t') :
    Spells validate ⟨t, braces⟩ lines ⟨t', none⟩ [call] := by
  generalize hstart : (⟨s, braces⟩ : Stance) = start, hcalls : [call] = calls at h
  induction h generalizing braces with
  | last hl htake hbraces =>
    subst hstart hcalls
    have htaken := take_transfer hs ht htake (by simpa using hcall.symm)
      ((Site.run_singleton _ _ _).trans haccept)
    rw [hbraces] at htaken
    exact .last hl htaken rfl
  | @more _ mid _ l text lines calls hl htake hbraces h ih =>
    subst hstart
    have hsite : mid.site = s := (Option.some.inj (run_of_take htake)).symm
    exact .more hl (take_transfer hs ht htake List.not_mem_nil rfl) hbraces
      (ih (hsite ▸ rfl) hcalls)

end Stance

/-! ## Readers that may be behind -/

section

variable {validate : Bool} {s s' : Site} {behind : Bool} {l : Line} {call : Call}
  {waiting : List Call}

/-- Comments that wait are told behind the end of a field that a reader owes, and otherwise in front
of the lines of the field. -/
theorem weave_owed (hwaiting : (s.reader behind).defers = false → waiting = [])
    (hnew : behind = true → l.staysInField = false)
    (hold : behind = false → (s.reader behind).defers = true → l.staysInField = true) :
    (s.reader behind).weave l waiting (Site.owed behind ++ [call]) =
      Site.owed behind ++ waiting ++ [call] := by
  have hbraces : (s.reader behind).braces = none := rfl
  cases behind with
  | true =>
    rw [Stance.weave, hbraces, if_neg (by simp), hnew rfl, if_neg Bool.false_ne_true]
    rfl
  | false =>
    cases hdefers : (s.reader false).defers with
    | true =>
      rw [Stance.weave, hbraces, if_neg (by simp), hold rfl hdefers, if_pos rfl]
      rfl
    | false =>
      rw [hwaiting hdefers, Stance.weave_nil, List.append_nil]

/-- What is said about the lines of a call: they lead a reader that may be behind to where the call
leads. It has told what it owed and the comments that waited, the call, and the comment behind
it. -/
def LeadsOn (validate : Bool) (s s' : Site) (behind : Bool) (waiting : List Call) (call : Call) :
    Prop :=
  ∃ front last, s.codeLines call = front ++ [last] ∧
    ∀ {rest : Text} {remarks : List Call}, rest.Remarks remarks →
      Watch.Leads validate ⟨s.reader behind, waiting⟩ ((front ++ [last ++ rest]).map physicalLine?)
        ⟨s'.reader false, []⟩ (Site.owed behind ++ waiting ++ [call] ++ remarks)

/-- One line does. -/
theorem leadsOn_line {t : Text} (hcode : s.codeLines call = [t]) (hl : l.IsCodeOf t)
    (htake : (s.reader behind).take validate l = some (⟨s', none⟩, Site.owed behind ++ [call]))
    (hwaiting : (s.reader behind).defers = false → waiting = [])
    (hnew : behind = true → l.staysInField = false)
    (hold : behind = false → (s.reader behind).defers = true → l.staysInField = true) :
    LeadsOn validate s s' behind waiting call := by
  refine ⟨[], t, hcode, fun hrest => ?_⟩
  rw [← weave_owed hwaiting hnew hold]
  exact Watch.leads_line hl htake rfl hrest waiting

/-- A closing line as it is written. -/
theorem exists_isCodeOf_closing (name : Text)
    (hname : (lineOf (".end " ++ name)).any (fun l => l.remark.isNone && l.closes name) = true) :
    ∃ l : Line, l.IsCodeOf (".end " ++ name) ∧ l.closes name = true := by
  obtain ⟨l, hl, hline⟩ := (Option.any_eq_true _ _).mp hname
  obtain ⟨hremark, hcloses⟩ := Bool.and_eq_true_iff.mp hline
  have hcode : l.code ≠ [] := by
    intro hnil
    have hd := Line.directive?_of_closes hcloses
    rw [Line.directive?, hnil] at hd
    exact nomatch hd
  exact ⟨l, ⟨hl, hcode, Option.isNone_iff_eq_none.mp hremark⟩, hcloses⟩

/-- The line that closes a scope. -/
theorem exists_closingLine (validate : Bool) {t : Text} (h : s.closingText? = some t) :
    ∃ l : Line, l.IsCodeOf t ∧ Stance.take validate ⟨s, none⟩ l = Stance.tell validate s .finish ∧
      ((⟨s, none⟩ : Stance).defers = true → l.staysInField = true) := by
  have hannotation : ∀ {outer : Nat} {l : Line}, s.nest = outer + 1 → l.isComment = false →
      l.closes (closingName outer) = true →
      Stance.take validate ⟨s, none⟩ l = Stance.tell validate s .finish := by
    intro outer l hnest hcomment hcloses
    rw [Stance.take_of_nest hnest hcomment]
    unfold Stance.inAnnotation?
    rw [Line.directive?_of_closes hcloses]
    dsimp only
    rw [if_pos hcloses]
  unfold Site.closingText? at h
  unfold Stance.defers
  split at h
  · next hnest =>
    obtain rfl := Option.some.inj h
    obtain ⟨l, hl, hcloses⟩ := exists_isCodeOf_closing "annotation" (by decide +kernel)
    exact ⟨l, hl, hannotation hnest hl.isComment hcloses, by simp [hnest]⟩
  · next outer hnest =>
    obtain rfl := Option.some.inj h
    obtain ⟨l, hl, hcloses⟩ := exists_isCodeOf_closing "subannotation" (by decide +kernel)
    exact ⟨l, hl, hannotation hnest hl.isComment hcloses, by simp [hnest]⟩
  · next annotated hnest hhost =>
    split at h
    · obtain rfl := Option.some.inj h
      obtain ⟨l, hl, hcloses⟩ := exists_isCodeOf_closing "field" (by decide +kernel)
      refine ⟨l, hl, ?_, fun _ => by rw [Line.staysInField, hcloses, Bool.true_or]⟩
      rw [Stance.take_of_field hnest hhost hl.isComment]
      unfold Stance.inField?
      rw [if_pos hcloses]
    · cases h
  · next hnest hhost =>
    obtain rfl := Option.some.inj h
    obtain ⟨l, hl, hcloses⟩ := exists_isCodeOf_closing "method" (by decide +kernel)
    refine ⟨l, hl, ?_, by simp [hnest, hhost]⟩
    rw [Stance.take_of_method hnest hhost hl.isComment, Line.bodyCall?,
      Line.directive?_of_closes hcloses]
    dsimp only
    rw [Line.closingCall?, if_pos hcloses]
    rfl
  · cases h

/-- The closing line of a scope leads on. -/
theorem leadsOn_finish (hcall : s.accept validate .finish = some s') (hline : ¬s.IsMute .finish)
    (hwaiting : (s.reader false).defers = false → waiting = []) :
    LeadsOn validate s s' false waiting .finish := by
  obtain ⟨t, ht⟩ := Option.ne_none_iff_exists'.mp fun hnone => hline ⟨rfl, hnone⟩
  obtain ⟨l, hl, htake, hstays⟩ := exists_closingLine validate ht
  refine leadsOn_line ?_ hl ?_ hwaiting nofun fun _ => hstays
  · rw [Site.codeLines, ht, Option.toList_some]
  · change Stance.take validate ⟨s, none⟩ l = _
    rw [htake, Stance.tell, hcall]
    rfl

/-- The lines of an element lead on. -/
theorem leadsOn_element (hcall : s.accept validate call = some s') (hnest : s.nest ≠ 0)
    (hfinish : call ≠ .finish) (haudible : call.IsAudible) :
    LeadsOn validate s s' false [] call := by
  have helement : call.suits .ofAnnotationBody = true ∧
      s.codeLines call = call.texts.flatMap codeLines := by
    cases Site.step_of_next? (Site.next?_of_accept hcall) with
    | value => exact ⟨rfl, rfl⟩
    | nested => exact ⟨rfl, rfl⟩
    | annotationEnd => exact absurd rfl hfinish
    | body hnest' => exact absurd hnest' hnest
    | header hnest' => exact absurd hnest' hnest
    | field hnest' => exact absurd hnest' hnest
    | method hnest' => exact absurd hnest' hnest
    | annotationOfClass hnest' => exact absurd hnest' hnest
    | annotationOfField hnest' => exact absurd hnest' hnest
    | endField hnest' => exact absurd hnest' hnest
    | annotationOfMethod hnest' => exact absurd hnest' hnest
    | endMethod hnest' => exact absurd hnest' hnest
    | param hnest' => exact absurd hnest' hnest
    | paramEnd hnest' => exact absurd hnest' hnest
  have hspells := (haudible.element helement.1 hfinish).transfer Nat.one_ne_zero hnest hfinish hcall
  obtain ⟨front, last, hlines⟩ := hspells.exists_concat
  exact ⟨front, last, helement.2.trans hlines, fun hrest => hspells.leads hlines hrest⟩

/-- The line of an audible call is read as the call. -/
theorem Call.IsAudible.exists_line (h : call.IsAudible) (hone : call.IsOneLine) {text : Text}
    (htext : call.line? = some text) (s : Site) :
    ∃ l : Line, s.codeLines call = [trim text] ∧ l.IsCodeOf (trim text) ∧
      lineOf text = some l ∧ l.reads call := by
  have hcode := s.codeLines_of_line? htext hone
  have htexts : trim text ∈ call.texts.flatMap codeLines := by
    have hsame : s.codeLines call = call.texts.flatMap codeLines := by
      cases call <;> first | rfl | cases htext
    rw [← hsame, hcode]
    exact List.mem_cons_self
  obtain ⟨l, hl⟩ := h.code _ htexts
  obtain ⟨other, l', hother, hl', hreads⟩ := h.legible text htext
  obtain rfl := Option.some.inj (htext.symm.trans hother)
  obtain rfl := Option.some.inj (hl.line.symm.trans ((lineOf_trim text).trans hl'))
  exact ⟨l, hcode, hl, hl', hreads⟩

/-- A line that is taken for an audible call leads on. -/
theorem leadsOn_of_takesLine (hcall : s.accept validate call = some s') (haudible : call.IsAudible)
    (hone : call.IsOneLine) {text : Text} (htext : call.line? = some text)
    (htake : (s.reader behind).TakesLine validate (Site.owed behind) s call text)
    (hwaiting : (s.reader behind).defers = false → waiting = [])
    (hnew : behind = true → ∀ l, lineOf text = some l → l.staysInField = false)
    (hold : behind = false → (s.reader behind).defers = true →
      ∀ l, lineOf text = some l → l.staysInField = true) :
    LeadsOn validate s s' behind waiting call := by
  obtain ⟨l, hcode, hl, hline, hreads⟩ := haudible.exists_line hone htext s
  obtain ⟨told, htold, htells⟩ := htake l hline
  obtain rfl := htells.mpr hreads
  refine leadsOn_line hcode hl ?_ hwaiting (fun h => hnew h l hline) fun h h' => hold h h' l hline
  rw [htold, Option.bind_some, Stance.tell, hcall]
  rfl

/-- Behind a field that was not closed, a call that opens no annotation is a member of the class. -/
theorem staysInField_of_member (hcall : s.accept validate call = some s') (hnest : s.nest = 0)
    (hhost : s.host = none) (hphase : s.phase = .body) (hopens : call.kind ≠ .annotationStart)
    {text : Text} (htext : call.line? = some text) {l : Line} (hl : lineOf text = some l) :
    l.staysInField = false := by
  have hother : ∀ {d : Directive}, l.directive? = some d → d ≠ .closing → d ≠ .annotationStart →
      l.staysInField = false := by
    intro d hd hclosing hstart
    rw [Line.staysInField, Line.closes_of_directive? hd hclosing, Bool.false_or,
      decide_eq_false_iff_not, hd]
    exact fun heq => hstart (Option.some.inj heq)
  have hopen : ∀ {host : Host}, s.host ≠ some host := fun hsome =>
    Option.some_ne_none _ (hsome.symm.trans hhost)
  cases Site.step_of_next? (Site.next?_of_accept hcall) with
  | header _ _ _ hheader => exact absurd hphase hheader
  | field =>
    obtain rfl := Option.some.inj htext
    exact hother (directive?_field hl) Directive.noConfusion Directive.noConfusion
  | method =>
    obtain rfl := Option.some.inj htext
    exact hother (directive?_method hl) Directive.noConfusion Directive.noConfusion
  | annotationOfClass => exact absurd rfl hopens
  | value houter => exact absurd (houter.symm.trans hnest) (Nat.succ_ne_zero _)
  | nested houter => exact absurd (houter.symm.trans hnest) (Nat.succ_ne_zero _)
  | annotationEnd houter => exact absurd (houter.symm.trans hnest) (Nat.succ_ne_zero _)
  | annotationOfField _ hsome => exact absurd hsome hopen
  | endField _ hsome => exact absurd hsome hopen
  | annotationOfMethod _ hsome => exact absurd hsome hopen
  | endMethod _ hsome => exact absurd hsome hopen
  | param _ hsome => exact absurd hsome hopen
  | paramEnd _ hsome => exact absurd hsome hopen
  | body _ hsome => exact absurd hsome hopen

/-- Outside annotations only the opening of one leads into one, and in a field only that and the end
of the field can follow. -/
theorem nest_of_other (hcall : s.accept validate call = some s') (hnest : s.nest = 0)
    (hfinish : call ≠ .finish) (hopens : call.kind ≠ .annotationStart) :
    s'.nest = 0 ∧ ∀ annotated, s.host ≠ some (.field annotated) := by
  cases Site.step_of_next? (Site.next?_of_accept hcall) with
  | annotationOfClass => exact absurd rfl hopens
  | annotationOfField => exact absurd rfl hopens
  | annotationOfMethod => exact absurd rfl hopens
  | value houter => exact absurd (houter.symm.trans hnest) (Nat.succ_ne_zero _)
  | nested houter => exact absurd (houter.symm.trans hnest) (Nat.succ_ne_zero _)
  | annotationEnd => exact absurd rfl hfinish
  | endField => exact absurd rfl hfinish
  | endMethod => exact absurd rfl hfinish
  | _ => simp_all

/-- The line of any other call leads on, unless it opens an annotation for a reader that is
behind. -/
theorem leadsOn_other (hcall : s.accept validate call = some s') (hnest : s.nest = 0)
    (hfinish : call ≠ .finish) (hone : call.IsOneLine) (haudible : call.IsAudible)
    (hbehind : behind = true → s.nest = 0 ∧ s.host = none ∧ s.phase = .body)
    (hopens : behind = true → call.kind ≠ .annotationStart)
    (hwaiting : (s.reader behind).defers = false → waiting = []) :
    LeadsOn validate s s' behind waiting call := by
  by_cases hkind : call.kind = .annotationStart
  · obtain rfl : behind = false := Bool.eq_false_iff.mpr fun h => hopens h hkind
    cases call with
    | annotationStart visibility type =>
      refine leadsOn_of_takesLine hcall haudible hone rfl (takesLine_annotationStart hnest hone)
        hwaiting (fun h => absurd h Bool.false_ne_true) fun _ _ l hl => ?_
      rw [Line.staysInField, directive?_annotationLine hl]
      simp
    | _ => cases hkind
  · obtain ⟨hnest', hhost⟩ := nest_of_other hcall hnest hfinish hkind
    obtain ⟨text, htext, htake⟩ := takesLine_tile hcall hnest hnest' hfinish hone hbehind
    refine leadsOn_of_takesLine hcall haudible hone htext htake hwaiting (fun h l hl => ?_)
      fun h hdefers l hl => ?_
    · obtain ⟨-, hnone, hphase⟩ := hbehind h
      exact staysInField_of_member hcall hnest hnone hphase hkind htext hl
    · subst h
      unfold Stance.defers Site.reader at hdefers
      split at hdefers
      · next heq => cases heq
      · next hsome => exact absurd hsome (hhost _)
      · cases hdefers

/-- The lines of a call lead on. -/
theorem leadsOn_call (hcall : s.accept validate call = some s') (hline : ¬s.IsMute call)
    (hone : call.IsOneLine) (haudible : call.IsAudible)
    (hbehind : behind = true → s.nest = 0 ∧ s.host = none ∧ s.phase = .body)
    (hopens : behind = true → call.kind ≠ .annotationStart)
    (hwaiting : (s.reader behind).defers = false → waiting = []) :
    LeadsOn validate s s' behind waiting call := by
  by_cases hfinish : call = .finish
  · subst hfinish
    obtain rfl : behind = false := Bool.eq_false_iff.mpr fun h =>
      Bool.noConfusion (h.symm.trans (behind_of_close hcall (hbehind h).1 hbehind))
    exact leadsOn_finish hcall hline hwaiting
  · by_cases hnest : s.nest = 0
    · exact leadsOn_other hcall hnest hfinish hone haudible hbehind hopens hwaiting
    · obtain rfl : behind = false := Bool.eq_false_iff.mpr fun h => hnest (hbehind h).1
      have hdefers : (s.reader false).defers = false := by
        obtain ⟨outer, houter⟩ := Nat.exists_eq_succ_of_ne_zero hnest
        unfold Stance.defers Site.reader
        simp [houter]
      rw [hwaiting hdefers]
      exact leadsOn_element hcall hnest hfinish haudible

end

/-! ## Noted calls are read -/

/-- Calls among which there are more have no strays either. -/
theorem not_strays_of_append {first second : List Call} (h : ¬Strays (first ++ second)) :
    ¬Strays first := by
  intro hstrays
  unfold Strays at h hstrays
  rw [List.map_append] at h
  exact h (hstrays.trans (List.prefix_append _ _).isInfix)

/-- A writer behind noted calls, and a reader of the lines that it has written. -/
structure ReadSoFar (validate : Bool) (first : Site)
    (d : Desk (Writer.State Unit) (Writer.Handle Unit)) (calls : List Call) (s : Site)
    (lines : List Text) (behind : Bool) (told waiting : List Call) : Prop where
  /-- These lines are written. -/
  wrote : Writer.Wrote (Writer.behind d calls) s lines
  /-- They lead the reader to the site, or it is behind by the end of a field. -/
  leads : Watch.Leads validate ⟨first.reader false, []⟩ (lines.map physicalLine?)
    ⟨s.reader behind, waiting⟩ told
  /-- What was not told is owed, or it waits. -/
  calls_eq : calls = told ++ Site.owed behind ++ waiting
  /-- Comments wait in a field. -/
  waits : (s.reader behind).defers = false → waiting = []
  /-- Only comments on lines of their own wait. -/
  notes : ∀ call ∈ waiting, ∃ text, call = .comment text
  /-- An annotation in a field is noted with the field. -/
  proper : s.IsProper
  /-- A reader is behind at the level of the class. -/
  late : behind = true → s.nest = 0 ∧ s.host = none ∧ s.phase = .body
  /-- A field without annotations was opened last. -/
  field : s.nest = 0 → s.host = some (.field false) → s.phase = .body ∧
    ∃ before call, (calls.filter fun c => !c.isComment) = before ++ [call] ∧ call.kind = .field
  /-- A reader is behind where a field without annotations ended last. -/
  closed : behind = true → ∃ before call,
    (calls.filter fun c => !c.isComment) = before ++ [call, .finish] ∧ call.kind = .field

namespace ReadSoFar

variable {validate behind : Bool} {first s s' : Site}
  {d : Desk (Writer.State Unit) (Writer.Handle Unit)} {calls told waiting : List Call}
  {lines : List Text} {call : Call}

/-- Behind a comment on a line of its own. -/
theorem note (h : ReadSoFar validate first d calls s lines behind told waiting) {text : Text}
    (ht : text.IsNote) : ∃ told' waiting', ReadSoFar validate first d (calls ++ [.comment text]) s
      (lines ++ [Page.comment text]) behind told' waiting' := by
  have hwrote := h.wrote.note ht
  rw [← Writer.behind_singleton, ← Writer.behind_append] at hwrote
  have hquiet : ((calls ++ [Call.comment text]).filter fun c => !c.isComment) =
      calls.filter fun c => !c.isComment := by
    rw [List.filter_append, Watch.filter_of_isComment (List.forall_mem_singleton.mpr rfl),
      List.append_nil]
  have hleads := h.leads.append (Watch.leads_note validate (s.reader behind) waiting ht)
  rw [← List.map_singleton, ← List.map_append] at hleads
  cases hdefers : (s.reader behind).defers with
  | true =>
    rw [hdefers, if_pos rfl, if_pos rfl, List.append_nil] at hleads
    refine ⟨told, waiting ++ [.comment text], hwrote, hleads, ?_, fun hnot => ?_, ?_, h.proper,
      h.late, hquiet ▸ h.field, hquiet ▸ h.closed⟩
    · rw [h.calls_eq, List.append_assoc]
    · exact absurd (hnot.symm.trans hdefers) Bool.noConfusion
    · exact List.forall_mem_append.mpr ⟨h.notes, List.forall_mem_singleton.mpr ⟨text, rfl⟩⟩
  | false =>
    have hnone := h.waits hdefers
    have hhere : behind = false := by
      refine Bool.eq_false_iff.mpr fun hb => ?_
      unfold Stance.defers Site.reader at hdefers
      simp [hb, (h.late hb).1] at hdefers
    rw [hdefers, if_neg Bool.false_ne_true, if_neg Bool.false_ne_true, hnone] at hleads
    refine ⟨told ++ [.comment text], [], hwrote, hleads, ?_, fun _ => rfl, List.forall_mem_nil _,
      h.proper, h.late, hquiet ▸ h.field, hquiet ▸ h.closed⟩
    rw [h.calls_eq, hnone, hhere]
    simp [Site.owed]

/-- Behind the end of a field without annotations the reader is in the field still. -/
theorem mute (h : ReadSoFar validate first d calls s lines behind told waiting)
    (hcall : s.accept validate .finish = some s') (hmute : s.IsMute .finish)
    (hlast : ∀ text, calls.getLast? ≠ some (.comment text)) :
    ReadSoFar validate first d (calls ++ [.finish]) s' lines true told [] := by
  obtain ⟨hnest, hhost⟩ := hmute.host hcall
  obtain ⟨hphase, before, opening, hcalls, hkind⟩ := h.field hnest hhost
  obtain rfl := Option.some.inj ((Site.accept_endField validate hnest hhost).symm.trans hcall)
  have hhere : behind = false := by
    refine Bool.eq_false_iff.mpr fun hb => ?_
    exact Option.some_ne_none _ (hhost.symm.trans (h.late hb).2.1)
  have hnone : waiting = [] := by
    by_contra hne
    obtain ⟨more, last, rfl⟩ := (List.eq_nil_or_concat' waiting).resolve_left hne
    obtain ⟨text, rfl⟩ := h.notes last (List.mem_append_right _ List.mem_cons_self)
    refine hlast text ?_
    rw [h.calls_eq, ← List.append_assoc, List.getLast?_concat]
  have hwrote := h.wrote.call (Site.next?_of_accept hcall)
  rw [hmute.codeLines, List.append_nil, ← Writer.behind_singleton, ← Writer.behind_append] at hwrote
  have hreader : ({ s with host := none } : Site).reader true = s.reader false := by
    rw [Site.reader, Site.reader, if_pos rfl, if_neg Bool.false_ne_true, ← hhost]
  refine ⟨hwrote, ?_, ?_, fun _ => rfl, List.forall_mem_nil _, ?_,
    fun _ => ⟨hnest, rfl, hphase⟩, ?_, fun _ => ⟨before, opening, ?_, hkind⟩⟩
  · have hleads := h.leads
    rwa [hhere, hnone, ← hreader] at hleads
  · rw [h.calls_eq, hhere, hnone]
    simp [Site.owed]
  · exact fun hne => absurd hnest hne
  · exact fun _ hsome => absurd hsome.symm (Option.some_ne_none _)
  · rw [List.filter_append, hcalls]
    simp [Call.isComment]

/-- Behind a call with lines, and behind the comment on the last of them. -/
theorem loud (h : ReadSoFar validate first d calls s lines behind told waiting)
    (hcall : s.accept validate call = some s') (hline : ¬s.IsMute call) (hone : call.IsOneLine)
    (haudible : call.IsAudible)
    (hstrays : ¬Strays ((calls.filter fun c => !c.isComment) ++ [call]))
    {notes : List Call}
    (hnotes : notes = [] ∨ ∃ text : Text, text.IsNote ∧ notes = [.eolComment text]) :
    ∃ lines' told',
      ReadSoFar validate first d (calls ++ call :: notes) s' lines' false told' [] := by
  have hopens : behind = true → call.kind ≠ .annotationStart := by
    intro hb hkind
    obtain ⟨before, opening, hcalls, hfield⟩ := h.closed hb
    have hfinish : Call.finish.kind = .finish := rfl
    refine hstrays ⟨before.map Call.kind, [], ?_⟩
    simp only [hcalls, List.map_append, List.map_cons, List.map_nil, hfield, hfinish, hkind,
      List.append_nil, List.append_assoc, List.cons_append, List.nil_append]
  obtain ⟨front, last, hcode, hleads⟩ :=
    leadsOn_call hcall hline hone haudible h.late hopens h.waits
  have hnext := Site.next?_of_accept hcall
  have hwrote := h.wrote.call hnext
  rw [hcode, ← List.append_assoc] at hwrote
  -- The comment is put behind the last line of the call.
  obtain ⟨rest, hrest, hpage⟩ : ∃ rest : Text, rest.Remarks notes ∧
      Writer.Wrote (Writer.behind d (calls ++ call :: notes)) s'
        (lines ++ front ++ [last ++ rest]) := by
    obtain rfl | ⟨text, htext, rfl⟩ := hnotes
    · refine ⟨[], .nil, ?_⟩
      rwa [Writer.behind_append, Writer.behind_singleton, List.append_nil]
    · have hink := h.wrote.endsInk hnext hone (Noted.isComment_of_accept hcall)
        fun heq hnone => hline ⟨heq, hnone⟩
      obtain ⟨w, hw, hne, hpage⟩ := hwrote.eolNote hink htext
      refine ⟨_, .comment hw hne htext, ?_⟩
      rwa [Writer.behind_append, Writer.behind_pair]
  have hquiet : ((calls ++ call :: notes).filter fun c => !c.isComment) =
      (calls.filter fun c => !c.isComment) ++ [call] := by
    have hnone : (notes.filter fun c => !c.isComment) = [] := by
      obtain rfl | ⟨text, -, rfl⟩ := hnotes <;> rfl
    rw [List.filter_append, List.filter_cons_of_pos (by simp [Noted.isComment_of_accept hcall]),
      hnone]
  have hall := h.leads.append (hleads hrest)
  rw [← List.map_append, ← List.append_assoc] at hall
  obtain ⟨hproper, hfield, -⟩ := h.proper.next hnext
  refine ⟨_, _, hpage, hall, ?_, fun _ => rfl, List.forall_mem_nil _, hproper,
    fun hb => absurd hb Bool.false_ne_true, fun hnest hhost => ?_,
    fun hb => absurd hb Bool.false_ne_true⟩
  · rw [h.calls_eq]
    simp [Site.owed]
  · have hopened := hfield.mpr ⟨hnest, hhost⟩
    refine ⟨?_, _, call, hquiet, ?_⟩
    · cases Site.step_of_next? hnext with
      | field => rfl
      | header _ _ hheader =>
        have hnone : call.opens? = none := by
          cases call <;> first | rfl | exact absurd hheader Bool.false_ne_true
        exact absurd (hopened.symm.trans hnone) (Option.some_ne_none _)
      | body _ _ hbody =>
        exact absurd (hopened.symm.trans (Call.isBody_iff hbody).1) (Option.some_ne_none _)
      | _ => cases hopened
    · cases call <;> first | rfl | cases hopened

end ReadSoFar

/-- What is written for noted calls is read as these calls, if each of them is read from its lines
and no annotation of the class strays. -/
theorem Noted.exists_readSoFar {validate : Bool} {first s : Site}
    {d : Desk (Writer.State Unit) (Writer.Handle Unit)} {calls : List Call}
    (h : Noted validate first calls s) (hd : Writer.Wrote d first []) (hfirst : first.host = none)
    (haudible : ∀ call ∈ calls, call.isComment = false → call.IsAudible)
    (hstrays : ¬Strays (calls.filter fun c => !c.isComment)) :
    ∃ lines behind told waiting, ReadSoFar validate first d calls s lines behind told waiting := by
  induction h with
  | nil =>
    refine ⟨[], false, [], [], hd, .nil _ _, rfl, fun _ => rfl, nofun, ?_, nofun, ?_, nofun⟩
    · exact fun _ hhost => absurd (hhost.symm.trans hfirst) nofun
    · exact fun _ hhost => absurd (hhost.symm.trans hfirst) nofun
  | note h ht ih =>
    rw [List.filter_append] at hstrays
    obtain ⟨lines, behind, told, waiting, hread⟩ :=
      ih (List.forall_mem_append.mp haudible).1 (not_strays_of_append hstrays)
    obtain ⟨told', waiting', hnext⟩ := hread.note ht
    exact ⟨_, _, _, _, hnext⟩
  | @code calls s s' call h hcall hone hmute ih =>
    obtain ⟨hbefore, hself⟩ := List.forall_mem_append.mp haudible
    have hcode := isComment_of_accept hcall
    rw [List.filter_append, List.filter_cons_of_pos (by simp [hcode]), List.filter_nil] at hstrays
    obtain ⟨lines, behind, told, waiting, hread⟩ := ih hbefore (not_strays_of_append hstrays)
    by_cases hline : s.IsMute call
    · obtain ⟨rfl, -⟩ := id hline
      exact ⟨_, _, _, _, hread.mute hcall hline (hmute hline)⟩
    · obtain ⟨lines', told', hnext⟩ := hread.loud hcall hline hone
        (hself call List.mem_cons_self hcode) hstrays (.inl rfl)
      exact ⟨_, _, _, _, hnext⟩
  | @remarked calls s s' call text h hcall hone hline ht ih =>
    obtain ⟨hbefore, hself⟩ := List.forall_mem_append.mp haudible
    have hcode := isComment_of_accept hcall
    rw [List.filter_append, List.filter_cons_of_pos (by simp [hcode])] at hstrays
    obtain ⟨lines, behind, told, waiting, hread⟩ := ih hbefore (not_strays_of_append hstrays)
    obtain ⟨lines', told', hnext⟩ := hread.loud hcall hline hone
      (hself call List.mem_cons_self hcode) hstrays (.inr ⟨text, ht, rfl⟩)
    exact ⟨_, _, _, _, hnext⟩

namespace Writer

/-- Writers that stand at the same place have the same code. -/
theorem codeOf_congr {calls calls' : List Call}
    (h : behind (Desk.initial root (State.initial ())) calls =
      behind (Desk.initial root (State.initial ())) calls') : codeOf calls = codeOf calls' := by
  unfold behind at h
  unfold codeOf
  rw [Desk.makeAll_append, Desk.makeAll_append, h]

end Writer

/-- The code of noted calls tells these calls. -/
theorem Noted.commentedCalls_codeOf {o : Options} {calls : List Call} {s : Site}
    (h : Noted o.validate (.initial o.snippet) calls s) (hs : s.Ends)
    (haudible : ∀ call ∈ calls, call.isComment = false → call.IsAudible)
    (hstrays : ¬Strays (calls.filter fun c => !c.isComment)) :
    commentedCalls o (Writer.codeOf calls) = some calls := by
  obtain ⟨lines, behind, told, waiting, hread⟩ :=
    h.exists_readSoFar (Writer.wrote_initial o.snippet) rfl haudible hstrays
  have hends : (s.reader behind).finish? = some (Site.owed behind) := by
    unfold Site.reader Stance.finish?
    cases behind <;> simp [hs.phase, hs.nest, hs.host, Site.owed]
  have hall := hread.leads []
  rw [List.append_nil] at hall
  rw [commentedCalls_eq, hread.wrote.codeLines_codeOf hs.nest hs.host]
  refine hall.trans ?_
  rw [Watch.readAll, hends, Option.map_some, Option.map_some, hread.calls_eq, List.append_assoc]

end Smali
