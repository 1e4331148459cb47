import Smali.Proofs.Tiles

/-!
# Reading what was written

The lines that are written for calls are read as the calls again exactly if each piece of them
is legible and no annotation of the class strays into the field before it. The reader may be
behind the writer by one end: that of a field, which has no line of its own.
-/

namespace Smali

/-! ## Directives of written lines -/

/-- The directive of a line with flags. -/
theorem directive?_directiveLine {word : Text} (h : IsKeyword word) (access : Access)
    (rest : Text) {l : Line} (hl : lineOf (Writer.directiveLine word access rest) = some l) :
    l.directive? = some (.ofKeyword word) := by
  unfold Writer.directiveLine at hl
  rw [List.append_assoc] at hl
  refine directive?_of_lineOf h (fun c hc => ?_) hl
  obtain rfl : ' ' = c := by
    split at hc <;> exact Option.some.inj hc
  rfl

/-- The directive of the line of a field. -/
theorem directive?_field {name : Text} {access : Access} {type : TypeName} {v : Option Value}
    {l : Line} (hl : lineOf (Writer.fieldLine name access type v) = some l) :
    l.directive? = some .field :=
  directive?_directiveLine (.of_all (by decide) (by decide)) _ _ hl

/-- The directive of the line of a method. -/
theorem directive?_method {declaration : Text} {access : Access} {l : Line}
    (hl : lineOf (Writer.directiveLine ".method" access declaration) = some l) :
    l.directive? = some .method :=
  directive?_directiveLine (.of_all (by decide) (by decide)) _ _ hl

/-- The directive of the line of an annotation. -/
theorem directive?_annotationLine {visibility : Visibility} {type : TypeName} {l : Line}
    (hl : lineOf (Writer.annotationLine visibility type) = some l) :
    l.directive? = some .annotationStart := by
  have hword : IsKeyword ".annotation".toList := .of_all (by decide) (by decide)
  have htext : Writer.annotationLine visibility type =
      ".annotation".toList ++ (' ' :: visibility.keyword ++ ' ' :: type.descriptor) := rfl
  rw [htext] at hl
  refine directive?_of_lineOf hword (fun c hc => ?_) hl
  obtain rfl : ' ' = c := Option.some.inj hc
  rfl

/-! ## Lines of calls -/

namespace Stance

variable {validate : Bool}

/-- A line that stands for one call, behind calls that the line makes in any case. -/
theorem readAll_line_iff {st : Stance} {s s' : Site} {l : Line} {told : Option Call}
    {before : List Call}
    (htake : st.take validate l =
      (told.bind (tell validate s)).map fun (st, calls) => (st, before ++ calls))
    {call : Call} (h : s.accept validate call = some s') (lines : List (Option Line))
    (calls : List Call) :
    st.readAll validate (some l :: lines) = some (before ++ call :: calls) ↔
      told = some call ∧ (⟨s', none⟩ : Stance).readAll validate lines = some calls := by
  rw [readAll_cons, htake]
  cases told with
  | none => simp
  | some other =>
    rw [Option.bind_some, Option.some_inj]
    unfold tell
    by_cases heq : other = call
    · subst heq
      simp only [h, Option.map_some, Option.bind_some, true_and]
      cases (⟨s', none⟩ : Stance).readAll validate lines <;> simp
    · cases hother : s.accept validate other with
      | none => simp [heq]
      | some s'' =>
        simp only [Option.map_some, Option.bind_some, heq, false_and, iff_false]
        cases (⟨s'', none⟩ : Stance).readAll validate lines <;> simp [heq]

/-- A line in a class. -/
theorem take_of_class {s : Site} (hnest : s.nest = 0) (hhost : s.host = none) {l : Line}
    (hl : l.isComment = false) :
    take validate ⟨s, none⟩ l = l.classCall?.bind (tell validate s) := by
  unfold take
  simp only [hl, hnest, hhost]
  rfl

/-- A line in a method. -/
theorem take_of_method {s : Site} {name : Text} {access : Access} {paramOpen : Bool}
    (hnest : s.nest = 0) (hhost : s.host = some (.method name access paramOpen)) {l : Line}
    (hl : l.isComment = false) :
    take validate ⟨s, none⟩ l = l.bodyCall?.bind (tell validate s) := by
  unfold take
  simp only [hl, hnest, hhost]
  rfl

/-- A line in a field. -/
theorem take_of_field {s : Site} {annotated : Bool} (hnest : s.nest = 0)
    (hhost : s.host = some (.field annotated)) {l : Line} (hl : l.isComment = false) :
    take validate ⟨s, none⟩ l = inField? validate s annotated l := by
  unfold take
  simp only [hl, hnest, hhost]
  rfl

end Stance

/-- A line with another directive than that of closing lines closes nothing. -/
theorem Line.closes_of_directive? {l : Line} {d : Directive} (hd : l.directive? = some d)
    (hne : d ≠ .closing) (name : Text) : l.closes name = false := by
  cases hc : l.closes name with
  | false => rfl
  | true => exact absurd (Option.some.inj (hd.symm.trans (directive?_of_closes hc))) hne

/-- The call of a line with an annotation, in a class and in a method. -/
theorem Line.calls_of_annotationStart {l : Line} (hd : l.directive? = some .annotationStart) :
    l.classCall? = l.annotationCall? ∧ l.bodyCall? = l.annotationCall? := by
  unfold classCall? bodyCall?
  rw [hd]
  exact ⟨rfl, rfl⟩

/-- The code line of a call with one line. -/
theorem Site.codeLines_of_line? (s : Site) {call : Call} {text : Text}
    (htext : call.line? = some text) (hone : call.IsOneLine) :
    s.codeLines call = [Text.trim text] := by
  have hcode : s.codeLines call = (call.line?.toList).flatMap Text.codeLines := by
    cases call <;> first | rfl | exact absurd htext (Option.some_ne_none _).symm
  rw [hcode, htext, Option.toList_some, List.flatMap_singleton, hone.codeLines htext]

/-! ## Readers behind writers -/

namespace Site

/-- Where a reader stands that has read what a writer wrote up to a site. It may be behind by the
end of a field. -/
def reader (s : Site) (behind : Bool) : Stance :=
  ⟨if behind then { s with host := some (.field false) } else s, none⟩

/-- The call that such a reader still has to make. -/
def owed (behind : Bool) : List Call := if behind then [.finish] else []

end Site

variable {validate : Bool} {s s' : Site}

/-- A written line of the class, for a reader that may be behind. -/
theorem take_reader {behind : Bool} (hnest : s.nest = 0) (hhost : s.host = none) {l : Line}
    (hl : l.isComment = false)
    (hd : behind = true →
      ∃ d, l.directive? = some d ∧ d ≠ .closing ∧ d ≠ .annotationStart) :
    (s.reader behind).take validate l =
      (l.classCall?.bind (Stance.tell validate s)).map fun (st, calls) =>
        (st, Site.owed behind ++ calls) := by
  cases behind with
  | false =>
    have hclass : (s.reader false).take validate l = l.classCall?.bind (Stance.tell validate s) :=
      Stance.take_of_class hnest hhost hl
    rw [hclass]
    exact Option.map_id'.symm
  | true =>
    obtain ⟨d, hd, hclosing, hopening⟩ := hd rfl
    have hfield : (s.reader true).take validate l =
        Stance.inField? validate { s with host := some (.field false) } false l :=
      Stance.take_of_field (s := { s with host := some (.field false) }) hnest rfl hl
    have hs : { s with host := none } = s := by rw [← hhost]
    rw [hfield]
    unfold Stance.inField?
    rw [Line.closes_of_directive? hd hclosing, if_neg Bool.false_ne_true, hd,
      if_neg fun h => hopening (Option.some.inj h), if_neg Bool.false_ne_true]
    dsimp only
    rw [hs]
    rfl

/-- Whether a line is taken for a call, at a site and behind calls that it makes in any case, as
far as it reads as the call. -/
def Stance.TakesLine (validate : Bool) (st : Stance) (before : List Call) (s : Site) (call : Call)
    (text : Text) : Prop :=
  ∀ l, lineOf text = some l → ∃ told : Option Call,
    (st.take validate l = (told.bind (tell validate s)).map fun (st, calls) =>
      (st, before ++ calls)) ∧ (told = some call ↔ l.reads call)

/-- A written line is read as its call if the call is legible. -/
theorem readAll_call {st : Stance} {before : List Call} {call : Call} {text : Text}
    (htext : call.line? = some text) (hone : call.IsOneLine)
    (h : s.accept validate call = some s') (htake : st.TakesLine validate before s call text)
    (hlegible : call.IsLegible) (lines : List (Option Line)) :
    st.readAll validate ((s.codeLines call).map lineOf ++ lines) =
      ((⟨s', none⟩ : Stance).readAll validate lines).map (before ++ call :: ·) := by
  obtain ⟨other, l, hother, hline, hreads⟩ := hlegible
  obtain rfl := Option.some.inj (htext.symm.trans hother)
  obtain ⟨told, htold, htells⟩ := htake l hline
  obtain rfl := htells.mpr hreads
  rw [s.codeLines_of_line? htext hone, List.map_singleton, lineOf_trim, List.singleton_append,
    hline, Stance.readAll_cons, htold, Option.bind_some, Stance.tell, h]
  simp only [Option.map_some, Option.bind_some, List.append_assoc, List.singleton_append]

/-- Only then it is read so. -/
theorem readAll_call_iff {st : Stance} {before : List Call} {call : Call} {text : Text}
    (htext : call.line? = some text) (hone : call.IsOneLine)
    (h : s.accept validate call = some s') (htake : st.TakesLine validate before s call text)
    (lines : List (Option Line)) (calls : List Call) :
    st.readAll validate ((s.codeLines call).map lineOf ++ lines) = some (before ++ call :: calls) ↔
      call.IsLegible ∧ (⟨s', none⟩ : Stance).readAll validate lines = some calls := by
  rw [s.codeLines_of_line? htext hone, List.map_singleton, lineOf_trim, List.singleton_append]
  cases hline : lineOf text with
  | none =>
    refine iff_of_false (fun hread => ?_) fun ⟨⟨other, l, hother, hl, _⟩, _⟩ => ?_
    · exact absurd hread (Option.some_ne_none _).symm
    · obtain rfl := Option.some.inj (htext.symm.trans hother)
      exact Option.some_ne_none l (hl.symm.trans hline)
  | some l =>
    obtain ⟨told, htold, hreads⟩ := htake l hline
    rw [Stance.readAll_line_iff htold h, hreads]
    refine and_congr_left fun _ => ⟨fun hl => ⟨text, l, htext, hline, hl⟩, ?_⟩
    rintro ⟨other, l', hother, hl', hreads'⟩
    obtain rfl := Option.some.inj (htext.symm.trans hother)
    obtain rfl := Option.some.inj (hline.symm.trans hl')
    exact hreads'

/-- The written line of an annotation. -/
theorem take_annotationLine (hnest : s.nest = 0) {visibility : Visibility} {type : TypeName} {l : Line}
    (hone : (Call.annotationStart visibility type).IsOneLine)
    (hl : lineOf (Writer.annotationLine visibility type) = some l) :
    Stance.take validate ⟨s, none⟩ l = l.annotationCall?.bind (Stance.tell validate s) := by
  have hd := directive?_annotationLine hl
  have hcomment := (hone _ rfl).2.2 l hl
  cases hhost : s.host with
  | none => rw [Stance.take_of_class hnest hhost hcomment, (Line.calls_of_annotationStart hd).1]
  | some host =>
    cases host with
    | field annotated =>
      rw [Stance.take_of_field hnest hhost hcomment]
      unfold Stance.inField?
      rw [Line.closes_of_directive? hd Directive.noConfusion, if_neg Bool.false_ne_true,
        if_pos hd]
    | method name access paramOpen =>
      rw [Stance.take_of_method hnest hhost hcomment, (Line.calls_of_annotationStart hd).2]

/-- It is taken for the call that opens the annotation. -/
theorem takesLine_annotationStart (hnest : s.nest = 0) {visibility : Visibility} {type : TypeName}
    (hone : (Call.annotationStart visibility type).IsOneLine) :
    Stance.TakesLine validate ⟨s, none⟩ [] s (.annotationStart visibility type)
      (Writer.annotationLine visibility type) := by
  intro l hl
  refine ⟨l.annotationCall?, ?_, ?_⟩
  · exact (take_annotationLine hnest hone hl).trans Option.map_id'.symm
  · have hsuits : (Call.annotationStart visibility type).suits .ofClass = true := rfl
    unfold Line.reads
    rw [if_pos hsuits, (Line.calls_of_annotationStart (directive?_annotationLine hl)).1]

/-- Nothing is told before the annotation that a written line opens. -/
theorem head_of_readAll_annotationLine (hnest : s.nest = 0) {visibility : Visibility}
    {type : TypeName} (hone : (Call.annotationStart visibility type).IsOneLine)
    {lines : List (Option Line)} {calls : List Call}
    (h : (⟨s, none⟩ : Stance).readAll validate
      (lineOf (Writer.annotationLine visibility type) :: lines) = some calls) :
    calls.head?.map Call.kind = some .annotationStart := by
  cases hl : lineOf (Writer.annotationLine visibility type) with
  | none =>
    rw [hl] at h
    exact absurd h (Option.some_ne_none _).symm
  | some l =>
    rw [hl, Stance.readAll_cons, take_annotationLine hnest hone hl] at h
    obtain ⟨⟨st, first⟩, hfirst, h⟩ := Option.bind_eq_some_iff.mp h
    obtain ⟨call, hcall, htell⟩ := Option.bind_eq_some_iff.mp hfirst
    obtain ⟨more, -, rfl⟩ := Option.map_eq_some_iff.mp h
    obtain ⟨header, -, rfl⟩ := Option.map_eq_some_iff.mp hcall
    obtain ⟨-, -, hone⟩ := Stance.run_of_tell htell
    dsimp only at hone
    rw [hone]
    rfl

/-- The closing line of a field or a method. -/
theorem exists_closing (name : Text)
    (hname : (lineOf (".end " ++ name)).any (fun l => !l.isComment && l.closes name) = true) :
    ∃ l, lineOf (".end " ++ name) = some l ∧ l.isComment = false ∧ l.closes name = true := by
  cases hl : lineOf (".end " ++ name) with
  | none =>
    rw [hl] at hname
    exact absurd hname Bool.false_ne_true
  | some l =>
    rw [hl, Option.any_some, Bool.and_eq_true, Bool.not_eq_true'] at hname
    exact ⟨l, rfl, hname⟩

/-- The end of a member that has a closing line. -/
theorem readAll_close (hnest : s.nest = 0) (hclosed : s.host ≠ some (.field false))
    (h : s.accept validate .finish = some s') (lines : List (Option Line)) :
    (⟨s, none⟩ : Stance).readAll validate ((s.codeLines .finish).map lineOf ++ lines) =
      ((⟨s', none⟩ : Stance).readAll validate lines).map (.finish :: ·) := by
  have hread : ∀ {l : Line}, Stance.take validate ⟨s, none⟩ l = Stance.tell validate s .finish →
      (⟨s, none⟩ : Stance).readAll validate (some l :: lines) =
        ((⟨s', none⟩ : Stance).readAll validate lines).map (.finish :: ·) := by
    intro l htake
    rw [Stance.readAll_cons, htake, Stance.tell, h]
    simp only [Option.map_some, Option.bind_some, List.singleton_append]
  cases Site.step_of_next? (Site.next?_of_accept h) with
  | header hnest hhost hcall => exact absurd hcall Bool.noConfusion
  | body hnest hhost hcall => exact absurd hcall Bool.noConfusion
  | annotationEnd houter => exact absurd hnest (by omega)
  | @endField annotated _ hhost =>
    cases annotated with
    | false => exact absurd hhost hclosed
    | true =>
      obtain ⟨l, hl, hcomment, hcloses⟩ := exists_closing "field" (by decide +kernel)
      have hcode : s.codeLines .finish = [".end ".toList ++ "field".toList] := by
        unfold Site.codeLines Site.closingText?
        simp only [hnest, hhost]
        rfl
      rw [hcode, List.map_singleton, List.singleton_append, hl]
      refine hread ?_
      rw [Stance.take_of_field hnest hhost hcomment]
      unfold Stance.inField?
      rw [if_pos hcloses]
  | endMethod _ hhost =>
    obtain ⟨l, hl, hcomment, hcloses⟩ := exists_closing "method" (by decide +kernel)
    have hcode : s.codeLines .finish = [".end ".toList ++ "method".toList] := by
      unfold Site.codeLines Site.closingText?
      simp only [hnest, hhost]
      rfl
    rw [hcode, List.map_singleton, List.singleton_append, hl]
    refine hread ?_
    rw [Stance.take_of_method hnest hhost hcomment, Line.bodyCall?,
      Line.directive?_of_closes hcloses]
    dsimp only
    rw [Line.closingCall?, if_pos hcloses]
    rfl

/-! ## All calls -/

/-- The written lines of a call and of those after it. -/
theorem Site.written_cons {call : Call} (h : s.accept validate call = some s')
    (rest : List Call) : s.written (call :: rest) = s.codeLines call ++ s'.written rest := by
  rw [written, Site.next?_of_accept h]

/-- The written lines of a block and of the calls after it. -/
theorem Site.written_block {block : List Call} (h : Block validate s block s')
    (rest : List Call) : s.written (block ++ rest) = s.written block ++ s'.written rest := by
  induction h with
  | last h hnest =>
    rw [List.singleton_append, written_cons h, written_cons h, written, List.append_nil]
  | step h hnest hmid hrest ih =>
    rw [List.cons_append, written_cons h, written_cons h, ih, List.append_assoc]

/-- A call by itself is a legible piece if it is legible. -/
theorem legible_singleton {call : Call} (hfinish : call ≠ .finish)
    (hopens : call.nestFrom 0 = 0) : Legible [call] ↔ call.IsLegible := by
  cases call with
  | finish => exact absurd rfl hfinish
  | annotationStart visibility type => exact absurd hopens Nat.one_ne_zero
  | _ => exact Iff.rfl

/-- The written line of a call that neither ends a member nor opens an annotation is taken for the
call. -/
theorem takesLine_tile {call : Call} (h : s.accept validate call = some s') (hnest : s.nest = 0)
    (hnest' : s'.nest = 0) (hfinish : call ≠ .finish) (hone : call.IsOneLine) {behind : Bool}
    (hbehind : behind = true → s.nest = 0 ∧ s.host = none ∧ s.phase = .body) :
    ∃ text, call.line? = some text ∧
      (s.reader behind).TakesLine validate (Site.owed behind) s call text := by
  have hclass : s.host = none → call.suits .ofClass = true → ∀ {text : Text},
      call.line? = some text →
      (∀ l, lineOf text = some l → behind = true →
        ∃ d, l.directive? = some d ∧ d ≠ .closing ∧ d ≠ .annotationStart) →
      (s.reader behind).TakesLine validate (Site.owed behind) s call text := by
    intro hhost hsuits text htext hd l hl
    refine ⟨l.classCall?, take_reader hnest hhost ((hone text htext).2.2 l hl) (hd l hl), ?_⟩
    unfold Line.reads
    rw [if_pos hsuits]
  have hmethod : ∀ {name : Text} {access : Access} {paramOpen : Bool},
      s.host = some (.method name access paramOpen) → call.suits .ofClass = false →
      ∀ {text : Text}, call.line? = some text →
      (s.reader behind).TakesLine validate (Site.owed behind) s call text := by
    intro name access paramOpen hhost hsuits text htext l hl
    have hhere : behind = false := by
      refine Bool.eq_false_iff.mpr fun hb => ?_
      exact absurd ((hbehind hb).2.1.symm.trans hhost) (Option.some_ne_none _).symm
    subst hhere
    refine ⟨l.bodyCall?, ?_, ?_⟩
    · exact (Stance.take_of_method hnest hhost ((hone text htext).2.2 l hl)).trans
        Option.map_id'.symm
    · unfold Line.reads
      rw [hsuits, if_neg Bool.false_ne_true]
  cases Site.step_of_next? (Site.next?_of_accept h) with
  | header _ hhost hcall hphase =>
    have hfirst : ∀ {text : Text}, ∀ l, lineOf text = some l → behind = true →
        ∃ d, l.directive? = some d ∧ d ≠ .closing ∧ d ≠ .annotationStart :=
      fun _ _ hb => absurd (hbehind hb).2.2 hphase
    cases call <;> first
      | exact ⟨_, rfl, hclass hhost rfl rfl hfirst⟩ | exact absurd hcall Bool.noConfusion
  | field _ hhost =>
    exact ⟨_, rfl, hclass hhost rfl rfl fun l hl _ =>
      ⟨_, directive?_field hl, Directive.noConfusion, Directive.noConfusion⟩⟩
  | method _ hhost =>
    exact ⟨_, rfl, hclass hhost rfl rfl fun l hl _ =>
      ⟨_, directive?_method hl, Directive.noConfusion, Directive.noConfusion⟩⟩
  | param _ hhost register label => cases label <;> exact ⟨_, rfl, hmethod hhost rfl rfl⟩
  | paramEnd _ hhost => exact ⟨_, rfl, hmethod hhost rfl rfl⟩
  | body _ hhost hcall =>
    cases call <;> first
      | exact ⟨_, rfl, hmethod hhost rfl rfl⟩ | exact absurd hcall Bool.noConfusion
  | endField => exact absurd rfl hfinish
  | endMethod => exact absurd rfl hfinish
  | annotationEnd => exact absurd rfl hfinish
  | annotationOfClass => exact absurd hnest' Nat.one_ne_zero
  | annotationOfField => exact absurd hnest' Nat.one_ne_zero
  | annotationOfMethod => exact absurd hnest' Nat.one_ne_zero
  | value houter => exact absurd (houter.symm.trans hnest) (Nat.succ_ne_zero _)
  | nested houter => exact absurd (houter.symm.trans hnest) (Nat.succ_ne_zero _)

/-- Nothing strays with a call that neither ends a member nor opens an annotation. -/
theorem Tiled.strays_line {call : Call} {rest : List Call} (hcall : s.accept validate call = some s')
    (hopens : call.nestFrom 0 = 0) (hrest : Tiled validate s' rest) :
    call.kind ≠ .annotationStart ∧ (Strays (call :: rest) ↔ Strays rest) := by
  have hkind : call.kind ≠ .annotationStart := by
    cases call <;> first | exact CallKind.noConfusion | exact absurd hopens Nat.one_ne_zero
  refine ⟨hkind, ?_⟩
  by_cases hfield : call.kind = .field
  · refine strays_of_head (hrest.head_ne_finish ?_) call
    cases Site.step_of_next? (Site.next?_of_accept hcall) with
    | field => rfl
    | header _ _ hheader =>
      cases call <;> first | exact absurd hheader Bool.noConfusion | cases hfield
    | body _ _ hbody =>
      cases call <;> first | exact absurd hbody Bool.noConfusion | cases hfield
    | _ => cases hfield
  · exact strays_cons hfield rest

/-- What becomes of a field that ends without annotations. -/
structure EndsBare (inner s' : Site) : Prop where
  /-- No annotation is open in it. -/
  nest : inner.nest = 0
  /-- It has no closing line. -/
  closing : inner.codeLines .finish = []
  /-- Behind it is the class. -/
  after : s'.nest = 0 ∧ s'.host = none ∧ s'.phase = .body
  /-- A reader that is behind by its end is in it. -/
  reader : s'.reader true = ⟨inner, none⟩

/-- A field that ends without annotations. -/
theorem endsBare {inner : Site} {name : Text} {access : Access} {type : TypeName}
    {v : Option Value} (hfield : s.accept validate (.field name access type v) = some inner)
    (hfinish : inner.accept validate .finish = some s') (hnest : s.nest = 0) :
    EndsBare inner s' := by
  have hinner : inner.nest = 0 ∧ inner.host = some (.field false) ∧ inner.phase = .body := by
    cases Site.step_of_next? (Site.next?_of_accept hfield) with
    | field => exact ⟨hnest, rfl, rfl⟩
    | header _ _ hheader => exact absurd hheader Bool.noConfusion
    | body _ _ hbody => exact absurd hbody Bool.noConfusion
  have hs' : { inner with host := none } = s' :=
    Option.some.inj ((Site.accept_endField validate hinner.1 hinner.2.1).symm.trans hfinish)
  refine ⟨hinner.1, ?_, ?_, ?_⟩
  · unfold Site.codeLines Site.closingText?
    simp only [hinner.1, hinner.2.1]
    rfl
  · rw [← hs']
    exact ⟨hinner.1, rfl, hinner.2.2⟩
  · rw [← hs', Site.reader, if_pos rfl, ← hinner.2.1]

/-- No field is open where a member is closed. -/
theorem behind_of_close {behind : Bool} (hcall : s.accept validate .finish = some s')
    (hnest : s.nest = 0) (hbehind : behind = true → s.nest = 0 ∧ s.host = none ∧ s.phase = .body) :
    behind = false := by
  refine Bool.eq_false_iff.mpr fun h => ?_
  have hnext := Site.next?_of_accept hcall
  rw [Site.next?_of_class hnest (hbehind h).2.1] at hnext
  exact Option.some_ne_none _ hnext.symm

/-- A reader that may be behind reads the written lines of calls as these calls exactly if all
pieces are legible and no annotation of the class follows a field without a closing line. -/
theorem Tiled.readAll_iff {calls : List Call} (h : Tiled validate s calls)
    (hone : ∀ call ∈ calls, call.IsOneLine) (behind : Bool)
    (hbehind : behind = true → s.nest = 0 ∧ s.host = none ∧ s.phase = .body) :
    (s.reader behind).readAll validate ((s.written calls).map lineOf) =
        some (Site.owed behind ++ calls) ↔
      (∀ piece ∈ pieces calls, Legible piece) ∧ ¬Strays calls ∧
        (behind = true → calls.head?.map Call.kind ≠ some .annotationStart) := by
  induction h generalizing behind with
  | @nil s hends =>
    refine iff_of_true ?_ ⟨by simp, by simp [Strays], by simp⟩
    cases behind with
    | false =>
      have hfinish : (s.reader false).finish? = some [] := by
        unfold Site.reader Stance.finish?
        simp [hends.phase, hends.nest, hends.host]
      simp [Stance.readAll, Stance.takeAll, Site.written, hfinish, Site.owed]
    | true =>
      have hfinish : (s.reader true).finish? = some [.finish] := by
        unfold Site.reader Stance.finish?
        simp [hends.phase, hends.nest]
      simp [Stance.readAll, Stance.takeAll, Site.written, hfinish, Site.owed]
  | @line s s' call rest hcall hnest hnest' hfinish hrest ih =>
    have hopens := nestFrom_eq_zero (Site.next?_of_accept hcall) hnest hnest'
    obtain ⟨hkind, hstrays⟩ := hrest.strays_line hcall hopens
    have hread := ih (fun c hc => hone c (List.mem_cons_of_mem _ hc)) false Bool.noConfusion
    have hline := hone call List.mem_cons_self
    obtain ⟨text, htext, htake⟩ := takesLine_tile hcall hnest hnest' hfinish hline hbehind
    rw [Site.written_cons hcall, List.map_append, readAll_call_iff htext hline hcall htake,
      pieces_cons hopens, List.forall_mem_cons, legible_singleton hfinish hopens, hstrays, and_assoc]
    refine and_congr_right fun _ => hread.trans ?_
    refine and_congr_right fun _ => and_congr_right fun _ => ?_
    simp [hkind]
  | @bareField s inner s' name access type v rest hfield hfinish hnest hrest ih =>
    have hbare := endsBare hfield hfinish hnest
    have hread := ih (fun c hc => hone c (List.mem_cons_of_mem _ (List.mem_cons_of_mem _ hc)))
      true fun _ => hbare.after
    rw [hbare.reader] at hread
    have hline := hone _ List.mem_cons_self
    obtain ⟨text, htext, htake⟩ :=
      takesLine_tile hfield hnest hbare.nest Call.noConfusion hline hbehind
    rw [Site.written_cons hfield, Site.written_cons hfinish, hbare.closing, List.nil_append,
      List.map_append, readAll_call_iff htext hline hfield htake, pieces_cons rfl, pieces_cons rfl,
      List.forall_mem_cons, List.forall_mem_cons, legible_singleton Call.noConfusion rfl,
      strays_field, and_assoc]
    refine and_congr_right fun _ => hread.trans ?_
    constructor
    · rintro ⟨hpieces, hstrays, hhead⟩
      exact ⟨⟨trivial, hpieces⟩, fun h => h.elim (hhead rfl) hstrays,
        fun _ h => CallKind.noConfusion (Option.some.inj h)⟩
    · rintro ⟨⟨-, hpieces⟩, hstrays, -⟩
      exact ⟨hpieces, fun h => hstrays (.inr h), fun _ h => hstrays (.inl h)⟩
  | @close s s' rest hcall hnest hclosed hrest ih =>
    obtain rfl := behind_of_close hcall hnest hbehind
    have hread := ih (fun c hc => hone c (List.mem_cons_of_mem _ hc)) false Bool.noConfusion
    rw [Site.written_cons hcall, List.map_append, pieces_cons rfl, List.forall_mem_cons,
      strays_cons CallKind.noConfusion]
    have hclose := readAll_close hnest hclosed hcall ((s'.written rest).map lineOf)
    have hrest : (⟨s, none⟩ : Stance).readAll validate ((s.codeLines .finish).map lineOf ++
        (s'.written rest).map lineOf) = some (.finish :: rest) ↔
        (s'.reader false).readAll validate ((s'.written rest).map lineOf) = some rest := by
      rw [hclose, Option.map_eq_some_iff]
      constructor
      · rintro ⟨told, htold, heq⟩
        exact (List.cons.inj heq).2 ▸ htold
      · exact fun h => ⟨rest, h, rfl⟩
    refine hrest.trans (hread.trans ?_)
    simp [Legible]
  | @annotated s inner mid visibility type block rest hopen hnest hinner hblock hrest ih =>
    have hline := hone _ List.mem_cons_self
    cases behind with
    | true =>
      -- The reader is in the field still, so it takes the annotation for one of the field.
      refine iff_of_false (fun hread => ?_) fun h => h.2.2 rfl rfl
      rw [Site.written_cons hopen, s.codeLines_of_line? rfl hline, List.singleton_append,
        List.map_cons, lineOf_trim] at hread
      have hhead := head_of_readAll_annotationLine (s := (s.reader true).site) hnest hline hread
      exact CallKind.noConfusion (Option.some.inj hhead)
    | false =>
      obtain ⟨e, hrun, -⟩ := hrest.run
      have hread := ih (fun c hc => hone c (List.mem_cons_of_mem _ (List.mem_append_right _ hc)))
        false Bool.noConfusion
      have hopening := readAll_call_iff rfl hline hopen (takesLine_annotationStart hnest hline)
        ((inner.written (block ++ rest)).map lineOf) (block ++ rest)
      have hall := readAll_block_iff hblock hinner hrun
      rw [← List.map_append, ← Site.written_block hblock] at hall
      rw [Site.written_cons hopen, List.map_append, hblock.pieces_block hinner,
        List.forall_mem_cons, strays_cons CallKind.noConfusion, hblock.strays_append]
      refine hopening.trans ?_
      rw [hall]
      constructor
      · rintro ⟨hlegible, hblock, hrest⟩
        obtain ⟨hpieces, hstrays, -⟩ := hread.mp hrest
        exact ⟨⟨⟨hlegible, hblock⟩, hpieces⟩, hstrays, Bool.noConfusion⟩
      · rintro ⟨⟨⟨hlegible, hblock⟩, hpieces⟩, hstrays, -⟩
        exact ⟨hlegible, hblock, hread.mpr ⟨hpieces, hstrays, Bool.noConfusion⟩⟩

end Smali
