import Smali.Proofs.CommentedSources
import Smali.Proofs.ElementLines
import Smali.Proofs.LineWords
import Smali.Proofs.PageLines

/-!
# Where comments are put

A comment behind code belongs to the line that is open on the page. If there is ink on that line,
the comment stands behind what is left of the line, and nothing else on the page changes. The
lines that are written for a call end with such a line.
-/

namespace Smali

namespace Text

/-! ## Ends of texts -/

/-- Whether there is ink on the last line of a text. -/
def EndsInk (t : Text) : Prop :=
  ∃ before last, t = before ++ last ∧ last.IsInline ∧ trim last ≠ []

variable {t : Text}

/-- What stands in front does not matter. -/
theorem EndsInk.append_left (h : t.EndsInk) (front : Text) : (front ++ t).EndsInk := by
  obtain ⟨before, last, rfl, hlast, hink⟩ := h
  exact ⟨front ++ before, last, (List.append_assoc _ _ _).symm, hlast, hink⟩

/-- One line with ink on it. -/
theorem endsInk_of_inline (h : t.IsInline) (hink : trim t ≠ []) : t.EndsInk :=
  ⟨[], t, rfl, h, hink⟩

/-- A text whose last character is no blank. -/
theorem endsInk_of_getLast? (h : ∃ c ∈ t.getLast?, isBlank c = false) : t.EndsInk := by
  obtain ⟨c, hc, hblank⟩ := h
  have hnl : c ≠ '\n' := by
    rintro rfl
    exact absurd hblank (by decide)
  refine ⟨t.dropLast, [c], (List.dropLast_append_getLast? c hc).symm,
    isInline_cons.mpr ⟨hnl, isInline_nil⟩, fun htrim => ?_⟩
  have hall := trim_eq_nil.mp htrim c List.mem_cons_self
  exact Bool.false_ne_true (hblank.symm.trans hall)

/-- The last line of a text that ends with ink has ink on it, wherever the text is cut. -/
theorem EndsInk.trim_lastLine {whole last : Text} (h : (whole ++ last).EndsInk)
    (hwhole : whole = [] ∨ ∃ u, whole = u ++ ['\n']) : trim last ≠ [] := by
  obtain ⟨before, ink, heq, hinline, hink⟩ := h
  intro hblank
  refine hink (trim_eq_nil.mpr fun c hc => ?_)
  have hlast := trim_eq_nil.mp hblank
  obtain ⟨middle, rfl, rfl⟩ | ⟨middle, rfl, rfl⟩ := List.append_eq_append_iff.mp heq
  · exact hlast c (List.mem_append_right _ hc)
  · obtain hnil | hc := List.mem_append.mp hc
    · obtain heq | ⟨u, heq⟩ := hwhole
      · exact absurd hnil ((List.append_eq_nil_iff.mp heq).2 ▸ List.not_mem_nil)
      · have hlast : (before ++ middle).getLast? = some '\n' := by
          rw [heq, List.getLast?_concat]
        rw [List.getLast?_append_of_ne_nil _ (List.ne_nil_of_mem hnil)] at hlast
        exact absurd (List.mem_append_left _ (List.mem_of_getLast? hlast)) hinline
    · exact hlast c hc

/-- The last character of what loses nothing at its end. -/
theorem isBlank_getLast?_of_trimRight (h : trimRight t = t) :
    ∀ c ∈ t.getLast?, isBlank c = false := by
  intro c hc
  rw [← h, trimRight, List.getLast?_reverse] at hc
  have := List.head?_dropWhile_not isBlank t.reverse
  rw [hc] at this
  simpa using this

/-! ## Comments as texts -/

/-- Words of a comment as they are written have no blanks at their ends. -/
theorem IsNote.isTrimmed_comment (h : t.IsNote) : IsTrimmed (Page.comment t) := by
  unfold Page.comment
  split
  · exact isTrimmed_of_ends rfl rfl rfl rfl
  · next hne =>
    have hlast : ('#' :: ' ' :: t).getLast? = t.getLast? :=
      List.getLast?_append_of_ne_nil ['#', ' '] (by simpa using hne)
    refine ⟨?_, fun c hc => isBlank_getLast?_of_trimRight h.trimmed c (hlast ▸ hc)⟩
    rintro c ⟨⟩
    rfl

/-- They take one line. -/
theorem IsNote.codeLines_comment (h : t.IsNote) :
    codeLines (Page.comment t) = [Page.comment t] := by
  obtain ⟨hinline, hne⟩ := Writer.isFull_comment h.inline
  exact codeLines_of_isTrimmed hinline h.isTrimmed_comment hne

/-- The words are found again behind the number sign. -/
theorem IsNote.commentBody_comment (h : t.IsNote) : commentBody (Page.comment t) = t := by
  have hbody : commentBody (Page.comment t) = trimRight t := by
    unfold Page.comment commentBody
    split
    · next hnil =>
      rw [List.isEmpty_iff.mp hnil]
      rfl
    · rfl
  rw [hbody, h.trimmed]

/-- A comment behind a text with ink on it. -/
theorem trim_append_comment {line : Text} (h : trim line ≠ []) (ht : t.IsNote) :
    ∃ w, IsBlank w ∧ w ≠ [] ∧
      trim (line ++ ' ' :: Page.comment t) = trim line ++ (w ++ Page.comment t) := by
  obtain ⟨before, after, hbefore, hafter, hline⟩ := exists_trim line
  have hfull := Writer.isFull_comment ht.inline
  refine ⟨after ++ [' '], isBlank_append.mpr ⟨hafter, isBlank_cons.mpr ⟨rfl, isBlank_nil⟩⟩,
    List.append_ne_nil_of_right_ne_nil after (List.cons_ne_nil _ _), ?_⟩
  have hsplit : line ++ ' ' :: Page.comment t =
      before ++ (trim line ++ ((after ++ [' ']) ++ Page.comment t)) := by
    conv =>
      lhs
      rw [hline]
    simp
  have htrimmed :=
    IsTrimmed.append (isTrimmed_trim line) h ht.isTrimmed_comment hfull.ne_nil (after ++ [' '])
  rw [hsplit, trim_append_left hbefore, htrimmed.trim_eq]

end Text

/-! ## Pages -/

namespace Page

/-- Whether the last line of a page is open and has ink on it. -/
structure EndsInk (p : Page) : Prop where
  /-- The last line is open. -/
  isOpen : p.isOpen = true
  /-- There is ink on it. -/
  ink : Text.EndsInk p.written.reverse

variable {p : Page} {text : Text}

/-- A page with one more line. -/
theorem endsInk_line (p : Page) (level : Nat) (h : text.EndsInk) : (p.line level text).EndsInk := by
  refine ⟨rfl, ?_⟩
  have hwritten : (p.line level text).written.reverse =
      (p.close.written.reverse ++ indent level) ++ text := by
    simp [line, append]
  rw [hwritten]
  exact h.append_left _

/-- A page with several more lines. -/
theorem endsInk_stack (p : Page) (level : Nat) (texts : List Text) (h : text.EndsInk) :
    (p.stack level (texts ++ [text])).EndsInk := by
  have hlast : p.stack level (texts ++ [text]) = (p.stack level texts).line level text :=
    List.foldl_concat _ _ _ _
  rw [hlast]
  exact endsInk_line _ level h

/-- A comment on a line of its own. -/
theorem Holds.note {lines : List Text} (h : p.Holds lines) (level : Nat) (ht : text.IsNote) :
    (p.line level (Page.comment text)).Holds (lines ++ [Page.comment text]) :=
  ht.codeLines_comment ▸ h.line level (Page.comment text)

/-- A comment behind a line with ink on it. -/
theorem Holds.eolNote {lines : List Text} {last : Text} (h : p.Holds (lines ++ [last]))
    (hp : p.EndsInk) (level : Nat) (ht : text.IsNote) :
    ∃ w, Text.IsBlank w ∧ w ≠ [] ∧
      (p.eolComment level text).Holds (lines ++ [last ++ (w ++ Page.comment text)]) := by
  obtain ⟨written, isOpen⟩ := p
  obtain ⟨rfl, hink⟩ := hp
  have hcomment := (Writer.isFull_comment ht.inline).inline
  have hcontents : ∀ t : Text, (⟨t, true⟩ : Page).contents = t.reverse ++ ['\n'] := fun t => by
    simp [contents, close]
  have hafter : ((⟨written, true⟩ : Page).eolComment level text).contents =
      (written.reverse ++ ' ' :: Page.comment text) ++ ['\n'] := by
    simp [Page.eolComment, Page.append, contents, close]
  obtain ⟨whole, line, hsplit, hline, hwhole⟩ := Text.exists_lastLine written.reverse
  dsimp only at hink
  have hne : Text.trim line ≠ [] := (hsplit ▸ hink).trim_lastLine hwhole
  have hpage : lines ++ [last] = Text.codeLines whole ++ [Text.trim line] := by
    rw [← h.codeLines, hcontents, Text.codeLines_append_newline, hsplit,
      Text.codeLines_append_whole hwhole, Text.codeLines_of_not_mem hline,
      if_neg (by simpa using hne)]
  obtain ⟨rfl, heq⟩ := List.append_inj' hpage rfl
  obtain rfl := List.singleton_inj.mp heq
  obtain ⟨w, hw, hne', htrim⟩ := Text.trim_append_comment hne ht
  refine ⟨w, hw, hne', .inr ⟨_, hafter⟩, ?_⟩
  have hbehind : (line ++ ' ' :: Page.comment text).IsInline :=
    Text.isInline_append.mpr ⟨hline, Text.isInline_cons.mpr ⟨by decide, hcomment⟩⟩
  rw [hafter, Text.codeLines_append_newline, hsplit, List.append_assoc,
    Text.codeLines_append_whole hwhole, Text.codeLines_of_not_mem hbehind, htrim,
    if_neg (by simp [hne])]

end Page

/-! ## Calls -/

/-- A descriptor ends with a character that is no blank. -/
theorem TypeName.exists_getLast?_descriptor (type : TypeName) :
    ∃ c ∈ type.descriptor.getLast?, Text.isBlank c = false := by
  induction type with
  | primitive kind => exact ⟨_, rfl, by cases kind <;> rfl⟩
  | array element dimensions ih =>
    obtain ⟨c, hc, hblank⟩ := ih
    exact ⟨c, List.mem_getLast?_append_of_mem_getLast? hc, hblank⟩
  | object name =>
    refine ⟨';', ?_, rfl⟩
    rw [descriptor, List.getLast?_concat]
    rfl
  | void => exact ⟨'V', rfl, rfl⟩

/-- A value is written on one line, or its last character is no blank. -/
theorem Value.isInline_or_getLast? (v : Value) :
    v.IsInline ∨ ∃ c ∈ v.encode.getLast?, Text.isBlank c = false := by
  have hscalar : ∀ {v : Value}, v.plainTexts = [] → (∀ values, v ≠ .array values) →
      (∀ type elements, v ≠ .annotated type elements) → v.IsInline :=
      fun htexts harray hannotated =>
    isInline_of_plainTexts (htexts ▸ List.forall_mem_nil _) harray hannotated
  have htype : ∀ (before : Text) (type : TypeName),
      ∃ c ∈ (before ++ type.descriptor).getLast?, Text.isBlank c = false := fun before type =>
    (type.exists_getLast?_descriptor).imp fun c hc =>
      ⟨List.mem_getLast?_append_of_mem_getLast? hc.1, hc.2⟩
  have htidy : ∀ {v : Value}, v.IsTidy → ∃ c ∈ v.encode.getLast?, Text.isBlank c = false :=
    fun h => ⟨_, List.getLast?_eq_some_getLast h.ne_nil,
      h.trimmed.2 _ (List.getLast?_eq_some_getLast h.ne_nil)⟩
  cases v with
  | typeName type => exact .inr type.exists_getLast?_descriptor
  | enumeration owner name type => exact .inr (htype (".enum " ++ _) type)
  | field owner name type => exact .inr (htype _ type)
  | method owner name signature =>
    have hlast := htype (owner.descriptor ++ "->" ++ name ++ '(' ::
      (signature.params.map TypeName.descriptor).flatten ++ [')']) signature.result
    refine .inr ?_
    rw [encode_method, Signature.descriptor]
    simpa only [List.append_assoc, List.cons_append, List.nil_append] using hlast
  | array values => exact .inr (htidy (isTidy_array values))
  | annotated type elements => exact .inr (htidy (isTidy_annotated type elements))
  | _ => exact .inl (hscalar rfl (by rintro _ ⟨⟩) (by rintro _ _ ⟨⟩))

/-- A number has digits. -/
theorem Binary.Format.numeral_ne_nil (f : Format) (style : NumeralStyle) (bits : Nat) :
    f.numeral style bits ≠ [] := by
  have hbody : ∀ magnitude, f.unsignedNumeral style magnitude ≠ [] := by
    intro magnitude
    unfold unsignedNumeral
    split
    · decide
    · split
      · unfold Decimal.positional
        dsimp only
        split
        · exact List.append_ne_nil_of_right_ne_nil _ (List.cons_ne_nil _ _)
        · split
          · exact List.append_ne_nil_of_right_ne_nil _ (List.cons_ne_nil _ _)
          · exact List.cons_ne_nil _ _
      · exact List.append_ne_nil_of_right_ne_nil _ (List.cons_ne_nil _ _)
  unfold numeral
  dsimp only
  split
  · exact List.cons_ne_nil _ _
  · exact hbody _

/-- Every value has a written form. -/
theorem Value.encode_ne_nil (v : Value) : v.encode ≠ [] := by
  have hsuffix : ∀ (t : Text) (c : Char), t ++ [c] ≠ [] := fun t c =>
    List.append_ne_nil_of_right_ne_nil t (List.cons_ne_nil c [])
  cases v with
  | int n =>
    change Literal.hexInteger _ ≠ []
    unfold Literal.hexInteger
    split <;> exact List.append_ne_nil_of_left_ne_nil (by decide) _
  | long n => exact hsuffix _ 'L'
  | short n => exact hsuffix _ 's'
  | byte n => exact hsuffix _ 't'
  | float bits => exact hsuffix _ 'f'
  | double bits =>
    change Literal.number _ _ ≠ []
    unfold Literal.number
    split
    · decide
    · split
      · split <;> decide
      · exact Binary.Format.numeral_ne_nil _ _ _
  | string text => exact List.cons_ne_nil _ _
  | char c => exact List.cons_ne_nil _ _
  | bool b => cases b <;> decide
  | null => exact (by decide : "null".toList ≠ [])
  | array values => exact (isTidy_array values).ne_nil
  | annotated type elements => exact (isTidy_annotated type elements).ne_nil
  | typeName type =>
    obtain ⟨c, hc, -⟩ := type.exists_getLast?_descriptor
    exact List.ne_nil_of_mem (List.mem_of_getLast? hc)
  | enumeration owner name type => exact List.append_ne_nil_of_left_ne_nil (by decide) _
  | field owner name type =>
    exact List.append_ne_nil_of_left_ne_nil (List.append_ne_nil_of_right_ne_nil _ (by decide)) _
  | method owner name signature => exact List.append_ne_nil_of_right_ne_nil _ (List.cons_ne_nil _ _)

namespace Writer

/-- The last line of an annotation element has ink on it. -/
theorem endsInk_valueLines (name : Text) (v : Value) :
    ∃ front last, valueLines (name ++ " = ") v [] = front ++ [last] ∧ last.EndsInk := by
  have hfirst : ∀ {t : Text}, t.IsInline → Text.EndsInk (name ++ " = " ++ t) := fun ht => by
    rw [List.append_assoc]
    refine (Text.endsInk_of_inline (Text.isInline_append.mpr ⟨by decide, ht⟩)
      fun htrim => ?_).append_left
      name
    exact absurd (Text.trim_eq_nil.mp htrim '=' (by simp)) (by decide)
  obtain hinline | ⟨c, hc, hblank⟩ := v.isInline_or_getLast?
  · exact ⟨[], _, valueLines_before _ (Text.lines_of_not_mem hinline v.encode_ne_nil),
      hfirst hinline⟩
  · have hnl : v.encode.getLast? ≠ some '\n' := fun hnl => by
      obtain rfl := Option.some.inj (hc.symm.trans hnl)
      exact absurd hblank (by decide)
    obtain ⟨front, last, hlines, hlast⟩ := Text.exists_lines_concat v.encode_ne_nil hnl
    have hinline : last.IsInline := Text.isInline_of_mem_lines
      (t := v.encode) (hlines ▸ List.mem_append_right _ List.mem_cons_self)
    cases front with
    | nil => exact ⟨[], _, valueLines_before _ hlines, hfirst hinline⟩
    | cons first front =>
      exact ⟨_ :: front, last, valueLines_before _ hlines,
        Text.endsInk_of_getLast? ⟨c, hlast.trans hc, hblank⟩⟩

/-- An annotation element ends with ink. -/
theorem endsInk_writeElement (p : Page) (level : Nat) (name : Text) (v : Value) :
    (writeElement p level name v).EndsInk := by
  have hlines : (p.stack level (valueLines (name ++ " = ") v [])).EndsInk := by
    obtain ⟨front, last, heq, hlast⟩ := endsInk_valueLines name v
    exact heq ▸ p.endsInk_stack level front hlast
  cases v with
  | array values =>
    cases values with
    | nil => exact hlines
    | cons first more =>
      exact Page.endsInk_line _ level (Text.endsInk_of_inline (by decide) (by decide))
  | _ => exact hlines

/-- The end of a scope that has a line ends with ink. -/
theorem endsInk_inner (sheet : Sheet) (level : Nat) {text : Text} (h : text.EndsInk) :
    (sheet.inner level text).page.EndsInk := Page.endsInk_line _ level h

/-- A call leaves ink on the line that is open, ends and comments aside. -/
theorem endsInk_write (sheet : Sheet) (pen : Pen) {call : Call} (hone : call.IsOneLine)
    (hshared : call.isShared = false) (hsuits : call.suits pen.scope = true) :
    (pen.write call sheet).page.EndsInk := by
  have hline : ∀ {text : Text}, call.line? = some text → text.EndsInk := fun htext =>
    Text.endsInk_of_inline (hone _ htext).1 (hone _ htext).2.1
  have hmember : ∀ {text : Text}, call.line? = some text → (sheet.member text).page.EndsInk :=
    fun htext => Page.endsInk_line _ 0 (hline htext)
  have hheader : ∀ {text : Text}, call.line? = some text → (sheet.header text).page.EndsInk :=
    fun htext => Page.endsInk_line _ 0 (hline htext)
  have hinner : ∀ (level : Nat) {text : Text}, call.line? = some text →
      (sheet.inner level text).page.EndsInk :=
    fun level _ htext => Page.endsInk_line _ level (hline htext)
  cases pen with
  | ofClass =>
    cases call with
    | header type access => exact hheader rfl
    | superType type => exact hheader rfl
    | implements type => exact hheader rfl
    | source name => exact hheader rfl
    | field name access type value => exact hmember rfl
    | method name access signature => exact hmember rfl
    | annotationStart visibility type => exact hmember rfl
    | comment text => exact absurd hshared Bool.noConfusion
    | eolComment text => exact absurd hshared Bool.noConfusion
    | finish => exact absurd hshared Bool.noConfusion
    | _ => exact absurd hsuits Bool.noConfusion
  | ofField annotated =>
    cases call with
    | annotationStart visibility type => exact hinner _ rfl
    | comment text => exact absurd hshared Bool.noConfusion
    | eolComment text => exact absurd hshared Bool.noConfusion
    | finish => exact absurd hshared Bool.noConfusion
    | _ => exact absurd hsuits Bool.noConfusion
  | ofMethod paramOpen =>
    cases call with
    | comment text => exact absurd hshared Bool.noConfusion
    | eolComment text => exact absurd hshared Bool.noConfusion
    | finish => exact absurd hshared Bool.noConfusion
    | header type access => exact absurd hsuits Bool.noConfusion
    | superType type => exact absurd hsuits Bool.noConfusion
    | implements type => exact absurd hsuits Bool.noConfusion
    | source name => exact absurd hsuits Bool.noConfusion
    | field name access type value => exact absurd hsuits Bool.noConfusion
    | method name access signature => exact absurd hsuits Bool.noConfusion
    | value name v => exact absurd hsuits Bool.noConfusion
    | subannotationStart name type => exact absurd hsuits Bool.noConfusion
    | param register name => cases name <;> exact hinner _ rfl
    | _ => exact hinner _ rfl
  | ofAnnotationBody level nested =>
    cases call with
    | value name v => exact endsInk_writeElement _ _ _ _
    | subannotationStart name type =>
      exact Page.endsInk_line _ _ (Text.EndsInk.append_left
        (Text.endsInk_of_getLast? type.exists_getLast?_descriptor) _)
    | comment text => exact absurd hshared Bool.noConfusion
    | eolComment text => exact absurd hshared Bool.noConfusion
    | finish => exact absurd hshared Bool.noConfusion
    | _ => exact absurd hsuits Bool.noConfusion

/-- The innermost pen of a writer at a site writes the calls that can follow there. -/
theorem Penned.exists_suited {scopes : List (Option (Handle Unit))} {s s' : Site}
    (h : Penned scopes s.nest s.host) {call : Call} (hs : s.next? call = some s') :
    ∃ pen slot outer, scopes = some ⟨pen, slot⟩ :: outer ∧ slot.delegate = none ∧
      call.suits pen.scope = true := by
  obtain ⟨phase, declared, host, nest⟩ := s
  dsimp only at h
  cases h with
  | ofClass slot hslot =>
    refine ⟨_, slot, _, rfl, hslot, ?_⟩
    cases call <;> first | rfl | exact absurd hs (Option.some_ne_none _).symm
  | ofField slot hslot =>
    refine ⟨_, slot, _, rfl, hslot, ?_⟩
    cases call <;> first | rfl | exact absurd hs (Option.some_ne_none _).symm
  | ofMethod slot hslot =>
    refine ⟨_, slot, _, rfl, hslot, ?_⟩
    cases call <;> first | rfl | exact absurd hs (Option.some_ne_none _).symm
  | ofAnnotationBody slot hslot =>
    refine ⟨_, slot, _, rfl, hslot, ?_⟩
    cases call <;> first | rfl | exact absurd hs (Option.some_ne_none _).symm

variable {d : Desk (State Unit) (Handle Unit)}

/-- What is on the sheet after a call. -/
theorem sheet_makeAll {pen : Pen} {slot : Slot Unit} {outer : List (Option (Handle Unit))}
    (hscopes : d.scopes = some ⟨pen, slot⟩ :: outer) (hslot : slot.delegate = none) {call : Call}
    (hsuits : call.suits pen.scope = true) :
    (d.makeAll (listener .discard) call.moves).state.sheet = pen.write call d.state.sheet := by
  have hcall := call_eq hscopes hslot hsuits
  cases call with
  | finish =>
    have hmake : d.makeAll (listener .discard) Call.finish.moves =
        (d.make (listener .discard) (.tell .finish)).make (listener .discard) .leave := rfl
    rw [hmake, make_tell hscopes hslot hsuits]
    rfl
  | _ =>
    simp only [Call.moves, Call.opens?, Option.isSome_some, Option.isSome_none, if_true,
      Bool.false_eq_true, if_false, Desk.makeAll, List.foldl_cons, List.foldl_nil, Desk.make, hcall]

/-- The end of a scope with a line of its own leaves ink on that line. -/
theorem Penned.endsInk_finish {scopes : List (Option (Handle Unit))} {s : Site} {pen : Pen}
    {slot : Slot Unit} {outer : List (Option (Handle Unit))} (h : Penned scopes s.nest s.host)
    (hscopes : scopes = some ⟨pen, slot⟩ :: outer) (hclosing : s.closingText? ≠ none)
    (sheet : Sheet) : (pen.finish sheet).page.EndsInk := by
  obtain ⟨phase, declared, host, nest⟩ := s
  dsimp only at h
  have hend : ∀ (level : Nat) {text : Text}, text.IsInline → Text.trim text ≠ [] →
      (sheet.inner level text).page.EndsInk :=
    fun level _ hinline hne => Page.endsInk_line _ level (Text.endsInk_of_inline hinline hne)
  cases h with
  | ofClass slot hslot => exact absurd rfl hclosing
  | ofField slot hslot annotated =>
    obtain ⟨hpen, -⟩ := List.cons.inj hscopes
    obtain ⟨rfl, rfl⟩ := Handle.mk.inj (Option.some.inj hpen)
    cases annotated with
    | false => exact absurd rfl hclosing
    | true => exact hend 0 (by decide) (by decide)
  | ofMethod slot hslot =>
    obtain ⟨hpen, -⟩ := List.cons.inj hscopes
    obtain ⟨rfl, rfl⟩ := Handle.mk.inj (Option.some.inj hpen)
    exact hend 0 (by decide) (by decide)
  | ofAnnotationBody slot hslot level =>
    obtain ⟨hpen, -⟩ := List.cons.inj hscopes
    obtain ⟨rfl, rfl⟩ := Handle.mk.inj (Option.some.inj hpen)
    have hwords : ∀ nested : Bool,
        Text.IsInline (if nested then ".end subannotation" else ".end annotation") ∧
          Text.trim (if nested then ".end subannotation" else ".end annotation") ≠ [] := by
      decide
    exact hend level (hwords _).1 (hwords _).2

/-- A call with lines leaves ink on the last of them. -/
theorem Wrote.endsInk {s s' : Site} {lines : List Text} (h : Wrote d s lines) {call : Call}
    (hs : s.next? call = some s') (hone : call.IsOneLine) (hcomment : call.isComment = false)
    (hclosing : call = .finish → s.closingText? ≠ none) :
    (d.makeAll (listener .discard) call.moves).state.sheet.page.EndsInk := by
  obtain ⟨pen, slot, outer, hscopes, hslot, hsuits⟩ := h.penned.exists_suited hs
  rw [sheet_makeAll hscopes hslot hsuits]
  cases hshared : call.isShared with
  | false => exact endsInk_write _ pen hone hshared hsuits
  | true =>
    cases call with
    | finish => exact h.penned.endsInk_finish hscopes (hclosing rfl) _
    | comment text => exact absurd hcomment Bool.noConfusion
    | eolComment text => exact absurd hcomment Bool.noConfusion
    | _ => exact absurd hshared Bool.noConfusion

/-- A writer writes a comment on a line of its own. -/
theorem Wrote.note {s : Site} {lines : List Text} (h : Wrote d s lines) {text : Text}
    (ht : text.IsNote) :
    Wrote (d.makeAll (listener .discard) (Call.comment text).moves) s
      (lines ++ [Page.comment text]) := by
  obtain ⟨pen, slot, outer, hscopes, hslot⟩ := h.penned.exists_pen
  rw [makeAll_remark hscopes hslot rfl]
  refine ⟨h.penned, ?_⟩
  cases pen with
  | ofClass => exact Page.Holds.note (holds_separate h.holds) 0 ht
  | _ => exact Page.Holds.note h.holds _ ht

/-- A writer writes a comment behind a line with ink on it. -/
theorem Wrote.eolNote {s : Site} {lines : List Text} {last : Text} (h : Wrote d s (lines ++ [last]))
    (hink : d.state.sheet.page.EndsInk) {text : Text} (ht : text.IsNote) :
    ∃ w, Text.IsBlank w ∧ w ≠ [] ∧
      Wrote (d.makeAll (listener .discard) (Call.eolComment text).moves) s
        (lines ++ [last ++ (w ++ Page.comment text)]) := by
  obtain ⟨pen, slot, outer, hscopes, hslot⟩ := h.penned.exists_pen
  obtain ⟨w, hw, hne, hholds⟩ := Page.Holds.eolNote h.holds hink pen.level ht
  rw [makeAll_remark hscopes hslot rfl]
  exact ⟨w, hw, hne, h.penned, hholds⟩

end Writer

end Smali
