import Mathlib.Data.List.Induction
import Smali.Proofs.Overheard
import Smali.Proofs.Written

/-!
# Pages with comments

Between the calls of its code a writer may hear comments. A comment takes a line of its own, or
it is put behind the last line. So the code lines of the page are those of the code alone, some
of them with a comment behind them, and between them lines that are comments.
-/

namespace Smali

namespace Text

/-- What can follow code on its line: nothing, or blanks and a comment. -/
def IsRemark (t : Text) : Prop :=
  t = [] ∨ ∃ w more, IsBlank w ∧ w ≠ [] ∧ t = w ++ '#' :: more

/-- A further comment behind a comment belongs to it. -/
theorem IsRemark.append {t w : Text} (h : t.IsRemark) (hw : IsBlank w) (hne : w ≠ [])
    (more : Text) : (t ++ (w ++ '#' :: more)).IsRemark := by
  rcases h with rfl | ⟨before, first, hbefore, hstart, rfl⟩
  · exact .inr ⟨w, more, hw, hne, rfl⟩
  · exact .inr ⟨before, first ++ (w ++ '#' :: more), hbefore, hstart, by simp⟩

/-- A text with a character at its start that is no blank. -/
def StartsInk (t : Text) : Prop := ∃ c ∈ t.head?, isBlank c = false

/-- What is left of a text starts with ink, unless nothing is left. -/
theorem startsInk_trim {t : Text} (h : trim t ≠ []) : (trim t).StartsInk := by
  obtain ⟨c, rest, hc⟩ := List.exists_cons_of_ne_nil h
  have hhead : c ∈ (trim t).head? := by rw [hc]; rfl
  exact ⟨c, hhead, (isTrimmed_trim t).1 c hhead⟩

/-- Code lines start with ink. -/
theorem startsInk_of_mem_codeLines {t line : Text} (h : line ∈ codeLines t) : line.StartsInk := by
  obtain ⟨hmem, hne⟩ := List.mem_filter.mp h
  obtain ⟨whole, -, rfl⟩ := List.mem_map.mp hmem
  exact startsInk_trim fun hnil => by simp [hnil] at hne

/-- Blanks are trimmed at the end of what starts with ink. -/
theorem trim_of_startsInk {t : Text} (h : t.StartsInk) : trim t = trimRight t := by
  obtain ⟨c, hc, hblank⟩ := h
  cases t with
  | nil => exact absurd hc (Option.not_mem_none c)
  | cons d rest =>
    obtain rfl := Option.some.inj hc
    rw [trim, trimLeft, List.dropWhile_cons_of_neg (by simp [hblank])]

/-- What is left of a comment. -/
theorem trim_sign (more : Text) : trim ('#' :: more) = '#' :: trimRight more := by
  have hsign : ∀ c ∈ ['#'].getLast?, isBlank c = false := by
    rintro c ⟨rfl⟩
    rfl
  rw [trim_of_startsInk ⟨'#', rfl, rfl⟩]
  exact trimRight_append_of_last hsign more

/-- A comment behind what a text holds. -/
theorem trim_append_remark {t : Text} (h : trim t ≠ []) (rest : Text) :
    ∃ w more, IsBlank w ∧ w ≠ [] ∧ trim (t ++ ' ' :: '#' :: rest) = trim t ++ (w ++ '#' :: more) := by
  obtain ⟨before, after, hbefore, hafter, ht⟩ := exists_trim t
  refine ⟨after ++ [' '], trimRight rest, isBlank_append.mpr ⟨hafter, isBlank_cons.mpr ⟨rfl, isBlank_nil⟩⟩,
    List.append_ne_nil_of_right_ne_nil after (List.cons_ne_nil _ _), ?_⟩
  have hsplit : t ++ ' ' :: '#' :: rest =
      before ++ ((trim t ++ (after ++ [' ', '#'])) ++ rest) := by
    conv =>
      lhs
      rw [ht]
    simp
  have hink : ((trim t ++ (after ++ [' ', '#'])) ++ rest).StartsInk := by
    obtain ⟨c, hc, hblank⟩ := startsInk_trim h
    exact ⟨c, by
      rw [List.append_assoc]
      exact List.mem_head?_append_of_mem_head? hc, hblank⟩
  rw [hsplit, trim_append_left hbefore, trim_of_startsInk hink, trimRight_append_of_last]
  · simp
  · intro c hc
    simp only [List.getLast?_append, List.getLast?_cons_cons, List.getLast?_singleton,
      Option.some_or] at hc
    obtain rfl := Option.some.inj hc
    decide

/-- A text falls into whole lines and a last line. -/
theorem exists_lastLine (t : Text) :
    ∃ whole last, t = whole ++ last ∧ last.IsInline ∧ (whole = [] ∨ ∃ u, whole = u ++ ['\n']) := by
  induction t using List.reverseRecOn with
  | nil => exact ⟨[], [], rfl, isInline_nil, .inl rfl⟩
  | append_singleton t c ih =>
    by_cases hc : c = '\n'
    · exact ⟨t ++ [c], [], (List.append_nil _).symm, isInline_nil, .inr ⟨t, hc ▸ rfl⟩⟩
    · obtain ⟨whole, last, rfl, hlast, hwhole⟩ := ih
      refine ⟨whole, last ++ [c], List.append_assoc _ _ _, ?_, hwhole⟩
      exact isInline_append.mpr ⟨hlast, isInline_cons.mpr ⟨hc, isInline_nil⟩⟩

/-- The code lines of whole lines and of what follows them. -/
theorem codeLines_append_whole {whole : Text} (h : whole = [] ∨ ∃ u, whole = u ++ ['\n'])
    (t : Text) : codeLines (whole ++ t) = codeLines whole ++ codeLines t := by
  rcases h with rfl | ⟨u, rfl⟩
  · rfl
  · rw [List.append_assoc, codeLines_append_newline]
    exact codeLines_append u t

end Text

/-! ## Lines with comments -/

/-- Lines of code, some with a comment behind them, with comments between them. -/
inductive Remarked : List Text → List Text → Prop where
  /-- No lines. -/
  | nil : Remarked [] []
  /-- A line of code. -/
  | code {t rest : Text} {page lines : List Text} (ht : t.StartsInk) (hrest : rest.IsRemark)
    (h : Remarked page lines) : Remarked ((t ++ rest) :: page) (t :: lines)
  /-- A comment. -/
  | note (more : Text) {page lines : List Text} (h : Remarked page lines) :
    Remarked (('#' :: more) :: page) lines

namespace Remarked

variable {page more lines rest : List Text}

/-- Lines one after another. -/
theorem append (h : Remarked page lines) (h' : Remarked more rest) :
    Remarked (page ++ more) (lines ++ rest) := by
  induction h with
  | nil => exact h'
  | code ht hrest _ ih => exact .code ht hrest ih
  | note text _ ih => exact .note text ih

/-- Lines without comments. -/
theorem refl (h : ∀ t ∈ lines, t.StartsInk) : Remarked lines lines := by
  induction lines with
  | nil => exact .nil
  | cons t lines ih =>
    obtain ⟨ht, hlines⟩ := List.forall_mem_cons.mp h
    have hline := Remarked.code ht (.inl rfl) (ih hlines)
    rwa [List.append_nil] at hline

/-- A comment behind the last line. -/
theorem remark_last {last : Text} (h : Remarked (page ++ [last]) lines) {w : Text}
    (hw : Text.IsBlank w) (hne : w ≠ []) (more : Text) :
    Remarked (page ++ [last ++ (w ++ '#' :: more)]) lines := by
  generalize hall : page ++ [last] = all at h
  induction h generalizing page with
  | nil => exact absurd hall (List.append_ne_nil_of_right_ne_nil page (List.cons_ne_nil _ _))
  | @code t rest page' lines ht hrest h ih =>
    cases page with
    | nil =>
      obtain ⟨rfl, rfl⟩ := List.cons.inj hall
      rw [List.nil_append, List.append_assoc]
      exact .code ht (hrest.append hw hne more) h
    | cons first page =>
      obtain ⟨rfl, hpage⟩ := List.cons.inj hall
      exact .code ht hrest (ih hpage)
  | @note text page' lines h ih =>
    cases page with
    | nil =>
      obtain ⟨rfl, rfl⟩ := List.cons.inj hall
      exact .note _ h
    | cons first page =>
      obtain ⟨rfl, hpage⟩ := List.cons.inj hall
      exact .note text (ih hpage)

end Remarked

/-! ## Comments on pages -/

namespace Page

/-- A comment as it is written is a line with a number sign at its start. -/
theorem exists_comment {text : Text} (h : text.IsInline) :
    ∃ more : Text, comment text = '#' :: more ∧ more.IsInline := by
  unfold comment
  split
  · exact ⟨[], rfl, Text.isInline_nil⟩
  · exact ⟨' ' :: text, rfl, Text.isInline_cons.mpr ⟨by decide, h⟩⟩

/-- The code lines of a comment. -/
theorem codeLines_comment {text : Text} (h : text.IsInline) :
    ∃ more : Text, Text.codeLines (comment text) = ['#' :: more] := by
  obtain ⟨more, hmore, hinline⟩ := exists_comment h
  refine ⟨Text.trimRight more, ?_⟩
  rw [hmore, Text.codeLines_of_not_mem (Text.isInline_cons.mpr ⟨by decide, hinline⟩),
    Text.trim_sign]
  rfl

variable {p : Page} {page lines : List Text}

/-- A comment on a line of its own. -/
theorem Holds.comment (h : p.Holds page) (hlines : Remarked page lines) (level : Nat) {text : Text}
    (htext : text.IsInline) :
    ∃ page', (p.line level (Page.comment text)).Holds page' ∧ Remarked page' lines := by
  obtain ⟨more, hmore⟩ := codeLines_comment htext
  refine ⟨page ++ ['#' :: more], hmore ▸ h.line level (Page.comment text), ?_⟩
  have happend := hlines.append (.note more .nil)
  rwa [List.append_nil] at happend

/-- A comment behind the last line. -/
theorem Holds.eolComment (h : p.Holds page) (hlines : Remarked page lines) (level : Nat)
    {text : Text} (htext : text.IsInline) :
    ∃ page', (p.eolComment level text).Holds page' ∧ Remarked page' lines := by
  obtain ⟨written, _ | _⟩ := p
  · exact h.comment hlines level htext
  · obtain ⟨more, hmore, hinline⟩ := exists_comment htext
    have hcontents : ∀ t : Text, (⟨t, true⟩ : Page).contents = t.reverse ++ ['\n'] := by
      intro t
      simp [contents, close]
    have hafter : ((⟨written, true⟩ : Page).eolComment level text).contents =
        (written.reverse ++ ' ' :: '#' :: more) ++ ['\n'] := by
      simp [Page.eolComment, Page.append, hmore, contents, close]
    obtain ⟨whole, last, hsplit, hlast, hwhole⟩ := Text.exists_lastLine written.reverse
    have hpage : page = Text.codeLines whole ++ Text.codeLines last := by
      rw [← h.codeLines, hcontents, Text.codeLines_append_newline, hsplit,
        Text.codeLines_append_whole hwhole]
    have hline : (last ++ ' ' :: '#' :: more).IsInline :=
      Text.isInline_append.mpr ⟨hlast, Text.isInline_cons.mpr ⟨by decide,
        Text.isInline_cons.mpr ⟨by decide, hinline⟩⟩⟩
    have hpage' : Text.codeLines ((⟨written, true⟩ : Page).eolComment level text).contents =
        Text.codeLines whole ++ Text.codeLines (last ++ ' ' :: '#' :: more) := by
      rw [hafter, Text.codeLines_append_newline, hsplit, List.append_assoc,
        Text.codeLines_append_whole hwhole]
    refine ⟨_, ⟨.inr ⟨_, hafter⟩, hpage'⟩, ?_⟩
    rw [Text.codeLines_of_not_mem hlast] at hpage
    rw [Text.codeLines_of_not_mem hline]
    by_cases hblank : Text.trim last = []
    · have hbefore : Text.IsBlank (last ++ [' ']) :=
        Text.isBlank_append.mpr ⟨Text.trim_eq_nil.mp hblank,
          Text.isBlank_cons.mpr ⟨rfl, Text.isBlank_nil⟩⟩
      have htrim := Text.trim_append_left hbefore ('#' :: more)
      rw [List.append_assoc, List.singleton_append, Text.trim_sign] at htrim
      rw [hblank] at hpage
      rw [htrim]
      have hnote := hlines.append (.note (Text.trimRight more) .nil)
      rw [List.append_nil, hpage] at hnote
      simpa using hnote
    · obtain ⟨w, rest, hw, hne, htrim⟩ := Text.trim_append_remark hblank more
      rw [if_neg (by simpa using hblank)] at hpage
      rw [htrim, if_neg (by simp)]
      exact (hpage ▸ hlines).remark_last hw hne rest

end Page

/-! ## Calls with comments -/

namespace Writer

/-- The innermost scope of a writer has a pen and no delegate. -/
theorem Penned.exists_pen {scopes : List (Option (Handle Unit))} {nest : Nat} {host : Option Host}
    (h : Penned scopes nest host) :
    ∃ pen slot outer, scopes = some ⟨pen, slot⟩ :: outer ∧ slot.delegate = none := by
  cases h with
  | ofClass slot hslot => exact ⟨_, slot, _, rfl, hslot⟩
  | ofField slot hslot => exact ⟨_, slot, _, rfl, hslot⟩
  | ofMethod slot hslot => exact ⟨_, slot, _, rfl, hslot⟩
  | ofAnnotationBody slot hslot => exact ⟨_, slot, _, rfl, hslot⟩

/-- A comment that a pen writes. -/
theorem holds_remark {sheet : Sheet} {page lines : List Text} (h : sheet.Holds page)
    (hlines : Remarked page lines) (pen : Pen) {call : Call} {text : Text}
    (hcall : call.note? = some text) (htext : text.IsInline) :
    ∃ page', (pen.write call sheet).Holds page' ∧ Remarked page' lines := by
  cases call with
  | comment words =>
    obtain rfl := Option.some.inj hcall
    cases pen with
    | ofClass => exact Page.Holds.comment (holds_separate h) hlines 0 htext
    | _ => exact Page.Holds.comment h hlines _ htext
  | eolComment words =>
    obtain rfl := Option.some.inj hcall
    exact Page.Holds.eolComment h hlines _ htext
  | _ => exact absurd hcall (Option.some_ne_none _).symm

/-- A comment changes nothing but the sheet. -/
theorem makeAll_remark {d : Desk (State Unit) (Handle Unit)} {pen : Pen} {slot : Slot Unit}
    {outer : List (Option (Handle Unit))} (hscopes : d.scopes = some ⟨pen, slot⟩ :: outer)
    (hslot : slot.delegate = none) {call : Call} (hcall : call.isComment = true) :
    d.makeAll (listener .discard) call.moves =
      { d with state := ⟨pen.write call d.state.sheet, d.state.inner⟩ } := by
  have hmake : d.makeAll (listener .discard) call.moves =
      d.make (listener .discard) (.tell call) := by
    cases call <;> first | rfl | exact absurd hcall Bool.false_ne_true
  have hsuits : call.suits pen.scope = true := by
    cases call <;> first | rfl | exact absurd hcall Bool.false_ne_true
  have hafter : pen.after call = pen := by
    cases call <;> first | (cases pen <;> rfl) | exact absurd hcall Bool.false_ne_true
  rw [hmake, make_tell hscopes hslot hsuits, hafter, ← hscopes]

/-- A writer writes a comment. -/
theorem Wrote.remark {d : Desk (State Unit) (Handle Unit)} {s : Site} {page lines : List Text}
    (h : Wrote d s page) (hlines : Remarked page lines) {call : Call} {text : Text}
    (hcall : call.note? = some text) (htext : text.IsInline) :
    ∃ page', Wrote (d.makeAll (listener .discard) call.moves) s page' ∧
      Remarked page' lines := by
  obtain ⟨hpenned, hholds⟩ := h
  obtain ⟨pen, slot, outer, hscopes, hslot⟩ := hpenned.exists_pen
  obtain ⟨page', hpage, hremarked⟩ := holds_remark hholds hlines pen hcall htext
  rw [makeAll_remark hscopes hslot (Call.isComment_iff.mpr ⟨text, hcall⟩)]
  exact ⟨page', ⟨hpenned, hpage⟩, hremarked⟩

/-- A writer writes calls one after another, with comments between them. -/
theorem Wrote.remarked {d : Desk (State Unit) (Handle Unit)} {s s' : Site} {page lines : List Text}
    (h : Wrote d s page) (hlines : Remarked page lines) {validate : Bool} {calls : List Call}
    (hcalls : ∀ call ∈ calls, call.KeepsToLine)
    (hs : s.run validate (calls.filter fun c => !c.isComment) = some s') :
    ∃ page', Wrote (d.makeAll (listener .discard) (calls.flatMap Call.moves)) s' page' ∧
      Remarked page' (lines ++ s.written (calls.filter fun c => !c.isComment)) := by
  induction calls generalizing d s page lines with
  | nil =>
    obtain rfl := Option.some.inj hs
    refine ⟨page, h, ?_⟩
    rwa [List.filter_nil, Site.written, List.append_nil]
  | cons call rest ih =>
    obtain ⟨hcall, hrest⟩ := List.forall_mem_cons.mp hcalls
    rw [Desk.makeAll_cons]
    cases hcomment : call.isComment with
    | true =>
      rw [List.filter_cons_of_neg (by simp [hcomment])] at hs ⊢
      obtain ⟨text, htext⟩ := Call.isComment_iff.mp hcomment
      obtain ⟨page', hwrote, hremarked⟩ := h.remark hlines htext (hcall.note text htext)
      exact ih hwrote hremarked hrest hs
    | false =>
      rw [List.filter_cons_of_pos (by simp [hcomment])] at hs ⊢
      obtain ⟨mid, hmid, hrun⟩ := Option.bind_eq_some_iff.mp hs
      have hwrote := h.call (Site.next?_of_accept hmid)
      have hink : ∀ t ∈ s.codeLines call, t.StartsInk := fun t ht =>
        Text.startsInk_of_mem_codeLines (hwrote.holds.codeLines ▸ List.mem_append_right _ ht)
      obtain ⟨page', hpage, hremarked⟩ := ih hwrote (hlines.append (.refl hink)) hrest hrun
      refine ⟨page', hpage, ?_⟩
      rwa [Site.written, Site.next?_of_accept hmid, ← List.append_assoc]

/-- The code lines of calls with comments between them, if the calls can follow on each other. -/
theorem remarked_codeOf {snippet validate : Bool} {calls : List Call} {s : Site}
    (hcalls : ∀ call ∈ calls, call.KeepsToLine)
    (hrun : (Site.initial snippet).run validate (calls.filter fun c => !c.isComment) = some s)
    (hnest : s.nest = 0) (hhost : s.host = none) :
    Remarked (Text.codeLines (codeOf calls))
      ((Site.initial snippet).written (calls.filter fun c => !c.isComment)) := by
  obtain ⟨page, hwrote, hremarked⟩ := (wrote_initial snippet).remarked .nil hcalls hrun
  exact hwrote.codeLines_codeOf hnest hhost ▸ hremarked

end Writer

end Smali
