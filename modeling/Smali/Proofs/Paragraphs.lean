import Mathlib.Data.List.Chain
import Mathlib.Data.List.Forall2
import Smali.Proofs.ClassCalls
import Smali.Proofs.PageLines

/-!
# Paragraphs

At the level of a class a writer hears lines of the header, comments and members. Each of them
opens a paragraph, and all that is written before the next one, in whatever scope, continues it:
lines inside a member, its end if it has one, and comments behind the last line. So an empty line
is written only in front of a paragraph, and the two paragraphs alone decide whether it is.
-/

namespace Smali

namespace Writer

/-! ## Layout -/

/-- What a call of code opens at the level of a class, with its line. -/
def codeItem? (call : Call) : Option (Last × Text) :=
  match headerLine? call, memberLine? call with
  | some line, _ => some (.header, line)
  | none, some line => some (.member, line)
  | none, none => none

/-- What a call opens at the level of a class, with its line. -/
def item? : Call → Option (Last × Text)
  | .comment text => some (.comment, Page.comment text)
  | call => codeItem? call

/-- Whether an empty line comes between two paragraphs: it does behind the header or a member,
in front of a member or a comment. -/
def separates : Last → Last → Bool
  | .header, .member | .header, .comment | .member, .member | .member, .comment => true
  | _, _ => false

/-- The empty line between two paragraphs, if there is one. -/
def gap (before kind : Last) : List Text := if separates before kind then [[]] else []

/-- A paragraph of a class. -/
structure Paragraph where
  /-- What it is. -/
  kind : Last
  /-- Its lines. -/
  lines : List Text

/-- Paragraphs one below the other, behind a paragraph of some kind. -/
def layout : Last → List Paragraph → List Text
  | _, [] => []
  | before, p :: more => gap before p.kind ++ p.lines ++ layout p.kind more

/-- What stands last behind some paragraphs. -/
def lastKind : Last → List Paragraph → Last
  | before, [] => before
  | _, p :: more => lastKind p.kind more

/-- A paragraph of a call starts with the line of the call, whole and in front of everything else
but for comments behind it. A long value divides the line. -/
def Paragraph.Tells (p : Paragraph) (call : Call) : Prop :=
  ∃ line first last remark rest, item? call = some (p.kind, line) ∧
    Text.unlines (first ++ [last]) = line ++ ['\n'] ∧ remark.IsRemark ∧
    p.lines = first ++ (last ++ remark) :: rest

/-- Lines with no two empty ones in a row, and with none at either end. -/
structure Spaced (ls : List Text) : Prop where
  /-- No two empty lines stand in a row. -/
  chain : ls.IsChain fun a b => a ≠ [] ∨ b ≠ []
  /-- The first line is not empty. -/
  head : ls.head? ≠ some []
  /-- The last line is not empty. -/
  last : ls.getLast? ≠ some []

/-- What stands last if one more paragraph follows. -/
theorem lastKind_concat (before : Last) (ps : List Paragraph) (p : Paragraph) :
    lastKind before (ps ++ [p]) = p.kind := by
  induction ps generalizing before with
  | nil => rfl
  | cons q ps ih => exact ih q.kind

/-- One more paragraph. -/
theorem layout_concat (before : Last) (ps : List Paragraph) (p : Paragraph) :
    layout before (ps ++ [p]) = layout before ps ++ gap (lastKind before ps) p.kind ++ p.lines := by
  induction ps generalizing before with
  | nil => simp [layout, lastKind]
  | cons q ps ih =>
    rw [List.cons_append, layout, ih q.kind, layout, lastKind]
    simp only [List.append_assoc]

/-- No lines. -/
theorem spaced_nil : Spaced [] := ⟨.nil, nofun, nofun⟩

/-- Lines that are not empty follow. -/
theorem Spaced.append {ls block : List Text} (h : Spaced ls) (hblock : ∀ l ∈ block, l ≠ []) :
    Spaced (ls ++ block) := by
  have hpairs : block.Pairwise fun a b => a ≠ [] ∨ b ≠ [] :=
    List.pairwise_of_forall_mem_list fun a ha _ _ => .inl (hblock a ha)
  refine ⟨List.isChain_append.mpr ⟨h.chain, hpairs.isChain, fun _ _ b hb => ?_⟩, ?_, ?_⟩
  · exact .inr (hblock b (List.mem_of_mem_head? hb))
  · cases ls with
    | nil => exact fun hhead => hblock [] (List.mem_of_mem_head? hhead) rfl
    | cons l ls => exact h.head
  · rcases List.eq_nil_or_concat block with rfl | ⟨front, l, rfl⟩
    · rw [List.append_nil]
      exact h.last
    · rw [List.concat_eq_append] at hblock ⊢
      rw [← List.append_assoc, List.getLast?_concat]
      exact fun hlast => hblock l (by simp) (Option.some.inj hlast)

/-- They follow behind one empty line. -/
theorem Spaced.append_gap {ls block : List Text} (h : Spaced ls) (hls : ls ≠ [])
    (hblock : ∀ l ∈ block, l ≠ []) (hne : block ≠ []) : Spaced (ls ++ [] :: block) := by
  have hpairs : block.Pairwise fun a b => a ≠ [] ∨ b ≠ [] :=
    List.pairwise_of_forall_mem_list fun a ha _ _ => .inl (hblock a ha)
  have hbehind : List.IsChain (fun a b : Text => a ≠ [] ∨ b ≠ []) ([] :: block) :=
    hpairs.isChain.cons fun b hb => .inr (hblock b (List.mem_of_mem_head? hb))
  refine ⟨List.isChain_append.mpr ⟨h.chain, hbehind, fun a ha _ _ => .inl ?_⟩, ?_, ?_⟩
  · rintro rfl
    exact h.last ha
  · rw [List.head?_append_of_ne_nil ls hls]
    exact h.head
  · rw [List.getLast?_append_of_ne_nil ls (List.cons_ne_nil _ _),
      List.getLast?_cons_of_ne_nil hne]
    exact fun hlast => hblock [] (List.mem_of_getLast? hlast) rfl

/-- Paragraphs of full lines, with full lines in front. -/
theorem spaced_layout {front : List Text} (hfront : ∀ l ∈ front, l.IsFull) {ps : List Paragraph}
    (h : ∀ p ∈ ps, p.lines ≠ [] ∧ ∀ l ∈ p.lines, l.IsFull) :
    Spaced (front ++ layout .nothing ps) := by
  induction ps using List.reverseRecOn with
  | nil =>
    rw [layout, List.append_nil, ← List.nil_append front]
    exact spaced_nil.append fun l hl => (hfront l hl).ne_nil
  | append_singleton ps p ih =>
    obtain ⟨hps, hp⟩ := List.forall_mem_append.mp h
    obtain ⟨hne, hfull⟩ := List.forall_mem_singleton.mp hp
    have hbefore := ih hps
    rw [layout_concat, ← List.append_assoc, ← List.append_assoc]
    by_cases hgap : separates (lastKind .nothing ps) p.kind = true
    · have hls : front ++ layout .nothing ps ≠ [] := by
        rcases List.eq_nil_or_concat ps with rfl | ⟨ps, q, rfl⟩
        · exact absurd hgap (by cases p.kind <;> decide)
        · rw [List.concat_eq_append] at hps ⊢
          obtain ⟨hq, -⟩ := hps q (by simp)
          rw [layout_concat]
          simp [hq]
      rw [gap, if_pos hgap, List.append_assoc]
      exact hbefore.append_gap hls (fun l hl => (hfull l hl).ne_nil) hne
    · rw [gap, if_neg hgap, List.append_nil]
      exact hbefore.append fun l hl => (hfull l hl).ne_nil

/-- What opens a paragraph fills its lines. -/
theorem fillsLines_of_item? {call : Call} (h : call.IsUnbroken) {kind : Last} {line : Text}
    (hitem : item? call = some (kind, line)) : (line ++ ['\n']).FillsLines := by
  unfold Call.IsUnbroken at h
  cases call with
  | comment text =>
    obtain ⟨-, rfl⟩ := Prod.mk.inj (Option.some.inj hitem)
    exact (isFull_comment (h text List.mem_cons_self)).fillsLines
  | header type access =>
    obtain ⟨-, rfl⟩ := Prod.mk.inj (Option.some.inj hitem)
    exact (isFull_directiveLine (by decide) access (h _ List.mem_cons_self)).fillsLines
  | superType type =>
    obtain ⟨-, rfl⟩ := Prod.mk.inj (Option.some.inj hitem)
    have hword : Text.IsFull ".super " := ⟨by decide, by decide⟩
    exact (hword.append (h _ List.mem_cons_self)).fillsLines
  | implements type =>
    obtain ⟨-, rfl⟩ := Prod.mk.inj (Option.some.inj hitem)
    have hword : Text.IsFull ".implements " := ⟨by decide, by decide⟩
    exact (hword.append (h _ List.mem_cons_self)).fillsLines
  | source name =>
    obtain ⟨-, rfl⟩ := Prod.mk.inj (Option.some.inj hitem)
    have hword : Text.IsFull ".source " := ⟨by decide, by decide⟩
    exact (hword.append (isInline_quoted name)).fillsLines
  | field name access type value =>
    obtain ⟨-, rfl⟩ := Prod.mk.inj (Option.some.inj hitem)
    simp only [Call.plainTexts, List.forall_mem_cons] at h
    obtain ⟨hname, htype, hvalue⟩ := h
    refine fillsLines_fieldLine hname access htype fun v hv => ?_
    obtain rfl := Option.mem_def.mp hv
    exact hvalue
  | method name access signature =>
    obtain ⟨-, rfl⟩ := Prod.mk.inj (Option.some.inj hitem)
    simp only [Call.plainTexts, List.forall_mem_cons] at h
    obtain ⟨hname, hsignature, -⟩ := h
    refine (isFull_directiveLine (by decide) access ?_).fillsLines
    exact Text.isInline_append.mpr ⟨hname, hsignature⟩
  | annotationStart visibility type =>
    obtain ⟨-, rfl⟩ := Prod.mk.inj (Option.some.inj hitem)
    exact (isFull_annotationLine visibility (h _ List.mem_cons_self)).fillsLines
  | _ => exact absurd hitem (Option.some_ne_none _).symm

/-! ## Sheets -/

/-- A paragraph is opened. -/
def Sheet.item (s : Sheet) (kind : Last) (line : Text) : Sheet :=
  ⟨(if separates s.last kind then s.page.skip else s.page).line 0 line, kind⟩

/-- What a class hears opens a paragraph, or nothing is written. -/
theorem write_ofClass (s : Sheet) {call : Call} (h : ∀ text, call ≠ .eolComment text) :
    Pen.ofClass.write call s =
      match item? call with
      | some (kind, line) => s.item kind line
      | none => s := by
  have hcode : s.classCall call =
      match codeItem? call with
      | some (kind, line) => s.item kind line
      | none => s := by
    unfold Sheet.classCall codeItem?
    obtain ⟨page, last⟩ := s
    cases headerLine? call with
    | some line => cases last <;> rfl
    | none =>
      cases memberLine? call with
      | some line => cases last <;> rfl
      | none => rfl
  cases call with
  | comment text =>
    obtain ⟨page, last⟩ := s
    cases last <;> rfl
  | eolComment text => exact absurd rfl (h text)
  | finish => rfl
  | _ => exact hcode

/-- The end of a scope is written on a full line, unless nothing is written. -/
theorem gains_finish (pen : Pen) (s : Sheet) :
    (pen.finish s).last = s.last ∧ s.page.Gains (pen.finish s).page := by
  cases pen with
  | ofClass => exact ⟨rfl, .refl _⟩
  | ofField annotated =>
    cases annotated with
    | false => exact ⟨rfl, .refl _⟩
    | true => exact ⟨rfl, s.page.gains_full 0 ⟨by decide, List.cons_ne_nil _ _⟩⟩
  | ofMethod paramOpen => exact ⟨rfl, s.page.gains_full 0 ⟨by decide, List.cons_ne_nil _ _⟩⟩
  | ofAnnotationBody level nested =>
    refine ⟨rfl, s.page.gains_full level ?_⟩
    cases nested <;> exact ⟨by decide, List.cons_ne_nil _ _⟩

/-- Inside a member full lines are written, and comments behind the last line. -/
theorem gains_write {pen : Pen} (hpen : pen ≠ .ofClass) {call : Call} (h : call.IsUnbroken)
    (heol : ∀ text, call ≠ .eolComment text) (s : Sheet) :
    (pen.write call s).last = s.last ∧ s.page.Gains (pen.write call s).page := by
  -- What stands inside a class is indented, so that its lines are full whatever is in them.
  have hlevel : 0 < pen.level := by
    cases pen <;> first | exact absurd rfl hpen | exact Nat.succ_pos _
  have hannotation : 0 < pen.annotationLevel := by
    cases pen with
    | ofMethod paramOpen => cases paramOpen <;> exact Nat.succ_pos _
    | _ => exact hlevel
  have hmethod : ∀ line, methodLine? call = some line → s.page.Gains (s.page.line 1 line) :=
    fun line hline => s.page.gains_indented Nat.one_pos (isInline_of_methodLine? h hline)
  have hfinish := gains_finish pen s
  unfold Call.IsUnbroken at h
  cases pen with
  | ofClass => exact absurd rfl hpen
  | _ =>
    cases call with
    | comment text =>
      exact ⟨rfl, s.page.gains_indented hlevel (isFull_comment (h text List.mem_cons_self)).inline⟩
    | eolComment text => exact absurd rfl (heol text)
    | finish => exact hfinish
    | annotationStart visibility type =>
      have hline := isFull_annotationLine visibility (h _ List.mem_cons_self)
      exact ⟨rfl, s.page.gains_indented hannotation hline.inline⟩
    | value name v => exact ⟨rfl, gains_writeElement s.page hlevel (h name List.mem_cons_self) v⟩
    | subannotationStart name type =>
      simp only [Call.plainTexts, List.forall_mem_cons] at h
      obtain ⟨hname, htype, -⟩ := h
      have hline : Text.IsInline (name ++ " = .subannotation " ++ type.descriptor) :=
        Text.isInline_append.mpr ⟨Text.isInline_append.mpr ⟨hname, by decide⟩, htype⟩
      exact ⟨rfl, s.page.gains_indented hlevel hline⟩
    | _ =>
      simp only [Pen.write]
      split
      · next line hline => exact ⟨rfl, hmethod line hline⟩
      · exact ⟨rfl, .refl _⟩

/-! ## Sheets in paragraphs -/

/-- A sheet that shows the paragraphs of some calls. In front of them there may be comments behind
code that was never written, all on one line. -/
structure Laid (s : Sheet) (calls : List Call) (front : Option Text) (ps : List Paragraph) :
    Prop where
  /-- The page shows these lines and no others. -/
  shows : s.page.Shows (front.toList ++ layout .nothing ps)
  /-- What stands last is the last paragraph. -/
  last : s.last = lastKind .nothing ps
  /-- The line in front is a comment. -/
  front : ∀ l ∈ front, l.IsInline ∧ ∃ more, l = '#' :: more
  /-- No line of a paragraph is empty. -/
  full : ∀ p ∈ ps, ∀ l ∈ p.lines, l.IsFull
  /-- Each paragraph starts with its call. -/
  tells : List.Forall₂ Paragraph.Tells ps calls

section Laid

variable {s : Sheet} {calls : List Call} {front : Option Text} {ps : List Paragraph}

/-- A sheet without text. -/
theorem laid_blank : Laid .blank [] none [] :=
  ⟨Page.shows_blank, rfl, nofun, List.forall_mem_nil _, .nil⟩

/-- A paragraph has at least one line. -/
theorem Paragraph.Tells.lines_ne_nil {p : Paragraph} {call : Call} (h : p.Tells call) :
    p.lines ≠ [] := by
  obtain ⟨line, first, last, remark, rest, -, -, -, hlines⟩ := h
  exact hlines ▸ List.append_ne_nil_of_right_ne_nil first (List.cons_ne_nil _ _)

/-- Every paragraph has at least one line. -/
theorem Laid.lines_ne_nil (h : Laid s calls front ps) {p : Paragraph} (hp : p ∈ ps) :
    p.lines ≠ [] := by
  obtain ⟨call, -, hcall⟩ := exists_of_forall₂ h.tells.flip hp
  exact Paragraph.Tells.lines_ne_nil hcall

/-- More lines below a paragraph. -/
theorem Paragraph.Tells.append {p : Paragraph} {call : Call} (h : p.Tells call)
    (more : List Text) : Paragraph.Tells ⟨p.kind, p.lines ++ more⟩ call := by
  obtain ⟨line, first, last, remark, rest, hitem, hline, hremark, hlines⟩ := h
  exact ⟨line, first, last, remark, rest ++ more, hitem, hline, hremark, by simp [hlines]⟩

/-- A comment behind the last line of a paragraph. -/
theorem Paragraph.Tells.remark {kind : Last} {lines : List Text} {l : Text} {call : Call}
    (h : Paragraph.Tells ⟨kind, lines ++ [l]⟩ call) (more : Text) :
    Paragraph.Tells ⟨kind, lines ++ [l ++ ' ' :: '#' :: more]⟩ call := by
  obtain ⟨line, first, last, remark, rest, hitem, hline, hremark, hlines⟩ := h
  rcases List.eq_nil_or_concat rest with rfl | ⟨rest, l', rfl⟩
  · obtain ⟨rfl, hl⟩ := List.append_inj' hlines rfl
    obtain rfl := (List.cons.inj hl).1
    have hblank : Text.IsBlank [' '] := by decide
    refine ⟨line, lines, last, remark ++ ' ' :: '#' :: more, [], hitem, hline,
      hremark.append hblank (List.cons_ne_nil _ _) more, ?_⟩
    simp
  · have hsplit : lines ++ [l] = (first ++ (last ++ remark) :: rest) ++ [l'] := by
      simpa using hlines
    obtain ⟨rfl, hl⟩ := List.append_inj' hsplit rfl
    refine ⟨line, first, last, remark, rest ++ [l ++ ' ' :: '#' :: more], hitem, hline, hremark, ?_⟩
    simp

/-- The last of some related elements changes. -/
theorem forall₂_concat_imp {α β : Type} {R : α → β → Prop} {as : List α} {a a' : α} {bs : List β}
    (h : List.Forall₂ R (as ++ [a]) bs) (ha : ∀ b, R a b → R a' b) :
    List.Forall₂ R (as ++ [a']) bs := by
  induction as generalizing bs with
  | nil =>
    obtain ⟨b, bs, hb, hbs, rfl⟩ := List.forall₂_cons_left_iff.mp h
    exact .cons (ha b hb) hbs
  | cons c as ih =>
    obtain ⟨b, bs, hb, hbs, rfl⟩ := List.forall₂_cons_left_iff.mp h
    exact .cons hb (ih hbs)

/-- The last paragraph changes, and stays one for the same call. -/
theorem Laid.revise {p : Paragraph} (h : Laid s calls front (ps ++ [p])) {lines : List Text}
    (htells : ∀ call, p.Tells call → Paragraph.Tells ⟨p.kind, lines⟩ call)
    (hfull : ∀ l ∈ lines, l.IsFull) {page : Page}
    (hpage : page.Shows
      (front.toList ++ layout .nothing ps ++ gap (lastKind .nothing ps) p.kind ++ lines)) :
    Laid ⟨page, s.last⟩ calls front (ps ++ [⟨p.kind, lines⟩]) := by
  refine ⟨?_, ?_, h.front, ?_, forall₂_concat_imp h.tells htells⟩
  · rw [layout_concat, ← List.append_assoc, ← List.append_assoc]
    exact hpage
  · rw [h.last, lastKind_concat, lastKind_concat]
  · obtain ⟨hps, -⟩ := List.forall_mem_append.mp h.full
    exact List.forall_mem_append.mpr ⟨hps, List.forall_mem_singleton.mpr hfull⟩

/-- Full lines continue the last paragraph. -/
theorem Laid.lines (h : Laid s calls front ps) (hcalls : calls ≠ []) {page : Page}
    (hpage : s.page.Gains page) : ∃ ps', Laid ⟨page, s.last⟩ calls front ps' := by
  rcases List.eq_nil_or_concat ps with rfl | ⟨ps, p, rfl⟩
  · exact absurd (List.forall₂_nil_left_iff.mp h.tells) hcalls
  · rw [List.concat_eq_append] at h
    obtain ⟨more, hmore, hshows⟩ := hpage _ h.shows
    refine ⟨_, h.revise (fun call hcall => hcall.append more) ?_ ?_⟩
    · have hp := h.full p (List.mem_append_right ps List.mem_cons_self)
      exact List.forall_mem_append.mpr ⟨hp, hmore⟩
    · rw [layout_concat] at hshows
      simpa only [List.append_assoc] using hshows

/-- A comment behind code before anything is opened. It starts the line in front, or it stands at
the end of that line. -/
theorem Laid.remark_front (h : Laid s [] front []) {text : Text} (htext : text.IsInline) :
    ∃ front', Laid { s with page := s.page.eolComment 0 text } [] front' [] := by
  obtain ⟨more, hcomment, hmore⟩ := Page.exists_comment htext
  have hsign : Text.IsInline ('#' :: more) := Text.isInline_cons.mpr ⟨by decide, hmore⟩
  cases front with
  | none =>
    have hline : Page.indent 0 ++ '#' :: more ++ ['\n'] = Text.unlines ['#' :: more] := by
      simp [Page.indent, Text.times]
    refine ⟨some ('#' :: more), ⟨?_, h.last, ?_, h.full, h.tells⟩⟩
    · rw [h.shows.eolComment_nil, hcomment]
      exact h.shows.line hline
    · rintro _ ⟨rfl⟩
      exact ⟨hsign, more, rfl⟩
  | some l =>
    obtain ⟨hl, first, rfl⟩ := h.front l rfl
    refine ⟨some ('#' :: first ++ ' ' :: '#' :: more), ⟨?_, h.last, ?_, h.full, h.tells⟩⟩
    · have hpage : s.page.Shows ([] ++ ['#' :: first]) := h.shows
      exact hcomment ▸ hpage.eolComment 0 text
    · rintro _ ⟨rfl⟩
      exact ⟨Text.isInline_append.mpr ⟨hl, Text.isInline_cons.mpr ⟨by decide, hsign⟩⟩, _, rfl⟩

/-- A comment behind the last line of the last paragraph. -/
theorem Laid.remark_last {p : Paragraph} (h : Laid s calls front (ps ++ [p])) (level : Nat)
    {text : Text} (htext : text.IsInline) :
    ∃ ps', Laid { s with page := s.page.eolComment level text } calls front ps' := by
  obtain ⟨more, hcomment, hmore⟩ := Page.exists_comment htext
  have hremark : Text.IsInline (' ' :: '#' :: more) :=
    Text.isInline_cons.mpr ⟨by decide, Text.isInline_cons.mpr ⟨by decide, hmore⟩⟩
  obtain ⟨kind, lines⟩ := p
  have hmem : ⟨kind, lines⟩ ∈ ps ++ [⟨kind, lines⟩] := List.mem_append_right ps List.mem_cons_self
  rcases List.eq_nil_or_concat lines with rfl | ⟨lines, l, rfl⟩
  · exact absurd rfl (h.lines_ne_nil hmem)
  · rw [List.concat_eq_append] at h hmem
    obtain ⟨hlines, hl⟩ := List.forall_mem_append.mp (h.full _ hmem)
    have hfull : ∀ l' ∈ lines ++ [l ++ ' ' :: '#' :: more], l'.IsFull :=
      List.forall_mem_append.mpr ⟨hlines,
        List.forall_mem_singleton.mpr ((hl l List.mem_cons_self).append hremark)⟩
    refine ⟨_, h.revise (fun call hcall => hcall.remark more) hfull ?_⟩
    have hshows := h.shows
    rw [layout_concat] at hshows
    simp only [← List.append_assoc] at hshows ⊢
    exact hcomment ▸ hshows.eolComment level text

/-- A comment behind the last line, wherever that is. -/
theorem Laid.remark (h : Laid s calls front ps) {level : Nat} (hlevel : calls = [] → level = 0)
    {text : Text} (htext : text.IsInline) :
    ∃ front' ps', Laid { s with page := s.page.eolComment level text } calls front' ps' := by
  rcases List.eq_nil_or_concat ps with rfl | ⟨ps, p, rfl⟩
  · obtain rfl := List.forall₂_nil_left_iff.mp h.tells
    obtain rfl := hlevel rfl
    obtain ⟨front', hfront⟩ := h.remark_front htext
    exact ⟨front', [], hfront⟩
  · rw [List.concat_eq_append] at h
    exact ⟨front, h.remark_last level htext⟩

/-- A call opens a new paragraph. -/
theorem Laid.item (h : Laid s calls front ps) {call : Call} {kind : Last} {line : Text}
    (hitem : item? call = some (kind, line)) (hline : (line ++ ['\n']).FillsLines) :
    ∃ ps', Laid (s.item kind line) (calls ++ [call]) front ps' := by
  obtain ⟨lines, hfull, hlines⟩ := hline
  have htells : Paragraph.Tells ⟨kind, lines⟩ call := by
    rcases List.eq_nil_or_concat lines with rfl | ⟨first, last, rfl⟩
    · exact absurd hlines (List.append_ne_nil_of_right_ne_nil line (List.cons_ne_nil _ _))
    · refine ⟨line, first, last, [], [], hitem, ?_, .inl rfl, ?_⟩
      · rw [← List.concat_eq_append]
        exact hlines.symm
      · simp
  have hlast : (s.item kind line).last = lastKind .nothing (ps ++ [⟨kind, lines⟩]) :=
    (lastKind_concat .nothing ps ⟨kind, lines⟩).symm
  refine ⟨ps ++ [⟨kind, lines⟩], ⟨?_, hlast, h.front, ?_, ?_⟩⟩
  · rw [layout_concat, ← h.last, ← List.append_assoc, ← List.append_assoc]
    have hindent : Page.indent 0 ++ line ++ ['\n'] = Text.unlines lines := hlines
    unfold Sheet.item gap
    by_cases hgap : separates s.last kind = true
    · rw [if_pos hgap, if_pos hgap, List.append_assoc]
      exact h.shows.skip hindent
    · rw [if_neg hgap, if_neg hgap, List.append_nil]
      exact h.shows.line hindent
  · exact List.forall_mem_append.mpr ⟨h.full, List.forall_mem_singleton.mpr hfull⟩
  · exact List.rel_append h.tells (.cons htells .nil)

/-- The lines of such a sheet. -/
theorem Laid.spaced (h : Laid s calls front ps) :
    Spaced (front.toList ++ layout .nothing ps) := by
  refine spaced_layout (fun l hl => ?_) fun p hp => ⟨h.lines_ne_nil hp, h.full p hp⟩
  obtain ⟨hinline, more, rfl⟩ := h.front l (Option.mem_toList.mp hl)
  exact ⟨hinline, List.cons_ne_nil _ _⟩

end Laid

end Writer

end Smali
