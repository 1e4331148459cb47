import Mathlib.Data.List.ModifyLast
import Smali.Proofs.PageLines

/-!
# Pages as lists of lines

A page keeps its last line open and ends it when the next one starts. Seen from outside it is a list
of lines: a line and a line without text go below the others, and a comment goes behind the last
line if nothing but a line or a comment was written there last. So what was written stays in front
of all that is written later, but for the end of the last line.
-/

namespace Smali.Page

/-- One thing that is done to a page. -/
inductive Edit where
  /-- Starts a line. -/
  | line (level : Nat) (text : Text)
  /-- Puts a comment behind the open line, or on a line of its own. -/
  | eolComment (level : Nat) (text : Text)
  /-- Adds a line without text. -/
  | skip
  /-- Starts again without text. -/
  | reset
  deriving DecidableEq

namespace Edit

/-- The page after an edit. -/
def apply : Edit → Page → Page
  | .line level text, p => p.line level text
  | .eolComment level text, p => p.eolComment level text
  | .skip, p => p.skip
  | .reset, _ => .blank

/-- Whether the text of an edit is on one line. -/
def IsInline : Edit → Prop
  | .line _ text | .eolComment _ text => text.IsInline
  | .skip | .reset => True

instance : DecidablePred IsInline
  | .line _ text | .eolComment _ text => inferInstanceAs (Decidable text.IsInline)
  | .skip | .reset => inferInstanceAs (Decidable True)

/-- Whether the latest of some edits leaves a line that a comment may stand behind. The latest edit
comes first. -/
def endOnLine : List Edit → Bool
  | .line _ _ :: _ | .eolComment _ _ :: _ => true
  | _ => false

/-- The lines of a page that was edited. The latest edit comes first. -/
def lines : List Edit → List Text
  | [] => []
  | .line level text :: before => lines before ++ [indent level ++ text]
  | .eolComment level text :: before =>
    if endOnLine before then (lines before).modifyLast (· ++ ' ' :: comment text)
    else lines before ++ [indent level ++ comment text]
  | .skip :: before => lines before ++ [[]]
  | .reset :: _ => []

end Edit

/-- A page after edits of a page without text, in order. -/
def edited (edits : List Edit) : Page := edits.foldl (fun p e => e.apply p) .blank

/-- One more edit. -/
theorem edited_concat (edits : List Edit) (e : Edit) :
    edited (edits ++ [e]) = e.apply (edited edits) := List.foldl_concat _ _ _ _

/-! ## Comments behind lines -/

/-- A comment stands behind the open line. -/
theorem contents_eolComment {p : Page} (h : p.isOpen = true) (level : Nat) (text : Text) :
    (p.eolComment level text).contents =
      p.contents.dropLast ++ (' ' :: comment text ++ ['\n']) := by
  obtain ⟨written, isOpen⟩ := p
  obtain rfl : isOpen = true := h
  simp [eolComment, append, contents, close]

/-- Where no line is open a comment stands on a line of its own. -/
theorem eolComment_eq_line {p : Page} (h : ¬p.isOpen = true) (level : Nat) (text : Text) :
    p.eolComment level text = p.line level (comment text) := if_neg h

/-- One more line below several. -/
theorem unlines_concat (ls : List Text) (last : Text) :
    Text.unlines (ls ++ [last]) = Text.unlines ls ++ (last ++ ['\n']) := by
  rw [Text.unlines_append, Text.unlines_cons, Text.unlines_nil]

/-- The last line of several loses its line end. -/
theorem dropLast_unlines (ls : List Text) (last : Text) :
    (Text.unlines (ls ++ [last])).dropLast = Text.unlines ls ++ last := by
  simp [← List.append_assoc]

namespace Edit

/-- Where a comment may stand behind a line there is a line. -/
theorem exists_last {edits : List Edit} (h : endOnLine edits = true) :
    ∃ ls last, lines edits = ls ++ [last] := by
  induction edits with
  | nil => cases h
  | cons e before ih =>
    cases e with
    | line level text => exact ⟨_, _, rfl⟩
    | eolComment level text =>
      rw [lines]
      split
      · rename_i hbefore
        obtain ⟨ls, last, hlines⟩ := ih hbefore
        exact ⟨ls, _, hlines ▸ List.modifyLast_concat _ _ _⟩
      · exact ⟨_, _, rfl⟩
    | skip => cases h
    | reset => cases h

end Edit

/-- What an edited page says of itself. -/
structure Draws (p : Page) (edits : List Edit) : Prop where
  /-- The text is the lines one below the other. -/
  contents : p.contents = Text.unlines (Edit.lines edits)
  /-- The last line is open where a comment may stand behind it. -/
  isOpen : p.isOpen = Edit.endOnLine edits

/-- One more edit. -/
theorem Draws.apply {p : Page} {before : List Edit} (h : p.Draws before) (e : Edit) :
    (e.apply p).Draws (e :: before) := by
  cases e with
  | line level text =>
    refine ⟨?_, rfl⟩
    rw [Edit.apply, contents_line, h.contents, Edit.lines, unlines_concat]
  | eolComment level text =>
    by_cases hopen : p.isOpen = true
    · have hbefore : Edit.endOnLine before = true := h.isOpen ▸ hopen
      obtain ⟨ls, last, hlines⟩ := Edit.exists_last hbefore
      refine ⟨?_, ?_⟩
      · rw [Edit.apply, contents_eolComment hopen, h.contents, hlines, dropLast_unlines, Edit.lines,
          if_pos hbefore, hlines, List.modifyLast_concat, unlines_concat]
        simp
      · rw [Edit.apply, eolComment, if_pos hopen]
        exact hopen
    · have hbefore : ¬Edit.endOnLine before = true := h.isOpen ▸ hopen
      rw [Edit.apply, eolComment_eq_line hopen]
      refine ⟨?_, rfl⟩
      rw [contents_line, h.contents, Edit.lines, if_neg hbefore, unlines_concat]
  | skip =>
    refine ⟨?_, ?_⟩
    · rw [Edit.apply, contents_skip, h.contents, Edit.lines, unlines_concat, List.nil_append]
    · obtain ⟨written, _ | _⟩ := p <;> rfl
  | reset => exact ⟨rfl, rfl⟩

/-- All edits. -/
theorem draws_edited (edits : List Edit) : (edited edits).Draws edits.reverse := by
  induction edits using List.reverseRecOn with
  | nil => exact ⟨rfl, rfl⟩
  | append_singleton edits e ih =>
    rw [edited_concat, List.reverse_concat]
    exact ih.apply e

/-! ## What stays -/

/-- But for the end of its last line, what is on a page stays in front. -/
theorem dropLast_prefix_apply (p : Page) {e : Edit} (h : e ≠ .reset) :
    p.contents.dropLast <+: (e.apply p).contents.dropLast := by
  cases e with
  | line level text =>
    rw [Edit.apply, contents_line, ← List.append_assoc, List.dropLast_concat]
    exact (List.dropLast_prefix _).trans (List.prefix_append _ _)
  | eolComment level text =>
    by_cases hopen : p.isOpen = true
    · rw [Edit.apply, contents_eolComment hopen, ← List.append_assoc, List.dropLast_concat]
      exact List.prefix_append _ _
    · rw [Edit.apply, eolComment_eq_line hopen, contents_line, ← List.append_assoc,
        List.dropLast_concat]
      exact (List.dropLast_prefix _).trans (List.prefix_append _ _)
  | skip =>
    rw [Edit.apply, contents_skip, List.dropLast_concat]
    exact List.dropLast_prefix _
  | reset => exact absurd rfl h

/-- The same after several edits. -/
theorem dropLast_prefix_edited (edits : List Edit) {more : List Edit} (h : .reset ∉ more) :
    (edited edits).contents.dropLast <+: (edited (edits ++ more)).contents.dropLast := by
  induction more using List.reverseRecOn with
  | nil => rw [List.append_nil]
  | append_singleton more e ih =>
    rw [List.mem_append, not_or, List.mem_singleton] at h
    rw [← List.append_assoc, edited_concat]
    exact (ih h.1).trans (dropLast_prefix_apply _ (Ne.symm h.2))

/-- Every edit but starting again leaves another page: there is more on it. -/
theorem apply_ne (p : Page) {e : Edit} (h : e ≠ .reset) : e.apply p ≠ p := by
  have hlonger : p.contents.length < (e.apply p).contents.length := by
    cases e with
    | line level text =>
      rw [Edit.apply, contents_line]
      simp
    | eolComment level text =>
      by_cases hopen : p.isOpen = true
      · rw [Edit.apply, contents_eolComment hopen]
        simp
        omega
      · rw [Edit.apply, eolComment_eq_line hopen, contents_line]
        simp
    | skip =>
      rw [Edit.apply, contents_skip]
      simp
    | reset => exact absurd rfl h
  intro heq
  rw [heq] at hlonger
  exact lt_irrefl _ hlonger

/-! ## Lines without line ends -/

/-- Lines of texts on one line have no line end in them. -/
theorem isInline_of_mem_lines {edits : List Edit} (h : ∀ e ∈ edits, e.IsInline) {l : Text}
    (hl : l ∈ Edit.lines edits) : l.IsInline := by
  induction edits generalizing l with
  | nil => cases hl
  | cons e before ih =>
    obtain ⟨he, hbefore⟩ := List.forall_mem_cons.mp h
    have hconcat : ∀ {last : Text}, last.IsInline → l ∈ Edit.lines before ++ [last] →
        l.IsInline := by
      intro last hlast hl
      obtain hl | hl := List.mem_append.mp hl
      · exact ih hbefore hl
      · exact List.mem_singleton.mp hl ▸ hlast
    cases e with
    | line level text =>
      exact hconcat (Text.isInline_append.mpr ⟨isInline_indent level, he⟩) hl
    | eolComment level text =>
      have hcomment := (Writer.isFull_comment he).inline
      rw [Edit.lines] at hl
      split at hl
      · rename_i hopen
        obtain ⟨ls, last, hlines⟩ := Edit.exists_last hopen
        rw [hlines, List.modifyLast_concat] at hl
        obtain hl | hl := List.mem_append.mp hl
        · exact ih hbefore (hlines ▸ List.mem_append_left _ hl)
        · rw [List.mem_singleton.mp hl]
          have hlast := ih hbefore (hlines ▸ List.mem_append_right ls List.mem_cons_self)
          exact Text.isInline_append.mpr ⟨hlast, Text.isInline_cons.mpr ⟨by decide, hcomment⟩⟩
      · exact hconcat (Text.isInline_append.mpr ⟨isInline_indent level, hcomment⟩) hl
    | skip => exact hconcat Text.isInline_nil hl
    | reset => cases hl

/-- Lines one below the other are split at their line ends, with nothing behind the last. -/
theorem splitOn_unlines {ls : List Text} (h : ∀ l ∈ ls, l.IsInline) :
    (Text.unlines ls).splitOn '\n' = ls ++ [[]] := by
  have hjoin : Text.unlines ls = ['\n'].intercalate (ls ++ [[]]) := by
    induction ls with
    | nil => rfl
    | cons l ls ih =>
      rw [Text.unlines_cons, ih fun l hl => h l (List.mem_cons_of_mem _ hl), List.cons_append]
      cases ls <;> simp [List.intercalate_cons_cons]
  rw [hjoin, List.splitOn_intercalate '\n' ?_ (by simp)]
  intro l hl
  obtain hl | hl := List.mem_append.mp hl
  · exact h l hl
  · exact List.mem_singleton.mp hl ▸ List.not_mem_nil

/-- What is on an edited page is its lines, each with a line end. If no text has a line end in it,
they are found again between the line ends. As long as nobody starts again, what is on the page but
for its last line end stays in front of all that follows. Whatever else is done changes the page, so
that the edit before a comment is the latest one that changed it. -/
theorem pages_are_lines (edits : List Edit) :
    (edited edits).contents = Text.unlines (Edit.lines edits.reverse) ∧
      ((∀ e ∈ edits, e.IsInline) →
        (edited edits).contents.splitOn '\n' = Edit.lines edits.reverse ++ [[]]) ∧
      (∀ more, .reset ∉ more →
        (edited edits).contents.dropLast <+: (edited (edits ++ more)).contents) ∧
      ∀ e : Edit, e ≠ .reset → e.apply (edited edits) ≠ edited edits := by
  have hdraws := draws_edited edits
  refine ⟨hdraws.contents, fun hinline => ?_, fun more hmore => ?_, fun e => apply_ne _⟩
  · rw [hdraws.contents, splitOn_unlines]
    exact fun l => isInline_of_mem_lines fun e he => hinline e (List.mem_reverse.mp he)
  · exact (dropLast_prefix_edited edits hmore).trans (List.dropLast_prefix _)

/-- A comment on a page without text, one behind it, one below a line without text, and more. -/
theorem pages_are_lines_commented :
    let edits : List Edit :=
      [.eolComment 1 "a".toList, .eolComment 1 [], .skip, .eolComment 0 "b".toList]
    (edited edits).contents.splitOn '\n' =
        ["    # a #".toList, [], "# b".toList, []] ∧
      (edited edits).contents.dropLast <+:
        (edited (edits ++ [.eolComment 0 "c".toList, .line 1 "d".toList])).contents := by
  intro edits
  obtain ⟨-, hsplit, hprefix, -⟩ := pages_are_lines edits
  exact ⟨hsplit (by decide), hprefix _ (by decide)⟩

end Smali.Page
