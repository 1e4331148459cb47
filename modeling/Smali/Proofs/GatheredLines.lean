import Smali.Proofs.AcceptedValues
import Smali.Proofs.CommentedReading
import Smali.Proofs.DescentFrames
import Smali.Proofs.SkippedMethods

/-!
# The lines of an array

The value of an element may go on over several lines. Which lines belong to it is settled by the
lines alone: an array stays open as long as the depths of its first text and of its lines of code
add up to more than zero and no line stands where there can be no array. What a reader has
collected is a function of the lines that it has passed over. So it stops at the first line with
which the array does not stay open: a line that closes the array is the last one of the element,
and a line that ends the array is the next one of the scope around.
-/

namespace Smali

open Dialogue (attempt excuse)
open Descent (unclosedArray)
open scoped Dialogue.Laws

/-- The lines that can be scanned. -/
def scannedLines (lines : Lines) : List Line := lines.filterMap Except.toOption

/-- A line behind others. -/
theorem scannedLines_concat_ok (lines : Lines) (l : Line) :
    scannedLines (lines ++ [.ok l]) = scannedLines lines ++ [l] := List.filterMap_append

/-- What cannot be scanned is no line. -/
theorem scannedLines_concat_error (lines : Lines) (fault : Fault) :
    scannedLines (lines ++ [.error fault]) = scannedLines lines := by
  rw [scannedLines, List.filterMap_append]
  exact List.append_nil _

namespace Gathering

/-- The texts of the lines of code among some lines. -/
def codeTexts (ls : List Line) : List Text := (ls.filter (!·.isComment)).map Line.text

/-- The text of an array: its first text and its lines of code, with line breaks in between. -/
def wholeText (first : Text) (ls : List Line) : Text := ['\n'].intercalate (first :: codeTexts ls)

/-- The depth of an array: that of its first text and those of its lines of code. -/
def wholeDepth (first : Text) (ls : List Line) : Int :=
  ((first :: codeTexts ls).map Literal.braceDepth).sum

/-- No line ends the array that starts with a text, and there is no line of code behind which it is
closed. -/
def StaysOpen (first : Text) (ls : List Line) : Prop :=
  ∀ before l, before ++ [l] <+: ls →
    isEndedBy l = false ∧ (l.isComment = false → 0 < wholeDepth first (before ++ [l]))

/-- An array with the lines that follow its first one. -/
def ofLines (opening : Line) (name first : Text) (ls : List Line) : Gathering :=
  { start opening name first with
    text := wholeText first ls
    depth := wholeDepth first ls
    remarks := (ls.flatMap Line.remarks).reverse }

/-! ## One more line -/

section Step

variable (opening l : Line) (name first : Text) (ls : List Line)

/-- A comment adds nothing to the texts. -/
theorem codeTexts_concat_comment (h : l.isComment = true) :
    codeTexts (ls ++ [l]) = codeTexts ls := by
  simp [codeTexts, h]

/-- A line of code adds its text. -/
theorem codeTexts_concat_code (h : l.isComment = false) :
    codeTexts (ls ++ [l]) = codeTexts ls ++ [l.text] := by
  simp [codeTexts, h]

/-- Nothing follows the first line. -/
theorem start_eq_ofLines : start opening name first = ofLines opening name first [] := by
  simp [start, ofLines, wholeText, wholeDepth, codeTexts]

/-- **What is collected is a function of the lines.** One more line is added to what was collected
from the lines before. -/
theorem add_ofLines :
    (ofLines opening name first ls).add l = ofLines opening name first (ls ++ [l]) := by
  have hremarks : (ls ++ [l]).flatMap Line.remarks = ls.flatMap Line.remarks ++ l.remarks := by
    rw [List.flatMap_append, List.flatMap_singleton]
  unfold add
  cases hcomment : l.comment? with
  | some text =>
    have hl : l.isComment = true := by rw [Line.isComment, hcomment]; rfl
    simp [ofLines, wholeText, wholeDepth, codeTexts_concat_comment l ls hl, hremarks, Line.remarks,
      hcomment]
  | none =>
    have hl : l.isComment = false := by rw [Line.isComment, hcomment]; rfl
    have htext : wholeText first (ls ++ [l]) = wholeText first ls ++ '\n' :: l.text := by
      rw [wholeText, wholeText, codeTexts_concat_code l ls hl, ← Literal.below_eq_intercalate,
        ← Literal.below_eq_intercalate, Literal.below_append]
      simp [Literal.below]
    have hdepth : wholeDepth first (ls ++ [l]) =
        wholeDepth first ls + Literal.braceDepth l.text := by
      rw [wholeDepth, wholeDepth, codeTexts_concat_code l ls hl]
      simp [Int.add_assoc]
    have heol : l.remarks = (l.eolComment?.map Call.eolComment).toList := by
      rw [Line.remarks, hcomment]
      rfl
    have hreverse : ((l.eolComment?.map Call.eolComment).toList).reverse =
        (l.eolComment?.map Call.eolComment).toList := by
      cases l.eolComment? <;> rfl
    simp [ofLines, htext, hdepth, hremarks, heol, hreverse]

/-- A line of code closes the array if the depths add up to no more than zero. -/
theorem isClosedBy_ofLines : (ofLines opening name first ls).isClosedBy l =
    (!l.isComment && wholeDepth first (ls ++ [l]) ≤ 0) := by
  rw [isClosedBy, add_ofLines]
  rfl

/-- An array stays open behind its first line. -/
theorem staysOpen_nil : StaysOpen first [] := fun _ _ h => by simp at h

/-- One more line leaves an array open if it neither ends nor closes it. -/
theorem staysOpen_concat : StaysOpen first (ls ++ [l]) ↔ StaysOpen first ls ∧
    isEndedBy l = false ∧ (l.isComment = false → 0 < wholeDepth first (ls ++ [l])) := by
  constructor
  · intro h
    exact ⟨fun before k hk => h before k (hk.trans (List.prefix_append ls [l])),
      h ls l List.prefix_rfl⟩
  · rintro ⟨hopen, hl⟩ before k hprefix
    obtain hlast | hearlier := List.prefix_concat_iff.mp hprefix
    · obtain ⟨rfl, hk⟩ := List.append_inj' hlast rfl
      obtain rfl := List.singleton_inj.mp hk
      exact hl
    · exact hopen before k hearlier

end Step

/-- Among some lines an array either stays open, or there is a first line with which it does
not. -/
theorem staysOpen_or_exists (first : Text) (lines : Lines) :
    StaysOpen first (scannedLines lines) ∨
      ∃ before last rest, lines = before ++ .ok last :: rest ∧
        StaysOpen first (scannedLines before) ∧
        ¬StaysOpen first (scannedLines before ++ [last]) := by
  induction lines using List.reverseRecOn with
  | nil => exact .inl (staysOpen_nil first)
  | append_singleton lines line ih =>
    obtain hopen | ⟨before, last, rest, rfl, hbefore, hlast⟩ := ih
    · cases line with
      | error fault => exact .inl (scannedLines_concat_error lines fault ▸ hopen)
      | ok l =>
        by_cases hl : StaysOpen first (scannedLines lines ++ [l])
        · exact .inl (scannedLines_concat_ok lines l ▸ hl)
        · exact .inr ⟨lines, l, [], rfl, hopen, hl⟩
    · exact .inr ⟨before, last, rest ++ [line], by simp, hbefore, hlast⟩

end Gathering

open Gathering

/-! ## The reader -/

namespace Control

variable (c : Control) (outer : List Frame) (opening : Line) (name first : Text)

/-- An array takes a line that does not end it. -/
theorem take_array (g : Gathering) {l : Line} (h : isEndedBy l = false) :
    { c with frames := .array g :: outer }.take l = (do
      return { c with frames := ← takeInArray g l outer }) := by
  have htakes : (Frame.array g).takes l = true := by simp [Frame.takes, h]
  unfold take
  rw [unwind_nothing_cons, if_pos htakes]
  rfl

/-- **As long as an array stays open, all lines go into it.** What cannot be scanned is skipped
over. -/
theorem takeLines_array {before : Lines} (h : StaysOpen first (scannedLines before)) :
    { c with frames := .array (start opening name first) :: outer }.takeLines before = (do
      (scanFaults before).forM excuse
      return { c with
        frames := .array (ofLines opening name first (scannedLines before)) :: outer }) := by
  induction before using List.reverseRecOn with
  | nil =>
    rw [start_eq_ofLines]
    rfl
  | append_singleton before line ih =>
    have hfaults : scanFaults (before ++ [line]) = scanFaults before ++ scanFaults [line] :=
      List.filterMap_append
    rw [takeLines_append, hfaults, List.forM_eq_forM, List.forM_append, bind_assoc]
    cases line with
    | error fault =>
      rw [scannedLines_concat_error] at h ⊢
      rw [ih h, bind_assoc]
      rfl
    | ok l =>
      rw [scannedLines_concat_ok] at h ⊢
      obtain ⟨hopen, hended, hclosed⟩ := (staysOpen_concat l first _).mp h
      have hclosed : (ofLines opening name first (scannedLines before)).isClosedBy l = false := by
        rw [isClosedBy_ofLines]
        simpa using hclosed
      rw [ih hopen, bind_assoc]
      refine bind_congr fun _ => ?_
      change (take _ l >>= fun c => c.takeLines []) = _
      rw [take_array c outer _ hended, takeInArray, hclosed, add_ofLines]
      rfl

/-- A line that closes an array is the last one of its element, which is told. -/
theorem onward_closing (ls : List Line) {last : Line} (hended : isEndedBy last = false)
    (hclosed : last.isComment = false ∧ wholeDepth first (ls ++ [last]) ≤ 0) (rest : Lines) :
    c.onward (.array (ofLines opening name first ls) :: outer) (.ok last :: rest) = (do
      let _ ← attempt opening.position (tellElement opening.position name
        (wholeText first (ls ++ [last])) opening.eolCall?
        ((ls ++ [last]).flatMap Line.remarks))
      c.onward outer rest) := by
  have hclosed : (ofLines opening name first ls).isClosedBy last = true := by
    rw [isClosedBy_ofLines]
    simpa using hclosed
  change (take _ last >>= fun c => c.readLines rest) = _
  rw [take_array c outer _ hended, takeInArray, hclosed, add_ofLines, if_pos rfl]
  simp only [bind_assoc, pure_bind, ofLines, List.reverse_reverse]
  rfl

/-- An array that is not closed is skipped over. The line before which it ends is the next one of
the scope around. -/
theorem onward_ending (g : Gathering) {next : Line} (hended : isEndedBy next = true)
    (rest : Lines) :
    c.onward (.array g :: outer) (.ok next :: rest) = (do
      excuse (unclosedArray g)
      c.onward outer (.ok next :: rest)) := by
  rw [onward_closes c (by simp [Frame.takes, hended])]
  simp only [Frame.close, bind_assoc, pure_bind, unwind_nothing]
  rfl

/-- The same at the end of the source. -/
theorem onward_unfinished (g : Gathering) :
    c.onward (.array g :: outer) [] = (do
      excuse (unclosedArray g)
      c.onward outer []) := by
  rw [onward_nil]
  simp only [Frame.close, bind_assoc, pure_bind, unwind_nothing]
  rfl

/-- **An array stops where it should.** Whatever is open around an array, and whatever lines follow
its first text, the reader takes them one after another as long as the array stays open, and skips
over what cannot be scanned. Then there are three ways to go on.

* At the first line of code behind which the depths add up to no more than zero, that line is taken
  as well. The element is told with its first text and the lines of code, joined by line breaks, and
  with the comments of all lines taken, in order. What follows is left to the scope around.
* A line that closes a scope or opens a member is not taken. The array is skipped over, and that
  line is the next one of the scope around, with all lines behind it and none before it.
* At the end of the source the array is skipped over. -/
theorem arrays_stop_where_they_should (lines : Lines) :
    (∃ before last rest, lines = before ++ .ok last :: rest ∧
      StaysOpen first (scannedLines before) ∧ isEndedBy last = false ∧ last.isComment = false ∧
      wholeDepth first (scannedLines before ++ [last]) ≤ 0 ∧
      c.onward (.array (start opening name first) :: outer) lines = (do
        (scanFaults before).forM excuse
        let _ ← attempt opening.position (tellElement opening.position name
          (wholeText first (scannedLines before ++ [last])) opening.eolCall?
          ((scannedLines before ++ [last]).flatMap Line.remarks))
        c.onward outer rest)) ∨
    (∃ before next rest, lines = before ++ .ok next :: rest ∧
      StaysOpen first (scannedLines before) ∧ isEndedBy next = true ∧
      c.onward (.array (start opening name first) :: outer) lines = (do
        (scanFaults before).forM excuse
        excuse (.located .unterminated opening.position "unterminated array value")
        c.onward outer (.ok next :: rest))) ∨
    (StaysOpen first (scannedLines lines) ∧
      c.onward (.array (start opening name first) :: outer) lines = (do
        (scanFaults lines).forM excuse
        excuse (.located .unterminated opening.position "unterminated array value")
        c.onward outer [])) := by
  have hpasses : ∀ {before : Lines} (rest : Lines), StaysOpen first (scannedLines before) →
      c.onward (.array (start opening name first) :: outer) (before ++ rest) = (do
        (scanFaults before).forM excuse
        c.onward (.array (ofLines opening name first (scannedLines before)) :: outer) rest) := by
    intro before rest hopen
    rw [onward, readLines_append, takeLines_array c outer opening name first hopen, bind_assoc]
    rfl
  obtain hopen | ⟨before, last, rest, rfl, hopen, hlast⟩ := staysOpen_or_exists first lines
  · refine .inr (.inr ⟨hopen, ?_⟩)
    have hall := hpasses [] hopen
    rw [List.append_nil, onward_unfinished] at hall
    exact hall
  · have hends := hpasses (.ok last :: rest) hopen
    rw [staysOpen_concat] at hlast
    cases hended : isEndedBy last with
    | true =>
      rw [onward_ending c outer _ hended] at hends
      exact .inr (.inl ⟨before, last, rest, rfl, hopen, hended, hends⟩)
    | false =>
      have hclosed : last.isComment = false ∧
          wholeDepth first (scannedLines before ++ [last]) ≤ 0 := by
        simpa [hopen, hended] using hlast
      rw [onward_closing c outer opening name first _ hended hclosed] at hends
      exact .inl ⟨before, last, rest, rfl, hopen, hended, hclosed.1, hclosed.2, hends⟩

end Control

/-- A closing brace in a comment or in a string does not close an array. -/
example :
    (scannedLines (scanLines "1, # one \x7d\n\"\x7d\",\n# two\n3 \x7d".toList)).inits.map
      (wholeDepth ['\x7b']) = [1, 1, 1, 1, 0] := by
  decide +kernel

end Smali
