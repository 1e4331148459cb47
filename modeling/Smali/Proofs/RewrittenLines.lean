import Smali.Proofs.RemarkedLines
import Smali.Proofs.CodeParts
import Smali.Proofs.Snippets

/-!
# Lines that are written again

A line is written again as blanks, its text, and behind one space its comment with a sign and a
space in front of the words. Whatever stood in the physical line that it was read from, the new one
holds the same code and the same comment: the comment begins where the code ends, and its words
lose nothing more when they are read a second time.
-/

namespace Smali

/-- A line as it is written again behind some spaces. -/
def Line.rewritten (spaces : Nat) (l : Line) : Text :=
  List.replicate spaces ' ' ++
    match l.comment?, l.eolComment? with
    | some words, _ => Page.comment words
    | none, some words => l.text ++ ' ' :: Page.comment words
    | none, none => l.text

/-! ## Comments -/

/-- Blanks at the end are taken away once. -/
theorem Text.trimRight_trimRight (t : Text) : trimRight (trimRight t) = trimRight t :=
  trimRight_append_trimRight [] t

/-- A comment that is written starts with its sign. -/
theorem exists_of_comment (words : Text) : ∃ more, Page.comment words = '#' :: more := by
  unfold Page.comment
  cases words.isEmpty
  · exact ⟨_, rfl⟩
  · exact ⟨_, rfl⟩

/-- The words of a comment are found in it again. -/
theorem commentBody_comment (raw : Text) : commentBody (Page.comment (commentBody raw)) =
    commentBody raw := by
  unfold Page.comment
  cases hwords : (commentBody raw).isEmpty with
  | true => rw [List.isEmpty_iff.mp hwords]; rfl
  | false => exact Text.trimRight_trimRight _

/-! ## Scanning -/

/-- The code part of a physical line, without the blanks around it, is scanned anywhere as it was,
but for the comment. -/
theorem exists_scan_trim {number column : Nat} {t : Text} {s : Scanned}
    (h : scan number column t = .ok s) (number' column' : Nat) :
    ∃ s', scan number' column' (Text.trim s.text) = .ok s' ∧
      s'.seen = { s with remark := none }.seen := by
  have hview : (scan number' column' (Text.trim s.text)).toOption.map Scanned.seen =
      (scan number column s.text).toOption.map Scanned.seen := by
    rw [Scanned.isView_seen.scan_trim number column s.text,
      Scanned.isView_seen.scan_trim number' column', Text.trim_trim]
  rw [scan_text h] at hview
  cases hscan : scan number' column' (Text.trim s.text) with
  | error fault => rw [hscan] at hview; cases hview
  | ok s' =>
    rw [hscan] at hview
    exact ⟨s', rfl, Option.some.inj hview⟩

/-- Scans with the same code, the same characters up to the blanks around them and the same words
of a comment are seen alike. -/
theorem Scanned.seen_congr {a b : Scanned}
    (hcode : a.code.map Token.unplaced = b.code.map Token.unplaced)
    (htext : Text.trim a.text = Text.trim b.text)
    (hremark : a.remark.map (commentBody ∘ Prod.fst) = b.remark.map (commentBody ∘ Prod.fst)) :
    a.seen = b.seen := by
  have hempty : a.code.isEmpty = b.code.isEmpty := by
    have := congrArg List.isEmpty hcode
    rwa [List.isEmpty_map, List.isEmpty_map] at this
  have hsign := congrArg (Option.map fun _ =>
    (⟨if a.code.isEmpty then .comment else .eolComment, [], ⟨0, 0⟩⟩ : Token)) hremark
  rw [Option.map_map, Option.map_map] at hsign
  refine Prod.ext ?_ hremark
  unfold Scanned.seen Scanned.line
  rw [hcode, htext, ← hempty]
  exact congrArg (Line.mk _ _ · _) hsign

/-- Code behind which the words of a comment are put back is seen as it was with the comment. -/
theorem exists_scan_remarked {number column : Nat} {t : Text} {s : Scanned}
    (h : scan number column t = .ok s) {r : Text × Position} (hr : s.remark = some r)
    (number' column' : Nat) :
    ∃ s', scan number' column' (Text.trim s.text ++ ' ' :: Page.comment (commentBody r.1)) =
        .ok s' ∧ s'.seen = s.seen := by
  obtain ⟨a, ha, hseen⟩ := exists_scan_trim h number' column'
  obtain ⟨more, hmore⟩ := exists_of_comment (commentBody r.1)
  have hspace : Text.IsBlank [' '] := by simp [Text.IsBlank]; decide
  obtain ⟨b, hb, hremarks⟩ := scan_append_remark hspace (List.cons_ne_nil _ _) more ha
  obtain ⟨hline, hwords⟩ := Prod.mk.inj hseen
  have hnone : a.remark = none := Option.map_eq_none_iff.mp hwords
  obtain ⟨hcode, htext⟩ : a.code.map Token.unplaced = s.code.map Token.unplaced ∧
      Text.trim a.text = Text.trim s.text :=
    ⟨congrArg Line.code hline, congrArg Line.text hline⟩
  refine ⟨b, by rw [hmore]; exact hb, Scanned.seen_congr ?_ ?_ ?_⟩
  · rw [hremarks.code, hcode]
  · rw [← Text.trim_trimRight, hremarks.text, Text.trim_trimRight, htext]
  · have hb := hremarks.words hnone
    rw [hr, ← Option.map_map, hb, ← hmore]
    exact congrArg some (commentBody_comment r.1)

/-- A comment that is put on a line of its own is seen as it was. -/
theorem exists_scan_comment {number column : Nat} {t : Text} {s : Scanned}
    (h : scan number column t = .ok s) (hcode : s.code = []) {r : Text × Position}
    (hr : s.remark = some r) (number' column' : Nat) :
    ∃ s', scan number' column' (Page.comment (commentBody r.1)) = .ok s' ∧ s'.seen = s.seen := by
  obtain ⟨more, hmore⟩ := exists_of_comment (commentBody r.1)
  refine ⟨_, by rw [hmore]; exact scan_comment number' column' more, Scanned.seen_congr ?_ ?_ ?_⟩
  · rw [hcode]
  · exact (Text.trim_eq_nil.mpr ((code_eq_nil_iff h).mp hcode)).symm
  · rw [hr, ← hmore]
    exact congrArg some (commentBody_comment r.1)

/-! ## Lines -/

/-- The line of a text behind some spaces is seen as the text is. -/
theorem exists_seen_of_scan {spaces number : Nat} {body : Text} {s : Scanned}
    (h : scan number (1 + spaces) body = .ok s) :
    ∃ l, Line.ofText number (List.replicate spaces ' ' ++ body) = .ok l ∧ l.seen = s.seen := by
  have hblank : Text.IsBlank (List.replicate spaces ' ') := fun c hc => by
    rw [List.eq_of_mem_replicate hc]
    rfl
  have hline := seen_ofText number (List.replicate spaces ' ' ++ body)
  rw [Scanned.isView_seen.append_left hblank, List.length_replicate, h] at hline
  cases hl : Line.ofText number (List.replicate spaces ' ' ++ body) with
  | error fault => rw [hl] at hline; cases hline
  | ok l =>
    rw [hl] at hline
    exact ⟨l, rfl, Option.some.inj hline⟩

/-- A line that is written again is seen as it was, wherever that is done. -/
theorem exists_seen_rewritten {number : Nat} {t : Text} {l : Line}
    (h : Line.ofText number t = .ok l) (number' spaces : Nat) :
    ∃ l', Line.ofText number' (l.rewritten spaces) = .ok l' ∧ l'.seen = l.seen := by
  have hseen := seen_ofText number t
  obtain ⟨s, hs, rfl⟩ := exists_of_map_eq_ok h
  rw [h, hs] at hseen
  rw [Option.some.inj hseen]
  unfold Line.rewritten Line.comment? Line.eolComment?
  dsimp only
  -- a comment alone, code with a comment behind it, or one of them and not the other
  cases hcode : s.code with
  | nil =>
    cases hr : s.remark with
    | none =>
      obtain ⟨s', hs', hsame⟩ := exists_scan_trim hs number' (1 + spaces)
      rw [← hr] at hsame
      rw [← hsame]
      exact exists_seen_of_scan hs'
    | some r =>
      obtain ⟨s', hs', hsame⟩ := exists_scan_comment hs hcode hr number' (1 + spaces)
      rw [← hsame]
      exact exists_seen_of_scan hs'
  | cons first rest =>
    cases hr : s.remark with
    | none =>
      obtain ⟨s', hs', hsame⟩ := exists_scan_trim hs number' (1 + spaces)
      rw [← hr] at hsame
      rw [← hsame]
      exact exists_seen_of_scan hs'
    | some r =>
      obtain ⟨s', hs', hsame⟩ := exists_scan_remarked hs hr number' (1 + spaces)
      rw [← hsame]
      exact exists_seen_of_scan hs'

/-- A line that was accepted can be written again with any number of spaces in front: what is read
then has the same tokens of code, the same text and the same comments. -/
theorem line_survives_rewriting {number : Nat} {t : Text} {l : Line}
    (h : Line.ofText number t = .ok l) (number' spaces : Nat) :
    ∃ l', Line.ofText number' (l.rewritten spaces) = .ok l' ∧
      l'.code.map (fun token => (token.kind, token.text)) =
        l.code.map (fun token => (token.kind, token.text)) ∧
      l'.text = l.text ∧ l'.comment? = l.comment? ∧ l'.eolComment? = l.eolComment? := by
  obtain ⟨l', hl', hseen⟩ := exists_seen_rewritten h number' spaces
  obtain ⟨hline, hwords⟩ := Prod.mk.inj hseen
  have hcode : l'.code.map Token.unplaced = l.code.map Token.unplaced := congrArg Line.code hline
  have hempty : l'.code.isEmpty = l.code.isEmpty := by
    have := congrArg List.isEmpty hcode
    rwa [List.isEmpty_map, List.isEmpty_map] at this
  have htext : l'.unplaced.text = l.unplaced.text := congrArg Line.text hline
  refine ⟨l', hl', ?_, htext, ?_, ?_⟩
  · have hparts := congrArg (List.map fun token => (token.kind, token.text)) hcode
    rwa [List.map_map, List.map_map] at hparts
  · rw [Line.comment?, Line.comment?, hempty, hwords]
  · rw [Line.eolComment?, Line.eolComment?, hempty, hwords]

/-- A line with a quoted number sign, a glued comment and blanks at its end. -/
theorem line_survives_rewriting_at :
    Line.ofText 1 "\tconst-string v0, \"a # b\" #c  ".toList =
        .ok ⟨[⟨.identifier, "const-string", ⟨1, 2⟩⟩, ⟨.identifier, "v0", ⟨1, 15⟩⟩,
            ⟨.punctuation, ",", ⟨1, 17⟩⟩, ⟨.stringLiteral, "\"a # b\"", ⟨1, 19⟩⟩],
          "const-string v0, \"a # b\"", some ⟨.eolComment, "#c  ", ⟨1, 27⟩⟩, ⟨1, 2⟩⟩ ∧
      ∃ l', Line.ofText 9 "    const-string v0, \"a # b\" # c".toList = .ok l' ∧
        l'.text = "const-string v0, \"a # b\"" ∧ l'.eolComment? = some "c" := by
  let l : Line := ⟨[⟨.identifier, "const-string", ⟨1, 2⟩⟩, ⟨.identifier, "v0", ⟨1, 15⟩⟩,
    ⟨.punctuation, ",", ⟨1, 17⟩⟩, ⟨.stringLiteral, "\"a # b\"", ⟨1, 19⟩⟩],
    "const-string v0, \"a # b\"", some ⟨.eolComment, "#c  ", ⟨1, 27⟩⟩, ⟨1, 2⟩⟩
  have hl : Line.ofText 1 "\tconst-string v0, \"a # b\" #c  ".toList = .ok l := by decide +kernel
  obtain ⟨l', hl', -, htext, -, hcomment⟩ := line_survives_rewriting hl 9 4
  exact ⟨hl, l', hl', htext, hcomment⟩

end Smali
