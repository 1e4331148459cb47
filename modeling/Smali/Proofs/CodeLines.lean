import Smali.Output.Page
import Smali.Proofs.Blanks

/-!
# Code lines

The code lines of a text are its lines without the blanks around them, blank lines left out.
They are those of its parts if a line end stands between the parts. So the code lines of a
page are those of the texts that were put on it.
-/

namespace Smali

namespace Text

/-- A character that does not end a line. -/
theorem lines_cons {c : Char} {rest : Text} (hnl : c ≠ '\n')
    (hcr : ∀ more, c = '\r' → rest ≠ '\n' :: more) :
    lines (c :: rest) =
      match lines rest with
      | [] => [[c]]
      | line :: more => (c :: line) :: more :=
  lines.eq_4 c rest (fun hc => hnl hc) fun more hc hrest => hcr more hc hrest

/-- Only the empty text has no lines. -/
theorem lines_eq_nil {t : Text} : lines t = [] ↔ t = [] := by
  constructor
  · intro h
    fun_cases lines t with
    | case1 => rfl
    | case2 rest => simp [lines] at h
    | case3 rest => simp [lines] at h
    | case4 c rest hnl hcr hrest =>
      rw [lines_cons hnl fun more hc hm => hcr more hc hm, hrest] at h
      exact absurd h (List.cons_ne_nil _ _)
    | case5 c rest hnl hcr line more hrest =>
      rw [lines_cons hnl fun more hc hm => hcr more hc hm, hrest] at h
      exact absurd h (List.cons_ne_nil _ _)
  · rintro rfl
    rfl

/-- A line end parts the lines of a text. -/
theorem lines_append (t u : Text) : lines (t ++ '\n' :: u) = lines (t ++ ['\n']) ++ lines u := by
  fun_induction lines t with
  | case1 => rfl
  | case2 rest ih => simp only [List.cons_append, lines, ih]
  | case3 rest ih => simp only [List.cons_append, lines, ih]
  | case4 c rest hnl hcr hrest ih =>
    obtain rfl := lines_eq_nil.mp hrest
    by_cases hc : c = '\r'
    · subst hc
      simp only [List.cons_append, List.nil_append, lines]
    · simp only [List.cons_append, List.nil_append]
      rw [lines_cons hnl fun _ h => absurd h hc, lines_cons hnl fun _ h => absurd h hc]
      simp only [lines, List.cons_append, List.nil_append]
  | case5 c rest hnl hcr line more hrest ih =>
    have hne : rest ≠ [] := by
      rintro rfl
      simp [lines] at hrest
    obtain ⟨d, rest, rfl⟩ := List.exists_cons_of_ne_nil hne
    have hcr' : ∀ (v more : Text), c = '\r' → d :: rest ++ v ≠ '\n' :: more := by
      intro v more hc hm
      exact hcr rest hc (by rw [(List.cons.inj hm).1])
    rw [List.cons_append (a := c), List.cons_append (a := c),
      lines_cons hnl fun more hc => hcr' _ more hc,
      lines_cons hnl fun more hc => hcr' _ more hc, ih]
    cases hl : lines (d :: rest ++ ['\n']) with
    | nil => simp [lines_eq_nil] at hl
    | cons line more => rfl

/-- A line end behind a text changes at most a carriage return at its end, and it adds at most
a blank line. -/
theorem lines_append_newline (t : Text) : ∃ last, (last = [] ∨ last = [[]]) ∧
    (lines (t ++ ['\n'])).map trimRight = (lines t).map trimRight ++ last := by
  fun_induction lines t with
  | case1 => exact ⟨[[]], .inr rfl, rfl⟩
  | case2 rest ih =>
    obtain ⟨last, hlast, h⟩ := ih
    refine ⟨last, hlast, ?_⟩
    simp only [List.cons_append, lines, List.map_cons, h]
  | case3 rest ih =>
    obtain ⟨last, hlast, h⟩ := ih
    refine ⟨last, hlast, ?_⟩
    simp only [List.cons_append, lines, List.map_cons, h]
  | case4 c rest hnl hcr hrest ih =>
    obtain rfl := lines_eq_nil.mp hrest
    refine ⟨[], .inl rfl, ?_⟩
    by_cases hc : c = '\r'
    · subst hc
      decide
    · simp only [List.cons_append, List.nil_append]
      rw [lines_cons hnl fun _ h => absurd h hc]
      rfl
  | case5 c rest hnl hcr line more hrest ih =>
    obtain ⟨last, hlast, h⟩ := ih
    refine ⟨last, hlast, ?_⟩
    have hne : rest ≠ [] := by
      rintro rfl
      simp [lines] at hrest
    obtain ⟨d, rest, rfl⟩ := List.exists_cons_of_ne_nil hne
    rw [List.cons_append, lines_cons hnl fun more hc hm => hcr rest hc (by
      rw [(List.cons.inj hm).1])]
    rw [hrest] at h
    cases hl : lines (d :: rest ++ ['\n']) with
    | nil => simp [lines_eq_nil] at hl
    | cons line' more' =>
      rw [hl, List.map_cons, List.map_cons, List.cons_append, List.cons.injEq] at h
      have hc : trimRight (c :: line') = trimRight (c :: line) := by
        have := trimRight_append_trimRight [c] line'
        rw [h.1, trimRight_append_trimRight] at this
        exact this.symm
      simp only [List.map_cons, List.cons_append, hc, h.2]

/-- A line end behind a text does not matter to its code lines. -/
theorem codeLines_append_newline (t : Text) : codeLines (t ++ ['\n']) = codeLines t := by
  obtain ⟨last, hlast, h⟩ := lines_append_newline t
  have htrim : ∀ ls : List Text, ls.map trim = (ls.map trimRight).map trim := by
    intro ls
    rw [List.map_map]
    exact List.map_congr_left fun l _ => (trim_trimRight l).symm
  unfold codeLines
  rw [htrim, h, List.map_append, ← htrim, List.filter_append]
  rcases hlast with rfl | rfl
  · exact List.append_nil _
  · exact List.append_nil _

/-- A line end parts the code lines of a text. -/
theorem codeLines_append (t u : Text) : codeLines (t ++ '\n' :: u) = codeLines t ++ codeLines u := by
  have ht := codeLines_append_newline t
  unfold codeLines at ht ⊢
  rw [lines_append, List.map_append, List.filter_append, ht]

@[simp]
theorem codeLines_nil : codeLines [] = [] := rfl

/-- A blank in front of a text does not matter to its code lines. -/
theorem codeLines_cons_blank {c : Char} (hc : isBlank c = true) (hcr : c ≠ '\r') (t : Text) :
    codeLines (c :: t) = codeLines t := by
  by_cases hnl : c = '\n'
  · subst hnl
    exact codeLines_append [] t
  · have htrim : ∀ u : Text, trim (c :: u) = trim u := fun u =>
      trim_append_left (w := [c]) (by simpa [IsBlank] using hc) u
    unfold codeLines
    rw [lines_cons hnl fun _ h => absurd h hcr]
    cases lines t with
    | nil => simp [htrim, trim_eq_nil.mpr isBlank_nil]
    | cons line more => simp only [List.map_cons, htrim]

/-- A text without line ends is its only line. -/
theorem lines_of_not_mem {t : Text} (ht : '\n' ∉ t) (hne : t ≠ []) : lines t = [t] := by
  induction t with
  | nil => exact absurd rfl hne
  | cons c t ih =>
    rw [List.mem_cons, not_or] at ht
    rw [lines_cons (Ne.symm ht.1) fun more _ hm => ht.2 (by rw [hm]; exact List.mem_cons_self)]
    cases t with
    | nil => rfl
    | cons d t => rw [ih ht.2 (List.cons_ne_nil _ _)]

/-- A text of one line. -/
theorem codeLines_of_not_mem {t : Text} (ht : '\n' ∉ t) :
    codeLines t = if (trim t).isEmpty then [] else [trim t] := by
  by_cases hne : t = []
  · subst hne
    rfl
  · rw [codeLines, lines_of_not_mem ht hne]
    cases h : (trim t).isEmpty <;> simp [h]

end Text

/-! ## Pages -/

namespace Page

/-- A page of whole lines with certain code lines. -/
structure Holds (p : Page) (lines : List Text) : Prop where
  /-- The last line has its line end. -/
  whole : p.contents = [] ∨ ∃ t, p.contents = t ++ ['\n']
  /-- The code lines. -/
  codeLines : Text.codeLines p.contents = lines

/-- A page without text. -/
theorem holds_blank : blank.Holds [] := ⟨.inl rfl, rfl⟩

/-- Text behind whole lines. -/
theorem Holds.append {p : Page} {lines : List Text} (h : p.Holds lines) (t : Text) :
    Text.codeLines (p.contents ++ t) = lines ++ Text.codeLines t := by
  rw [← h.codeLines]
  rcases h.whole with hp | ⟨u, hp⟩
  · rw [hp]
    rfl
  · rw [hp, List.append_assoc, Text.codeLines_append_newline]
    exact Text.codeLines_append u t

/-- What is on a page after one more line. -/
theorem contents_line (p : Page) (level : Nat) (t : Text) :
    (p.line level t).contents = p.contents ++ (indent level ++ t ++ ['\n']) := by
  simp [line, contents, close, append]

/-- What is on a page after a line without text. -/
theorem contents_skip (p : Page) : p.skip.contents = p.contents ++ ['\n'] := by
  obtain ⟨written, _ | _⟩ := p <;> simp [Page.skip, Page.contents, Page.close]

/-- One more line. -/
theorem Holds.line {p : Page} {lines : List Text} (h : p.Holds lines) (level : Nat) (t : Text) :
    (p.line level t).Holds (lines ++ Text.codeLines t) := by
  have hindent : ∀ u : Text, Text.codeLines (indent level ++ u) = Text.codeLines u := by
    intro u
    have hall : ∀ c ∈ indent level, c = ' ' := by
      intro c hc
      simp only [indent, Text.times, List.mem_flatten, List.mem_replicate] at hc
      obtain ⟨blanks, ⟨-, hblanks⟩, hc⟩ := hc
      have hfour : blanks = List.replicate 4 ' ' := hblanks
      rw [hfour] at hc
      exact List.eq_of_mem_replicate hc
    generalize indent level = w at hall ⊢
    induction w with
    | nil => rfl
    | cons c w ih =>
      obtain rfl := hall c List.mem_cons_self
      rw [List.cons_append, Text.codeLines_cons_blank (by decide) (by decide)]
      exact ih fun c hc => hall c (List.mem_cons_of_mem _ hc)
  refine ⟨.inr ⟨p.contents ++ (indent level ++ t), ?_⟩, ?_⟩
  · rw [contents_line, List.append_assoc (indent level), ← List.append_assoc, List.append_assoc,
      List.append_assoc]
    simp
  · rw [contents_line, h.append, List.append_assoc, hindent, Text.codeLines_append_newline]

/-- A line for each of several texts. -/
theorem Holds.stack {p : Page} {lines : List Text} (h : p.Holds lines) (level : Nat)
    (texts : List Text) : (p.stack level texts).Holds (lines ++ texts.flatMap Text.codeLines) := by
  unfold Page.stack
  induction texts generalizing p lines with
  | nil => simpa using h
  | cons t texts ih =>
    rw [List.foldl_cons, List.flatMap_cons, ← List.append_assoc]
    exact ih (h.line level t)

/-- A line without text. -/
theorem Holds.skip {p : Page} {lines : List Text} (h : p.Holds lines) : p.skip.Holds lines := by
  refine ⟨.inr ⟨_, p.contents_skip⟩, ?_⟩
  rw [contents_skip, h.append]
  exact List.append_nil _

end Page

end Smali
