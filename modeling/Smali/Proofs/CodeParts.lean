import Smali.Proofs.BareReading
import Smali.Proofs.RemarkedLines

/-!
# Code parts of lines

The code part of a line is what stands before its comment. A scan of the code part finds the tokens
of the line at the same places, and no comment. So if every line of a source is cut to its code
part, the lines that are scanned are those of the source without their comments.
-/

namespace Smali

/-- The part of a line before the comment that ends it. A line that cannot be scanned has no
comment. -/
def Text.codePart (t : Text) : Text :=
  match scan 1 1 t with
  | .ok s => s.text
  | .error _ => t

/-! ## Scanning -/

/-- What a scan finds in front of its comment ends a word. -/
theorem endsWord_of_scan {number column : Nat} {t : Text} {s : Scanned}
    (h : scan number column t = .ok s) (ht : ∀ c ∈ t.head?, endsWord c = true) :
    ∀ c ∈ s.text.head?, endsWord c = true := by
  intro c hc
  refine ht c ?_
  rw [← all_of_scan h, Scanned.all, List.head?_append, hc]
  rfl

/-- The scan of a code part finds the same code, and no comment. -/
theorem scan_text {number column : Nat} {t : Text} {s : Scanned}
    (h : scan number column t = .ok s) :
    scan number column s.text = .ok { s with remark := none } := by
  fun_induction scan number column t generalizing s with
  | case1 =>
    cases h
    rw [Scanned.nothing, scan]
    rfl
  | case2 column c rest hc ih =>
    obtain ⟨inner, hinner, rfl⟩ := exists_of_map_eq_ok h
    rw [Scanned.skip, scan_blank _ _ hc, ih hinner]
    rfl
  | case3 =>
    cases h
    rw [scan]
    rfl
  | case4 column c rest position hblank hsign hc body after hbody =>
    rename_i text kind ih
    obtain ⟨inner, hinner, rfl⟩ := exists_of_map_eq_ok h
    have htext : (inner.push kind text position).text = c :: (body ++ c :: inner.text) := by
      simp [Scanned.push, text]
    have hscan := scan_quote number column hc (takeBody?_whole hbody inner.text)
    rw [htext, hscan, ih hinner, ← htext]
    rfl
  | case5 => cases h
  | case6 column c rest position hblank hsign hc hmark =>
    rename_i ih
    obtain ⟨inner, hinner, rfl⟩ := exists_of_map_eq_ok h
    have htext : (inner.push .punctuation [c] position).text = c :: inner.text := rfl
    rw [htext, scan_mark _ _ hmark, ih hinner]
    rfl
  | case7 column c rest position hblank hsign hc hmark word _ kind hkind =>
    rename_i ih
    have hword : startsWord c = true := by
      simp_all [startsWord]
    obtain ⟨inner, hinner, rfl⟩ := exists_of_map_eq_ok h
    have hends : ∀ d ∈ inner.text.head?, endsWord d = true :=
      endsWord_of_scan hinner fun d hd => by
        have hhead := List.head?_dropWhile_not (!endsWord ·) rest
        rw [hd] at hhead
        simpa using hhead
    have htext : (inner.push kind word position).text =
        c :: (rest.takeWhile (!endsWord ·) ++ inner.text) := rfl
    have hall : ∀ d ∈ rest.takeWhile (!endsWord ·), (!endsWord d) = true :=
      fun d hd => List.mem_takeWhile_imp (p := (!endsWord ·)) hd
    have htake : (rest.takeWhile (!endsWord ·) ++ inner.text).takeWhile (!endsWord ·) =
        rest.takeWhile (!endsWord ·) := by
      rw [(takeWhile_append_end hends _).1, List.takeWhile_eq_self_iff.mpr hall]
    have hdrop : (rest.takeWhile (!endsWord ·) ++ inner.text).dropWhile (!endsWord ·) =
        inner.text := by
      rw [(takeWhile_append_end hends _).2, List.dropWhile_eq_nil_iff.mpr hall, List.nil_append]
    have hkind' : classify (c :: rest.takeWhile (!endsWord ·)) ⟨number, column⟩ = .ok kind := hkind
    have hinner' := ih hinner
    rw [htext, scan_word _ _ hword, htake, hdrop, hkind']
    dsimp only
    rw [hinner']
    rfl
  | case8 => cases h

/-- A scan finds no tokens in blanks alone. -/
theorem code_eq_nil_iff {number column : Nat} {t : Text} {s : Scanned}
    (h : scan number column t = .ok s) : s.code = [] ↔ Text.IsBlank s.text := by
  have hink : ∀ {c : Char} {rest : Text}, ¬Text.isBlank c = true → ¬Text.IsBlank (c :: rest) :=
    fun hc hblank => hc (Text.isBlank_cons.mp hblank).1
  fun_induction scan number column t generalizing s with
  | case1 =>
    cases h
    exact iff_of_true rfl Text.isBlank_nil
  | case2 column c rest hc ih =>
    obtain ⟨inner, hinner, rfl⟩ := exists_of_map_eq_ok h
    exact (ih hinner).trans
      ⟨fun hblank => Text.isBlank_cons.mpr ⟨hc, hblank⟩, fun hblank => (Text.isBlank_cons.mp hblank).2⟩
  | case3 =>
    cases h
    exact iff_of_true rfl Text.isBlank_nil
  | case4 column c rest position hblank =>
    obtain ⟨inner, -, rfl⟩ := exists_of_map_eq_ok h
    exact iff_of_false (List.cons_ne_nil _ _) (hink hblank)
  | case5 => cases h
  | case6 column c rest position hblank =>
    obtain ⟨inner, -, rfl⟩ := exists_of_map_eq_ok h
    exact iff_of_false (List.cons_ne_nil _ _) (hink hblank)
  | case7 column c rest position hblank =>
    obtain ⟨inner, -, rfl⟩ := exists_of_map_eq_ok h
    exact iff_of_false (List.cons_ne_nil _ _) (hink hblank)
  | case8 => cases h

/-! ## Lines -/

/-- A code part stands on one line if its line does. -/
theorem isInline_codePart {t : Text} (ht : t.IsInline) : t.codePart.IsInline := by
  unfold Text.codePart
  cases hscan : scan 1 1 t with
  | error fault => exact ht
  | ok s =>
    refine ht.of_subset fun c hc => ?_
    rw [← all_of_scan hscan]
    exact List.mem_append_left _ hc

/-- A line with a line end of two characters behind it. -/
theorem lines_append_lineEnd {t : Text} (ht : t.IsInline) (rest : Text) :
    Text.lines (t ++ '\r' :: '\n' :: rest) = t :: Text.lines rest := by
  induction t with
  | nil => rfl
  | cons c t ih =>
    have hc : c ≠ '\n' := fun h => ht (h ▸ List.mem_cons_self)
    have hfirst : ∀ more, c = '\r' → t ++ '\r' :: '\n' :: rest ≠ '\n' :: more := by
      intro more _ hmore
      cases t with
      | nil => cases hmore
      | cons d t => exact ht (List.mem_cons_of_mem _ ((List.cons.inj hmore).1 ▸ List.mem_cons_self))
    rw [List.cons_append, Text.lines_cons hc hfirst,
      ih fun hmem => ht (List.mem_cons_of_mem _ hmem)]

/-- Every source can be cut to its code parts. -/
theorem exists_codeParts (source : Text) :
    ∃ bare, Text.lines bare = (Text.lines source).map Text.codePart := by
  have hinline : ∀ t ∈ Text.lines source, t.IsInline := fun _ => Text.isInline_of_mem_lines
  generalize Text.lines source = lines at hinline
  induction lines with
  | nil => exact ⟨[], rfl⟩
  | cons t rest ih =>
    obtain ⟨ht, hrest⟩ := List.forall_mem_cons.mp hinline
    obtain ⟨bare, hbare⟩ := ih hrest
    refine ⟨t.codePart ++ '\r' :: '\n' :: bare, ?_⟩
    rw [lines_append_lineEnd (isInline_codePart ht), hbare, List.map_cons]

end Smali
