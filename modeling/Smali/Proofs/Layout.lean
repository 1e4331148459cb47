import Smali.Proofs.Inline

/-!
# Texts with the same code lines

How the lines of a text are indented and where blank lines stand does not matter to its code
lines. Conversely a text is known from its code lines up to the blanks between them: where the
code lines fall into two groups the text falls into two parts, and the last code line stands at
the end of the text but for blanks.
-/

namespace Smali.Text

/-- A property of texts, line by line. -/
theorem induction_on_lines {P : Text → Prop} (t : Text) (inline : ∀ t, IsInline t → P t)
    (newline : ∀ a b, IsInline a → P b → P (a ++ '\n' :: b)) : P t := by
  generalize hlength : t.length = n
  induction n using Nat.strong_induction_on generalizing t with
  | _ n ih =>
    by_cases ht : IsInline t
    · exact inline t ht
    · obtain ⟨a, b, rfl, ha⟩ := List.eq_append_cons_of_mem (Decidable.not_not.mp ht)
      refine newline a b ha (ih b.length ?_ b rfl)
      simp only [List.length_append, List.length_cons] at hlength
      omega

instance (t : Text) : Decidable t.IsBlank :=
  decidable_of_iff (t.all isBlank = true) List.all_eq_true

/-- A blank text on one line has no code lines. -/
theorem codeLines_of_isInline_blank {t : Text} (ht : IsInline t) (hb : IsBlank t) :
    codeLines t = [] := by
  rw [codeLines_of_not_mem ht, trim_eq_nil.mpr hb]
  rfl

/-- Blanks in front of a text do not matter to its code lines. -/
theorem codeLines_append_left {w : Text} (hw : IsBlank w) (t : Text) :
    codeLines (w ++ t) = codeLines t := by
  induction w using induction_on_lines with
  | newline a b ha ih =>
    obtain ⟨hblank, hrest⟩ := isBlank_append.mp hw
    rw [List.append_assoc, List.cons_append, codeLines_append,
      codeLines_of_isInline_blank ha hblank, List.nil_append, ih (isBlank_cons.mp hrest).2]
  | inline w hinline =>
    induction t using induction_on_lines with
    | newline a b ha ih =>
      have hfirst : codeLines (w ++ a) = codeLines a := by
        rw [codeLines_of_not_mem (isInline_append.mpr ⟨hinline, ha⟩), codeLines_of_not_mem ha,
          trim_append_left hw]
      rw [← List.append_assoc, codeLines_append, codeLines_append, hfirst]
    | inline t ht =>
      rw [codeLines_of_not_mem (isInline_append.mpr ⟨hinline, ht⟩), codeLines_of_not_mem ht,
        trim_append_left hw]

/-- A blank text has no code lines. -/
theorem codeLines_of_isBlank {w : Text} (hw : IsBlank w) : codeLines w = [] := by
  have h := codeLines_append_left hw []
  rwa [List.append_nil] at h

/-- Blanks behind a text do not matter to its code lines. -/
theorem codeLines_append_right {w : Text} (hw : IsBlank w) (t : Text) :
    codeLines (t ++ w) = codeLines t := by
  induction t using induction_on_lines with
  | newline a b ha ih => rw [List.append_assoc, List.cons_append, codeLines_append,
      codeLines_append, ih]
  | inline t ht =>
    induction w using induction_on_lines with
    | newline a b ha _ =>
      obtain ⟨hblank, hrest⟩ := isBlank_append.mp hw
      rw [← List.append_assoc, codeLines_append, codeLines_of_isBlank (isBlank_cons.mp hrest).2,
        List.append_nil, codeLines_of_not_mem (isInline_append.mpr ⟨ht, ha⟩),
        codeLines_of_not_mem ht, trim_append_right hblank]
    | inline w hinline =>
      rw [codeLines_of_not_mem (isInline_append.mpr ⟨ht, hinline⟩), codeLines_of_not_mem ht,
        trim_append_right hw]

/-- Only blank texts have no code lines. -/
theorem codeLines_eq_nil {t : Text} : codeLines t = [] ↔ IsBlank t := by
  refine ⟨fun h => ?_, codeLines_of_isBlank⟩
  induction t using induction_on_lines with
  | inline t ht =>
    rw [codeLines_of_not_mem ht] at h
    split at h
    · exact trim_eq_nil.mp (List.isEmpty_iff.mp ‹_›)
    · exact absurd h (List.cons_ne_nil _ _)
  | newline a b ha ih =>
    rw [codeLines_append, List.append_eq_nil_iff, codeLines_of_not_mem ha] at h
    obtain ⟨hfirst, hrest⟩ := h
    split at hfirst
    · exact isBlank_append.mpr ⟨trim_eq_nil.mp (List.isEmpty_iff.mp ‹_›),
        isBlank_cons.mpr ⟨by decide, ih hrest⟩⟩
    · exact absurd hfirst (List.cons_ne_nil _ _)

/-- Trimming does not matter to code lines. -/
@[simp]
theorem codeLines_trim (t : Text) : codeLines (trim t) = codeLines t := by
  obtain ⟨before, after, hbefore, hafter, heq⟩ := exists_trim t
  conv_rhs => rw [heq]
  rw [codeLines_append_left hbefore, codeLines_append_right hafter]

/-! ## Code lines themselves -/

/-- A text on one line without blanks around it is its own code line. -/
theorem codeLines_of_isTrimmed {t : Text} (ht : IsInline t) (htrim : IsTrimmed t) (hne : t ≠ []) :
    codeLines t = [t] := by
  rw [codeLines_of_not_mem ht, htrim.trim_eq, if_neg (by simpa using hne)]

/-- What a code line is. -/
structure IsCodeLine (l : Text) : Prop where
  /-- It is one line. -/
  inline : IsInline l
  /-- There are no blanks around it. -/
  trimmed : IsTrimmed l
  /-- It is not empty. -/
  ne_nil : l ≠ []

/-- The code lines of a code line. -/
theorem IsCodeLine.codeLines_eq {l : Text} (h : IsCodeLine l) : codeLines l = [l] :=
  codeLines_of_isTrimmed h.inline h.trimmed h.ne_nil

/-- The code lines of a text are code lines. -/
theorem isCodeLine_of_mem_codeLines {t l : Text} (h : l ∈ codeLines t) : IsCodeLine l := by
  unfold codeLines at h
  obtain ⟨hmem, hne⟩ := List.mem_filter.mp h
  obtain ⟨line, hline, rfl⟩ := List.mem_map.mp hmem
  exact ⟨(isInline_of_mem_lines hline).of_subset (trim_subset line), isTrimmed_trim line,
    by simpa using hne⟩

/-! ## Parts of a text -/

/-- Whether the text ends before a line: whatever stands behind it has its own code lines. -/
def Leads (u : Text) (ls : List Text) : Prop := ∀ x, codeLines (u ++ x) = ls ++ codeLines x

/-- The code lines of such a text. -/
theorem Leads.codeLines_eq {u : Text} {ls : List Text} (h : Leads u ls) : codeLines u = ls := by
  have hnil := h []
  rwa [List.append_nil, codeLines_nil, List.append_nil] at hnil

/-- Two such texts, one behind the other. -/
theorem Leads.append {u v : Text} {ls more : List Text} (hu : Leads u ls) (hv : Leads v more) :
    Leads (u ++ v) (ls ++ more) := fun x => by
  rw [List.append_assoc, hu, hv, List.append_assoc]

/-- Blanks in front of anything. -/
theorem leads_of_isBlank {w : Text} (hw : IsBlank w) : Leads w [] :=
  fun x => codeLines_append_left hw x

/-- A text with a line end. -/
theorem leads_newline (t : Text) : Leads (t ++ ['\n']) (codeLines t) := fun x => by
  rw [List.append_assoc]
  exact codeLines_append t x

/-- Where the code lines fall into two groups, the text falls into two parts. -/
theorem exists_of_codeLines_eq_append {t : Text} {more : List Text} (ls : List Text)
    (hmore : more ≠ []) (h : codeLines t = ls ++ more) :
    ∃ u b, t = u ++ b ∧ Leads u ls ∧ codeLines b = more := by
  induction t using induction_on_lines generalizing ls with
  | inline t ht =>
    cases ls with
    | nil => exact ⟨[], t, rfl, fun _ => rfl, h⟩
    | cons l ls =>
      rw [codeLines_of_not_mem ht] at h
      split at h
      · exact absurd h.symm (List.cons_ne_nil _ _)
      · have hrest := (List.cons.inj h).2
        exact absurd (List.append_eq_nil_iff.mp hrest.symm).2 hmore
  | newline a b ha ih =>
    cases ls with
    | nil => exact ⟨[], _, rfl, fun _ => rfl, h⟩
    | cons l ls =>
      have hlead := leads_newline a
      rw [codeLines_append] at h
      rw [codeLines_of_not_mem ha] at h hlead
      split at h
      · rename_i hempty
        rw [if_pos hempty] at hlead
        obtain ⟨u, b', rfl, hu, hb⟩ := ih _ h
        exact ⟨a ++ ['\n'] ++ u, b', by simp, hlead.append hu, hb⟩
      · rename_i hempty
        rw [if_neg hempty] at hlead
        obtain ⟨rfl, hrest⟩ := List.cons.inj h
        obtain ⟨u, b', rfl, hu, hb⟩ := ih _ hrest
        exact ⟨a ++ ['\n'] ++ u, b', by simp, hlead.append hu, hb⟩

/-- A text with one code line is that line with blanks around it. -/
theorem exists_of_codeLines_eq_singleton {t l : Text} (h : codeLines t = [l]) :
    ∃ before after, IsBlank before ∧ IsBlank after ∧ t = before ++ (l ++ after) := by
  induction t using induction_on_lines with
  | inline t ht =>
    rw [codeLines_of_not_mem ht] at h
    split at h
    · exact absurd h.symm (List.cons_ne_nil _ _)
    · obtain rfl := (List.cons.inj h).1
      exact exists_trim t
  | newline a b ha ih =>
    rw [codeLines_append, codeLines_of_not_mem ha] at h
    split at h
    · obtain ⟨before, after, hbefore, hafter, rfl⟩ := ih h
      have ha' : IsBlank a := trim_eq_nil.mp (List.isEmpty_iff.mp ‹_›)
      exact ⟨a ++ '\n' :: before, after,
        isBlank_append.mpr ⟨ha', isBlank_cons.mpr ⟨by decide, hbefore⟩⟩, hafter, by simp⟩
    · obtain ⟨rfl, hrest⟩ := List.cons.inj h
      obtain ⟨before, after, hbefore, hafter, heq⟩ := exists_trim a
      refine ⟨before, after ++ '\n' :: b, hbefore, isBlank_append.mpr ⟨hafter, ?_⟩, ?_⟩
      · exact isBlank_cons.mpr ⟨by decide, codeLines_eq_nil.mp hrest⟩
      · conv_lhs => rw [heq]
        simp only [List.append_assoc]

/-- The last code line stands at the end but for blanks. -/
theorem exists_of_codeLines_eq_concat {t l : Text} {ls : List Text}
    (h : codeLines t = ls ++ [l]) : ∃ u w, t = u ++ (l ++ w) ∧ Leads u ls ∧ IsBlank w := by
  obtain ⟨u, b, rfl, hu, hb⟩ := exists_of_codeLines_eq_append ls (List.cons_ne_nil _ _) h
  obtain ⟨before, after, hbefore, hafter, rfl⟩ := exists_of_codeLines_eq_singleton hb
  have hlead := hu.append (leads_of_isBlank hbefore)
  rw [List.append_nil] at hlead
  exact ⟨u ++ before, after, by simp, hlead, hafter⟩

/-- The first code line stands at the start but for blanks. -/
theorem exists_of_codeLines_eq_cons {t l : Text} {ls : List Text} (h : codeLines t = l :: ls) :
    ∃ before rest, IsBlank before ∧ t = before ++ (l ++ rest) ∧ codeLines rest = ls := by
  cases ls with
  | nil =>
    obtain ⟨before, after, hbefore, hafter, rfl⟩ := exists_of_codeLines_eq_singleton h
    exact ⟨before, after, hbefore, rfl, codeLines_of_isBlank hafter⟩
  | cons next ls =>
    obtain ⟨u, b, rfl, hu, hb⟩ :=
      exists_of_codeLines_eq_append [l] (List.cons_ne_nil next ls) h
    obtain ⟨before, after, hbefore, hafter, rfl⟩ :=
      exists_of_codeLines_eq_singleton hu.codeLines_eq
    exact ⟨before, after ++ b, hbefore, by simp, (codeLines_append_left hafter b).trans hb⟩

/-- A comma that ends the last code line. -/
theorem exists_of_codeLines_eq_comma {t l : Text} {ls : List Text} (hl : IsCodeLine l)
    (h : codeLines t = ls ++ [l ++ [',']]) :
    ∃ a w, t = a ++ ',' :: w ∧ codeLines a = ls ++ [l] ∧ IsBlank w := by
  obtain ⟨u, w, rfl, hu, hw⟩ := exists_of_codeLines_eq_concat h
  exact ⟨u ++ l, w, by simp, by rw [hu, hl.codeLines_eq], hw⟩

/-! ## Longer lines -/

/-- A text in front of a code line makes it a longer one. -/
theorem IsCodeLine.append_left {p l : Text} (hl : IsCodeLine l) (hp : IsInline p)
    (hhead : ∀ c ∈ p.head?, isBlank c = false) : IsCodeLine (p ++ l) := by
  refine ⟨isInline_append.mpr ⟨hp, hl.inline⟩, ⟨fun c hc => ?_, fun c hc => ?_⟩,
    List.append_ne_nil_of_right_ne_nil p hl.ne_nil⟩
  · cases p with
    | nil => exact hl.trimmed.1 c hc
    | cons d p => exact hhead c hc
  · rw [List.getLast?_append_of_ne_nil p hl.ne_nil] at hc
    exact hl.trimmed.2 c hc

/-- So does a text behind it. -/
theorem IsCodeLine.append_right {l s : Text} (hl : IsCodeLine l) (hs : IsInline s)
    (hlast : ∀ c ∈ s.getLast?, isBlank c = false) : IsCodeLine (l ++ s) := by
  refine ⟨isInline_append.mpr ⟨hl.inline, hs⟩, ⟨fun c hc => ?_, fun c hc => ?_⟩,
    List.append_ne_nil_of_left_ne_nil hl.ne_nil s⟩
  · rw [List.head?_append_of_ne_nil l hl.ne_nil] at hc
    exact hl.trimmed.1 c hc
  · cases hs' : s with
    | nil =>
      rw [hs', List.append_nil] at hc
      exact hl.trimmed.2 c hc
    | cons d s' =>
      rw [List.getLast?_append_of_ne_nil l (hs' ▸ List.cons_ne_nil d s')] at hc
      exact hlast c hc

/-- A text in front of a text that starts with a code line. -/
theorem codeLines_prefix {p t : Text} (hp : IsInline p)
    (hhead : ∀ c ∈ p.head?, isBlank c = false) {d : Char} (hd : t.head? = some d)
    (hblank : isBlank d = false) : codeLines (p ++ t) = (codeLines t).modifyHead (p ++ ·) := by
  have hline : ∀ {t : Text}, IsInline t → t.head? = some d →
      codeLines (p ++ t) = [p ++ trim t] ∧ codeLines t = [trim t] := by
    intro t ht hd
    obtain ⟨before, after, hbefore, hafter, heq⟩ := exists_trim t
    have htrim : trim t ≠ [] := by
      intro hnil
      have hmem : d ∈ t := List.mem_of_mem_head? hd
      rw [trim_eq_nil.mp hnil d hmem] at hblank
      exact Bool.noConfusion hblank
    have hnil : before = [] := by
      cases before with
      | nil => rfl
      | cons c before =>
        rw [heq, List.cons_append, List.head?_cons] at hd
        obtain rfl := Option.some.inj hd
        rw [(isBlank_cons.mp hbefore).1] at hblank
        exact Bool.noConfusion hblank
    subst hnil
    have hcode : IsCodeLine (trim t) :=
      ⟨ht.of_subset (trim_subset t), isTrimmed_trim t, htrim⟩
    have htext : p ++ t = (p ++ trim t) ++ after := by
      conv_lhs => rw [heq]
      simp
    constructor
    · rw [htext, codeLines_append_right hafter, (hcode.append_left hp hhead).codeLines_eq]
    · rw [codeLines_of_not_mem ht, if_neg (by simpa using htrim)]
  induction t using induction_on_lines with
  | inline t ht =>
    rw [(hline ht hd).1, (hline ht hd).2]
    rfl
  | newline a b ha _ =>
    have hda : a.head? = some d := by
      cases a with
      | nil =>
        rw [List.nil_append, List.head?_cons] at hd
        obtain rfl := Option.some.inj hd
        exact absurd hblank (by decide)
      | cons c a => exact hd
    rw [← List.append_assoc, codeLines_append, codeLines_append, (hline ha hda).1,
      (hline ha hda).2]
    rfl

/-- A text behind a text that ends with a code line. -/
theorem codeLines_suffix {t l s : Text} {ls : List Text} (h : codeLines t = ls ++ [l])
    (hlast : ∀ c ∈ t.getLast?, isBlank c = false) (hs : IsInline s)
    (hend : ∀ c ∈ s.getLast?, isBlank c = false) : codeLines (t ++ s) = ls ++ [l ++ s] := by
  have hl : IsCodeLine l :=
    isCodeLine_of_mem_codeLines (h ▸ List.mem_append_right _ List.mem_cons_self)
  obtain ⟨u, w, rfl, hu, hw⟩ := exists_of_codeLines_eq_concat h
  have hnil : w = [] := by
    cases hw' : w.getLast? with
    | none => exact List.getLast?_eq_none_iff.mp hw'
    | some c =>
      have hmem : c ∈ w := List.mem_of_getLast? hw'
      have hlast' := hlast c (by
        rw [← List.append_assoc, List.getLast?_append, hw']
        rfl)
      rw [hw c hmem] at hlast'
      exact absurd hlast' Bool.noConfusion
  subst hnil
  rw [List.append_nil, List.append_assoc, hu, (hl.append_right hs hend).codeLines_eq]

end Smali.Text
