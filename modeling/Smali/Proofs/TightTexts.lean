import Smali.Proofs.Layout

/-!
# Tight texts

No blank stands beside a line end of a tight text. The texts that an annotation gathers from its
lines are tight, and so is all that is cut out of them. A tight text without blanks at its ends is
made of its code lines, so that two of them with the same code lines are the same.
-/

namespace Smali.Text

/-- Whether each line end stands between two characters that are not blank. -/
def IsTight (t : Text) : Prop :=
  ∀ before after, t = before ++ '\n' :: after →
    (∃ c ∈ before.getLast?, isBlank c = false) ∧ ∃ c ∈ after.head?, isBlank c = false

/-- A text without line ends is tight. -/
theorem IsInline.isTight {t : Text} (h : t.IsInline) : t.IsTight := by
  rintro before after rfl
  exact absurd (List.mem_append_right _ List.mem_cons_self) h

/-- A part of a tight text is tight, without the blanks around it. -/
theorem IsTight.of_part {before t after : Text} (h : IsTight (before ++ (t ++ after))) :
    IsTight (trim t) := by
  obtain ⟨lead, trail, hlead, htrail, heq⟩ := exists_trim t
  intro left right hsplit
  have htext : before ++ (t ++ after) =
      (before ++ lead ++ left) ++ '\n' :: (right ++ (trail ++ after)) := by
    rw [heq, hsplit]
    simp
  obtain ⟨⟨c, hc, hleft⟩, d, hd, hright⟩ := h _ _ htext
  have hne : left ≠ [] := by
    rintro rfl
    exact absurd ((isTrimmed_trim t).1 '\n' (by rw [hsplit]; rfl)) (by decide)
  have hne' : right ≠ [] := by
    rintro rfl
    exact absurd ((isTrimmed_trim t).2 '\n' (by rw [hsplit, List.getLast?_concat]; rfl))
      (by decide)
  rw [List.getLast?_append_of_ne_nil _ hne] at hc
  rw [List.head?_append_of_ne_nil _ hne'] at hd
  exact ⟨⟨c, hc, hleft⟩, d, hd, hright⟩

/-- Without the blanks around it a tight text is tight. -/
theorem IsTight.trim {t : Text} (h : t.IsTight) : IsTight (Text.trim t) := by
  have hwhole : IsTight ([] ++ (t ++ [])) := by rwa [List.nil_append, List.append_nil]
  exact hwhole.of_part

/-- A text on one line in front does not matter. -/
theorem IsTight.append_left {p t : Text} (h : t.IsTight) (hp : p.IsInline) : IsTight (p ++ t) := by
  intro before after hsplit
  obtain ⟨middle, rfl, heq⟩ | ⟨middle, rfl, heq⟩ := List.append_eq_append_iff.mp hsplit
  · obtain ⟨⟨c, hc, hleft⟩, hright⟩ := h middle after heq
    have hne : middle ≠ [] := by
      rintro rfl
      exact absurd hc (Option.not_mem_none c)
    rw [List.getLast?_append_of_ne_nil _ hne]
    exact ⟨⟨c, hc, hleft⟩, hright⟩
  · cases middle with
    | nil =>
      obtain ⟨⟨c, hc, -⟩, -⟩ := h [] after heq.symm
      exact absurd hc (Option.not_mem_none c)
    | cons d middle =>
      obtain ⟨rfl, -⟩ := List.cons.inj heq
      exact absurd (List.mem_append_right _ List.mem_cons_self) hp

/-- The last character behind a line end. -/
theorem getLast?_append_newline (t : Text) {u : Text} (hu : u ≠ []) :
    (t ++ '\n' :: u).getLast? = u.getLast? := by
  rw [List.getLast?_append_of_ne_nil _ (List.cons_ne_nil _ _), ← List.singleton_append,
    List.getLast?_append_of_ne_nil _ hu]

/-- One more line in front. -/
theorem IsTight.newline {l t : Text} (h : t.IsTight) (hl : IsCodeLine l)
    (hhead : ∃ c ∈ t.head?, isBlank c = false) : IsTight (l ++ '\n' :: t) := by
  have hlast : ∃ c ∈ l.getLast?, isBlank c = false :=
    have heq := List.getLast?_eq_some_getLast hl.ne_nil
    ⟨_, heq, hl.trimmed.2 _ heq⟩
  intro before after hsplit
  have hcases : (before = l ∧ after = t) ∨
      ∃ middle, before = l ++ '\n' :: middle ∧ t = middle ++ '\n' :: after := by
    obtain ⟨middle, rfl, heq⟩ | ⟨middle, rfl, heq⟩ := List.append_eq_append_iff.mp hsplit
    · cases middle with
      | nil => exact .inl ⟨List.append_nil l, (List.cons.inj heq).2.symm⟩
      | cons d middle =>
        obtain ⟨rfl, hrest⟩ := List.cons.inj heq
        exact .inr ⟨middle, rfl, hrest⟩
    · cases middle with
      | nil => exact .inl ⟨(List.append_nil before).symm, (List.cons.inj heq).2⟩
      | cons d middle =>
        obtain ⟨rfl, -⟩ := List.cons.inj heq
        exact absurd (List.mem_append_right _ List.mem_cons_self) hl.inline
  obtain ⟨rfl, rfl⟩ | ⟨middle, rfl, heq⟩ := hcases
  · exact ⟨hlast, hhead⟩
  · obtain ⟨⟨c, hc, hleft⟩, hright⟩ := h middle after heq
    have hne : middle ≠ [] := by
      rintro rfl
      exact absurd hc (Option.not_mem_none c)
    exact ⟨⟨c, getLast?_append_newline l hne ▸ hc, hleft⟩, hright⟩

/-- Code lines with line ends between them are tight. -/
theorem isTight_intercalate {ls : List Text} (h : ∀ l ∈ ls, IsCodeLine l) :
    IsTight (['\n'].intercalate ls) := by
  induction ls with
  | nil => exact isInline_nil.isTight
  | cons l ls ih =>
    obtain ⟨hl, hmore⟩ := List.forall_mem_cons.mp h
    cases ls with
    | nil =>
      rw [List.intercalate_singleton]
      exact hl.inline.isTight
    | cons next ls =>
      obtain ⟨c, rest, rfl⟩ := List.exists_cons_of_ne_nil (hmore next List.mem_cons_self).ne_nil
      have hblank := (hmore _ List.mem_cons_self).trimmed.1 c rfl
      have hhead : (['\n'].intercalate ((c :: rest) :: ls)).head? = some c := by
        cases ls with
        | nil => rfl
        | cons _ _ => rw [List.intercalate_cons_cons]; rfl
      rw [List.intercalate_cons_cons, List.append_assoc]
      exact (ih hmore).newline hl ⟨c, hhead, hblank⟩

/-- Code lines with line ends between them are the code lines of the text. -/
theorem codeLines_intercalate {ls : List Text} (h : ∀ l ∈ ls, IsCodeLine l) :
    codeLines (['\n'].intercalate ls) = ls := by
  induction ls with
  | nil => rfl
  | cons l ls ih =>
    obtain ⟨hl, hmore⟩ := List.forall_mem_cons.mp h
    cases ls with
    | nil => rw [List.intercalate_singleton, hl.codeLines_eq]
    | cons next ls =>
      rw [List.intercalate_cons_cons, List.append_assoc, List.singleton_append, codeLines_append,
        hl.codeLines_eq, ih hmore]
      rfl

/-- A tight text is made of its code lines. -/
theorem IsTight.eq_intercalate {t : Text} (h : t.IsTight) (htrim : IsTrimmed t) :
    t = ['\n'].intercalate (codeLines t) := by
  induction t using induction_on_lines with
  | inline t ht =>
    by_cases hne : t = []
    · rw [hne]
      rfl
    · rw [codeLines_of_isTrimmed ht htrim hne, List.intercalate_singleton]
  | newline a b ha ih =>
    obtain ⟨⟨c, hc, hleft⟩, d, hd, hright⟩ := h a b rfl
    have hne : a ≠ [] := by
      rintro rfl
      exact absurd hc (Option.not_mem_none c)
    have hne' : b ≠ [] := by
      rintro rfl
      exact absurd hd (Option.not_mem_none d)
    have hfirst : IsTrimmed a :=
      ⟨fun e he => htrim.1 e (by rwa [List.head?_append_of_ne_nil _ hne]),
        fun e he => Option.mem_unique hc he ▸ hleft⟩
    have hb : IsTrimmed b := by
      refine ⟨fun e he => Option.mem_unique hd he ▸ hright, fun e he => htrim.2 e ?_⟩
      rwa [getLast?_append_newline a hne']
    have htight : IsTight b := by
      rintro before after rfl
      obtain ⟨⟨e, he, hblank⟩, hafter⟩ := h (a ++ '\n' :: before) after (by simp)
      refine ⟨⟨e, ?_, hblank⟩, hafter⟩
      have hbefore : before ≠ [] := by
        rintro rfl
        obtain rfl := Option.some.inj (hd : some '\n' = some d)
        exact absurd hright (by decide)
      rwa [getLast?_append_newline a hbefore] at he
    have hlines := ih htight hb
    rw [codeLines_append, codeLines_of_isTrimmed ha hfirst hne]
    cases hcode : codeLines b with
    | nil =>
      rw [hcode] at hlines
      exact absurd hlines hne'
    | cons l ls =>
      rw [hcode] at hlines
      rw [List.singleton_append, List.intercalate_cons_cons, ← hlines, List.append_assoc]
      rfl

/-- Tight texts with the same code lines differ in the blanks around them at most. -/
theorem IsTight.trim_congr {t u : Text} (ht : t.IsTight) (hu : u.IsTight)
    (h : codeLines t = codeLines u) : Text.trim t = Text.trim u := by
  rw [ht.trim.eq_intercalate (isTrimmed_trim t), hu.trim.eq_intercalate (isTrimmed_trim u),
    codeLines_trim, codeLines_trim, h]

end Smali.Text
