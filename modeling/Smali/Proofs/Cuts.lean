import Smali.Text.Basic
import Mathlib.Data.List.Infix

/-!
# Texts cut at a mark

A text is cut at the first or at the last place of a mark. The two sides and the mark between them
are the text, and the side that was searched holds no mark. So a text that is put together from
sides like these is cut into them again.
-/

namespace Smali.Text

/-! ## The sides of a cut -/

/-- A mark and the rest behind it are the text. -/
theorem eq_of_after? {mark t rest : Text} (h : after? mark t = some rest) : t = mark ++ rest := by
  induction mark generalizing t with
  | nil =>
    obtain rfl := Option.some.inj h
    rfl
  | cons m mark ih =>
    cases t with
    | nil => exact absurd h (Option.some_ne_none _).symm
    | cons c t =>
      rw [after?] at h
      split at h
      · rw [‹m = c›, ih h, List.cons_append]
      · exact absurd h (Option.some_ne_none _).symm

/-- Both sides of a cut and the character between them are the text. -/
theorem eq_of_cut? {p : Char → Bool} {t before after : Text}
    (h : cut? p t = some (before, after)) : ∃ c, p c = true ∧ t = before ++ c :: after := by
  induction t generalizing before with
  | nil => exact absurd h (Option.some_ne_none _).symm
  | cons c t ih =>
    rw [cut?] at h
    split at h
    · obtain ⟨rfl, rfl⟩ := Prod.mk.inj (Option.some.inj h)
      exact ⟨c, ‹_›, rfl⟩
    · obtain ⟨⟨first, second⟩, hcut, heq⟩ := Option.map_eq_some_iff.mp h
      obtain ⟨rfl, rfl⟩ := Prod.mk.inj heq
      obtain ⟨d, hd, rfl⟩ := ih hcut
      exact ⟨d, hd, rfl⟩

/-- The same for the last place of a mark. -/
theorem eq_of_cutLast? {p : Char → Bool} {t before after : Text}
    (h : cutLast? p t = some (before, after)) : ∃ c, p c = true ∧ t = before ++ c :: after := by
  induction t generalizing before with
  | nil => exact absurd h (Option.some_ne_none _).symm
  | cons c t ih =>
    rw [cutLast?] at h
    split at h
    · rename_i first second hcut
      obtain ⟨rfl, rfl⟩ := Prod.mk.inj (Option.some.inj h)
      obtain ⟨d, hd, rfl⟩ := ih hcut
      exact ⟨d, hd, rfl⟩
    · split at h
      · obtain ⟨rfl, rfl⟩ := Prod.mk.inj (Option.some.inj h)
        exact ⟨c, ‹_›, rfl⟩
      · exact absurd h (Option.some_ne_none _).symm

/-- The same for a mark of several characters. -/
theorem eq_of_cutAt? {mark t before after : Text} (h : cutAt? mark t = some (before, after)) :
    t = before ++ mark ++ after := by
  induction t generalizing before with
  | nil =>
    obtain ⟨rest, hrest, heq⟩ := Option.map_eq_some_iff.mp h
    obtain ⟨rfl, rfl⟩ := Prod.mk.inj heq
    exact eq_of_after? hrest
  | cons c t ih =>
    rw [cutAt?] at h
    split at h
    · rename_i rest hrest
      obtain ⟨rfl, rfl⟩ := Prod.mk.inj (Option.some.inj h)
      exact eq_of_after? hrest
    · obtain ⟨⟨first, second⟩, hcut, heq⟩ := Option.map_eq_some_iff.mp h
      obtain ⟨rfl, rfl⟩ := Prod.mk.inj heq
      rw [ih hcut]
      rfl

/-- No mark stands in front of the first. -/
theorem not_mem_of_cut? {mark : Char} {t before after : Text}
    (h : cut? (· == mark) t = some (before, after)) : mark ∉ before := by
  induction t generalizing before after with
  | nil => exact absurd h (Option.some_ne_none _).symm
  | cons c rest ih =>
    rw [cut?] at h
    split at h
    · obtain ⟨rfl, -⟩ := Prod.mk.inj (Option.some.inj h)
      exact List.not_mem_nil
    · rename_i hc
      obtain ⟨⟨first, second⟩, hcut, heq⟩ := Option.map_eq_some_iff.mp h
      obtain ⟨rfl, -⟩ := Prod.mk.inj heq
      exact List.not_mem_cons_of_ne_of_not_mem (fun hmark => hc (beq_iff_eq.mpr hmark.symm))
        (ih hcut)

/-- There is no last mark if and only if there is no mark. -/
theorem cutLast?_eq_none_iff {mark : Char} {t : Text} :
    cutLast? (· == mark) t = none ↔ mark ∉ t := by
  induction t with
  | nil => exact iff_of_true rfl List.not_mem_nil
  | cons c rest ih =>
    rw [List.mem_cons, not_or, ← ih, cutLast?]
    cases hrest : cutLast? (· == mark) rest with
    | some sides => simp
    | none => by_cases hc : c = mark <;> simp [hc, Ne.symm]

/-- No mark stands behind the last. -/
theorem not_mem_of_cutLast? {mark : Char} {t before after : Text}
    (h : cutLast? (· == mark) t = some (before, after)) : mark ∉ after := by
  induction t generalizing before with
  | nil => exact absurd h (Option.some_ne_none _).symm
  | cons c rest ih =>
    rw [cutLast?] at h
    split at h
    · rename_i first second hcut
      obtain ⟨-, rfl⟩ := Prod.mk.inj (Option.some.inj h)
      exact ih hcut
    · rename_i hrest
      split at h
      · obtain ⟨-, rfl⟩ := Prod.mk.inj (Option.some.inj h)
        exact cutLast?_eq_none_iff.mp hrest
      · exact absurd h (Option.some_ne_none _).symm

/-! ## Cutting what was put together -/

/-- A text is cut at the first mark. -/
theorem cut?_of_not_mem {d : Char} {t : Text} (h : d ∉ t) (rest : Text) :
    cut? (· == d) (t ++ d :: rest) = some (t, rest) := by
  induction t with
  | nil => simp [cut?]
  | cons c t ih =>
    rw [List.mem_cons, not_or] at h
    rw [List.cons_append, cut?, if_neg (by simpa using Ne.symm h.1), ih h.2]
    rfl

/-- Without the mark there is nothing to cut at. -/
theorem cut?_eq_none {d : Char} {t : Text} (h : d ∉ t) : cut? (· == d) t = none := by
  induction t with
  | nil => rfl
  | cons c t ih =>
    rw [List.mem_cons, not_or] at h
    rw [cut?, if_neg (by simpa using Ne.symm h.1), ih h.2]
    rfl

/-- What cannot be cut does not hold the mark. -/
theorem not_mem_of_cut?_eq_none {d : Char} {t : Text} (h : cut? (· == d) t = none) : d ∉ t := by
  intro hd
  obtain ⟨before, after, rfl, hbefore⟩ := List.eq_append_cons_of_mem hd
  rw [cut?_of_not_mem hbefore after] at h
  cases h

/-- A text is cut at the last mark. -/
theorem cutLast?_of_not_mem {d : Char} {t : Text} (h : d ∉ t) (front : Text) :
    cutLast? (· == d) (front ++ d :: t) = some (front, t) := by
  induction front with
  | nil =>
    rw [List.nil_append, cutLast?, cutLast?_eq_none_iff.mpr h]
    exact if_pos (beq_self_eq_true d)
  | cons c front ih => rw [List.cons_append, cutLast?, ih]

/-- The sides of the first mark. -/
theorem cut?_eq_some_iff {mark : Char} {t before after : Text} :
    cut? (· == mark) t = some (before, after) ↔ mark ∉ before ∧ t = before ++ mark :: after := by
  refine ⟨fun h => ⟨not_mem_of_cut? h, ?_⟩, ?_⟩
  · obtain ⟨c, hc, rfl⟩ := eq_of_cut? h
    rw [beq_iff_eq.mp hc]
  · rintro ⟨hbefore, rfl⟩
    exact cut?_of_not_mem hbefore after

/-- The sides of the last mark. -/
theorem cutLast?_eq_some_iff {mark : Char} {t before after : Text} :
    cutLast? (· == mark) t = some (before, after) ↔ mark ∉ after ∧ t = before ++ mark :: after := by
  refine ⟨fun h => ⟨not_mem_of_cutLast? h, ?_⟩, ?_⟩
  · obtain ⟨c, hc, rfl⟩ := eq_of_cutLast? h
    rw [beq_iff_eq.mp hc]
  · rintro ⟨hafter, rfl⟩
    exact cutLast?_of_not_mem hafter before

/-- Without an arrow there is no cut. -/
theorem cutAt?_arrow_eq_none {t : Text} (h : ¬"->".toList <:+: t) :
    cutAt? "->" t = none := by
  induction t with
  | nil => rfl
  | cons c t ih =>
    have hrest : ¬"->".toList <:+: t := fun hrest => h (List.infix_cons hrest)
    have harrow : after? "->" (c :: t) = none := by
      cases hafter : after? "->" (c :: t) with
      | none => rfl
      | some after => exact absurd ⟨[], after, (eq_of_after? hafter).symm⟩ h
    rw [cutAt?, harrow]
    dsimp only
    rw [ih hrest]
    rfl

/-- The first arrow stands behind a text without arrows. -/
theorem cutAt?_arrow {t : Text} (h : ¬"->".toList <:+: t) (rest : Text) :
    cutAt? "->" (t ++ '-' :: '>' :: rest) = some (t, rest) := by
  induction t with
  | nil => rfl
  | cons c t ih =>
    have hrest : ¬"->".toList <:+: t := fun hrest => h (List.infix_cons hrest)
    have harrow : after? "->" (c :: (t ++ '-' :: '>' :: rest)) = none := by
      cases t with
      | nil => by_cases hc : '-' = c <;> simp [after?, hc]
      | cons d t =>
        by_cases hc : '-' = c
        · have hd : '>' ≠ d := by
            rintro rfl
            exact h ⟨[], t, by rw [← hc]; rfl⟩
          simp [after?, hd]
        · simp [after?, hc]
    rw [List.cons_append, cutAt?, harrow]
    dsimp only
    rw [ih hrest]
    rfl

end Smali.Text
