import Mathlib.Data.List.TakeWhile
import Smali.Text.Length

/-!
# Blanks at the ends of texts

Trimming takes away the blanks at both ends of a text and nothing else. So blanks that are
put around a text do not matter to what is left of it, and a text without blanks at its ends
stays as it is.
-/

namespace Smali.Text

/-- Nothing but blanks. -/
def IsBlank (t : Text) : Prop := ∀ c ∈ t, isBlank c = true

@[simp]
theorem isBlank_nil : IsBlank [] := fun _ h => absurd h List.not_mem_nil

theorem isBlank_cons {c : Char} {t : Text} : IsBlank (c :: t) ↔ isBlank c = true ∧ IsBlank t :=
  List.forall_mem_cons

theorem isBlank_append {t u : Text} : IsBlank (t ++ u) ↔ IsBlank t ∧ IsBlank u :=
  List.forall_mem_append

/-- Blanks at the start are left out. -/
theorem dropWhile_isBlank_append {w : Text} (hw : IsBlank w) (t : Text) :
    (w ++ t).dropWhile isBlank = t.dropWhile isBlank := by
  induction w with
  | nil => rfl
  | cons c w ih =>
    obtain ⟨hc, hw⟩ := isBlank_cons.mp hw
    rw [List.cons_append, List.dropWhile_cons_of_pos hc, ih hw]

/-- A text is blank if nothing is left of it. -/
theorem dropWhile_isBlank_eq_nil {t : Text} : t.dropWhile isBlank = [] ↔ IsBlank t :=
  List.dropWhile_eq_nil_iff

theorem isBlank_reverse {t : Text} : IsBlank t.reverse ↔ IsBlank t :=
  forall_congr' fun _ => by rw [List.mem_reverse]

/-- Blanks at the start do not matter. -/
theorem trim_append_left {w : Text} (hw : IsBlank w) (t : Text) : trim (w ++ t) = trim t := by
  rw [trim, trimLeft, dropWhile_isBlank_append hw]
  rfl

/-- Blanks at the end do not matter to what ends a text. -/
theorem trimRight_append {w : Text} (hw : IsBlank w) (t : Text) :
    trimRight (t ++ w) = trimRight t := by
  rw [trimRight, List.reverse_append, dropWhile_isBlank_append (isBlank_reverse.mpr hw)]
  rfl

/-- What ends a text is left out of a part of it already. -/
theorem trimRight_append_trimRight (t u : Text) :
    trimRight (t ++ trimRight u) = trimRight (t ++ u) := by
  have hsplit : u = trimRight u ++ (u.reverse.takeWhile isBlank).reverse := by
    rw [trimRight, ← List.reverse_append, List.takeWhile_append_dropWhile, List.reverse_reverse]
  have hblank : IsBlank (u.reverse.takeWhile isBlank).reverse :=
    isBlank_reverse.mpr fun c hc => List.mem_takeWhile_imp hc
  calc trimRight (t ++ trimRight u)
      = trimRight (t ++ trimRight u ++ (u.reverse.takeWhile isBlank).reverse) :=
        (trimRight_append hblank _).symm
    _ = trimRight (t ++ u) := by rw [List.append_assoc, ← hsplit]

/-- A text is blank if nothing is left of it. -/
theorem trimRight_eq_nil {t : Text} : trimRight t = [] ↔ IsBlank t := by
  rw [trimRight, List.reverse_eq_nil_iff, dropWhile_isBlank_eq_nil, isBlank_reverse]

theorem isBlank_trimLeft {t : Text} : IsBlank (trimLeft t) ↔ IsBlank t := by
  constructor
  · intro h
    have hsplit := List.takeWhile_append_dropWhile (p := isBlank) (l := t)
    rw [← hsplit]
    exact isBlank_append.mpr ⟨fun c hc => List.mem_takeWhile_imp hc, h⟩
  · intro h
    rw [trimLeft, dropWhile_isBlank_eq_nil.mpr h]
    exact isBlank_nil

/-- Nothing is left of a blank text alone. -/
theorem trim_eq_nil {t : Text} : trim t = [] ↔ IsBlank t := by
  rw [trim, trimRight_eq_nil, isBlank_trimLeft]

/-- Blanks at the end do not matter. -/
theorem trim_append_right {w : Text} (hw : IsBlank w) (t : Text) : trim (t ++ w) = trim t := by
  by_cases ht : IsBlank t
  · rw [trim_eq_nil.mpr ht, trim_eq_nil.mpr (isBlank_append.mpr ⟨ht, hw⟩)]
  · have hne : (t.dropWhile isBlank).isEmpty = false := by
      rw [Bool.eq_false_iff, ne_eq, List.isEmpty_iff, dropWhile_isBlank_eq_nil]
      exact ht
    rw [trim, trimLeft, List.dropWhile_append, hne, if_neg Bool.false_ne_true,
      trimRight_append hw]
    rfl

/-- What ends a text does not matter to what is left of it. -/
theorem trim_trimRight (t : Text) : trim (trimRight t) = trim t := by
  have hsplit : trimRight t ++ (t.reverse.takeWhile isBlank).reverse = t := by
    rw [trimRight, ← List.reverse_append, List.takeWhile_append_dropWhile, List.reverse_reverse]
  have hblank : IsBlank (t.reverse.takeWhile isBlank).reverse :=
    isBlank_reverse.mpr fun c hc => List.mem_takeWhile_imp hc
  rw [← trim_append_right hblank, hsplit]

/-- A text is what is left of it, with the blanks at its ends. -/
theorem exists_trim (t : Text) : ∃ before after, IsBlank before ∧ IsBlank after ∧
    t = before ++ (trim t ++ after) := by
  refine ⟨t.takeWhile isBlank, ((trimLeft t).reverse.takeWhile isBlank).reverse,
    fun c hc => List.mem_takeWhile_imp hc,
    isBlank_reverse.mpr fun c hc => List.mem_takeWhile_imp hc, ?_⟩
  rw [trim, trimRight, ← List.reverse_append, List.takeWhile_append_dropWhile,
    List.reverse_reverse]
  exact List.takeWhile_append_dropWhile.symm

/-- Blanks at the end of a text are those at the end of a part of it. -/
theorem trimRight_append_of_last {t : Text} (ht : ∀ c ∈ t.getLast?, isBlank c = false) (u : Text) :
    trimRight (t ++ u) = t ++ trimRight u := by
  have hself : t.reverse.dropWhile isBlank = t.reverse := by
    cases hr : t.reverse with
    | nil => rfl
    | cons c rest =>
      have hlast : t.getLast? = some c := by rw [List.getLast?_eq_head?_reverse, hr]; rfl
      exact List.dropWhile_cons_of_neg (by simp [ht c hlast])
  rw [trimRight, List.reverse_append, List.dropWhile_append, hself]
  by_cases hu : IsBlank u
  · have hnil := dropWhile_isBlank_eq_nil.mpr (isBlank_reverse.mpr hu)
    rw [hnil, trimRight_eq_nil.mpr hu]
    simp
  · have hne : (u.reverse.dropWhile isBlank).isEmpty = false := by
      rw [Bool.eq_false_iff, ne_eq, List.isEmpty_iff, dropWhile_isBlank_eq_nil, isBlank_reverse]
      exact hu
    rw [hne, if_neg Bool.false_ne_true, List.reverse_append, List.reverse_reverse]
    rfl

/-! ## Trimmed texts -/

/-- No blank at either end. -/
def IsTrimmed (t : Text) : Prop :=
  (∀ c ∈ t.head?, isBlank c = false) ∧ ∀ c ∈ t.getLast?, isBlank c = false

/-- A text whose first and last characters have been looked at. -/
theorem isTrimmed_of_ends {t : Text} {first last : Char} (hfirst : t.head? = some first)
    (hlast : t.getLast? = some last) (hblank : isBlank first = false)
    (hblank' : isBlank last = false) : IsTrimmed t :=
  ⟨fun _ hc => Option.some.inj (hfirst.symm.trans hc) ▸ hblank,
    fun _ hc => Option.some.inj (hlast.symm.trans hc) ▸ hblank'⟩

/-- A trimmed text stays as it is. -/
theorem IsTrimmed.trim_eq {t : Text} (h : IsTrimmed t) : trim t = t := by
  have hleft : trimLeft t = t := by
    cases t with
    | nil => rfl
    | cons c t => exact List.dropWhile_cons_of_neg (by simp [h.1 c rfl])
  rw [trim, hleft, trimRight]
  cases hr : t.reverse with
  | nil => rw [List.reverse_eq_nil_iff.mp hr]; rfl
  | cons c u =>
    have hlast : t.getLast? = some c := by rw [List.getLast?_eq_head?_reverse, hr]; rfl
    rw [List.dropWhile_cons_of_neg (by simp [h.2 c hlast]), ← hr, List.reverse_reverse]

/-- What is left of a text has no blanks at its ends. -/
theorem isTrimmed_trim (t : Text) : IsTrimmed (trim t) := by
  constructor
  · intro c hc
    have hhead : (trim t).head? = (trimLeft t).head? := by
      obtain ⟨after, hafter⟩ : ∃ after, trimLeft t = trim t ++ after := by
        refine ⟨((trimLeft t).reverse.takeWhile isBlank).reverse, ?_⟩
        rw [trim, trimRight, ← List.reverse_append, List.takeWhile_append_dropWhile,
          List.reverse_reverse]
      cases ht : trim t with
      | nil => rw [ht] at hc; exact absurd hc (Option.not_mem_none c)
      | cons d u => rw [hafter, ht]; rfl
    rw [hhead, trimLeft] at hc
    exact Bool.eq_false_iff.mpr fun hb => by
      have := List.head?_dropWhile_not isBlank t
      rw [hc] at this
      simp [hb] at this
  · intro c hc
    rw [trim, trimRight, List.getLast?_reverse] at hc
    have := List.head?_dropWhile_not isBlank (trimLeft t).reverse
    rw [hc] at this
    simpa using this

@[simp]
theorem trim_trim (t : Text) : trim (trim t) = trim t := (isTrimmed_trim t).trim_eq

end Smali.Text
