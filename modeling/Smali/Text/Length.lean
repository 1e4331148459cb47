import Smali.Text.Basic

/-!
# What cutting leaves

Trimming, cutting and splitting never make a text longer. Readers that call
themselves on parts of a text end for that reason.
-/

namespace Smali.Text

/-- Trimming keeps or shortens a text. -/
theorem length_trim_le (t : Text) : (trim t).length ≤ t.length := by
  unfold trim trimRight trimLeft
  have h1 := (List.dropWhile_suffix (l := t) isBlank).length_le
  have h2 := (List.dropWhile_suffix (l := (t.dropWhile isBlank).reverse) isBlank).length_le
  simp only [List.length_reverse] at h2 ⊢
  omega

/-- What follows a mark is shorter by the mark. -/
theorem length_after? {mark t rest : Text} (h : after? mark t = some rest) :
    mark.length + rest.length = t.length := by
  induction mark generalizing t with
  | nil => simp only [after?, Option.some.injEq] at h; simp [h]
  | cons m mark ih =>
    cases t with
    | nil => simp [after?] at h
    | cons c t =>
      simp only [after?] at h
      split at h
      · have := ih h
        simp only [List.length_cons]
        omega
      · exact absurd h (by simp)

/-- The two sides of a cut are shorter than the text by the character between them. -/
theorem length_cut? {p : Char → Bool} {t before after : Text}
    (h : cut? p t = some (before, after)) : before.length + after.length + 1 = t.length := by
  induction t generalizing before with
  | nil => simp [cut?] at h
  | cons c t ih =>
    simp only [cut?] at h
    split at h
    · simp only [Option.some.injEq, Prod.mk.injEq] at h
      simp [← h.1, ← h.2]
    · cases hc : cut? p t with
      | none => simp [hc] at h
      | some sides =>
        obtain ⟨b, a⟩ := sides
        simp only [hc, Option.map_some, Option.some.injEq, Prod.mk.injEq] at h
        have : b.length + after.length + 1 = t.length := ih (by rw [hc, h.2])
        simp only [← h.1, List.length_cons]
        omega

/-- The room that lines take, with one line end each. -/
def room : List Text → Nat
  | [] => 0
  | line :: more => line.length + 1 + room more

/-- The lines of a text take at most its own room and one more line end. -/
theorem room_lines_le (t : Text) : room (lines t) ≤ t.length + 1 := by
  fun_induction lines t with
  | case1 => simp [room]
  | case2 rest ih =>
    simp only [room, List.length_cons, List.length_nil] at ih ⊢
    omega
  | case3 rest ih =>
    simp only [room, List.length_cons, List.length_nil] at ih ⊢
    omega
  | case4 c rest _ _ h _ => simp [room]
  | case5 c rest _ _ line more h ih =>
    simp only [room, h, List.length_cons] at ih ⊢
    omega

/-- The lines of a text without their blanks, the empty ones left out. -/
def codeLines (t : Text) : List Text := ((lines t).map trim).filter (!·.isEmpty)

/-- Trimming lines and leaving out empty ones saves room. -/
theorem room_codeLines_le (t : Text) : room (codeLines t) ≤ t.length + 1 := by
  refine Nat.le_trans ?_ (room_lines_le t)
  unfold codeLines
  induction lines t with
  | nil => simp
  | cons line more ih =>
    have h := length_trim_le line
    simp only [List.map_cons, List.filter_cons, room]
    split
    · simp only [room]
      omega
    · omega

end Smali.Text
