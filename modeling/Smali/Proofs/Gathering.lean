import Smali.Proofs.ReadableValues
import Smali.Proofs.TightTexts

/-!
# Gathering values

The value of an element takes all lines up to the one that ends it: the line that closes the
annotation which the first line opens, or the line where the array which it opens is back at depth
zero. So the lines of an annotation that is closed fall apart into the lines of its elements, and
what stands behind the closing line is left over.
-/

namespace Smali.Literal

open Text

/-! ## Ends -/

/-- Whether the last of the lines, and none before it, closes the annotations that are open. -/
def closesLast : Nat → List Text → Bool
  | _, [] => false
  | count, line :: rest =>
    if opensAnnotation line then closesLast (count + 1) rest
    else if closesAnnotation line then
      if count ≤ 1 then rest.isEmpty else closesLast (count - 1) rest
    else closesLast count rest

/-- Whether the last of the lines, and none before it, takes the depth back to zero. -/
def levelsLast : Int → List Text → Bool
  | _, [] => false
  | depth, line :: rest =>
    if depth + braceDepth line ≤ 0 then rest.isEmpty else levelsLast (depth + braceDepth line) rest

/-- Whether a value that starts with a line ends with the last of the lines behind it. -/
def isGathered (first : Text) (rest : List Text) : Bool :=
  if opensAnnotation first then closesLast 1 rest
  else if first.head? = some '\x7b' ∧ 0 < braceDepth first then levelsLast (braceDepth first) rest
  else rest.isEmpty

section Outline

variable (type name : Text)

/-- Inside annotations an element takes the lines up to the one that closes them. -/
theorem outline_of_closesLast {count : Nat} {ls : List Text} (h : closesLast count ls = true)
    (value : Text) (more : List Text) :
    outline type (.nested name value count) (ls ++ more) =
      (outline type .none more).add name (below value ls) := by
  induction ls generalizing count value with
  | nil => exact absurd h Bool.false_ne_true
  | cons line ls ih =>
    rw [closesLast] at h
    rw [List.cons_append, outline, below_cons]
    split at h
    · rename_i hopens
      rw [if_pos hopens]
      exact ih h _
    · rename_i hopens
      rw [if_neg hopens]
      split at h
      · rename_i hcloses
        rw [if_pos hcloses]
        split at h
        · rename_i hcount
          rw [if_pos hcount, List.isEmpty_iff.mp h]
          simp [below]
        · rename_i hcount
          rw [if_neg hcount]
          exact ih h _
      · rename_i hcloses
        rw [if_neg hcloses]
        exact ih h _

/-- Inside an array an element takes the lines up to the one that ends it. -/
theorem outline_of_levelsLast {depth : Int} {ls : List Text} (h : levelsLast depth ls = true)
    (value : Text) (more : List Text) :
    outline type (.braces name value depth) (ls ++ more) =
      (outline type .none more).add name (below value ls) := by
  induction ls generalizing depth value with
  | nil => exact absurd h Bool.false_ne_true
  | cons line ls ih =>
    rw [levelsLast] at h
    rw [List.cons_append, outline, below_cons]
    split at h
    · rename_i hdepth
      rw [if_pos hdepth, List.isEmpty_iff.mp h]
      simp [below]
    · rename_i hdepth
      rw [if_neg hdepth]
      exact ih h _

variable {type name}

/-- An annotation without a flaw closes the annotations in it. -/
theorem exists_closesLast {count : Nat} {value : Text} {ls : List Text}
    (h : (outline type (.nested name value count) ls).flaw = none) :
    ∃ done more, ls = done ++ more ∧ closesLast count done = true := by
  induction ls generalizing count value with
  | nil => cases h
  | cons line ls ih =>
    have hstep : ∀ {next : Nat} {text : Text},
        (outline type (.nested name text next) ls).flaw = none →
        (∀ done, closesLast count (line :: done) = closesLast next done) →
          ∃ done more, line :: ls = done ++ more ∧ closesLast count done = true := by
      intro next text hflaw hnext
      obtain ⟨done, more, rfl, hdone⟩ := ih hflaw
      exact ⟨line :: done, more, rfl, (hnext done).trans hdone⟩
    rw [outline] at h
    split at h
    · rename_i hopens
      exact hstep h fun done => by rw [closesLast, if_pos hopens]
    · rename_i hopens
      split at h
      · rename_i hcloses
        split at h
        · rename_i hcount
          refine ⟨[line], ls, rfl, ?_⟩
          rw [closesLast, if_neg hopens, if_pos hcloses, if_pos hcount]
          rfl
        · rename_i hcount
          exact hstep h fun done => by
            rw [closesLast, if_neg hopens, if_pos hcloses, if_neg hcount]
      · rename_i hcloses
        exact hstep h fun done => by rw [closesLast, if_neg hopens, if_neg hcloses]

/-- It ends the arrays in it. -/
theorem exists_levelsLast {depth : Int} {value : Text} {ls : List Text}
    (h : (outline type (.braces name value depth) ls).flaw = none) :
    ∃ done more, ls = done ++ more ∧ levelsLast depth done = true := by
  induction ls generalizing depth value with
  | nil => cases h
  | cons line ls ih =>
    rw [outline] at h
    split at h
    · rename_i hdepth
      refine ⟨[line], ls, rfl, ?_⟩
      rw [levelsLast, if_pos hdepth]
      rfl
    · rename_i hdepth
      obtain ⟨done, more, rfl, hdone⟩ := ih h
      refine ⟨line :: done, more, rfl, ?_⟩
      rw [levelsLast, if_neg hdepth]
      exact hdone

/-! ## Elements -/

/-- An element takes its lines and no others. -/
theorem outline_of_isGathered {line before after : Text} {ls : List Text} (hline : line ≠ closing)
    (hcut : Text.cut? (· == '=') line = some (before, after))
    (h : isGathered (trim after) ls = true) (more : List Text) :
    outline type .none (line :: (ls ++ more)) =
      (outline type .none more).add (trim before) (below (trim after) ls) := by
  rw [isGathered] at h
  rw [outline, if_neg hline, hcut]
  dsimp only
  split at h
  · rename_i hopens
    rw [if_pos hopens]
    exact outline_of_closesLast type _ h _ more
  · rename_i hopens
    rw [if_neg hopens]
    split at h
    · rename_i hbraces
      rw [if_pos hbraces]
      exact outline_of_levelsLast type _ h _ more
    · rename_i hbraces
      rw [if_neg hbraces, List.isEmpty_iff.mp h]
      simp [below]

end Outline

/-- The names and the texts of the elements that stand on the lines of a closed annotation. -/
inductive Outlines : List Text → List (Text × Text) → Prop
  /-- The closing line, and what is left over. -/
  | closing (rest : List Text) : Outlines (closing :: rest) []
  /-- The lines of an element. -/
  | element {line before after : Text} {ls more : List Text} {texts : List (Text × Text)}
      (within : line ≠ Literal.closing) (cut : Text.cut? (· == '=') line = some (before, after))
      (gathered : isGathered (trim after) ls = true) (rest : Outlines more texts) :
      Outlines (line :: (ls ++ more)) ((trim before, below (trim after) ls) :: texts)

/-- An outline without a flaw is that of a closed annotation. -/
theorem outline_eq_iff {type : Text} {ls : List Text} {texts : List (Text × Text)} :
    outline type .none ls = ⟨texts, none⟩ ↔ Outlines ls texts := by
  constructor
  · intro h
    generalize hlength : ls.length = n
    induction n using Nat.strong_induction_on generalizing ls texts with
    | _ n ih =>
      have hflaw := congrArg Outline.flaw h
      cases ls with
      | nil => cases hflaw
      | cons line rest =>
        by_cases hline : line = closing
        · rw [hline, outline, if_pos rfl] at h
          cases h
          exact hline ▸ .closing rest
        · cases hcut : Text.cut? (· == '=') line with
          | none =>
            rw [outline, if_neg hline, hcut] at hflaw
            cases hflaw
          | some sides =>
            obtain ⟨before, after⟩ := sides
            have hsplit : ∃ done more, rest = done ++ more ∧
                isGathered (trim after) done = true := by
              rw [outline, if_neg hline, hcut] at hflaw
              dsimp only at hflaw
              simp only [isGathered]
              split at hflaw
              · rename_i hopens
                simp only [if_pos hopens]
                exact exists_closesLast hflaw
              · rename_i hopens
                simp only [if_neg hopens]
                split at hflaw
                · rename_i hbraces
                  simp only [if_pos hbraces]
                  exact exists_levelsLast hflaw
                · rename_i hbraces
                  simp only [if_neg hbraces]
                  exact ⟨[], rest, rfl, rfl⟩
            obtain ⟨done, more, rfl, hdone⟩ := hsplit
            rw [outline_of_isGathered hline hcut hdone] at h
            cases hmore : outline type .none more with
            | mk inner flaw =>
              rw [hmore] at h
              cases h
              have hshorter : more.length < n := by
                rw [← hlength, List.length_cons, List.length_append]
                omega
              exact .element hline hcut hdone (ih more.length hshorter hmore rfl)
  · intro h
    induction h with
    | closing rest => rw [outline, if_pos rfl]
    | element hline hcut hdone _ ih =>
      rw [outline_of_isGathered hline hcut hdone, ih]
      rfl

end Smali.Literal
