import Smali.Proofs.LineWords

/-!
# Flags and their spellings

A list of words is read as the set of the flags that its words name, so neither their order nor how
often a flag is named leaves a trace, and the first word that names no flag is the one that a fault
tells of. The written form of the set falls into the keywords of its flags at the spaces, each of
them once and in the order of writing.
-/

namespace Smali

namespace Access

/-! ## Refused words -/

/-- The words that are refused: one of them names no flag, and all before it do. -/
theorem addKeywords_eq_error_iff {a : Access} {words : List Text} {word : Text} :
    addKeywords a words = .error word ↔ ∃ before after, words = before ++ word :: after ∧
      (∀ w ∈ before, Flag.IsKeyword w) ∧ ¬Flag.IsKeyword word := by
  induction words generalizing a with
  | nil => simp [addKeywords]
  | cons first more ih =>
    cases hfind : Flag.ofKeyword? first with
    | none =>
      have hfirst := Flag.ofKeyword?_eq_none_iff.mp hfind
      rw [addKeywords, hfind]
      constructor
      · rintro ⟨⟩
        exact ⟨[], more, rfl, List.forall_mem_nil _, hfirst⟩
      · rintro ⟨before, after, h, hbefore, -⟩
        cases before with
        | nil => exact congrArg Except.error (List.cons.inj h).1
        | cons w before =>
          exact absurd ((List.cons.inj h).1 ▸ hbefore w List.mem_cons_self) hfirst
    | some g =>
      have hfirst : Flag.IsKeyword first :=
        Flag.isKeyword_iff.mpr ⟨g, Flag.ofKeyword?_eq_some_iff.mp hfind⟩
      rw [addKeywords, hfind, ih]
      constructor
      · rintro ⟨before, after, rfl, hbefore, hword⟩
        exact ⟨first :: before, after, rfl, List.forall_mem_cons.mpr ⟨hfirst, hbefore⟩, hword⟩
      · rintro ⟨before, after, h, hbefore, hword⟩
        cases before with
        | nil => exact absurd ((List.cons.inj h).1 ▸ hfirst) hword
        | cons w before =>
          exact ⟨before, after, (List.cons.inj h).2, (List.forall_mem_cons.mp hbefore).2, hword⟩

/-- A list of words that is refused is refused for the first word that names no flag. -/
theorem exists_unknown_of_error {words : List Text} {fault : Fault}
    (h : ofKeywords words = .error fault) : ∃ before word after,
      words = before ++ word :: after ∧ (∀ w ∈ before, Flag.IsKeyword w) ∧
        ¬Flag.IsKeyword word ∧ fault = .plain .grammar ("unknown access flag '" ++ word ++ "'") := by
  unfold ofKeywords at h
  cases hadd : addKeywords none words with
  | ok a =>
    rw [hadd] at h
    exact absurd h nofun
  | error word =>
    rw [hadd] at h
    obtain ⟨before, after, hwords, hbefore, hword⟩ := addKeywords_eq_error_iff.mp hadd
    exact ⟨before, word, after, hwords, hbefore, hword, (Except.error.inj h).symm⟩

/-! ## The written form -/

/-- At each of its spaces the written form of a set falls into the keywords, unless it is empty. -/
theorem splitOn_render {a : Access} (ha : a.keywords ≠ []) : a.render.splitOn ' ' = a.keywords :=
  List.splitOn_intercalate ' '
    (fun _ hw hspace => Bool.noConfusion ((isWord_of_mem_keywords hw).word ' ' hspace)) ha

/-- A set is what a list of words spells. -/
structure Spelled (words : List Text) (a : Access) : Prop where
  /-- It has the flags that the words name. -/
  has_iff : ∀ f, a.has f = true ↔ Names words f
  /-- Any other words for the same flags are read as the set as well. -/
  same : ∀ others, (∀ word ∈ others, Flag.IsKeyword word) →
    (∀ f, Names others f ↔ Names words f) → ofKeywords others = .ok a
  /-- So are the same words in another order, or repeated. -/
  reordered : ∀ others, (∀ word, word ∈ others ↔ word ∈ words) → ofKeywords others = .ok a
  /-- Its keywords stand in the order of writing. -/
  sublist : a.keywords.Sublist (Flag.all.map Flag.keyword)
  /-- Each named flag has its keyword among them once, and no other flag has. -/
  once : a.keywords.Nodup ∧ ∀ f : Flag, f.keyword ∈ a.keywords ↔ Names words f
  /-- Its keywords are read as the set again. -/
  again : ofKeywords a.keywords = .ok a
  /-- Its written form falls into them at the spaces. -/
  words_render : Text.words a.render = a.keywords ∧
    (a.keywords ≠ [] → a.render.splitOn ' ' = a.keywords)

/-- What words are read as is what they spell. -/
theorem spelled_of_ofKeywords {words : List Text} {a : Access} (h : ofKeywords words = .ok a) :
    Spelled words a := by
  obtain ⟨hwords, hhas⟩ := ofKeywords_eq_ok_iff.mp h
  have hsame : ∀ others, (∀ word ∈ others, Flag.IsKeyword word) →
      (∀ f, Names others f ↔ Names words f) → ofKeywords others = .ok a := fun others hothers hf =>
    ofKeywords_eq_ok_iff.mpr ⟨hothers, fun f => (hhas f).trans (hf f).symm⟩
  exact {
    has_iff := hhas
    same := hsame
    reordered := fun others hmem => hsame others (fun word hword => hwords word ((hmem word).mp hword))
      fun f => exists_congr fun word => and_congr_left fun _ => hmem word
    sublist := keywords_sublist a
    once := ⟨nodup_keywords a, fun f => keyword_mem_keywords.trans (hhas f)⟩
    again := ofKeywords_keywords a
    words_render := ⟨Text.words_intercalate fun _ => isWord_of_mem_keywords, splitOn_render⟩ }

/-- A list of words is read if and only if all of them name flags. The result is the set that they
spell; otherwise the fault tells of the first word that names no flag. -/
theorem ofKeywords_spelled (words : List Text) :
    ((∃ a, ofKeywords words = .ok a) ↔ ∀ word ∈ words, Flag.IsKeyword word) ∧
      (∀ a, ofKeywords words = .ok a → Spelled words a) ∧
        ∀ fault, ofKeywords words = .error fault → ∃ before word after,
          words = before ++ word :: after ∧ (∀ w ∈ before, Flag.IsKeyword w) ∧
            ¬Flag.IsKeyword word ∧
              fault = .plain .grammar ("unknown access flag '" ++ word ++ "'") := by
  refine ⟨⟨fun ⟨a, ha⟩ => (ofKeywords_eq_ok_iff.mp ha).1, fun hwords => ?_⟩,
    fun a => spelled_of_ofKeywords, fun fault => exists_unknown_of_error⟩
  cases hread : ofKeywords words with
  | ok a => exact ⟨a, rfl⟩
  | error fault =>
    obtain ⟨before, word, after, rfl, -, hword, -⟩ := exists_unknown_of_error hread
    exact absurd (hwords word (List.mem_append_right _ List.mem_cons_self)) hword

/-- Flags out of order, one of them twice and one in its older spelling. -/
example : ofKeywords ["strict".toList, "final".toList, "public".toList, "strictfp".toList] =
    ofKeywords ["public".toList, "final".toList, "strictfp".toList] := by decide

end Access

end Smali
