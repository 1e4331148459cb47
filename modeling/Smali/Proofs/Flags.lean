import Mathlib.Data.List.Basic
import Smali.Access

/-!
# Flags

A set of flags has one bit for each flag, and each flag has a keyword: no two flags share a bit or a
keyword. One flag has an older spelling besides. A list of words is read as the set of the flags that
its words name. A set is written with the keywords of its flags in the order of their bits, and it is
read from them.
-/

namespace Smali

namespace Flag

/-- A flag is found by its keyword. -/
theorem ofKeyword?_keyword (f : Flag) : ofKeyword? f.keyword = some f := by
  cases f <;> rfl

/-- No two flags share a bit. -/
theorem index_inj {f g : Flag} : f.index = g.index ↔ f = g := by
  refine ⟨fun h => ?_, congrArg index⟩
  have hfind : ∀ f : Flag, all[f.index]? = some f := by
    intro f
    cases f <;> rfl
  exact Option.some.inj ((hfind f).symm.trans (h ▸ hfind g))

/-- Every flag has a bit. -/
theorem index_lt (f : Flag) : f.index < 19 := by
  cases f <;> decide

/-- Every bit belongs to a flag. -/
theorem exists_index {i : Nat} (hi : i < 19) : ∃ f : Flag, f.index = i := by
  have hall : ∀ i < 19, ∃ f ∈ all, f.index = i := by decide
  obtain ⟨f, -, hf⟩ := hall i hi
  exact ⟨f, hf⟩

/-- The list of all flags has every flag. -/
theorem mem_all (f : Flag) : f ∈ all := by
  cases f <;> decide

/-- A word names a flag: it is the keyword of the flag, or the older spelling `strict`. -/
def IsNamed (f : Flag) (word : Text) : Prop :=
  word = f.keyword ∨ word = "strict".toList ∧ f = .isStrictfp

/-- The words that name flags: the keywords of all flags, and `strict`. -/
def IsKeyword (word : Text) : Prop := word ∈ all.map keyword ∨ word = "strict".toList

/-- These are the words that name some flag. -/
theorem isKeyword_iff {word : Text} : IsKeyword word ↔ ∃ f : Flag, f.IsNamed word := by
  constructor
  · rintro (hmem | rfl)
    · obtain ⟨f, -, rfl⟩ := List.mem_map.mp hmem
      exact ⟨f, .inl rfl⟩
    · exact ⟨.isStrictfp, .inr ⟨rfl, rfl⟩⟩
  · rintro ⟨f, rfl | ⟨rfl, -⟩⟩
    · exact .inl (List.mem_map_of_mem f.mem_all)
    · exact .inr rfl

/-- No two flags share a keyword. -/
theorem keyword_injective : Function.Injective keyword := fun f g h =>
  Option.some.inj ((ofKeyword?_keyword f).symm.trans (h ▸ ofKeyword?_keyword g))

/-- A word is looked up as the flag that it names. -/
theorem ofKeyword?_eq_some_iff {word : Text} {f : Flag} :
    ofKeyword? word = some f ↔ f.IsNamed word := by
  constructor
  · intro h
    unfold ofKeyword? at h
    split at h
    · next hstrict => exact .inr ⟨hstrict, (Option.some.inj h).symm⟩
    · have hfound := List.find?_some h
      exact .inl (of_decide_eq_true hfound).symm
  · rintro (rfl | ⟨rfl, rfl⟩)
    · exact ofKeyword?_keyword f
    · rfl

/-- A word that is not found names no flag. -/
theorem ofKeyword?_eq_none_iff {word : Text} : ofKeyword? word = none ↔ ¬IsKeyword word := by
  rw [Option.eq_none_iff_forall_ne_some, isKeyword_iff, not_exists]
  exact forall_congr' fun f => not_congr ofKeyword?_eq_some_iff

/-- The flags stand once each in the list of all flags. -/
theorem nodup_all : all.Nodup := by decide

end Flag

namespace Access

/-! ## Sets -/

/-- Sets with the same flags are equal. -/
theorem ext_has {a b : Access} (h : ∀ f, a.has f = b.has f) : a = b := by
  refine congrArg Access.mk (BitVec.eq_of_getLsbD_eq fun i hi => ?_)
  obtain ⟨f, rfl⟩ := Flag.exists_index hi
  exact h f

/-- No flag is in the empty set. -/
@[simp]
theorem has_none (f : Flag) : none.has f = false := BitVec.getLsbD_zero

/-- A flag is in the union of two sets if it is in one of them. -/
@[simp]
theorem has_union (a b : Access) (f : Flag) : (a.union b).has f = (a.has f || b.has f) :=
  BitVec.getLsbD_or

/-- The set of one flag has that flag only. -/
@[simp]
theorem has_single (f g : Flag) : (single f).has g = decide (f = g) := by
  rw [single, has, BitVec.getLsbD_twoPow]
  simp [f.index_lt, Flag.index_inj]

/-! ## Words as sets -/

/-- A flag is named in a list of words. -/
def Names (words : List Text) (f : Flag) : Prop := ∃ word ∈ words, f.IsNamed word

/-- What words are read as: the flags that were there before, and those that the words name. -/
theorem addKeywords_eq_ok_iff {a b : Access} {words : List Text} :
    addKeywords a words = .ok b ↔ (∀ word ∈ words, Flag.IsKeyword word) ∧
      ∀ f, b.has f = true ↔ a.has f = true ∨ Names words f := by
  induction words generalizing a with
  | nil =>
    refine ⟨?_, fun h => congrArg Except.ok (ext_has fun f => ?_)⟩
    · rintro ⟨⟩
      exact ⟨List.forall_mem_nil _, fun f => by simp [Names]⟩
    · rw [Bool.eq_iff_iff, h.2 f]
      simp [Names]
  | cons word more ih =>
    cases hfind : Flag.ofKeyword? word with
    | none =>
      rw [addKeywords, hfind]
      refine iff_of_false (by simp) fun h => ?_
      exact Flag.ofKeyword?_eq_none_iff.mp hfind (h.1 word List.mem_cons_self)
    | some g =>
      have hkeyword : Flag.IsKeyword word :=
        Flag.isKeyword_iff.mpr ⟨g, Flag.ofKeyword?_eq_some_iff.mp hfind⟩
      have honly : ∀ f : Flag, f.IsNamed word ↔ g = f := fun f => by
        rw [← Flag.ofKeyword?_eq_some_iff, hfind, Option.some.injEq]
      rw [addKeywords, hfind, ih, List.forall_mem_cons, and_iff_right hkeyword]
      refine and_congr_right fun _ => forall_congr' fun f => ?_
      simp [Names, honly, or_assoc]

/-- Words are read as the set of the flags that they name, if each of them names one. -/
theorem ofKeywords_eq_ok_iff {words : List Text} {a : Access} :
    ofKeywords words = .ok a ↔ (∀ word ∈ words, Flag.IsKeyword word) ∧
      ∀ f, a.has f = true ↔ Names words f := by
  have hadd : ofKeywords words = .ok a ↔ addKeywords none words = .ok a := by
    unfold ofKeywords
    cases addKeywords none words <;> simp [Except.mapError]
  rw [hadd, addKeywords_eq_ok_iff]
  simp

/-! ## The written form -/

/-- The keywords of a set are those of its flags. -/
theorem keyword_mem_keywords {a : Access} {f : Flag} : f.keyword ∈ a.keywords ↔ a.has f = true := by
  rw [keywords, List.mem_map_of_injective Flag.keyword_injective, List.mem_filter,
    and_iff_right f.mem_all]

/-- No keyword of a set stands twice. -/
theorem nodup_keywords (a : Access) : a.keywords.Nodup :=
  List.Pairwise.map _ (fun _ _ hne heq => hne (Flag.keyword_injective heq))
    (List.Pairwise.filter _ Flag.nodup_all)

/-- The keywords of a set keep the order of all keywords. -/
theorem keywords_sublist (a : Access) : a.keywords.Sublist (Flag.all.map Flag.keyword) :=
  List.filter_sublist.map _

/-- A set is read from its keywords. -/
theorem ofKeywords_keywords (a : Access) : ofKeywords a.keywords = .ok a := by
  have hwords : ∀ word ∈ a.keywords, word ∈ Flag.all.map Flag.keyword :=
    fun _ hword => (keywords_sublist a).subset hword
  refine ofKeywords_eq_ok_iff.mpr ⟨fun word hword => .inl (hwords word hword), fun f => ?_⟩
  rw [← keyword_mem_keywords]
  refine ⟨fun hf => ⟨f.keyword, hf, .inl rfl⟩, ?_⟩
  rintro ⟨word, hword, rfl | ⟨rfl, -⟩⟩
  · exact hword
  · exact absurd (hwords _ hword) (by decide)

/-- Only the empty set has no keywords. -/
theorem keywords_eq_nil {a : Access} : a.keywords = [] ↔ a.isEmpty = true := by
  rw [isEmpty, beq_iff_eq]
  constructor
  · intro h
    have hread := ofKeywords_keywords a
    rw [h] at hread
    exact (Except.ok.inj hread).symm
  · rintro rfl
    rfl

end Access

end Smali
