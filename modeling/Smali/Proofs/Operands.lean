import Smali.Proofs.Blanks
import Smali.Proofs.Inline
import Smali.Proofs.Places
import Smali.Reader.Arguments

/-!
# Operands of lines

Where the operands stand that are read from the arguments of a line. Each way to read operands is
turned around once: a register is a part of the arguments without blanks, and behind a keyword or up
to a comma it is all that stands there; a type ends at a comma; the labels of a handler stand at the
end of the arguments with some blanks between them.
-/

namespace Smali

open Text

/-! ## Texts that are operands -/

/-- A text that can stand for a register. -/
structure Text.IsOperand (t : Text) : Prop where
  /-- It is not empty. -/
  ne_nil : t ≠ []
  /-- There are no blanks in it. -/
  isBlank : ∀ c ∈ t, Text.isBlank c = false

/-- It is what passes the check of a register. -/
theorem Text.isOperand_iff {t : Text} : t.IsOperand ↔ (t.isEmpty || hasBlank t) = false := by
  rw [Bool.or_eq_false_iff, List.isEmpty_eq_false_iff, hasBlank, List.any_eq_false]
  exact ⟨fun h => ⟨h.ne_nil, fun c hc => by simp [h.isBlank c hc]⟩,
    fun h => ⟨h.1, fun c hc => Bool.eq_false_iff.mpr (h.2 c hc)⟩⟩

/-- There are no blanks around it. -/
theorem Text.IsOperand.isTrimmed {t : Text} (h : t.IsOperand) : IsTrimmed t :=
  ⟨fun c hc => h.isBlank c (List.mem_of_mem_head? hc),
    fun c hc => h.isBlank c (List.mem_of_getLast? hc)⟩

/-- A text that can stand for the label of a handler. -/
structure Text.IsLabel (name : Text) : Prop where
  /-- It is not empty. -/
  ne_nil : name ≠ []
  /-- It has characters of labels only. -/
  chars : ∀ c ∈ name, Line.isLabelChar c = true

/-- There are no blanks in a label. -/
theorem Text.IsLabel.isOperand {name : Text} (h : name.IsLabel) : name.IsOperand where
  ne_nil := h.ne_nil
  isBlank c hc := by
    have hchar := (Bool.and_eq_true_iff.mp (h.chars c hc)).1
    simpa using hchar

/-! ## The blanks between labels -/

/-- The blanks between the labels of a handler. -/
structure LabelGaps where
  /-- Behind the opening brace. -/
  opening : Text
  /-- In front of the two points. -/
  before : Text
  /-- Behind the two points. -/
  behind : Text
  /-- In front of the closing brace. -/
  closing : Text
  /-- In front of the label of the handler. -/
  outside : Text

namespace LabelGaps

/-- The labels of a handler with blanks between them. -/
def fill (g : LabelGaps) (first last handler : Text) : Text :=
  '\x7b' :: (g.opening ++ ':' :: (first ++ (g.before ++ '.' :: '.' :: (g.behind ++
    ':' :: (last ++ (g.closing ++ '\x7d' :: (g.outside ++ ':' :: handler)))))))

/-- The labels are parts of it. -/
theorem subset_fill (g : LabelGaps) (first last handler : Text) :
    first ⊆ g.fill first last handler ∧ last ⊆ g.fill first last handler ∧
      handler ⊆ g.fill first last handler := by
  refine ⟨fun c hc => ?_, fun c hc => ?_, fun c hc => ?_⟩ <;> simp [fill, hc]

/-- Blanks that the reader takes: only beside the braces there need not be any. -/
structure Fits (g : LabelGaps) : Prop where
  /-- All gaps are blank. -/
  isBlank : ∀ w ∈ [g.opening, g.before, g.behind, g.closing, g.outside], IsBlank w
  /-- There is a gap in front of the points. -/
  before : g.before ≠ []
  /-- There is a gap behind the points. -/
  behind : g.behind ≠ []
  /-- There is a gap in front of the label of the handler. -/
  outside : g.outside ≠ []

end LabelGaps

namespace Line

variable {l : Line}

/-! ## Registers -/

/-- A register is all of the text that it is read from. -/
theorem isOperand_of_register {t : Option Text} {register : Text}
    (h : l.register t = .ok register) : t = some register ∧ register.IsOperand := by
  unfold Line.register at h
  split at h
  · split at h
    · cases h
    · rename_i hcheck
      cases h
      exact ⟨rfl, isOperand_iff.mpr (Bool.eq_false_iff.mpr hcheck)⟩
  · cases h

/-- The register behind the keyword `local` is all that stands there. -/
theorem isOperand_of_localRegister {register : Text} (h : l.localRegister = .ok register) :
    register.IsOperand ∧ ∃ rest, l.arguments = "local".toList ++ rest ∧ register = trim rest := by
  obtain ⟨heq, hoperand⟩ := isOperand_of_register h
  obtain ⟨rest, hrest, rfl⟩ := Option.map_eq_some_iff.mp heq
  exact ⟨hoperand, rest, eq_of_after? hrest, rfl⟩

/-- Both sides of a mark are parts of the arguments. -/
theorem cutArguments_subset (mark : Char) (t : Text) :
    (cutArguments mark t).1 ⊆ t ∧ ∀ rest ∈ (cutArguments mark t).2, rest ⊆ t := by
  unfold cutArguments
  split
  · rename_i before after hcut
    obtain ⟨c, -, rfl⟩ := Text.eq_of_cut? hcut
    refine ⟨List.Subset.trans (Text.trim_subset _) (List.subset_append_left _ _), ?_⟩
    rintro rest ⟨rfl⟩
    exact List.Subset.trans (Text.trim_subset _)
      (List.Subset.trans (List.subset_cons_self _ _) (List.subset_append_right _ _))
  · exact ⟨List.Subset.refl _, fun rest hrest => absurd hrest (Option.not_mem_none rest)⟩

/-- What stands in front of the first mark does not hold the mark. -/
theorem not_mem_cutArguments (mark : Char) (t : Text) : mark ∉ (cutArguments mark t).1 := by
  unfold cutArguments
  split
  · rename_i hcut
    exact fun h => not_mem_of_cut? hcut (trim_subset _ h)
  · exact not_mem_of_cut?_eq_none ‹_›

/-- Without the mark all of the text stands in front of it. -/
theorem eq_of_cutArguments {mark : Char} {t before : Text}
    (h : cutArguments mark t = (before, none)) : t = before := by
  unfold cutArguments at h
  split at h
  · cases h
  · exact (Prod.mk.inj h).1

/-- The register of a parameter stands in front of the first comma, and without a name it is all of
the arguments. -/
theorem isOperand_of_param {register : Text} {name : Option Text}
    (h : l.param = .ok (register, name)) : register.IsOperand ∧ register ⊆ l.arguments ∧
      ',' ∉ register ∧ (name = none → l.arguments = register) := by
  have hcomma := not_mem_cutArguments ',' l.arguments
  have hsubset := (cutArguments_subset ',' l.arguments).1
  have hall : ∀ before, cutArguments ',' l.arguments = (before, none) → l.arguments = before :=
    fun _ => eq_of_cutArguments
  unfold param at h
  generalize cutArguments ',' l.arguments = sides at h hcomma hsubset hall
  obtain ⟨before, rest⟩ := sides
  dsimp only at h hcomma hsubset
  split at h
  · cases h
  · rename_i hcheck
    have hoperand : before.IsOperand := isOperand_iff.mpr (Bool.eq_false_iff.mpr hcheck)
    cases rest with
    | none =>
      obtain ⟨rfl, rfl⟩ := Prod.mk.inj (Except.ok.inj h)
      exact ⟨hoperand, hsubset, hcomma, fun _ => hall _ rfl⟩
    | some quoted =>
      obtain ⟨found, -, heq⟩ := exists_of_map_eq_ok h
      obtain ⟨rfl, rfl⟩ := Prod.mk.inj heq
      exact ⟨hoperand, hsubset, hcomma, nofun⟩

/-! ## Local variables -/

/-- A mark that is taken leaves a part of the text. -/
theorem subset_of_after? {mark t rest : Text} (h : Text.after? mark t = some rest) :
    rest ⊆ t := by
  rw [Text.eq_of_after? h]
  exact List.subset_append_right _ _

/-- What follows the name of a local variable is part of the text. -/
theorem subset_of_localName {malformed : Fault} {t after : Text} {name : Option Text}
    (h : l.localName malformed t = .ok (name, after)) : after ⊆ t := by
  unfold localName at h
  split at h
  · rename_i rest hrest
    cases h
    exact subset_of_after? hrest
  · split at h
    · rename_i body rest hquoted
      split at h
      · cases h
        rw [(Literal.takeQuoted?_eq_some_iff.mp hquoted).2.1]
        exact List.subset_cons_of_subset _ (List.Subset.trans (List.subset_cons_self _ _)
          (List.subset_append_right _ _))
      · cases h
    · cases h

/-- What the arguments of a local variable are read as: nothing but a register, or a register up to
the first comma and a type up to a later one. -/
inductive TellsLocal (l : Line) : LocalArguments → Prop
  /-- Nothing but a register. -/
  | bare {register : Text} (hregister : l.register (some (trim l.arguments)) = .ok register)
      (hcomma : ',' ∉ l.arguments) : TellsLocal l ⟨register, none, none, none⟩
  /-- With a type. -/
  | typed {before declared register : Text} {type : TypeName} {name signature : Option Text}
      (hbefore : before ⊆ l.arguments) (hcomma : ',' ∉ before)
      (hregister : l.register (some (trim before)) = .ok register)
      (hdeclared : declared ⊆ l.arguments) (hend : ',' ∉ declared)
      (htype : l.parseType (trim declared) = .ok type) :
      TellsLocal l ⟨register, name, some type, signature⟩

/-- Local variables are read in no other way. -/
theorem tellsLocal_of_localVariable {v : LocalArguments} (h : l.localVariable = .ok v) :
    TellsLocal l v := by
  have hcomma := not_mem_cutArguments ',' l.arguments
  have hsubset := cutArguments_subset ',' l.arguments
  have hall : ∀ before, cutArguments ',' l.arguments = (before, none) → l.arguments = before :=
    fun _ => eq_of_cutArguments
  unfold localVariable at h
  dsimp only at h
  generalize cutArguments ',' l.arguments = sides at h hcomma hsubset hall
  obtain ⟨before, rest⟩ := sides
  dsimp only at h hcomma hsubset
  obtain ⟨register, hregister, h⟩ := exists_of_bind_eq_ok h
  cases rest with
  | none =>
    cases h
    obtain rfl := hall before rfl
    exact .bare hregister hcomma
  | some rest =>
    obtain ⟨⟨name, after⟩, hname, h⟩ := exists_of_bind_eq_ok h
    have hafter : after ⊆ l.arguments :=
      List.Subset.trans (subset_of_localName hname) (hsubset.2 rest rfl)
    dsimp only at h
    split at h
    · rename_i declared hdeclared
      have hpart : declared ⊆ l.arguments := by
        refine List.Subset.trans ?_ hafter
        refine List.Subset.trans ?_ (List.dropWhile_suffix Text.isBlank).subset
        rw [Text.trimLeft] at hdeclared
        rw [hdeclared]
        exact List.subset_cons_self _ _
      cases hcut : Text.cut? (· == ',') declared with
      | none =>
        rw [hcut] at h
        obtain ⟨type, htype, h⟩ := exists_of_bind_eq_ok h
        cases h
        exact .typed hsubset.1 hcomma hregister hpart (not_mem_of_cut?_eq_none hcut) htype
      | some sides =>
        obtain ⟨first, second⟩ := sides
        obtain ⟨c, -, hsides⟩ := Text.eq_of_cut? hcut
        rw [hcut] at h
        obtain ⟨type, htype, h⟩ := exists_of_bind_eq_ok h
        obtain ⟨signature, -, h⟩ := exists_of_bind_eq_ok h
        cases h
        have hfirst : first ⊆ declared := hsides ▸ List.subset_append_left _ _
        exact .typed hsubset.1 hcomma hregister (List.Subset.trans hfirst hpart)
          (not_mem_of_cut? hcut) htype
    · cases h

/-! ## Handlers -/

/-- Spaces that are left out. -/
theorem exists_spaces (t : Text) : ∃ w, IsBlank w ∧ t = w ++ t.dropWhile isSpace := by
  refine ⟨t.takeWhile isSpace, fun c hc => ?_, List.takeWhile_append_dropWhile.symm⟩
  have hspace := List.mem_takeWhile_imp hc
  simp only [isSpace, Bool.or_eq_true, beq_iff_eq] at hspace
  obtain rfl | rfl := hspace <;> rfl

/-- Spaces that are taken. -/
theorem eq_of_takeSpaces? {t rest : Text} (h : takeSpaces? t = some rest) :
    ∃ w, IsBlank w ∧ w ≠ [] ∧ t = w ++ rest := by
  obtain ⟨w, hw, ht⟩ := exists_spaces t
  unfold takeSpaces? at h
  split at h
  · rename_i hhead
    obtain rfl := Option.some.inj h
    refine ⟨w, hw, ?_, ht⟩
    rintro rfl
    cases t with
    | nil => cases hhead
    | cons c t =>
      have hc : isSpace c = true := hhead
      rw [List.nil_append, List.dropWhile_cons_of_pos hc] at ht
      have hlength := congrArg List.length ht
      have hle := (List.dropWhile_suffix (l := t) isSpace).length_le
      rw [List.length_cons] at hlength
      omega
  · cases h

/-- A label that is taken. -/
theorem eq_of_takeLabel? {t name rest : Text} (h : takeLabel? t = some (name, rest)) :
    t = ':' :: (name ++ rest) ∧ name.IsLabel := by
  unfold takeLabel? at h
  split at h
  · rename_i more
    dsimp only at h
    split at h
    · cases h
    · rename_i hempty
      obtain ⟨rfl, rfl⟩ := Prod.mk.inj (Option.some.inj h)
      exact ⟨congrArg (':' :: ·) List.takeWhile_append_dropWhile.symm, by simpa using hempty,
        fun c hc => List.mem_takeWhile_imp hc⟩
  · cases h

/-- The labels of a handler stand in the text that they are read from, with some blanks between
them. -/
theorem exists_fill_of_labels? {t first last handler : Text}
    (h : labels? t = some (first, last, handler)) :
    first.IsLabel ∧ last.IsLabel ∧ handler.IsLabel ∧
      ∃ g : LabelGaps, g.Fits ∧ t = g.fill first last handler := by
  unfold labels? at h
  obtain ⟨inner, hinner, h⟩ := Option.bind_eq_some_iff.mp h
  obtain ⟨⟨first', rest⟩, hfirst, h⟩ := Option.bind_eq_some_iff.mp h
  obtain ⟨rest₁, hrest₁, h⟩ := Option.bind_eq_some_iff.mp h
  obtain ⟨rest₂, hrest₂, h⟩ := Option.bind_eq_some_iff.mp h
  obtain ⟨rest₃, hrest₃, h⟩ := Option.bind_eq_some_iff.mp h
  obtain ⟨⟨last', rest₄⟩, hlast, h⟩ := Option.bind_eq_some_iff.mp h
  obtain ⟨rest₅, hrest₅, h⟩ := Option.bind_eq_some_iff.mp h
  obtain ⟨rest₆, hrest₆, h⟩ := Option.bind_eq_some_iff.mp h
  obtain ⟨⟨handler', rest₇⟩, hhandler, h⟩ := Option.bind_eq_some_iff.mp h
  dsimp only at h hrest₁ hrest₅
  split at h
  · rename_i hempty
    cases h
    obtain rfl := List.isEmpty_iff.mp hempty
    obtain ⟨opening, hopening, hstart⟩ := exists_spaces inner
    obtain ⟨hlabel₁, hfirst⟩ := eq_of_takeLabel? hfirst
    obtain ⟨before, hbefore, hbeforeNe, hspaces₁⟩ := eq_of_takeSpaces? hrest₁
    obtain ⟨behind, hbehind, hbehindNe, hspaces₂⟩ := eq_of_takeSpaces? hrest₃
    obtain ⟨hlabel₂, hlast⟩ := eq_of_takeLabel? hlast
    obtain ⟨closing, hclosing, hend⟩ := exists_spaces rest₄
    obtain ⟨outside, houtside, houtsideNe, hspaces₃⟩ := eq_of_takeSpaces? hrest₆
    obtain ⟨hlabel₃, hhandler⟩ := eq_of_takeLabel? hhandler
    refine ⟨hfirst, hlast, hhandler, ⟨opening, before, behind, closing, outside⟩,
      ⟨?_, hbeforeNe, hbehindNe, houtsideNe⟩, ?_⟩
    · simpa using ⟨hopening, hbefore, hbehind, hclosing, houtside⟩
    · rw [eq_of_after? hinner, hstart, hlabel₁, hspaces₁, eq_of_after? hrest₂, hspaces₂, hlabel₂,
        hend, eq_of_after? hrest₅, hspaces₃, hlabel₃, List.append_nil]
      rfl
  · cases h

/-- The labels of a handler stand at the end of the arguments, and what is in front of them names
the exception. -/
theorem exists_fill_of_handler {found : HandlerArguments} (h : l.handler = .ok found) :
    found.first.IsLabel ∧ found.last.IsLabel ∧ found.handler.IsLabel ∧
      ∃ (before : Text) (g : LabelGaps), g.Fits ∧ '\x7b' ∉ before ∧ found.exception = trim before ∧
        l.arguments = before ++ g.fill found.first found.last found.handler := by
  unfold handler at h
  split at h
  · rename_i before after hcut
    split at h
    · rename_i first last label hlabels
      obtain rfl := Except.ok.inj h
      obtain ⟨hfirst, hlast, hhandler, g, hg, hfill⟩ := exists_fill_of_labels? hlabels
      obtain ⟨mark, hmark, htext⟩ := eq_of_cut? hcut
      obtain rfl : mark = '\x7b' := by simpa using hmark
      exact ⟨hfirst, hlast, hhandler, before, g, hg, not_mem_of_cut? hcut, rfl, hfill ▸ htext⟩
    · cases h
  · cases h

end Line

end Smali
