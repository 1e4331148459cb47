import Smali.Proofs.TokenBraces

/-!
# Elements joined and split

Commas divide a list where a scan stands outside quotes at depth zero. An element brings the scan
back to such a place and has no comma at one, so elements that are joined by a comma and a blank are
found again, whatever arrays and quoted texts they hold. And no others are ever found: only the last
element of a list may leave quotes or braces open.
-/

namespace Smali.Literal

open Text

/-! ## Commas that divide -/

/-- A scan has met a comma if it had before, or if one stands where it is outside quotes at depth
zero. -/
theorem Scan.divided_past_iff {s : Scan} {t : Text} :
    (s.past t).divided = true ↔ s.divided = true ∨
      ∃ before after, t = before ++ ',' :: after ∧ (s.past before).quoting = .outside ∧
        (s.past before).depth = 0 := by
  induction t generalizing s with
  | nil => simp
  | cons c t ih =>
    rw [past_cons, ih]
    constructor
    · rintro (hstep | ⟨before, after, rfl, hquoting, hdepth⟩)
      · rw [step, Bool.or_eq_true, decide_eq_true_iff] at hstep
        obtain hs | ⟨rfl, hquoting, hdepth⟩ := hstep
        · exact .inl hs
        · exact .inr ⟨[], t, rfl, hquoting, hdepth⟩
      · exact .inr ⟨c :: before, after, rfl, hquoting, hdepth⟩
    · rintro (hs | ⟨before, after, htext, hquoting, hdepth⟩)
      · exact .inl (by rw [step, hs, Bool.true_or])
      · cases before with
        | nil =>
          obtain ⟨rfl, rfl⟩ := List.cons.inj htext
          exact .inl (by rw [step, decide_eq_true ⟨rfl, hquoting, hdepth⟩, Bool.or_true])
        | cons d before =>
          obtain ⟨rfl, rfl⟩ := List.cons.inj htext
          exact .inr ⟨before, after, rfl, hquoting, hdepth⟩

/-- A text is divided by a comma behind which no quotes and no braces are open. -/
theorem isUndivided_iff {t : Text} : IsUndivided t ↔
    ∀ before after, t = before ++ ',' :: after → ClosesQuotes before → braceDepth before ≠ 0 := by
  rw [IsUndivided, Bool.eq_false_iff, ne_eq, Scan.divided_past_iff]
  simp only [Scan.quoting_past, Scan.depth_past, Scan.atDepth, Int.zero_add, Bool.false_eq_true,
    false_or, not_exists, not_and]
  exact Iff.rfl

/-- A text is closed if it closes its quotes and its braces, and is not divided. -/
theorem isClosed_iff {t : Text} :
    IsClosed t ↔ ClosesQuotes t ∧ braceDepth t = 0 ∧ IsUndivided t := by
  have hquoting : ((Scan.atDepth 0).past t).quoting = Quoting.outside.past t :=
    Scan.quoting_past _ t
  have hdepth : ((Scan.atDepth 0).past t).depth = braceDepth t :=
    (Scan.depth_past _ t).trans (Int.zero_add _)
  rw [IsClosed, ClosesQuotes, ← hquoting, ← hdepth, IsUndivided]
  generalize (Scan.atDepth 0).past t = s
  obtain ⟨q, depth, divided⟩ := s
  rw [Scan.atDepth, Scan.mk.injEq]

/-! ## Elements -/

/-- A text that may be any element of a list on one line. -/
structure IsElement (t : Text) : Prop where
  /-- There is something in it. -/
  ne_nil : t ≠ []
  /-- No blanks stand around it. -/
  trimmed : IsTrimmed t
  /-- Every quote in it is closed. -/
  closes : ClosesQuotes t
  /-- Outside quotes it has as many closing braces as opening ones. -/
  balanced : braceDepth t = 0
  /-- No comma outside quotes stands at depth zero. -/
  undivided : ∀ before after, t = before ++ ',' :: after → ClosesQuotes before →
    braceDepth before ≠ 0

/-- Such a text is closed, besides being there and being trimmed. -/
theorem isElement_iff {t : Text} : IsElement t ↔ (t ≠ [] ∧ IsTrimmed t) ∧ IsClosed t := by
  rw [isClosed_iff, isUndivided_iff]
  exact ⟨fun h => ⟨⟨h.ne_nil, h.trimmed⟩, h.closes, h.balanced, h.undivided⟩,
    fun ⟨⟨hne, htrimmed⟩, hcloses, hbalanced, hundivided⟩ =>
      ⟨hne, htrimmed, hcloses, hbalanced, hundivided⟩⟩

/-! ## Parts of a list -/

/-- What a scan divides a text into are the parts of their list. -/
theorem areParts_partsFrom (t : Text) : AreParts (partsFrom .outside 0 t) := by
  generalize hparts : partsFrom .outside 0 t = parts
  induction parts generalizing t with
  | nil => trivial
  | cons part more ih =>
    obtain ⟨rfl, rfl, hundivided⟩ | ⟨rest, rfl, hclosed, hrest⟩ := exists_of_partsFrom hparts
    · exact hundivided
    · cases more with
      | nil => exact hclosed.isUndivided
      | cons next more => exact ⟨hclosed, ih rest hrest⟩

/-- So they are without the blanks around them. -/
theorem AreParts.map_trim {parts : List Text} (h : AreParts parts) :
    AreParts (parts.map trim) := by
  induction parts with
  | nil => trivial
  | cons part more ih =>
    cases more with
    | nil => exact isUndivided_trim.mpr h
    | cons next more => exact ⟨isClosed_trim.mpr h.1, ih h.2⟩

/-- The first part is not divided, and closed unless it is the only one. -/
theorem areParts_cons_iff {part : Text} {more : List Text} :
    AreParts (part :: more) ↔ IsUndivided part ∧ (more ≠ [] → IsClosed part) ∧ AreParts more := by
  cases more with
  | nil => simp [AreParts]
  | cons next more =>
    exact ⟨fun h => ⟨h.1.isUndivided, fun _ => h.1, h.2⟩,
      fun h => ⟨h.2.1 (List.cons_ne_nil _ _), h.2.2⟩⟩

/-- Parts may be left out. -/
theorem AreParts.filter {parts : List Text} (h : AreParts parts) (p : Text → Bool) :
    AreParts (parts.filter p) := by
  induction parts with
  | nil => trivial
  | cons part more ih =>
    obtain ⟨hpart, hclosed, hmore⟩ := areParts_cons_iff.mp h
    rw [List.filter_cons]
    split
    · refine areParts_cons_iff.mpr ⟨hpart, fun hne => hclosed ?_, ih hmore⟩
      rintro rfl
      exact hne rfl
    · exact ih hmore

/-- All parts but the last are closed. -/
theorem AreParts.isClosed_of_mem_dropLast {parts : List Text} (h : AreParts parts) {part : Text}
    (hpart : part ∈ parts.dropLast) : IsClosed part := by
  induction parts with
  | nil => cases hpart
  | cons first more ih =>
    obtain ⟨-, hclosed, hmore⟩ := areParts_cons_iff.mp h
    by_cases hne : more = []
    · rw [hne] at hpart
      cases hpart
    · rw [List.dropLast_cons_of_ne_nil hne] at hpart
      obtain rfl | hpart := List.mem_cons.mp hpart
      · exact hclosed hne
      · exact ih hmore hpart

/-- Every part but the last that a text is split into is an element. -/
theorem isElement_of_mem_splitElements {t part : Text} (h : part ∈ (splitElements t).dropLast) :
    IsElement part := by
  have hclosed := ((areParts_partsFrom t).map_trim.filter (!·.isEmpty)).isClosed_of_mem_dropLast h
  obtain ⟨hmem, hne⟩ := List.mem_filter.mp (List.mem_of_mem_dropLast h)
  obtain ⟨raw, -, rfl⟩ := List.mem_map.mp hmem
  exact isElement_iff.mpr ⟨⟨by simpa using hne, isTrimmed_trim raw⟩, hclosed⟩

/-- Elements that are joined by a comma and a blank are what the text is split into, and whatever a
text is split into, every part but the last is an element. -/
theorem split_of_joined :
    (∀ parts : List Text, (∀ part ∈ parts, IsElement part) →
      splitElements ([',', ' '].intercalate parts) = parts) ∧
      ∀ t, ∀ part ∈ (splitElements t).dropLast, IsElement part := by
  refine ⟨fun parts h => ?_, fun t part => isElement_of_mem_splitElements⟩
  have hsplit := splitElements_intercalate
    (areParts_of_isClosed fun part hpart => (isElement_iff.mp (h part hpart)).2)
    (fun part hpart => (isElement_iff.mp (h part hpart)).1) isBlank_nil isBlank_nil
  simpa using hsplit

/-- An array with a quoted comma and an array in it, a quoted text with a quote, a brace and a
comma, and a number. -/
theorem split_of_joined_nested :
    let parts : List Text :=
      ["\x7b \",\", \x7b 0x1 \x7d \x7d".toList, "\"\\\"\x7b,\"".toList, "0x1".toList]
    (∀ part ∈ parts, IsElement part) ∧
      splitElements "\x7b \",\", \x7b 0x1 \x7d \x7d, \"\\\"\x7b,\", 0x1".toList = parts := by
  intro parts
  have helements : ∀ part ∈ parts, IsElement part := by
    have hall : ∀ part ∈ parts, part ≠ [] ∧ trim part = part ∧ IsClosed part := by
      decide
    intro part hpart
    obtain ⟨hne, htrim, hclosed⟩ := hall part hpart
    exact isElement_iff.mpr ⟨⟨hne, htrim ▸ isTrimmed_trim part⟩, hclosed⟩
  exact ⟨helements, split_of_joined.1 parts helements⟩

end Smali.Literal
