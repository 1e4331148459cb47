import Smali.Proofs.EscapeGrammar
import Smali.Proofs.QuotedBodies

/-!
# The quote that closes a literal

The reader of quoted literals stops at the first quote that is not the letter of a pair, and it
stops nowhere if a backslash in front of that quote has no letter. The bodies that it finds may
still be refused when their escapes are resolved, but only for what the escapes stand for: the four
characters behind a `u` are no unit, or the units of a run are those of no text. Digits of a unit
are no backslashes, so resolving and reading agree on where the pairs begin.
-/

namespace Smali

open Text Literal

namespace Literal

/-! ## Flaws of bodies -/

/-- The digits of a unit hold no backslash. -/
theorem IsUnitSpelling.not_mem_backslash {digits : Text} (h : IsUnitSpelling digits) :
    '\\' ∉ digits := by
  intro hmem
  have hdigit : isHexDigit '\\' = true := by
    refine List.all_eq_true.mp h.2 _ ?_
    unfold dropPlus
    split
    · exact (List.mem_cons.mp hmem).resolve_left (by decide)
    · exact hmem
  exact absurd hdigit (by decide)

/-- Pairs are found behind characters by themselves as they are without these. -/
theorem isPaired_append {t : Text} (ht : '\\' ∉ t) {u : Text} : IsPaired (t ++ u) ↔ IsPaired u := by
  induction t with
  | nil => exact Iff.rfl
  | cons c t ih =>
    rw [List.mem_cons, not_or] at ht
    rw [List.cons_append, isPaired_cons (Ne.symm ht.1), ih ht.2]

/-- A run that does not close has a surrogate without its partner. -/
theorem exists_unpaired_of_closeRun {run : List Nat} {flaw : EscapeFlaw}
    (h : closeRun run = .error flaw) : ∃ unit, flaw = .unpaired unit := by
  unfold closeRun at h
  cases hdecode : Utf16.decode run.reverse with
  | error unit =>
    rw [hdecode] at h
    cases h
    exact ⟨unit, rfl⟩
  | ok t =>
    rw [hdecode] at h
    cases h

/-- A letter of an escape that is not `u` has a character. -/
theorem exists_simpleEscape? {letter : Char} (h : letter ∈ escapeLetters) (hu : letter ≠ 'u') :
    ∃ c, simpleEscape? letter = some c := by
  have hletter := isEscapeLetter_iff.mpr h
  rw [isEscapeLetter, Bool.or_eq_true, beq_iff_eq] at hletter
  exact Option.isSome_iff_exists.mp (hletter.resolve_left hu)

/-- Where every backslash is paired, the only flaws are those of units and of runs. -/
theorem IsPaired.flaw_of_resolve {whole : Text} {run : List Nat} {rest : Text} {flaw : EscapeFlaw}
    (hpaired : IsPaired rest) (h : resolve whole run rest = .error flaw) :
    (∃ digits, flaw = .badUnit digits) ∨ ∃ unit, flaw = .unpaired unit := by
  fun_induction resolve whole run rest generalizing flaw with
  | case1 run => exact .inr (exists_unpaired_of_closeRun h)
  | case2 run a b c d rest unit hunit ih =>
    -- the four characters are behind the pair and hold no other one
    obtain ⟨-, hrest⟩ := isPaired_pair.mp hpaired
    have hdigits := (unit?_eq_some_iff.mp hunit).1.not_mem_backslash
    exact ih ((isPaired_append (t := [a, b, c, d]) hdigits).mp hrest) h
  | case3 | case4 =>
    cases h
    exact .inl ⟨_, rfl⟩
  | case5 => exact absurd hpaired not_isPaired_backslash
  | case6 run letter rest hunit hshort ih =>
    obtain ⟨hletter, hrest⟩ := isPaired_pair.mp hpaired
    have hu : letter ≠ 'u' := by
      rintro rfl
      exact hshort rfl
    obtain ⟨c, hc⟩ := exists_simpleEscape? hletter hu
    rw [hc] at h
    obtain hrun | ⟨before, -, h⟩ := error_of_bind_eq_error h
    · exact .inr (exists_unpaired_of_closeRun hrun)
    · obtain hflaw | ⟨after, -, h⟩ := error_of_bind_eq_error h
      · exact ih hrest hflaw
      · cases h
  | case7 run c rest hunit hshort hend hletter ih =>
    have hrest := (isPaired_cons (ne_backslash hend hletter)).mp hpaired
    obtain hrun | ⟨before, -, h⟩ := error_of_bind_eq_error h
    · exact .inr (exists_unpaired_of_closeRun hrun)
    · obtain hflaw | ⟨after, -, h⟩ := error_of_bind_eq_error h
      · exact ih hrest hflaw
      · cases h

end Literal

/-! ## Literals at the start of a text -/

/-- A quoted literal stands at the start of a text exactly if the text starts with the quote and has
another one with every backslash between them paired. Its body then reaches up to the first quote
that is not the letter of a pair, and everything behind that quote is left. Resolving its escapes
never finds a backslash at the end or a letter without a meaning. -/
theorem literal_closed_by_first_lone_quote (quote : Char) (hquote : quote = '"' ∨ quote = '\'')
    (t : Text) :
    ((∃ found, takeQuoted? quote t = some found) ↔
      ∃ before after, t = quote :: (before ++ quote :: after) ∧ IsPaired before) ∧
    (∀ body rest, takeQuoted? quote t = some (body, rest) ↔
      t = quote :: (body ++ quote :: rest) ∧ IsPaired body ∧
        ∀ before after, body = before ++ quote :: after → OpensPair before) ∧
    ∀ body rest, takeQuoted? quote t = some (body, rest) →
      ∀ flaw, unescape body = .error flaw →
        (∃ digits, flaw = .badUnit digits) ∨ ∃ unit, flaw = .unpaired unit := by
  have hslash : quote ≠ '\\' := by obtain rfl | rfl := hquote <;> decide
  refine ⟨⟨?_, ?_⟩, fun body rest => ⟨?_, ?_⟩, ?_⟩
  · rintro ⟨⟨body, rest⟩, h⟩
    obtain ⟨-, ht, hbody⟩ := takeQuoted?_eq_some_iff.mp h
    exact ⟨body, rest, ht, hbody.isPaired⟩
  · rintro ⟨before, after, rfl, hpaired⟩
    rw [takeQuoted?, if_pos rfl]
    exact hpaired.exists_takeBody? hslash after
  · intro h
    obtain ⟨-, ht, hbody⟩ := takeQuoted?_eq_some_iff.mp h
    exact ⟨ht, hbody.isPaired, hbody.opensPair⟩
  · rintro ⟨ht, hpaired, hopens⟩
    exact takeQuoted?_eq_some_iff.mpr ⟨hslash, ht, hpaired, hopens⟩
  · intro body rest h flaw hflaw
    obtain ⟨-, -, hbody⟩ := takeQuoted?_eq_some_iff.mp h
    exact hbody.isPaired.flaw_of_resolve hflaw

/-- An escaped quote among the four characters behind a `u` does not close the literal, and an
escaped backslash does not keep the next quote from closing it. Without that quote there is no
literal. -/
theorem literal_closed_by_first_lone_quote_inUnit :
    takeQuoted? '\'' "'\\u12\\'\\\\' # '" = some ("\\u12\\'\\\\".toList, " # '".toList) ∧
      IsPaired "\\u12\\'\\\\" ∧
      (¬∃ before after,
        "'\\u12\\'".toList = '\'' :: (before ++ '\'' :: after) ∧ IsPaired before) ∧
      unescape "\\u12\\'\\\\" = .error (.badUnit "12\\'") ∧
      ∀ flaw, unescape "\\u12\\'\\\\" = .error flaw →
        (∃ digits, flaw = .badUnit digits) ∨ ∃ unit, flaw = .unpaired unit := by
  have hfound : takeQuoted? '\'' "'\\u12\\'\\\\' # '" =
      some ("\\u12\\'\\\\".toList, " # '".toList) := by decide
  have hopen : takeQuoted? '\'' "'\\u12\\'" = none := by decide
  obtain ⟨-, hbodies, hflaws⟩ :=
    literal_closed_by_first_lone_quote '\'' (.inr rfl) "'\\u12\\'\\\\' # '"
  refine ⟨hfound, ((hbodies _ _).mp hfound).2.1, fun h => ?_, by decide +kernel, hflaws _ _ hfound⟩
  obtain ⟨found, h⟩ := (literal_closed_by_first_lone_quote '\'' (.inr rfl) _).1.mpr h
  exact Option.some_ne_none found (h.symm.trans hopen)

end Smali
