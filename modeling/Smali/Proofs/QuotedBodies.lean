import Smali.Literal.Escape

/-!
# The bodies of quoted literals

Between its quotes a literal holds characters by themselves and pairs. A pair is a backslash and
the letter of an escape, which may be a quote or another backslash. The quote that closes the
literal is the first one by itself. So a body is known by itself, and whatever stands behind the
closing quote has no part in it.
-/

namespace Smali

open Literal

namespace Literal

/-! ## Pairs -/

/-- The letters of escapes. -/
def escapeLetters : List Char := ['n', 'r', 't', 'b', 'f', 'u', '"', '\'', '\\']

/-- The reader of quoted literals knows these letters. -/
theorem isEscapeLetter_iff {c : Char} : isEscapeLetter c = true ↔ c ∈ escapeLetters := by
  unfold isEscapeLetter simpleEscape?
  split <;> simp_all [escapeLetters]

/-- A character that is no backslash at the end of a text and none in front of another character. -/
theorem ne_backslash {c : Char} {rest : Text} (hend : c = '\\' → rest = [] → False)
    (hmore : ∀ letter more, c = '\\' → rest = letter :: more → False) : c ≠ '\\' := by
  intro hc
  cases rest with
  | nil => exact hend hc rfl
  | cons letter more => exact hmore letter more hc rfl

/-- Whether every backslash of a text is paired with the letter of an escape. A backslash that is
itself the letter of a pair pairs with nothing else. -/
inductive IsPaired : Text → Prop
  /-- No text. -/
  | nil : IsPaired []
  /-- A character by itself. -/
  | lone {c : Char} {rest : Text} (hc : c ≠ '\\') (hrest : IsPaired rest) : IsPaired (c :: rest)
  /-- A backslash and the letter of an escape. -/
  | pair {letter : Char} {rest : Text} (hletter : letter ∈ escapeLetters)
      (hrest : IsPaired rest) : IsPaired ('\\' :: letter :: rest)

/-- A character by itself pairs with nothing. -/
theorem isPaired_cons {c : Char} (hc : c ≠ '\\') {t : Text} : IsPaired (c :: t) ↔ IsPaired t := by
  constructor
  · intro h
    cases h with
    | lone _ hrest => exact hrest
    | pair => exact absurd rfl hc
  · exact .lone hc

/-- A backslash pairs with the character behind it. -/
theorem isPaired_pair {letter : Char} {t : Text} :
    IsPaired ('\\' :: letter :: t) ↔ letter ∈ escapeLetters ∧ IsPaired t := by
  constructor
  · intro h
    cases h with
    | lone hc => exact absurd rfl hc
    | pair hletter hrest => exact ⟨hletter, hrest⟩
  · exact fun h => .pair h.1 h.2

/-- A backslash at the end has no letter. -/
theorem not_isPaired_backslash : ¬IsPaired ['\\'] := by
  intro h
  cases h with
  | lone hc => exact hc rfl

/-- Whether the character behind a text is the letter of a pair: the text ends in a backslash that
is not paired yet, and all others are. -/
def OpensPair (before : Text) : Prop := ∃ front, IsPaired front ∧ before = front ++ ['\\']

/-- Nothing opens no pair. -/
theorem not_opensPair_nil : ¬OpensPair [] := by
  rintro ⟨front, -, h⟩
  exact List.concat_ne_nil _ _ h.symm

/-- Characters by themselves open no pair. -/
theorem opensPair_cons {c : Char} (hc : c ≠ '\\') {t : Text} :
    OpensPair (c :: t) ↔ OpensPair t := by
  constructor
  · rintro ⟨front, hfront, h⟩
    cases front with
    | nil => exact absurd (List.cons.inj h).1 hc
    | cons d front =>
      obtain ⟨rfl, rfl⟩ := List.cons.inj h
      exact ⟨front, (isPaired_cons hc).mp hfront, rfl⟩
  · rintro ⟨front, hfront, rfl⟩
    exact ⟨c :: front, .lone hc hfront, rfl⟩

/-- A pair opens no further one. -/
theorem opensPair_pair {letter : Char} {t : Text} :
    OpensPair ('\\' :: letter :: t) ↔ letter ∈ escapeLetters ∧ OpensPair t := by
  constructor
  · rintro ⟨front, hfront, h⟩
    -- the pair is in front of the backslash at the end: that cannot be one of its characters
    match front with
    | [] => cases h
    | [_] =>
      obtain ⟨rfl, -⟩ := List.cons.inj h
      exact absurd hfront not_isPaired_backslash
    | _ :: _ :: front =>
      cases h
      obtain ⟨hletter, hfront⟩ := isPaired_pair.mp hfront
      exact ⟨hletter, front, hfront, rfl⟩
  · rintro ⟨hletter, front, hfront, rfl⟩
    exact ⟨'\\' :: letter :: front, .pair hletter hfront, rfl⟩

/-! ## Bodies -/

/-- The body of a literal with these quotes. -/
structure IsQuotedBody (quote : Char) (body : Text) : Prop where
  /-- Every backslash is paired. -/
  isPaired : IsPaired body
  /-- Every quote is the letter of a pair. -/
  opensPair : ∀ before after, body = before ++ quote :: after → OpensPair before

/-- No text is a body. -/
theorem isQuotedBody_nil {quote : Char} : IsQuotedBody quote [] :=
  ⟨.nil, fun _ _ h => absurd h.symm (List.append_ne_nil_of_right_ne_nil _ (List.cons_ne_nil _ _))⟩

/-- A character by itself must not be the quote. -/
theorem isQuotedBody_cons {quote c : Char} (hc : c ≠ '\\') {t : Text} :
    IsQuotedBody quote (c :: t) ↔ c ≠ quote ∧ IsQuotedBody quote t := by
  constructor
  · rintro ⟨hpaired, hopens⟩
    refine ⟨?_, (isPaired_cons hc).mp hpaired, fun before after h => ?_⟩
    · rintro rfl
      exact not_opensPair_nil (hopens [] t rfl)
    · exact (opensPair_cons hc).mp (hopens (c :: before) after (congrArg (c :: ·) h))
  · rintro ⟨hne, hpaired, hopens⟩
    refine ⟨.lone hc hpaired, fun before after h => ?_⟩
    cases before with
    | nil => exact absurd (List.cons.inj h).1 hne
    | cons d before =>
      obtain ⟨rfl, hrest⟩ := List.cons.inj h
      exact (opensPair_cons hc).mpr (hopens before after hrest)

/-- The letter of a pair may be any, the quote included. -/
theorem isQuotedBody_pair {quote letter : Char} (hquote : quote ≠ '\\') {t : Text} :
    IsQuotedBody quote ('\\' :: letter :: t) ↔ letter ∈ escapeLetters ∧ IsQuotedBody quote t := by
  constructor
  · rintro ⟨hpaired, hopens⟩
    obtain ⟨hletter, hpaired⟩ := isPaired_pair.mp hpaired
    refine ⟨hletter, hpaired, fun before after h => ?_⟩
    have hbefore := hopens ('\\' :: letter :: before) after (congrArg ('\\' :: letter :: ·) h)
    exact (opensPair_pair.mp hbefore).2
  · rintro ⟨hletter, hpaired, hopens⟩
    refine ⟨.pair hletter hpaired, fun before after h => ?_⟩
    -- the quote is no backslash; it may be the letter, or it stands behind the pair
    match before with
    | [] => exact absurd (List.cons.inj h).1.symm hquote
    | [_] =>
      obtain ⟨rfl, -⟩ := List.cons.inj h
      exact ⟨[], .nil, rfl⟩
    | _ :: _ :: before =>
      cases h
      exact opensPair_pair.mpr ⟨hletter, hopens before after rfl⟩

end Literal

/-! ## Reading -/

/-- A character that is no backslash. -/
theorem takeBody?_cons {quote c : Char} (hc : c ≠ '\\') (rest : Text) :
    Literal.takeBody? quote (c :: rest) =
      if c = quote then some ([], rest)
      else (Literal.takeBody? quote rest).map fun (body, after) => (c :: body, after) := by
  rw [Literal.takeBody?]
  · exact fun h _ => hc h
  · exact fun _ _ h _ => hc h

/-- A backslash with the letter of an escape. -/
theorem takeBody?_pair {quote letter : Char} (hletter : letter ∈ escapeLetters) (rest : Text) :
    Literal.takeBody? quote ('\\' :: letter :: rest) =
      (Literal.takeBody? quote rest).map fun (body, after) => ('\\' :: letter :: body, after) := by
  rw [Literal.takeBody?, if_pos (isEscapeLetter_iff.mpr hletter)]

namespace Literal

/-- What was found is a body, the quote behind it and the rest. -/
theorem isQuotedBody_of_takeBody? {quote : Char} {t body after : Text}
    (h : takeBody? quote t = some (body, after)) :
    quote ≠ '\\' ∧ t = body ++ quote :: after ∧ IsQuotedBody quote body := by
  fun_induction takeBody? quote t generalizing body with
  | case1 | case2 | case4 => cases h
  | case3 letter rest hletter ih =>
    obtain ⟨⟨body, after'⟩, hrest, heq⟩ := Option.map_eq_some_iff.mp h
    obtain ⟨rfl, rfl⟩ := Prod.mk.inj heq
    obtain ⟨hquote, rfl, hbody⟩ := ih hrest
    exact ⟨hquote, rfl, (isQuotedBody_pair hquote).mpr ⟨isEscapeLetter_iff.mp hletter, hbody⟩⟩
  | case5 rest hend hescape =>
    obtain ⟨rfl, rfl⟩ := Prod.mk.inj (Option.some.inj h)
    exact ⟨ne_backslash hend hescape, rfl, isQuotedBody_nil⟩
  | case6 c rest hend hescape hc ih =>
    obtain ⟨⟨body, after'⟩, hrest, heq⟩ := Option.map_eq_some_iff.mp h
    obtain ⟨rfl, rfl⟩ := Prod.mk.inj heq
    obtain ⟨hquote, rfl, hbody⟩ := ih hrest
    exact ⟨hquote, rfl, (isQuotedBody_cons (ne_backslash hend hescape)).mpr ⟨hc, hbody⟩⟩

/-- A body is found, whatever stands behind its closing quote. -/
theorem IsQuotedBody.takeBody?_eq {quote : Char} (hquote : quote ≠ '\\') {body : Text}
    (h : IsQuotedBody quote body) (after : Text) :
    takeBody? quote (body ++ quote :: after) = some (body, after) := by
  have hpaired := h.isPaired
  induction hpaired with
  | nil => rw [List.nil_append, takeBody?_cons hquote, if_pos rfl]
  | lone hc _ ih =>
    obtain ⟨hne, hrest⟩ := (isQuotedBody_cons hc).mp h
    rw [List.cons_append, takeBody?_cons hc, if_neg hne, ih hrest]
    rfl
  | pair hletter _ ih =>
    obtain ⟨-, hrest⟩ := (isQuotedBody_pair hquote).mp h
    rw [List.cons_append, List.cons_append, takeBody?_pair hletter, ih hrest]
    rfl

/-- The reader finds exactly the bodies. -/
theorem takeBody?_eq_some_iff {quote : Char} {t body after : Text} :
    takeBody? quote t = some (body, after) ↔
      quote ≠ '\\' ∧ t = body ++ quote :: after ∧ IsQuotedBody quote body := by
  constructor
  · exact isQuotedBody_of_takeBody?
  · rintro ⟨hquote, rfl, hbody⟩
    exact hbody.takeBody?_eq hquote after

/-- A quote behind pairs ends a literal there or further to the front. -/
theorem IsPaired.exists_takeBody? {quote : Char} (hquote : quote ≠ '\\') {before : Text}
    (h : IsPaired before) (after : Text) :
    ∃ found, takeBody? quote (before ++ quote :: after) = some found := by
  induction h with
  | nil => exact ⟨_, isQuotedBody_nil.takeBody?_eq hquote after⟩
  | @lone c rest hc _ ih =>
    rw [List.cons_append, takeBody?_cons hc]
    split
    · exact ⟨_, rfl⟩
    · exact ih.imp' _ fun _ hfound => by rw [hfound, Option.map_some]
  | pair hletter _ ih =>
    rw [List.cons_append, List.cons_append, takeBody?_pair hletter]
    exact ih.imp' _ fun _ hfound => by rw [hfound, Option.map_some]

/-- A literal at the start of a text is the quote, a body, the quote again and what follows. -/
theorem takeQuoted?_eq_some_iff {quote : Char} {t body rest : Text} :
    takeQuoted? quote t = some (body, rest) ↔
      quote ≠ '\\' ∧ t = quote :: (body ++ quote :: rest) ∧ IsQuotedBody quote body := by
  cases t with
  | nil => simp [takeQuoted?]
  | cons c t =>
    rw [takeQuoted?, List.cons.injEq]
    split
    · rename_i hc
      rw [takeBody?_eq_some_iff]
      simp [hc]
    · rename_i hc
      simp [hc]

/-- A quoted literal and the rest are the text. -/
theorem eq_of_takeBody? {quote : Char} {t body after : Text}
    (h : takeBody? quote t = some (body, after)) : t = body ++ quote :: after :=
  (takeBody?_eq_some_iff.mp h).2.1

end Literal

/-- A quoted literal does not depend on what stands behind it. -/
theorem takeBody?_whole {quote : Char} {t body after : Text}
    (h : Literal.takeBody? quote t = some (body, after)) (u : Text) :
    Literal.takeBody? quote (body ++ quote :: u) = some (body, u) := by
  obtain ⟨hquote, -, hbody⟩ := takeBody?_eq_some_iff.mp h
  exact hbody.takeBody?_eq hquote u

/-- Whatever is put behind a quoted literal does not change it. -/
theorem takeBody?_append {quote : Char} {t body after : Text}
    (h : Literal.takeBody? quote t = some (body, after)) (u : Text) :
    Literal.takeBody? quote (t ++ u) = some (body, after ++ u) := by
  rw [Literal.eq_of_takeBody? h, List.append_assoc]
  exact takeBody?_whole h (after ++ u)

end Smali
