import Smali.Proofs.Inline
import Smali.Proofs.Places
import Mathlib.Data.Nat.Digits.Defs

/-!
# Escapes resolve to the text

A text in quotes is written with escapes, and resolving the escapes gives the text again. Units of
characters beyond ASCII follow one another without a break, so the resolver collects the units of
several characters before it decodes them; the main induction carries the characters whose units
have been collected. The closing quote is found behind the written form, because a quote inside it
always stands behind a backslash.
-/

namespace Smali

namespace Text

/-! ## Numerals -/

/-- A digit has its own value. -/
theorem digitValue_digitChar {d : Nat} (h : d < 16) : digitValue d.digitChar = d := by
  revert d
  decide

/-- The digits of numerals are hexadecimal digits. -/
theorem isHexDigit_digitChar {d : Nat} (h : d < 16) : isHexDigit d.digitChar = true := by
  revert d
  decide

/-- One more digit at the end. -/
theorem valueIn_append (base : Nat) (digits : Text) (c : Char) :
    valueIn base (digits ++ [c]) = valueIn base digits * base + digitValue c := by
  simp [valueIn, List.foldl_append]

/-- Digits have the number that positions give them. -/
theorem valueIn_eq_ofDigits (base : Nat) (digits : Text) :
    valueIn base digits = Nat.ofDigits base (digits.reverse.map digitValue) := by
  induction digits using List.reverseRecOn with
  | nil => rfl
  | append_singleton digits c ih =>
    rw [valueIn_append, ih, List.reverse_concat, List.map_cons, Nat.ofDigits_cons]
    ring

/-- A numeral has the value of the number. -/
theorem valueIn_toDigits {base : Nat} (hbase : 1 < base) (hle : base ≤ 16) (n : Nat) :
    valueIn base (Nat.toDigits base n) = n := by
  induction n using Nat.strong_induction_on with
  | _ n ih =>
    rw [Nat.toDigits_eq_if hbase]
    split
    · rename_i hlt
      have hdigit := digitValue_digitChar (d := n) (by omega)
      simpa [valueIn] using hdigit
    · have hmod := Nat.mod_lt n (y := base) (by omega)
      rw [valueIn_append, ih (n / base) (Nat.div_lt_self (by omega) hbase),
        digitValue_digitChar (by omega)]
      exact Nat.div_add_mod' n base

/-- The same for a hexadecimal numeral. -/
@[simp]
theorem valueIn_hex (n : Nat) : valueIn 16 (hex n) = n := valueIn_toDigits (by omega) le_rfl n

/-- Zeros in front do not matter. -/
theorem valueIn_replicate (k : Nat) (digits : Text) :
    valueIn 16 (List.replicate k '0' ++ digits) = valueIn 16 digits := by
  induction k with
  | zero => rfl
  | succ k ih => exact ih

/-- A numeral consists of hexadecimal digits. -/
theorem isHexDigit_of_mem_hex {n : Nat} {c : Char} (h : c ∈ hex n) : isHexDigit c = true := by
  obtain ⟨d, hd, rfl⟩ := digitChar_of_mem_toDigits (by omega) h
  exact isHexDigit_digitChar hd

/-- A numeral has a digit. -/
theorem hex_ne_nil (n : Nat) : hex n ≠ [] :=
  List.ne_nil_of_length_pos Nat.length_toDigits_pos

/-- A numeral of a certain width has hexadecimal digits too. -/
theorem isHexDigit_of_mem_hexWidth {width n : Nat} {c : Char} (h : c ∈ hexWidth width n) :
    isHexDigit c = true := by
  cases List.mem_append.mp h with
  | inl h => rw [List.eq_of_mem_replicate h]; rfl
  | inr h => exact isHexDigit_of_mem_hex h

/-- A number of sixteen bits takes four digits. -/
theorem length_hexWidth {n : Nat} (h : n < 0x10000) : (hexWidth 4 n).length = 4 := by
  have hlength : (hex n).length ≤ 4 :=
    (Nat.length_toDigits_le_iff (by omega) (by omega)).mpr h
  simp only [hexWidth, List.length_append, List.length_replicate]
  omega

/-! ## Units -/

namespace Utf16

/-- A character is no surrogate, and it is in range. -/
theorem toNat_valid (c : Char) : c.toNat < 0xD800 ∨ 0xE000 ≤ c.toNat ∧ c.toNat < 0x110000 := by
  obtain h | h := c.valid
  · exact .inl h
  · exact .inr ⟨Nat.lt_of_succ_le h.1, h.2⟩

/-- The units of a character have sixteen bits. -/
theorem lt_of_mem_encode {c : Char} {unit : Nat} (h : unit ∈ encode c) : unit < 0x10000 := by
  have hvalid := toNat_valid c
  unfold encode at h
  dsimp only at h
  split at h
  · rw [List.mem_singleton.mp h]
    assumption
  · simp only [List.mem_cons, List.not_mem_nil, or_false] at h
    omega

/-- The units of a character in front of other units. -/
theorem decode_encode_append (c : Char) (units : List Nat) :
    decode (encode c ++ units) = (decode units).map (c :: ·) := by
  have hvalid := toNat_valid c
  unfold encode
  dsimp only
  split
  · -- one unit, which is no surrogate
    have hhigh : isHigh c.toNat = false := by simp [isHigh]; omega
    have hlow : isLow c.toNat = false := by simp [isLow]; omega
    cases units with
    | nil => simp [decode, hhigh, hlow, Except.map]
    | cons unit units => simp [decode, hhigh, hlow]
  · -- a pair of surrogates
    have hhigh : isHigh (0xD800 + (c.toNat - 0x10000) / 0x400) = true := by
      simp only [isHigh, Bool.and_eq_true, decide_eq_true_eq]
      omega
    have hlow : isLow (0xDC00 + (c.toNat - 0x10000) % 0x400) = true := by
      simp only [isLow, Bool.and_eq_true, decide_eq_true_eq]
      omega
    have hpair : ofPair (0xD800 + (c.toNat - 0x10000) / 0x400)
        (0xDC00 + (c.toNat - 0x10000) % 0x400) = c := by
      have hsum : 0x10000 + (0xD800 + (c.toNat - 0x10000) / 0x400 - 0xD800) * 0x400 +
          (0xDC00 + (c.toNat - 0x10000) % 0x400 - 0xDC00) = c.toNat := by omega
      rw [ofPair, hsum, Char.ofNat_toNat]
    simp only [List.cons_append, List.nil_append, decode, hhigh, hlow, if_true, hpair]

/-- The units of a text are those of its characters. -/
theorem decode_flatMap_encode (t : Text) : decode (t.flatMap encode) = .ok t := by
  induction t with
  | nil => rfl
  | cons c t ih => rw [List.flatMap_cons, decode_encode_append, ih, Except.map]

end Utf16

end Text

namespace Literal

open Text

/-! ## Resolving -/

/-- The digits of a unit denote it. -/
theorem unit?_hexWidth {unit : Nat} (h : unit < 0x10000) : unit? (hexWidth 4 unit) = some unit := by
  have hdigits : ∀ c ∈ hexWidth 4 unit, isHexDigit c = true :=
    fun c hc => isHexDigit_of_mem_hexWidth hc
  have hplus : dropPlus (hexWidth 4 unit) = hexWidth 4 unit := by
    unfold dropPlus
    split
    · rename_i rest heq
      have hfirst := hdigits '+' (heq ▸ List.mem_cons_self)
      exact absurd hfirst (by decide)
    · rfl
  have hvalue : valueIn 16 (hexWidth 4 unit) = unit := by
    rw [hexWidth, valueIn_replicate, valueIn_hex]
  have hne : hexWidth 4 unit ≠ [] := List.ne_nil_of_length_pos (by rw [length_hexWidth h]; omega)
  rw [unit?, if_pos (length_hexWidth h), hplus, hex?, hvalue,
    if_pos (by simp [hne, List.all_eq_true.mpr hdigits])]

/-- The digits of a unit add it to the run. -/
theorem resolve_unit (body : Text) (run : List Nat) {digits : Text} {unit : Nat}
    (h : unit? digits = some unit) (rest : Text) :
    resolve body run ('\\' :: 'u' :: (digits ++ rest)) = resolve body (unit :: run) rest := by
  have hlength : digits.length = 4 := by
    by_contra hne
    rw [unit?, if_neg hne] at h
    cases h
  match digits, hlength with
  | [a, b, c, d], _ => simp only [List.cons_append, List.nil_append, resolve, h]

/-- The escape of a unit adds it to the run. -/
theorem resolve_unitEscape (body : Text) (run : List Nat) {unit : Nat} (h : unit < 0x10000)
    (rest : Text) :
    resolve body run (unitEscape unit ++ rest) = resolve body (unit :: run) rest :=
  resolve_unit body run (unit?_hexWidth h) rest

/-- So do the escapes of several units. -/
theorem resolve_unitEscapes (body : Text) (run units : List Nat)
    (h : ∀ unit ∈ units, unit < 0x10000) (rest : Text) :
    resolve body run ((units.map unitEscape).flatten ++ rest) =
      resolve body (units.reverse ++ run) rest := by
  induction units generalizing run with
  | nil => rfl
  | cons unit units ih =>
    rw [List.map_cons, List.flatten_cons, List.append_assoc,
      resolve_unitEscape body run (h unit List.mem_cons_self),
      ih _ fun u hu => h u (List.mem_cons_of_mem _ hu), List.reverse_cons, List.append_assoc]
    rfl

/-- The run of the units of a text. -/
theorem closeRun_encode (t : Text) : closeRun (t.flatMap Utf16.encode).reverse = .ok t := by
  rw [closeRun, List.reverse_reverse, Utf16.decode_flatMap_encode]
  rfl

/-- The letter of an escape stands for the character. -/
theorem simpleEscape?_of_escapeLetter? {c letter : Char} (h : escapeLetter? c = some letter) :
    simpleEscape? letter = some c ∧ letter ≠ 'u' := by
  unfold escapeLetter? at h
  split at h <;>
    first | exact absurd h (Option.some_ne_none _).symm | (cases h; exact ⟨rfl, by decide⟩)

/-- A character without a letter is no backslash. -/
theorem ne_backslash_of_escapeLetter? {c : Char} (h : escapeLetter? c = none) : c ≠ '\\' := by
  rintro rfl
  exact absurd h (by decide)

/-- An escape of one letter ends a run. -/
theorem resolve_letter (body : Text) (run : List Nat) {letter : Char} (h : letter ≠ 'u')
    (rest : Text) :
    resolve body run ('\\' :: letter :: rest) = (do
      let before ← closeRun run
      match simpleEscape? letter with
      | some c => return before ++ c :: (← resolve body [] rest)
      | none => throw (.unknown letter)) := by
  have hunit : ∀ a b c d more, letter = 'u' → rest = a :: b :: c :: d :: more → False :=
    fun _ _ _ _ _ hletter _ => h hletter
  rw [resolve] <;> first | rfl | exact hunit | exact h

/-- Any other character ends a run as well. -/
theorem resolve_plain (body : Text) (run : List Nat) {c : Char} (h : c ≠ '\\') (rest : Text) :
    resolve body run (c :: rest) = (do
      let before ← closeRun run
      return before ++ c :: (← resolve body [] rest)) := by
  rw [resolve]
  · exact fun _ _ _ _ _ hc _ => h hc
  · exact fun _ hc _ => h hc
  · exact fun hc _ => h hc
  · exact fun _ _ hc _ => h hc

/-- Resolving the written form of a text, behind a run of the units of another one. -/
theorem resolve_escape (body before t : Text) :
    resolve body (before.flatMap Utf16.encode).reverse (escape t) = .ok (before ++ t) := by
  -- the run grows with each character that is written as units, and is empty behind any other
  induction t generalizing before with
  | nil =>
    rw [List.append_nil]
    exact closeRun_encode before
  | cons c t ih =>
    have hcons : escape (c :: t) = escapeChar c ++ escape t := by simp [escape]
    have hnil : resolve body [] (escape t) = .ok t := ih []
    rw [hcons, escapeChar]
    split
    · rename_i letter hletter
      obtain ⟨hsimple, hu⟩ := simpleEscape?_of_escapeLetter? hletter
      simp only [List.cons_append, List.nil_append, resolve_letter body _ hu, closeRun_encode,
        hsimple, hnil]
      rfl
    · rename_i hletter
      split
      · simp only [List.cons_append, List.nil_append,
          resolve_plain body _ (ne_backslash_of_escapeLetter? hletter), closeRun_encode, hnil]
        rfl
      · have hunits := resolve_unitEscapes body (before.flatMap Utf16.encode).reverse
          (Utf16.encode c) (fun _ => Utf16.lt_of_mem_encode) (escape t)
        have hrun : (Utf16.encode c).reverse ++ (before.flatMap Utf16.encode).reverse =
            ((before ++ [c]).flatMap Utf16.encode).reverse := by simp
        rw [hunits, hrun, ih (before ++ [c]), List.append_assoc]
        rfl

/-- Resolving undoes escaping. -/
@[simp]
theorem unescape_escape (t : Text) : unescape (escape t) = .ok t := resolve_escape _ [] t

/-! ## Quotes -/

/-- A body of a quoted literal with both quotes behind backslashes. -/
inductive IsBody : Text → Prop
  /-- No text. -/
  | nil : IsBody []
  /-- An escape. -/
  | escape {letter : Char} {rest : Text} (hletter : isEscapeLetter letter = true)
      (hrest : IsBody rest) : IsBody ('\\' :: letter :: rest)
  /-- A character that is neither a backslash nor a quote. -/
  | plain {c : Char} {rest : Text} (hbackslash : c ≠ '\\') (hdouble : c ≠ '"')
      (hsingle : c ≠ '\'') (hrest : IsBody rest) : IsBody (c :: rest)

namespace IsBody

/-- Two bodies. -/
theorem append {t u : Text} (ht : IsBody t) (hu : IsBody u) : IsBody (t ++ u) := by
  induction ht with
  | nil => exact hu
  | escape hletter _ ih => exact .escape hletter ih
  | plain hbackslash hdouble hsingle _ ih => exact .plain hbackslash hdouble hsingle ih

/-- Texts one after another. -/
theorem flatten {ts : List Text} (h : ∀ t ∈ ts, IsBody t) : IsBody ts.flatten := by
  induction ts with
  | nil => exact .nil
  | cons t ts ih =>
    exact (h t List.mem_cons_self).append (ih fun t ht => h t (List.mem_cons_of_mem _ ht))

/-- Hexadecimal digits. -/
theorem of_isHexDigit {t : Text} (h : ∀ c ∈ t, isHexDigit c = true) : IsBody t := by
  induction t with
  | nil => exact .nil
  | cons c t ih =>
    have hc := h c List.mem_cons_self
    refine .plain ?_ ?_ ?_ (ih fun c hc => h c (List.mem_cons_of_mem _ hc)) <;>
      (rintro rfl; exact absurd hc (by decide))

end IsBody

/-- The written form of a character is such a body. -/
theorem isBody_escapeChar (c : Char) : IsBody (escapeChar c) := by
  unfold escapeChar
  split
  · rename_i letter heq
    exact .escape (by simp [isEscapeLetter, (simpleEscape?_of_escapeLetter? heq).1]) .nil
  · rename_i heq
    split
    · refine .plain (ne_backslash_of_escapeLetter? heq) ?_ ?_ .nil <;>
        (rintro rfl; exact absurd heq (by decide))
    · refine IsBody.flatten fun t ht => ?_
      obtain ⟨unit, -, rfl⟩ := List.mem_map.mp ht
      exact .escape (by decide) (.of_isHexDigit fun _ hd => isHexDigit_of_mem_hexWidth hd)

/-- So is that of a text. -/
theorem isBody_escape (t : Text) : IsBody (escape t) := by
  refine IsBody.flatten fun u hu => ?_
  obtain ⟨c, -, rfl⟩ := List.mem_map.mp hu
  exact isBody_escapeChar c

/-- It is a body between quotes of either kind. -/
theorem IsBody.isQuotedBody {quote : Char} (hquote : quote = '"' ∨ quote = '\'') {body : Text}
    (h : IsBody body) : IsQuotedBody quote body := by
  have hslash : quote ≠ '\\' := by obtain rfl | rfl := hquote <;> decide
  induction h with
  | nil => exact isQuotedBody_nil
  | escape hletter _ ih => exact (isQuotedBody_pair hslash).mpr ⟨isEscapeLetter_iff.mp hletter, ih⟩
  | plain hbackslash hdouble hsingle _ ih =>
    refine (isQuotedBody_cons hbackslash).mpr ⟨?_, ih⟩
    obtain rfl | rfl := hquote
    · exact hdouble
    · exact hsingle

/-- The quote behind such a body closes the literal. -/
theorem IsBody.takeBody?_eq {quote : Char} (hquote : quote = '"' ∨ quote = '\'') {body : Text}
    (h : IsBody body) (rest : Text) :
    takeBody? quote (body ++ quote :: rest) = some (body, rest) := by
  have hslash : quote ≠ '\\' := by obtain rfl | rfl := hquote <;> decide
  exact (h.isQuotedBody hquote).takeBody?_eq hslash rest

/-- The written form of a text in quotes is found in front of any rest. -/
theorem takeQuoted?_escape {quote : Char} (hquote : quote = '"' ∨ quote = '\'') (t rest : Text) :
    takeQuoted? quote (quote :: escape t ++ quote :: rest) = some (escape t, rest) := by
  rw [List.cons_append, takeQuoted?, if_pos rfl, (isBody_escape t).takeBody?_eq hquote]

/-- A quoted text denotes the text. -/
theorem quotedText_escape {quote : Char} (hquote : quote = '"' ∨ quote = '\'') (t : Text) :
    quotedText quote (quote :: escape t ++ [quote]) = .ok t := by
  have hbody : quotedBody? quote (quote :: escape t ++ [quote]) = some (escape t) := by
    rw [quotedBody?, takeQuoted?_escape hquote]
  rw [quotedText, hbody]
  dsimp only
  rw [unescape_escape]
  rfl

end Literal

end Smali
