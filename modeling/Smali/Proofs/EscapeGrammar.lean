import Smali.Proofs.Scalars
import Mathlib.Data.List.Chain

/-!
# The grammar of escapes

A body is a sequence of parts: characters, escapes of one letter, and runs of escapes that give
UTF-16 units. With runs as long as they can be there is at most one way to take a body apart. It
resolves if there is one and the units of each run are those of a text, and it denotes what its
parts denote, one after another. In every other case the quoted literal with this body is refused.
-/

namespace Smali

open Text Literal

/-! ## Units -/

namespace Text.Utf16

/-- A character has the number that it was made of. -/
theorem toNat_ofNat {n : Nat} (h : n.isValidChar) : (Char.ofNat n).toNat = n := by
  rw [Char.ofNat, dif_pos h]
  rfl

/-- A unit that is no surrogate is that of its character. -/
theorem encode_ofNat {u : Nat} (hu : u < 0x10000) (hhigh : isHigh u = false)
    (hlow : isLow u = false) : encode (Char.ofNat u) = [u] := by
  simp only [isHigh, isLow, Bool.and_eq_false_iff, decide_eq_false_iff_not] at hhigh hlow
  have hvalid : u.isValidChar := by
    unfold Nat.isValidChar
    omega
  rw [encode, toNat_ofNat hvalid]
  exact if_pos hu

/-- Two surrogates are the units of the character of the pair. -/
theorem encode_ofPair {high low : Nat} (hhigh : isHigh high = true) (hlow : isLow low = true) :
    encode (ofPair high low) = [high, low] := by
  simp only [isHigh, isLow, Bool.and_eq_true, decide_eq_true_eq] at hhigh hlow
  have hvalid : (0x10000 + (high - 0xD800) * 0x400 + (low - 0xDC00)).isValidChar := by
    unfold Nat.isValidChar
    omega
  have hsplit : 0x10000 + (high - 0xD800) * 0x400 + (low - 0xDC00) - 0x10000 =
      (high - 0xD800) * 0x400 + (low - 0xDC00) := by omega
  rw [encode, ofPair, toNat_ofNat hvalid, if_neg (by omega), hsplit]
  refine congrArg₂ (fun a b => [a, b]) ?_ ?_ <;> omega

/-- The text of units has these units. -/
theorem flatMap_encode_of_decode {units : List Nat} {t : Text} (hunits : ∀ u ∈ units, u < 0x10000)
    (h : decode units = .ok t) : t.flatMap encode = units := by
  fun_induction decode units generalizing t with
  | case1 =>
    cases h
    rfl
  | case2 u hsurrogate => cases h
  | case3 u hsurrogate =>
    cases h
    simp only [Bool.or_eq_true, not_or, Bool.not_eq_true] at hsurrogate
    simp [encode_ofNat (hunits u List.mem_cons_self) hsurrogate.1 hsurrogate.2]
  | case4 u v rest hhigh hlow ih =>
    obtain ⟨more, hmore, rfl⟩ := exists_of_map_eq_ok h
    have hrest := ih (fun w hw => hunits w (by simp [hw])) hmore
    rw [List.flatMap_cons, hrest, encode_ofPair hhigh hlow]
    rfl
  | case5 => cases h
  | case6 => cases h
  | case7 u v rest hhigh hlow ih =>
    obtain ⟨more, hmore, rfl⟩ := exists_of_map_eq_ok h
    have hrest := ih (fun w hw => hunits w (List.mem_cons_of_mem _ hw)) hmore
    rw [List.flatMap_cons, hrest, encode_ofNat (hunits u List.mem_cons_self)
      (Bool.not_eq_true _ ▸ hhigh) (Bool.not_eq_true _ ▸ hlow)]
    rfl

end Text.Utf16

namespace Literal

/-! ## Parts -/

/-- The letters that stand behind a backslash, each with the character that it gives. -/
def letters : List (Char × Char) :=
  [('n', '\n'), ('r', '\r'), ('t', '\t'), ('b', '\x08'), ('f', '\x0c'), ('"', '"'), ('\'', '\''),
    ('\\', '\\')]

/-- Four hexadecimal digits, or a plus sign and three of them. -/
def IsUnitSpelling (digits : Text) : Prop :=
  digits.length = 4 ∧ (dropPlus digits).all isHexDigit = true

instance (digits : Text) : Decidable (IsUnitSpelling digits) :=
  inferInstanceAs (Decidable (digits.length = 4 ∧ (dropPlus digits).all isHexDigit = true))

/-- A part of a body. -/
inductive Part where
  /-- A character. -/
  | plain (c : Char)
  /-- A backslash and a letter. -/
  | simple (letter : Char)
  /-- A run of escapes of units, by their digits. -/
  | run (units : List Text)
  deriving DecidableEq, Repr

namespace Part

/-- The spelling of a part. -/
def text : Part → Text
  | .plain c => [c]
  | .simple letter => ['\\', letter]
  | .run units => units.flatMap fun digits => '\\' :: 'u' :: digits

/-- Whether a part is spelled as one should be. -/
def IsWritten : Part → Prop
  | .plain c => c ≠ '\\'
  | .simple letter => letter ∈ letters.map Prod.fst
  | .run units => units ≠ [] ∧ ∀ digits ∈ units, IsUnitSpelling digits

/-- Whether a part is a run of units. -/
def IsRun : Part → Prop
  | .run _ => True
  | _ => False

instance (part : Part) : Decidable part.IsWritten :=
  match part with
  | .plain c => inferInstanceAs (Decidable (c ≠ '\\'))
  | .simple letter => inferInstanceAs (Decidable (letter ∈ letters.map Prod.fst))
  | .run units => inferInstanceAs (Decidable (units ≠ [] ∧ ∀ digits ∈ units, IsUnitSpelling digits))

instance (part : Part) : Decidable part.IsRun :=
  match part with
  | .run _ => .isTrue trivial
  | .plain _ | .simple _ => .isFalse id

/-- The number that the digits of a unit give. -/
def unitValue (digits : Text) : Nat := valueIn 16 (dropPlus digits)

/-- What a part denotes. The units of a run must be those of a text. -/
def Denotes : Part → Text → Prop
  | .plain c, t => t = [c]
  | .simple letter, t => ∃ c, (letter, c) ∈ letters ∧ t = [c]
  | .run units, t => units.map unitValue = t.flatMap Utf16.encode

end Part

/-- The parts of a body, the runs as long as they can be. -/
structure IsParted (parts : List Part) (body : Text) : Prop where
  /-- Together they are the body. -/
  text : parts.flatMap Part.text = body
  /-- Each is spelled as one should be. -/
  isWritten : ∀ part ∈ parts, part.IsWritten
  /-- No run stands next to another one. -/
  maximal : parts.IsChain fun a b => ¬(a.IsRun ∧ b.IsRun)

/-- The first part and the others. -/
theorem isParted_cons {part : Part} {parts : List Part} {body : Text} :
    IsParted (part :: parts) body ↔ part.IsWritten ∧
      (∀ next ∈ parts.head?, ¬(part.IsRun ∧ next.IsRun)) ∧
      ∃ rest, body = part.text ++ rest ∧ IsParted parts rest := by
  constructor
  · rintro ⟨htext, hwritten, hmaximal⟩
    obtain ⟨hnext, hmaximal⟩ := List.isChain_cons.mp hmaximal
    obtain ⟨hpart, hwritten⟩ := List.forall_mem_cons.mp hwritten
    exact ⟨hpart, hnext, _, htext.symm, rfl, hwritten, hmaximal⟩
  · rintro ⟨hpart, hnext, rest, rfl, rfl, hwritten, hmaximal⟩
    exact ⟨rfl, List.forall_mem_cons.mpr ⟨hpart, hwritten⟩,
      List.isChain_cons.mpr ⟨hnext, hmaximal⟩⟩

/-- No parts make no body. -/
theorem isParted_nil : IsParted [] [] := ⟨rfl, fun _ h => absurd h List.not_mem_nil, .nil⟩

/-! ## Units of a run -/

/-- The value of a digit. -/
theorem digitValue_lt (c : Char) : digitValue c < 16 := by
  unfold digitValue
  split
  · rename_i h
    have hrange : 0x30 ≤ c.toNat ∧ c.toNat ≤ 0x39 := h
    omega
  · split
    · rename_i h
      have hrange : 0x61 ≤ c.toNat ∧ c.toNat ≤ 0x66 := h
      omega
    · split
      · rename_i h
        have hrange : 0x41 ≤ c.toNat ∧ c.toNat ≤ 0x46 := h
        omega
      · omega

/-- A unit has sixteen bits. -/
theorem unitValue_lt {digits : Text} (h : IsUnitSpelling digits) :
    Part.unitValue digits < 0x10000 := by
  have hlength : (dropPlus digits).length ≤ 4 := by
    rw [← h.1]
    unfold dropPlus
    split <;> simp
  have hdigits : ∀ d ∈ (dropPlus digits).reverse.map digitValue, d < 16 := by
    intro d hd
    obtain ⟨c, -, rfl⟩ := List.mem_map.mp hd
    exact digitValue_lt c
  rw [Part.unitValue, valueIn_eq_ofDigits]
  refine (Nat.ofDigits_lt_base_pow_length (by omega) hdigits).trans_le ?_
  rw [List.length_map, List.length_reverse]
  exact Nat.pow_le_pow_right (by omega) hlength

/-- A unit is read from its digits. -/
theorem unit?_eq_some_iff {digits : Text} {u : Nat} :
    unit? digits = some u ↔ IsUnitSpelling digits ∧ Part.unitValue digits = u := by
  unfold unit? IsUnitSpelling Part.unitValue
  split
  · rename_i hlength
    have hne : dropPlus digits ≠ [] := by
      unfold dropPlus
      split
      · rintro rfl
        cases hlength
      · rintro rfl
        cases hlength
    simp [hex?, hne, hlength]
  · rename_i hlength
    simp [hlength]

/-- The first escape of a run. -/
theorem Part.text_run_cons (digits : Text) (units : List Text) (rest : Text) :
    (Part.run (digits :: units)).text ++ rest =
      '\\' :: 'u' :: (digits ++ ((Part.run units).text ++ rest)) := by
  simp [Part.text]

/-- The escapes of a run add its units to those in front. -/
theorem resolve_run (body : Text) (run : List Nat) {units : List Text}
    (h : ∀ digits ∈ units, IsUnitSpelling digits) (rest : Text) :
    resolve body run ((Part.run units).text ++ rest) =
      resolve body ((units.map Part.unitValue).reverse ++ run) rest := by
  induction units generalizing run with
  | nil => rfl
  | cons digits units ih =>
    have hunit := unit?_eq_some_iff.mpr ⟨h digits List.mem_cons_self, rfl⟩
    rw [Part.text_run_cons, resolve_unit body run hunit,
      ih _ fun d hd => h d (List.mem_cons_of_mem _ hd)]
    simp

/-- A run closes with the text that its part denotes. -/
theorem closeRun_eq_ok_iff {units : List Text} (h : ∀ digits ∈ units, IsUnitSpelling digits)
    {t : Text} :
    closeRun (units.map Part.unitValue).reverse = .ok t ↔ (Part.run units).Denotes t := by
  constructor
  · intro hclose
    rw [closeRun, List.reverse_reverse] at hclose
    have hdecode : Utf16.decode (units.map Part.unitValue) = .ok t := by
      cases hd : Utf16.decode (units.map Part.unitValue) with
      | error u => rw [hd] at hclose; cases hclose
      | ok text => rw [hd] at hclose; cases hclose; rfl
    refine (Utf16.flatMap_encode_of_decode (fun u hu => ?_) hdecode).symm
    obtain ⟨digits, hdigits, rfl⟩ := List.mem_map.mp hu
    exact unitValue_lt (h digits hdigits)
  · intro hdenotes
    have hunits : units.map Part.unitValue = t.flatMap Utf16.encode := hdenotes
    rw [hunits]
    exact closeRun_encode t

/-! ## From a result to the parts -/

/-- A letter has a character. -/
theorem mem_letters_of_simpleEscape? {letter c : Char} (h : simpleEscape? letter = some c) :
    (letter, c) ∈ letters := by
  unfold simpleEscape? at h
  split at h <;> cases h <;> decide

/-- A character has its letter. -/
theorem simpleEscape?_of_mem_letters {letter c : Char} (h : (letter, c) ∈ letters) :
    simpleEscape? letter = some c ∧ letter ≠ 'u' := by
  have hall : ∀ p ∈ letters, simpleEscape? p.1 = some p.2 ∧ p.1 ≠ 'u' := by decide
  exact hall _ h

/-- A pending run that closes is a part of its own, unless it is empty. -/
theorem IsParted.behind_run {units : List Text} {parts : List Part} {body before : Text}
    {texts : List Text} (hunits : ∀ digits ∈ units, IsUnitSpelling digits)
    (hbefore : closeRun (units.map Part.unitValue).reverse = .ok before)
    (h : IsParted parts body) (hfirst : ∀ part ∈ parts.head?, ¬part.IsRun)
    (hdenotes : List.Forall₂ Part.Denotes parts texts) :
    ∃ parts' texts', IsParted parts' ((Part.run units).text ++ body) ∧
      List.Forall₂ Part.Denotes parts' texts' ∧ texts'.flatten = before ++ texts.flatten := by
  by_cases hnil : units = []
  · subst hnil
    cases hbefore
    exact ⟨parts, texts, h, hdenotes, rfl⟩
  · refine ⟨.run units :: parts, before :: texts, ?_, ?_, rfl⟩
    · exact isParted_cons.mpr
        ⟨⟨hnil, hunits⟩, fun part hpart hruns => hfirst part hpart hruns.2, body, rfl, h⟩
    · exact .cons ((closeRun_eq_ok_iff hunits).mp hbefore) hdenotes

/-- What resolves has parts, and denotes what they denote. -/
theorem exists_parts_of_resolve {whole : Text} {run : List Nat} {rest t : Text} (units : List Text)
    (hunits : ∀ digits ∈ units, IsUnitSpelling digits)
    (hrun : run = (units.map Part.unitValue).reverse)
    (h : resolve whole run rest = .ok t) :
    ∃ parts texts, IsParted parts ((Part.run units).text ++ rest) ∧
      List.Forall₂ Part.Denotes parts texts ∧ texts.flatten = t := by
  have hnone : ∀ digits ∈ ([] : List Text), IsUnitSpelling digits :=
    fun _ hd => absurd hd List.not_mem_nil
  -- a part that is no run closes the pending run and starts over
  have hclose : ∀ {units : List Text} (part : Part) {more before after u : Text},
      (∀ digits ∈ units, IsUnitSpelling digits) →
      closeRun (units.map Part.unitValue).reverse = .ok before → part.IsWritten → ¬part.IsRun →
      part.Denotes u →
      (∃ parts texts, IsParted parts more ∧ List.Forall₂ Part.Denotes parts texts ∧
        texts.flatten = after) →
      ∃ parts texts, IsParted parts ((Part.run units).text ++ (part.text ++ more)) ∧
        List.Forall₂ Part.Denotes parts texts ∧ texts.flatten = before ++ (u ++ after) := by
    rintro units part more before _ u hunits hbefore hwritten hpart hu ⟨parts, texts, h, hd, rfl⟩
    have hparted : IsParted (part :: parts) (part.text ++ more) :=
      isParted_cons.mpr ⟨hwritten, fun _ _ hruns => hpart hruns.1, more, rfl, h⟩
    exact hparted.behind_run hunits hbefore (by rintro _ ⟨⟩; exact hpart) (.cons hu hd)
  fun_induction resolve whole run rest generalizing units t with
  | case1 run =>
    subst hrun
    obtain ⟨parts, texts, hparts, hdenotes, htext⟩ :=
      isParted_nil.behind_run hunits h (fun _ hp => by cases hp) .nil
    exact ⟨parts, texts, hparts, hdenotes, htext.trans (List.append_nil t)⟩
  | case2 run a b c d rest unit hunit ih =>
    obtain ⟨hdigits, hvalue⟩ := unit?_eq_some_iff.mp hunit
    obtain ⟨parts, texts, hparts, hmore⟩ := ih (units ++ [[a, b, c, d]])
      (List.forall_mem_append.mpr ⟨hunits, List.forall_mem_singleton.mpr hdigits⟩)
      (by simp [hrun, hvalue]) h
    refine ⟨parts, texts, ?_, hmore⟩
    simpa [Part.text] using hparts
  | case3 => cases h
  | case4 => cases h
  | case5 => cases h
  | case6 run letter rest _ _ ih =>
    subst hrun
    obtain ⟨before, hbefore, h⟩ := exists_of_bind_eq_ok h
    split at h
    · rename_i c hsimple
      obtain ⟨after, hafter, h⟩ := exists_of_bind_eq_ok h
      cases h
      have hmem := mem_letters_of_simpleEscape? hsimple
      exact hclose (.simple letter) hunits hbefore (List.mem_map.mpr ⟨_, hmem, rfl⟩) id
        ⟨c, hmem, rfl⟩ (ih [] hnone rfl hafter)
    · cases h
  | case7 run c rest hunit hshort hend hletter ih =>
    subst hrun
    obtain ⟨before, hbefore, h⟩ := exists_of_bind_eq_ok h
    obtain ⟨after, hafter, h⟩ := exists_of_bind_eq_ok h
    cases h
    have hplain := ne_backslash hend hletter
    exact hclose (.plain c) hunits hbefore hplain id rfl (ih [] hnone rfl hafter)

/-! ## From the parts to the result -/

/-- A part that is no run closes the run in front of it. -/
theorem resolve_of_maximal (whole : Text) (run : List Nat) {parts : List Part} {body : Text}
    (h : IsParted parts body) (hfirst : ∀ part ∈ parts.head?, ¬part.IsRun) :
    resolve whole run body = (do
      let before ← closeRun run
      return before ++ (← resolve whole [] body)) := by
  cases parts with
  | nil =>
    obtain rfl : body = [] := h.text.symm
    have hnil : resolve whole [] [] = .ok [] := rfl
    rw [hnil]
    change closeRun run = _
    cases closeRun run with
    | error flaw => rfl
    | ok before => exact congrArg Except.ok (List.append_nil before).symm
  | cons part parts =>
    obtain ⟨hwritten, -, rest, rfl, -⟩ := isParted_cons.mp h
    cases part with
    | plain c =>
      have hnil : closeRun [] = .ok [] := rfl
      simp only [Part.text, List.cons_append, List.nil_append, resolve_plain whole _ hwritten, hnil]
      cases closeRun run <;> cases resolve whole [] rest <;> rfl
    | simple letter =>
      obtain ⟨⟨_, c⟩, hmem, rfl⟩ := List.mem_map.mp hwritten
      obtain ⟨hsimple, hne⟩ := simpleEscape?_of_mem_letters hmem
      have hnil : closeRun [] = .ok [] := rfl
      simp only [Part.text, List.cons_append, List.nil_append, resolve_letter whole _ hne, hnil,
        hsimple]
      cases closeRun run <;> cases resolve whole [] rest <;> rfl
    | run units => exact absurd trivial (hfirst _ rfl)

/-- A body resolves to what its parts denote. -/
theorem IsParted.resolve_eq (whole : Text) {parts : List Part} {body : Text} {texts : List Text}
    (h : IsParted parts body) (hdenotes : List.Forall₂ Part.Denotes parts texts) :
    resolve whole [] body = .ok texts.flatten := by
  induction hdenotes generalizing body with
  | nil =>
    obtain rfl : body = [] := h.text.symm
    rfl
  | @cons part t parts texts ht hdenotes ih =>
    obtain ⟨hwritten, hnext, rest, rfl, hrest⟩ := isParted_cons.mp h
    have hmore := ih hrest
    cases part with
    | plain c =>
      obtain rfl : t = [c] := ht
      simp only [Part.text, List.cons_append, List.nil_append, resolve_plain whole _ hwritten,
        hmore]
      rfl
    | simple letter =>
      obtain ⟨c, hmem, rfl⟩ := ht
      obtain ⟨hsimple, hne⟩ := simpleEscape?_of_mem_letters hmem
      simp only [Part.text, List.cons_append, List.nil_append, resolve_letter whole _ hne, hsimple,
        hmore]
      rfl
    | run units =>
      have hfirst : ∀ part ∈ parts.head?, ¬part.IsRun := fun p hp hrun => hnext p hp ⟨trivial, hrun⟩
      rw [resolve_run whole [] hwritten.2, List.append_nil, resolve_of_maximal whole _ hrest hfirst,
        (closeRun_eq_ok_iff hwritten.2).mpr ht, hmore]
      rfl

/-! ## One way to take a body apart -/

/-- The spelling of a part by its first character, which is a backslash unless the part is a
character, and the second one, which is `u` for runs and never for letters. -/
theorem Part.IsWritten.first {part : Part} (h : part.IsWritten) :
    match part with
    | .plain c => part.text = [c] ∧ c ≠ '\\'
    | .simple letter => part.text = ['\\', letter] ∧ letter ≠ 'u'
    | .run _ => ∃ more, part.text = '\\' :: 'u' :: more := by
  cases part with
  | plain c => exact ⟨rfl, h⟩
  | simple letter =>
    refine ⟨rfl, ?_⟩
    rintro rfl
    exact absurd h (by decide : 'u' ∉ letters.map Prod.fst)
  | run units =>
    obtain ⟨digits, more, rfl⟩ := List.exists_cons_of_ne_nil h.1
    exact ⟨_, List.flatMap_cons⟩

/-- Behind a run the body goes on with something else. -/
theorem IsParted.ne_unit {parts : List Part} {body more : Text} (h : IsParted parts body)
    (hfirst : ∀ part ∈ parts.head?, ¬part.IsRun) : body ≠ '\\' :: 'u' :: more := by
  rintro rfl
  cases parts with
  | nil => cases h.text
  | cons part parts =>
    obtain ⟨hwritten, -, rest, htext, -⟩ := isParted_cons.mp h
    have hstart := hwritten.first
    cases part with
    | plain c => exact hstart.2 (List.cons.inj htext).1.symm
    | simple letter => exact hstart.2 (List.cons.inj (List.cons.inj htext).2).1.symm
    | run units => exact hfirst _ rfl trivial

/-- A run that ends where no further unit stands has its units. -/
theorem run_inj {units units' : List Text} {rest rest' : Text}
    (hunits : ∀ digits ∈ units, IsUnitSpelling digits)
    (hunits' : ∀ digits ∈ units', IsUnitSpelling digits)
    (hrest : ∀ more, rest ≠ '\\' :: 'u' :: more) (hrest' : ∀ more, rest' ≠ '\\' :: 'u' :: more)
    (h : (Part.run units).text ++ rest = (Part.run units').text ++ rest') :
    units = units' ∧ rest = rest' := by
  induction units generalizing units' with
  | nil =>
    cases units' with
    | nil => exact ⟨rfl, h⟩
    | cons digits' units' =>
      rw [Part.text_run_cons] at h
      exact absurd h (hrest _)
  | cons digits units ih =>
    cases units' with
    | nil =>
      rw [Part.text_run_cons] at h
      exact absurd h.symm (hrest' _)
    | cons digits' units' =>
      rw [Part.text_run_cons, Part.text_run_cons] at h
      obtain ⟨hdigits, hmore⟩ := List.append_inj (List.cons.inj (List.cons.inj h).2).2
        ((hunits _ List.mem_cons_self).1.trans (hunits' _ List.mem_cons_self).1.symm)
      obtain ⟨hunits, hrest⟩ := ih (fun d hd => hunits d (List.mem_cons_of_mem _ hd))
        (fun d hd => hunits' d (List.mem_cons_of_mem _ hd)) hmore
      exact ⟨congrArg₂ List.cons hdigits hunits, hrest⟩

/-- The first part of a body is found from the body. -/
theorem head_inj {part part' : Part} {rest rest' : Text} (hpart : part.IsWritten)
    (hpart' : part'.IsWritten) (hrest : part.IsRun → ∀ more, rest ≠ '\\' :: 'u' :: more)
    (hrest' : part'.IsRun → ∀ more, rest' ≠ '\\' :: 'u' :: more)
    (h : part.text ++ rest = part'.text ++ rest') : part = part' ∧ rest = rest' := by
  have hfirst := hpart.first
  have hfirst' := hpart'.first
  cases part with
  | plain c =>
    cases part' with
    | plain c' =>
      obtain ⟨rfl, rfl⟩ := List.cons.inj h
      exact ⟨rfl, rfl⟩
    | simple letter => exact absurd (List.cons.inj h).1 hfirst.2
    | run units =>
      obtain ⟨more, hmore⟩ := hfirst'
      rw [hmore] at h
      exact absurd (List.cons.inj h).1 hfirst.2
  | simple letter =>
    cases part' with
    | plain c => exact absurd (List.cons.inj h).1.symm hfirst'.2
    | simple letter' =>
      obtain ⟨rfl, rfl⟩ := List.cons.inj (List.cons.inj h).2
      exact ⟨rfl, rfl⟩
    | run units =>
      obtain ⟨more, hmore⟩ := hfirst'
      rw [hmore] at h
      exact absurd (List.cons.inj (List.cons.inj h).2).1 hfirst.2
  | run units =>
    obtain ⟨more, hmore⟩ := hfirst
    cases part' with
    | plain c =>
      rw [hmore] at h
      exact absurd (List.cons.inj h).1.symm hfirst'.2
    | simple letter =>
      rw [hmore] at h
      exact absurd (List.cons.inj (List.cons.inj h).2).1.symm hfirst'.2
    | run units' =>
      obtain ⟨rfl, rfl⟩ := run_inj hpart.2 hpart'.2 (hrest trivial) (hrest' trivial) h
      exact ⟨rfl, rfl⟩

/-- A body has at most one sequence of parts. -/
theorem IsParted.unique {parts parts' : List Part} {body : Text} (h : IsParted parts body)
    (h' : IsParted parts' body) : parts = parts' := by
  have hne : ∀ part : Part, part.IsWritten → part.text ≠ [] := by
    intro part hpart
    have hfirst := hpart.first
    cases part with
    | plain c => exact List.cons_ne_nil _ _
    | simple letter => exact List.cons_ne_nil _ _
    | run units =>
      obtain ⟨more, hmore⟩ := hfirst
      exact hmore ▸ List.cons_ne_nil _ _
  induction parts generalizing parts' body with
  | nil =>
    obtain rfl : body = [] := h.text.symm
    cases parts' with
    | nil => rfl
    | cons part' parts' =>
      obtain ⟨hwritten, -, rest, htext, -⟩ := isParted_cons.mp h'
      exact absurd (List.append_eq_nil_iff.mp htext.symm).1 (hne _ hwritten)
  | cons part parts ih =>
    obtain ⟨hwritten, hnext, rest, rfl, hrest⟩ := isParted_cons.mp h
    cases parts' with
    | nil => exact absurd (List.append_eq_nil_iff.mp h'.text.symm).1 (hne _ hwritten)
    | cons part' parts' =>
      obtain ⟨hwritten', hnext', rest', htext, hrest'⟩ := isParted_cons.mp h'
      obtain ⟨rfl, rfl⟩ := head_inj hwritten hwritten'
        (fun hrun more => hrest.ne_unit fun p hp hp' => hnext p hp ⟨hrun, hp'⟩)
        (fun hrun more => hrest'.ne_unit fun p hp hp' => hnext' p hp ⟨hrun, hp'⟩) htext
      rw [ih hrest hrest']

/-! ## All bodies -/

/-- A quoted literal with a body that does not resolve is refused. -/
theorem isRefused_of_unescape {quote : Char} (hquote : quote = '"' ∨ quote = '\'') {body : Text}
    {flaw : EscapeFlaw} (h : unescape body = .error flaw) :
    IsRefused (quote :: body ++ [quote]) := by
  have hquoted : ∃ flaw, quotedText quote (quote :: body ++ [quote]) = .error flaw := by
    unfold quotedText
    split
    · rename_i found hfound
      unfold quotedBody? at hfound
      split at hfound
      · rename_i other htake
        obtain rfl := Option.some.inj hfound
        have htext := (takeQuoted?_eq_some_iff.mp htake).2.1
        obtain rfl := List.append_cancel_right (List.cons.inj htext).2
        exact ⟨.escape flaw, by rw [h]; rfl⟩
      · cases hfound
    · exact ⟨_, rfl⟩
  have htrim : trim (quote :: body ++ [quote]) = quote :: body ++ [quote] := by
    have hblank : isBlank quote = false := by obtain rfl | rfl := hquote <;> rfl
    exact (isTrimmed_of_ends rfl List.getLast?_concat hblank hblank).trim_eq
  obtain ⟨flaw, hflaw⟩ := hquoted
  have hshape : shape (trim (quote :: body ++ [quote])) =
      .leaf (scalar (quote :: body ++ [quote])) := by
    rw [htrim, List.cons_append]
    exact shape_of_first (by obtain rfl | rfl := hquote <;> decide) _
  refine isRefused_of_decode ((decode_of_leaf hshape).trans (?_ : _ = Except.error flaw))
  obtain rfl | rfl := hquote
  · rw [List.cons_append] at hflaw ⊢
    rw [scalar, hflaw]
    rfl
  · rw [List.cons_append] at hflaw ⊢
    rw [scalar, hflaw]
    rfl

end Literal

/-- A body resolves exactly if it has parts whose runs are the units of texts. There is then no
other way to take it apart, and it denotes what its parts denote, one after another. A literal
with any other body is refused. -/
theorem unescape_iff_parts (body : Text) :
    ((∃ t, unescape body = .ok t) ↔
      ∃ parts, IsParted parts body ∧ ∀ part ∈ parts, ∃ t, part.Denotes t) ∧
    (∀ parts parts', IsParted parts body → IsParted parts' body → parts = parts') ∧
    (∀ parts t, IsParted parts body → unescape body = .ok t →
      ∃ texts, List.Forall₂ Part.Denotes parts texts ∧ t = texts.flatten) ∧
    ∀ flaw, unescape body = .error flaw →
      ∀ quote ∈ ['"', '\''], IsRefused (quote :: body ++ [quote]) := by
  have hsome : ∀ t, unescape body = .ok t → ∃ parts texts, IsParted parts body ∧
      List.Forall₂ Part.Denotes parts texts ∧ texts.flatten = t :=
    fun t h => exists_parts_of_resolve [] (fun _ hd => absurd hd List.not_mem_nil) rfl h
  refine ⟨⟨?_, ?_⟩, fun _ _ h h' => h.unique h', ?_, ?_⟩
  · rintro ⟨t, h⟩
    obtain ⟨parts, texts, hparts, hdenotes, -⟩ := hsome t h
    exact ⟨parts, hparts, fun part hpart => by
      obtain ⟨t, -, ht⟩ := exists_of_forall₂ (List.Forall₂.flip hdenotes) hpart
      exact ⟨t, ht⟩⟩
  · rintro ⟨parts, hparts, hall⟩
    obtain ⟨texts, hdenotes⟩ : ∃ texts, List.Forall₂ Part.Denotes parts texts := by
      clear hparts
      induction parts with
      | nil => exact ⟨[], .nil⟩
      | cons part parts ih =>
        obtain ⟨⟨t, ht⟩, hall⟩ := List.forall_mem_cons.mp hall
        obtain ⟨texts, htexts⟩ := ih hall
        exact ⟨t :: texts, .cons ht htexts⟩
    exact ⟨_, hparts.resolve_eq body hdenotes⟩
  · intro parts t hparts h
    obtain ⟨parts', texts, hparts', hdenotes, rfl⟩ := hsome t h
    obtain rfl := hparts.unique hparts'
    exact ⟨texts, hdenotes, rfl⟩
  · intro flaw h quote hquote
    exact isRefused_of_unescape (by simpa using hquote) h

/-- A character of two units behind another one and in front of a backslash and the letter `u`; the
one resolves to the parts, and half of the character is refused. -/
theorem unescape_iff_parts_at :
    (∃ texts, List.Forall₂ Part.Denotes
        [.plain 'a', .run ["D83D".toList, "de00".toList], .simple '\\', .plain 'u'] texts ∧
      "a😀\\u".toList = texts.flatten) ∧
      IsRefused "'\\ud83d'" := by
  have hparts : IsParted
      [.plain 'a', .run ["D83D".toList, "de00".toList], .simple '\\', .plain 'u']
      "a\\uD83D\\ude00\\\\u" := ⟨by decide, by decide, by decide⟩
  exact ⟨(unescape_iff_parts "a\\uD83D\\ude00\\\\u").2.2.1 _ _ hparts (by decide +kernel),
    (unescape_iff_parts "\\ud83d").2.2.2 (.unpaired 0xd83d) (by decide +kernel) '\'' (by decide)⟩

end Smali
