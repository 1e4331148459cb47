import Smali.Proofs.DirectiveLines
import Smali.Proofs.ValueLines

/-!
# Texts that are code

A text is code if it falls into words, marks, quoted literals and blanks. A number sign stands in
quotes only, so the scan of such a text takes all of it and finds no comment. The line that it
makes has a directive only if it starts with a point.
-/

namespace Smali

open Text Literal

/-! ## Words -/

/-- A word that is no malformed number. -/
structure IsWord (w : Text) : Prop where
  /-- It starts like a word. -/
  starts : ∃ c rest, w = c :: rest ∧ startsWord c = true
  /-- It does not end before its last character. -/
  word : ∀ c ∈ w, endsWord c = false
  /-- If it starts like a number, then it is one. -/
  number : startsLikeNumber w = true → isNumeral w = true

namespace IsWord

/-- Such a word is classified, and only one with a point in front is a directive. -/
theorem classify_eq {w : Text} (h : IsWord w) (position : Position) :
    ∃ kind, classify w position = .ok kind ∧ (w.head? ≠ some '.' → kind ≠ .directive) := by
  have hdirective : w.head? ≠ some '.' → isDirectiveWord w ≠ true := by
    intro hhead h
    unfold isDirectiveWord at h
    split at h
    · exact hhead rfl
    · exact Bool.false_ne_true h
  unfold classify
  split
  · exact ⟨_, rfl, fun _ => TokenKind.noConfusion⟩
  · split
    · rename_i h
      exact ⟨_, rfl, fun hhead => absurd h (hdirective hhead)⟩
    · split
      · exact ⟨_, rfl, fun _ => TokenKind.noConfusion⟩
      · rename_i hnumeral
        split
        · rename_i hlike
          simp only [Bool.and_eq_true] at hlike hnumeral
          exact absurd ⟨hlike.1.1, h.number hlike.1.1⟩ hnumeral
        · split
          · exact ⟨_, rfl, fun _ => TokenKind.noConfusion⟩
          · exact ⟨_, rfl, fun _ => TokenKind.noConfusion⟩

/-- A word that starts like no number. -/
theorem of_first {c : Char} {rest : Text} (hstart : startsWord c = true)
    (hword : ∀ d ∈ c :: rest, endsWord d = false) (hminus : c ≠ '-') (hplus : c ≠ '+')
    (hdigit : isDigit c = false) : IsWord (c :: rest) := by
  refine ⟨⟨c, rest, rfl, hstart⟩, hword, fun h => ?_⟩
  unfold startsLikeNumber at h
  split at h
  · rename_i heq
    exact absurd (List.cons.inj heq).1 hminus
  · rename_i heq
    exact absurd (List.cons.inj heq).1 hplus
  · rename_i heq
    rw [← (List.cons.inj heq).1, hdigit] at h
    exact absurd h Bool.false_ne_true
  · exact absurd h Bool.false_ne_true

/-- The keyword of a directive is a word. -/
theorem of_isKeyword {w : Text} (h : IsKeyword w) : IsWord w := by
  have hdirective := h.directive
  unfold isDirectiveWord at hdirective
  split at hdirective
  · exact of_first rfl h.word (by decide) (by decide) rfl
  · exact absurd hdirective Bool.false_ne_true

end IsWord

/-- A character of a reference ends no word. -/
theorem endsWord_of_isReferenceChar {c : Char} (h : isReferenceChar c = true) :
    endsWord c = false := by
  have hne : ∀ {d : Char}, isReferenceChar d = false → c ≠ d := by
    rintro d hd rfl
    exact Bool.false_ne_true (hd.symm.trans h)
  simp only [endsWord, Bool.or_eq_false_iff, beq_eq_false_iff_ne]
  exact ⟨⟨⟨⟨⟨⟨isBlank_of_isReferenceChar h, hne rfl⟩, hne rfl⟩, hne rfl⟩, hne rfl⟩, hne rfl⟩, hne rfl⟩

/-- A character of a reference starts a word. -/
theorem startsWord_of_isReferenceChar {c : Char} (h : isReferenceChar c = true) :
    startsWord c = true := by
  have hne : ∀ {d : Char}, isReferenceChar d = false → c ≠ d := by
    rintro d hd rfl
    exact Bool.false_ne_true (hd.symm.trans h)
  simp only [startsWord, isMark, Bool.and_eq_true, Bool.not_eq_true', bne_iff_ne,
    Bool.or_eq_false_iff, beq_eq_false_iff_ne]
  exact ⟨⟨⟨⟨isBlank_of_isReferenceChar h, hne rfl⟩, hne rfl⟩, hne rfl⟩,
    ⟨⟨hne rfl, hne rfl⟩, hne rfl⟩, hne rfl⟩

/-- A bare text is a word unless it starts like a number. -/
theorem Text.IsBare.isWord {t : Text} (h : IsBare t)
    (hfirst : ∀ c ∈ t.head?, c ≠ '-' ∧ c ≠ '+' ∧ isDigit c = false) : IsWord t := by
  obtain ⟨c, rest, rfl⟩ := List.exists_cons_of_ne_nil h.ne_nil
  obtain ⟨hminus, hplus, hdigit⟩ := hfirst c rfl
  exact .of_first (startsWord_of_isReferenceChar (h.chars c List.mem_cons_self))
    (fun d hd => endsWord_of_isReferenceChar (h.chars d hd)) hminus hplus hdigit

/-- The start of an identifier is that of no number. -/
theorem Text.IsIdentifier.head?_append {name : Text} (h : name.IsIdentifier) (more : Text) :
    ∀ c ∈ (name ++ more).head?, c ≠ '-' ∧ c ≠ '+' ∧ isDigit c = false := by
  cases name with
  | nil => exact absurd h id
  | cons first rest =>
    rintro c hc
    obtain rfl := Option.some.inj hc
    have hstart := h.1
    refine ⟨?_, ?_, Bool.eq_false_iff.mpr fun hdigit => ?_⟩
    · rintro rfl
      exact absurd hstart (by decide)
    · rintro rfl
      exact absurd hstart (by decide)
    · simp only [isDigit, Bool.and_eq_true, decide_eq_true_eq] at hdigit
      have hrange : 0x30 ≤ first.toNat ∧ first.toNat ≤ 0x39 := hdigit
      simp only [isIdentifierStart, isLetter, Bool.or_eq_true, Bool.and_eq_true,
        decide_eq_true_eq, beq_iff_eq] at hstart
      obtain (⟨⟨hlow, -⟩ | ⟨hlow, -⟩⟩ | rfl) | rfl := hstart
      · have hlow' : 0x61 ≤ first.toNat := hlow
        omega
      · have hlow' : 0x41 ≤ first.toNat := hlow
        omega
      · exact absurd hrange (by decide)
      · exact absurd hrange (by decide)

/-- An identifier is a word. -/
theorem Text.IsIdentifier.isWord {name : Text} (h : name.IsIdentifier) : IsWord name :=
  h.isBare.isWord (by simpa using h.head?_append [])

/-- The start of a descriptor is that of no number. -/
theorem TypeName.WellFormed.head?_append {type : TypeName} (h : type.WellFormed) (more : Text) :
    ∀ c ∈ (type.descriptor ++ more).head?, c ≠ '-' ∧ c ≠ '+' ∧ isDigit c = false := by
  cases type with
  | primitive kind =>
    rintro c hc
    obtain rfl := Option.some.inj hc
    cases kind <;> decide
  | array element dimensions =>
    obtain ⟨n, rfl⟩ := Nat.exists_eq_succ_of_ne_zero (Nat.pos_iff_ne_zero.mp h.2)
    rintro c hc
    obtain rfl := Option.some.inj hc
    decide
  | object name =>
    rintro c hc
    obtain rfl := Option.some.inj hc
    decide
  | void =>
    rintro c hc
    obtain rfl := Option.some.inj hc
    decide

/-- A bare text that starts with a descriptor is a word. -/
theorem TypeName.IsPlain.isWord_append {type : TypeName} (h : type.IsPlain) {u : Text}
    (hu : ∀ c ∈ u, isReferenceChar c = true) : IsWord (type.descriptor ++ u) :=
  (h.isBare.append hu).isWord (h.wellFormed.head?_append u)

/-- A descriptor is a word. -/
theorem TypeName.IsPlain.isWord {type : TypeName} (h : type.IsPlain) : IsWord type.descriptor :=
  h.isBare.isWord (by simpa using h.wellFormed.head?_append [])

/-- A reference to a field is a word. -/
theorem isWord_fieldReference {owner type : TypeName} {name : Text} (howner : owner.IsPlain)
    (hname : name.IsIdentifier) (htype : type.IsPlain) :
    IsWord (fieldReference owner name type) := by
  have hbare := isBare_fieldReference howner hname htype
  have htext : fieldReference owner name type =
      owner.descriptor ++ ("->" ++ name ++ ":" ++ type.descriptor) := by simp [fieldReference]
  rw [htext] at hbare ⊢
  exact howner.isWord_append (List.forall_mem_append.mp hbare.chars).2

/-- A reference to a method is a word. -/
theorem isWord_methodReference {owner : TypeName} {name : Text} {signature : Signature}
    (howner : owner.IsPlain) (hname : name.IsMethodName) (hsignature : signature.IsPlain) :
    IsWord (owner.descriptor ++ "->" ++ name ++ signature.descriptor) := by
  have hbare := isBare_methodReference howner hname hsignature
  have htext : owner.descriptor ++ "->" ++ name ++ signature.descriptor =
      owner.descriptor ++ ("->" ++ name ++ signature.descriptor) := by simp
  rw [htext] at hbare ⊢
  exact howner.isWord_append (List.forall_mem_append.mp hbare.chars).2

/-- A hexadecimal integer is a word. -/
theorem isWord_hexInteger (n : Int) {suffix : Text} {letter : Option Char}
    (hsuffix : ∀ c ∈ suffix, isReferenceChar c = true)
    (hfirst : ∀ c ∈ suffix.head?, isHexDigit c = false)
    (hletter : Numeral.suffix? ['t', 's', 'l'] suffix = some letter) :
    IsWord (hexInteger n ++ suffix) := by
  have hbare := isBare_hexInteger n hsuffix
  obtain ⟨c, rest, heq⟩ := List.exists_cons_of_ne_nil hbare.ne_nil
  refine ⟨⟨c, rest, heq, ?_⟩, fun d hd => endsWord_of_isReferenceChar (hbare.chars d hd),
    fun _ => ?_⟩
  · exact startsWord_of_isReferenceChar (hbare.chars c (heq ▸ List.mem_cons_self))
  · rw [isNumeral, parse?_hexInteger n hfirst hletter]
    rfl

/-! ## Code -/

/-- A text that falls into words, marks, quoted literals and blanks. -/
inductive IsCode : Text → Prop
  /-- No text. -/
  | nil : IsCode []
  /-- A blank. -/
  | blank {c : Char} {t : Text} (hc : isBlank c = true) (ht : IsCode t) : IsCode (c :: t)
  /-- A mark. -/
  | mark {c : Char} {t : Text} (hc : isMark c = true) (ht : IsCode t) : IsCode (c :: t)
  /-- A quoted literal. -/
  | quoted {c : Char} {body t : Text} (hc : c = '"' ∨ c = '\'') (hbody : IsBody body)
      (ht : IsCode t) : IsCode (c :: body ++ c :: t)
  /-- A word. -/
  | word {w t : Text} (hw : IsWord w) (hends : ∀ c ∈ t.head?, endsWord c = true)
      (ht : IsCode t) : IsCode (w ++ t)

namespace IsCode

/-- A scan takes all of it. -/
theorem scan_eq {t : Text} (h : IsCode t) (number column : Nat) :
    ∃ code, scan number column t = .ok ⟨code, t, none⟩ ∧
      ∀ c ∈ t.head?, isBlank c = false →
        ∃ token more, code = token :: more ∧ (c ≠ '.' → token.kind ≠ .directive) := by
  induction h generalizing column with
  | nil =>
    refine ⟨[], ?_, fun c hc => absurd hc (Option.not_mem_none c)⟩
    rw [scan]
    rfl
  | blank hc _ ih =>
    obtain ⟨code, hcode, -⟩ := ih (column + 1)
    refine ⟨code, ?_, ?_⟩
    · rw [scan_blank _ _ hc, hcode]
      rfl
    · rintro d ⟨⟩ hd
      exact absurd (hd.symm.trans hc) Bool.false_ne_true
  | @mark c t hc _ ih =>
    obtain ⟨code, hcode, -⟩ := ih (column + 1)
    refine ⟨⟨.punctuation, [c], ⟨number, column⟩⟩ :: code, ?_, fun d _ _ =>
      ⟨_, code, rfl, fun _ => TokenKind.noConfusion⟩⟩
    rw [scan_mark _ _ hc, hcode]
    rfl
  | @quoted c body t hc hbody _ ih =>
    obtain ⟨code, hcode, -⟩ := ih (column + (c :: body ++ [c]).length)
    refine ⟨⟨quoteKind c, c :: body ++ [c], ⟨number, column⟩⟩ :: code, ?_, fun d _ _ =>
      ⟨_, code, rfl, fun _ => ?_⟩⟩
    · rw [List.cons_append, scan_quote _ _ hc (hbody.takeBody?_eq hc t), hcode]
      simp [Except.map, Scanned.push]
    · unfold quoteKind
      split <;> exact TokenKind.noConfusion
  | @word w t hw hends _ ih =>
    obtain ⟨c, rest, rfl, hc⟩ := hw.starts
    obtain ⟨kind, hkind, hdirective⟩ := hw.classify_eq ⟨number, column⟩
    obtain ⟨code, hcode, -⟩ := ih (column + (c :: rest).length)
    refine ⟨⟨kind, c :: rest, ⟨number, column⟩⟩ :: code, ?_, ?_⟩
    · rw [scan_word_append _ _ hc (fun d hd => hw.word d (List.mem_cons_of_mem _ hd)) hends hkind,
        hcode]
      rfl
    · rintro d ⟨⟩ -
      exact ⟨_, code, rfl, fun hd => hdirective fun h => hd (Option.some.inj h)⟩

/-- One code behind another. -/
theorem append {t u : Text} (ht : IsCode t) (hu : IsCode u)
    (hends : ∀ c ∈ u.head?, endsWord c = true) : IsCode (t ++ u) := by
  induction ht with
  | nil => exact hu
  | blank hc _ ih => exact .blank hc ih
  | mark hc _ ih => exact .mark hc ih
  | quoted hc hbody _ ih =>
    rw [List.append_assoc, List.cons_append]
    exact .quoted hc hbody ih
  | @word w t hw hends' _ ih =>
    rw [List.append_assoc]
    refine .word hw (fun c hc => ?_) ih
    cases t with
    | nil => exact hends c hc
    | cons d t => exact hends' c hc

/-- A word alone. -/
theorem of_isWord {w : Text} (hw : IsWord w) : IsCode w := by
  have hcode := IsCode.word (t := []) hw (fun c hc => absurd hc (Option.not_mem_none c)) .nil
  rwa [List.append_nil] at hcode

/-- A quoted text alone. -/
theorem of_quoted {c : Char} (hc : c = '"' ∨ c = '\'') (t : Text) :
    IsCode (c :: escape t ++ [c]) := .quoted hc (isBody_escape t) .nil

/-- A space in front. -/
theorem space {t : Text} (h : IsCode t) : IsCode (' ' :: t) := .blank rfl h

end IsCode

/-! ## Lines -/

/-- A text that a scan takes to its end without finding a comment, wherever it stands. -/
def Text.Scans (t : Text) : Prop :=
  ∀ number column, ∃ code, scan number column t = .ok ⟨code, t, none⟩

/-- Code is scanned to its end. -/
theorem IsCode.scans {t : Text} (h : IsCode t) : t.Scans := fun number column =>
  have ⟨code, hcode, _⟩ := h.scan_eq number column
  ⟨code, hcode⟩

/-- A space in front. -/
theorem Text.Scans.space {t : Text} (h : t.Scans) : Text.Scans (' ' :: t) := by
  intro number column
  obtain ⟨code, hcode⟩ := h number (column + 1)
  exact ⟨code, by rw [scan_blank _ _ rfl, hcode]; rfl⟩

/-- The line of code that starts with no blank. -/
theorem IsCode.exists_line {t : Text} (h : IsCode t) (htrim : IsTrimmed t) (hne : t ≠ []) :
    ∃ l, lineOf t = some l ∧ l.text = t ∧ l.isComment = false ∧
      (t.head? ≠ some '.' → l.directive? = none) := by
  obtain ⟨c, rest, rfl⟩ := List.exists_cons_of_ne_nil hne
  obtain ⟨code, hscan, hfirst⟩ := h.scan_eq 1 1
  obtain ⟨token, more, rfl, hkind⟩ := hfirst c rfl (htrim.1 c rfl)
  refine ⟨_, by rw [lineOf, hscan]; rfl, htrim.trim_eq, rfl, fun hhead => ?_⟩
  have hnot : token.unplaced.kind ≠ .directive := hkind fun hc => hhead (hc ▸ rfl)
  unfold Line.directive?
  split
  · rename_i heq
    exact absurd (congrArg Token.kind (List.cons.inj heq).1) hnot
  · rfl

/-- The line of a directive with more behind it. -/
theorem exists_line_of_isKeyword {word rest : Text} (hword : IsKeyword word) (hrest : rest.Scans)
    (hends : ∀ c ∈ rest.head?, endsWord c = true) :
    ∃ l, lineOf (word ++ rest) = some l ∧ l.directive? = some (.ofKeyword word) ∧
      l.arguments = trim rest ∧ l.isComment = false := by
  obtain ⟨code, hscan⟩ := hrest 1 (1 + word.length)
  refine ⟨_, by rw [lineOf_directive hword hends, hscan]; rfl, directive?_push _ _ _, ?_, rfl⟩
  exact arguments_push ⟨code, rest, none⟩ hword ⟨1, 1⟩

/-- The closing line of something with more behind its name. -/
theorem exists_line_of_end {name rest : Text} (hname : IsWord name) (hrest : rest.Scans)
    (hends : ∀ c ∈ rest.head?, endsWord c = true) :
    ∃ l, lineOf (".end " ++ name ++ rest) = some l ∧ l.directive? = some .closing ∧
      l.endOf? = some name ∧ l.arguments = trim (name ++ rest) ∧ l.isComment = false := by
  have hword : IsKeyword ".end".toList := .of_all (by decide) (by decide)
  have htext : ".end " ++ name ++ rest = ".end".toList ++ (' ' :: (name ++ rest)) := by simp
  have hspace : ∀ c ∈ (' ' :: (name ++ rest)).head?, endsWord c = true := by rintro _ ⟨⟩; rfl
  obtain ⟨c, w, rfl, hc⟩ := hname.starts
  obtain ⟨kind, hkind, -⟩ := hname.classify_eq ⟨1, 6⟩
  obtain ⟨code, hcode⟩ := hrest 1 (6 + (c :: w).length)
  have hscan : scan 1 5 (' ' :: (c :: w ++ rest)) =
      .ok ⟨⟨kind, c :: w, ⟨1, 6⟩⟩ :: code, ' ' :: (c :: w ++ rest), none⟩ := by
    rw [scan_blank _ _ rfl, scan_word_append _ _ hc
      (fun d hd => hname.word d (List.mem_cons_of_mem _ hd)) hends hkind, hcode]
    rfl
  have hline := lineOf_directive hword hspace
  have hcolumn : 1 + ".end".toList.length = 5 := rfl
  rw [hcolumn, hscan] at hline
  refine ⟨_, by rw [htext, hline]; rfl, rfl, rfl, ?_, rfl⟩
  exact (arguments_push ⟨⟨kind, c :: w, ⟨1, 6⟩⟩ :: code, ' ' :: (c :: w ++ rest), none⟩ hword
    ⟨1, 1⟩).trans (trim_append_left (w := [' ']) (by decide) _)

/-! ## Lines of values -/

/-- A line that may stand in an array. -/
structure IsElementLine (l : Text) : Prop where
  /-- It is code. -/
  code : IsCode l
  /-- It starts with no directive that ends an array. -/
  opening : l.head? ≠ some '.' ∨
    (∃ word rest, l = word ++ rest ∧ (word = ".enum".toList ∨ word = ".subannotation".toList) ∧
      IsCode rest ∧ ∀ c ∈ rest.head?, endsWord c = true) ∨
    ∃ rest, l = ".end " ++ "subannotation".toList ++ rest ∧ IsCode rest ∧
      ∀ c ∈ rest.head?, endsWord c = true

namespace IsElementLine

/-- A directive and a word. -/
theorem of_keyword {word rest : Text} (hword : word = ".enum".toList ∨ word = ".subannotation".toList)
    (hrest : IsWord rest) : IsElementLine (word ++ ' ' :: rest) := by
  have hkeyword : IsKeyword word := by
    obtain rfl | rfl := hword <;> exact .of_all (by decide) (by decide)
  have hspace : ∀ c ∈ (' ' :: rest).head?, endsWord c = true := by
    rintro _ ⟨⟩
    rfl
  have hcode : IsCode (' ' :: rest) := .space (.of_isWord hrest)
  exact ⟨.word (.of_isKeyword hkeyword) hspace hcode,
    .inr (.inl ⟨word, _, rfl, hword, hcode, hspace⟩)⟩

/-- The closing line of a nested annotation. -/
theorem closing : IsElementLine closing := by
  have hname : IsWord "subannotation" := IsIdentifier.isWord (by decide)
  have hrest : IsCode (' ' :: "subannotation".toList) := .space (.of_isWord hname)
  refine ⟨?_, .inr (.inr ⟨[], rfl, .nil, fun c hc => absurd hc (Option.not_mem_none c)⟩)⟩
  exact .word (.of_isKeyword (w := ".end") (.of_all (by decide) (by decide)))
    (by rintro _ ⟨⟩; rfl) hrest

/-- With a comma behind it. -/
theorem comma {l : Text} (h : IsElementLine l) (hne : l ≠ []) : IsElementLine (l ++ [',']) := by
  have hcomma : IsCode [','] := .mark rfl .nil
  have hends : ∀ c ∈ [','].head?, endsWord c = true := by rintro _ ⟨⟩; rfl
  have hrest : ∀ {rest : Text}, IsCode rest → (∀ c ∈ rest.head?, endsWord c = true) →
      IsCode (rest ++ [',']) ∧ ∀ c ∈ (rest ++ [',']).head?, endsWord c = true := by
    intro rest hcode hrest
    refine ⟨hcode.append hcomma hends, ?_⟩
    cases rest with
    | nil => exact hends
    | cons d rest => exact hrest
  refine ⟨h.code.append hcomma hends, ?_⟩
  obtain hhead | ⟨word, rest, rfl, hword, hcode, hends'⟩ | ⟨rest, rfl, hcode, hends'⟩ := h.opening
  · rw [List.head?_append_of_ne_nil l hne]
    exact .inl hhead
  · exact .inr (.inl ⟨word, rest ++ [','], List.append_assoc _ _ _, hword, hrest hcode hends'⟩)
  · exact .inr (.inr ⟨rest ++ [','], List.append_assoc _ _ _, hrest hcode hends'⟩)

/-- With a name in front of it. -/
theorem named {l : Text} (h : IsElementLine l) {name : Text} (hname : name.IsIdentifier) :
    IsElementLine (name ++ " = " ++ l) := by
  have hequals : IsCode (" = ".toList ++ l) :=
    .blank rfl (.mark rfl (.blank rfl h.code))
  refine ⟨?_, .inl ?_⟩
  · rw [List.append_assoc]
    exact .word hname.isWord (by rintro _ ⟨⟩; rfl) hequals
  · intro hhead
    rw [List.append_assoc] at hhead
    have hchar := hname.isBare.chars '.'
    rw [List.head?_append_of_ne_nil name hname.ne_nil] at hhead
    exact Bool.false_ne_true (hchar (List.mem_of_mem_head? hhead))

/-- Its line does not end the array. -/
theorem exists_line {l : Text} (h : IsElementLine l) (hl : IsCodeLine l) :
    ∃ line, lineOf l = some line ∧ line.text = l ∧ line.isComment = false ∧
      Gathering.isEndedBy line = false := by
  obtain ⟨line, hline, htext, hcomment, hdirective⟩ := h.code.exists_line hl.trimmed hl.ne_nil
  refine ⟨line, hline, htext, hcomment, ?_⟩
  obtain hhead | ⟨word, rest, rfl, hword, hcode, hends⟩ | ⟨rest, rfl, hcode, hends⟩ := h.opening
  · simp [Gathering.isEndedBy, Line.endOf?, hdirective hhead]
  · have hkeyword : IsKeyword word := by
      obtain rfl | rfl := hword <;> exact .of_all (by decide) (by decide)
    obtain ⟨line', hline', hd, -⟩ := exists_line_of_isKeyword hkeyword hcode.scans hends
    obtain rfl := Option.some.inj (hline.symm.trans hline')
    obtain rfl | rfl := hword
    · have hd' : line.directive? = some .enumeration := hd
      simp [Gathering.isEndedBy, Line.endOf?, hd']
    · have hd' : line.directive? = some .subannotationStart := hd
      simp [Gathering.isEndedBy, Line.endOf?, hd']
  · have hname : IsWord "subannotation".toList := Text.IsIdentifier.isWord (by decide)
    obtain ⟨line', hline', hd, hend, -⟩ := exists_line_of_end hname hcode.scans hends
    obtain rfl := Option.some.inj (hline.symm.trans hline')
    have hother : ∀ other : Text, other ≠ "subannotation".toList →
        decide (line.endOf? = some other) = false := fun other hne =>
      decide_eq_false fun heq => hne (Option.some.inj (hend.symm.trans heq)).symm
    have hannotation := hother "annotation".toList (by decide)
    have hfield := hother "field".toList (by decide)
    have hmethod := hother "method".toList (by decide)
    have hparam := hother "param".toList (by decide)
    rw [Gathering.isEndedBy, hannotation, hfield, hmethod, hparam, hd]
    rfl

end IsElementLine

end Smali
