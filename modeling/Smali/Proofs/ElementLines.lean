import Smali.Proofs.Blocks
import Smali.Proofs.CodeTexts
import Smali.Proofs.ReadableValues

/-!
# Elements of annotations are read back

An element of an annotation is written on one line, or its array takes a line for each brace and
for each value in it. The lines of an array are gathered up to the line that closes the first
brace, and no line of a plain value ends the gathering before. The text that comes of it has the
code lines of the array, so it is read as the array exactly if the array is readable.
-/

namespace Smali

open Text Literal

/-! ## Lines of values -/

namespace Value

/-- A scalar is one line of code. -/
theorem IsPlain.isElementLine_scalar {v : Value} (h : v.IsPlain) (hs : v.IsScalar) :
    IsElementLine v.encode := by
  have hword : ∀ {t : Text}, IsWord t → t.head? ≠ some '.' → IsElementLine t :=
    fun ht hhead => ⟨.of_isWord ht, .inl hhead⟩
  have hbare : ∀ {t : Text}, IsBare t → IsWord t → IsElementLine t := fun ht hw =>
    hword hw fun hhead => absurd (ht.chars _ (List.mem_of_mem_head? hhead)) (by decide)
  have hinteger : ∀ (n : Int) {suffix : Text} {letter : Option Char},
      (∀ c ∈ suffix, isReferenceChar c = true) → (∀ c ∈ suffix.head?, isHexDigit c = false) →
      Numeral.suffix? ['t', 's', 'l'] suffix = some letter →
      IsElementLine (hexInteger n ++ suffix) := by
    intro n suffix letter hsuffix hfirst hletter
    exact hbare (isBare_hexInteger n hsuffix) (isWord_hexInteger n hsuffix hfirst hletter)
  have hquoted : ∀ {quote : Char}, quote = '"' ∨ quote = '\'' → ∀ t : Text,
      IsElementLine (quote :: escape t ++ [quote]) := by
    refine fun hquote t => ⟨.of_quoted hquote t, .inl fun hhead => ?_⟩
    obtain rfl := Option.some.inj hhead
    obtain h | h := hquote <;> exact absurd h (by decide)
  cases h with
  | int n =>
    rw [encode_int, ← List.append_nil (hexInteger _)]
    exact hinteger _ (List.all_eq_true.mp rfl) (by rintro _ ⟨⟩) rfl
  | long n =>
    have hletter : Numeral.suffix? ['t', 's', 'l'] ['L'] = some (some 'l') := rfl
    exact hinteger _ (List.all_eq_true.mp rfl) (by rintro _ ⟨⟩; rfl) hletter
  | short n =>
    have hletter : Numeral.suffix? ['t', 's', 'l'] ['s'] = some (some 's') := rfl
    exact hinteger _ (List.all_eq_true.mp rfl) (by rintro _ ⟨⟩; rfl) hletter
  | byte n =>
    have hletter : Numeral.suffix? ['t', 's', 'l'] ['t'] = some (some 't') := rfl
    exact hinteger _ (List.all_eq_true.mp rfl) (by rintro _ ⟨⟩; rfl) hletter
  | string text => exact hquoted (.inl rfl) text
  | char c =>
    have hchar : escapeChar c = escape [c] := by simp [escape]
    rw [encode_char, hchar]
    exact hquoted (.inr rfl) [c]
  | bool b =>
    have htrue : IsIdentifier "true" := by decide
    have hfalse : IsIdentifier "false" := by decide
    cases b with
    | true => exact hbare htrue.isBare htrue.isWord
    | false => exact hbare hfalse.isBare hfalse.isWord
  | null =>
    have hnull : IsIdentifier "null" := by decide
    exact hbare hnull.isBare hnull.isWord
  | typeName h => exact hbare h.isBare h.isWord
  | enumeration howner hname htype =>
    exact .of_keyword (.inl rfl) (isWord_fieldReference howner hname htype)
  | field howner hname htype =>
    exact hbare (isBare_fieldReference howner hname htype)
      (isWord_fieldReference howner hname htype)
  | method howner hname hsignature =>
    exact hbare (isBare_methodReference howner hname hsignature)
      (isWord_methodReference howner hname hsignature)
  | array h => exact absurd hs id
  | annotated htype hnames hvalues => exact absurd hs id

end Value

namespace Literal

/-- The lines of values below each other are lines of the values, some with a comma. -/
theorem isElementLine_stackedLines {parts : List (List Text)}
    (h : ∀ ls ∈ parts, ls ≠ [] ∧ ∀ l ∈ ls, IsCodeLine l ∧ IsElementLine l) :
    ∀ l ∈ stackedLines parts, IsElementLine l := by
  induction parts with
  | nil => exact fun l hl => absurd hl List.not_mem_nil
  | cons ls more ih =>
    obtain ⟨hne, hls⟩ := h ls List.mem_cons_self
    have hmore := ih fun ls hls => h ls (List.mem_cons_of_mem _ hls)
    cases more with
    | nil => exact fun l hl => (hls l hl).2
    | cons next more =>
      obtain ⟨front, last, rfl⟩ := (List.eq_nil_or_concat' _).resolve_left hne
      obtain ⟨hfront, hlast⟩ := List.forall_mem_append.mp hls
      obtain ⟨hcode, helement⟩ := hlast last List.mem_cons_self
      rw [stackedLines, commaed_concat]
      · refine List.forall_mem_append.mpr ⟨List.forall_mem_append.mpr
          ⟨fun l hl => (hfront l hl).2, fun l hl => ?_⟩, hmore⟩
        exact List.mem_singleton.mp hl ▸ helement.comma hcode.ne_nil
      · exact List.cons_ne_nil _ _

/-- A brace alone. -/
theorem isElementLine_brace {c : Char} (hc : isMark c = true) (hpoint : c ≠ '.') :
    IsElementLine [c] :=
  ⟨.mark hc .nil, .inl fun h => hpoint (Option.some.inj h)⟩

/-- Code with commas in between. -/
theorem isCode_intercalate {parts : List Text} (h : ∀ part ∈ parts, IsCode part) {u : Text}
    (hu : IsCode u) (hends : ∀ c ∈ u.head?, endsWord c = true) :
    IsCode ([',', ' '].intercalate parts ++ u) := by
  induction parts with
  | nil => exact hu
  | cons part more ih =>
    have hpart := h part List.mem_cons_self
    have hmore := ih fun part hpart => h part (List.mem_cons_of_mem _ hpart)
    cases more with
    | nil =>
      rw [List.intercalate_singleton]
      exact hpart.append hu hends
    | cons second more =>
      rw [List.intercalate_cons_cons, List.append_assoc, List.append_assoc]
      exact hpart.append (.mark rfl (.blank rfl hmore)) (by rintro _ ⟨⟩; rfl)

/-- An array on one line. -/
theorem isElementLine_encodeArray {parts : List Text} (h : ∀ part ∈ parts, IsCode part)
    (hinline : ∀ part ∈ parts, IsInline part) : IsElementLine (encodeArray parts) := by
  have hany : parts.any (·.contains '\n') = false := by
    rw [List.any_eq_false]
    intro part hpart
    rw [List.contains_eq_mem, decide_eq_true_iff]
    exact hinline part hpart
  have hclose : IsCode [' ', '\x7d'] := .blank rfl (.mark rfl .nil)
  unfold encodeArray
  split
  · exact ⟨.mark rfl (.mark rfl .nil), .inl (by decide)⟩
  · rw [hany, if_neg Bool.false_ne_true]
    refine ⟨.mark rfl (.blank rfl (isCode_intercalate h hclose ?_)), .inl ?_⟩
    · rintro _ ⟨⟩
      rfl
    · exact fun hhead => absurd (Option.some.inj hhead) (by decide)

end Literal

/-- Each line of a plain value may stand in an array. -/
theorem Value.IsPlain.isElementLine {v : Value} (h : v.IsPlain) :
    ∀ l ∈ v.lines, IsElementLine l := by
  induction v, h using Value.IsPlain.induction_on with
  | scalar v h hs =>
    rw [h.isTidy.lines_of_isInline (h.isInline_scalar hs)]
    exact List.forall_mem_singleton.mpr (h.isElementLine_scalar hs)
  | array values h ih =>
    by_cases hinline : (Value.array values).IsInline
    · rw [(isTidy_array values).lines_of_isInline hinline, encode_array]
      refine List.forall_mem_singleton.mpr ?_
      have hvalues := isInline_of_isInline_array hinline
      have hparts : ∀ part ∈ values.map encode, IsCode part := by
        intro part hpart
        obtain ⟨v, hv, rfl⟩ := List.mem_map.mp hpart
        have hlines := (h v hv).isTidy.lines_of_isInline (hvalues v hv)
        exact (ih v hv _ (hlines ▸ List.mem_cons_self)).code
      refine isElementLine_encodeArray hparts fun part hpart => ?_
      obtain ⟨v, hv, rfl⟩ := List.mem_map.mp hpart
      exact hvalues v hv
    · rw [broken_array h hinline]
      refine List.forall_mem_cons.mpr ⟨isElementLine_brace rfl (by decide),
        List.forall_mem_append.mpr ⟨?_, List.forall_mem_singleton.mpr
          (isElementLine_brace rfl (by decide))⟩⟩
      refine isElementLine_stackedLines fun ls hls => ?_
      obtain ⟨v, hv, rfl⟩ := List.mem_map.mp hls
      exact ⟨(h v hv).isTidy.lines_ne_nil, fun l hl => ⟨isCodeLine_of_mem_lines hl, ih v hv l hl⟩⟩
  | annotated type elements htype hnames hvalues ih =>
    have hheader : IsElementLine (".subannotation " ++ type.descriptor) :=
      .of_keyword (.inr rfl) htype.isWord
    rw [lines_annotated htype hnames hvalues]
    refine List.forall_mem_cons.mpr ⟨hheader, List.forall_mem_append.mpr
      ⟨fun l hl => ?_, List.forall_mem_singleton.mpr .closing⟩⟩
    obtain ⟨e, he, hl⟩ := List.mem_flatMap.mp hl
    obtain ⟨first, more, heq⟩ := List.exists_cons_of_ne_nil (hvalues e he).isTidy.lines_ne_nil
    rw [heq, namedLines_cons] at hl
    have hall := heq ▸ ih e he
    cases hl with
    | head => exact (hall first List.mem_cons_self).named (hnames e he)
    | tail _ hl => exact hall l (List.mem_cons_of_mem _ hl)

/-! ## Written lines -/

namespace Text

/-- The first line of a text starts as the text does. -/
theorem exists_lines_cons {c : Char} (hc : isBlank c = false) (rest : Text) :
    ∃ first more, lines (c :: rest) = (c :: first) :: more := by
  rw [lines_cons (by rintro rfl; exact absurd hc (by decide))
    (by rintro _ rfl; exact absurd hc (by decide))]
  split
  · exact ⟨[], [], rfl⟩
  · exact ⟨_, _, rfl⟩

/-- The last line of a text ends as the text does. -/
theorem exists_lines_concat {t : Text} (hne : t ≠ []) (hlast : t.getLast? ≠ some '\n') :
    ∃ front l, lines t = front ++ [l] ∧ l.getLast? = t.getLast? := by
  have hrest : ∀ {c : Char} {rest : Text}, (c :: rest).getLast? ≠ some '\n' → rest ≠ [] →
      rest.getLast? ≠ some '\n' ∧ (c :: rest).getLast? = rest.getLast? := by
    intro c rest h hne
    rw [List.getLast?_cons, List.getLast?_eq_some_getLast hne] at *
    exact ⟨h, rfl⟩
  fun_induction lines t with
  | case1 => exact absurd rfl hne
  | case2 rest ih =>
    have hmore : rest ≠ [] := by
      rintro rfl
      exact hlast rfl
    obtain ⟨hlast', heq⟩ := hrest hlast hmore
    obtain ⟨front, l, hlines, hl⟩ := ih hmore hlast'
    exact ⟨[] :: front, l, by rw [hlines, List.cons_append], hl.trans heq.symm⟩
  | case3 rest ih =>
    have hmore : rest ≠ [] := by
      rintro rfl
      exact hlast rfl
    obtain ⟨hlast', heq⟩ := hrest hlast (List.cons_ne_nil _ _)
    obtain ⟨hlast'', heq'⟩ := hrest hlast' hmore
    obtain ⟨front, l, hlines, hl⟩ := ih hmore hlast''
    exact ⟨[] :: front, l, by rw [hlines, List.cons_append], hl.trans (heq.trans heq').symm⟩
  | case4 c rest hnl hcr hrest' ih =>
    obtain rfl := lines_eq_nil.mp hrest'
    exact ⟨[], [c], rfl, rfl⟩
  | case5 c rest hnl hcr line more hlines ih =>
    have hmore : rest ≠ [] := by
      rintro rfl
      simp [lines] at hlines
    obtain ⟨hlast', heq⟩ := hrest hlast hmore
    obtain ⟨front, l, hfront, hl⟩ := ih hmore hlast'
    rw [hlines] at hfront
    cases front with
    | nil =>
      obtain ⟨rfl, rfl⟩ := List.cons.inj hfront
      refine ⟨[], c :: line, rfl, ?_⟩
      have hline : line ≠ [] := by
        rintro rfl
        rw [List.getLast?_eq_some_getLast hmore] at hl
        exact Option.some_ne_none _ hl.symm
      rw [heq, ← hl, List.getLast?_cons, List.getLast?_eq_some_getLast hline]
      rfl
    | cons first front =>
      obtain ⟨rfl, rfl⟩ := List.cons.inj hfront
      exact ⟨(c :: line) :: front, l, rfl, hl.trans heq.symm⟩

end Text

namespace Writer

/-- The lines of a value with nothing behind them. -/
theorem valueLines_before (before : Text) {v : Value} {first : Text} {more : List Text}
    (h : lines v.encode = first :: more) : valueLines before v [] = (before ++ first) :: more := by
  rw [valueLines, h]
  dsimp only
  obtain ⟨front, l, heq⟩ :=
    (List.eq_nil_or_concat' _).resolve_left (List.cons_ne_nil (before ++ first) more)
  rw [heq, List.dropLast_concat, List.getLast?_concat]
  simp

/-- The lines of a value with nothing in front of them. -/
theorem valueLines_after (after : Text) {v : Value} {front : List Text} {l : Text}
    (h : lines v.encode = front ++ [l]) : valueLines [] v after = front ++ [l ++ after] := by
  rw [valueLines, h]
  obtain ⟨first, more, heq⟩ := List.exists_cons_of_ne_nil
    (List.append_ne_nil_of_right_ne_nil front (List.cons_ne_nil l []))
  rw [heq]
  dsimp only
  rw [List.nil_append, ← heq, List.dropLast_concat, List.getLast?_concat]
  rfl

variable {v : Value} (h : v.IsPlain)

include h

/-- The code lines of a value alone. -/
theorem codeLines_valueLines : (valueLines [] v []).flatMap codeLines = v.lines := by
  obtain ⟨first, more, heq⟩ :=
    List.exists_cons_of_ne_nil (mt lines_eq_nil.mp h.isTidy.ne_nil)
  rw [valueLines_before [] heq, List.nil_append, ← heq, flatMap_codeLines_lines]
  rfl

/-- The code lines of a value behind the name of an element. -/
theorem codeLines_valueLines_named {name : Text} (hname : name.IsIdentifier) :
    (valueLines (name ++ " = ") v []).flatMap codeLines = namedLines name v.lines := by
  obtain ⟨hne, htrim⟩ := h.isTidy
  obtain ⟨c, rest, heq⟩ := List.exists_cons_of_ne_nil hne
  have hblank := htrim.1 c (by rw [heq]; rfl)
  obtain ⟨first, more, hlines⟩ := exists_lines_cons hblank rest
  rw [← heq] at hlines
  have hall : v.lines = codeLines (c :: first) ++ more.flatMap codeLines := by
    rw [Value.lines, ← flatMap_codeLines_lines, hlines, List.flatMap_cons]
  have hfirst : codeLines (c :: first) ≠ [] := fun hnil =>
    absurd (codeLines_eq_nil.mp hnil c List.mem_cons_self) (by simp [hblank])
  obtain ⟨l, ls, hl⟩ := List.exists_cons_of_ne_nil hfirst
  have hbare := hname.isBare.isCodeLine
  have hbefore : codeLines (name ++ " = " ++ (c :: first)) =
      (codeLines (c :: first)).modifyHead (name ++ " = " ++ ·) := by
    refine codeLines_prefix (isInline_append.mpr ⟨hbare.inline, by decide⟩) ?_ rfl hblank
    intro d hd
    rw [List.head?_append_of_ne_nil name hbare.ne_nil] at hd
    exact hbare.trimmed.1 d hd
  rw [valueLines_before _ hlines, List.flatMap_cons, hbefore, hall, hl]
  rfl

/-- The code lines of a value in front of a comma. -/
theorem codeLines_valueLines_commaed :
    (valueLines [] v [',']).flatMap codeLines = commaed v.lines := by
  obtain ⟨hne, htrim⟩ := h.isTidy
  have hlast : v.encode.getLast? ≠ some '\n' := fun hlast =>
    absurd (htrim.2 '\n' hlast) (by decide)
  obtain ⟨front, l, hlines, hl⟩ := exists_lines_concat hne hlast
  have hall : v.lines = front.flatMap codeLines ++ codeLines l := by
    rw [Value.lines, ← flatMap_codeLines_lines, hlines, List.flatMap_append,
      List.flatMap_singleton]
  have hcode : codeLines l ≠ [] := by
    intro hnil
    obtain ⟨c, hc⟩ : ∃ c, v.encode.getLast? = some c :=
      ⟨_, List.getLast?_eq_some_getLast hne⟩
    have hblank := codeLines_eq_nil.mp hnil c (List.mem_of_getLast? (hl.trans hc))
    exact Bool.false_ne_true ((htrim.2 c hc).symm.trans hblank)
  obtain ⟨ls, x, hx⟩ := (List.eq_nil_or_concat' _).resolve_left hcode
  have hcomma : codeLines (l ++ [',']) = ls ++ [x ++ [',']] :=
    codeLines_suffix hx (fun c hc => htrim.2 c (hl ▸ hc)) (by decide) (by rintro _ ⟨⟩; rfl)
  rw [valueLines_after _ hlines, List.flatMap_append, List.flatMap_singleton, hcomma, hall, hx,
    ← List.append_assoc, ← List.append_assoc, commaed_concat]

end Writer

/-- The code lines of the values of an array. -/
theorem codeLines_elementTexts {values : List Value} (h : ∀ v ∈ values, v.IsPlain) :
    (Writer.elementTexts values).flatMap codeLines = stackedLines (values.map Value.lines) := by
  induction values with
  | nil => rfl
  | cons v more ih =>
    have hv := h v List.mem_cons_self
    have hmore := ih fun v hv => h v (List.mem_cons_of_mem _ hv)
    cases more with
    | nil => exact Writer.codeLines_valueLines hv
    | cons next more =>
      rw [Writer.elementTexts, List.flatMap_append, Writer.codeLines_valueLines_commaed hv, hmore]
      · rfl
      · exact List.cons_ne_nil _ _

/-- The code lines of an element with an array in it. -/
theorem codeLines_valueTexts_array {values : List Value} (hne : values ≠ [])
    (h : ∀ v ∈ values, v.IsPlain) {name : Text} (hname : name.IsIdentifier) :
    (Writer.valueTexts name (.array values)).flatMap codeLines =
      (name ++ " = " ++ ['\x7b']) :: (stackedLines (values.map Value.lines) ++ [['\x7d']]) := by
  obtain ⟨first, more, rfl⟩ := List.exists_cons_of_ne_nil hne
  have hopening : codeLines (name ++ " = \x7b") = [name ++ " = " ++ ['\x7b']] := by
    have hcode := hname.isBare.isCodeLine.append_right (s := " = \x7b") (by decide)
      (by rintro _ ⟨⟩; rfl)
    have htext : name ++ " = \x7b" = name ++ " = " ++ ['\x7b'] := by simp
    rw [hcode.codeLines_eq, htext]
  have hclosing : codeLines "\x7d" = [['\x7d']] := by decide
  rw [Writer.valueTexts, List.flatMap_append, List.flatMap_cons, hopening,
    codeLines_elementTexts h, List.flatMap_singleton, hclosing]
  rfl

end Smali
