import Smali.Proofs.ValueLines

/-!
# Lines that feign an opening

Inside an element that is a nested annotation, lines are counted: an opening line counts up, a
closing line counts down, and the element ends when the count is back where it started. But a line
counts as an opening line also if it holds an equals sign with the opening word behind it, and so
does the line of an array element if it is a text such as `"=.subannotation"`. The lines of a value
add to the count exactly the number of such lines in it. So the count is right for calm values, and
it is too high for all others.
-/

namespace Smali

open Text Literal

namespace Literal

/-- Whether a line looks like an element with a nested annotation: the opening word stands behind
the first equals sign and blanks. -/
def FeignsOpening (l : Text) : Prop :=
  ∃ before blanks after, l = before ++ '=' :: (blanks ++ (opening ++ after)) ∧ '=' ∉ before ∧
    IsBlank blanks

end Literal

/-- Whether a value is on one line, and this line would open an annotation. -/
def Value.Feigns (v : Value) : Prop := v.IsInline ∧ FeignsOpening v.encode

/-- Whether no array inside the value that takes several lines has an element that feigns an
opening. -/
inductive Value.IsCalm : Value → Prop
  /-- A value on one line. -/
  | inline {v : Value} (h : v.IsInline) : IsCalm v
  /-- An array. -/
  | array {values : List Value} (hlines : ∀ v ∈ values, ¬v.Feigns)
      (h : ∀ v ∈ values, IsCalm v) : IsCalm (.array values)
  /-- A nested annotation. -/
  | annotated {type : TypeName} {elements : List (Text × Value)} (h : ∀ e ∈ elements, IsCalm e.2) :
      IsCalm (.annotated type elements)

namespace Literal

/-! ## Opening and closing lines -/

/-- The opening word and anything behind it. -/
theorem startsWith_iff {mark t : Text} :
    Text.startsWith t mark = true ↔ ∃ rest, t = mark ++ rest := by
  unfold Text.startsWith
  rw [Option.isSome_iff_exists]
  refine exists_congr fun rest => ⟨eq_of_after?, ?_⟩
  rintro rfl
  induction mark with
  | nil => rfl
  | cons m mark ih => rw [List.cons_append, Text.after?, if_pos rfl, ih]

/-- The same behind blanks. -/
theorem startsWith_trim_iff {t : Text} :
    Text.startsWith (trim t) opening = true ↔
      ∃ blanks rest, t = blanks ++ (opening ++ rest) ∧ IsBlank blanks := by
  rw [startsWith_iff]
  constructor
  · rintro ⟨rest, hrest⟩
    obtain ⟨before, after, hbefore, -, heq⟩ := exists_trim t
    exact ⟨before, rest ++ after, by rw [← List.append_assoc opening, ← hrest]; exact heq, hbefore⟩
  · rintro ⟨blanks, rest, rfl, hblanks⟩
    have hleft : trimLeft (opening ++ rest) = opening ++ rest := rfl
    refine ⟨trimRight rest, ?_⟩
    rw [trim_append_left hblanks, trim, hleft, trimRight_append_of_last (by rintro _ ⟨⟩; rfl)]

/-- A line with an equals sign feigns an opening by what stands behind the sign. -/
theorem feignsOpening_iff {before value : Text} (h : '=' ∉ before) :
    FeignsOpening (before ++ '=' :: value) ↔
      ∃ blanks rest, value = blanks ++ (opening ++ rest) ∧ IsBlank blanks := by
  constructor
  · rintro ⟨before', blanks, after, heq, hbefore', hblanks⟩
    have hcut := cut?_of_not_mem h value
    rw [heq, cut?_of_not_mem hbefore'] at hcut
    obtain ⟨-, rfl⟩ := Prod.mk.inj (Option.some.inj hcut)
    exact ⟨blanks, after, rfl, hblanks⟩
  · rintro ⟨blanks, rest, rfl, hblanks⟩
    exact ⟨before, blanks, rest, rfl, h, hblanks⟩

/-- A line without an equals sign feigns nothing. -/
theorem not_feignsOpening {l : Text} (h : '=' ∉ l) : ¬FeignsOpening l := by
  rintro ⟨before, blanks, after, rfl, -, -⟩
  exact h (List.mem_append_right _ List.mem_cons_self)

instance (l : Text) : Decidable (FeignsOpening l) :=
  if h : '=' ∈ l then
    decidable_of_iff (∃ sides ∈ Text.cut? (· == '=') l, Text.startsWith (trim sides.2) opening) (by
      obtain ⟨before, value, rfl, hbefore⟩ := List.eq_append_cons_of_mem h
      rw [cut?_of_not_mem hbefore, feignsOpening_iff hbefore, ← startsWith_trim_iff]
      simp)
  else .isFalse (not_feignsOpening h)

/-- A line opens an annotation if it starts with the opening word or feigns to open one. -/
theorem opensAnnotation_iff {l : Text} :
    opensAnnotation l = true ↔ (∃ rest, l = opening ++ rest) ∨ FeignsOpening l := by
  unfold opensAnnotation
  rw [Bool.or_eq_true, startsWith_iff]
  refine or_congr_right ?_
  by_cases h : '=' ∈ l
  · obtain ⟨before, value, rfl, hbefore⟩ := List.eq_append_cons_of_mem h
    rw [cut?_of_not_mem hbefore, feignsOpening_iff hbefore]
    exact startsWith_trim_iff
  · rw [cut?_eq_none h]
    exact ⟨fun hfalse => absurd hfalse Bool.false_ne_true,
      fun hfeigns => absurd hfeigns (not_feignsOpening h)⟩

/-- A closing line starts with the closing words. -/
theorem exists_of_closesAnnotation {l : Text} (h : closesAnnotation l = true) :
    ∃ rest, l = closing ++ rest := by
  unfold closesAnnotation at h
  rw [decide_eq_true_iff] at h
  have hsplit := List.takeWhile_append_dropWhile (p := (· == ',')) (l := l.reverse)
  have hl : l = (l.reverse.dropWhile (· == ',')).reverse ++
      (l.reverse.takeWhile (· == ',')).reverse := by
    rw [← List.reverse_append, hsplit, List.reverse_reverse]
  exact ⟨_, h ▸ hl⟩

/-- A line that starts with neither the opening nor the closing words. -/
structure IsOrdinary (l : Text) : Prop where
  /-- It has another start than opening lines. -/
  not_opening : ∀ rest, l ≠ opening ++ rest
  /-- It has another start than closing lines. -/
  not_closing : ∀ rest, l ≠ closing ++ rest

namespace IsOrdinary

/-- A line that starts with no point. -/
theorem of_head? {c : Char} (hc : c ≠ '.') (rest : Text) : IsOrdinary (c :: rest) :=
  ⟨fun _ h => hc (List.cons.inj h).1, fun _ h => hc (List.cons.inj h).1⟩

/-- It does not close anything. -/
theorem closesAnnotation_eq {l : Text} (h : IsOrdinary l) : closesAnnotation l = false := by
  rw [Bool.eq_false_iff]
  intro hcloses
  obtain ⟨rest, hrest⟩ := exists_of_closesAnnotation hcloses
  exact h.not_closing rest hrest

/-- It opens nothing unless it feigns to. -/
theorem opensAnnotation_iff {l : Text} (h : IsOrdinary l) :
    opensAnnotation l = true ↔ FeignsOpening l := by
  rw [Literal.opensAnnotation_iff, or_iff_right]
  rintro ⟨rest, hrest⟩
  exact h.not_opening rest hrest

end IsOrdinary

/-- A comma behind a line does not matter to what it feigns. -/
theorem feignsOpening_comma {l : Text} : FeignsOpening (l ++ [',']) ↔ FeignsOpening l := by
  constructor
  · rintro ⟨before, blanks, after, heq, hbefore, hblanks⟩
    have hlast : after ≠ [] := by
      rintro rfl
      have hend := congrArg List.getLast? heq
      rw [List.getLast?_concat, List.append_nil, ← List.cons_append, ← List.append_assoc,
        List.getLast?_append_of_ne_nil _ (by decide)] at hend
      exact absurd hend (by decide)
    obtain ⟨front, c, rfl⟩ := (List.eq_nil_or_concat' after).resolve_left hlast
    have hinit : l ++ [','] = (before ++ '=' :: (blanks ++ (opening ++ front))) ++ [c] := by
      rw [heq]
      simp
    exact ⟨before, blanks, front, (List.append_inj_left' hinit rfl), hbefore, hblanks⟩
  · rintro ⟨before, blanks, after, rfl, hbefore, hblanks⟩
    exact ⟨before, blanks, after ++ [','], by simp, hbefore, hblanks⟩

/-! ## Counting -/

/-- The lines take the count inside nested annotations from one number to another, and do not end
the element on their way. -/
inductive Counts : Nat → List Text → Nat → Prop
  /-- No lines. -/
  | nil (count : Nat) : Counts count [] count
  /-- An opening line. -/
  | opens {count last : Nat} {l : Text} {ls : List Text} (line : opensAnnotation l = true)
      (rest : Counts (count + 1) ls last) : Counts count (l :: ls) last
  /-- A closing line that closes an annotation further inside. -/
  | closes {count last : Nat} {l : Text} {ls : List Text} (line : opensAnnotation l = false)
      (closing : closesAnnotation l = true) (rest : Counts (count + 1) ls last) :
      Counts (count + 2) (l :: ls) last
  /-- Any other line. -/
  | other {count last : Nat} {l : Text} {ls : List Text} (line : opensAnnotation l = false)
      (closing : closesAnnotation l = false) (rest : Counts count ls last) :
      Counts count (l :: ls) last

/-- Lines and more lines. -/
theorem Counts.append {count next last : Nat} {ls more : List Text} (h : Counts count ls next)
    (hmore : Counts next more last) : Counts count (ls ++ more) last := by
  induction h with
  | nil => exact hmore
  | opens line rest ih => exact .opens line (ih hmore)
  | closes line closing rest ih => exact .closes line closing (ih hmore)
  | other line closing rest ih => exact .other line closing (ih hmore)

/-- The lines add to the count inside nested annotations, whatever it is. -/
def Adds (ls : List Text) (n : Nat) : Prop := ∀ count, Counts (count + 1) ls (count + 1 + n)

namespace Adds

/-- No lines add nothing. -/
theorem nil : Adds [] 0 := fun _ => .nil _

/-- Lines and more lines. -/
theorem append {ls more : List Text} {m n : Nat} (h : Adds ls m) (hmore : Adds more n) :
    Adds (ls ++ more) (m + n) := by
  intro count
  have hnext := hmore (count + m)
  rw [Nat.add_right_comm count m 1, Nat.add_assoc (count + 1)] at hnext
  exact (h count).append hnext

/-- An opening line. -/
theorem opens {l : Text} (h : opensAnnotation l = true) : Adds [l] 1 :=
  fun _ => .opens h (.nil _)

/-- An ordinary line that does not feign. -/
theorem ordinary {l : Text} (h : IsOrdinary l) (hline : ¬FeignsOpening l) : Adds [l] 0 :=
  fun _ => .other (Bool.eq_false_iff.mpr (mt h.opensAnnotation_iff.mp hline))
    h.closesAnnotation_eq (.nil _)

/-- Lines between an opening and a closing line. -/
theorem enclosed {first last : Text} {ls : List Text} {n : Nat}
    (hfirst : opensAnnotation first = true) (h : Adds ls n)
    (hlast : opensAnnotation last = false) (hclosing : closesAnnotation last = true) :
    Adds (first :: (ls ++ [last])) n := by
  intro count
  have hinner := h (count + 1)
  have hclose : Counts (count + n + 2) [last] (count + n + 1) := .closes hlast hclosing (.nil _)
  have hsum : count + 1 + 1 + n = count + n + 2 := by omega
  have hend : count + n + 1 = count + 1 + n := by omega
  rw [hsum] at hinner
  rw [hend] at hclose
  exact .opens hfirst (hinner.append hclose)

end Adds

/-! ## Lines of values -/

/-- A value on one line starts neither like an opening nor like a closing line. -/
theorem isOrdinary_encode {v : Value} (h : v.IsPlain) (hinline : v.IsInline) (more : Text) :
    IsOrdinary (v.encode ++ more) := by
  have hfirst : ∀ {t : Text} {c : Char} {rest : Text}, t = c :: rest → c ≠ '.' →
      IsOrdinary (t ++ more) := by
    rintro t c rest rfl hc
    exact .of_head? hc _
  have hdescriptor : ∀ {type : TypeName}, type.WellFormed → ∀ rest : Text,
      IsOrdinary (type.descriptor ++ rest ++ more) := by
    intro type h rest
    obtain ⟨c, tail, heq, hc, -, -⟩ := exists_descriptor h
    rw [heq]
    refine .of_head? ?_ _
    rintro rfl
    exact absurd hc (by decide)
  have hinteger : ∀ (n : Int) (suffix : Text), IsOrdinary (hexInteger n ++ suffix ++ more) := by
    intro n suffix
    obtain ⟨c, rest, heq, hc⟩ := exists_hexInteger n
    rw [heq]
    refine .of_head? ?_ _
    obtain rfl | rfl := hc <;> decide
  cases h with
  | int n =>
    have hempty := hinteger n.toInt []
    rwa [List.append_nil] at hempty
  | long n => exact hinteger _ _
  | short n => exact hinteger _ _
  | byte n => exact hinteger _ _
  | string text => exact hfirst rfl (by decide)
  | char c => exact hfirst rfl (by decide)
  | bool b => cases b <;> exact hfirst rfl (by decide)
  | null => exact hfirst rfl (by decide)
  | typeName h =>
    have hempty := hdescriptor h.wellFormed []
    rwa [List.append_nil] at hempty
  | enumeration howner hname htype =>
    refine ⟨fun rest heq => ?_, fun rest heq => ?_⟩
    · have hstart : ['.', 'e'] = ['.', 's'] := congrArg (List.take 2) heq
      exact absurd hstart (by decide)
    · have hstart : ['.', 'e', 'n', 'u'] = ['.', 'e', 'n', 'd'] := congrArg (List.take 4) heq
      exact absurd hstart (by decide)
  | @field owner type name howner hname htype =>
    have htext : (Value.field owner name type).encode =
        owner.descriptor ++ ("->" ++ name ++ ":" ++ type.descriptor) := by
      simp [Value.encode_field, fieldReference]
    rw [htext]
    exact hdescriptor howner.wellFormed _
  | @method owner name signature howner hname hsignature =>
    have htext : (Value.method owner name signature).encode =
        owner.descriptor ++ ("->" ++ name ++ signature.descriptor) := by
      simp [Value.encode_method]
    rw [htext]
    exact hdescriptor howner.wellFormed _
  | array h =>
    obtain ⟨middle, hmiddle⟩ := Value.exists_encode_array _
    exact hfirst hmiddle (by decide)
  | annotated htype hnames hvalues =>
    exact absurd hinline (Value.not_isInline_annotated _ _)

/-- A line with a name in front feigns an opening if it is an opening line without the name. -/
theorem feignsOpening_named {name l : Text} (hname : name.IsIdentifier) (hl : IsCodeLine l) :
    FeignsOpening (name ++ " = " ++ l) ↔ ∃ rest, l = opening ++ rest := by
  have hequals : '=' ∉ name ++ [' '] := by
    have hmem : '=' ∉ name := hname.isBare.not_mem (by decide)
    simp [hmem]
  have htext : name ++ " = " ++ l = (name ++ [' ']) ++ '=' :: ([' '] ++ l) := by simp
  have htrim : trim ([' '] ++ l) = l :=
    (trim_append_left (by decide) l).trans hl.trimmed.trim_eq
  rw [htext, feignsOpening_iff hequals, ← startsWith_trim_iff, htrim, startsWith_iff]

/-- A line with a name in front is ordinary. -/
theorem isOrdinary_named {name : Text} (hname : name.IsIdentifier) (l : Text) :
    IsOrdinary (name ++ " = " ++ l) := by
  obtain ⟨c, rest, rfl⟩ := List.exists_cons_of_ne_nil hname.ne_nil
  refine .of_head? ?_ _
  rintro rfl
  exact absurd hname.1 (by decide)

/-- An ordinary line adds nothing behind a name. -/
theorem adds_named {name l : Text} (hname : name.IsIdentifier) (hl : IsCodeLine l)
    (h : ∀ rest, l ≠ opening ++ rest) : Adds [name ++ " = " ++ l] 0 := by
  refine .ordinary (isOrdinary_named hname l) fun hfeigns => ?_
  obtain ⟨rest, hrest⟩ := (feignsOpening_named hname hl).mp hfeigns
  exact h rest hrest

end Literal

/-- How much the lines of a value add to a count. -/
structure Value.IsCounted (v : Value) : Prop where
  /-- As an element of an annotation. -/
  named : ∃ n, (n = 0 ↔ v.IsCalm) ∧
    ∀ name : Text, name.IsIdentifier → Adds (namedLines name v.lines) n
  /-- As an element of an array that takes several lines. -/
  stacked : ∃ n, (n = 0 ↔ v.IsCalm ∧ ¬v.Feigns) ∧ Adds v.lines n ∧ Adds (commaed v.lines) n

namespace Value

/-- Values on one line. -/
theorem IsPlain.isCounted_of_isInline {v : Value} (h : v.IsPlain) (hinline : v.IsInline) :
    v.IsCounted := by
  have hlines := h.isTidy.lines_of_isInline hinline
  have hcode : IsCodeLine v.encode := isCodeLine_of_mem_lines (hlines ▸ List.mem_cons_self)
  have hordinary : IsOrdinary v.encode := by
    have hempty := isOrdinary_encode h hinline []
    rwa [List.append_nil] at hempty
  have hcommaed : commaed v.lines = [v.encode ++ [',']] := by
    rw [hlines]
    exact commaed_concat [] v.encode
  refine ⟨⟨0, by simpa using IsCalm.inline hinline, fun name hname => ?_⟩, ?_⟩
  · rw [hlines]
    exact adds_named hname hcode hordinary.not_opening
  · rw [hcommaed, hlines]
    by_cases hfeigns : FeignsOpening v.encode
    · refine ⟨1, ⟨fun h => absurd h (by decide), fun hcalm => absurd ⟨hinline, hfeigns⟩ hcalm.2⟩,
        .opens (opensAnnotation_iff.mpr (.inr hfeigns)),
        .opens (opensAnnotation_iff.mpr (.inr (feignsOpening_comma.mpr hfeigns)))⟩
    · exact ⟨0, ⟨fun _ => ⟨.inline hinline, fun h => hfeigns h.2⟩, fun _ => rfl⟩,
        .ordinary hordinary hfeigns,
        .ordinary (isOrdinary_encode h hinline [',']) (mt feignsOpening_comma.mp hfeigns)⟩

/-- Values of an array that takes several lines. -/
theorem adds_stackedLines {values : List Value} (h : ∀ v ∈ values, v.IsCounted) :
    ∃ n, (n = 0 ↔ ∀ v ∈ values, v.IsCalm ∧ ¬v.Feigns) ∧
      Adds (stackedLines (values.map lines)) n := by
  induction values with
  | nil => exact ⟨0, by simp, .nil⟩
  | cons v more ih =>
    obtain ⟨m, hm, hlines, hcommaed⟩ := (h v List.mem_cons_self).stacked
    obtain ⟨n, hn, hmore⟩ := ih fun v hv => h v (List.mem_cons_of_mem _ hv)
    cases more with
    | nil => exact ⟨m, by simpa using hm, hlines⟩
    | cons next more =>
      refine ⟨m + n, ?_, hcommaed.append hmore⟩
      rw [Nat.add_eq_zero_iff, hm, hn]
      exact (List.forall_mem_cons (p := fun v : Value => v.IsCalm ∧ ¬v.Feigns)).symm

/-- Elements of an annotation. -/
theorem adds_namedLines {elements : List (Text × Value)}
    (hnames : ∀ e ∈ elements, e.1.IsIdentifier) (h : ∀ e ∈ elements, e.2.IsCounted) :
    ∃ n, (n = 0 ↔ ∀ e ∈ elements, e.2.IsCalm) ∧
      Adds (elements.flatMap fun e => namedLines e.1 e.2.lines) n := by
  induction elements with
  | nil => exact ⟨0, by simp, .nil⟩
  | cons e elements ih =>
    obtain ⟨m, hm, hlines⟩ := (h e List.mem_cons_self).named
    obtain ⟨n, hn, hmore⟩ := ih (fun e he => hnames e (List.mem_cons_of_mem _ he))
      fun e he => h e (List.mem_cons_of_mem _ he)
    refine ⟨m + n, ?_, (hlines e.1 (hnames e List.mem_cons_self)).append hmore⟩
    rw [Nat.add_eq_zero_iff, hm, hn]
    exact (List.forall_mem_cons (p := fun e : Text × Value => e.2.IsCalm)).symm

/-- A calm array that takes several lines. -/
theorem isCalm_array {values : List Value} (hbroken : ¬(array values).IsInline) :
    (array values).IsCalm ↔ ∀ v ∈ values, v.IsCalm ∧ ¬v.Feigns := by
  constructor
  · intro h v hv
    cases h with
    | inline h => exact absurd h hbroken
    | array hlines h => exact ⟨h v hv, hlines v hv⟩
  · exact fun h => .array (fun v hv => (h v hv).2) fun v hv => (h v hv).1

/-- A calm annotation. -/
theorem isCalm_annotated {type : TypeName} {elements : List (Text × Value)} :
    (annotated type elements).IsCalm ↔ ∀ e ∈ elements, e.2.IsCalm := by
  constructor
  · intro h
    cases h with
    | inline h => exact absurd h (not_isInline_annotated type elements)
    | annotated h => exact h
  · exact .annotated

/-- The lines of a plain value are counted. -/
theorem IsPlain.isCounted {v : Value} (h : v.IsPlain) : v.IsCounted := by
  induction v, h using Value.IsPlain.induction_on with
  | scalar v h hs => exact h.isCounted_of_isInline (h.isInline_scalar hs)
  | array values h ih =>
    by_cases hinline : ∀ v ∈ values, v.IsInline
    · exact (IsPlain.array h).isCounted_of_isInline (isInline_array hinline)
    · obtain ⟨n, hn, hadds⟩ := adds_stackedLines ih
      have hbroken : ∃ v ∈ values, ¬v.IsInline := by simpa using hinline
      have hlines := lines_array (fun v hv => (h v hv).isTidy) hbroken
      have hnot : ¬(Value.array values).IsInline := by
        intro hinline
        rw [(isTidy_array values).lines_of_isInline hinline] at hlines
        simpa using congrArg List.length hlines
      have hbrace : ∀ more : Text, '=' ∉ more → Adds ['\x7b' :: more] 0 :=
        fun more hmore => .ordinary (.of_head? (by decide) more)
          (not_feignsOpening (by simpa using hmore))
      have hclose : ∀ more : Text, '=' ∉ more → Adds ['\x7d' :: more] 0 :=
        fun more hmore => .ordinary (.of_head? (by decide) more)
          (not_feignsOpening (by simpa using hmore))
      have hcommaed : commaed (Value.array values).lines =
          ['\x7b'] :: (stackedLines (values.map Value.lines) ++ [['\x7d', ',']]) := by
        rw [hlines, ← List.cons_append, commaed_concat]
        rfl
      have hall : ∀ {first last : Text}, Adds [first] 0 → Adds [last] 0 →
          Adds (first :: (stackedLines (values.map Value.lines) ++ [last])) n := by
        intro first last hfirst hlast
        have hsum := hfirst.append (hadds.append hlast)
        rwa [Nat.zero_add] at hsum
      refine ⟨⟨n, hn.trans (isCalm_array hnot).symm, fun name hname => ?_⟩, ?_⟩
      · have hopen : Adds [name ++ " = " ++ ['\x7b']] 0 :=
          adds_named hname ⟨by decide, isTrimmed_of_ends rfl rfl rfl rfl, by decide⟩
            fun rest h => absurd (List.cons.inj h).1 (by decide)
        rw [hlines]
        exact hall hopen (hclose [] (by decide))
      · refine ⟨n, ?_, ?_, ?_⟩
        · rw [hn, isCalm_array hnot, and_iff_left fun h => hnot h.1]
        · rw [hlines]
          exact hall (hbrace [] (by decide)) (hclose [] (by decide))
        · rw [hcommaed]
          exact hall (hbrace [] (by decide)) (hclose [','] (by decide))
  | annotated type elements htype hnames hvalues ih =>
    obtain ⟨n, hn, hadds⟩ := adds_namedLines hnames ih
    have hlines := IsPlain.lines_annotated htype hnames hvalues
    have hheader : opensAnnotation (".subannotation " ++ type.descriptor) = true :=
      opensAnnotation_iff.mpr (.inl ⟨' ' :: type.descriptor, rfl⟩)
    have hcommaed : commaed (Value.annotated type elements).lines =
        (".subannotation " ++ type.descriptor) ::
          (elements.flatMap (fun e => namedLines e.1 e.2.lines) ++ [closing ++ [',']]) := by
      rw [hlines, ← List.cons_append, commaed_concat]
      rfl
    have hcalm : n = 0 ↔ (Value.annotated type elements).IsCalm := hn.trans isCalm_annotated.symm
    refine ⟨⟨n, hcalm, fun name hname => ?_⟩, ⟨n, ?_, ?_, ?_⟩⟩
    · have hcode : IsCodeLine (".subannotation " ++ type.descriptor) :=
        isCodeLine_of_mem_lines (hlines ▸ List.mem_cons_self)
      have hnamed : opensAnnotation (name ++ " = " ++ (".subannotation " ++ type.descriptor)) =
          true := opensAnnotation_iff.mpr
            (.inr ((feignsOpening_named hname hcode).mpr ⟨' ' :: type.descriptor, rfl⟩))
      rw [hlines]
      exact .enclosed hnamed hadds (by decide) (by decide)
    · rw [hcalm, and_iff_left fun h => not_isInline_annotated type elements h.1]
    · rw [hlines]
      exact .enclosed hheader hadds (by decide) (by decide)
    · rw [hcommaed]
      exact .enclosed hheader hadds (by decide) (by decide)

end Value

end Smali
