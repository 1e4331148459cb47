import Smali.Proofs.OneLine
import Smali.Proofs.RemarkedPages
import Smali.Proofs.ValueLines

/-!
# Pages line by line

A page shows its lines one below the other. What a pen writes inside a scope are full lines: each
has characters on it and ends with the next line end. A long value takes several lines, and as
they are indented or hold a brace or a keyword, none of them is empty.
-/

namespace Smali

namespace Text

/-- Lines one below the other, each with its line end. -/
def unlines (ls : List Text) : Text := (ls.map (· ++ ['\n'])).flatten

@[simp]
theorem unlines_nil : unlines [] = [] := rfl

@[simp]
theorem unlines_cons (l : Text) (ls : List Text) :
    unlines (l :: ls) = l ++ '\n' :: unlines ls := by
  simp [unlines]

@[simp]
theorem unlines_append (ls more : List Text) :
    unlines (ls ++ more) = unlines ls ++ unlines more := by
  simp [unlines]

/-- One line with at least one character on it. -/
structure IsFull (l : Text) : Prop where
  /-- It is one line. -/
  inline : l.IsInline
  /-- It is not empty. -/
  ne_nil : l ≠ []

/-- A text behind a line that is not empty. -/
theorem IsFull.append {l t : Text} (h : l.IsFull) (ht : t.IsInline) : (l ++ t).IsFull :=
  ⟨isInline_append.mpr ⟨h.inline, ht⟩, List.append_ne_nil_of_left_ne_nil h.ne_nil t⟩

/-- Whole lines, all of them full. -/
def FillsLines (t : Text) : Prop := ∃ ls, (∀ l ∈ ls, IsFull l) ∧ t = unlines ls

/-- No lines at all. -/
theorem fillsLines_nil : FillsLines [] := ⟨[], List.forall_mem_nil _, rfl⟩

/-- A full line. -/
theorem IsFull.fillsLines {l : Text} (h : l.IsFull) : FillsLines (l ++ ['\n']) :=
  ⟨[l], List.forall_mem_singleton.mpr h, by simp⟩

/-- Lines below other lines. -/
theorem FillsLines.append {t u : Text} (ht : t.FillsLines) (hu : u.FillsLines) :
    (t ++ u).FillsLines := by
  obtain ⟨ls, hls, rfl⟩ := ht
  obtain ⟨more, hmore, rfl⟩ := hu
  exact ⟨ls ++ more, List.forall_mem_append.mpr ⟨hls, hmore⟩, (unlines_append ls more).symm⟩

/-! ## Values -/

open Literal

/-- The lines of an indented text are full, even those that were empty. -/
theorem fillsLines_indented (t : Text) : (indented t).FillsLines := by
  refine ⟨(lines t).map ("    ".toList ++ ·), fun l hl => ?_, ?_⟩
  · obtain ⟨line, hline, rfl⟩ := List.mem_map.mp hl
    exact IsFull.append ⟨by decide, by decide⟩ (isInline_of_mem_lines hline)
  · simp [indented, unlines, Function.comp_def]

/-- The elements of an array that takes several lines. -/
theorem fillsLines_stacked (parts : List Text) : (stacked parts).FillsLines := by
  fun_induction stacked parts with
  | case1 => exact fillsLines_nil
  | case2 part => exact fillsLines_indented part
  | case3 part more _ ih => exact (fillsLines_indented (part ++ [','])).append ih

/-- An array behind a text. It is on one line, or its braces have lines of their own. -/
theorem fillsLines_encodeArray (parts : List Text) {before : Text} (hbefore : before.IsFull) :
    FillsLines (before ++ encodeArray parts ++ ['\n']) := by
  by_cases hinline : ∀ part ∈ parts, IsInline part
  · exact (hbefore.append (isInline_encodeArray hinline)).fillsLines
  · obtain ⟨part, hpart, hbroken⟩ : ∃ part ∈ parts, '\n' ∈ part := by
      simpa [IsInline] using hinline
    have hsome : ¬parts.isEmpty = true := by
      rw [List.isEmpty_iff]
      exact List.ne_nil_of_mem hpart
    have hany : parts.any (·.contains '\n') = true :=
      List.any_eq_true.mpr ⟨part, hpart, List.contains_iff_mem.mpr hbroken⟩
    have hopening : FillsLines (before ++ ['\x7b'] ++ ['\n']) :=
      (hbefore.append (by decide)).fillsLines
    have hclosing : FillsLines (['\x7d'] ++ ['\n']) :=
      IsFull.fillsLines ⟨by decide, List.cons_ne_nil _ _⟩
    have hall := (hopening.append (fillsLines_stacked parts)).append hclosing
    rw [encodeArray, if_neg hsome, if_pos hany]
    simpa using hall

/-- The lines of annotation elements. -/
theorem fillsLines_elements (elements : List (Text × Value)) :
    FillsLines (elements.map fun e => indented (e.1 ++ " = " ++ e.2.encode)).flatten := by
  induction elements with
  | nil => exact fillsLines_nil
  | cons e elements ih => exact (fillsLines_indented _).append ih

end Text

/-- The texts of a value that are written as they are and are not indented with the lines of an
element. -/
def Value.plainTexts : Value → List Text
  | .typeName type | .annotated type _ => [type.descriptor]
  | .enumeration owner name type | .field owner name type =>
    [owner.descriptor, name, type.descriptor]
  | .method owner name signature => [owner.descriptor, name, signature.descriptor]
  | _ => []

/-- A value that takes no line of its own for an element is written on one line. -/
theorem Value.isInline_of_plainTexts {v : Value} (h : ∀ t ∈ v.plainTexts, t.IsInline)
    (harray : ∀ values, v ≠ .array values) (hannotated : ∀ type elements,
      v ≠ .annotated type elements) : v.IsInline := by
  have hreference : ∀ (owner : TypeName) (name rest : Text), owner.descriptor.IsInline →
      name.IsInline → rest.IsInline → (owner.descriptor ++ "->" ++ name ++ rest).IsInline :=
    fun owner name rest howner hname hrest => Text.isInline_append.mpr
      ⟨Text.isInline_append.mpr ⟨Text.isInline_append.mpr ⟨howner, by decide⟩, hname⟩, hrest⟩
  have hfield : ∀ (owner : TypeName) (name : Text) (type : TypeName), owner.descriptor.IsInline →
      name.IsInline → type.descriptor.IsInline →
      (Literal.fieldReference owner name type).IsInline := by
    intro owner name type howner hname htype
    refine Text.isInline_append.mpr ⟨hreference owner name ":" howner hname (by decide), htype⟩
  cases v with
  | string text => exact isInline_quoted text
  | char c =>
    refine Text.isInline_cons.mpr ⟨by decide, Text.isInline_append.mpr ⟨?_, by decide⟩⟩
    exact Text.isInline_of_isPrintable fun _ hd => Literal.isPrintable_of_mem_escapeChar hd
  | bool b =>
    cases b with
    | true => exact (by decide : Text.IsInline "true")
    | false => exact (by decide : Text.IsInline "false")
  | null => exact (by decide : Text.IsInline "null")
  | typeName type => exact h _ List.mem_cons_self
  | enumeration owner name type =>
    simp only [plainTexts, List.forall_mem_cons] at h
    obtain ⟨howner, hname, htype, -⟩ := h
    exact Text.isInline_append.mpr ⟨by decide, hfield owner name type howner hname htype⟩
  | field owner name type =>
    simp only [plainTexts, List.forall_mem_cons] at h
    obtain ⟨howner, hname, htype, -⟩ := h
    exact hfield owner name type howner hname htype
  | method owner name signature =>
    simp only [plainTexts, List.forall_mem_cons] at h
    obtain ⟨howner, hname, hsignature, -⟩ := h
    exact hreference owner name _ howner hname hsignature
  | array values => exact absurd rfl (harray values)
  | annotated type elements => exact absurd rfl (hannotated type elements)
  | int n => exact Value.IsNumber.isInline (.int n)
  | long n => exact Value.IsNumber.isInline (.long n)
  | short n => exact Value.IsNumber.isInline (.short n)
  | byte n => exact Value.IsNumber.isInline (.byte n)
  | float bits => exact Value.IsNumber.isInline (.float bits)
  | double bits => exact Value.IsNumber.isInline (.double bits)

/-- A value behind a text fills the lines it takes. -/
theorem Value.fillsLines_encode {v : Value} (h : ∀ t ∈ v.plainTexts, t.IsInline) {before : Text}
    (hbefore : before.IsFull) : (before ++ v.encode ++ ['\n']).FillsLines := by
  by_cases hinline : v.IsInline
  · exact (hbefore.append hinline).fillsLines
  · cases v with
    | array values =>
      rw [Value.encode_array]
      exact Text.fillsLines_encodeArray _ hbefore
    | annotated type elements =>
      have hopening : (before ++ (".subannotation " ++ type.descriptor) ++ ['\n']).FillsLines := by
        refine (hbefore.append (Text.isInline_append.mpr ⟨by decide, ?_⟩)).fillsLines
        exact h _ List.mem_cons_self
      have hclosing : (Literal.closing ++ ['\n']).FillsLines :=
        Text.IsFull.fillsLines ⟨by decide, by decide⟩
      have hall := (hopening.append (Text.fillsLines_elements elements)).append hclosing
      rw [Value.encode_annotated]
      simpa using hall
    | _ => exact absurd (Value.isInline_of_plainTexts h nofun nofun) hinline

/-! ## Pages -/

namespace Page

/-- The lines of a page. Unless there are none the last one is open. -/
structure Shows (p : Page) (ls : List Text) : Prop where
  /-- The text is these lines one below the other. -/
  contents : p.contents = Text.unlines ls
  /-- The last line is open. -/
  isOpen : p.isOpen = !ls.isEmpty

variable {p p' : Page} {ls more : List Text}

/-- A page without text. -/
theorem shows_blank : blank.Shows [] := ⟨rfl, rfl⟩

/-- One more text, on as many lines as it takes. -/
theorem Shows.line (h : p.Shows ls) {level : Nat} {t : Text}
    (hmore : indent level ++ t ++ ['\n'] = Text.unlines more) :
    (p.line level t).Shows (ls ++ more) := by
  have hne : more ≠ [] := by
    rintro rfl
    exact List.append_ne_nil_of_right_ne_nil _ (List.cons_ne_nil _ _) hmore
  refine ⟨?_, ?_⟩
  · rw [contents_line, h.contents, hmore, Text.unlines_append]
  · simp [Page.line, hne]

/-- A line without text, and a text below it. -/
theorem Shows.skip (h : p.Shows ls) {level : Nat} {t : Text}
    (hmore : indent level ++ t ++ ['\n'] = Text.unlines more) :
    (p.skip.line level t).Shows (ls ++ [] :: more) := by
  refine ⟨?_, ?_⟩
  · rw [contents_line, contents_skip, h.contents, hmore]
    simp
  · simp [Page.line]

/-- A comment behind the last line. -/
theorem Shows.eolComment {last : Text} (h : p.Shows (ls ++ [last])) (level : Nat) (text : Text) :
    (p.eolComment level text).Shows (ls ++ [last ++ ' ' :: comment text]) := by
  obtain ⟨written, isOpen⟩ := p
  obtain rfl : isOpen = true := h.isOpen.trans (by simp)
  have hwritten : written.reverse = Text.unlines ls ++ last := by
    have hcontents := h.contents
    simp only [Page.contents, Page.close, if_true, List.reverse_cons, Text.unlines_append,
      Text.unlines_cons, Text.unlines_nil] at hcontents
    refine List.append_cancel_right (hcontents.trans (List.append_assoc _ _ _).symm)
  refine ⟨?_, by simp [Page.eolComment, Page.append]⟩
  simp [Page.eolComment, Page.append, Page.contents, Page.close, hwritten]

/-- A comment on a page without lines. -/
theorem Shows.eolComment_nil (h : p.Shows []) (level : Nat) (text : Text) :
    p.eolComment level text = p.line level (comment text) := by
  unfold Page.eolComment
  rw [if_neg (by simp [h.isOpen])]

/-- Full lines are added at the end of a page. -/
def Gains (p p' : Page) : Prop :=
  ∀ ls, p.Shows ls → ∃ more, (∀ l ∈ more, l.IsFull) ∧ p'.Shows (ls ++ more)

/-- No lines are added. -/
theorem Gains.refl (p : Page) : p.Gains p := fun ls h =>
  ⟨[], List.forall_mem_nil _, (List.append_nil ls).symm ▸ h⟩

/-- Lines are added, and then others. -/
theorem Gains.trans {p'' : Page} (h : p.Gains p') (h' : p'.Gains p'') : p.Gains p'' := by
  intro ls hls
  obtain ⟨more, hmore, hshows⟩ := h ls hls
  obtain ⟨rest, hrest, hshows'⟩ := h' _ hshows
  refine ⟨more ++ rest, List.forall_mem_append.mpr ⟨hmore, hrest⟩, ?_⟩
  rwa [← List.append_assoc]

/-- A text that fills its lines. -/
theorem gains_line (p : Page) {level : Nat} {t : Text}
    (h : (indent level ++ t ++ ['\n']).FillsLines) : p.Gains (p.line level t) := by
  obtain ⟨more, hmore, heq⟩ := h
  exact fun ls hls => ⟨more, hmore, hls.line heq⟩

/-- The blanks in front of a line. -/
theorem isInline_indent (level : Nat) : (indent level).IsInline := by
  induction level with
  | zero => decide
  | succ level ih =>
    have hsucc : indent (level + 1) = "    " ++ indent level := by
      simp [indent, Text.times, List.replicate_succ]
    exact hsucc ▸ Text.isInline_append.mpr ⟨by decide, ih⟩

/-- An indented text, though there may be nothing in it. -/
theorem gains_indented (p : Page) {level : Nat} (hlevel : 0 < level) {t : Text}
    (ht : t.IsInline) : p.Gains (p.line level t) := by
  have hindent : (indent level).IsFull := by
    obtain ⟨level, rfl⟩ := Nat.exists_eq_succ_of_ne_zero hlevel.ne'
    exact ⟨isInline_indent _, by simp [indent, Text.times, List.replicate_succ]⟩
  exact p.gains_line (hindent.append ht).fillsLines

/-- A text that is not empty. -/
theorem gains_full (p : Page) (level : Nat) {t : Text} (ht : t.IsFull) :
    p.Gains (p.line level t) :=
  p.gains_line (Text.IsFull.fillsLines ⟨Text.isInline_append.mpr ⟨isInline_indent level, ht.inline⟩,
    List.append_ne_nil_of_right_ne_nil _ ht.ne_nil⟩)

/-- Indented texts one below the other. -/
theorem gains_stack (p : Page) {level : Nat} (hlevel : 0 < level) {texts : List Text}
    (h : ∀ t ∈ texts, t.IsInline) : p.Gains (p.stack level texts) := by
  induction texts generalizing p with
  | nil => exact .refl p
  | cons t texts ih =>
    obtain ⟨ht, htexts⟩ := List.forall_mem_cons.mp h
    exact (p.gains_indented hlevel ht).trans (ih (p.line level t) htexts)

end Page

/-! ## Annotation elements -/

namespace Writer

/-- The lines of a value between two texts on one line each. -/
theorem isInline_of_mem_valueLines {before after line : Text} {v : Value}
    (hbefore : before.IsInline) (hafter : after.IsInline) (h : line ∈ valueLines before v after) :
    line.IsInline := by
  unfold valueLines at h
  split at h
  · exact absurd h List.not_mem_nil
  · rename_i first more hlines
    have hall : ∀ l ∈ (before ++ first) :: more, l.IsInline := by
      intro l hl
      obtain rfl | hl := List.mem_cons.mp hl
      · exact Text.isInline_append.mpr
          ⟨hbefore, Text.isInline_of_mem_lines (hlines ▸ List.mem_cons_self)⟩
      · exact Text.isInline_of_mem_lines (hlines ▸ List.mem_cons_of_mem _ hl)
    obtain h | h := List.mem_append.mp h
    · exact hall line (List.mem_of_mem_dropLast h)
    · obtain ⟨last, hlast, rfl⟩ := Option.mem_map.mp (Option.mem_toList.mp h)
      exact Text.isInline_append.mpr ⟨hall last (List.mem_of_getLast? hlast), hafter⟩

/-- The elements of an array. -/
theorem gains_writeElements (p : Page) {level : Nat} (hlevel : 0 < level) (values : List Value) :
    p.Gains (writeElements level p values) := by
  have hstack : ∀ (p : Page) value after, Text.IsInline after →
      p.Gains (p.stack level (valueLines [] value after)) := fun p value after hafter =>
    p.gains_stack hlevel fun _ h => isInline_of_mem_valueLines Text.isInline_nil hafter h
  induction values generalizing p with
  | nil => exact .refl p
  | cons value more ih =>
    cases more with
    | nil => exact hstack p value [] Text.isInline_nil
    | cons next more => exact (hstack p value [','] (by decide)).trans (ih _)

/-- An annotation element. -/
theorem gains_writeElement (p : Page) {level : Nat} (hlevel : 0 < level) {name : Text}
    (hname : name.IsInline) (v : Value) : p.Gains (writeElement p level name v) := by
  have hplain : ∀ value, p.Gains (p.stack level (valueLines (name ++ " = ") value [])) :=
    fun value => p.gains_stack hlevel fun _ h => isInline_of_mem_valueLines
      (Text.isInline_append.mpr ⟨hname, by decide⟩) Text.isInline_nil h
  cases v with
  | array values =>
    cases values with
    | nil => exact hplain _
    | cons first more =>
      have hopening := p.gains_indented hlevel
        (Text.isInline_append.mpr ⟨hname, (by decide : Text.IsInline " = \x7b")⟩)
      refine (hopening.trans (gains_writeElements _ level.succ_pos (first :: more))).trans ?_
      exact Page.gains_indented _ hlevel (by decide)
  | _ => exact hplain _

end Writer

/-! ## Calls -/

/-- The texts of a call that are written as they are. -/
def Call.plainTexts : Call → List Text
  | .comment text | .eolComment text => [text]
  | .header type _ | .superType type | .implements type | .annotationStart _ type =>
    [type.descriptor]
  | .field name _ type initial => name :: type.descriptor :: (initial.map Value.plainTexts).getD []
  | .method name _ signature => [name, signature.descriptor]
  | .param register _ | .endLocal register | .restartLocal register => [register]
  | .label name => [name]
  | .instruction text => [text]
  | .catching exception first last handler => [exception.descriptor, first, last, handler]
  | .catchAll first last handler => [first, last, handler]
  | .localVariable register _ type _ => register :: (type.map TypeName.descriptor).toList
  | .value name _ => [name]
  | .subannotationStart name type => [name, type.descriptor]
  | .finish | .source _ | .registers _ | .locals _ | .line _ | .paramEnd | .prologue
  | .epilogue => []

/-- The texts of a call that are written as they are have no line end in them. -/
def Call.IsUnbroken (call : Call) : Prop := ∀ t ∈ call.plainTexts, t.IsInline

instance (call : Call) : Decidable call.IsUnbroken :=
  inferInstanceAs (Decidable (∀ t ∈ call.plainTexts, t.IsInline))

namespace Writer

/-- A comment takes a line. -/
theorem isFull_comment {text : Text} (h : text.IsInline) : (Page.comment text).IsFull := by
  obtain ⟨more, hcomment, hmore⟩ := Page.exists_comment h
  exact hcomment ▸ ⟨Text.isInline_cons.mpr ⟨by decide, hmore⟩, List.cons_ne_nil _ _⟩

/-- A directive takes a line. -/
theorem isFull_directiveLine {word rest : Text} (hword : word.IsInline) (access : Access)
    (hrest : rest.IsInline) : (directiveLine word access rest).IsFull :=
  ⟨isInline_directiveLine hword access hrest,
    List.append_ne_nil_of_right_ne_nil _ (List.cons_ne_nil _ _)⟩

/-- The opening of an annotation takes a line. -/
theorem isFull_annotationLine (visibility : Visibility) {type : TypeName}
    (h : type.descriptor.IsInline) : (annotationLine visibility type).IsFull :=
  ⟨isInline_annotationLine visibility h,
    List.append_ne_nil_of_right_ne_nil _ (List.cons_ne_nil _ _)⟩

/-- A field takes a line, and more where its value does. -/
theorem fillsLines_fieldLine {name : Text} (hname : name.IsInline) (access : Access)
    {type : TypeName} (htype : type.descriptor.IsInline) {value : Option Value}
    (hvalue : ∀ v ∈ value, ∀ t ∈ v.plainTexts, t.IsInline) :
    (fieldLine name access type value ++ ['\n']).FillsLines := by
  have hdeclared : (name ++ ":" ++ type.descriptor).IsInline :=
    Text.isInline_append.mpr ⟨Text.isInline_append.mpr ⟨hname, by decide⟩, htype⟩
  cases value with
  | none =>
    refine (isFull_directiveLine (by decide) access ?_).fillsLines
    exact Text.isInline_append.mpr ⟨hdeclared, Text.isInline_nil⟩
  | some v =>
    have hsplit : fieldLine name access type (some v) =
        directiveLine ".field" access (name ++ ":" ++ type.descriptor ++ " = ") ++ v.encode := by
      simp [fieldLine, directiveLine]
    rw [hsplit]
    refine Value.fillsLines_encode (hvalue v rfl) (isFull_directiveLine (by decide) access ?_)
    exact Text.isInline_append.mpr ⟨hdeclared, by decide⟩

/-- A line of code is one line. -/
theorem isInline_of_methodLine? {call : Call} (h : call.IsUnbroken) {line : Text}
    (hline : methodLine? call = some line) : line.IsInline := by
  unfold Call.IsUnbroken at h
  have hword : ∀ {word text : Text}, word.IsInline → text.IsInline → (word ++ text).IsInline :=
    fun hword htext => Text.isInline_append.mpr ⟨hword, htext⟩
  cases call with
  | registers count =>
    obtain rfl := Option.some.inj hline
    exact hword (by decide) (Text.isInline_decimal count)
  | locals count =>
    obtain rfl := Option.some.inj hline
    exact hword (by decide) (Text.isInline_decimal count)
  | line number =>
    obtain rfl := Option.some.inj hline
    exact hword (by decide) (Text.isInline_decimal number)
  | param register name =>
    have hregister : Text.IsInline (".param " ++ register) :=
      hword (by decide) (h _ List.mem_cons_self)
    cases name with
    | none => exact Option.some.inj hline ▸ hregister
    | some name =>
      obtain rfl := Option.some.inj hline
      exact hword (hword hregister (by decide)) (isInline_quoted name)
  | label name =>
    obtain rfl := Option.some.inj hline
    exact Text.isInline_cons.mpr ⟨by decide, h _ List.mem_cons_self⟩
  | instruction text => exact Option.some.inj hline ▸ h _ List.mem_cons_self
  | catching exception first last handler =>
    obtain rfl := Option.some.inj hline
    simp only [Call.plainTexts, List.forall_mem_cons] at h
    obtain ⟨hexception, hfirst, hlast, hhandler, -⟩ := h
    exact hword (hword (by decide) hexception)
      (Text.isInline_cons.mpr ⟨by decide, Line.isInline_handlerLabels hfirst hlast hhandler⟩)
  | catchAll first last handler =>
    obtain rfl := Option.some.inj hline
    simp only [Call.plainTexts, List.forall_mem_cons] at h
    obtain ⟨hfirst, hlast, hhandler, -⟩ := h
    exact hword (by decide) (Line.isInline_handlerLabels hfirst hlast hhandler)
  | localVariable register name type signature =>
    obtain rfl := Option.some.inj hline
    obtain ⟨hregister, htype⟩ := List.forall_mem_cons.mp h
    refine Line.isInline_localLine hregister name (fun t ht => ?_) signature
    obtain rfl := Option.mem_def.mp ht
    exact htype _ List.mem_cons_self
  | endLocal register =>
    obtain rfl := Option.some.inj hline
    exact hword (by decide) (h _ List.mem_cons_self)
  | restartLocal register =>
    obtain rfl := Option.some.inj hline
    exact hword (by decide) (h _ List.mem_cons_self)
  | paramEnd => exact Option.some.inj hline ▸ (by decide : Text.IsInline ".end param")
  | prologue => exact Option.some.inj hline ▸ (by decide : Text.IsInline ".prologue")
  | epilogue => exact Option.some.inj hline ▸ (by decide : Text.IsInline ".epilogue")
  | _ => exact absurd hline (Option.some_ne_none _).symm

end Writer

end Smali
