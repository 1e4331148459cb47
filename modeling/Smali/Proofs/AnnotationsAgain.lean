import Smali.Proofs.ElementLines
import Smali.Proofs.PlainCalls

/-!
# Annotations are read back

The lines of an annotation are read call by call: an element on one line stands for itself, the
lines of an array are gathered, and the line that opens a nested annotation opens it. A value that
is an annotation is written like a nested one, so it is never read as a value.
-/

namespace Smali

open Text Literal

/-! ## Values of elements -/

namespace Value

/-- A value on one line is readable. -/
theorem IsPlain.isReadable_of_isInline {v : Value} (h : v.IsPlain) (hinline : v.IsInline) :
    v.IsReadable := by
  induction v, h using Value.IsPlain.induction_on with
  | scalar v h hs => exact .scalar hs
  | array values h ih =>
    exact .array fun v hv => ih v hv (isInline_of_isInline_array hinline v hv)
  | annotated type elements => exact absurd hinline (not_isInline_annotated type elements)

section Arrays

variable {values : List Value} {t : Text} {parts : List Text}
  (hshape : shape (trim t) = .array parts) (hparts : AreWritten parts values)
  (hplain : ∀ v ∈ values, v.IsPlain)

include hshape hparts hplain

/-- An array of readable values is read from any text with the lines of the values. -/
theorem decode_of_areWritten (h : ∀ v ∈ values, v.IsReadable) :
    decode t = .ok (.array values) := by
  have hdecode : parts.mapM decode = .ok values := mapM_eq_ok_iff.mpr
    (forall₂_imp_of_mem hparts fun v hv part hpart => (hplain v hv).decode_of_lines (h v hv) hpart)
  rw [decode_of_array hshape, hdecode]
  rfl

/-- An array that is read at all from such a text holds readable values. -/
theorem isReadable_of_areWritten {w : Value} (hdecode : decode t = .ok w) :
    ∀ v ∈ values, v.IsReadable := by
  rw [decode_of_array hshape] at hdecode
  obtain ⟨results, hresults, -⟩ := exists_of_map_eq_ok hdecode
  intro v hv
  obtain ⟨part, result, hpart, hresult⟩ :=
    exists_of_forall₂_of_forall₂ hparts (mapM_eq_ok_iff.mp hresults) hv
  exact (hplain v hv).isReadable_of_decode hpart hresult

end Arrays

end Value

/-! ## Lines of elements -/

/-- What the line of an element stands for. -/
theorem Line.element?_named {l : Line} {name t : Text} (hname : name.IsIdentifier)
    (ht : IsCodeLine t) (htext : l.text = name ++ " = " ++ t) :
    (∀ descriptor, Text.after? ".subannotation" t = some descriptor →
      l.element? = (l.parseType (trim descriptor)).toOption.map fun type =>
        .call (.subannotationStart name type)) ∧
    (Text.after? ".subannotation" t = none →
      l.element? =
        if t.head? = some '\x7b' ∧ 0 < braceDepth t then
          some (.braces ⟨name, t, braceDepth t⟩)
        else (decode t).toOption.map fun v => .call (.value name v)) := by
  have hequals : '=' ∉ name ++ [' '] := by
    have hmem : '=' ∉ name := hname.isBare.not_mem (by decide)
    simp [hmem]
  have hsides : name ++ " = " ++ t = (name ++ [' ']) ++ '=' :: ([' '] ++ t) := by simp
  have hbefore : trim (name ++ [' ']) = name :=
    (trim_append_right (by decide) name).trans hname.isBare.isCodeLine.trimmed.trim_eq
  have hafter : trim ([' '] ++ t) = t :=
    (trim_append_left (by decide) t).trans ht.trimmed.trim_eq
  have hempty : ¬name.isEmpty = true := by simpa using hname.ne_nil
  rw [element?, htext, hsides, cut?_of_not_mem hequals]
  dsimp only
  rw [hbefore, hafter, if_neg hempty]
  exact ⟨fun descriptor h => by simp only [h], fun h => by simp only [h]⟩

namespace Stance

variable {n : Nat} {name : Text} (hname : name.IsIdentifier) (rest : List (Option Line))

/-- A line of code in an annotation. -/
theorem readBlock_cons {l : Line} (hcomment : l.isComment = false) :
    readBlock (n + 1) none (some l :: rest) =
      (inAnnotation? false (.within (n + 1)) n l).bind fun (s, calls) =>
        (readBlock s.site.nest s.braces rest).map (calls ++ ·) := by
  rw [readBlock, if_neg (Nat.succ_ne_zero n), take_of_nest rfl hcomment]

include hname

/-- The line of an element is read as what it stands for. -/
theorem readBlock_element {t : Text} (ht : IsCodeLine t) (helement : IsElementLine t) :
    ∃ l : Line, l.text = name ++ " = " ++ t ∧
      readBlock (n + 1) none (lineOf (name ++ " = " ++ t) :: rest) =
        (l.element?.bind fun
          | .call call => tell false (.within (n + 1)) call
          | .braces b => some (⟨.within (n + 1), some b⟩, [])).bind fun (s, calls) =>
          (readBlock s.site.nest s.braces rest).map (calls ++ ·) := by
  have hbare := hname.isBare.isCodeLine
  have hcode : IsCodeLine (name ++ " = " ++ t) := by
    refine ht.append_left (isInline_append.mpr ⟨hbare.inline, by decide⟩) fun c hc => ?_
    rw [List.head?_append_of_ne_nil name hbare.ne_nil] at hc
    exact hbare.trimmed.1 c hc
  obtain ⟨l, hl, htext, hcomment, hdirective⟩ :=
    (helement.named hname).code.exists_line hcode.trimmed hcode.ne_nil
  have hhead : (name ++ " = " ++ t).head? ≠ some '.' := by
    intro hhead
    rw [List.append_assoc, List.head?_append_of_ne_nil name hname.ne_nil] at hhead
    exact absurd (hname.isBare.chars '.' (List.mem_of_mem_head? hhead)) (by decide)
  have hread := readBlock_cons (n := n) rest hcomment
  rw [inAnnotation?, hdirective hhead] at hread
  rw [hl]
  exact ⟨l, htext, hread⟩

/-- An element on one line is read back. -/
theorem readBlock_inline {v : Value} (h : v.IsPlain) (hinline : v.IsInline) :
    readBlock (n + 1) none (lineOf (name ++ " = " ++ v.encode) :: rest) =
      (readBlock (n + 1) none rest).map (.value name v :: ·) := by
  have hlines := h.isTidy.lines_of_isInline hinline
  have hcode : IsCodeLine v.encode := Value.isCodeLine_of_mem_lines (hlines ▸ List.mem_cons_self)
  obtain ⟨l, htext, hread⟩ := readBlock_element (n := n) hname rest hcode
    (h.isElementLine _ (hlines ▸ List.mem_cons_self))
  have hordinary := isOrdinary_encode h hinline []
  rw [List.append_nil] at hordinary
  have hafter : Text.after? ".subannotation" v.encode = none := by
    rw [← Option.not_isSome_iff_eq_none]
    intro hstarts
    obtain ⟨rest, hrest⟩ := startsWith_iff.mp hstarts
    exact hordinary.not_opening rest hrest
  have hdepth := (h.isLevel (t := v.encode) rfl).braceDepth_eq
  have hdecode := h.decode_of_lines (h.isReadable_of_isInline hinline) (t := v.encode) rfl
  rw [hread, (Line.element?_named hname hcode htext).2 hafter, if_neg (by omega), hdecode]
  rfl

/-- The line that opens a nested annotation is read back. -/
theorem readBlock_opening {type : TypeName} (htype : type.IsPlain) :
    readBlock (n + 1) none
        (lineOf (name ++ " = " ++ (".subannotation " ++ type.descriptor)) :: rest) =
      (readBlock (n + 2) none rest).map (.subannotationStart name type :: ·) := by
  have hcode : IsCodeLine (".subannotation " ++ type.descriptor) :=
    htype.isBare.isCodeLine.append_left (by decide) (by rintro _ ⟨⟩; rfl)
  obtain ⟨l, htext, hread⟩ := readBlock_element (n := n) hname rest hcode
    (.of_keyword (.inr rfl) htype.isWord)
  have hafter : Text.after? ".subannotation" (".subannotation " ++ type.descriptor) =
      some (' ' :: type.descriptor) := rfl
  have htrim : trim (' ' :: type.descriptor) = type.descriptor :=
    (trim_append_left (w := [' ']) (by decide) _).trans htype.isBare.isCodeLine.trimmed.trim_eq
  rw [hread, (Line.element?_named hname hcode htext).1 _ hafter, htrim, Line.parseType, TypeName.parse_descriptor htype.wellFormed]
  rfl

omit hname in
/-- The lines of an array that do not close it are gathered. -/
theorem readBlock_gathered (n : Nat) (name : Text) {depth last : Nat} {ls : List Text}
    (h : Spans 1 depth ls last) (hls : ∀ l ∈ ls, IsCodeLine l ∧ IsElementLine l) (text : Text) :
    readBlock (n + 1) (some ⟨name, text, depth⟩) (ls.map lineOf ++ rest) =
      readBlock (n + 1) (some ⟨name, below text ls, last⟩) rest := by
  induction h generalizing text with
  | nil => simp [below]
  | @cons depth next last l ls line above _ ih =>
    obtain ⟨hcode, helement⟩ := hls l List.mem_cons_self
    obtain ⟨read, hread, htext, hcomment, hends⟩ := helement.exists_line hcode
    have hdepth := depthFrom_of_scanTo line
    have hmore := ih (fun l hl => hls l (List.mem_cons_of_mem _ hl)) (text ++ '\n' :: l)
    rw [List.map_cons, List.cons_append, hread, readBlock, if_neg (Nat.succ_ne_zero n),
      take_of_braces _ _ hcomment, inArray?, hends, htext, braceDepth]
    dsimp only
    rw [hdepth, if_neg Bool.false_ne_true, if_neg (by omega), below_cons, ← hmore]
    exact Option.map_id'

/-- The lines of an array stand for the value that is read from the text they make. -/
theorem readBlock_array {values : List Value} (hne : values ≠ [])
    (hplain : ∀ v ∈ values, v.IsPlain) :
    ∃ t, codeLines t = ['\x7b'] :: (stackedLines (values.map Value.lines) ++ [['\x7d']]) ∧
      readBlock (n + 1) none
          (((Writer.valueTexts name (.array values)).flatMap codeLines).map lineOf ++ rest) =
        (decode t).toOption.bind fun w =>
          (readBlock (n + 1) none rest).map (.value name w :: ·) := by
  have hbrace : ∀ {c : Char}, c = '\x7b' ∨ c = '\x7d' → IsCodeLine [c] ∧ IsElementLine [c] := by
    rintro c (rfl | rfl)
    · exact ⟨⟨by decide, isTrimmed_of_ends rfl rfl rfl rfl, by decide⟩,
        isElementLine_brace rfl (by decide)⟩
    · exact ⟨⟨by decide, isTrimmed_of_ends rfl rfl rfl rfl, by decide⟩,
        isElementLine_brace rfl (by decide)⟩
  obtain ⟨hopenCode, hopenElement⟩ := hbrace (.inl rfl)
  obtain ⟨hcloseCode, hcloseElement⟩ := hbrace (.inr rfl)
  have hinner : ∀ l ∈ stackedLines (values.map Value.lines), IsCodeLine l ∧ IsElementLine l := by
    intro l hl
    refine ⟨?_, isElementLine_stackedLines (fun ls hls => ?_) l hl⟩
    · rw [← (Value.leads_stacked fun v hv => (hplain v hv).isTidy).codeLines_eq] at hl
      exact isCodeLine_of_mem_codeLines hl
    · obtain ⟨v, hv, rfl⟩ := List.mem_map.mp hls
      exact ⟨(hplain v hv).isTidy.lines_ne_nil, fun l hl =>
        ⟨Value.isCodeLine_of_mem_lines hl, (hplain v hv).isElementLine l hl⟩⟩
  have hspans := spans_stackedLines (values.map Value.lines) fun ls hls => by
    obtain ⟨v, hv, rfl⟩ := List.mem_map.mp hls
    exact ⟨(hplain v hv).isTidy.lines_ne_nil, (hplain v hv).spans⟩
  refine ⟨below ['\x7b'] (stackedLines (values.map Value.lines) ++ [['\x7d']]), ?_, ?_⟩
  · rw [codeLines_below, hopenCode.codeLines_eq]
    · rfl
    · exact List.forall_mem_append.mpr
        ⟨fun l hl => (hinner l hl).1, List.forall_mem_singleton.mpr hcloseCode⟩
  · obtain ⟨l, htext, hread⟩ := readBlock_element (n := n) hname
      ((stackedLines (values.map Value.lines) ++ [['\x7d']]).map lineOf ++ rest) hopenCode hopenElement
    obtain ⟨last, hlast, htextLast, hcomment, hends⟩ := hcloseElement.exists_line hcloseCode
    have hopened : l.element? = some (.braces ⟨name, ['\x7b'], 1⟩) :=
      ((Line.element?_named hname hopenCode htext).2 rfl).trans rfl
    have hdepth : ((1 : Nat) : Int) + braceDepth ['\x7d'] ≤ 0 := by decide
    have hgathered := readBlock_gathered (lineOf ['\x7d'] :: rest) n name hspans hinner
      ['\x7b']
    have hmore : ∀ r : Option (List Call), r.map ([] ++ ·) = r := fun r => Option.map_id'
    rw [codeLines_valueTexts_array hne hplain hname, List.map_cons, List.cons_append, hread,
      hopened, List.map_append, List.append_assoc]
    refine (hmore _).trans (hgathered.trans ?_)
    have htext : below ['\x7b'] (stackedLines (values.map Value.lines) ++ [['\x7d']]) =
        below ['\x7b'] (stackedLines (values.map Value.lines)) ++ ['\n', '\x7d'] := by
      rw [below_append]
      rfl
    rw [hlast, readBlock, if_neg (Nat.succ_ne_zero n), take_of_braces _ _ hcomment, inArray?,
      hends, htextLast, htext]
    dsimp only
    rw [if_neg Bool.false_ne_true, if_pos hdepth]
    cases (decode (below ['\x7b'] (stackedLines (values.map Value.lines)) ++
      ['\n', '\x7d'])).toOption with
    | none => rfl
    | some w => rfl

/-- The lines of an element are read as the element exactly if its value is read back. -/
theorem readBlock_value_iff {v : Value} (h : v.IsPlain) (calls : List Call) :
    readBlock (n + 1) none
        (((Writer.valueTexts name v).flatMap codeLines).map lineOf ++ rest) =
        some (.value name v :: calls) ↔
      v.IsElement ∧ readBlock (n + 1) none rest = some calls := by
  have hmap : ∀ {call other : Call} {r : Option (List Call)},
      r.map (call :: ·) = some (other :: calls) ↔ call = other ∧ r = some calls := by
    intro call other r
    cases r <;> simp
  have hone : v.IsInline → Writer.valueTexts name v = Writer.valueLines (name ++ " = ") v [] →
      v.IsElement → (readBlock (n + 1) none
        (((Writer.valueTexts name v).flatMap codeLines).map lineOf ++ rest) =
        some (.value name v :: calls) ↔
      v.IsElement ∧ readBlock (n + 1) none rest = some calls) := by
    intro hinline htexts helement
    rw [htexts, Writer.codeLines_valueLines_named h hname, h.isTidy.lines_of_isInline hinline,
      namedLines_cons, List.map_singleton, List.singleton_append,
      readBlock_inline hname rest h hinline, hmap]
    exact and_congr_left fun _ => iff_of_true rfl helement
  cases v with
  | array values =>
    cases values with
    | nil => exact hone (by decide) rfl (.array fun _ h => absurd h List.not_mem_nil)
    | cons first more =>
      have hne : first :: more ≠ [] := List.cons_ne_nil _ _
      obtain ⟨t, ht, hread⟩ := readBlock_array (n := n) hname rest hne h.of_array
      obtain ⟨parts, hshape, hparts⟩ := exists_shape_stacked (fun v hv => (h.of_array v hv).isTidy)
        (areParts_encode h.of_array) hne ht
      rw [hread]
      constructor
      · intro hcalls
        obtain ⟨w, hw, hmore⟩ := Option.bind_eq_some_iff.mp hcalls
        have hvalues :=
          Value.isReadable_of_areWritten hshape hparts h.of_array (toOption_eq_some.mp hw)
        exact ⟨.array hvalues, (hmap.mp hmore).2⟩
      · rintro ⟨helement, hmore⟩
        have hvalues : ∀ v ∈ first :: more, v.IsReadable := by
          cases helement with
          | scalar hs => exact absurd hs id
          | array hvalues => exact hvalues
        rw [Value.decode_of_areWritten hshape hparts h.of_array hvalues, hmore]
        rfl
  | annotated type elements =>
    obtain ⟨htype, hnames, hvalues⟩ := h.of_annotated
    have htexts : Writer.valueTexts name (.annotated type elements) =
        Writer.valueLines (name ++ " = ") (.annotated type elements) [] := rfl
    rw [htexts, Writer.codeLines_valueLines_named h hname,
      Value.IsPlain.lines_annotated htype hnames hvalues, namedLines_cons, List.map_cons,
      List.cons_append, readBlock_opening hname _ htype, hmap]
    exact iff_of_false (fun hcall => Call.noConfusion hcall.1) fun helement => helement.1
  | _ => exact hone (h.isInline_scalar trivial) rfl (.scalar trivial)

omit hname in
/-- The closing line of an annotation is read back. -/
theorem readBlock_closing (n : Nat) :
    readBlock (n + 1) none (((Site.within (n + 1)).closingText?.toList).map lineOf ++ rest) =
      (readBlock n none rest).map (.finish :: ·) := by
  have hname : IsWord (closingName n) := by
    have hannotation : IsIdentifier "annotation" := by decide
    have hnested : IsIdentifier "subannotation" := by decide
    cases n with
    | zero => exact hannotation.isWord
    | succ n => exact hnested.isWord
  have htext : (Site.within (n + 1)).closingText? =
      some (".end ".toList ++ closingName n ++ []) := by
    cases n <;> rfl
  obtain ⟨l, hl, hd, hend, -, hcomment⟩ := exists_line_of_end hname IsCode.nil.scans
    fun c hc => absurd hc (Option.not_mem_none c)
  have hcloses : l.closes (closingName n) = true := decide_eq_true hend
  rw [htext, Option.toList_some, List.map_singleton, hl, List.singleton_append,
    readBlock_cons rest hcomment, inAnnotation?, hd]
  dsimp only
  rw [if_pos hcloses]
  rfl

end Stance

/-! ## Blocks -/

/-- The line that opens a nested annotation. -/
theorem codeLines_subannotationStart {name : Text} (hname : name.IsIdentifier) {type : TypeName}
    (htype : type.IsPlain) (s : Site) : s.codeLines (.subannotationStart name type) =
      [name ++ " = " ++ (".subannotation " ++ type.descriptor)] := by
  have hcode : IsCodeLine (name ++ " = .subannotation " ++ type.descriptor) := by
    have hbare := hname.isBare.isCodeLine
    refine htype.isBare.isCodeLine.append_left
      (isInline_append.mpr ⟨hbare.inline, by decide⟩) fun c hc => ?_
    rw [List.head?_append_of_ne_nil name hbare.ne_nil] at hc
    exact hbare.trimmed.1 c hc
  have htext : name ++ " = .subannotation " ++ type.descriptor =
      name ++ " = " ++ (".subannotation " ++ type.descriptor) := by simp
  rw [Site.codeLines, Call.texts, List.flatMap_singleton, hcode.codeLines_eq, htext]
  exact Call.noConfusion

/-- The lines of a block of plain calls are read as the block exactly if all calls are readable. -/
theorem Block.readBlock_iff {validate : Bool} {s s' : Site} {block : List Call}
    (h : Block validate s block s') (hplain : ∀ call ∈ block, call.HasPlainParts) :
    Stance.readBlock s.nest none (((Site.within s.nest).written block).map lineOf) = some block ↔
      ∀ call ∈ block, call.IsReadable := by
  have hmap : ∀ {call : Call} {calls : List Call} {r : Option (List Call)},
      r.map (call :: ·) = some (call :: calls) ↔ r = some calls := by
    intro call calls r
    cases r <;> simp
  induction h with
  | @last s s' h hnest =>
    have hwritten : (Site.within s.nest).written [.finish] =
        (Site.within (0 + 1)).closingText?.toList := by rw [hnest]; rfl
    have hread := Stance.readBlock_closing [] 0
    rw [List.append_nil] at hread
    rw [hwritten, hnest, hread]
    exact iff_of_true rfl (List.forall_mem_singleton.mpr trivial)
  | @step s mid s' call rest h hnest hmid hrest ih =>
    obtain ⟨hcall, hmore⟩ := List.forall_mem_cons.mp hplain
    obtain ⟨outer, houter⟩ := Nat.exists_eq_succ_of_ne_zero hnest
    have hnext := Site.next?_of_accept h
    rw [Site.next?_within hnest] at hnext
    obtain ⟨inner, hinner, rfl⟩ := Option.map_eq_some_iff.mp hnext
    have hwritten : (Site.within s.nest).written (call :: rest) =
        (Site.within s.nest).codeLines call ++ (Site.within inner.nest).written rest := by
      rw [Site.written, hinner]
      dsimp only
      rw [← Site.next?_within_eq hnest hinner]
    have hstep := hinner
    rw [Site.next?_of_nest (s := .within s.nest) houter] at hstep
    obtain ⟨nest, hnestNext, rfl⟩ := Option.map_eq_some_iff.mp hstep
    have hagain : Stance.readBlock nest none (((Site.within nest).written rest).map lineOf) =
        some rest ↔ ∀ call ∈ rest, call.IsReadable := ih hmore
    rw [hwritten, List.map_append, List.forall_mem_cons, ← hagain, houter]
    cases call with
    | value name v =>
      obtain rfl := Option.some.inj hnestNext
      exact Stance.readBlock_value_iff hcall.1 _ hcall.2 rest
    | subannotationStart name type =>
      obtain rfl := Option.some.inj hnestNext
      rw [codeLines_subannotationStart hcall.1 hcall.2, List.map_singleton, List.singleton_append,
        Stance.readBlock_opening hcall.1 _ hcall.2, hmap]
      exact (and_iff_right trivial).symm
    | finish =>
      obtain rfl := Option.some.inj hnestNext
      refine Iff.trans ?_ (and_iff_right trivial).symm
      have hread := Stance.readBlock_closing (((Site.within outer).written rest).map lineOf) outer
      exact (iff_of_eq (congrArg (· = some (Call.finish :: rest)) hread)).trans hmap
    | _ => exact absurd hnestNext (Option.some_ne_none _).symm

end Smali
