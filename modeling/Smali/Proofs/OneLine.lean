import Smali.Proofs.Declarations
import Smali.Proofs.Operands
import Smali.Proofs.Pieces

/-!
# Calls of one line

A call that a strict reading tells comes from a line of the source. Its arguments are parts of
that line or values that are written on one line, so what is written for it is one line of code.
-/

namespace Smali

/-! ## What a scan keeps -/

/-- All characters of what a scan found, the comment included. -/
def Scanned.all (s : Scanned) : Text := s.text ++ (s.remark.map Prod.fst).getD []

/-- A scan keeps all characters. -/
theorem all_of_scan {number column : Nat} {t : Text} {s : Scanned}
    (h : scan number column t = .ok s) : s.all = t := by
  fun_induction scan number column t generalizing s with
  | case1 => cases h; rfl
  | case2 column c rest hc ih =>
    obtain ⟨inner, hinner, rfl⟩ := exists_of_map_eq_ok h
    exact congrArg (c :: ·) (ih hinner)
  | case3 => cases h; rfl
  | case4 =>
    rename_i body after hbody _ text _ ih
    obtain ⟨inner, hinner, rfl⟩ := exists_of_map_eq_ok h
    rw [Literal.eq_of_takeBody? hbody, ← ih hinner]
    simp [Scanned.all, Scanned.push, text]
  | case5 => cases h
  | case6 =>
    rename_i c rest _ _ _ _ _ ih
    obtain ⟨inner, hinner, rfl⟩ := exists_of_map_eq_ok h
    exact congrArg (c :: ·) (ih hinner)
  | case7 =>
    rename_i rest _ _ _ _ _ word _ _ _ ih
    obtain ⟨inner, hinner, rfl⟩ := exists_of_map_eq_ok h
    have hsplit := rest.takeWhile_append_dropWhile (p := (!endsWord ·))
    rw [← ih hinner] at hsplit
    simpa [Scanned.all, Scanned.push, word] using hsplit
  | case8 => cases h

/-- What a scan finds behind a character that starts code. -/
theorem head_of_scan {number column : Nat} {c : Char} {rest : Text} {s : Scanned}
    (hc : Text.isBlank c = false) (hsign : c ≠ '#')
    (h : scan number column (c :: rest) = .ok s) :
    s.code ≠ [] ∧ ∃ more, s.text = c :: more := by
  have hpush : ∀ {r : Except Fault Scanned} {kind : TokenKind} {text : Text} {p : Position},
      text.head? = some c → r.map (.push kind text p) = .ok s →
      s.code ≠ [] ∧ ∃ more, s.text = c :: more := by
    intro r kind text p htext hr
    obtain ⟨inner, -, rfl⟩ := exists_of_map_eq_ok hr
    obtain ⟨more, rfl⟩ := List.head?_eq_some_iff.mp htext
    exact ⟨List.cons_ne_nil _ _, _, rfl⟩
  by_cases hquote : c = '"' ∨ c = '\''
  · cases hbody : Literal.takeBody? c rest with
    | none =>
      have hfault := scan_openQuote number column hquote hbody
      rw [hfault] at h
      cases h
    | some found =>
      obtain ⟨body, after⟩ := found
      rw [scan_quote number column hquote hbody] at h
      exact hpush rfl h
  · by_cases hmark : isMark c = true
    · rw [scan_mark number column hmark] at h
      exact hpush rfl h
    · have hword : startsWord c = true := by
        rw [not_or] at hquote
        simp [startsWord, hc, hsign, hquote, hmark]
      rw [scan_word number column hword] at h
      split at h
      · exact hpush rfl h
      · cases h

/-- A text that starts with code. -/
def Text.StartsCode (t : Text) : Prop := ∃ c rest, t = c :: rest ∧ isBlank c = false ∧ c ≠ '#'

/-- The line of such a text. -/
theorem Text.StartsCode.line {t : Text} (h : t.StartsCode) {l : Line} (hl : lineOf t = some l) :
    l.isComment = false ∧ l.text.StartsCode := by
  obtain ⟨c, rest, rfl, hc, hsign⟩ := h
  obtain ⟨s, hs, rfl⟩ := Option.map_eq_some_iff.mp hl
  cases hscan : scan 1 1 (c :: rest) with
  | error fault => rw [hscan] at hs; cases hs
  | ok s' =>
    rw [hscan] at hs
    obtain rfl := Option.some.inj hs
    obtain ⟨hcode, more, hmore⟩ := head_of_scan hc hsign hscan
    refine ⟨?_, ?_⟩
    · unfold Line.isComment Line.comment?
      rw [if_neg (by simpa [Scanned.line] using hcode)]
      rfl
    · have hsingle : ∀ d ∈ [c].getLast?, Text.isBlank d = false := by
        rintro d ⟨rfl⟩
        exact hc
      have hleft : Text.trimLeft (c :: more) = [c] ++ more :=
        List.dropWhile_cons_of_neg (by simp [hc])
      refine ⟨c, Text.trimRight more, ?_, hc, hsign⟩
      change Text.trim s'.text = _
      rw [hmore, Text.trim, hleft, Text.trimRight_append_of_last hsingle]
      rfl

/-! ## Lines of calls -/

/-- The line of a call starts with code, an instruction aside. -/
theorem startsCode_of_line? {call : Call} {text : Text} (htext : call.line? = some text)
    (hcall : call.kind ≠ .instruction) : text.StartsCode := by
  cases call with
  | instruction text => exact absurd rfl hcall
  | param register name =>
    cases name with
    | none => exact Option.some.inj htext ▸ ⟨'.', _, rfl, by decide, by decide⟩
    | some name => exact Option.some.inj htext ▸ ⟨'.', _, rfl, by decide, by decide⟩
  | label name => exact Option.some.inj htext ▸ ⟨':', _, rfl, by decide, by decide⟩
  | _ =>
    first
    | exact absurd htext (Option.some_ne_none _).symm
    | exact Option.some.inj htext ▸ ⟨'.', _, rfl, by decide, by decide⟩

/-- A call is on one line if its text starts with code and has no line end in it. -/
theorem isOneLine_of_isInline {call : Call}
    (hinline : ∀ text, call.line? = some text → text.IsInline)
    (hcall : ∀ text, call = .instruction text → text.StartsCode) : call.IsOneLine := by
  intro text htext
  have hstarts : text.StartsCode := by
    by_cases hkind : call.kind = .instruction
    · cases call with
      | instruction t =>
        obtain rfl : t = text := Option.some.inj htext
        exact hcall t rfl
      | _ => exact CallKind.noConfusion hkind
    · exact startsCode_of_line? htext hkind
  refine ⟨hinline text htext, fun hblank => ?_, fun l hl => (hstarts.line hl).1⟩
  obtain ⟨c, rest, rfl, hc, -⟩ := hstarts
  have hfirst := Text.trim_eq_nil.mp hblank c List.mem_cons_self
  exact Bool.false_ne_true (hc.symm.trans hfirst)

/-- A keyword of a flag is on one line. -/
theorem Flag.isInline_keyword (f : Flag) : f.keyword.IsInline := by
  cases f <;> decide

/-- Flags are on one line. -/
theorem Access.isInline_render (access : Access) : access.render.IsInline := by
  refine Text.isInline_intercalate (by decide) fun word hword => ?_
  obtain ⟨f, -, rfl⟩ := List.mem_map.mp hword
  exact f.isInline_keyword

/-- A line with flags is on one line. -/
theorem isInline_directiveLine {word rest : Text} (hword : word.IsInline) (access : Access)
    (hrest : rest.IsInline) : (Writer.directiveLine word access rest).IsInline := by
  refine Text.isInline_append.mpr ⟨Text.isInline_append.mpr ⟨hword, ?_⟩,
    Text.isInline_cons.mpr ⟨by decide, hrest⟩⟩
  split
  · exact Text.isInline_nil
  · exact Text.isInline_cons.mpr ⟨by decide, access.isInline_render⟩

/-- A text between quotes is on one line. -/
theorem isInline_quoted (text : Text) : (Writer.quoted text).IsInline :=
  Text.isInline_cons.mpr ⟨by decide,
    Text.isInline_append.mpr ⟨Literal.isInline_escape text, by decide⟩⟩

/-- The opening of an annotation is on one line. -/
theorem isInline_annotationLine (visibility : Visibility) {type : TypeName}
    (h : type.descriptor.IsInline) : (Writer.annotationLine visibility type).IsInline := by
  refine Text.isInline_append.mpr ⟨Text.isInline_append.mpr ⟨by decide, ?_⟩,
    Text.isInline_cons.mpr ⟨by decide, h⟩⟩
  cases visibility <;> decide

/-! ## Arguments -/

namespace Line

variable {l : Line}

/-- The arguments are part of the line. -/
theorem arguments_subset (l : Line) : l.arguments ⊆ l.text := by
  unfold arguments
  split
  · exact List.Subset.trans (Text.trim_subset _) (List.drop_subset _ _)
  · exact List.Subset.refl _

/-- A type has the descriptor that it was read from. -/
theorem descriptor_of_parseType {t : Text} {type : TypeName} (h : l.parseType t = .ok type) :
    type.descriptor = t := by
  unfold parseType at h
  cases hp : TypeName.parse t with
  | error flaw => rw [hp] at h; cases h
  | ok found =>
    rw [hp] at h
    cases h
    exact TypeName.descriptor_of_parse hp

/-- A declaration is the last word of its arguments. -/
theorem subset_of_splitAccess {t last : Text} {access : Access}
    (h : l.splitAccess t = .ok (access, last)) : last ⊆ t := by
  unfold splitAccess at h
  dsimp only at h
  split at h
  · cases h
  · rename_i word hword
    split at h
    · cases h
      exact Text.subset_of_mem_words (List.mem_of_getLast? hword)
    · cases h

end Line

/-! ## Calls of lines -/

namespace Line

variable {l : Line}

/-- A result behind an option. -/
theorem exists_of_toOption_map {ε α β : Type} {r : Except ε α} {f : α → β} {b : β}
    (h : r.toOption.map f = some b) : ∃ a, r = .ok a ∧ f a = b := by
  cases r with
  | error fault => cases h
  | ok a => exact ⟨a, rfl, Option.some.inj h⟩

/-- A result in front of an option. -/
theorem exists_of_toOption_bind {ε α β : Type} {r : Except ε α} {f : α → Option β} {b : β}
    (h : r.toOption.bind f = some b) : ∃ a, r = .ok a ∧ f a = some b := by
  cases r with
  | error fault => cases h
  | ok a => exact ⟨a, rfl, h⟩

/-- The type of a line with a type alone is spelled in the line. -/
theorem isInline_of_singleType (hl : l.text.IsInline) {type : TypeName}
    (h : l.singleType = .ok type) : type.descriptor.IsInline := by
  unfold singleType at h
  split at h
  · cases h
  · rw [descriptor_of_parseType h]
    exact hl.of_subset l.arguments_subset

/-- A line with an annotation tells a call of one line. -/
theorem isOneLine_of_annotationCall? (hl : l.text.IsInline) {call : Call}
    (h : l.annotationCall? = some call) : call.IsOneLine := by
  obtain ⟨⟨visibility, type⟩, hheader, rfl⟩ := exists_of_toOption_map h
  have htype : type.descriptor.IsInline := by
    unfold annotationHeader at hheader
    split at hheader
    · rename_i first second hwords
      obtain ⟨kept, -, hheader⟩ := exists_of_bind_eq_ok hheader
      obtain ⟨found, hfound, heq⟩ := exists_of_bind_eq_ok hheader
      cases heq
      rw [descriptor_of_parseType hfound]
      have hword : second ∈ Text.words l.arguments := by
        rw [hwords]
        exact List.mem_cons_of_mem _ List.mem_cons_self
      exact hl.of_subset (List.Subset.trans (Text.subset_of_mem_words hword) l.arguments_subset)
    · cases hheader
  refine isOneLine_of_isInline (fun text htext => ?_) nofun
  obtain rfl := Option.some.inj htext
  exact isInline_annotationLine visibility htype

/-- A line with a class tells a call of one line. -/
theorem isOneLine_of_classHeader (hl : l.text.IsInline) {access : Access} {type : TypeName}
    (h : l.classHeader = .ok (access, type)) : (Call.header type access).IsOneLine := by
  obtain ⟨⟨found, declaration⟩, hsplit, h⟩ := exists_of_bind_eq_ok h
  obtain ⟨type', htype, heq⟩ := exists_of_bind_eq_ok h
  cases heq
  refine isOneLine_of_isInline (fun text htext => ?_) nofun
  obtain rfl := Option.some.inj htext
  refine isInline_directiveLine (by decide) _ ?_
  rw [descriptor_of_parseType htype]
  exact hl.of_subset (List.Subset.trans (subset_of_splitAccess hsplit) l.arguments_subset)

/-- A line with a method tells a call of one line. -/
theorem isOneLine_of_method (hl : l.text.IsInline) {m : MethodArguments}
    (h : l.method = .ok m) : (Call.method m.name m.access m.signature).IsOneLine := by
  obtain ⟨⟨access, declaration⟩, hsplit, h⟩ := exists_of_bind_eq_ok h
  obtain ⟨⟨name, signature⟩, hparse, heq⟩ := exists_of_bind_eq_ok h
  cases heq
  refine isOneLine_of_isInline (fun text htext => ?_) nofun
  obtain rfl := Option.some.inj htext
  refine isInline_directiveLine (by decide) _ ?_
  cases hp : parseMethodDeclaration declaration with
  | error flaw => rw [hp] at hparse; cases hparse
  | ok found =>
    rw [hp] at hparse
    cases hparse
    rw [← (parseMethodDeclaration_eq_ok_iff.mp hp).2.2.1]
    exact hl.of_subset (List.Subset.trans (subset_of_splitAccess hsplit) l.arguments_subset)

/-- A line with a field tells a call of one line. -/
theorem isOneLine_of_field (hl : l.text.IsInline) {f : FieldArguments} (h : l.field = .ok f) :
    (Call.field f.name f.access f.type f.value).IsOneLine := by
  have hcut := cutArguments_subset '=' l.arguments
  unfold field at h
  generalize cutArguments '=' l.arguments = sides at h hcut
  obtain ⟨before, literal⟩ := sides
  obtain ⟨hbefore, hliteral⟩ := hcut
  obtain ⟨⟨access, declaration⟩, hsplit, h⟩ := exists_of_bind_eq_ok h
  obtain ⟨⟨name, type⟩, hparse, h⟩ := exists_of_bind_eq_ok h
  have hdeclaration : (name ++ ':' :: type.descriptor).IsInline := by
    cases hp : parseFieldDeclaration declaration with
    | error flaw => rw [hp] at hparse; cases hparse
    | ok found =>
      rw [hp] at hparse
      cases hparse
      rw [← (parseFieldDeclaration_eq_ok_iff.mp hp).2.1]
      exact hl.of_subset
        (List.Subset.trans (subset_of_splitAccess hsplit)
          (List.Subset.trans hbefore l.arguments_subset))
  have hfields : f.name = name ∧ f.type = type ∧ ∀ v ∈ f.value, v.IsInline := by
    cases literal with
    | none =>
      cases h
      exact ⟨rfl, rfl, fun v hv => absurd hv (Option.not_mem_none v)⟩
    | some text =>
      obtain ⟨v, hdecode, heq⟩ := exists_of_bind_eq_ok h
      cases heq
      refine ⟨rfl, rfl, ?_⟩
      rintro _ ⟨rfl⟩
      have htext := hl.of_subset (List.Subset.trans (hliteral text rfl) l.arguments_subset)
      unfold decodeAt at hdecode
      cases hd : Literal.decode text with
      | error flaw => rw [hd] at hdecode; cases hdecode
      | ok found =>
        rw [hd] at hdecode
        cases hdecode
        exact Literal.isInline_of_decode htext hd
  obtain ⟨hname, htype, hvalue⟩ := hfields
  refine isOneLine_of_isInline (fun text htext => ?_) nofun
  obtain rfl := Option.some.inj htext
  refine isInline_directiveLine (by decide) _ (Text.isInline_append.mpr ⟨?_, ?_⟩)
  · have hcolon : f.name ++ ":".toList ++ f.type.descriptor =
        f.name ++ ':' :: f.type.descriptor := by
      rw [List.append_assoc]
      rfl
    rw [hcolon, hname, htype]
    exact hdeclaration
  · cases hv : f.value with
    | none => exact Text.isInline_nil
    | some v => exact Text.isInline_append.mpr ⟨by decide, hvalue v hv⟩

/-- A line with something of a class tells a call of one line. -/
theorem isOneLine_of_classCall? (hl : l.text.IsInline) {call : Call}
    (h : l.classCall? = some call) : call.IsOneLine := by
  have hword : Text.IsInline ".super ".toList ∧ Text.IsInline ".implements ".toList ∧
      Text.IsInline ".source ".toList := by decide
  unfold classCall? at h
  split at h
  · obtain ⟨⟨access, type⟩, hheader, rfl⟩ := exists_of_toOption_map h
    exact isOneLine_of_classHeader hl hheader
  · obtain ⟨type, htype, rfl⟩ := exists_of_toOption_map h
    refine isOneLine_of_isInline (fun text htext => ?_) nofun
    obtain rfl := Option.some.inj htext
    exact Text.isInline_append.mpr ⟨hword.1, isInline_of_singleType hl htype⟩
  · obtain ⟨type, htype, rfl⟩ := exists_of_toOption_map h
    refine isOneLine_of_isInline (fun text htext => ?_) nofun
    obtain rfl := Option.some.inj htext
    exact Text.isInline_append.mpr ⟨hword.2.1, isInline_of_singleType hl htype⟩
  · obtain ⟨name, -, rfl⟩ := exists_of_toOption_map h
    refine isOneLine_of_isInline (fun text htext => ?_) nofun
    obtain rfl := Option.some.inj htext
    exact Text.isInline_append.mpr ⟨hword.2.2, isInline_quoted name⟩
  · obtain ⟨f, hfield, rfl⟩ := exists_of_toOption_map h
    exact isOneLine_of_field hl hfield
  · obtain ⟨m, hmethod, rfl⟩ := exists_of_toOption_map h
    exact isOneLine_of_method hl hmethod
  · exact isOneLine_of_annotationCall? hl h
  · cases h

/-! ## Calls of code -/

/-- A line of code tells a call of one line. -/
theorem isOneLine_codeCall (hl : l.text.IsInline) (hstarts : l.text.StartsCode) :
    l.codeCall.IsOneLine := by
  unfold codeCall
  split
  · rename_i name htext
    refine isOneLine_of_isInline (fun text hline => ?_) nofun
    obtain rfl := Option.some.inj hline
    exact htext ▸ hl
  · refine isOneLine_of_isInline (fun text hline => ?_) fun text hcall => ?_
    · obtain rfl := Option.some.inj hline
      exact hl
    · cases hcall
      exact hstarts

/-- A call whose text is a word and a part of the line. -/
theorem isOneLine_of_word (hl : l.text.IsInline) {call : Call} {word part : Text}
    (hline : call.line? = some (word ++ part)) (hword : word.IsInline) (hpart : part ⊆ l.text)
    (hkind : call.kind ≠ .instruction) : call.IsOneLine := by
  refine isOneLine_of_isInline (fun text htext => ?_) ?_
  · obtain rfl := Option.some.inj (hline.symm.trans htext)
    exact Text.isInline_append.mpr ⟨hword, hl.of_subset hpart⟩
  · rintro text rfl
    exact absurd rfl hkind

/-- The register behind the keyword `local` is part of the line. -/
theorem subset_of_localRegister {found : Text} (h : l.localRegister = .ok found) :
    found ⊆ l.text := by
  obtain ⟨-, rest, harguments, rfl⟩ := isOperand_of_localRegister h
  refine List.Subset.trans (Text.trim_subset rest) (List.Subset.trans ?_ l.arguments_subset)
  rw [harguments]
  exact List.subset_append_right _ _

/-- A closing line in a method tells a call of one line. -/
theorem isOneLine_of_closingCall? (hl : l.text.IsInline) (hstarts : l.text.StartsCode)
    {call : Call} (h : l.closingCall? = some call) : call.IsOneLine := by
  unfold closingCall? at h
  split at h
  · cases h
    exact fun text htext => absurd htext (Option.some_ne_none _).symm
  · split at h
    · cases h
      refine isOneLine_of_isInline (fun text htext => ?_) nofun
      obtain rfl := Option.some.inj htext
      decide
    · split at h
      · obtain ⟨found, hfound, rfl⟩ := exists_of_toOption_map h
        exact isOneLine_of_word hl rfl (by decide) (subset_of_localRegister hfound)
          CallKind.noConfusion
      · split at h
        · cases h
        · cases h
          exact isOneLine_codeCall hl hstarts

/-- A count tells a call of one line. -/
theorem isOneLine_of_count {call : Call} {word : Text} {n : Nat}
    (hline : call.line? = some (word ++ Text.decimal n)) (hword : word.IsInline)
    (hkind : call.kind ≠ .instruction) : call.IsOneLine := by
  refine isOneLine_of_isInline (fun text htext => ?_) ?_
  · obtain rfl := Option.some.inj (hline.symm.trans htext)
    exact Text.isInline_append.mpr ⟨hword, Text.isInline_decimal n⟩
  · rintro text rfl
    exact absurd rfl hkind

/-- A parameter tells a call of one line. -/
theorem isOneLine_of_param (hl : l.text.IsInline) {found : Text} {name : Option Text}
    (h : l.param = .ok (found, name)) : (Call.param found name).IsOneLine := by
  obtain ⟨-, hsubset, -⟩ := isOperand_of_param h
  have hfound : found.IsInline := hl.of_subset (List.Subset.trans hsubset l.arguments_subset)
  refine isOneLine_of_isInline (fun text htext => ?_) nofun
  have hword : Text.IsInline ".param ".toList := by decide
  cases name with
  | none =>
    obtain rfl := Option.some.inj htext
    exact Text.isInline_append.mpr ⟨hword, hfound⟩
  | some name =>
    obtain rfl := Option.some.inj htext
    exact Text.isInline_append.mpr ⟨Text.isInline_append.mpr ⟨Text.isInline_append.mpr
      ⟨hword, hfound⟩, by decide⟩, isInline_quoted name⟩

/-- The labels of a line with a handler are parts of the line. -/
theorem subset_of_handler {found : HandlerArguments} (h : l.handler = .ok found) :
    found.first ⊆ l.text ∧ found.last ⊆ l.text ∧ found.handler ⊆ l.text ∧
      found.exception ⊆ l.text := by
  obtain ⟨-, -, -, before, g, -, -, hexception, harguments⟩ := exists_fill_of_handler h
  have hline := l.arguments_subset
  rw [harguments, List.append_subset] at hline
  obtain ⟨hfirst, hlast, hhandler⟩ := g.subset_fill found.first found.last found.handler
  refine ⟨List.Subset.trans hfirst hline.2, List.Subset.trans hlast hline.2,
    List.Subset.trans hhandler hline.2, ?_⟩
  rw [hexception]
  exact List.Subset.trans (Text.trim_subset before) hline.1

/-- The labels of a handler are on one line. -/
theorem isInline_handlerLabels {first last handler : Text} (hfirst : first.IsInline)
    (hlast : last.IsInline) (hhandler : handler.IsInline) :
    (Writer.handlerLabels first last handler).IsInline := by
  unfold Writer.handlerLabels
  simp only [Text.isInline_append]
  exact ⟨⟨⟨⟨⟨by decide, hfirst⟩, by decide⟩, hlast⟩, by decide⟩, hhandler⟩

/-- A handler for exceptions of one type tells a call of one line. -/
theorem isOneLine_of_catchingCall? (hl : l.text.IsInline) {call : Call}
    (h : l.catchingCall? = some call) : call.IsOneLine := by
  obtain ⟨found, hhandler, h⟩ := exists_of_toOption_bind h
  obtain ⟨type, htype, rfl⟩ := exists_of_toOption_map h
  obtain ⟨hfirst, hlast, hlabel, hexception⟩ := subset_of_handler hhandler
  refine isOneLine_of_isInline (fun text htext => ?_) nofun
  obtain rfl := Option.some.inj htext
  have hlabels := isInline_handlerLabels (hl.of_subset hfirst) (hl.of_subset hlast)
    (hl.of_subset hlabel)
  refine Text.isInline_append.mpr ⟨Text.isInline_append.mpr ⟨by decide, ?_⟩,
    Text.isInline_cons.mpr ⟨by decide, hlabels⟩⟩
  rw [descriptor_of_parseType htype]
  exact hl.of_subset hexception

/-- A handler for all exceptions tells a call of one line. -/
theorem isOneLine_of_catchAllCall? (hl : l.text.IsInline) {call : Call}
    (h : l.catchAllCall? = some call) : call.IsOneLine := by
  obtain ⟨found, hhandler, h⟩ := exists_of_toOption_bind h
  split at h
  · cases h
    obtain ⟨hfirst, hlast, hlabel, -⟩ := subset_of_handler hhandler
    refine isOneLine_of_isInline (fun text htext => ?_) nofun
    obtain rfl := Option.some.inj htext
    exact Text.isInline_append.mpr ⟨by decide, isInline_handlerLabels (hl.of_subset hfirst)
      (hl.of_subset hlast) (hl.of_subset hlabel)⟩
  · cases h

/-- The line of a local variable is one line. -/
theorem isInline_localLine {register : Text} (hregister : register.IsInline)
    (name : Option Text) {type : Option TypeName} (htype : ∀ t ∈ type, t.descriptor.IsInline)
    (signature : Option Text) : (Writer.localLine register name type signature).IsInline := by
  have hcomma : Text.IsInline ", ".toList := by decide
  have hnull : Text.IsInline ", null:".toList := by decide
  unfold Writer.localLine
  refine Text.isInline_append.mpr ⟨Text.isInline_append.mpr
    ⟨Text.isInline_append.mpr ⟨by decide, hregister⟩, ?_⟩, ?_⟩
  · cases name with
    | none =>
      cases type with
      | none => exact Text.isInline_nil
      | some t => exact Text.isInline_append.mpr ⟨hnull, htype t rfl⟩
    | some n =>
      refine Text.isInline_append.mpr ⟨Text.isInline_append.mpr ⟨hcomma, isInline_quoted n⟩, ?_⟩
      cases type with
      | none => exact Text.isInline_nil
      | some t => exact Text.isInline_cons.mpr ⟨by decide, htype t rfl⟩
  · cases signature with
    | none => exact Text.isInline_nil
    | some s => exact Text.isInline_append.mpr ⟨hcomma, isInline_quoted s⟩

/-- Register and type of a local variable are parts of the line. -/
theorem isInline_of_localVariable (hl : l.text.IsInline) {v : LocalArguments}
    (h : l.localVariable = .ok v) :
    v.register.IsInline ∧ ∀ t ∈ v.type, t.descriptor.IsInline := by
  have hpart : ∀ {t : Text}, t ⊆ l.arguments → (Text.trim t).IsInline := fun ht =>
    hl.of_subset (List.Subset.trans (Text.trim_subset _) (List.Subset.trans ht l.arguments_subset))
  have hregister : ∀ {t found : Text}, t ⊆ l.arguments →
      l.register (some (Text.trim t)) = .ok found → found.IsInline := by
    intro t found ht hfound
    exact Option.some.inj (isOperand_of_register hfound).1 ▸ hpart ht
  cases tellsLocal_of_localVariable h with
  | bare hfound _ =>
    exact ⟨hregister (List.Subset.refl _) hfound, fun t ht => absurd ht (Option.not_mem_none t)⟩
  | typed hbefore _ hfound hdeclared _ htype =>
    refine ⟨hregister hbefore hfound, ?_⟩
    rintro _ ⟨⟩
    exact descriptor_of_parseType htype ▸ hpart hdeclared

/-- A line in a method tells a call of one line. -/
theorem isOneLine_of_bodyCall? (hl : l.text.IsInline) (hstarts : l.text.StartsCode)
    {call : Call} (h : l.bodyCall? = some call) : call.IsOneLine := by
  have hcode := isOneLine_codeCall hl hstarts
  unfold bodyCall? at h
  split at h
  · exact Option.some.inj h ▸ hcode
  · exact isOneLine_of_annotationCall? hl h
  · exact isOneLine_of_closingCall? hl hstarts h
  · obtain ⟨n, -, rfl⟩ := exists_of_toOption_map h
    exact isOneLine_of_count rfl (by decide) CallKind.noConfusion
  · obtain ⟨n, -, rfl⟩ := exists_of_toOption_map h
    exact isOneLine_of_count rfl (by decide) CallKind.noConfusion
  · obtain ⟨n, -, rfl⟩ := exists_of_toOption_map h
    exact isOneLine_of_count rfl (by decide) CallKind.noConfusion
  · obtain ⟨⟨found, name⟩, hparam, rfl⟩ := exists_of_toOption_map h
    exact isOneLine_of_param hl hparam
  · exact isOneLine_of_catchingCall? hl h
  · exact isOneLine_of_catchAllCall? hl h
  · obtain ⟨v, hv, rfl⟩ := exists_of_toOption_map h
    obtain ⟨hregister, htype⟩ := isInline_of_localVariable hl hv
    refine isOneLine_of_isInline (fun text htext => ?_) nofun
    obtain rfl := Option.some.inj htext
    exact isInline_localLine hregister v.name htype v.signature
  · obtain ⟨found, hfound, rfl⟩ := exists_of_toOption_map h
    exact isOneLine_of_word hl rfl (by decide) (subset_of_localRegister hfound)
      CallKind.noConfusion
  · cases h
    refine isOneLine_of_isInline (fun text htext => ?_) nofun
    obtain rfl := Option.some.inj htext
    decide
  · cases h
    refine isOneLine_of_isInline (fun text htext => ?_) nofun
    obtain rfl := Option.some.inj htext
    decide
  · exact Option.some.inj h ▸ hcode
  · cases h

end Line

/-! ## Calls of readings -/

/-- A call without a line of its own. -/
theorem isOneLine_of_line?_eq_none {call : Call} (h : call.line? = none) : call.IsOneLine :=
  fun _ htext => absurd (h.symm.trans htext) (Option.some_ne_none _).symm

/-- The call of an element has no line of its own. -/
theorem Line.line?_of_element? {l : Line} {call : Call} (h : l.element? = some (.call call)) :
    call.line? = none := by
  unfold element? at h
  split at h
  · cases h
  · dsimp only at h
    split at h
    · cases h
    · split at h
      · obtain ⟨type, -, heq⟩ := exists_of_toOption_map h
        cases heq
        rfl
      · split at h
        · cases h
        · obtain ⟨v, -, heq⟩ := exists_of_toOption_map h
          cases heq
          rfl

namespace Stance

variable {validate : Bool}

/-- The call of a line of code at a site is on one line. -/
theorem isOneLine_of_callOf? {s : Site} {l : Line} (hinline : l.text.IsInline)
    (hstarts : l.text.StartsCode) {call : Call} (h : s.callOf? l = some call) :
    call.IsOneLine := by
  have hfinish : Call.finish.IsOneLine := isOneLine_of_line?_eq_none rfl
  unfold Site.callOf? at h
  split at h
  · unfold Line.elementCall? at h
    split at h
    · split at h
      · next helement =>
        obtain rfl := Option.some.inj h
        exact isOneLine_of_line?_eq_none (Line.line?_of_element? helement)
      · cases h
    · split at h
      · exact Option.some.inj h ▸ hfinish
      · cases h
  · split at h
    · exact Option.some.inj h ▸ hfinish
    · split at h
      · exact Line.isOneLine_of_annotationCall? hinline h
      · cases h
  · exact Line.isOneLine_of_bodyCall? hinline hstarts h
  · exact Line.isOneLine_of_classCall? hinline h

/-- The calls over a line of code are on one line each. -/
theorem isOneLine_of_take {s s' : Stance} {l : Line} {calls : List Call}
    (hl : l.isComment = false → l.text.IsInline ∧ l.text.StartsCode)
    (h : s.take validate l = some (s', calls)) : ∀ call ∈ calls, call.IsOneLine := by
  cases takes_of_take h with
  | comment => exact List.forall_mem_nil _
  | told hcode hcall =>
    obtain ⟨hinline, hstarts⟩ := hl hcode
    exact List.forall_mem_singleton.mpr (isOneLine_of_callOf? hinline hstarts hcall)
  | opens => exact List.forall_mem_nil _
  | gathers => exact List.forall_mem_nil _
  | closes => exact List.forall_mem_singleton.mpr (isOneLine_of_line?_eq_none rfl)
  | behindField hcode _ _ _ hcall =>
    refine List.forall_mem_cons.mpr ⟨isOneLine_of_line?_eq_none rfl, ?_⟩
    exact List.forall_mem_singleton.mpr (Line.isOneLine_of_classCall? (hl hcode).1 hcall)

/-- The calls over lines of code are on one line each. -/
theorem isOneLine_of_takeAll {s s' : Stance} {lines : List (Option Line)} {calls : List Call}
    (hlines : ∀ l, some l ∈ lines → l.isComment = false → l.text.IsInline ∧ l.text.StartsCode)
    (h : s.takeAll validate lines = some (s', calls)) : ∀ call ∈ calls, call.IsOneLine := by
  induction lines generalizing s calls with
  | nil =>
    cases h
    exact fun call hcall => absurd hcall List.not_mem_nil
  | cons line rest ih =>
    cases line with
    | none => cases h
    | some l =>
      obtain ⟨⟨mid, first⟩, hfirst, h⟩ := Option.bind_eq_some_iff.mp h
      obtain ⟨⟨last, second⟩, hsecond, heq⟩ := Option.map_eq_some_iff.mp h
      cases heq
      refine List.forall_mem_append.mpr ⟨?_, ?_⟩
      · exact isOneLine_of_take (hlines l List.mem_cons_self) hfirst
      · exact ih (fun l hl => hlines l (List.mem_cons_of_mem _ hl)) hsecond

end Stance

/-- The text of a line is part of what was scanned. -/
theorem subset_of_lineOf {t : Text} {l : Line} (hl : lineOf t = some l) : l.text ⊆ t := by
  obtain ⟨s, hs, rfl⟩ := Option.map_eq_some_iff.mp hl
  cases hscan : scan 1 1 t with
  | error fault => rw [hscan] at hs; cases hs
  | ok s' =>
    rw [hscan] at hs
    cases hs
    have hall := all_of_scan hscan
    refine List.Subset.trans (Text.trim_subset s.text) ?_
    rw [← hall]
    exact List.subset_append_left _ _

/-- A line of a source, if it is no comment, is code on one line. -/
theorem isInline_of_codeLines {source t : Text} (ht : t ∈ Text.codeLines source) {l : Line}
    (hl : lineOf t = some l) (hcomment : l.isComment = false) :
    l.text.IsInline ∧ l.text.StartsCode := by
  obtain ⟨hmem, hne⟩ := List.mem_filter.mp ht
  obtain ⟨whole, hwhole, rfl⟩ := List.mem_map.mp hmem
  have hinline := (Text.isInline_of_mem_lines hwhole).of_subset (Text.trim_subset whole)
  refine ⟨hinline.of_subset (subset_of_lineOf hl), ?_⟩
  have htrimmed := (Text.isTrimmed_trim whole).1
  generalize Text.trim whole = t at hl hne htrimmed
  cases t with
  | nil => exact absurd hne (by simp)
  | cons c rest =>
    by_cases hsign : c = '#'
    · subst hsign
      rw [lineOf, scan_comment] at hl
      cases hl
      exact absurd hcomment (by simp [Scanned.line, Line.isComment, Line.comment?])
    · exact (Text.StartsCode.line ⟨c, rest, rfl, htrimmed c rfl, hsign⟩ hl).2

/-- The calls of a source are on one line each. -/
theorem isOneLine_of_strictCalls {o : Options} {source : Text} {calls : List Call}
    (h : strictCalls o source = some calls) : ∀ call ∈ calls, call.IsOneLine := by
  rw [strictCalls_eq] at h
  obtain ⟨⟨s, first⟩, hfirst, h⟩ := Option.bind_eq_some_iff.mp h
  obtain ⟨ends, hends, rfl⟩ := Option.map_eq_some_iff.mp h
  have hlines : ∀ l, some l ∈ (Text.codeLines source).map lineOf → l.isComment = false →
      l.text.IsInline ∧ l.text.StartsCode := by
    intro l hl hcomment
    obtain ⟨t, ht, hline⟩ := List.mem_map.mp hl
    exact isInline_of_codeLines ht hline hcomment
  refine List.forall_mem_append.mpr ⟨Stance.isOneLine_of_takeAll hlines hfirst, ?_⟩
  unfold Stance.finish? at hends
  split at hends
  · cases hends
  · split at hends
    · cases hends
      exact fun call hcall => absurd hcall List.not_mem_nil
    · cases hends
      exact List.forall_mem_singleton.mpr (isOneLine_of_line?_eq_none rfl)
    · cases hends

end Smali
