import Smali.Proofs.AnnotationsAgain
import Smali.Proofs.LineWords
import Smali.Proofs.OneLine

/-!
# Lines of plain calls

The line of a plain call outside annotations is code, and what stands behind its directive is read
as the arguments of the call. There are as many shapes of lines as there are directives, but the
scan is the same for all of them: only what the arguments are made of differs.
-/

namespace Smali

open Text

/-! ## Quoted texts -/

/-- A quoted text is code. -/
theorem isCode_quoted (t : Text) : IsCode (Writer.quoted t) := .of_quoted (.inl rfl) t

/-- There are no blanks around a quoted text. -/
theorem isTrimmed_quoted (t : Text) : IsTrimmed (Writer.quoted t) :=
  isTrimmed_of_ends rfl (List.getLast?_concat (a := '"') (l := '"' :: Literal.escape t)) rfl rfl

/-- A quoted text is read as the text. -/
theorem decode_quoted (t : Text) : Literal.decode (Writer.quoted t) = .ok (.string t) :=
  Value.IsPlain.decode_of_lines (v := .string t) (.string t) (.scalar trivial) rfl

/-- The same where nothing else may stand. -/
theorem Line.quotedOr_quoted (fault : Fault) (t : Text) :
    quotedOr fault (Writer.quoted t) = .ok t := by rw [quotedOr, decode_quoted]

/-! ## Arguments -/

/-- An identifier can stand for a register. -/
theorem Text.IsIdentifier.isOperand {t : Text} (h : t.IsIdentifier) : t.IsOperand :=
  ⟨h.ne_nil, fun _ => h.isWord.isBlank⟩

/-- An identifier can be a label. -/
theorem Text.IsIdentifier.isLabel {name : Text} (h : name.IsIdentifier) : name.IsLabel where
  ne_nil := h.ne_nil
  chars c hc := by
    have hbrace : c ≠ '\x7d' := by
      rintro rfl
      exact h.isBare.not_mem (by decide) hc
    simp [Line.isLabelChar, h.isWord.isBlank hc, hbrace]

/-- A text that can stand for a register is read as one. -/
theorem Line.register_eq (l : Line) {t : Text} (h : t.IsOperand) : l.register (some t) = .ok t := by
  rw [register, isOperand_iff.mp h]
  rfl

/-- A type whose descriptor can stand in front of a mark. -/
structure TypeName.IsDelimited (mark : Char) (type : TypeName) : Prop where
  /-- The descriptor is read as the type. -/
  wellFormed : type.WellFormed
  /-- There are no blanks around the descriptor. -/
  isTrimmed : IsTrimmed type.descriptor
  /-- The mark is not in it. -/
  not_mem : mark ∉ type.descriptor

/-- A plain descriptor holds no characters but those of references. -/
theorem TypeName.IsPlain.isDelimited {type : TypeName} (h : type.IsPlain) {mark : Char}
    (hmark : isReferenceChar mark = false) : type.IsDelimited mark :=
  ⟨h.wellFormed, h.isWord.isTrimmed, h.isBare.not_mem hmark⟩

/-- A descriptor is read as the type. -/
theorem Line.parseType_descriptor (l : Line) {type : TypeName} (h : type.WellFormed) :
    l.parseType type.descriptor = .ok type := by
  rw [parseType, TypeName.parse_descriptor h]
  rfl

/-- A descriptor that is all of the arguments is read as the type. -/
theorem Line.singleType_of_isPlain (l : Line) {type : TypeName} (h : type.IsPlain)
    (harguments : l.arguments = type.descriptor) : l.singleType = .ok type := by
  have hblank : hasBlank type.descriptor = false := List.any_eq_false.mpr fun c hc => by
    simp [isBlank_of_isReferenceChar (h.isBare.chars c hc)]
  have hempty : type.descriptor.isEmpty = false := by simpa using h.isBare.ne_nil
  rw [singleType, harguments, hempty, hblank]
  exact l.parseType_descriptor h.wellFormed

/-- A line is cut at the first mark. -/
theorem cutArguments_of_not_mem {mark : Char} {before : Text} (h : mark ∉ before) (after : Text) :
    Line.cutArguments mark (before ++ mark :: after) = (trim before, some (trim after)) := by
  rw [Line.cutArguments, cut?_of_not_mem h]

/-- A line without the mark stays whole. -/
theorem cutArguments_eq_none {mark : Char} {t : Text} (h : mark ∉ t) :
    Line.cutArguments mark t = (t, none) := by
  rw [Line.cutArguments, cut?_eq_none h]

namespace Call

/-- A call is legible if it is read from the arguments of its line. -/
theorem isLegible_of_arguments {call : Call} (word : Text) (d : Directive) (arguments : Text)
    (hline : call.line? = some (word ++ ' ' :: arguments)) (hword : IsKeyword word)
    (hd : Directive.ofKeyword word = d) (hscans : arguments.Scans) (htrim : IsTrimmed arguments)
    (hreads : ∀ l : Line, l.directive? = some d → l.arguments = arguments → l.reads call) :
    call.IsLegible := by
  obtain ⟨l, hl, hdirective, harguments, -⟩ :=
    exists_line_of_isKeyword hword hscans.space (by rintro _ ⟨⟩; rfl)
  refine ⟨_, l, hline, hl, hreads l (hd ▸ hdirective) ?_⟩
  rw [harguments]
  exact (trim_append_left (w := [' ']) (by decide) _).trans htrim.trim_eq

/-! ## Headers -/

/-- The header of a class is legible. -/
theorem isLegible_header {type : TypeName} (h : type.IsPlain) (access : Access) :
    (Call.header type access).IsLegible := by
  have hwords := isWord_declarationWords access h.isWord
  have hline := directiveLine_eq ".class" access type.descriptor []
  rw [List.append_nil, List.append_nil] at hline
  refine isLegible_of_arguments ".class" .ofClass _ (congrArg some hline) (.of_all rfl rfl) rfl
    (isCode_words hwords).scans (isTrimmed_words hwords) fun l hd harguments => ?_
  change l.classCall? = _
  rw [Line.classCall?, hd]
  dsimp only
  rw [Line.classHeader, harguments, l.splitAccess_declarationWords access h.isWord]
  dsimp only [bind, Except.bind]
  rw [l.parseType_descriptor h.wellFormed]
  rfl

/-- The superclass of a class is legible. -/
theorem isLegible_superType {type : TypeName} (h : type.IsPlain) :
    (Call.superType type).IsLegible := by
  refine isLegible_of_arguments ".super" .superType type.descriptor rfl (.of_all rfl rfl) rfl
    (IsCode.of_isWord h.isWord).scans h.isWord.isTrimmed fun l hd harguments => ?_
  change l.classCall? = _
  rw [Line.classCall?, hd]
  dsimp only
  rw [l.singleType_of_isPlain h harguments]
  rfl

/-- An interface of a class is legible. -/
theorem isLegible_implements {type : TypeName} (h : type.IsPlain) :
    (Call.implements type).IsLegible := by
  refine isLegible_of_arguments ".implements" .implements type.descriptor rfl (.of_all rfl rfl) rfl
    (IsCode.of_isWord h.isWord).scans h.isWord.isTrimmed fun l hd harguments => ?_
  change l.classCall? = _
  rw [Line.classCall?, hd]
  dsimp only
  rw [l.singleType_of_isPlain h harguments]
  rfl

/-- The name of a source file is legible. -/
theorem isLegible_source (name : Text) : (Call.source name).IsLegible := by
  refine isLegible_of_arguments ".source" .source (Writer.quoted name) rfl (.of_all rfl rfl) rfl
    (isCode_quoted name).scans (isTrimmed_quoted name) fun l hd harguments => ?_
  change l.classCall? = _
  rw [Line.classCall?, hd]
  dsimp only
  rw [Line.sourceName, harguments, decode_quoted]
  rfl

/-! ## Members -/

/-- The declaration of a field is a word. -/
theorem isBare_fieldDeclaration {name : Text} (hname : name.IsIdentifier) {type : TypeName}
    (htype : type.IsPlain) : IsBare (name ++ ':' :: type.descriptor) :=
  hname.isBare.append (List.forall_mem_cons.mpr ⟨rfl, htype.isBare.chars⟩)

/-- A field is read from its declaration. -/
theorem parseFieldDeclaration_eq {name : Text} (hname : name.IsIdentifier) {type : TypeName}
    (htype : type.IsPlain) (hvoid : type.isVoid = false) :
    parseFieldDeclaration (name ++ ':' :: type.descriptor) = .ok (name, type) :=
  parseFieldDeclaration_eq_ok_iff.mpr
    ⟨hname.ne_nil, rfl, htype.wellFormed, hvoid, htype.not_mem (by decide)⟩

/-- A method is read from its declaration. -/
theorem parseMethodDeclaration_eq {name : Text} (hname : name.IsMethodName) {signature : Signature}
    (hsignature : signature.IsPlain) :
    parseMethodDeclaration (name ++ signature.descriptor) = .ok (name, signature) := by
  refine parseMethodDeclaration_eq_ok_iff.mpr ⟨?_, hname.not_mem, rfl, hsignature.wellFormed⟩
  obtain h | rfl | rfl := hname
  · exact h.ne_nil
  · exact List.cons_ne_nil _ _
  · exact List.cons_ne_nil _ _

/-- The declaration of a method is a word. -/
theorem isWord_methodDeclaration {name : Text} (hname : name.IsMethodName) {signature : Signature}
    (hsignature : signature.IsPlain) : IsWord (name ++ signature.descriptor) := by
  have hhead : ∀ c ∈ (name ++ signature.descriptor).head?,
      c ≠ '-' ∧ c ≠ '+' ∧ isDigit c = false := by
    obtain h | rfl | rfl := hname
    · exact h.head?_append _
    · rintro c hc
      obtain rfl : '<' = c := Option.some.inj hc
      decide
    · rintro c hc
      obtain rfl : '<' = c := Option.some.inj hc
      decide
  refine IsBare.isWord ⟨List.append_ne_nil_of_right_ne_nil _ (List.cons_ne_nil _ _), ?_⟩ hhead
  exact List.forall_mem_append.mpr
    ⟨fun _ hc => hname.isReferenceChar hc, fun _ hc => hsignature.isReferenceChar hc⟩

/-- A field is legible unless its value takes several lines. -/
theorem isLegible_field {name : Text} (hname : name.IsIdentifier) (access : Access)
    {type : TypeName} (htype : type.IsPlain) (hvoid : type.isVoid = false) {initial : Option Value}
    (hinitial : ∀ v ∈ initial, v.IsPlain ∧ v.IsInline) :
    (Call.field name access type initial).IsLegible := by
  have hword : IsWord (name ++ ':' :: type.descriptor) :=
    (isBare_fieldDeclaration hname htype).isWord (hname.head?_append _)
  have hwords := isWord_declarationWords access hword
  have hsplit := fun l : Line => l.splitAccess_declarationWords access hword
  have hparse := parseFieldDeclaration_eq hname htype hvoid
  have htext : Writer.fieldLine name access type initial =
      Writer.directiveLine ".field" access (name ++ ':' :: type.descriptor ++
        (initial.map fun v => " = ".toList ++ v.encode).getD []) := by
    cases initial <;> simp [Writer.fieldLine]
  have hline := htext.trans (directiveLine_eq ".field" access _ _)
  have hequals := not_mem_words hwords (c := '=') rfl (by decide)
  have hcode := isCode_words hwords
  have htrim := isTrimmed_words hwords
  have hne := words_ne_nil hwords (List.append_ne_nil_of_right_ne_nil _ (List.cons_ne_nil _ _))
  generalize [' '].intercalate (declarationWords access (name ++ ':' :: type.descriptor)) =
    declaration at hsplit hline hequals hcode htrim hne
  cases initial with
  | none =>
    rw [Option.map_none, Option.getD_none, List.append_nil] at hline
    refine isLegible_of_arguments ".field" .field declaration (congrArg some hline)
      (.of_all rfl rfl) rfl hcode.scans htrim fun l hd harguments => ?_
    change l.classCall? = _
    rw [Line.classCall?, hd]
    dsimp only
    rw [Line.field, harguments, cutArguments_eq_none hequals]
    dsimp only
    rw [hsplit]
    dsimp only [bind, Except.bind]
    rw [hparse]
    rfl
  | some v =>
    obtain ⟨hv, hinline⟩ := hinitial v rfl
    have hencode := hv.isTidy
    have hvalue : IsCode v.encode :=
      (hv.isElementLine _ (hencode.lines_of_isInline hinline ▸ List.mem_cons_self)).code
    have hdecode := hv.decode_of_lines (hv.isReadable_of_isInline hinline) rfl
    have hequal : IsCode (" = ".toList ++ v.encode) := .blank rfl (.mark rfl hvalue.space)
    rw [Option.map_some, Option.getD_some] at hline
    refine isLegible_of_arguments ".field" .field (declaration ++ (" = ".toList ++ v.encode))
      (congrArg some hline) (.of_all rfl rfl) rfl (hcode.append hequal (by rintro _ ⟨⟩; rfl)).scans
      (htrim.append hne hencode.2 hencode.1 _) fun l hd harguments => ?_
    have hnot : '=' ∉ declaration ++ [' '] := by simpa using hequals
    have hsides : declaration ++ (" = ".toList ++ v.encode) =
        (declaration ++ [' ']) ++ '=' :: (' ' :: v.encode) := by simp
    have hbefore : trim (declaration ++ [' ']) = declaration :=
      (trim_append_right (by decide) declaration).trans htrim.trim_eq
    have hafter : trim (' ' :: v.encode) = v.encode :=
      (trim_append_left (w := [' ']) (by decide) v.encode).trans hencode.2.trim_eq
    change l.classCall? = _
    rw [Line.classCall?, hd]
    dsimp only
    rw [Line.field, harguments, hsides, cutArguments_of_not_mem hnot, hbefore, hafter]
    dsimp only
    rw [hsplit]
    dsimp only [bind, Except.bind]
    rw [hparse, Line.decodeAt, hdecode]
    rfl

/-- A method is legible. -/
theorem isLegible_method {name : Text} (hname : name.IsMethodName) (access : Access)
    {signature : Signature} (h : signature.IsPlain) :
    (Call.method name access signature).IsLegible := by
  have hword := isWord_methodDeclaration hname h
  have hwords := isWord_declarationWords access hword
  have hline := directiveLine_eq ".method" access (name ++ signature.descriptor) []
  rw [List.append_nil, List.append_nil] at hline
  refine isLegible_of_arguments ".method" .method _ (congrArg some hline) (.of_all rfl rfl) rfl
    (isCode_words hwords).scans (isTrimmed_words hwords) fun l hd harguments => ?_
  change l.classCall? = _
  rw [Line.classCall?, hd]
  dsimp only
  rw [Line.method, harguments, l.splitAccess_declarationWords access hword]
  dsimp only [bind, Except.bind]
  rw [parseMethodDeclaration_eq hname h]
  rfl

/-- The opening line of an annotation is legible. -/
theorem isLegible_annotationStart {type : TypeName} (h : type.IsPlain) (visibility : Visibility) :
    (Call.annotationStart visibility type).IsLegible := by
  have hkeyword : IsWord visibility.keyword := by
    have hname : visibility.keyword.IsIdentifier := by cases visibility <;> decide
    exact hname.isWord
  have hread : Visibility.ofKeyword visibility.keyword = .ok visibility := by
    cases visibility <;> rfl
  have hwords : ∀ w ∈ [visibility.keyword, type.descriptor], IsWord w :=
    List.forall_mem_cons.mpr ⟨hkeyword, List.forall_mem_singleton.mpr h.isWord⟩
  have hline : Writer.annotationLine visibility type = ".annotation".toList ++
      ' ' :: [' '].intercalate [visibility.keyword, type.descriptor] := by
    rw [List.intercalate_cons_cons, List.intercalate_singleton, List.append_assoc]
    rfl
  refine isLegible_of_arguments ".annotation" .annotationStart _ (congrArg some hline)
    (.of_all rfl rfl) rfl (isCode_words hwords).scans (isTrimmed_words hwords)
    fun l hd harguments => ?_
  change l.classCall? = _
  rw [Line.classCall?, hd]
  dsimp only
  rw [Line.annotationCall?, Line.annotationHeader, harguments, words_intercalate hwords]
  dsimp only
  rw [hread]
  rw [l.parseType_descriptor h.wellFormed]
  rfl

/-! ## Code -/

/-- A count is legible. -/
theorem isLegible_count {call : Call} (word : Text) (d : Directive) (n : Nat)
    (hline : call.line? = some (word ++ ' ' :: decimal n)) (hword : IsKeyword word)
    (hd : Directive.ofKeyword word = d)
    (hreads : ∀ l : Line, l.directive? = some d → l.count = .ok n → l.reads call)
    (hn : n < 0x100000000) : call.IsLegible := by
  refine isLegible_of_arguments word d (decimal n) hline hword hd
    (IsCode.of_isWord (isWord_decimal n)).scans (isWord_decimal n).isTrimmed
    fun l hd harguments => hreads l hd ?_
  rw [Line.count, harguments, countBelow?_decimal hn]

/-- The number of registers, that of local registers and the number of a line are legible. -/
theorem isLegible_counts {n : Nat} (hn : n < 0x100000000) :
    (Call.registers n).IsLegible ∧ (Call.locals n).IsLegible ∧ (Call.line n).IsLegible := by
  refine ⟨?_, ?_, ?_⟩
  · refine isLegible_count ".registers" .registers n rfl (.of_all rfl rfl) rfl
      (fun l hd hcount => ?_) hn
    change l.bodyCall? = _
    rw [Line.bodyCall?, hd]
    dsimp only
    rw [hcount]
    rfl
  · refine isLegible_count ".locals" .locals n rfl (.of_all rfl rfl) rfl (fun l hd hcount => ?_) hn
    change l.bodyCall? = _
    rw [Line.bodyCall?, hd]
    dsimp only
    rw [hcount]
    rfl
  · refine isLegible_count ".line" .line n rfl (.of_all rfl rfl) rfl (fun l hd hcount => ?_) hn
    change l.bodyCall? = _
    rw [Line.bodyCall?, hd]
    dsimp only
    rw [hcount]
    rfl

/-- A parameter without a name is read. -/
theorem param_eq_none {register : Text} (h : register.IsOperand) (hcomma : ',' ∉ register)
    {l : Line} (harguments : l.arguments = register) : l.param = .ok (register, none) := by
  rw [Line.param, harguments, cutArguments_eq_none hcomma]
  dsimp only
  rw [isOperand_iff.mp h]
  rfl

/-- A parameter with a name is read. -/
theorem param_eq_some {register : Text} (h : register.IsOperand) (hcomma : ',' ∉ register)
    (name : Text) {l : Line}
    (harguments : l.arguments = register ++ ',' :: ' ' :: Writer.quoted name) :
    l.param = .ok (register, some name) := by
  have hafter : trim (' ' :: Writer.quoted name) = Writer.quoted name :=
    (trim_append_left (w := [' ']) (by decide) _).trans (isTrimmed_quoted name).trim_eq
  rw [Line.param, harguments, cutArguments_of_not_mem hcomma, h.isTrimmed.trim_eq, hafter]
  dsimp only
  rw [isOperand_iff.mp h, Line.quotedOr_quoted]
  rfl

/-- The line of a parameter with a name. -/
theorem line?_param (register name : Text) : (Call.param register (some name)).line? =
    some (".param".toList ++ ' ' :: (register ++ ',' :: ' ' :: Writer.quoted name)) := by
  simp [Call.line?, Writer.headerLine?, Writer.memberLine?, Writer.methodLine?]

/-- A parameter without a name is legible if its register is scanned. -/
theorem isLegible_param_none_of_scans {register : Text} (h : register.IsOperand)
    (hcomma : ',' ∉ register) (hscans : register.Scans) : (Call.param register none).IsLegible := by
  refine isLegible_of_arguments ".param" .param register rfl (.of_all rfl rfl) rfl hscans
    h.isTrimmed fun l hd harguments => ?_
  change l.bodyCall? = _
  rw [Line.bodyCall?, hd]
  dsimp only
  rw [param_eq_none h hcomma harguments]
  rfl

/-- A parameter with a name is legible if its arguments are scanned. -/
theorem isLegible_param_some_of_scans {register : Text} (h : register.IsOperand)
    (hcomma : ',' ∉ register) {name : Text}
    (hscans : Text.Scans (register ++ ',' :: ' ' :: Writer.quoted name)) :
    (Call.param register (some name)).IsLegible := by
  refine isLegible_of_arguments ".param" .param _ (line?_param register name) (.of_all rfl rfl) rfl
    hscans (h.isTrimmed.append h.ne_nil (isTrimmed_quoted name) (List.cons_ne_nil _ _) [',', ' '])
    fun l hd harguments => ?_
  change l.bodyCall? = _
  rw [Line.bodyCall?, hd]
  dsimp only
  rw [param_eq_some h hcomma name harguments]
  rfl

/-- A parameter is legible. -/
theorem isLegible_param {register : Text} (h : register.IsIdentifier) (name : Option Text) :
    (Call.param register name).IsLegible := by
  have hcomma : ',' ∉ register := h.isBare.not_mem (by decide)
  cases name with
  | none => exact isLegible_param_none_of_scans h.isOperand hcomma (IsCode.of_isWord h.isWord).scans
  | some name =>
    have hcode : IsCode (register ++ ',' :: ' ' :: Writer.quoted name) :=
      .word h.isWord (by rintro _ ⟨⟩; rfl) (.mark rfl (isCode_quoted name).space)
    exact isLegible_param_some_of_scans h.isOperand hcomma hcode.scans

/-- The end of a parameter is legible. -/
theorem isLegible_paramEnd : Call.paramEnd.IsLegible := by
  have hname : IsIdentifier "param" := by decide
  obtain ⟨l, hl, hd, hend, -⟩ := exists_line_of_end hname.isWord IsCode.nil.scans
    fun c hc => absurd hc (Option.not_mem_none c)
  refine ⟨_, l, rfl, hl, ?_⟩
  have hparam : l.closes "param" = true := decide_eq_true hend
  change l.bodyCall? = _
  rw [Line.bodyCall?, hd]
  dsimp only
  rw [Line.closingCall?, Line.closes_unique hparam (by decide), hparam]
  rfl

/-- A label with its colon is a word. -/
theorem isWord_label {name : Text} (h : name.IsIdentifier) : IsWord (':' :: name) :=
  .of_first rfl (List.forall_mem_cons.mpr ⟨rfl, h.isWord.word⟩) (by decide) (by decide) rfl

/-- A label is legible. -/
theorem isLegible_label {name : Text} (h : name.IsIdentifier) : (Call.label name).IsLegible := by
  have hword := isWord_label h
  obtain ⟨l, hl, htext, -, hd⟩ :=
    (IsCode.of_isWord hword).exists_line hword.isTrimmed (List.cons_ne_nil _ _)
  refine ⟨_, l, rfl, hl, ?_⟩
  change l.bodyCall? = _
  rw [Line.bodyCall?, hd (by simp)]
  dsimp only
  rw [Line.codeCall, htext]
  rfl

/-! ## Handlers -/

/-- A label up to a character that is none of a label. -/
theorem takeLabel?_cons {name : Text} (h : name.IsLabel) {rest : Text}
    (hrest : ∀ c ∈ rest.head?, Line.isLabelChar c = false) :
    Line.takeLabel? (':' :: (name ++ rest)) = some (name, rest) := by
  have hfirst : rest.takeWhile Line.isLabelChar = [] ∧ rest.dropWhile Line.isLabelChar = rest := by
    cases rest with
    | nil => exact ⟨rfl, rfl⟩
    | cons c rest => simp [hrest c rfl]
  have hspan : (name ++ rest).takeWhile Line.isLabelChar = name ∧
      (name ++ rest).dropWhile Line.isLabelChar = rest := by
    rw [List.takeWhile_append_of_pos h.chars, List.dropWhile_append_of_pos h.chars, hfirst.1,
      hfirst.2, List.append_nil]
    exact ⟨rfl, rfl⟩
  rw [Line.takeLabel?, hspan.1, hspan.2, if_neg (by simpa using h.ne_nil)]

/-- The characters of the labels of a handler. -/
theorem handlerLabels_eq (first last handler : Text) :
    Writer.handlerLabels first last handler = '\x7b' :: ':' :: (first ++
      ' ' :: '.' :: '.' :: ' ' :: ':' :: (last ++ '\x7d' :: ' ' :: ':' :: handler)) := by
  simp [Writer.handlerLabels]

section Labels

variable {first last handler : Text} (hfirst : first.IsLabel) (hlast : last.IsLabel)
  (hhandler : handler.IsLabel)

include hfirst hlast hhandler

/-- The labels of a handler are read. -/
theorem labels?_handlerLabels :
    Line.labels? (Writer.handlerLabels first last handler) = some (first, last, handler) := by
  have hends : ∀ {c : Char} (rest : Text), Line.isLabelChar c = false →
      ∀ d ∈ (c :: rest).head?, Line.isLabelChar d = false := by
    rintro c rest hc _ ⟨⟩
    exact hc
  have hone := takeLabel?_cons hfirst (hends (c := ' ')
    ('.' :: '.' :: ' ' :: ':' :: (last ++ '\x7d' :: ' ' :: ':' :: handler)) rfl)
  have htwo := takeLabel?_cons hlast (hends (c := '\x7d') (' ' :: ':' :: handler) rfl)
  have hthree : Line.takeLabel? (':' :: (handler ++ [])) = some (handler, []) :=
    takeLabel?_cons hhandler fun c hc => absurd hc (Option.not_mem_none c)
  rw [List.append_nil] at hthree
  rw [handlerLabels_eq]
  simp [Line.labels?, Text.after?, Line.takeSpaces?, Line.isSpace, hone, htwo, hthree]

omit hfirst hlast in
/-- There are no blanks around the labels of a handler. -/
theorem isTrimmed_handlerLabels : IsTrimmed (Writer.handlerLabels first last handler) :=
  IsTrimmed.append (t := ['\x7b']) (isTrimmed_of_ends rfl rfl rfl rfl) (List.cons_ne_nil _ _)
    hhandler.isOperand.isTrimmed hhandler.ne_nil
    (":".toList ++ first ++ " .. :" ++ last ++ "\x7d :")

/-- A handler is read from its labels and what stands before them. -/
theorem handler_eq (l : Line) {before : Text} (hbefore : '\x7b' ∉ before)
    (harguments : l.arguments = before ++ Writer.handlerLabels first last handler) :
    l.handler = .ok ⟨trim before, first, last, handler⟩ := by
  obtain ⟨labels, htext⟩ : ∃ labels, Writer.handlerLabels first last handler = '\x7b' :: labels :=
    ⟨_, rfl⟩
  have hlabels := labels?_handlerLabels hfirst hlast hhandler
  rw [htext] at hlabels harguments
  rw [Line.handler, harguments, cut?_of_not_mem hbefore]
  dsimp only
  rw [hlabels]

/-- A handler for exceptions of one type is read. -/
theorem catchingCall?_eq {exception : TypeName} (hexception : exception.IsDelimited '\x7b')
    {l : Line} (harguments : l.arguments =
      exception.descriptor ++ ' ' :: Writer.handlerLabels first last handler) :
    l.catchingCall? = some (.catching exception first last handler) := by
  have hbrace : '\x7b' ∉ exception.descriptor ++ [' '] := by simpa using hexception.not_mem
  have htrimmed : trim (exception.descriptor ++ [' ']) = exception.descriptor :=
    (trim_append_right (by decide) _).trans hexception.isTrimmed.trim_eq
  have hhandler := handler_eq hfirst hlast hhandler l hbrace (by simpa using harguments)
  rw [Line.catchingCall?, hhandler, htrimmed]
  dsimp only [Except.toOption, Option.bind]
  rw [l.parseType_descriptor hexception.wellFormed]
  rfl

/-- A handler for all exceptions is read. -/
theorem catchAllCall?_eq {l : Line}
    (harguments : l.arguments = Writer.handlerLabels first last handler) :
    l.catchAllCall? = some (.catchAll first last handler) := by
  have hhandler := handler_eq hfirst hlast hhandler l List.not_mem_nil
    ((List.nil_append _).symm ▸ harguments)
  rw [Line.catchAllCall?, hhandler]
  rfl

/-- A handler for exceptions of one type is legible if its arguments are scanned. -/
theorem isLegible_catching_of_scans {exception : TypeName}
    (hexception : exception.IsDelimited '\x7b')
    (hscans : Text.Scans (exception.descriptor ++ ' ' :: Writer.handlerLabels first last handler)) :
    (Call.catching exception first last handler).IsLegible := by
  have htrim : IsTrimmed (exception.descriptor ++ ' ' :: Writer.handlerLabels first last handler) :=
    hexception.isTrimmed.append (TypeName.descriptor_ne_nil hexception.wellFormed)
      (isTrimmed_handlerLabels hhandler) (List.cons_ne_nil _ _) [' ']
  refine isLegible_of_arguments ".catch" .catching _ rfl (.of_all rfl rfl) rfl hscans htrim
    fun l hd harguments => ?_
  change l.bodyCall? = _
  rw [Line.bodyCall?, hd]
  exact catchingCall?_eq hfirst hlast hhandler hexception harguments

/-- A handler for all exceptions is legible if its labels are scanned. -/
theorem isLegible_catchAll_of_scans
    (hscans : Text.Scans (Writer.handlerLabels first last handler)) :
    (Call.catchAll first last handler).IsLegible := by
  refine isLegible_of_arguments ".catchall" .catchAll _ rfl (.of_all rfl rfl) rfl hscans
    (isTrimmed_handlerLabels hhandler) fun l hd harguments => ?_
  change l.bodyCall? = _
  rw [Line.bodyCall?, hd]
  exact catchAllCall?_eq hfirst hlast hhandler harguments

end Labels

section Handlers

variable {first last handler : Text} (hfirst : first.IsIdentifier) (hlast : last.IsIdentifier)
  (hhandler : handler.IsIdentifier)

include hfirst hlast hhandler

/-- The labels of a handler are code. -/
theorem isCode_handlerLabels : IsCode (Writer.handlerLabels first last handler) := by
  have hdots : IsWord ['.', '.'] := by
    refine .of_first rfl (fun c hc => ?_) (by decide) (by decide) rfl
    rw [List.eq_of_mem_replicate (n := 2) hc]
    rfl
  have hlast' : IsCode (':' :: (last ++ '\x7d' :: ' ' :: ':' :: handler)) :=
    .word (isWord_label hlast) (by rintro _ ⟨⟩; rfl)
      (.mark rfl (IsCode.of_isWord (isWord_label hhandler)).space)
  have hrange : IsCode ('.' :: '.' :: ' ' :: ':' :: (last ++ '\x7d' :: ' ' :: ':' :: handler)) :=
    .word hdots (by rintro _ ⟨⟩; rfl) hlast'.space
  rw [handlerLabels_eq]
  exact .mark rfl (.word (isWord_label hfirst) (by rintro _ ⟨⟩; rfl) hrange.space)

/-- A handler for exceptions of one type is legible. -/
theorem isLegible_catching {exception : TypeName} (hexception : exception.IsPlain) :
    (Call.catching exception first last handler).IsLegible := by
  have hcode : IsCode (exception.descriptor ++ ' ' :: Writer.handlerLabels first last handler) :=
    .word hexception.isWord (by rintro _ ⟨⟩; rfl) (isCode_handlerLabels hfirst hlast hhandler).space
  exact isLegible_catching_of_scans hfirst.isLabel hlast.isLabel hhandler.isLabel
    (hexception.isDelimited (by decide)) hcode.scans

/-- A handler for all exceptions is legible. -/
theorem isLegible_catchAll : (Call.catchAll first last handler).IsLegible :=
  isLegible_catchAll_of_scans hfirst.isLabel hlast.isLabel hhandler.isLabel
    (isCode_handlerLabels hfirst hlast hhandler).scans

end Handlers

/-! ## Local variables -/

/-- The name of a local variable as it is written before its type. -/
def writtenName : Option Text → Text
  | none => "null"
  | some name => Writer.quoted name

/-- The signature of a local variable as it is written behind its type. -/
def writtenSignature : Option Text → Text
  | none => []
  | some signature => ',' :: ' ' :: Writer.quoted signature

/-- What is written of a local variable behind its register. -/
def declaredLocal (name : Option Text) (type : TypeName) (signature : Option Text) : Text :=
  writtenName name ++ ':' :: (type.descriptor ++ writtenSignature signature)

/-- The line of a local variable of which nothing but the register is known. -/
theorem localLine_of_register (register : Text) :
    Writer.localLine register none none none = ".local".toList ++ ' ' :: register := by
  unfold Writer.localLine
  simp only [List.append_nil]
  rfl

/-- The line of a local variable with a type. -/
theorem localLine_eq (register : Text) (name : Option Text) (type : TypeName)
    (signature : Option Text) : Writer.localLine register name (some type) signature =
      ".local".toList ++ ' ' :: (register ++ ',' :: ' ' :: declaredLocal name type signature) := by
  unfold Writer.localLine declaredLocal writtenName writtenSignature
  cases name <;> cases signature <;> simp only [List.append_assoc] <;> rfl

/-- A quoted name of a local variable is read, and what follows it is left. -/
theorem localName_quoted (l : Line) (malformed : Fault) (name rest : Text) :
    l.localName malformed (Writer.quoted name ++ rest) = .ok (some name, rest) := by
  have hnull : Text.after? "null" (Writer.quoted name ++ rest) = none := rfl
  have htake : Literal.takeQuoted? '"' (Writer.quoted name ++ rest) =
      some (Literal.escape name, rest) := by
    have hquoted := Literal.takeQuoted?_escape (.inl rfl) name rest
    simpa [Writer.quoted] using hquoted
  rw [Line.localName, hnull]
  dsimp only
  rw [htake]
  dsimp only
  rw [Literal.unescape_escape]

/-- The name of a local variable is read, and what follows it is left. -/
theorem localName_writtenName (l : Line) (malformed : Fault) (name : Option Text) (rest : Text) :
    l.localName malformed (writtenName name ++ ':' :: rest) = .ok (name, ':' :: rest) := by
  cases name with
  | none => rfl
  | some name => exact localName_quoted l malformed name (':' :: rest)

/-- What is written of a signature is code. -/
theorem isCode_writtenSignature (signature : Option Text) :
    IsCode (writtenSignature signature) := by
  cases signature with
  | none => exact .nil
  | some signature => exact .mark rfl (isCode_quoted signature).space

/-- What is written of a signature ends words. -/
theorem endsWord_writtenSignature (signature : Option Text) :
    ∀ c ∈ (writtenSignature signature).head?, endsWord c = true := by
  cases signature with
  | none => exact fun c hc => absurd hc (Option.not_mem_none c)
  | some signature =>
    rintro _ ⟨⟩
    rfl

/-- There are no blanks around a text with a signature behind it. -/
theorem isTrimmed_writtenSignature {t : Text} (ht : IsTrimmed t) (hne : t ≠ [])
    (signature : Option Text) : IsTrimmed (t ++ writtenSignature signature) := by
  cases signature with
  | none => exact (List.append_nil t).symm ▸ ht
  | some signature =>
    exact ht.append hne (isTrimmed_quoted signature) (List.cons_ne_nil _ _) [',', ' ']

/-- What is written of a local variable is code. -/
theorem isCode_declaredLocal (name : Option Text) {type : TypeName} (htype : type.IsPlain)
    (signature : Option Text) : IsCode (declaredLocal name type signature) := by
  have hsignature := isCode_writtenSignature signature
  have hends := endsWord_writtenSignature signature
  have hchars : ∀ c ∈ ':' :: type.descriptor, isReferenceChar c = true :=
    List.forall_mem_cons.mpr ⟨rfl, htype.isBare.chars⟩
  cases name with
  | none =>
    have hname : IsIdentifier "null" := by decide
    have hword := (hname.isBare.append hchars).isWord (hname.head?_append _)
    have htext : declaredLocal none type signature =
        ("null".toList ++ ':' :: type.descriptor) ++ writtenSignature signature := by
      simp [declaredLocal, writtenName]
    rw [htext]
    exact .word hword hends hsignature
  | some name =>
    have hword : IsWord (':' :: type.descriptor) :=
      IsBare.isWord ⟨List.cons_ne_nil _ _, hchars⟩ (by rintro _ ⟨⟩; decide)
    have htext : declaredLocal (some name) type signature = '"' :: Literal.escape name ++
        '"' :: ((':' :: type.descriptor) ++ writtenSignature signature) := by
      simp [declaredLocal, writtenName, Writer.quoted]
    rw [htext]
    exact .quoted (.inl rfl) (Literal.isBody_escape name) (.word hword hends hsignature)

/-- There are no blanks around what is written of a local variable. -/
theorem isTrimmed_declaredLocal (name : Option Text) {type : TypeName}
    (htype : type.IsDelimited ',') (signature : Option Text) :
    IsTrimmed (declaredLocal name type signature) := by
  have hne := TypeName.descriptor_ne_nil htype.wellFormed
  have hdeclared := isTrimmed_writtenSignature htype.isTrimmed hne signature
  have hname : IsTrimmed (writtenName name) ∧ writtenName name ≠ [] := by
    cases name with
    | none => exact ⟨isTrimmed_of_ends rfl rfl rfl rfl, List.cons_ne_nil _ _⟩
    | some name => exact ⟨isTrimmed_quoted name, List.cons_ne_nil _ _⟩
  exact hname.1.append hname.2 hdeclared (List.append_ne_nil_of_left_ne_nil hne _) [':']

section Operands

variable {register : Text} (h : register.IsOperand)

include h

/-- The register behind the keyword `local` is read. -/
theorem localRegister_eq (l : Line) (harguments : l.arguments = "local".toList ++ ' ' :: register) :
    l.localRegister = .ok register := by
  have hafter : Text.after? "local" ("local".toList ++ ' ' :: register) = some (' ' :: register) :=
    rfl
  have htrim : trim (' ' :: register) = register :=
    (trim_append_left (w := [' ']) (by decide) register).trans h.isTrimmed.trim_eq
  rw [Line.localRegister, harguments, hafter, Option.map_some, htrim, l.register_eq h]

/-- There are no blanks around the keyword and the register. -/
theorem isTrimmed_localRegister : IsTrimmed ("local".toList ++ ' ' :: register) :=
  IsTrimmed.append (t := "local".toList) (isTrimmed_of_ends rfl rfl rfl rfl) (List.cons_ne_nil _ _)
    h.isTrimmed h.ne_nil [' ']

/-- A local variable of which nothing but the register is known is read. -/
theorem localVariable_eq_none (hcomma : ',' ∉ register) {l : Line}
    (harguments : l.arguments = register) : l.localVariable = .ok ⟨register, none, none, none⟩ := by
  rw [Line.localVariable, harguments, cutArguments_eq_none hcomma]
  dsimp only
  rw [h.isTrimmed.trim_eq, l.register_eq h]
  rfl

/-- A local variable with a type is read. -/
theorem localVariable_eq (hcomma : ',' ∉ register) (name : Option Text) {type : TypeName}
    (htype : type.IsDelimited ',') (signature : Option Text) {l : Line}
    (harguments : l.arguments = register ++ ',' :: ' ' :: declaredLocal name type signature) :
    l.localVariable = .ok ⟨register, name, some type, signature⟩ := by
  have htrim : trim (' ' :: declaredLocal name type signature) =
      declaredLocal name type signature :=
    (trim_append_left (w := [' ']) (by decide) _).trans
      (isTrimmed_declaredLocal name htype signature).trim_eq
  have hfirst : ∀ t : Text, trimLeft (':' :: t) = ':' :: t := fun t =>
    List.dropWhile_cons_of_neg (by decide)
  rw [Line.localVariable, harguments, cutArguments_of_not_mem hcomma, htrim]
  dsimp only
  rw [h.isTrimmed.trim_eq, h.isTrimmed.trim_eq, l.register_eq h]
  dsimp only [bind, Except.bind]
  rw [declaredLocal, localName_writtenName]
  dsimp only
  rw [hfirst]
  split
  · rename_i declared heq
    obtain ⟨-, rfl⟩ := List.cons.inj heq
    cases signature with
    | none =>
      rw [writtenSignature, List.append_nil, cut?_eq_none htype.not_mem]
      dsimp only
      rw [htype.isTrimmed.trim_eq, l.parseType_descriptor htype.wellFormed]
      rfl
    | some signature =>
      have hquoted : trim (' ' :: Writer.quoted signature) = Writer.quoted signature :=
        (trim_append_left (w := [' ']) (by decide) _).trans (isTrimmed_quoted signature).trim_eq
      rw [writtenSignature, cut?_of_not_mem htype.not_mem]
      dsimp only
      rw [htype.isTrimmed.trim_eq, l.parseType_descriptor htype.wellFormed, hquoted]
      dsimp only
      rw [Line.quotedOr_quoted]
      rfl
  · rename_i hother
    exact absurd rfl (hother _)

/-- The end of a local variable is legible if its register is scanned. -/
theorem isLegible_endLocal_of_scans (hscans : register.Scans) :
    (Call.endLocal register).IsLegible := by
  have hname : IsIdentifier "local" := by decide
  obtain ⟨l, hl, hd, hend, harguments, -⟩ := exists_line_of_end hname.isWord
    hscans.space (by rintro _ ⟨⟩; rfl)
  have hlocal : l.closes "local" = true := decide_eq_true hend
  have hregister := localRegister_eq h l (harguments.trans (isTrimmed_localRegister h).trim_eq)
  have hline : (Call.endLocal register).line? =
      some (".end " ++ "local".toList ++ ' ' :: register) := rfl
  refine ⟨_, l, hline, hl, ?_⟩
  change l.bodyCall? = _
  rw [Line.bodyCall?, hd]
  dsimp only
  rw [Line.closingCall?, Line.closes_unique hlocal (by decide),
    Line.closes_unique hlocal (by decide), hlocal, hregister]
  rfl

/-- A local variable that is taken up again is legible if its arguments are scanned. -/
theorem isLegible_restartLocal_of_scans (hscans : Text.Scans ("local".toList ++ ' ' :: register)) :
    (Call.restartLocal register).IsLegible := by
  refine isLegible_of_arguments ".restart" .restart _ rfl (.of_all rfl rfl) rfl hscans
    (isTrimmed_localRegister h) fun l hd harguments => ?_
  change l.bodyCall? = _
  rw [Line.bodyCall?, hd]
  dsimp only
  rw [localRegister_eq h l harguments]
  rfl

/-- A local variable of which nothing but the register is known is legible if that is scanned. -/
theorem isLegible_localVariable_none_of_scans (hcomma : ',' ∉ register) (hscans : register.Scans) :
    (Call.localVariable register none none none).IsLegible := by
  refine isLegible_of_arguments ".local" .localVariable register
    (congrArg some (localLine_of_register register)) (.of_all rfl rfl)
    rfl hscans h.isTrimmed fun l hd harguments => ?_
  change l.bodyCall? = _
  rw [Line.bodyCall?, hd]
  dsimp only
  rw [localVariable_eq_none h hcomma harguments]
  rfl

/-- A local variable with a type is legible if its arguments are scanned. -/
theorem isLegible_localVariable_some_of_scans (hcomma : ',' ∉ register) {name : Option Text}
    {type : TypeName} (htype : type.IsDelimited ',') {signature : Option Text}
    (hscans : Text.Scans (register ++ ',' :: ' ' :: declaredLocal name type signature)) :
    (Call.localVariable register name (some type) signature).IsLegible := by
  have hdeclared := isTrimmed_declaredLocal name htype signature
  have hne : declaredLocal name type signature ≠ [] :=
    List.append_ne_nil_of_right_ne_nil _ (List.cons_ne_nil _ _)
  refine isLegible_of_arguments ".local" .localVariable _
    (congrArg some (localLine_eq register name type signature)) (.of_all rfl rfl) rfl hscans
    (h.isTrimmed.append h.ne_nil hdeclared hne [',', ' ']) fun l hd harguments => ?_
  change l.bodyCall? = _
  rw [Line.bodyCall?, hd]
  dsimp only
  rw [localVariable_eq h hcomma name htype signature harguments]
  rfl

end Operands

section LocalVariables

variable {register : Text} (h : register.IsIdentifier)

include h

/-- The end of a local variable is legible. -/
theorem isLegible_endLocal : (Call.endLocal register).IsLegible :=
  isLegible_endLocal_of_scans h.isOperand (IsCode.of_isWord h.isWord).scans

/-- A local variable that is taken up again is legible. -/
theorem isLegible_restartLocal : (Call.restartLocal register).IsLegible := by
  have hname : IsIdentifier "local" := by decide
  have hcode : IsCode ("local".toList ++ ' ' :: register) :=
    .word hname.isWord (by rintro _ ⟨⟩; rfl) (IsCode.of_isWord h.isWord).space
  exact isLegible_restartLocal_of_scans h.isOperand hcode.scans

/-- A local variable of which nothing but the register is known is legible. -/
theorem isLegible_localVariable_none : (Call.localVariable register none none none).IsLegible :=
  isLegible_localVariable_none_of_scans h.isOperand (h.isBare.not_mem (by decide))
    (IsCode.of_isWord h.isWord).scans

/-- A local variable with a type is legible. -/
theorem isLegible_localVariable_some (name : Option Text) {type : TypeName} (htype : type.IsPlain)
    (signature : Option Text) :
    (Call.localVariable register name (some type) signature).IsLegible := by
  have hcode : IsCode (register ++ ',' :: ' ' :: declaredLocal name type signature) :=
    .word h.isWord (by rintro _ ⟨⟩; rfl)
      (.mark rfl (isCode_declaredLocal name htype signature).space)
  exact isLegible_localVariable_some_of_scans h.isOperand (h.isBare.not_mem (by decide))
    (htype.isDelimited (by decide)) hcode.scans

end LocalVariables

/-- The marks of the prologue and of the epilogue are legible. -/
theorem isLegible_marks : Call.prologue.IsLegible ∧ Call.epilogue.IsLegible := by
  have hmark : ∀ {word : Text}, IsKeyword word → ∃ l, lineOf (word ++ []) = some l ∧
      l.directive? = some (.ofKeyword word) := by
    intro word hword
    obtain ⟨l, hl, hd, -⟩ :=
      exists_line_of_isKeyword hword IsCode.nil.scans fun c hc => absurd hc (Option.not_mem_none c)
    exact ⟨l, hl, hd⟩
  have hkeywords : IsKeyword ".prologue".toList ∧ IsKeyword ".epilogue".toList :=
    ⟨.of_all rfl rfl, .of_all rfl rfl⟩
  obtain ⟨first, hfirst, hprologue⟩ := hmark hkeywords.1
  obtain ⟨last, hlast, hepilogue⟩ := hmark hkeywords.2
  refine ⟨⟨_, first, rfl, hfirst, ?_⟩, ⟨_, last, rfl, hlast, ?_⟩⟩
  · change first.bodyCall? = _
    rw [Line.bodyCall?, hprologue]
    rfl
  · change last.bodyCall? = _
    rw [Line.bodyCall?, hepilogue]
    rfl

end Call

end Smali
