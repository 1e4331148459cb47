import Smali.Proofs.CallLines
import Smali.Proofs.MethodCalls
import Smali.Proofs.ReadableCalls

/-!
# Lines of a method that are written again

Whatever spacing a line of a method has, the call that is read from it is written with the spacing
of the writer. The texts that the call hands on are parts of the line, and the line as it is written
is read as the same call as soon as it can be scanned. It always can, but for a few operands that
were no tokens of their own where they stood: a register or a type with a quote that was not closed
in front of the comma, and a register that was glued to the keyword in front of it.
-/

namespace Smali

open Text

/-- The parts of a call of a method that need not have been tokens of their own. -/
def Call.loose : Call → List Text
  | .restartLocal register => [register]
  | .param register (some _) => [register]
  | .localVariable register _ (some type) _ => [register, type.descriptor]
  | _ => []

/-- The line that is written for a call is read as the call if it is scanned, and it is scanned if
the loose parts of the call are. -/
def Call.IsRestored (call : Call) : Prop :=
  ∀ line, Writer.methodLine? call = some line →
    (line.Scans → call.IsLegible) ∧ ((∀ part ∈ call.loose, part.Scans) → line.Scans)

/-! ## Operands where they are written -/

/-- A type that is read from a text up to a mark. -/
theorem Line.isDelimited_of_parseType {l : Line} {t : Text} {type : TypeName} {mark : Char}
    (h : l.parseType (trim t) = .ok type) (hmark : mark ∉ t) : type.IsDelimited mark := by
  have hdescriptor := descriptor_of_parseType h
  unfold parseType at h
  cases hparse : TypeName.parse (trim t) with
  | error flaw => rw [hparse] at h; cases h
  | ok found =>
    rw [hparse] at h
    obtain rfl := Except.ok.inj h
    refine ⟨TypeName.wellFormed_of_parse hparse, hdescriptor ▸ isTrimmed_trim t, ?_⟩
    rw [hdescriptor]
    exact fun hmem => hmark (trim_subset t hmem)

/-- The first character of a descriptor starts a word. -/
theorem TypeName.WellFormed.exists_startsWord {type : TypeName} (h : type.WellFormed) :
    ∃ c rest, type.descriptor = c :: rest ∧ startsWord c = true := by
  cases type with
  | primitive kind => exact ⟨_, [], rfl, by cases kind <;> rfl⟩
  | array element dimensions =>
    obtain ⟨n, rfl⟩ := Nat.exists_eq_succ_of_ne_zero (Nat.pos_iff_ne_zero.mp h.2)
    exact ⟨'[', _, rfl, rfl⟩
  | object name => exact ⟨'L', _, rfl, rfl⟩
  | void => exact ⟨'V', [], rfl, rfl⟩

namespace LabelGaps

/-- The blanks of the writer. -/
def written : LabelGaps := ⟨[], [' '], [' '], [], [' ']⟩

/-- They fit. -/
theorem fits_written : written.Fits where
  isBlank := by decide
  before := List.cons_ne_nil _ _
  behind := List.cons_ne_nil _ _
  outside := List.cons_ne_nil _ _

/-- The labels of a handler are written with these blanks. -/
theorem fill_written (first last handler : Text) :
    written.fill first last handler = Writer.handlerLabels first last handler := by
  simp [fill, written, Writer.handlerLabels]

/-- A text with labels behind it is scanned with any blanks between them that fit. -/
theorem Fits.scans {g g' : LabelGaps} (hg : g.Fits) (hg' : g'.Fits) {p first last handler : Text}
    (h : Text.Scans (p ++ g.fill first last handler)) :
    Text.Scans (p ++ g'.fill first last handler) := by
  have hw := hg.isBlank
  have hw' := hg'.isBlank
  simp only [List.forall_mem_cons] at hw hw'
  -- one gap after the other, from the left: those in front of it have their new blanks already
  have hopening : Text.Scans ((p ++ ['\x7b']) ++ (g'.opening ++ (':' :: first ++ (g.before ++
      '.' :: '.' :: (g.behind ++ ':' :: (last ++ (g.closing ++ '\x7d' :: (g.outside ++
      ':' :: handler)))))))) := by
    refine Text.Scans.respaced hw.1 hw'.1 (by simpa [fill] using h) ?_ ?_ <;>
      exact .inr (.inr (.inl ⟨'\x7b', by simp, rfl⟩))
  have hbefore : Text.Scans ((p ++ '\x7b' :: (g'.opening ++ ':' :: first)) ++ (g'.before ++
      ('.' :: '.' :: (g.behind ++ ':' :: (last ++ (g.closing ++ '\x7d' :: (g.outside ++
      ':' :: handler))))))) :=
    Text.Scans.respaced hw.2.1 hw'.2.1 (by simpa using hopening) (.inl hg.before) (.inl hg'.before)
  have hbehind : Text.Scans ((p ++ '\x7b' :: (g'.opening ++ ':' :: first ++ (g'.before ++
      ['.', '.']))) ++ (g'.behind ++ (':' :: (last ++ (g.closing ++ '\x7d' :: (g.outside ++
      ':' :: handler)))))) :=
    Text.Scans.respaced hw.2.2.1 hw'.2.2.1 (by simpa using hbefore) (.inl hg.behind)
      (.inl hg'.behind)
  have hclosing : Text.Scans ((p ++ '\x7b' :: (g'.opening ++ ':' :: first ++ (g'.before ++
      '.' :: '.' :: (g'.behind ++ ':' :: last)))) ++ (g'.closing ++ ('\x7d' :: (g.outside ++
      ':' :: handler)))) := by
    refine Text.Scans.respaced hw.2.2.2.1 hw'.2.2.2.1 (by simpa using hbehind) ?_ ?_ <;>
      exact .inr (.inr (.inr ⟨'\x7d', rfl, rfl⟩))
  have houtside : Text.Scans ((p ++ '\x7b' :: (g'.opening ++ ':' :: first ++ (g'.before ++
      '.' :: '.' :: (g'.behind ++ ':' :: (last ++ (g'.closing ++ ['\x7d'])))))) ++ (g'.outside ++
      (':' :: handler))) :=
    Text.Scans.respaced hw.2.2.2.2.1 hw'.2.2.2.2.1 (by simpa using hclosing) (.inl hg.outside)
      (.inl hg'.outside)
  simpa [fill] using houtside

end LabelGaps

/-! ## Calls that are restored -/

namespace Call

/-- What is written of a local variable is scanned if the descriptor of its type is: what stands in
front of that in the same word starts like no number. -/
theorem scans_declaredLocal (name : Option Text) {type : TypeName} (hwell : type.WellFormed)
    (h : type.descriptor.Scans) (signature : Option Text) :
    (declaredLocal name type signature).Scans := by
  have hrest : Text.Scans (type.descriptor ++ writtenSignature signature) :=
    (h.append_iff (endsWord_writtenSignature signature)).mpr
      (isCode_writtenSignature signature).scans
  obtain ⟨c, rest, hdescriptor, hc⟩ := hwell.exists_startsWord
  rw [declaredLocal]
  rw [hdescriptor] at hrest ⊢
  cases name with
  | none =>
    have hname : IsIdentifier "null" := by decide
    have hnull : ∀ e ∈ "null".toList ++ [':'], endsWord e = false :=
      List.forall_mem_append.mpr ⟨hname.isWord.word, List.forall_mem_singleton.mpr rfl⟩
    exact hrest.glued (c := 'n') (p := "ull:".toList) hc rfl hnull (by decide)
  | some name =>
    have hbody := (Literal.isBody_escape name).takeBody?_eq (.inl rfl)
      (':' :: (c :: rest ++ writtenSignature signature))
    have hcolon := hrest.glued (c := ':') (p := []) hc rfl (List.forall_mem_singleton.mpr rfl)
      (by decide)
    have hquoted : writtenName (some name) ++ ':' :: (c :: rest ++ writtenSignature signature) =
        '"' :: (Literal.escape name ++
          '"' :: ':' :: (c :: rest ++ writtenSignature signature)) := by
      simp [writtenName, Writer.quoted]
    rw [hquoted, scans_quote (.inl rfl) hbody]
    exact hcolon

/-- A line of code is written as it was. -/
theorem isRestored_codeCall {number : Nat} {t : Text} {l : Line} (hl : Line.ofText number t = .ok l)
    (hcode : l.bodyCall? = some l.codeCall) : l.codeCall.IsRestored := by
  intro line hline
  have htext : line = l.text := by
    unfold Line.codeCall at hline
    split at hline
    · rename_i name htext
      rw [htext]
      exact (Option.some.inj hline).symm
    · exact (Option.some.inj hline).symm
  have hscans : l.text.Scans := by
    obtain ⟨s, hs, rfl⟩ := exists_of_map_eq_ok hl
    exact scans_trim.mpr (scans_of_scan hs)
  have hlegible : l.codeCall.IsLegible := by
    refine (isLegible_iff_of_methodLine? hline).mpr ⟨l.bare.unplaced, ?_, ?_⟩
    · obtain ⟨s, hs, rfl⟩ := exists_of_map_eq_ok hl
      have hunplaced := unplaced_ofText_eq_lineOf number s.text
      rw [Line.ofText, scan_text hs] at hunplaced
      rw [htext]
      exact hunplaced.symm
    · rw [Line.bodyCall?_unplaced]
      exact hcode
  exact ⟨fun _ => hlegible, fun _ => htext ▸ hscans⟩

/-- A line with arguments behind a keyword. -/
theorem isRestored_of_arguments {call : Call} (word arguments : Text)
    (hline : Writer.methodLine? call = some (word ++ ' ' :: arguments)) (hword : IsKeyword word)
    (hlegible : arguments.Scans → call.IsLegible)
    (hscans : (∀ part ∈ call.loose, part.Scans) → arguments.Scans) : call.IsRestored := by
  intro line h
  obtain rfl := Option.some.inj (hline.symm.trans h)
  rw [scans_keyword hword]
  exact ⟨hlegible, hscans⟩

/-- A line that is always written the same way. -/
theorem isRestored_of_isLegible {call : Call} {line : Text}
    (hline : Writer.methodLine? call = some line) (hlegible : call.IsLegible)
    (hcode : IsCode line) : call.IsRestored := by
  intro line' h
  obtain rfl := Option.some.inj (hline.symm.trans h)
  exact ⟨fun _ => hlegible, fun _ => hcode.scans⟩

/-- The marks of the prologue and of the epilogue, and the end of a parameter. -/
theorem isRestored_marks :
    Call.prologue.IsRestored ∧ Call.epilogue.IsRestored ∧ Call.paramEnd.IsRestored := by
  have hkeyword : ∀ {word : Text}, IsKeyword word → IsCode word := fun h =>
    .of_isWord (.of_isKeyword h)
  have hname : IsIdentifier "param" := by decide
  exact ⟨isRestored_of_isLegible rfl isLegible_marks.1 (hkeyword (.of_all rfl rfl)),
    isRestored_of_isLegible rfl isLegible_marks.2 (hkeyword (.of_all rfl rfl)),
    isRestored_of_isLegible rfl isLegible_paramEnd
      (.word (w := ".end".toList) (.of_isKeyword (.of_all rfl rfl)) (by rintro _ ⟨⟩; rfl)
        (IsCode.of_isWord hname.isWord).space)⟩

section Arguments

variable {number : Nat} {t : Text} {l : Line} (hl : Line.ofText number t = .ok l)

/-- A count. -/
theorem isRestored_counts {n : Nat} (h : l.count = .ok n) : (Call.registers n).IsRestored ∧
    (Call.locals n).IsRestored ∧ (Call.line n).IsRestored := by
  have hn : n < 0x100000000 := by
    unfold Line.count at h
    split at h
    · rename_i found hfound
      obtain rfl := Except.ok.inj h
      simpa using (Option.filter_eq_some_iff.mp hfound).2
    · cases h
  obtain ⟨hregisters, hlocals, hnumber⟩ := isLegible_counts hn
  have hscans : (decimal n).Scans := (IsCode.of_isWord (isWord_decimal n)).scans
  exact ⟨isRestored_of_arguments ".registers" _ rfl (.of_all rfl rfl)
      (fun _ => hregisters) fun _ => hscans,
    isRestored_of_arguments ".locals" _ rfl (.of_all rfl rfl)
      (fun _ => hlocals) fun _ => hscans,
    isRestored_of_arguments ".line" _ rfl (.of_all rfl rfl)
      (fun _ => hnumber) fun _ => hscans⟩

/-- A local variable that is taken up again. -/
theorem isRestored_restartLocal {register : Text} (h : l.localRegister = .ok register) :
    (Call.restartLocal register).IsRestored := by
  have hname : IsIdentifier "local" := by decide
  refine isRestored_of_arguments ".restart" ("local".toList ++ ' ' :: register) rfl
    (.of_all rfl rfl) (isLegible_restartLocal_of_scans (Line.isOperand_of_localRegister h).1)
    fun hloose => ?_
  exact (IsCode.of_isWord hname.isWord).scans.space_iff.mpr (hloose register List.mem_cons_self)

include hl

/-- A parameter. -/
theorem isRestored_param {register : Text} {name : Option Text}
    (h : l.param = .ok (register, name)) : (Call.param register name).IsRestored := by
  obtain ⟨hoperand, -, hcomma, hall⟩ := Line.isOperand_of_param h
  cases name with
  | none =>
    have hscans : register.Scans := hall rfl ▸ scans_arguments hl
    exact isRestored_of_arguments ".param" _ rfl (.of_all rfl rfl)
      (isLegible_param_none_of_scans hoperand hcomma) fun _ => hscans
  | some name =>
    have hline : Writer.methodLine? (.param register (some name)) =
        some (".param".toList ++ ' ' :: (register ++ ',' :: ' ' :: Writer.quoted name)) := by
      simp [Writer.methodLine?]
    refine isRestored_of_arguments _ _ hline (.of_all rfl rfl)
      (isLegible_param_some_of_scans hoperand hcomma) fun hloose => ?_
    rw [(hloose register List.mem_cons_self).append_iff (by rintro _ ⟨⟩; rfl), scans_mark rfl,
      scans_blank rfl]
    exact (isCode_quoted name).scans

/-- The end of a local variable. -/
theorem isRestored_endLocal {register : Text} (hend : l.endOf? = some "local".toList)
    (h : l.localRegister = .ok register) : (Call.endLocal register).IsRestored := by
  have hname : IsIdentifier "local" := by decide
  obtain ⟨hoperand, rest, harguments, hregister⟩ := Line.isOperand_of_localRegister h
  obtain ⟨rest', harguments', hrest⟩ :=
    scans_behind_end hl hend hname.isWord.isTrimmed (List.cons_ne_nil _ _)
  -- the word `local` is a token here, so what stands behind it was scanned by itself
  obtain rfl := List.append_cancel_left (harguments.symm.trans harguments')
  have hscans : register.Scans := hregister ▸ scans_trim.mpr hrest
  refine isRestored_of_arguments ".end" ("local".toList ++ ' ' :: register) rfl (.of_all rfl rfl)
    (fun _ => isLegible_endLocal_of_scans hoperand hscans) fun _ => ?_
  exact (IsCode.of_isWord hname.isWord).scans.space_iff.mpr hscans

/-- A handler for exceptions of one type. -/
theorem isRestored_catching {call : Call} (h : l.catchingCall? = some call) : call.IsRestored := by
  obtain ⟨found, hhandler, h⟩ := Line.exists_of_toOption_bind h
  obtain ⟨type, htype, rfl⟩ := Line.exists_of_toOption_map h
  obtain ⟨hfirst, hlast, hlabel, before, g, hg, hbrace, hexception, harguments⟩ :=
    Line.exists_fill_of_handler hhandler
  rw [hexception] at htype
  have hdescriptor := Line.descriptor_of_parseType htype
  have hscans : Text.Scans (type.descriptor ++
      ' ' :: Writer.handlerLabels found.first found.last found.handler) := by
    obtain ⟨front, behind, hfront, hbehind, hbefore⟩ := Text.exists_trim before
    have hline := scans_arguments hl
    rw [harguments, hbefore, List.append_assoc, scans_append_left hfront,
      List.append_assoc] at hline
    have hmark : ∃ c ∈ (g.fill found.first found.last found.handler).head?, isMark c = true :=
      ⟨_, rfl, rfl⟩
    -- the blanks in front of the brace become one space, and then those between the labels change
    have hspace := hline.respaced hbehind (by decide : IsBlank [' ']) (.inr (.inr (.inr hmark)))
      (.inr (.inr (.inr hmark)))
    rw [← List.append_assoc] at hspace
    have hwritten := hg.scans LabelGaps.fits_written hspace
    rwa [LabelGaps.fill_written, ← hdescriptor, List.append_assoc] at hwritten
  exact isRestored_of_arguments ".catch" _ rfl (.of_all rfl rfl)
    (isLegible_catching_of_scans hfirst hlast hlabel (Line.isDelimited_of_parseType htype hbrace))
    fun _ => hscans

/-- A handler for all exceptions. -/
theorem isRestored_catchAll {call : Call} (h : l.catchAllCall? = some call) : call.IsRestored := by
  obtain ⟨found, hhandler, h⟩ := Line.exists_of_toOption_bind h
  obtain ⟨hfirst, hlast, hlabel, before, g, hg, -, hexception, harguments⟩ :=
    Line.exists_fill_of_handler hhandler
  split at h
  · rename_i hempty
    obtain rfl := Option.some.inj h
    have hbefore : IsBlank before :=
      trim_eq_nil.mp (hexception ▸ List.isEmpty_iff.mp hempty)
    have hline := scans_arguments hl
    rw [harguments, scans_append_left hbefore] at hline
    have hscans := hg.scans LabelGaps.fits_written (p := []) hline
    rw [List.nil_append, LabelGaps.fill_written] at hscans
    exact isRestored_of_arguments ".catchall" _ rfl (.of_all rfl rfl)
      (isLegible_catchAll_of_scans hfirst hlast hlabel) fun _ => hscans
  · cases h

/-- A local variable. -/
theorem isRestored_localVariable {v : Line.LocalArguments} (h : l.localVariable = .ok v) :
    (Call.localVariable v.register v.name v.type v.signature).IsRestored := by
  cases Line.tellsLocal_of_localVariable h with
  | bare hregister hcomma =>
    obtain ⟨heq, hoperand⟩ := Line.isOperand_of_register hregister
    obtain rfl := Option.some.inj heq
    exact isRestored_of_arguments _ _ (congrArg some (localLine_of_register _)) (.of_all rfl rfl)
      (isLegible_localVariable_none_of_scans hoperand fun hmem => hcomma (trim_subset _ hmem))
      fun _ => scans_trim.mpr (scans_arguments hl)
  | @typed _ _ _ type name signature _ hcomma hregister _ hend hparse =>
    obtain ⟨heq, hoperand⟩ := Line.isOperand_of_register hregister
    obtain rfl := Option.some.inj heq
    have htype := Line.isDelimited_of_parseType hparse hend
    refine isRestored_of_arguments _ _ (congrArg some (localLine_eq _ name type signature))
      (.of_all rfl rfl) (isLegible_localVariable_some_of_scans hoperand
        (fun hmem => hcomma (trim_subset _ hmem)) htype) fun hloose => ?_
    obtain ⟨hscans, hdescriptor⟩ := List.forall_mem_cons.mp hloose
    rw [hscans.append_iff (by rintro _ ⟨⟩; rfl), scans_mark rfl, scans_blank rfl]
    exact scans_declaredLocal name htype.wellFormed (hdescriptor _ List.mem_cons_self) signature

/-- The call that is read from a closing line. -/
theorem isRestored_of_closingCall? {call : Call} (hbody : l.bodyCall? = some call)
    (hcall : call.isOfMethod = true) (h : l.closingCall? = some call) : call.IsRestored := by
  unfold Line.closingCall? at h
  split at h
  · obtain rfl := Option.some.inj h
    exact absurd hcall Bool.false_ne_true
  · split at h
    · exact Option.some.inj h ▸ isRestored_marks.2.2
    · split at h
      · rename_i hend
        obtain ⟨register, hregister, rfl⟩ := Line.exists_of_toOption_map h
        exact isRestored_endLocal hl (of_decide_eq_true hend) hregister
      · split at h
        · cases h
        · obtain rfl := Option.some.inj h
          exact isRestored_codeCall hl hbody

/-- Every call of a method that is read from a line is restored. -/
theorem isRestored_of_bodyCall? {call : Call} (h : l.bodyCall? = some call)
    (hcall : call.isOfMethod = true) : call.IsRestored := by
  have hbody := h
  unfold Line.bodyCall? at h
  split at h
  · obtain rfl := Option.some.inj h
    exact isRestored_codeCall hl hbody
  · obtain ⟨⟨visibility, type⟩, -, rfl⟩ := Line.exists_of_toOption_map h
    exact absurd hcall Bool.false_ne_true
  · exact isRestored_of_closingCall? hl hbody hcall h
  · obtain ⟨n, hcount, rfl⟩ := Line.exists_of_toOption_map h
    exact (isRestored_counts hcount).1
  · obtain ⟨n, hcount, rfl⟩ := Line.exists_of_toOption_map h
    exact (isRestored_counts hcount).2.1
  · obtain ⟨n, hcount, rfl⟩ := Line.exists_of_toOption_map h
    exact (isRestored_counts hcount).2.2
  · obtain ⟨⟨register, name⟩, hparam, rfl⟩ := Line.exists_of_toOption_map h
    exact isRestored_param hl hparam
  · exact isRestored_catching hl h
  · exact isRestored_catchAll hl h
  · obtain ⟨v, hv, rfl⟩ := Line.exists_of_toOption_map h
    exact isRestored_localVariable hl hv
  · obtain ⟨register, hregister, rfl⟩ := Line.exists_of_toOption_map h
    exact isRestored_restartLocal hregister
  · exact Option.some.inj h ▸ isRestored_marks.1
  · exact Option.some.inj h ▸ isRestored_marks.2.1
  · obtain rfl := Option.some.inj h
    exact isRestored_codeCall hl hbody
  · cases h

end Arguments

end Call

/-! ## In a method -/

/-- A line that is read without a comment is scanned to its end. -/
theorem scans_of_ofText {number : Nat} {t : Text} {l : Line} (hl : Line.ofText number t = .ok l)
    (hremark : l.remark = none) : t.Scans := by
  obtain ⟨s, hs, rfl⟩ := exists_of_map_eq_ok hl
  exact (scans_iff number 1).mpr ⟨s, hs, Option.map_eq_none_iff.mp hremark⟩

/-- If a strict reader takes a line of a method as a call, then the writer writes the call as a line
that is read in the same place as the same call and nothing else, provided that it can be scanned.
It can be scanned as soon as the loose parts of the call can be. -/
theorem method_line_rewritten {o : Options} (h : o.errors = .strict) {c c' : Control}
    {m : OpenMethod} {outer : List Frame} (hc : c.frames = .method m :: outer) {number : Nat}
    {t : Text} {l : Line} (hl : Line.ofText number t = .ok l) {call : Call} {more : List Move}
    (htake : Dialogue.course o (c.take l) = some (c', .tell call :: more)) {line : Text}
    (hline : Writer.methodLine? call = some line) (number' : Nat) :
    call.IsWrittenAs (Page.indent 1 ++ line) ∧
      (line.Scans ↔ ∃ l', Line.ofText number' (Page.indent 1 ++ line) = .ok l' ∧
        l'.remark = none ∧ Dialogue.course o (c.take l') = some (c', [.tell call])) ∧
      ((∀ part ∈ call.loose, part.Scans) → line.Scans) := by
  have hcall : call.isOfMethod = true := by rw [Call.isOfMethod, hline]; rfl
  obtain ⟨hcomment, hbody⟩ := bodyCall?_of_course_take h hc htake hcall
  obtain ⟨hlegible, hloose⟩ := Call.isRestored_of_bodyCall? hl hbody hcall line hline
  refine ⟨Call.isWrittenAs_of_methodLine? hline, ⟨fun hscans => ?_, ?_⟩, hloose⟩
  · obtain ⟨l', hl', hremark, htake'⟩ :=
      exists_take_of_isLegible h hc hline hscans (hlegible hscans) number'
    rw [course_take_of_bodyCall? h hc hcomment hbody hcall] at htake
    refine ⟨l', hl', hremark, htake'.trans ?_⟩
    cases hadmits : m.admits o call with
    | false =>
      rw [hadmits] at htake
      cases htake
    | true =>
      rw [hadmits, if_pos rfl] at htake
      rw [if_pos rfl, (Prod.mk.inj (Option.some.inj htake)).1]
  · rintro ⟨l', hl', hremark, -⟩
    exact (scans_append_left (isBlank_indent 1)).mp (scans_of_ofText hl' hremark)

/-- A parameter with other spaces than the writer puts. -/
theorem method_line_rewritten_at :
    let c : Control := ⟨.method, [], [.method ⟨⟨2, 1⟩, "m", .none, false⟩]⟩
    let c' : Control := ⟨.method, [], [.method ⟨⟨2, 1⟩, "m", .none, true⟩]⟩
    let call : Call := .param "p0" (some "x")
    (∃ l, Line.ofText 3 ".param\t p0,\"x\"" = .ok l ∧
        Dialogue.course .default (c.take l) = some (c', [.tell call])) ∧
      call.IsWrittenAs "    .param p0, \"x\"" ∧
      ∃ l, Line.ofText 3 "    .param p0, \"x\"" = .ok l ∧ l.remark = none ∧
        Dialogue.course .default (c.take l) = some (c', [.tell call]) := by
  intro c c' call
  let l : Line := ⟨[⟨.directive, ".param", ⟨3, 1⟩⟩, ⟨.identifier, "p0", ⟨3, 9⟩⟩,
    ⟨.punctuation, ",", ⟨3, 11⟩⟩, ⟨.stringLiteral, "\"x\"", ⟨3, 12⟩⟩], ".param\t p0,\"x\"", none,
    ⟨3, 1⟩⟩
  have hl : Line.ofText 3 ".param\t p0,\"x\"" = .ok l := by decide +kernel
  have hname : IsIdentifier "p0" := by decide
  have hparam : l.param = .ok ("p0".toList, some "x".toList) := by
    have harguments : l.arguments = "p0".toList ++ ',' :: Writer.quoted "x" := by decide
    rw [Line.param, harguments, cutArguments_of_not_mem (by decide),
      (isTrimmed_quoted "x").trim_eq]
    dsimp only
    rw [Line.quotedOr_quoted]
    rfl
  have hbody : l.bodyCall? = some call := by
    change l.param.toOption.map _ = _
    rw [hparam]
    rfl
  have htake : Dialogue.course .default (c.take l) = some (c', [.tell call]) :=
    course_take_of_bodyCall? (o := .default) rfl (c := c) rfl rfl hbody rfl
  have hline : Writer.methodLine? call = some ".param p0, \"x\"".toList := rfl
  obtain ⟨hwritten, hscans, hloose⟩ :=
    method_line_rewritten (o := .default) rfl (c := c) rfl hl htake hline 3
  have hparts : ∀ part ∈ call.loose, part.Scans :=
    List.forall_mem_singleton.mpr (IsCode.of_isWord hname.isWord).scans
  exact ⟨⟨l, hl, htake⟩, hwritten, hscans.mp (hloose hparts)⟩

/-- A register that is glued to the keyword `local` is taken, but it is written behind a space, and
there it is no token. -/
theorem glued_register_lost :
    let c : Control := ⟨.method, [], [.method ⟨⟨2, 1⟩, "m", .none, false⟩]⟩
    let call : Call := .restartLocal "1x"
    (∃ l, Line.ofText 3 ".restart local1x" = .ok l ∧
        Dialogue.course .default (c.take l) = some (c, [.tell call])) ∧
      call.IsWrittenAs "    .restart local 1x" ∧
      Line.ofText 3 "    .restart local 1x" =
        .error (.located .lexical ⟨3, 20⟩ "malformed numeric literal '1x'") := by
  intro c call
  let l : Line := ⟨[⟨.directive, ".restart", ⟨3, 1⟩⟩, ⟨.identifier, "local1x", ⟨3, 10⟩⟩],
    ".restart local1x", none, ⟨3, 1⟩⟩
  have hl : Line.ofText 3 ".restart local1x" = .ok l := by decide +kernel
  have hbody : l.bodyCall? = some call := rfl
  have htake : Dialogue.course .default (c.take l) = some (c, [.tell call]) :=
    course_take_of_bodyCall? (o := .default) rfl (c := c) rfl rfl hbody rfl
  have hline : Writer.methodLine? call = some ".restart local 1x".toList := rfl
  exact ⟨⟨l, hl, htake⟩, Call.isWrittenAs_of_methodLine? hline, by decide +kernel⟩

end Smali
