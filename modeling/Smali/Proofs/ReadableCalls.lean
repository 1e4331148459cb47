import Smali.Proofs.CallLines
import Smali.Proofs.FormatAgain

/-!
# Readable calls

A plain call outside annotations is readable exactly if it takes one line and is read from this
line again. Nothing but a field, a local variable and an instruction can fail here: the line of
every other call says all that the call says.
-/

namespace Smali

open Text

namespace Call

/-! ## On one line -/

/-- The texts of a plain call are on one line, those of values and of instructions aside. -/
theorem HasPlainParts.isInline {call : Call} (h : call.HasPlainParts) {text : Text}
    (htext : call.line? = some text)
    (hvalue : ∀ name access type v, call = .field name access type (some v) → v.IsInline)
    (hcode : call.kind ≠ .instruction) : text.IsInline := by
  have hname : ∀ {name : Text}, name.IsIdentifier → name.IsInline :=
    fun h => h.isBare.isCodeLine.inline
  have htype : ∀ {type : TypeName}, type.IsPlain → type.descriptor.IsInline :=
    fun h => h.isBare.isCodeLine.inline
  have happend : ∀ {t u : Text}, t.IsInline → u.IsInline → (t ++ u).IsInline :=
    fun ht hu => isInline_append.mpr ⟨ht, hu⟩
  cases call with
  | header type access =>
    exact Option.some.inj htext ▸ isInline_directiveLine (by decide) access (htype h)
  | superType type => exact Option.some.inj htext ▸ happend (by decide) (htype h)
  | implements type => exact Option.some.inj htext ▸ happend (by decide) (htype h)
  | source name => exact Option.some.inj htext ▸ happend (by decide) (isInline_quoted name)
  | field name access type initial =>
    obtain ⟨hfield, hfieldType, -⟩ := h
    refine Option.some.inj htext ▸ isInline_directiveLine (by decide) access
      (happend (happend (happend (hname hfield) (by decide)) (htype hfieldType)) ?_)
    cases initial with
    | none => exact isInline_nil
    | some v => exact happend (by decide) (hvalue _ _ _ v rfl)
  | method name access signature =>
    have hword := isWord_methodDeclaration h.1 h.2
    have hdeclaration : (name ++ signature.descriptor).IsInline := fun hmem =>
      absurd (hword.isBlank hmem) (by decide)
    exact Option.some.inj htext ▸ isInline_directiveLine (by decide) access hdeclaration
  | annotationStart visibility type =>
    have hkeyword : visibility.keyword.IsInline := by cases visibility <;> decide
    exact Option.some.inj htext ▸ happend (happend (by decide) hkeyword)
      (isInline_cons.mpr ⟨by decide, htype h⟩)
  | registers count => exact Option.some.inj htext ▸ happend (by decide) (isInline_decimal count)
  | locals count => exact Option.some.inj htext ▸ happend (by decide) (isInline_decimal count)
  | line number => exact Option.some.inj htext ▸ happend (by decide) (isInline_decimal number)
  | param register name =>
    cases name with
    | none => exact Option.some.inj htext ▸ happend (by decide) (hname h)
    | some name =>
      exact Option.some.inj htext ▸ happend (happend (happend (by decide) (hname h)) (by decide))
        (isInline_quoted name)
  | label name => exact Option.some.inj htext ▸ isInline_cons.mpr ⟨by decide, hname h⟩
  | instruction text => exact absurd rfl hcode
  | catching exception first last handler =>
    obtain ⟨hexception, hfirst, hlast, hhandler⟩ := h
    have hlabels := Line.isInline_handlerLabels (hname hfirst) (hname hlast) (hname hhandler)
    exact Option.some.inj htext ▸ happend (happend (by decide) (htype hexception))
      (isInline_cons.mpr ⟨by decide, hlabels⟩)
  | catchAll first last handler =>
    obtain ⟨hfirst, hlast, hhandler⟩ := h
    exact Option.some.inj htext ▸ happend (by decide)
      (Line.isInline_handlerLabels (hname hfirst) (hname hlast) (hname hhandler))
  | localVariable register name type signature =>
    exact Option.some.inj htext ▸ Line.isInline_localLine (hname h.1) name
      (fun t ht => htype (h.2 t ht)) signature
  | endLocal register => exact Option.some.inj htext ▸ happend (by decide) (hname h)
  | restartLocal register => exact Option.some.inj htext ▸ happend (by decide) (hname h)
  | paramEnd => exact Option.some.inj htext ▸ (by decide)
  | prologue => exact Option.some.inj htext ▸ (by decide)
  | epilogue => exact Option.some.inj htext ▸ (by decide)
  | _ => exact absurd htext (Option.some_ne_none _).symm

end Call

/-! ## What cannot be read back -/

namespace Line

variable {l : Line}

/-- A local variable that is read without a type has neither a name nor a signature. -/
theorem untyped_of_localVariable {v : LocalArguments} (h : l.localVariable = .ok v)
    (htype : v.type = none) : v.name = none ∧ v.signature = none := by
  cases tellsLocal_of_localVariable h with
  | bare _ _ => exact ⟨rfl, rfl⟩
  | typed _ _ _ _ _ _ => cases htype

/-- A line without a meaning of its own stands for its text. -/
theorem bodyCall?_of_isKept (h : l.isKept = true) : l.bodyCall? = some l.codeCall := by
  unfold isKept at h
  unfold bodyCall?
  split at h
  · rename_i hd
    rw [hd]
  · rename_i hd
    rw [hd]
  · rename_i hd
    simp only [Bool.not_eq_true', Bool.or_eq_false_iff] at h
    obtain ⟨⟨⟨⟨⟨hmethod, hparam⟩, hlocal⟩, hfield⟩, hannotation⟩, hnested⟩ := h
    rw [hd]
    dsimp only
    rw [closingCall?, hmethod, hparam, hlocal, hfield, hannotation, hnested]
    rfl
  · exact absurd h Bool.false_ne_true

/-- No other line stands for an instruction. -/
theorem isKept_of_bodyCall? {text : Text} (h : l.bodyCall? = some (.instruction text)) :
    l.isKept = true ∧ l.codeCall = .instruction text := by
  have hother : ∀ {α : Type} {r : Except Fault α} {f : α → Call},
      (∀ a, f a ≠ .instruction text) → r.toOption.map f ≠ some (.instruction text) := by
    intro α r f hf hr
    obtain ⟨a, -, heq⟩ := exists_of_toOption_map hr
    exact hf a heq
  unfold bodyCall? at h
  unfold isKept
  split at h
  · rename_i hd
    rw [hd]
    exact ⟨rfl, Option.some.inj h⟩
  · obtain ⟨header, -, heq⟩ := exists_of_toOption_map h
    exact Call.noConfusion heq
  · rename_i hd
    rw [hd]
    unfold closingCall? at h
    split at h
    · exact Call.noConfusion (Option.some.inj h)
    · split at h
      · exact Call.noConfusion (Option.some.inj h)
      · split at h
        · exact absurd h (hother fun _ => Call.noConfusion)
        · split at h
          · exact absurd h (Option.some_ne_none _).symm
          · rename_i hmethod hparam hlocal hothers
            rw [Bool.not_eq_true] at hmethod hparam hlocal hothers
            rw [Bool.or_eq_false_iff, Bool.or_eq_false_iff] at hothers
            obtain ⟨⟨hfield, hannotation⟩, hnested⟩ := hothers
            dsimp only
            rw [hmethod, hparam, hlocal, hfield, hannotation, hnested]
            exact ⟨rfl, Option.some.inj h⟩
  · exact absurd h (hother fun _ => Call.noConfusion)
  · exact absurd h (hother fun _ => Call.noConfusion)
  · exact absurd h (hother fun _ => Call.noConfusion)
  · exact absurd h (hother fun _ => Call.noConfusion)
  · obtain ⟨found, -, h⟩ := Option.bind_eq_some_iff.mp h
    exact absurd h (hother fun _ => Call.noConfusion)
  · obtain ⟨found, -, h⟩ := Option.bind_eq_some_iff.mp h
    split at h
    · exact Call.noConfusion (Option.some.inj h)
    · exact absurd h (Option.some_ne_none _).symm
  · exact absurd h (hother fun _ => Call.noConfusion)
  · exact absurd h (hother fun _ => Call.noConfusion)
  · exact Call.noConfusion (Option.some.inj h)
  · exact Call.noConfusion (Option.some.inj h)
  · rename_i hd
    rw [hd]
    exact ⟨rfl, Option.some.inj h⟩
  · exact absurd h (Option.some_ne_none _).symm

/-- A line of code that is no label is an instruction. -/
theorem codeCall_eq_instruction_iff {text : Text} :
    l.codeCall = .instruction text ↔ l.text = text ∧ text.head? ≠ some ':' := by
  unfold codeCall
  split
  · rename_i name heq
    refine iff_of_false Call.noConfusion fun ⟨htext, hhead⟩ => hhead ?_
    rw [← htext, heq]
    rfl
  · rename_i hlabel
    constructor
    · intro heq
      obtain rfl : l.text = text := Call.instruction.inj heq
      refine ⟨rfl, fun hhead => ?_⟩
      obtain ⟨rest, hrest⟩ := List.head?_eq_some_iff.mp hhead
      exact hlabel rest hrest
    · rintro ⟨rfl, -⟩
      rfl

end Line

/-! ## Calls outside annotations -/

/-- The text of a line has no blanks around it, and it does not start with a comment. -/
theorem startsCode_of_text {text : Text} {l : Line} (hl : lineOf text = some l)
    (htext : l.text = text) (hne : text ≠ []) : text.StartsCode := by
  obtain ⟨c, rest, rfl⟩ := List.exists_cons_of_ne_nil hne
  refine ⟨c, rest, rfl, ?_, ?_⟩
  · obtain ⟨s, -, rfl⟩ := Option.map_eq_some_iff.mp hl
    have htrimmed := isTrimmed_trim s.text
    exact htrimmed.1 c (congrArg List.head? htext)
  · rintro rfl
    rw [lineOf, scan_comment] at hl
    cases hl
    exact absurd htext (List.cons_ne_nil _ _).symm

namespace Call

/-- An instruction is read from its line exactly if its text stands for an instruction. -/
theorem isReadable_instruction_iff {text : Text} : (Call.instruction text).IsReadable ↔
    (Call.instruction text).IsLegible ∧ (Call.instruction text).IsOneLine := by
  constructor
  · rintro ⟨hinline, hne, hhead, l, hl, htext, hkept⟩
    have hcode := Line.codeCall_eq_instruction_iff.mpr ⟨htext, hhead⟩
    have hreads : l.bodyCall? = some (.instruction text) :=
      (Line.bodyCall?_of_isKept hkept).trans (congrArg some hcode)
    refine ⟨⟨text, l, rfl, hl, hreads⟩, isOneLine_of_isInline ?_ ?_⟩
    · rintro _ ⟨⟩
      exact hinline
    · rintro _ ⟨⟩
      exact startsCode_of_text hl htext hne
  · rintro ⟨⟨_, l, ⟨⟩, hl, hreads⟩, hone⟩
    obtain ⟨hinline, hblank, -⟩ := hone text rfl
    obtain ⟨hkept, hcode⟩ := Line.isKept_of_bodyCall? (show l.bodyCall? = _ from hreads)
    obtain ⟨htext, hhead⟩ := Line.codeCall_eq_instruction_iff.mp hcode
    refine ⟨hinline, ?_, hhead, l, hl, htext, hkept⟩
    rintro rfl
    exact hblank rfl

/-- A local variable is read from its line exactly if it has a type, or else neither a name nor
a signature. -/
theorem isLegible_localVariable_iff {register : Text} (h : register.IsIdentifier)
    {name : Option Text} {type : Option TypeName} (htype : ∀ t ∈ type, t.IsPlain)
    {signature : Option Text} :
    (Call.localVariable register name type signature).IsReadable ↔
      (Call.localVariable register name type signature).IsLegible := by
  cases type with
  | none =>
    constructor
    · intro huntyped
      obtain ⟨rfl, rfl⟩ := huntyped rfl
      exact isLegible_localVariable_none h
    · rintro ⟨_, l, ⟨⟩, hl, hreads⟩ -
      obtain ⟨rest, hrest⟩ : ∃ rest, Writer.localLine register name none signature =
          ".local".toList ++ ' ' :: rest := by
        unfold Writer.localLine
        simp only [List.append_assoc]
        exact ⟨_, rfl⟩
      rw [hrest] at hl
      have hd : l.directive? = some .localVariable :=
        directive?_of_lineOf (.of_all rfl rfl) (by rintro _ ⟨⟩; rfl) hl
      have hbody : l.bodyCall? = some (.localVariable register name none signature) := hreads
      rw [Line.bodyCall?, hd] at hbody
      obtain ⟨v, hv, heq⟩ := Line.exists_of_toOption_map hbody
      obtain ⟨-, hname, hnone, hsignature⟩ := Call.localVariable.inj heq
      have huntyped := Line.untyped_of_localVariable hv hnone
      rwa [hname, hsignature] at huntyped
  | some type =>
    exact iff_of_true (fun h => absurd h (Option.some_ne_none _))
      (isLegible_localVariable_some h name (htype type rfl) signature)

/-- A plain call with a line of its own is readable exactly if it is on one line and is read from
this line. -/
theorem HasPlainParts.isReadable_iff {call : Call} (h : call.HasPlainParts) {text : Text}
    (htext : call.line? = some text) :
    call.IsReadable ↔ call.IsLegible ∧ call.IsOneLine := by
  have hone : (∀ name access type v, call = .field name access type (some v) → v.IsInline) →
      call.kind ≠ .instruction → call.IsOneLine := by
    intro hvalue hkind
    refine isOneLine_of_isInline (fun text htext => h.isInline htext hvalue hkind) ?_
    rintro _ rfl
    exact absurd rfl hkind
  have hall : call.IsLegible → call.kind ≠ .field → call.kind ≠ .instruction →
      call.IsReadable → (call.IsReadable ↔ call.IsLegible ∧ call.IsOneLine) := by
    intro hlegible hfield hkind hreadable
    refine iff_of_true hreadable ⟨hlegible, hone ?_ hkind⟩
    rintro _ _ _ _ rfl
    exact absurd rfl hfield
  cases call with
  | header type access =>
    exact hall (isLegible_header h access) CallKind.noConfusion CallKind.noConfusion trivial
  | superType type =>
    exact hall (isLegible_superType h) CallKind.noConfusion CallKind.noConfusion trivial
  | implements type =>
    exact hall (isLegible_implements h) CallKind.noConfusion CallKind.noConfusion trivial
  | source name =>
    exact hall (isLegible_source name) CallKind.noConfusion CallKind.noConfusion trivial
  | field name access type initial =>
    obtain ⟨hname, htype, hvoid, hinitial⟩ := h
    cases initial with
    | none =>
      refine iff_of_true trivial ⟨isLegible_field hname access htype hvoid fun v hv => ?_, ?_⟩
      · exact absurd hv (Option.not_mem_none v)
      · exact hone (fun _ _ _ v heq => absurd (Call.field.inj heq).2.2.2
          (Option.some_ne_none v).symm) CallKind.noConfusion
    | some v =>
      constructor
      · intro hinline
        have hv : v.IsInline := hinline
        refine ⟨isLegible_field hname access htype hvoid ?_, hone ?_ CallKind.noConfusion⟩
        · rintro _ ⟨⟩
          exact ⟨hinitial v rfl, hv⟩
        · rintro _ _ _ _ ⟨⟩
          exact hv
      · rintro ⟨-, hline⟩
        have htext := (hline _ rfl).1
        unfold Writer.fieldLine Writer.directiveLine at htext
        simp only [List.mem_append, List.mem_cons, not_or] at htext
        exact htext.2.2.2.2
  | method name access signature =>
    exact hall (isLegible_method h.1 access h.2) CallKind.noConfusion CallKind.noConfusion trivial
  | annotationStart visibility type =>
    exact hall (isLegible_annotationStart h visibility) CallKind.noConfusion CallKind.noConfusion
      trivial
  | registers count =>
    exact hall (isLegible_counts h).1 CallKind.noConfusion CallKind.noConfusion trivial
  | locals count =>
    exact hall (isLegible_counts h).2.1 CallKind.noConfusion CallKind.noConfusion trivial
  | line number =>
    exact hall (isLegible_counts h).2.2 CallKind.noConfusion CallKind.noConfusion trivial
  | param register name =>
    exact hall (isLegible_param h name) CallKind.noConfusion CallKind.noConfusion trivial
  | paramEnd => exact hall isLegible_paramEnd CallKind.noConfusion CallKind.noConfusion trivial
  | label name => exact hall (isLegible_label h) CallKind.noConfusion CallKind.noConfusion trivial
  | instruction text => exact isReadable_instruction_iff
  | catching exception first last handler =>
    obtain ⟨hexception, hfirst, hlast, hhandler⟩ := h
    exact hall (isLegible_catching hfirst hlast hhandler hexception) CallKind.noConfusion
      CallKind.noConfusion trivial
  | catchAll first last handler =>
    obtain ⟨hfirst, hlast, hhandler⟩ := h
    exact hall (isLegible_catchAll hfirst hlast hhandler) CallKind.noConfusion
      CallKind.noConfusion trivial
  | localVariable register name type signature =>
    refine (isLegible_localVariable_iff h.1 h.2).trans (iff_self_and.mpr fun _ => ?_)
    exact hone nofun CallKind.noConfusion
  | endLocal register =>
    exact hall (isLegible_endLocal h) CallKind.noConfusion CallKind.noConfusion trivial
  | restartLocal register =>
    exact hall (isLegible_restartLocal h) CallKind.noConfusion CallKind.noConfusion trivial
  | prologue => exact hall isLegible_marks.1 CallKind.noConfusion CallKind.noConfusion trivial
  | epilogue => exact hall isLegible_marks.2 CallKind.noConfusion CallKind.noConfusion trivial
  | _ => exact absurd htext (Option.some_ne_none _).symm

end Call

/-! ## Calls about a class -/

/-- Pieces are parts of the calls, in their order. -/
theorem flatten_piecesFrom (nest : Nat) (calls : List Call) :
    (piecesFrom nest calls).flatten = calls := by
  induction calls generalizing nest with
  | nil => rfl
  | cons call rest ih =>
    rw [piecesFrom]
    split
    · rw [List.flatten_cons, ih]
      rfl
    · have hrest := ih (call.nestFrom nest)
      split
      · rename_i hpieces
        rw [hpieces] at hrest
        rw [← hrest]
        rfl
      · rename_i piece more hpieces
        rw [hpieces, List.flatten_cons] at hrest
        rw [List.flatten_cons, List.cons_append, hrest]

/-- The calls in an annotation have no line that is theirs alone. -/
theorem Block.line?_eq_none {validate : Bool} {s s' : Site} {block : List Call}
    (h : Block validate s block s') : ∀ call ∈ block, call.line? = none := by
  have hline : ∀ {s s' : Site} {call : Call}, s.accept validate call = some s' → s.nest ≠ 0 →
      call.line? = none := by
    intro s s' call hcall hnest
    obtain ⟨outer, houter⟩ := Nat.exists_eq_succ_of_ne_zero hnest
    have hnext := Site.next?_of_accept hcall
    rw [Site.next?_of_nest houter] at hnext
    obtain ⟨nest, hnest, -⟩ := Option.map_eq_some_iff.mp hnext
    cases call <;> first | rfl | exact absurd hnest (Option.some_ne_none _).symm
  induction h with
  | last h hnest => exact List.forall_mem_singleton.mpr (hline h (by omega))
  | step h hnest hmid hrest ih => exact List.forall_mem_cons.mpr ⟨hline h hnest, ih⟩

/-- A plain piece is legible, and its calls are on one line each, exactly if they are readable. -/
theorem IsPiece.legible_iff {piece : List Call} (h : IsPiece piece)
    (hplain : ∀ call ∈ piece, call.HasPlainParts) :
    (Legible piece ∧ ∀ call ∈ piece, call.IsOneLine) ↔ ∀ call ∈ piece, call.IsReadable := by
  cases h with
  | @single call hopens hcall =>
    have hparts := hplain call List.mem_cons_self
    rw [List.forall_mem_singleton, List.forall_mem_singleton]
    cases hline : call.line? with
    | some text =>
      rw [legible_singleton (by rintro rfl; exact Option.some_ne_none _ hline.symm) hopens,
        hparts.isReadable_iff hline]
    | none =>
      obtain rfl | hsuits := hcall
      · exact iff_of_true ⟨trivial, isOneLine_of_line?_eq_none rfl⟩ trivial
      · cases call with
        | param register name => cases name <;> exact absurd hline (Option.some_ne_none _)
        | _ =>
          first
          | exact absurd hsuits Bool.noConfusion
          | exact absurd hline (Option.some_ne_none _)
  | @annotated validate inner mid visibility type block hinner hblock =>
    obtain ⟨hheader, helements⟩ := List.forall_mem_cons.mp hplain
    have hlines : ∀ call ∈ block, call.IsOneLine := fun call hcall =>
      isOneLine_of_line?_eq_none (hblock.line?_eq_none call hcall)
    have hread := hblock.readBlock_iff helements
    rw [hinner] at hread
    have hlegible : Legible (.annotationStart visibility type :: block) ↔
        (Call.annotationStart visibility type).IsLegible ∧
          ∀ call ∈ block, call.IsReadable := and_congr_right fun _ => hread
    have hline : (Call.annotationStart visibility type).line? =
      some (Writer.annotationLine visibility type) := rfl
    rw [hlegible, List.forall_mem_cons, List.forall_mem_cons, hheader.isReadable_iff hline,
      and_iff_left hlines, and_right_comm]

/-- Plain calls are read back from their code exactly if all are readable and no annotation of the
class strays. -/
theorem strictCalls_codeOf_plain_iff {o : Options} {calls : List Call} {s : Site}
    (hrun : (Site.initial o.snippet).run o.validate calls = some s) (hs : s.Ends)
    (hplain : ∀ call ∈ calls, call.HasPlainParts) :
    strictCalls o (Writer.codeOf calls) = some calls ↔
      (∀ call ∈ calls, call.IsReadable) ∧ ¬Strays calls := by
  have htiled : Tiled o.validate (Site.initial o.snippet) calls :=
    .of_run hrun hs rfl fun h => absurd h (Option.some_ne_none _).symm
  have hall : ∀ {P : Call → Prop},
      (∀ call ∈ calls, P call) ↔ ∀ piece ∈ pieces calls, ∀ call ∈ piece, P call := by
    intro P
    have hflatten : (pieces calls).flatten = calls := flatten_piecesFrom 0 calls
    conv_lhs => rw [← hflatten]
    exact List.forall_mem_flatten
  have hpieces : (∀ call ∈ calls, call.IsReadable) ↔
      (∀ piece ∈ pieces calls, Legible piece) ∧ ∀ call ∈ calls, call.IsOneLine := by
    rw [hall, hall, ← forall₂_and]
    refine forall₂_congr fun piece hpiece => ?_
    exact ((htiled.isPiece piece hpiece).legible_iff fun call hcall =>
      hplain call (mem_of_mem_pieces hpiece hcall)).symm
  rw [hpieces]
  constructor
  · intro hread
    have hone := isOneLine_of_strictCalls hread
    obtain ⟨hlegible, hstrays⟩ := (strictCalls_codeOf_iff hrun hs hone).mp hread
    exact ⟨⟨hlegible, hone⟩, hstrays⟩
  · rintro ⟨⟨hlegible, hone⟩, hstrays⟩
    exact (strictCalls_codeOf_iff hrun hs hone).mpr ⟨hlegible, hstrays⟩

end Smali
