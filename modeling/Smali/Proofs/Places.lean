import Smali.Proofs.Blanks
import Smali.Proofs.KindredLines
import Smali.Proofs.QuotedBodies
import Smali.Proofs.StrictReader

/-!
# Places do not matter

A strict reading without comments looks at the code of a line, but not at its place nor at the
words of its comment. So the calls of a source depend on nothing but its lines without the
blanks around them, and lines that are blank do not count.
-/

namespace Smali

/-! ## Lines without places -/

namespace Line

variable (l : Line)

/-- A line is read as it is without its places, if comments are not told. -/
theorem akin_unplaced : l.Akin .byKind .default l.unplaced := by
  refine ⟨?_, rfl, l.isComment_unplaced.symm, fun hcomments => absurd hcomments (by decide), trivial⟩
  rw [unplaced, List.map_map]
  rfl

/-- The type of a descriptor. -/
@[simp]
theorem toOption_parseType (t : Text) : (l.parseType t).toOption = TypeName.parse? t := by
  rw [parseType, toOption_mapError, TypeName.parse]
  cases TypeName.parse? t <;> rfl

@[simp]
theorem classHeader_unplaced : l.unplaced.classHeader.toOption = l.classHeader.toOption :=
  l.akin_unplaced.classHeader.toOption_eq.symm

@[simp]
theorem singleType_unplaced : l.unplaced.singleType.toOption = l.singleType.toOption :=
  l.akin_unplaced.singleType.toOption_eq.symm

@[simp]
theorem sourceName_unplaced : l.unplaced.sourceName.toOption = l.sourceName.toOption :=
  l.akin_unplaced.sourceName.toOption_eq.symm

@[simp]
theorem count_unplaced : l.unplaced.count.toOption = l.count.toOption :=
  l.akin_unplaced.count.toOption_eq.symm

@[simp]
theorem param_unplaced : l.unplaced.param.toOption = l.param.toOption :=
  l.akin_unplaced.param.toOption_eq.symm

@[simp]
theorem localRegister_unplaced : l.unplaced.localRegister.toOption = l.localRegister.toOption :=
  l.akin_unplaced.localRegister.toOption_eq.symm

@[simp]
theorem localVariable_unplaced : l.unplaced.localVariable.toOption = l.localVariable.toOption :=
  l.akin_unplaced.localVariable.toOption_eq.symm

@[simp]
theorem handler_unplaced : l.unplaced.handler.toOption = l.handler.toOption :=
  l.akin_unplaced.handler.toOption_eq.symm

@[simp]
theorem field_unplaced : l.unplaced.field.toOption = l.field.toOption :=
  l.akin_unplaced.field.toOption_eq.symm

@[simp]
theorem method_unplaced : l.unplaced.method.toOption = l.method.toOption :=
  l.akin_unplaced.method.toOption_eq.symm

@[simp]
theorem annotationHeader_unplaced :
    l.unplaced.annotationHeader.toOption = l.annotationHeader.toOption :=
  l.akin_unplaced.annotationHeader.toOption_eq.symm

/-! ## Calls without places -/

@[simp]
theorem annotationCall?_unplaced : l.unplaced.annotationCall? = l.annotationCall? := by
  rw [annotationCall?, annotationCall?, annotationHeader_unplaced]

@[simp]
theorem classCall?_unplaced : l.unplaced.classCall? = l.classCall? := by
  simp only [classCall?, directive?_unplaced, classHeader_unplaced, singleType_unplaced,
    sourceName_unplaced, field_unplaced, method_unplaced, annotationCall?_unplaced]

@[simp]
theorem codeCall_unplaced : l.unplaced.codeCall = l.codeCall := rfl

@[simp]
theorem closingCall?_unplaced : l.unplaced.closingCall? = l.closingCall? := by
  simp only [closingCall?, closes_unplaced, localRegister_unplaced, codeCall_unplaced]

@[simp]
theorem catchingCall?_unplaced : l.unplaced.catchingCall? = l.catchingCall? := by
  simp only [catchingCall?, handler_unplaced, toOption_parseType]

@[simp]
theorem catchAllCall?_unplaced : l.unplaced.catchAllCall? = l.catchAllCall? := by
  rw [catchAllCall?, catchAllCall?, handler_unplaced]

@[simp]
theorem bodyCall?_unplaced : l.unplaced.bodyCall? = l.bodyCall? := by
  simp only [bodyCall?, directive?_unplaced, codeCall_unplaced, annotationCall?_unplaced,
    closingCall?_unplaced, count_unplaced, param_unplaced, catchingCall?_unplaced,
    catchAllCall?_unplaced, localVariable_unplaced, localRegister_unplaced]

@[simp]
theorem element?_unplaced : l.unplaced.element? = l.element? := by
  simp only [element?, text_unplaced, toOption_parseType]

@[simp]
theorem isEndedBy_unplaced : Gathering.isEndedBy l.unplaced = Gathering.isEndedBy l := by
  simp only [Gathering.isEndedBy, endOf?_unplaced, directive?_unplaced]

end Line

namespace Stance

/-- A step does not depend on places. -/
theorem take_unplaced (validate : Bool) (s : Stance) (l : Line) :
    s.take validate l.unplaced = s.take validate l := by
  simp only [take, inArray?, inAnnotation?, inField?, inClass?, Line.isComment_unplaced,
    Line.isEndedBy_unplaced, Line.text_unplaced, Line.directive?_unplaced, Line.element?_unplaced,
    Line.closes_unplaced, Line.annotationCall?_unplaced, Line.classCall?_unplaced,
    Line.bodyCall?_unplaced]
  rfl

/-- Steps over lines do not depend on places. -/
theorem takeAll_unplaced (validate : Bool) (s : Stance) (lines : List (Option Line)) :
    s.takeAll validate (lines.map (Option.map Line.unplaced)) = s.takeAll validate lines := by
  induction lines generalizing s with
  | nil => rfl
  | cons line rest ih =>
    cases line with
    | none => rfl
    | some l =>
      simp only [List.map_cons, Option.map_some, takeAll, take_unplaced, ih]

end Stance

/-! ## Scanning anywhere -/

namespace Scanned

/-- What a scan finds, up to places and blanks at the end. -/
structure Alike (a b : Scanned) : Prop where
  /-- The code is the same. -/
  code : a.code.map Token.unplaced = b.code.map Token.unplaced
  /-- The characters before the comment are the same up to blanks at the end. -/
  text : Text.trimRight a.text = Text.trimRight b.text
  /-- The words of a comment are the same. -/
  remark : a.remark.map (commentBody ∘ Prod.fst) = b.remark.map (commentBody ∘ Prod.fst)

/-- The same behind a blank. -/
theorem Alike.skip {a b : Scanned} (h : Alike a b) (c : Char) :
    Alike (a.skip c) (b.skip c) := by
  refine ⟨h.code, ?_, h.remark⟩
  have ht := Text.trimRight_append_trimRight [c] a.text
  rw [h.text, Text.trimRight_append_trimRight] at ht
  exact ht.symm

/-- The same behind a token. -/
theorem Alike.push {a b : Scanned} (h : Alike a b) (kind : TokenKind) (text : Text)
    (position position' : Position) :
    Alike (a.push kind text position) (b.push kind text position') := by
  refine ⟨congrArg (_ :: ·) h.code, ?_, h.remark⟩
  have ht := Text.trimRight_append_trimRight text a.text
  rw [h.text, Text.trimRight_append_trimRight] at ht
  exact ht.symm

end Scanned

/-- Scans that both find something alike, or both fail. -/
def ScansAlike (a b : Except Fault Scanned) : Prop :=
  match a, b with
  | .ok a, .ok b => a.Alike b
  | .error _, .error _ => True
  | _, _ => False

/-- The same behind something. -/
theorem ScansAlike.map {a b : Except Fault Scanned} (h : ScansAlike a b)
    {f g : Scanned → Scanned} (hf : ∀ {a b}, Scanned.Alike a b → Scanned.Alike (f a) (g b)) :
    ScansAlike (a.map f) (b.map g) := by
  cases a with
  | error fault =>
    cases b with
    | error fault' => trivial
    | ok b => exact absurd h id
  | ok a =>
    cases b with
    | error fault' => exact absurd h id
    | ok b => exact hf h

/-- Blanks end a quoted literal as little as they continue an escape. -/
theorem takeBody?_append_blank {w : Text} (hw : Text.IsBlank w) {quote : Char}
    (hquote : Text.isBlank quote = false) (t : Text) :
    Literal.takeBody? quote (t ++ w) =
      (Literal.takeBody? quote t).map fun (body, after) => (body, after ++ w) := by
  cases h : Literal.takeBody? quote t with
  | some found => exact takeBody?_append h w
  | none =>
    refine Option.eq_none_iff_forall_ne_some.mpr ?_
    rintro ⟨body, after⟩ hfound
    obtain ⟨hslash, htext, hbody⟩ := Literal.takeBody?_eq_some_iff.mp hfound
    have hout : quote ∉ w := fun hmem => Bool.false_ne_true (hquote.symm.trans (hw _ hmem))
    -- the quote is no blank, so the body and it are in front of the blanks
    obtain ⟨v, -, hv⟩ | ⟨v, rfl, hv⟩ := List.append_eq_append_iff.mp htext
    · exact hout (hv ▸ List.mem_append_right v List.mem_cons_self)
    · cases v with
      | nil =>
        obtain rfl : quote :: after = w := hv
        exact hout List.mem_cons_self
      | cons c v =>
        obtain ⟨rfl, -⟩ := List.cons.inj hv
        exact Option.some_ne_none _ ((hbody.takeBody?_eq hslash v).symm.trans h)

/-- A word that starts a text ends before a character that ends words. -/
theorem takeWhile_append_end {u : Text} (hu : ∀ c ∈ u.head?, endsWord c = true) (t : Text) :
    (t ++ u).takeWhile (!endsWord ·) = t.takeWhile (!endsWord ·) ∧
      (t ++ u).dropWhile (!endsWord ·) = t.dropWhile (!endsWord ·) ++ u := by
  induction t with
  | nil =>
    cases u with
    | nil => exact ⟨rfl, rfl⟩
    | cons c u => simp [hu c rfl]
  | cons c t ih =>
    cases hc : endsWord c with
    | false => simp [hc, ih.1, ih.2]
    | true => simp [hc]

/-- Blanks end words. -/
theorem endsWord_of_isBlank {w : Text} (hw : Text.IsBlank w) : ∀ c ∈ w.head?, endsWord c = true := by
  intro c hc
  have hblank := hw c (List.mem_of_mem_head? hc)
  simp [endsWord, hblank]

/-- A blank is skipped. -/
theorem scan_blank (number column : Nat) {c : Char} (hc : Text.isBlank c = true) (rest : Text) :
    scan number column (c :: rest) = (scan number (column + 1) rest).map (.skip c) := by
  rw [scan, if_pos hc]

/-- Blanks alone are all skipped. -/
theorem scan_of_isBlank {w : Text} (hw : Text.IsBlank w) (number column : Nat) :
    scan number column w = .ok ⟨[], w, none⟩ := by
  induction w generalizing column with
  | nil =>
    rw [scan]
    rfl
  | cons c w ih =>
    obtain ⟨hc, hw⟩ := Text.isBlank_cons.mp hw
    rw [scan_blank _ _ hc, ih hw]
    rfl

/-- A number sign opens a comment. -/
theorem scan_comment (number column : Nat) (rest : Text) :
    scan number column ('#' :: rest) = .ok ⟨[], [], some ('#' :: rest, ⟨number, column⟩)⟩ := by
  rw [scan, if_neg (by decide), if_pos rfl]

/-- The kind of a quoted literal. -/
def quoteKind (c : Char) : TokenKind := if c = '"' then .stringLiteral else .charLiteral

/-- A quoted literal. -/
theorem scan_quote (number column : Nat) {c : Char} (hc : c = '"' ∨ c = '\'')
    {rest body after : Text} (h : Literal.takeBody? c rest = some (body, after)) :
    scan number column (c :: rest) =
      (scan number (column + (c :: body ++ [c]).length) after).map
        (.push (quoteKind c) (c :: body ++ [c]) ⟨number, column⟩) := by
  rw [scan]
  rcases hc with rfl | rfl
  · rw [if_neg (by decide), if_neg (by decide), if_pos (.inl rfl)]
    split
    · rename_i h'
      obtain ⟨rfl, rfl⟩ := Prod.mk.inj (Option.some.inj (h'.symm.trans h))
      rfl
    · rename_i h'
      simp [h'] at h
  · rw [if_neg (by decide), if_neg (by decide), if_pos (.inr rfl)]
    split
    · rename_i h'
      obtain ⟨rfl, rfl⟩ := Prod.mk.inj (Option.some.inj (h'.symm.trans h))
      rfl
    · rename_i h'
      simp [h'] at h

/-- A quote without its partner. -/
theorem scan_openQuote (number column : Nat) {c : Char} (hc : c = '"' ∨ c = '\'') {rest : Text}
    (h : Literal.takeBody? c rest = none) :
    scan number column (c :: rest) = .error (.located .lexical ⟨number, column⟩
      ("unterminated or malformed literal " ++ c :: rest)) := by
  rw [scan]
  rcases hc with rfl | rfl
  · rw [if_neg (by decide), if_neg (by decide), if_pos (.inl rfl)]
    split
    · rename_i h'
      simp [h'] at h
    · rfl
  · rw [if_neg (by decide), if_neg (by decide), if_pos (.inr rfl)]
    split
    · rename_i h'
      simp [h'] at h
    · rfl

/-- A mark is a token of its own. -/
theorem scan_mark (number column : Nat) {c : Char} (hc : isMark c = true) (rest : Text) :
    scan number column (c :: rest) =
      (scan number (column + 1) rest).map (.push .punctuation [c] ⟨number, column⟩) := by
  have hcases : c = '\x7b' ∨ c = '\x7d' ∨ c = ',' ∨ c = '=' := by
    simpa [isMark, or_assoc] using hc
  rw [scan]
  rcases hcases with rfl | rfl | rfl | rfl <;>
    rw [if_neg (by decide), if_neg (by decide), if_neg (by decide), if_pos (by decide)]

/-- Whether a character starts a word. -/
def startsWord (c : Char) : Bool :=
  !Text.isBlank c && c != '#' && c != '"' && c != '\'' && !isMark c

/-- A word. -/
theorem scan_word (number column : Nat) {c : Char} (hc : startsWord c = true) (rest : Text) :
    scan number column (c :: rest) =
      match classify (c :: rest.takeWhile (!endsWord ·)) ⟨number, column⟩ with
      | .ok kind =>
        (scan number (column + (c :: rest.takeWhile (!endsWord ·)).length)
          (rest.dropWhile (!endsWord ·))).map
          (.push kind (c :: rest.takeWhile (!endsWord ·)) ⟨number, column⟩)
      | .error fault => .error fault := by
  simp only [startsWord, Bool.and_eq_true, Bool.not_eq_true', bne_iff_ne, ne_eq] at hc
  obtain ⟨⟨⟨⟨hblank, hsign⟩, hdouble⟩, hsingle⟩, hmark⟩ := hc
  rw [scan, if_neg (by simp [hblank]), if_neg hsign, if_neg (by simp [hdouble, hsingle])]
  exact if_neg (by simp [hmark])

/-- The kind of a word. -/
theorem toOption_classify (word : Text) (position position' : Position) :
    (classify word position).toOption = (classify word position').toOption := by
  unfold classify
  split
  · rfl
  · split
    · rfl
    · split
      · rfl
      · split
        · rfl
        · split <;> rfl

/-- Blanks at the end do not belong to a comment. -/
theorem commentBody_append {w : Text} (hw : Text.IsBlank w) (rest : Text) :
    commentBody ('#' :: (rest ++ w)) = commentBody ('#' :: rest) := by
  unfold commentBody
  simp only [List.drop_succ_cons, List.drop_zero]
  cases rest with
  | nil =>
    rw [List.nil_append]
    have hnone : Text.trimRight ((Text.after? [' '] ([] : Text)).getD []) = [] := rfl
    rw [hnone]
    cases w with
    | nil => rfl
    | cons c w =>
      by_cases hc : c = ' '
      · subst hc
        exact Text.trimRight_eq_nil.mpr (Text.isBlank_cons.mp hw).2
      · have hafter : Text.after? [' '] (c :: w) = none := if_neg (Ne.symm hc)
        rw [hafter]
        exact Text.trimRight_eq_nil.mpr hw
  | cons c rest =>
    by_cases hc : c = ' '
    · subst hc
      exact Text.trimRight_append hw rest
    · have hafter : ∀ t : Text, Text.after? [' '] (c :: t) = none := fun t => if_neg (Ne.symm hc)
      rw [List.cons_append, hafter, hafter]
      exact Text.trimRight_append hw (c :: rest)

/-- A scan finds the same everywhere, and blanks at the end do not matter to it. -/
theorem scan_alike {w : Text} (hw : Text.IsBlank w) (number column number' column' : Nat)
    (t : Text) : ScansAlike (scan number column t) (scan number' column' (t ++ w)) := by
  have hquote : ∀ {c : Char}, c = '"' ∨ c = '\'' → Text.isBlank c = false := by
    rintro c (rfl | rfl) <;> decide
  have hends := endsWord_of_isBlank hw
  fun_induction scan number column t generalizing number' column' with
  | case1 column =>
    rw [List.nil_append, scan_of_isBlank hw]
    exact ⟨rfl, (Text.trimRight_eq_nil.mpr hw).symm, rfl⟩
  | case2 column c rest hc ih =>
    rw [List.cons_append, scan_blank _ _ hc]
    exact (ih _ _).map fun h => h.skip c
  | case3 column rest =>
    rw [List.cons_append, scan_comment]
    exact ⟨rfl, rfl, congrArg some (commentBody_append hw rest).symm⟩
  | case4 column c rest position hblank hsign hc body after h _ text kind ih =>
    have h' : Literal.takeBody? c (rest ++ w) = some (body, after ++ w) := by
      rw [takeBody?_append_blank hw (hquote hc), h]
      rfl
    rw [List.cons_append, scan_quote _ _ hc h']
    exact (ih _ _).map fun h => h.push _ _ _ _
  | case5 column c rest position hblank hsign hc h =>
    have h' : Literal.takeBody? c (rest ++ w) = none := by
      rw [takeBody?_append_blank hw (hquote hc), h]
      rfl
    have hfault := scan_openQuote number' column' hc h'
    rw [List.cons_append, hfault]
    trivial
  | case6 column c rest position hblank hsign hc hmark ih =>
    rw [List.cons_append, scan_mark _ _ hmark]
    exact (ih _ _).map fun h => h.push _ _ _ _
  | case7 column c rest position hblank hsign hc hmark word _ kind hkind ih =>
    have hword : startsWord c = true := by
      simp_all [startsWord]
    rw [List.cons_append, scan_word _ _ hword, (takeWhile_append_end hends rest).1,
      (takeWhile_append_end hends rest).2]
    have hkind' := toOption_classify word position ⟨number', column'⟩
    rw [hkind] at hkind'
    cases hk : classify word ⟨number', column'⟩ with
    | error fault => simp [hk] at hkind'
    | ok kind' =>
      rw [hk] at hkind'
      obtain rfl := Option.some.inj hkind'
      exact (ih _ _).map fun h => h.push _ _ _ _
  | case8 column c rest position hblank hsign hc hmark word _ fault hkind =>
    have hword : startsWord c = true := by
      simp_all [startsWord]
    rw [List.cons_append, scan_word _ _ hword, (takeWhile_append_end hends rest).1,
      (takeWhile_append_end hends rest).2]
    have hkind' := toOption_classify word position ⟨number', column'⟩
    rw [hkind] at hkind'
    cases hk : classify word ⟨number', column'⟩ with
    | error fault => trivial
    | ok kind' => simp [hk] at hkind'

/-! ## Code lines -/

/-- The line of what a scan finds, without places. -/
def Scanned.line (s : Scanned) : Line :=
  ⟨s.code.map Token.unplaced, Text.trim s.text,
    s.remark.map fun _ => ⟨if s.code.isEmpty then .comment else .eolComment, [], ⟨0, 0⟩⟩,
    ⟨0, 0⟩⟩

/-- The line of a text, without places. -/
def lineOf (t : Text) : Option Line := (scan 1 1 t).toOption.map Scanned.line

/-- A physical line without places. -/
theorem unplaced_ofText (number : Nat) (t : Text) :
    (Line.ofText number t).toOption.map Line.unplaced =
      (scan number 1 t).toOption.map Scanned.line := by
  unfold Line.ofText
  cases scan number 1 t with
  | error fault => rfl
  | ok s =>
    obtain ⟨code, text, remark⟩ := s
    cases remark <;> rfl

/-- What a view makes of a scan depends neither on places nor on the blanks around. -/
structure Scanned.IsView {β : Type} (view : Scanned → β) : Prop where
  /-- It is the same of scans that are alike. -/
  alike : ∀ {a b : Scanned}, a.Alike b → view a = view b
  /-- A blank in front does not change it. -/
  skip : ∀ {c : Char}, Text.isBlank c = true → ∀ s : Scanned, view (s.skip c) = view s

/-- A line without places is a view. -/
theorem Scanned.isView_line : IsView Scanned.line := by
  refine ⟨fun {a b} h => ?_, fun {c} hc s => ?_⟩
  · have hcode : a.code.isEmpty = b.code.isEmpty := by
      have := congrArg List.isEmpty h.code
      rwa [List.isEmpty_map, List.isEmpty_map] at this
    have htext : Text.trim a.text = Text.trim b.text := by
      rw [← Text.trim_trimRight, h.text, Text.trim_trimRight]
    have hremark := congrArg (Option.map fun _ =>
      (⟨if a.code.isEmpty then .comment else .eolComment, [], ⟨0, 0⟩⟩ : Token)) h.remark
    rw [Option.map_map, Option.map_map] at hremark
    unfold line
    rw [h.code, htext, ← hcode]
    exact congrArg (Line.mk _ _ · _) hremark
  · have ht := Text.trim_append_left (w := [c]) (by simpa [Text.IsBlank] using hc) s.text
    simp only [line, skip]
    rw [← ht]
    rfl

namespace Scanned.IsView

variable {β : Type} {view : Scanned → β}

/-- Blanks at the start are skipped. -/
theorem append_left (h : IsView view) {w : Text} (hw : Text.IsBlank w) (number column : Nat)
    (t : Text) :
    (scan number column (w ++ t)).toOption.map view =
      (scan number (column + w.length) t).toOption.map view := by
  induction w generalizing column with
  | nil => rfl
  | cons c w ih =>
    obtain ⟨hc, hw⟩ := Text.isBlank_cons.mp hw
    rw [List.cons_append, scan_blank _ _ hc, toOption_map, Option.map_map, List.length_cons,
      ← Nat.add_assoc, Nat.add_right_comm, ← ih hw]
    exact congrArg (Option.map · _) (funext (h.skip hc))

/-- Scans that are alike have the same views. -/
theorem scansAlike (h : IsView view) {a b : Except Fault Scanned} (hab : ScansAlike a b) :
    a.toOption.map view = b.toOption.map view := by
  cases a with
  | error fault =>
    cases b with
    | error fault' => rfl
    | ok b => exact absurd hab id
  | ok a =>
    cases b with
    | error fault' => exact absurd hab id
    | ok b => exact congrArg some (h.alike hab)

/-- The view of a text is that of the text without the blanks around it, wherever it stands. -/
theorem scan_trim (h : IsView view) (number column : Nat) (t : Text) :
    (scan number column t).toOption.map view = (scan 1 1 (Text.trim t)).toOption.map view := by
  obtain ⟨before, after, hbefore, hafter, ht⟩ := Text.exists_trim t
  conv =>
    lhs
    rw [ht]
  rw [h.append_left hbefore]
  exact (h.scansAlike (scan_alike hafter 1 1 number (column + before.length) (Text.trim t))).symm

end Scanned.IsView

/-- The line of a text is that of the text without the blanks around it, wherever it stands. -/
theorem unplaced_ofText_eq_lineOf (number : Nat) (t : Text) :
    (Line.ofText number t).toOption.map Line.unplaced = lineOf (Text.trim t) := by
  rw [unplaced_ofText]
  exact Scanned.isView_line.scan_trim number 1 t

/-- The lines of a source are those of its code lines, if each is that of its text without the
blanks around it. -/
theorem view_scanLines {β : Type} {f : Line → β} {g : Text → Option β}
    (hview : ∀ number t, (Line.ofText number t).toOption.map f = g (Text.trim t)) (source : Text) :
    ((scanLines source).map Except.toOption).map (Option.map f) =
      (Text.codeLines source).map g := by
  unfold scanLines physicalLines Text.codeLines
  generalize Text.lines source = lines
  rw [List.map_map, List.map_map]
  generalize 1 = number
  induction lines generalizing number with
  | nil => rfl
  | cons t rest ih =>
    rw [List.zipIdx_cons, List.filterMap_cons, List.map_cons, List.filter_cons]
    dsimp only
    cases ht : (Text.trim t).isEmpty with
    | true => simpa using ih (number + 1)
    | false =>
      have hline := hview number t
      simp only [Bool.false_eq_true, if_false, List.map_cons, Bool.not_false, if_true,
        Function.comp_apply, hline, ih]

/-- The lines of a source, without places, are those of its code lines. -/
theorem unplaced_scanLines (source : Text) :
    ((scanLines source).map Except.toOption).map (Option.map Line.unplaced) =
      (Text.codeLines source).map lineOf :=
  view_scanLines unplaced_ofText_eq_lineOf source

/-- The calls of a source are those of its code lines. -/
theorem strictCalls_eq (o : Options) (source : Text) :
    strictCalls o source =
      (Stance.initial o.snippet).readAll o.validate ((Text.codeLines source).map lineOf) := by
  rw [strictCalls, Stance.readAll, Stance.readAll, ← unplaced_scanLines, Stance.takeAll_unplaced]

end Smali
