import Smali.Proofs.Braces

/-!
# Divisions

The scan of a list keeps the quotes it is in, the depth it has come to, and whether it met a comma
that divides the list. A text is closed if the scan comes back to its start behind it. Texts with
commas between them are the parts of their list exactly if all but the last are closed and the last
is not divided. The blanks at line ends do not matter to the scan, so that only the code lines of
the texts count.
-/

namespace Smali.Literal

open Text

/-! ## Quotes -/

/-- Whether a scan can come here: only two characters open quotes. -/
def Quoting.IsProper : Quoting → Prop
  | .outside => True
  | .inside quote | .escaped quote => quote = '"' ∨ quote = '\''

/-- It goes on to such places. -/
theorem Quoting.IsProper.next {q : Quoting} (h : q.IsProper) (c : Char) : (q.next c).IsProper := by
  cases q with
  | outside =>
    rw [Quoting.next]
    split
    · assumption
    · trivial
  | inside quote =>
    rw [Quoting.next]
    split
    · exact h
    · split
      · trivial
      · exact h
  | escaped quote => exact h

/-- Behind a character that is neither a quote nor a backslash. -/
def Quoting.settle : Quoting → Quoting
  | .outside => .outside
  | .inside quote | .escaped quote => .inside quote

/-- The step over such a character. -/
theorem Quoting.IsProper.next_eq_settle {q : Quoting} (h : q.IsProper) {c : Char} (hdouble : c ≠ '"')
    (hsingle : c ≠ '\'') (hbackslash : c ≠ '\\') : q.next c = q.settle := by
  cases q with
  | outside => exact if_neg (not_or.mpr ⟨hdouble, hsingle⟩)
  | inside quote =>
    have hquote : c ≠ quote := by
      rintro rfl
      exact h.elim hdouble hsingle
    rw [Quoting.next, if_neg hbackslash, if_neg hquote]
    rfl
  | escaped quote => rfl

/-! ## Scans -/

/-- How far a scan has come. -/
structure Scan where
  /-- The quotes it is in. -/
  quoting : Quoting
  /-- Opening less closing braces. -/
  depth : Int
  /-- Whether it met a comma outside quotes at depth zero. -/
  divided : Bool
  deriving DecidableEq

namespace Scan

/-- A scan from outside quotes at some depth. -/
def atDepth (depth : Int) : Scan := ⟨.outside, depth, false⟩

/-- Its quotes are proper. -/
theorem isProper_atDepth (depth : Int) : (atDepth depth).quoting.IsProper := trivial

/-- The step over one character. -/
def step (s : Scan) (c : Char) : Scan :=
  ⟨s.quoting.next c, s.depth + s.quoting.weight c,
    s.divided || decide (c = ',' ∧ s.quoting = .outside ∧ s.depth = 0)⟩

/-- The steps over a text. -/
def past (s : Scan) (t : Text) : Scan := t.foldl step s

@[simp]
theorem past_nil (s : Scan) : s.past [] = s := rfl

@[simp]
theorem past_cons (s : Scan) (c : Char) (t : Text) : s.past (c :: t) = (s.step c).past t := rfl

/-- Two texts. -/
theorem past_append (s : Scan) (t u : Text) : s.past (t ++ u) = (s.past t).past u :=
  List.foldl_append

/-- Quotes stay proper. -/
theorem isProper_past {s : Scan} (h : s.quoting.IsProper) (t : Text) :
    (s.past t).quoting.IsProper := by
  induction t generalizing s with
  | nil => exact h
  | cons c t ih => exact ih (h.next c)

/-- A comma that was met stays so. -/
theorem divided_past {s : Scan} (h : s.divided = true) (t : Text) : (s.past t).divided = true := by
  induction t generalizing s with
  | nil => exact h
  | cons c t ih => exact ih (by rw [step, h, Bool.true_or])

/-- The depth counts braces. -/
theorem depth_past (s : Scan) (t : Text) : (s.past t).depth = s.depth + depthFrom s.quoting t := by
  induction t generalizing s with
  | nil => exact (Int.add_zero _).symm
  | cons c t ih => rw [past_cons, ih, depthFrom, ← Int.add_assoc]; rfl

/-- The quotes do not depend on the depth. -/
theorem quoting_past (s : Scan) (t : Text) : (s.past t).quoting = t.foldl Quoting.next s.quoting := by
  induction t generalizing s with
  | nil => rfl
  | cons c t ih => exact ih (s.step c)

end Scan

/-- A scan that goes nowhere below its start is one of these. -/
theorem past_of_scanTo {q q' : Quoting} {depth depth' : Nat} {t : Text}
    (h : scanTo (q, depth) t = some (q', depth')) :
    (⟨q, depth, false⟩ : Scan).past t = ⟨q', depth', false⟩ := by
  induction t generalizing q depth with
  | nil =>
    obtain ⟨rfl, rfl⟩ := Prod.mk.inj (Option.some.inj h)
    rfl
  | cons c t ih =>
    rw [scanTo_cons] at h
    obtain ⟨⟨q₁, depth₁⟩, hstep, hrest⟩ := Option.bind_eq_some_iff.mp h
    obtain ⟨rfl, hdepth, hcomma⟩ := of_scanStep hstep
    have hnext : (⟨q, depth, false⟩ : Scan).step c = ⟨q.next c, depth₁, false⟩ := by
      rw [Scan.step, ← hdepth, Bool.false_or, decide_eq_false hcomma]
    rw [Scan.past_cons, hnext]
    exact ih hrest

/-! ## Parts -/

/-- Whether no comma divides a text. -/
def IsUndivided (t : Text) : Prop := ((Scan.atDepth 0).past t).divided = false

/-- Whether no comma divides a text, and a scan comes back to its start. -/
def IsClosed (t : Text) : Prop := (Scan.atDepth 0).past t = .atDepth 0

instance (t : Text) : Decidable (IsUndivided t) :=
  inferInstanceAs (Decidable (((Scan.atDepth 0).past t).divided = false))

instance (t : Text) : Decidable (IsClosed t) :=
  inferInstanceAs (Decidable ((Scan.atDepth 0).past t = .atDepth 0))

/-- A level text is closed. -/
theorem IsLevel.isClosed {t : Text} (h : IsLevel t) : IsClosed t := past_of_scanTo h

/-- A closed text is not divided. -/
theorem IsClosed.isUndivided {t : Text} (h : IsClosed t) : IsUndivided t :=
  congrArg Scan.divided h

/-- A closed text in front does not matter. -/
theorem IsClosed.past_append {t : Text} (h : IsClosed t) (u : Text) :
    (Scan.atDepth 0).past (t ++ u) = (Scan.atDepth 0).past u := by
  rw [Scan.past_append, h]

/-- A text that is not divided belongs to one part. -/
theorem partsFrom_append {s : Scan} {t : Text} (h : (s.past t).divided = false) (rest : Text) :
    partsFrom s.quoting s.depth (t ++ rest) =
      (partsFrom (s.past t).quoting (s.past t).depth rest).modifyHead (t ++ ·) := by
  induction t generalizing s with
  | nil => cases hparts : partsFrom s.quoting s.depth rest <;> simp [hparts]
  | cons c t ih =>
    have hcomma : ¬(c = ',' ∧ s.quoting = .outside ∧ s.depth = 0) := by
      intro hcomma
      have hdivided : (s.step c).divided = true := by
        rw [Scan.step, decide_eq_true hcomma, Bool.or_true]
      rw [Scan.past_cons, Scan.divided_past hdivided] at h
      exact Bool.noConfusion h
    have hrest := ih h
    rw [List.cons_append, partsFrom, if_neg hcomma]
    rw [Scan.step] at hrest
    rw [hrest, Scan.past_cons, Scan.step]
    cases hparts : partsFrom ((s.step c).past t).quoting ((s.step c).past t).depth rest with
    | nil => exact absurd hparts (partsFrom_ne_nil _ _ _)
    | cons part more =>
      rw [Scan.step] at hparts
      rw [hparts]
      rfl

/-- It is the only part of its list. -/
theorem partsFrom_of_isUndivided {t : Text} (h : IsUndivided t) : partsFrom .outside 0 t = [t] := by
  have hparts := partsFrom_append h []
  rw [List.append_nil] at hparts
  exact hparts.trans (by simp [partsFrom])

/-- A closed text up to a comma is a part. -/
theorem partsFrom_of_isClosed {t : Text} (h : IsClosed t) (rest : Text) :
    partsFrom .outside 0 (t ++ ',' :: rest) = t :: partsFrom .outside 0 rest := by
  have hparts := partsFrom_append h.isUndivided (',' :: rest)
  have hcomma : partsFrom .outside 0 (',' :: rest) = [] :: partsFrom .outside 0 rest := by
    rw [partsFrom, if_pos ⟨rfl, rfl, rfl⟩]
    rfl
  rw [h] at hparts
  refine hparts.trans ?_
  rw [Scan.atDepth, hcomma, List.modifyHead_cons, List.append_nil]

/-- The first part is the whole text and not divided, or it is closed and stands up to a comma. -/
theorem exists_of_partsFrom {t part : Text} {more : List Text}
    (h : partsFrom .outside 0 t = part :: more) :
    (part = t ∧ more = [] ∧ IsUndivided t) ∨
      ∃ rest, t = part ++ ',' :: rest ∧ IsClosed part ∧ partsFrom .outside 0 rest = more := by
  have hall : ∀ (t : Text) {s : Scan} {part : Text}, s.divided = false →
      partsFrom s.quoting s.depth t = part :: more →
      (part = t ∧ more = [] ∧ (s.past t).divided = false) ∨
        ∃ rest, t = part ++ ',' :: rest ∧ s.past part = .atDepth 0 ∧
          partsFrom .outside 0 rest = more := by
    intro t
    induction t with
    | nil =>
      intro s part hs h
      obtain ⟨rfl, rfl⟩ := List.cons.inj h
      exact .inl ⟨rfl, rfl, hs⟩
    | cons c t ih =>
      intro s part hs h
      rw [partsFrom] at h
      split at h
      · rename_i hcomma
        obtain ⟨rfl, hquoting, hdepth⟩ := hcomma
        obtain ⟨rfl, rfl⟩ := List.cons.inj h
        obtain ⟨q, depth, divided⟩ := s
        cases hs
        cases hquoting
        cases hdepth
        exact .inr ⟨t, rfl, rfl, rfl⟩
      · rename_i hcomma
        have hstep : (s.step c).divided = false := by
          rw [Scan.step, hs, Bool.false_or, decide_eq_false hcomma]
        split at h
        · rename_i hnil
          exact absurd hnil (partsFrom_ne_nil _ _ _)
        · rename_i first rest hparts
          obtain ⟨rfl, rfl⟩ := List.cons.inj h
          obtain ⟨rfl, hmore, hend⟩ | ⟨rest, rfl, hclosed, hmore⟩ := ih hstep hparts
          · exact .inl ⟨rfl, hmore, hend⟩
          · exact .inr ⟨rest, rfl, hclosed, hmore⟩
  exact hall t (s := .atDepth 0) rfl h

/-! ## Blanks -/

/-- Whether a scan goes the same way over two texts. -/
def Alike (t u : Text) : Prop := ∀ s : Scan, s.quoting.IsProper → s.past t = s.past u

namespace Alike

/-- A text and itself. -/
theorem refl (t : Text) : Alike t t := fun _ _ => rfl

/-- Two pairs. -/
theorem append {t t' u u' : Text} (h : Alike t t') (h' : Alike u u') :
    Alike (t ++ u) (t' ++ u') := by
  intro s hs
  rw [Scan.past_append, Scan.past_append, h s hs, h' _ (Scan.isProper_past hs t')]

end Alike

/-- The step over a blank. -/
theorem Scan.step_of_isBlank {s : Scan} (h : s.quoting.IsProper) {c : Char}
    (hc : isBlank c = true) : s.step c = ⟨s.quoting.settle, s.depth, s.divided⟩ := by
  have hne : ∀ d : Char, isBlank d = false → c ≠ d := by
    rintro d hd rfl
    rw [hc] at hd
    exact Bool.noConfusion hd
  have hweight : s.quoting.weight c = 0 := by
    unfold Quoting.weight
    split
    · exact absurd rfl (hne _ (by decide))
    · exact absurd rfl (hne _ (by decide))
    · rfl
  rw [Scan.step, h.next_eq_settle (hne _ (by decide)) (hne _ (by decide)) (hne _ (by decide)),
    hweight, Int.add_zero, decide_eq_false fun hcomma => hne ',' (by decide) hcomma.1,
    Bool.or_false]

/-- The steps over blanks. -/
theorem Scan.past_of_isBlank {s : Scan} (h : s.quoting.IsProper) {w : Text} (hw : IsBlank w)
    (hne : w ≠ []) : s.past w = ⟨s.quoting.settle, s.depth, s.divided⟩ := by
  induction w generalizing s with
  | nil => exact absurd rfl hne
  | cons c w ih =>
    obtain ⟨hc, hw⟩ := isBlank_cons.mp hw
    rw [Scan.past_cons]
    by_cases hnil : w = []
    · rw [hnil]
      exact Scan.step_of_isBlank h hc
    · rw [ih (h.next c) hw hnil, Scan.step_of_isBlank h hc]
      cases s.quoting <;> rfl

/-- Blanks are alike. -/
theorem alike_of_isBlank {w w' : Text} (hw : IsBlank w) (hne : w ≠ []) (hw' : IsBlank w')
    (hne' : w' ≠ []) : Alike w w' := by
  intro s hs
  rw [Scan.past_of_isBlank hs hw hne, Scan.past_of_isBlank hs hw' hne']

/-- Blanks around a text do not matter to whether it is divided. -/
theorem isUndivided_trim {t : Text} : IsUndivided (trim t) ↔ IsUndivided t := by
  obtain ⟨before, after, hbefore, hafter, heq⟩ := exists_trim t
  have hright : ∀ s : Scan, s.quoting.IsProper → (s.past after).divided = s.divided := by
    intro s hs
    by_cases hnil : after = []
    · rw [hnil]
      rfl
    · rw [Scan.past_of_isBlank hs hafter hnil]
  rw [IsUndivided, IsUndivided, congrArg (Scan.atDepth 0).past heq,
    (isLevel_of_isBlank hbefore).isClosed.past_append, Scan.past_append,
    hright _ (Scan.isProper_past (Scan.isProper_atDepth 0) _)]

/-- Nor to whether it is closed. -/
theorem isClosed_trim {t : Text} : IsClosed (trim t) ↔ IsClosed t := by
  obtain ⟨before, after, hbefore, hafter, heq⟩ := exists_trim t
  rw [IsClosed, IsClosed, congrArg (Scan.atDepth 0).past heq,
    (isLevel_of_isBlank hbefore).isClosed.past_append, Scan.past_append]
  by_cases hnil : after = []
  · rw [hnil]
    exact Iff.rfl
  · have hproper := Scan.isProper_past (s := .atDepth 0) trivial (trim t)
    rw [Scan.past_of_isBlank hproper hafter hnil]
    generalize (Scan.atDepth 0).past (trim t) = s
    obtain ⟨q, depth, divided⟩ := s
    cases q <;> simp [Scan.atDepth, Quoting.settle]

/-- More code lines stand behind a blank. -/
theorem exists_of_codeLines_eq_cons_cons {t l next : Text} {ls : List Text}
    (h : codeLines t = l :: next :: ls) : ∃ before blanks rest, IsBlank before ∧ IsBlank blanks ∧
      blanks ≠ [] ∧ t = before ++ (l ++ (blanks ++ rest)) ∧ codeLines rest = next :: ls := by
  have hl : IsCodeLine l := isCodeLine_of_mem_codeLines (h ▸ List.mem_cons_self)
  obtain ⟨u, rest, rfl, hu, hrest⟩ :=
    exists_of_codeLines_eq_append [l] (List.cons_ne_nil next ls) h
  obtain ⟨before, blanks, hbefore, hblanks, rfl⟩ :=
    exists_of_codeLines_eq_singleton hu.codeLines_eq
  refine ⟨before, blanks, rest, hbefore, hblanks, ?_, by simp, hrest⟩
  rintro rfl
  -- without blanks a letter behind the line would belong to it
  have hword : IsCodeLine (l ++ ['a']) :=
    hl.append_right (by decide) (by rintro _ ⟨⟩; rfl)
  have hlines := hu ['a']
  have hletter : codeLines ['a'] = [['a']] := by decide
  rw [List.append_nil, List.append_assoc, codeLines_append_left hbefore, hword.codeLines_eq,
    hletter] at hlines
  exact absurd (congrArg List.length hlines) (by simp)

/-- A text is scanned like its code lines. -/
theorem alike_of_codeLines {t : Text} {ls : List Text} (h : codeLines t = ls) :
    Alike (trim t) (['\n'].intercalate ls) := by
  induction ls generalizing t with
  | nil =>
    rw [trim_eq_nil.mpr (codeLines_eq_nil.mp h)]
    exact .refl []
  | cons l ls ih =>
    have hl : IsCodeLine l := isCodeLine_of_mem_codeLines (h ▸ List.mem_cons_self)
    cases ls with
    | nil =>
      obtain ⟨before, after, hbefore, hafter, rfl⟩ := exists_of_codeLines_eq_singleton h
      rw [trim_append_left hbefore, trim_append_right hafter, hl.trimmed.trim_eq,
        List.intercalate_singleton]
      exact .refl l
    | cons next ls =>
      obtain ⟨before, blanks, rest, hbefore, hblanks, hne, rfl, hrest⟩ :=
        exists_of_codeLines_eq_cons_cons h
      obtain ⟨lead, trail, hlead, htrail, heq⟩ := exists_trim rest
      have htrim : trim (before ++ (l ++ (blanks ++ rest))) = l ++ ((blanks ++ lead) ++ trim rest) := by
        have hfirst : ∀ c ∈ (l ++ ((blanks ++ lead) ++ trim rest)).head?, isBlank c = false := by
          intro c hc
          rw [List.head?_append_of_ne_nil l hl.ne_nil] at hc
          exact hl.trimmed.1 c hc
        have hne : trim rest ≠ [] := fun hnil => by
          rw [← codeLines_trim, hnil] at hrest
          exact List.cons_ne_nil _ _ hrest.symm
        have hlast : ∀ c ∈ (l ++ ((blanks ++ lead) ++ trim rest)).getLast?, isBlank c = false := by
          intro c hc
          rw [← List.append_assoc, List.getLast?_append_of_ne_nil _ hne] at hc
          exact (isTrimmed_trim rest).2 c hc
        have htext : l ++ (blanks ++ rest) = (l ++ ((blanks ++ lead) ++ trim rest)) ++ trail := by
          conv_lhs => rw [heq]
          simp
        rw [trim_append_left hbefore, htext, trim_append_right htrail]
        exact IsTrimmed.trim_eq ⟨hfirst, hlast⟩
      rw [htrim, List.intercalate_cons_cons]
      have hblank := alike_of_isBlank (isBlank_append.mpr ⟨hblanks, hlead⟩)
        (List.append_ne_nil_of_left_ne_nil hne lead) (by decide : IsBlank ['\n'])
        (List.cons_ne_nil _ _)
      rw [List.append_assoc l ['\n']]
      exact (Alike.refl l).append (hblank.append (ih hrest))

/-- Whether a text is divided depends on its code lines only. -/
theorem isUndivided_congr {t u : Text} (h : codeLines t = codeLines u) :
    IsUndivided t ↔ IsUndivided u := by
  rw [← isUndivided_trim, ← isUndivided_trim (t := u), IsUndivided, IsUndivided,
    alike_of_codeLines h _ (Scan.isProper_atDepth 0),
    alike_of_codeLines rfl _ (Scan.isProper_atDepth 0)]

/-- So does whether it is closed. -/
theorem isClosed_congr {t u : Text} (h : codeLines t = codeLines u) : IsClosed t ↔ IsClosed u := by
  rw [← isClosed_trim, ← isClosed_trim (t := u), IsClosed, IsClosed,
    alike_of_codeLines h _ (Scan.isProper_atDepth 0),
    alike_of_codeLines rfl _ (Scan.isProper_atDepth 0)]

/-! ## Lists -/

/-- Whether texts with commas between them are the parts of their list. -/
def AreParts : List Text → Prop
  | [] => True
  | [part] => IsUndivided part
  | part :: next :: more => IsClosed part ∧ AreParts (next :: more)

/-- Closed texts are. -/
theorem areParts_of_isClosed {parts : List Text} (h : ∀ part ∈ parts, IsClosed part) :
    AreParts parts := by
  induction parts with
  | nil => trivial
  | cons part more ih =>
    have hpart := h part List.mem_cons_self
    have hmore := ih fun part hpart => h part (List.mem_cons_of_mem _ hpart)
    cases more with
    | nil => exact hpart.isUndivided
    | cons next more => exact ⟨hpart, hmore⟩

/-- Texts on one line are the elements of their list. -/
theorem splitElements_intercalate {parts : List Text} (hparts : AreParts parts)
    (h : ∀ part ∈ parts, part ≠ [] ∧ IsTrimmed part) {w after : Text} (hw : IsBlank w)
    (hafter : IsBlank after) :
    splitElements (w ++ [',', ' '].intercalate parts ++ after) = parts := by
  have helement : ∀ {w part after : Text}, IsBlank w → part ≠ [] ∧ IsTrimmed part →
      IsBlank after → trim (w ++ part ++ after) = part ∧ (!part.isEmpty) = true := by
    intro w part after hw hpart hafter
    rw [trim_append_right hafter, trim_append_left hw, hpart.2.trim_eq]
    exact ⟨rfl, by simpa using hpart.1⟩
  induction parts generalizing w with
  | nil =>
    have hblank : IsBlank (w ++ after) := isBlank_append.mpr ⟨hw, hafter⟩
    have htext : w ++ [',', ' '].intercalate [] ++ after = w ++ after := by simp
    rw [splitElements, htext,
      partsFrom_of_isUndivided (isLevel_of_isBlank hblank).isClosed.isUndivided,
      List.map_singleton, trim_eq_nil.mpr hblank]
    rfl
  | cons part more ih =>
    have hpart := h part List.mem_cons_self
    cases more with
    | nil =>
      obtain ⟨htrim, hne⟩ := helement hw hpart hafter
      have hwhole : IsUndivided (w ++ part ++ after) :=
        isUndivided_trim.mp (htrim.symm ▸ hparts)
      rw [splitElements, List.intercalate_singleton, partsFrom_of_isUndivided hwhole,
        List.map_singleton, htrim, List.filter_singleton, hne]
      rfl
    | cons next more =>
      obtain ⟨htrim, hne⟩ := helement hw hpart isBlank_nil
      rw [List.append_nil] at htrim
      have hleft : IsClosed (w ++ part) := isClosed_trim.mp (htrim.symm ▸ hparts.1)
      have htext : w ++ [',', ' '].intercalate (part :: next :: more) ++ after =
          (w ++ part) ++ ',' :: ([' '] ++ [',', ' '].intercalate (next :: more) ++ after) := by
        simp [List.intercalate_cons_cons]
      have hrest := ih hparts.2 (fun part hpart => h part (List.mem_cons_of_mem _ hpart))
        (isBlank_cons.mpr ⟨rfl, isBlank_nil⟩ : IsBlank [' '])
      rw [splitElements] at hrest
      rw [splitElements, htext, partsFrom_of_isClosed hleft, List.map_cons, htrim]
      exact (List.filter_cons_of_pos (p := fun t : Text => !t.isEmpty) hne).trans (congrArg _ hrest)

end Smali.Literal
