import Smali.Proofs.OneLine
import Smali.Proofs.RemarkedPages

/-!
# Reading pages with comments

A comment behind code does not change the line, and a line that is a comment is passed over. So
a strict reading without comments finds in the code of calls with comments between them what it
finds in the code of the calls alone, as soon as all lines of that can be scanned.
-/

namespace Smali

/-! ## Scanning -/

/-- Blanks are skipped. -/
theorem scan_append_left {w : Text} (hw : Text.IsBlank w) (number column : Nat) (t : Text) :
    scan number column (w ++ t) =
      (scan number (column + w.length) t).map fun s => { s with text := w ++ s.text } := by
  induction w generalizing column with
  | nil =>
    have hsame : scan number column t = (scan number column t).map id := by rw [Except.map_id]; rfl
    exact hsame
  | cons c w ih =>
    obtain ⟨hc, hw⟩ := Text.isBlank_cons.mp hw
    rw [List.cons_append, scan_blank _ _ hc, ih hw, List.length_cons, Nat.add_right_comm,
      Nat.add_assoc]
    cases scan number (column + (w.length + 1)) t <;> rfl

/-- The same with a comment behind it. -/
structure Scanned.Remarks (more : Text) (a b : Scanned) : Prop where
  /-- The same tokens. -/
  code : b.code = a.code
  /-- The same characters, up to blanks at the end. -/
  text : Text.trimRight b.text = Text.trimRight a.text
  /-- There is a comment. -/
  remark : b.remark.isSome = true
  /-- It is that comment, unless there was one. -/
  words : a.remark = none → b.remark.map Prod.fst = some ('#' :: more)

namespace Scanned.Remarks

variable {more : Text} {a b : Scanned}

/-- The same behind a blank. -/
theorem skip (h : a.Remarks more b) (c : Char) : (a.skip c).Remarks more (b.skip c) := by
  refine ⟨h.code, ?_, h.remark, h.words⟩
  have ht := Text.trimRight_append_trimRight [c] a.text
  rw [← h.text, Text.trimRight_append_trimRight] at ht
  exact ht

/-- The same behind a token. -/
theorem push (h : a.Remarks more b) (kind : TokenKind) (text : Text) (position : Position) :
    (a.push kind text position).Remarks more (b.push kind text position) := by
  refine ⟨congrArg (_ :: ·) h.code, ?_, h.remark, h.words⟩
  have ht := Text.trimRight_append_trimRight text a.text
  rw [← h.text, Text.trimRight_append_trimRight] at ht
  exact ht

/-- The same behind what a scan puts in front. -/
theorem map {r r' : Except Fault Scanned} {f : Scanned → Scanned} {whole : Scanned}
    (h : r.map f = .ok whole) (hr : ∀ {s}, r = .ok s → ∃ s', r' = .ok s' ∧ s.Remarks more s')
    (hf : ∀ {a b : Scanned}, a.Remarks more b → (f a).Remarks more (f b)) :
    ∃ s', r'.map f = .ok s' ∧ whole.Remarks more s' := by
  obtain ⟨inner, hinner, rfl⟩ := exists_of_map_eq_ok h
  obtain ⟨s', rfl, hs'⟩ := hr hinner
  exact ⟨f s', rfl, hf hs'⟩

end Scanned.Remarks

/-- A comment that is put behind a text changes nothing else that a scan finds. -/
theorem scan_append_remark {w : Text} (hw : Text.IsBlank w) (hne : w ≠ []) (more : Text)
    {number column : Nat} {t : Text} {s : Scanned} (h : scan number column t = .ok s) :
    ∃ s', scan number column (t ++ (w ++ '#' :: more)) = .ok s' ∧ s.Remarks more s' := by
  fun_induction scan number column t generalizing s with
  | case1 column =>
    cases h
    rw [List.nil_append, scan_append_left hw, scan_comment]
    refine ⟨_, rfl, rfl, ?_, rfl, fun _ => rfl⟩
    change Text.trimRight (w ++ []) = []
    rw [List.append_nil]
    exact Text.trimRight_eq_nil.mpr hw
  | case2 column c rest hc ih =>
    rw [List.cons_append, scan_blank _ _ hc]
    exact Scanned.Remarks.map h ih fun hab => hab.skip c
  | case3 column rest =>
    cases h
    rw [List.cons_append, scan_comment]
    exact ⟨_, rfl, rfl, rfl, rfl, fun h => by cases h⟩
  | case4 column c rest position hblank hsign hc body after hbody =>
    rename_i ih
    rw [List.cons_append, scan_quote _ _ hc (takeBody?_append hbody _)]
    exact Scanned.Remarks.map h ih fun hab => hab.push _ _ _
  | case5 => cases h
  | case6 column c rest position hblank hsign hc hmark =>
    rename_i ih
    rw [List.cons_append, scan_mark _ _ hmark]
    exact Scanned.Remarks.map h ih fun hab => hab.push _ _ _
  | case7 column c rest position hblank hsign hc hmark word _ kind hkind =>
    rename_i ih
    have hword : startsWord c = true := by
      simp_all [startsWord]
    have hends : ∀ d ∈ (w ++ '#' :: more).head?, endsWord d = true := by
      intro d hd
      obtain ⟨first, rest, rfl⟩ := List.exists_cons_of_ne_nil hne
      exact endsWord_of_isBlank hw d hd
    rw [List.cons_append, scan_word _ _ hword, (takeWhile_append_end hends rest).1,
      (takeWhile_append_end hends rest).2]
    have hkind' : classify (c :: rest.takeWhile (!endsWord ·)) ⟨number, column⟩ = .ok kind := hkind
    rw [hkind']
    exact Scanned.Remarks.map h ih fun hab => hab.push _ _ _
  | case8 => cases h

/-! ## Lines -/

/-- A comment that is put behind a text changes nothing else of its line. -/
theorem lineOf_append_remark {w : Text} (hw : Text.IsBlank w) (hne : w ≠ []) (more : Text)
    {t : Text} {l : Line} (h : lineOf t = some l) :
    ∃ r, lineOf (t ++ (w ++ '#' :: more)) = some { l with remark := some r } := by
  obtain ⟨s, hs, rfl⟩ := Option.map_eq_some_iff.mp h
  cases hscan : scan 1 1 t with
  | error fault => rw [hscan] at hs; cases hs
  | ok found =>
    rw [hscan] at hs
    obtain rfl := Option.some.inj hs
    obtain ⟨s', hs', hcode, htext, hremark, -⟩ := scan_append_remark hw hne more hscan
    obtain ⟨r, hr⟩ := Option.isSome_iff_exists.mp hremark
    refine ⟨⟨if found.code.isEmpty then .comment else .eolComment, [], ⟨0, 0⟩⟩, ?_⟩
    unfold lineOf
    rw [hs', toOption_ok, Option.map_some, Scanned.line, hcode, hr, ← Text.trim_trimRight, htext,
      Text.trim_trimRight]
    rfl

/-- The line of a text with ink holds code or a comment. -/
theorem Text.StartsInk.line {t : Text} (h : t.StartsInk) {l : Line} (hl : lineOf t = some l) :
    l.code ≠ [] ∨ l.remark.isSome = true := by
  obtain ⟨c, hc, hblank⟩ := h
  obtain ⟨rest, rfl⟩ := List.head?_eq_some_iff.mp hc
  by_cases hsign : c = '#'
  · subst hsign
    rw [lineOf, scan_comment] at hl
    cases hl
    exact .inr rfl
  · obtain ⟨s, hs, rfl⟩ := Option.map_eq_some_iff.mp hl
    cases hscan : scan 1 1 (c :: rest) with
    | error fault => rw [hscan] at hs; cases hs
    | ok found =>
      rw [hscan] at hs
      obtain rfl := Option.some.inj hs
      exact .inl (by simpa [Scanned.line] using (head_of_scan hblank hsign hscan).1)

namespace Stance

variable {validate : Bool}

/-- A comment behind a line does not matter to a step. -/
theorem take_remark (st : Stance) {l : Line} (hl : l.code ≠ [] ∨ l.remark.isSome = true)
    (r : Token) : st.take validate { l with remark := some r } = st.take validate l := by
  obtain ⟨_ | ⟨first, rest⟩, text, remark, position⟩ := l
  · obtain ⟨old, rfl⟩ := Option.isSome_iff_exists.mp (hl.resolve_left fun h => h rfl)
    rfl
  · rfl

/-- A comment changes nothing. -/
theorem take_of_isComment (st : Stance) {l : Line} (hl : l.isComment = true) :
    st.take validate l = some (st, []) := if_pos hl

/-- Comments do not matter to steps over lines. -/
theorem takeAll_remarked {page lines : List Text} (h : Remarked page lines)
    (hlines : ∀ t ∈ lines, (lineOf t).isSome = true) (st : Stance) :
    st.takeAll validate (page.map lineOf) = st.takeAll validate (lines.map lineOf) := by
  induction h generalizing st with
  | nil => rfl
  | @code t rest page lines ht hrest _ ih =>
    obtain ⟨htext, hmore⟩ := List.forall_mem_cons.mp hlines
    obtain ⟨l, hl⟩ := Option.isSome_iff_exists.mp htext
    have hstep : ∃ l', lineOf (t ++ rest) = some l' ∧ st.take validate l' = st.take validate l := by
      rcases hrest with rfl | ⟨w, more, hw, hne, rfl⟩
      · exact ⟨l, (List.append_nil t).symm ▸ hl, rfl⟩
      · obtain ⟨r, hr⟩ := lineOf_append_remark hw hne more hl
        exact ⟨_, hr, take_remark st (ht.line hl) r⟩
    obtain ⟨l', hl', htake⟩ := hstep
    simp only [List.map_cons, hl, hl', takeAll, htake, ih hmore]
  | note more _ ih =>
    have hline : lineOf ('#' :: more) = some ⟨[], [], some ⟨.comment, [], ⟨0, 0⟩⟩, ⟨0, 0⟩⟩ := by
      rw [lineOf, scan_comment]
      rfl
    rw [List.map_cons, hline, takeAll, take_of_isComment st rfl, Option.bind_some]
    dsimp only
    rw [ih hlines]
    exact Option.map_id'

end Stance

/-- A strict reading finds in the code of calls with comments between them what it finds in that of
the calls alone. -/
theorem strictCalls_remarked {o : Options} {calls : List Call} {s : Site}
    (hcalls : ∀ call ∈ calls, call.KeepsToLine)
    (hrun : (Site.initial o.snippet).run o.validate (calls.filter fun c => !c.isComment) = some s)
    (hnest : s.nest = 0) (hhost : s.host = none)
    (hscan : ∀ t ∈ (Site.initial o.snippet).written (calls.filter fun c => !c.isComment),
      (lineOf t).isSome = true) :
    strictCalls o (Writer.codeOf calls) = (Stance.initial o.snippet).readAll o.validate
      (((Site.initial o.snippet).written (calls.filter fun c => !c.isComment)).map lineOf) := by
  rw [strictCalls_eq, Stance.readAll, Stance.readAll,
    Stance.takeAll_remarked (Writer.remarked_codeOf hcalls hrun hnest hhost) hscan]

end Smali
