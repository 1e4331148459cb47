import Smali.Proofs.Recovery
import Smali.Proofs.TokenPlaces

/-!
# Places of faults

Every fault that a reader finds itself points at a physical line of the source that is not blank. A
lexical fault stands where the refused token starts, behind characters that are scanned; any other
fault stands at the first token of its line. Only the fault of a source without a class has no
place, since no line is to blame for it.

The places that a reader knows are those of the lines it was given, so its remit has these places
and no others, whatever scope it is in and whichever scope attaches the place in the end.
-/

namespace Smali

/-! ## The place of a line -/

/-- The place of the first token of a physical line: behind the blanks at its start. -/
def firstPlace (number : Nat) (t : Text) : Position := ⟨number, 1 + (t.takeWhile Text.isBlank).length⟩

/-- The place of the first token that a scan finds, comments included. -/
def Scanned.place? (s : Scanned) : Option Position :=
  (s.code.head?.map Token.position).or (s.remark.map Prod.snd)

/-- The first token stands behind the blanks at the start of a text. -/
theorem place?_of_scan {number column : Nat} {t : Text} {s : Scanned}
    (h : scan number column t = .ok s) (ht : ¬Text.IsBlank t) :
    s.place? = some ⟨number, column + (t.takeWhile Text.isBlank).length⟩ := by
  fun_induction scan number column t generalizing s with
  | case1 => exact absurd Text.isBlank_nil ht
  | case2 column c rest hc ih =>
    obtain ⟨inner, hinner, rfl⟩ := exists_of_map_eq_ok h
    have hrest : ¬Text.IsBlank rest := fun hblank => ht (Text.isBlank_cons.mpr ⟨hc, hblank⟩)
    have hplace : (inner.skip c).place? = inner.place? := rfl
    rw [hplace, ih hinner hrest, List.takeWhile_cons_of_pos hc, List.length_cons, Nat.add_assoc,
      Nat.add_comm 1]
  | case3 column rest =>
    cases h
    rw [List.takeWhile_cons_of_neg (by decide)]
    rfl
  | case4 column c rest position hblank _ _ body after =>
    obtain ⟨inner, -, rfl⟩ := exists_of_map_eq_ok h
    rw [List.takeWhile_cons_of_neg hblank]
    rfl
  | case5 => cases h
  | case6 column c rest position hblank =>
    obtain ⟨inner, -, rfl⟩ := exists_of_map_eq_ok h
    rw [List.takeWhile_cons_of_neg hblank]
    rfl
  | case7 column c rest position hblank =>
    obtain ⟨inner, -, rfl⟩ := exists_of_map_eq_ok h
    rw [List.takeWhile_cons_of_neg hblank]
    rfl
  | case8 => cases h

/-- A line has the place of the first token of its physical line, and this token is one of its
own. -/
theorem Line.exists_first_of_ofText {number : Nat} {t : Text} {l : Line}
    (h : Line.ofText number t = .ok l) (ht : ¬Text.IsBlank t) :
    l.position = firstPlace number t ∧ ∃ first ∈ l.tokens.head?, first.position = l.position := by
  obtain ⟨s, hs, rfl⟩ := exists_of_map_eq_ok h
  have hplace := place?_of_scan hs ht
  unfold Scanned.place? at hplace
  unfold Line.tokens firstPlace
  cases hcode : s.code with
  | cons first more =>
    rw [hcode] at hplace
    exact ⟨Option.some.inj hplace, first, rfl, rfl⟩
  | nil =>
    cases hremark : s.remark with
    | none =>
      rw [hcode, hremark] at hplace
      exact absurd hplace (Option.some_ne_none _).symm
    | some remark =>
      rw [hcode, hremark] at hplace
      exact ⟨Option.some.inj hplace, _, rfl, rfl⟩

/-! ## Refused tokens -/

/-- No token can be taken from the start of a text, for the reason that a message gives: a quote is
not closed, or a word starts like a number and is none. -/
inductive Refuses : Text → Text → Prop where
  /-- A quote without a partner. -/
  | quote {quote : Char} {rest : Text} (hquote : quote = '"' ∨ quote = '\'')
      (hbody : Literal.takeBody? quote rest = none) :
      Refuses (quote :: rest) ("unterminated or malformed literal " ++ quote :: rest)
  /-- A word up to the next character that ends words, malformed as a numeral, without the marks of
  a member. -/
  | word {c : Char} {rest word : Text} (hword : word = c :: rest.takeWhile (!endsWord ·))
      (hstart : startsLikeNumber word = true) (hnumeral : Literal.isNumeral word = false)
      (hcolon : ':' ∉ word) (hparenthesis : '(' ∉ word) :
      Refuses (c :: rest) ("malformed numeric literal '" ++ word ++ "'")

/-- A refused word is no directive and no number. -/
theorem refuses_of_classify {c : Char} {rest : Text} {position : Position} {fault : Fault}
    (h : classify (c :: rest.takeWhile (!endsWord ·)) position = .error fault) :
    ∃ message, fault = .located .lexical position message ∧ Refuses (c :: rest) message := by
  unfold classify at h
  split at h
  · cases h
  · split at h
    · cases h
    · split at h
      · cases h
      · next hnumeral =>
        split at h
        · next hmalformed =>
          cases h
          simp only [Bool.and_eq_true, Bool.not_eq_true', List.contains_eq_mem,
            decide_eq_false_iff_not] at hmalformed
          obtain ⟨⟨hstart, hcolon⟩, hparenthesis⟩ := hmalformed
          refine ⟨_, rfl, .word rfl hstart ?_ hcolon hparenthesis⟩
          rwa [hstart, Bool.true_and, Bool.not_eq_true] at hnumeral
        · split at h <;> cases h

/-- Where the first token of a text stands that is refused, if the text starts at some column: all
characters before it are scanned, and no comment is among them. -/
def RefusedAt (number start : Nat) (t : Text) (column : Nat) (message : Text) : Prop :=
  ∃ before rest code, t = before ++ rest ∧ column = start + before.length ∧
    scan number start before = .ok ⟨code, before, none⟩ ∧ Refuses rest message

/-- A scan that fails does so at the first token that is refused. -/
theorem refusedAt_of_scan {number column : Nat} {t : Text} {fault : Fault}
    (h : scan number column t = .error fault) : ∃ place message,
      fault = .located .lexical ⟨number, place⟩ message ∧
        RefusedAt number column t place message := by
  fun_induction scan number column t with
  | case1 => cases h
  | case2 column c rest hc ih =>
    obtain ⟨place, message, rfl, before, behind, code, rfl, rfl, hscan, hrefuses⟩ :=
      ih (eq_error_of_map h)
    refine ⟨_, message, rfl, c :: before, behind, code, rfl, ?_, ?_, hrefuses⟩
    · rw [List.length_cons, Nat.add_assoc, Nat.add_comm 1]
    · rw [scan_blank _ _ hc, hscan]
      rfl
  | case3 => cases h
  | case4 column c rest position hblank hsign hc body after hbody _ text kind ih =>
    obtain ⟨place, message, rfl, before, behind, code, rfl, rfl, hscan, hrefuses⟩ :=
      ih (eq_error_of_map h)
    have hrest : rest = body ++ c :: (before ++ behind) := Literal.eq_of_takeBody? hbody
    refine ⟨_, message, rfl, text ++ before, behind, ⟨kind, text, position⟩ :: code, ?_, ?_, ?_,
      hrefuses⟩
    · rw [hrest]
      simp [text]
    · simp only [text, List.length_append, Nat.add_assoc]
    · have htext : text ++ before = c :: (body ++ c :: before) := by simp [text]
      rw [htext, scan_quote _ _ hc (takeBody?_whole hbody before), hscan, ← htext]
      rfl
  | case5 column c rest position _ _ hc hbody =>
    cases h
    refine ⟨column, _, rfl, [], c :: rest, [], rfl, rfl, ?_, .quote hc hbody⟩
    exact scan_of_isBlank Text.isBlank_nil number column
  | case6 column c rest position hblank hsign hc hmark ih =>
    obtain ⟨place, message, rfl, before, behind, code, rfl, rfl, hscan, hrefuses⟩ :=
      ih (eq_error_of_map h)
    refine ⟨_, message, rfl, c :: before, behind, ⟨.punctuation, [c], position⟩ :: code, rfl, ?_,
      ?_, hrefuses⟩
    · rw [List.length_cons, Nat.add_assoc, Nat.add_comm 1]
    · rw [scan_mark _ _ hmark, hscan]
      rfl
  | case7 column c rest position hblank hsign hc hmark word _ kind hkind ih =>
    obtain ⟨place, message, rfl, before, behind, code, hrest, rfl, hscan, hrefuses⟩ :=
      ih (eq_error_of_map h)
    have hword : startsWord c = true := by
      simp_all [startsWord]
    -- The word ends with the part, or before a character that ends it in the whole text as well.
    have hends : ∀ d ∈ before.head?, endsWord d = true := by
      intro d hd
      have hhead : (rest.dropWhile (!endsWord ·)).head? = some d := by
        rw [hrest, List.head?_append, hd]
        rfl
      have hnot := List.head?_dropWhile_not (!endsWord ·) rest
      rw [hhead] at hnot
      simpa using hnot
    have hself : (rest.takeWhile (!endsWord ·)).takeWhile (!endsWord ·) =
        rest.takeWhile (!endsWord ·) := by
      rw [List.takeWhile_takeWhile]
      simp
    have hnothing : (rest.takeWhile (!endsWord ·)).dropWhile (!endsWord ·) = [] :=
      List.dropWhile_eq_nil_iff.mpr fun d hd => List.mem_takeWhile_imp (p := (!endsWord ·)) hd
    obtain ⟨htake, hdrop⟩ := takeWhile_append_end hends (rest.takeWhile (!endsWord ·))
    rw [hself] at htake
    rw [hnothing, List.nil_append] at hdrop
    refine ⟨_, message, rfl, word ++ before, behind, ⟨kind, word, position⟩ :: code, ?_, ?_, ?_,
      hrefuses⟩
    · rw [List.append_assoc, ← hrest, List.cons_append, List.takeWhile_append_dropWhile]
    · rw [List.length_append, Nat.add_assoc]
    · rw [List.cons_append, scan_word _ _ hword, htake, hdrop, hkind]
      dsimp only
      rw [hscan]
      rfl
  | case8 column c rest position _ _ _ _ word _ found hfound =>
    cases h
    obtain ⟨message, rfl, hrefuses⟩ := refuses_of_classify hfound
    refine ⟨column, message, rfl, [], c :: rest, [], rfl, rfl, ?_, hrefuses⟩
    exact scan_of_isBlank Text.isBlank_nil number column

/-! ## Faults of a source -/

namespace Fault

/-- A fault points at a physical line: at a token that is refused if it is lexical, else at the
first token of the line. -/
inductive PointsAt (number : Nat) (t : Text) : Fault → Prop where
  /-- A lexical fault at the first character of the refused token. -/
  | token {column : Nat} {message : Text} (h : RefusedAt number 1 t column message) :
      PointsAt number t (.located .lexical ⟨number, column⟩ message)
  /-- Another fault, at the first token of a line that was scanned. -/
  | line {fault : Fault} {l : Line} {first : Token} (hkind : fault.kind ≠ .lexical)
      (hline : Line.ofText number t = .ok l) (hfirst : first ∈ l.tokens.head?)
      (hplace : first.position = firstPlace number t)
      (hposition : fault.position = some first.position) : PointsAt number t fault

/-- A fault points at a physical line of a source that is not blank. Lines are numbered from one. -/
def PointsInto (source : Text) (fault : Fault) : Prop :=
  ∃ number t, 1 ≤ number ∧ (Text.lines source)[number - 1]? = some t ∧ ¬Text.IsBlank t ∧
    PointsAt number t fault

/-- A fault that points into a source has a place, and keeps it. -/
theorem PointsInto.attach {source : Text} {fault : Fault} (h : fault.PointsInto source)
    (place : Position) : fault.attach place = fault := by
  obtain ⟨number, t, -, -, -, hat⟩ := h
  obtain ⟨kind, details, position⟩ := fault
  cases hat with
  | token => rfl
  | line _ _ _ _ hposition =>
    obtain rfl : position = _ := hposition
    rfl

end Fault

/-- The physical lines that are scanned are those of the source that are not blank. -/
theorem mem_physicalLines {source : Text} {number : Nat} {t : Text} :
    (number, t) ∈ physicalLines source ↔
      1 ≤ number ∧ (Text.lines source)[number - 1]? = some t ∧ ¬Text.IsBlank t := by
  have hblank : ¬Text.IsBlank t ↔ (Text.trim t).isEmpty = false := by
    rw [Bool.eq_false_iff, ne_eq, List.isEmpty_iff, Text.trim_eq_nil]
  rw [hblank, ← and_assoc, ← List.mk_mem_zipIdx_iff_le_and_getElem?_sub, physicalLines,
    List.mem_filterMap]
  constructor
  · rintro ⟨⟨u, place⟩, hmem, hline⟩
    dsimp only at hline
    split at hline
    · cases hline
    · next hfull =>
      obtain ⟨rfl, rfl⟩ := Prod.mk.inj (Option.some.inj hline)
      exact ⟨hmem, Bool.eq_false_iff.mpr hfull⟩
  · rintro ⟨hmem, hfull⟩
    exact ⟨(t, number), hmem, if_neg (Bool.eq_false_iff.mp hfull)⟩

/-- A place that a reader of a source knows: that of a line which was scanned. -/
def IsPlaceOf (source : Text) (place : Position) : Prop :=
  ∃ number t l, (number, t) ∈ physicalLines source ∧ Line.ofText number t = .ok l ∧
    place = l.position

/-- A fault with the place of a line points at this line, unless it is lexical. -/
theorem IsPlaceOf.pointsInto {source : Text} {place : Position} (h : IsPlaceOf source place)
    {fault : Fault} (hkind : fault.kind ≠ .lexical) (hposition : fault.position = some place) :
    fault.PointsInto source := by
  obtain ⟨number, t, l, hmem, hline, rfl⟩ := h
  obtain ⟨hnumber, ht, hblank⟩ := mem_physicalLines.mp hmem
  obtain ⟨hplace, first, hfirst, heq⟩ := Line.exists_first_of_ofText hline hblank
  exact ⟨number, t, hnumber, ht, hblank,
    .line hkind hline hfirst (heq.trans hplace) (hposition.trans (congrArg some heq.symm))⟩

/-- What the scanner finds points at the refused token. -/
theorem pointsInto_of_scanLines {source : Text} {fault : Fault}
    (h : .error fault ∈ scanLines source) : fault.PointsInto source := by
  obtain ⟨⟨number, t⟩, hmem, hline⟩ := List.mem_map.mp h
  obtain ⟨hnumber, ht, hblank⟩ := mem_physicalLines.mp hmem
  obtain ⟨column, message, rfl, hrefused⟩ := refusedAt_of_scan (eq_error_of_map hline)
  exact ⟨number, t, hnumber, ht, hblank, .token hrefused⟩

/-- The fault of a source without a class. -/
def missingClass : Fault := .plain .grammar "missing .class directive".toList

/-- The remit of a reader that knows the places of a source, and whose calls are all received
well. -/
def Remit.ofPlaces (source : Text) : Remit where
  calls _ := True
  places := IsPlaceOf source
  received _ := False
  faults fault := fault = missingClass ∨ fault.PointsInto source
  calls_of_isHeader _ _ := trivial
  faults_of_isAt fault place h hplace := by
    refine .inr (hplace.pointsInto ?_ h.position)
    obtain h | h | h | h := h.kind <;> simp [h]
  faults_of_received _ h := h.elim
  faults_attach fault place h hplace := by
    obtain rfl | h := h
    · exact .inr (hplace.pointsInto nofun rfl)
    · rw [h.attach]
      exact .inr h

/-- Every source is read within that remit. -/
theorem dialogue_within_ofPlaces (o : Options) (source : Text) :
    (dialogue o source).Within (.ofPlaces source) fun _ => True := by
  refine dialogue_within (.ofPlaces source) (fun _ => trivial) (.inl rfl) o ?_ fun _ h =>
    .inr (pointsInto_of_scanLines h)
  intro l hl
  obtain ⟨⟨number, t⟩, hmem, hline⟩ := List.mem_map.mp hl
  exact ⟨number, t, l, hmem, hline, rfl⟩

section

variable {σ κ : Type} {L : Listener σ κ}

/-- In front of a listener that never fails, the fault that ends a reading and all faults that it
notes point at physical lines of the source which are not blank, whatever the options are. Only the
fault of a source without a class does not. -/
theorem faults_point_into_source (hL : L.NeverFails) (o : Options) (root : κ) (state : σ)
    (source : Text) (fault : Fault)
    (h : (read o L root state source).1 = .error fault ∨
      fault ∈ (read o L root state source).2.diagnostics) :
    fault = missingClass ∨ fault.PointsInto source := by
  have hwithin := dialogue_within_ofPlaces o source
  rw [read_result o root state source hL, read_diagnostics o root state source hL] at h
  obtain hends | hnoted := h
  · obtain hreceived | ⟨-, hkind, place, hposition, hplace⟩ | ⟨hfaults, -⟩ :=
      hwithin.rehearse_placed hends
    · exact hreceived.elim
    · exact .inr (hplace.pointsInto (by simp [hkind]) hposition)
    · exact hfaults
  · exact (hwithin.rehearse_skipped fault hnoted).1

/-- An open quote is noted at the quote, and a stray closing line at its first token. -/
theorem faults_point_into_noisy_source :
    let o : Options := ⟨true, false, true, .ignore⟩
    let source := "\n .class LA;\n  .source \"a\n  .end field".toList
    let reading := read o (Recorder.listener .obliging) (Recorder.root .ofClass) .initial source
    reading.1 = .ok () ∧ reading.2.diagnostics.map Fault.position = [some ⟨3, 11⟩, some ⟨4, 3⟩] ∧
      ∀ fault ∈ reading.2.diagnostics, fault = missingClass ∨ fault.PointsInto source :=
  ⟨by decide +kernel, by decide +kernel, fun fault hfault =>
    faults_point_into_source (Recorder.listener_neverFails rfl) _ _ _ _ fault (.inr hfault)⟩

end

end Smali
