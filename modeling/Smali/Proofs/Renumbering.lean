import Smali.Proofs.Places
import Smali.Proofs.Recovery

/-!
# Lines with other numbers

What is scanned of a line depends on its number only in so far as the places of tokens and faults
carry it. So a text that is scanned as another line gives the same line with another number, and
the two are read alike: the faults correspond, each with the number of its line replaced. Here a
source is taken as the list of its physical lines, so that lines can be put between others.
-/

namespace Smali

variable (f : Nat → Nat)

/-- The place with another line number. -/
def Position.renumber (p : Position) : Position := { p with line := f p.line }

/-- The fault with another line number. -/
def Fault.renumber (fault : Fault) : Fault :=
  { fault with position := fault.position.map (Position.renumber f) }

/-- The token with another line number. -/
def Token.renumber (t : Token) : Token := { t with position := t.position.renumber f }

/-- The line with another number. -/
def Line.renumber (l : Line) : Line :=
  ⟨l.code.map (Token.renumber f), l.text, l.remark.map (Token.renumber f), l.position.renumber f⟩

/-- What a scan finds, with another line number. -/
def Scanned.renumber (s : Scanned) : Scanned :=
  ⟨s.code.map (Token.renumber f), s.text, s.remark.map (Prod.map id (Position.renumber f))⟩

/-- A fault without a place gets the place with the other number. -/
theorem Fault.attach_renumber (fault : Fault) (p : Position) :
    (fault.attach p).renumber f = (fault.renumber f).attach (p.renumber f) := by
  obtain ⟨kind, details, _ | place⟩ := fault <;> rfl

/-- A fault without a place stays as it is. -/
theorem Fault.renumber_plain (kind : FaultKind) (details : Text) :
    plain kind details = (plain kind details).renumber f :=
  rfl

/-- Faults that correspond are of one kind. -/
theorem Fault.kind_of_eq_renumber {fault fault' : Fault} (h : fault' = fault.renumber f) :
    fault.kind = fault'.kind := by
  rw [h]
  rfl

/-- Places that correspond, given to faults that do. -/
theorem Fault.attach_of_eq_renumber {fault fault' : Fault} {p p' : Position}
    (h : fault' = fault.renumber f) (hp : p' = p.renumber f) :
    fault'.attach p' = (fault.attach p).renumber f := by
  rw [h, hp, attach_renumber]

/-- Places and faults that correspond if the lines get other numbers. -/
def Kinship.renumbered : Kinship where
  places p p' := p' = p.renumber f
  faults fault fault' := fault' = fault.renumber f
  kind_eq h := Fault.kind_of_eq_renumber f h
  plain kind details := Fault.renumber_plain f kind details
  attach h hp := Fault.attach_of_eq_renumber f h hp

variable {f}

/-- Results that are the same but for line numbers. -/
theorem Kinship.Outcomes.eq_of_renumbered {α : Type} {r r' : Except Fault α}
    (h : (renumbered f).Outcomes Eq r r') : r' = r.mapError (Fault.renumber f) := by
  cases h with
  | ok h => exact congrArg Except.ok h.symm
  | error h => exact congrArg Except.error h

/-- Faults that are the same but for line numbers. -/
theorem Kinship.eq_of_renumbered {faults faults' : List Fault}
    (h : List.Forall₂ (renumbered f).faults faults faults') :
    faults' = faults.map (Fault.renumber f) := by
  induction h with
  | nil => rfl
  | cons h _ ih => rw [List.map_cons, ← ih, h]

/-! ## Scanning with another number -/

/-- A word is of the same kind on every line. -/
theorem classify_renumber (word : Text) (number column : Nat) :
    (Kinship.renumbered f).Outcomes Eq (classify word ⟨number, column⟩)
      (classify word ⟨f number, column⟩) := by
  unfold classify
  split_ifs
  · exact .ok rfl
  · exact .ok rfl
  · exact .ok rfl
  · exact .error rfl
  · exact .ok rfl
  · exact .ok rfl

/-- A scan finds the same on every line. -/
theorem scan_renumber (number column : Nat) (t : Text) :
    (Kinship.renumbered f).Outcomes (fun s s' => s' = s.renumber f) (scan number column t)
      (scan (f number) column t) := by
  have hpush : ∀ {s s' : Scanned} kind text (p : Position), s' = s.renumber f →
      s'.push kind text (p.renumber f) = (s.push kind text p).renumber f := by
    rintro s _ kind text p rfl
    rfl
  fun_induction scan number column t with
  | case1 =>
    rw [scan]
    exact .ok rfl
  | case2 column c rest hc ih =>
    rw [scan_blank _ _ hc]
    exact ih.map fun s s' heq => heq ▸ rfl
  | case3 =>
    rw [scan_comment]
    exact .ok rfl
  | case4 column c rest position hblank hsign hc body after h _ text kind ih =>
    rw [scan_quote _ _ hc h]
    exact ih.map fun _ _ heq => hpush _ _ position heq
  | case5 column c rest position hblank hsign hc h =>
    rw [scan_openQuote _ _ hc h]
    exact .error rfl
  | case6 column c rest position hblank hsign hc hmark ih =>
    rw [scan_mark _ _ hmark]
    exact ih.map fun _ _ heq => hpush _ _ position heq
  | case7 column c rest position hblank hsign hc hmark word _ kind hkind ih =>
    have hword : startsWord c = true := by simp_all [startsWord]
    have hclassify := classify_renumber (f := f) word number column
    rw [hkind] at hclassify
    rw [scan_word _ _ hword]
    generalize classify word ⟨f number, column⟩ = kind' at hclassify ⊢
    cases hclassify with
    | ok heq => exact heq ▸ ih.map fun _ _ heq => hpush _ _ position heq
  | case8 column c rest position hblank hsign hc hmark word _ fault hkind =>
    have hword : startsWord c = true := by simp_all [startsWord]
    have hclassify := classify_renumber (f := f) word number column
    rw [hkind] at hclassify
    rw [scan_word _ _ hword]
    generalize classify word ⟨f number, column⟩ = kind' at hclassify ⊢
    cases hclassify with
    | error hfault => exact .error hfault

/-- A line is read as the line with another number. -/
theorem Line.akin_renumber (o : Options) (l : Line) :
    l.Akin (.renumbered f) o (l.renumber f) := by
  refine ⟨?_, rfl, ?_, fun _ => ?_, rfl⟩
  · rw [renumber, List.map_map]
    rfl
  · simp only [isComment, comment?, renumber, List.isEmpty_map]
    split <;> simp
  · simp only [words?, renumber, Option.map_map]
    rfl

/-- The line of a text under another number. -/
theorem ofText_renumber (o : Options) (number : Nat) (t : Text) :
    (Kinship.renumbered f).Outcomes (Line.Akin (.renumbered f) o) (Line.ofText number t)
      (Line.ofText (f number) t) := by
  refine (scan_renumber number 1 t).map fun s s' heq => ?_
  subst heq
  obtain ⟨code, text, remark⟩ := s
  have hline := Line.akin_renumber (f := f) o
  cases code <;> cases remark <;> exact hline _

/-! ## Lines in a row -/

/-- The lines of texts in a row that are not blank, the first of them with a number. -/
def scanFrom (number : Nat) : List Text → List (Except Fault Line)
  | [] => []
  | t :: rest =>
    if (Text.trim t).isEmpty then scanFrom (number + 1) rest
    else Line.ofText number t :: scanFrom (number + 1) rest

/-- The lines of a source are those of its physical lines. -/
theorem scanLines_eq (source : Text) : scanLines source = scanFrom 1 (Text.lines source) := by
  unfold scanLines physicalLines
  generalize Text.lines source = texts
  generalize 1 = number
  induction texts generalizing number with
  | nil => rfl
  | cons t rest ih =>
    rw [List.zipIdx_cons, List.filterMap_cons, scanFrom, ← ih]
    dsimp only
    cases (Text.trim t).isEmpty <;> rfl

/-- More lines behind others. -/
theorem scanFrom_append (number : Nat) (first rest : List Text) :
    scanFrom number (first ++ rest) =
      scanFrom number first ++ scanFrom (number + first.length) rest := by
  induction first generalizing number with
  | nil => rfl
  | cons t first ih =>
    rw [List.cons_append, scanFrom, scanFrom, ih, List.length_cons, Nat.add_assoc number 1,
      Nat.add_comm 1]
    split <;> rfl

/-- A line that cannot be scanned has a lexical fault. -/
theorem kind_of_scanFrom {number : Nat} {texts : List Text} {fault : Fault}
    (h : .error fault ∈ scanFrom number texts) : fault.kind = .lexical := by
  induction texts generalizing number with
  | nil => cases h
  | cons t rest ih =>
    unfold scanFrom at h
    split at h
    · exact ih h
    · obtain h | h := List.mem_cons.mp h
      · exact kind_of_scan (eq_error_of_map h.symm)
      · exact ih h

/-- Texts in a row are read as the same texts with other numbers. -/
theorem scanFrom_renumber (o : Options) (number number' : Nat) (texts : List Text)
    (h : ∀ i < texts.length, f (number + i) = number' + i) :
    List.Forall₂ ((Kinship.renumbered f).Outcomes (Line.Akin (.renumbered f) o))
      (scanFrom number texts) (scanFrom number' texts) := by
  induction texts generalizing number number' with
  | nil => exact .nil
  | cons t rest ih =>
    have hrest := ih (number + 1) (number' + 1) fun i hi => by
      have := h (i + 1) (Nat.succ_lt_succ hi)
      rwa [Nat.add_comm i, ← Nat.add_assoc, ← Nat.add_assoc] at this
    have hline := ofText_renumber (f := f) o number t
    rw [show f number = number' from h 0 (Nat.succ_pos _)] at hline
    unfold scanFrom
    split
    · exact hrest
    · exact .cons hline hrest

end Smali
