import Smali.Proofs.Kinship
import Smali.Reader.Frame

/-!
# Lines that are read alike

What a reader makes of a line depends on the code in it, on the words of its comment where comments
are told, and on its place only in so far as the faults of the line carry it. So from two lines with
the same code at places that correspond the same arguments are read, or faults that correspond.
-/

namespace Smali

/-! ## Lines without places -/

/-- A token without its place. -/
def Token.unplaced (t : Token) : Token := { t with position := ⟨0, 0⟩ }

namespace Line

/-- A line without its places and without the words of its comment. -/
def unplaced (l : Line) : Line :=
  ⟨l.code.map Token.unplaced, l.text, l.remark.map fun t => ⟨t.kind, [], ⟨0, 0⟩⟩, ⟨0, 0⟩⟩

/-- A line without its comment. -/
def bare (l : Line) : Line := { l with remark := none }

/-- The words of the comment of a line. -/
def words? (l : Line) : Option Text := l.remark.map fun t => commentBody t.text

variable (l : Line)

@[simp]
theorem text_unplaced : l.unplaced.text = l.text := rfl

@[simp]
theorem isComment_unplaced : l.unplaced.isComment = l.isComment := by
  unfold isComment comment?
  simp only [unplaced, List.isEmpty_map]
  split <;> simp

@[simp]
theorem directive?_unplaced : l.unplaced.directive? = l.directive? := by
  obtain ⟨code, text, remark, position⟩ := l
  rcases code with _ | ⟨⟨kind, word, place⟩, rest⟩
  · rfl
  · cases kind <;> rfl

@[simp]
theorem endOf?_unplaced : l.unplaced.endOf? = l.endOf? := by
  unfold endOf?
  rw [directive?_unplaced]
  generalize l.directive? = d
  rcases d with _ | d
  · rfl
  · obtain ⟨code, text, remark, position⟩ := l
    rcases code with _ | ⟨first, _ | ⟨second, rest⟩⟩ <;> cases d <;> rfl

@[simp]
theorem closes_unplaced (name : Text) : l.unplaced.closes name = l.closes name := by
  rw [closes, closes, endOf?_unplaced]

@[simp]
theorem arguments_unplaced : l.unplaced.arguments = l.arguments := by
  obtain ⟨code, text, remark, position⟩ := l
  rcases code with _ | ⟨⟨kind, word, place⟩, rest⟩
  · rfl
  · cases kind <;> rfl

/-! ## Literals -/

/-- The value of a literal, at places that correspond. -/
theorem outcomes_decodeAt {K : Kinship} {p p' : Position} (h : K.places p p') (t : Text) :
    K.Outcomes Eq (decodeAt p t) (decodeAt p' t) :=
  K.outcomes_mapError _ fun _ => K.located h _ _

/-- A text literal, or faults that correspond. -/
theorem outcomes_quotedOr {K : Kinship} {fault fault' : Fault} (h : K.faults fault fault')
    (t : Text) : K.Outcomes Eq (quotedOr fault t) (quotedOr fault' t) := by
  unfold quotedOr
  split
  · exact .ok rfl
  · exact .error h

/-! ## Kinship of lines -/

/-- Two lines that are read alike. -/
structure Akin (K : Kinship) (o : Options) (l l' : Line) : Prop where
  /-- The code is the same, up to its places. -/
  code : l.code.map Token.unplaced = l'.code.map Token.unplaced
  /-- The text of the code is the same. -/
  text : l.text = l'.text
  /-- Both are comments, or none of them is. -/
  isComment : l.isComment = l'.isComment
  /-- The words of the comments are the same where comments are told. -/
  words : o.Alike l.words? l'.words?
  /-- The places correspond. -/
  position : K.places l.position l'.position

namespace Akin

variable {K : Kinship} {o : Options} {l l' : Line}

/-- What depends on nothing but the code of a line, up to its places, is the same for both. -/
theorem same {α : Type} (h : l.Akin K o l') (f : Line → α) (hf : ∀ l, f l.bare.unplaced = f l) :
    f l = f l' := by
  have hcode : l.bare.unplaced = l'.bare.unplaced := by
    simp only [bare, unplaced, h.code, h.text]
  rw [← hf l, hcode, hf]

theorem directive? (h : l.Akin K o l') : l.directive? = l'.directive? :=
  h.same Line.directive? fun l => l.bare.directive?_unplaced

theorem endOf? (h : l.Akin K o l') : l.endOf? = l'.endOf? :=
  h.same Line.endOf? fun l => l.bare.endOf?_unplaced

theorem arguments (h : l.Akin K o l') : l.arguments = l'.arguments :=
  h.same Line.arguments fun l => l.bare.arguments_unplaced

theorem closes (h : l.Akin K o l') (name : Text) : l.closes name = l'.closes name := by
  rw [Line.closes, Line.closes, h.endOf?]

/-- The first words are the same. -/
theorem head? (h : l.Akin K o l') : l.code.head?.map Token.text = l'.code.head?.map Token.text := by
  have hhead := congrArg (fun code => code.head?.map Token.text) h.code
  simp only [List.head?_map, Option.map_map] at hhead
  exact hhead

/-- There is code in both or in none. -/
theorem isEmpty (h : l.Akin K o l') : l.code.isEmpty = l'.code.isEmpty := by
  have hempty := congrArg List.isEmpty h.code
  rwa [List.isEmpty_map, List.isEmpty_map] at hempty

/-- The comments on the lines are alike. -/
theorem comment? (h : l.Akin K o l') : o.Alike l.comment? l'.comment? := by
  unfold Line.comment?
  rw [h.isEmpty]
  split
  · exact h.words
  · exact .refl none

/-- So are those behind the code. -/
theorem eolComment? (h : l.Akin K o l') : o.Alike l.eolComment? l'.eolComment? := by
  unfold Line.eolComment?
  rw [h.isEmpty]
  split
  · exact .refl none
  · exact h.words

/-- A line that is no comment has none of its own. -/
theorem comment?_cases (h : l.Akin K o l') :
    (∃ text text', l.comment? = some text ∧ l'.comment? = some text' ∧ o.Alike text text') ∨
      l.comment? = none ∧ l'.comment? = none := by
  have hcomment := h.isComment
  unfold Line.isComment at hcomment
  cases htext : l.comment? with
  | none =>
    rw [htext] at hcomment
    exact .inr ⟨rfl, Option.not_isSome_iff_eq_none.mp (by simp [← hcomment])⟩
  | some text =>
    rw [htext] at hcomment
    obtain ⟨text', htext'⟩ := Option.isSome_iff_exists.mp hcomment.symm
    refine .inl ⟨text, text', rfl, htext', fun hcomments => ?_⟩
    have halike := h.comment? hcomments
    rw [htext, htext'] at halike
    exact Option.some.inj halike

/-! ## Faults of lines -/

/-- Faults of grammar correspond. -/
theorem grammar (h : l.Akin K o l') (details : Text) :
    K.faults (l.grammar details) (l'.grammar details) :=
  K.located h.position .grammar details

/-- So do malformed descriptors. -/
theorem descriptorFault (h : l.Akin K o l') (kind : FaultKind) (flaw : DescriptorFlaw) :
    K.faults (l.descriptorFault kind flaw) (l'.descriptorFault kind flaw) :=
  K.located h.position kind flaw.message

/-! ## Arguments

The readers of arguments look at the code alone, and all their faults are at the place of the line. -/

theorem parseType (h : l.Akin K o l') (t : Text) : K.Outcomes Eq (l.parseType t) (l'.parseType t) :=
  K.outcomes_mapError _ (h.descriptorFault .descriptor)

theorem splitAccess (h : l.Akin K o l') (t : Text) :
    K.Outcomes Eq (l.splitAccess t) (l'.splitAccess t) := by
  unfold Line.splitAccess Access.ofKeywords
  dsimp only
  cases (Text.words t).getLast? with
  | none => exact .error (h.grammar _)
  | some last =>
    cases Access.addKeywords .none (Text.words t).dropLast with
    | ok access => exact .ok rfl
    | error word => exact .error (K.attach (K.plain _ _) h.position)

theorem classHeader (h : l.Akin K o l') : K.Outcomes Eq l.classHeader l'.classHeader := by
  unfold Line.classHeader
  rw [h.arguments]
  exact (h.splitAccess _).next fun found => (h.parseType found.2).next fun _ => .ok rfl

theorem singleType (h : l.Akin K o l') : K.Outcomes Eq l.singleType l'.singleType := by
  unfold Line.singleType
  rw [h.arguments, h.head?]
  split
  · exact .error (h.grammar _)
  · exact h.parseType _

theorem sourceName (h : l.Akin K o l') : K.Outcomes Eq l.sourceName l'.sourceName := by
  unfold Line.sourceName
  rw [h.arguments]
  split
  · exact .ok rfl
  · exact .error (h.grammar _)

theorem count (h : l.Akin K o l') : K.Outcomes Eq l.count l'.count := by
  unfold Line.count
  rw [h.arguments, h.text]
  split
  · exact .ok rfl
  · exact .error (h.grammar _)

theorem param (h : l.Akin K o l') : K.Outcomes Eq l.param l'.param := by
  unfold Line.param
  rw [h.arguments, h.text]
  dsimp only
  split
  · exact .error (h.grammar _)
  · split
    · exact .ok rfl
    · exact (outcomes_quotedOr (h.grammar _) _).map fun _ _ heq => by rw [heq]

theorem register (h : l.Akin K o l') (t : Option Text) :
    K.Outcomes Eq (l.register t) (l'.register t) := by
  unfold Line.register
  rw [h.text]
  split
  · split
    · exact .error (h.grammar _)
    · exact .ok rfl
  · exact .error (h.grammar _)

theorem localRegister (h : l.Akin K o l') : K.Outcomes Eq l.localRegister l'.localRegister := by
  unfold Line.localRegister
  rw [h.arguments]
  exact h.register _

theorem localName (h : l.Akin K o l') {malformed malformed' : Fault}
    (hmalformed : K.faults malformed malformed') (t : Text) :
    K.Outcomes Eq (l.localName malformed t) (l'.localName malformed' t) := by
  unfold Line.localName
  split
  · exact .ok rfl
  · split
    · split
      · exact .ok rfl
      · exact .error (h.grammar _)
    · exact .error hmalformed

theorem localVariable (h : l.Akin K o l') : K.Outcomes Eq l.localVariable l'.localVariable := by
  unfold Line.localVariable
  rw [h.arguments, h.text]
  dsimp only
  have hmalformed := h.grammar ("malformed .local '" ++ l'.text ++ "'")
  refine (h.register _).next fun register => ?_
  split
  · exact .ok rfl
  · refine (h.localName hmalformed _).next fun found => ?_
    split
    · refine (h.parseType _).next fun type => ?_
      split
      · exact .ok rfl
      · exact (outcomes_quotedOr hmalformed _).next fun _ => .ok rfl
    · exact .error hmalformed

theorem handler (h : l.Akin K o l') : K.Outcomes Eq l.handler l'.handler := by
  unfold Line.handler
  rw [h.arguments, h.text]
  split
  · split
    · exact .ok rfl
    · exact .error (h.grammar _)
  · exact .error (h.grammar _)

theorem field (h : l.Akin K o l') : K.Outcomes Eq l.field l'.field := by
  unfold Line.field
  rw [h.arguments]
  dsimp only
  refine (h.splitAccess _).next fun found => ?_
  refine (K.outcomes_mapError _ (h.descriptorFault .grammar)).next fun declared => ?_
  split
  · exact .ok rfl
  · exact (outcomes_decodeAt h.position _).next fun _ => .ok rfl

theorem method (h : l.Akin K o l') : K.Outcomes Eq l.method l'.method := by
  unfold Line.method
  rw [h.arguments]
  refine (h.splitAccess _).next fun found => ?_
  exact (K.outcomes_mapError _ (h.descriptorFault .grammar)).next fun _ => .ok rfl

theorem annotationHeader (h : l.Akin K o l') :
    K.Outcomes Eq l.annotationHeader l'.annotationHeader := by
  unfold Line.annotationHeader
  rw [h.arguments, h.text]
  split
  · rename_i visibility type _
    have hvisibility : K.Outcomes Eq ((Visibility.ofKeyword visibility).mapError (·.attach l.position))
        ((Visibility.ofKeyword visibility).mapError (·.attach l'.position)) := by
      unfold Visibility.ofKeyword
      split_ifs
      · exact .ok rfl
      · exact .ok rfl
      · exact .ok rfl
      · exact .error (K.attach (K.plain _ _) h.position)
    exact hvisibility.next fun _ => (h.parseType _).next fun _ => .ok rfl
  · exact .error (h.grammar _)

end Akin

end Line

end Smali
