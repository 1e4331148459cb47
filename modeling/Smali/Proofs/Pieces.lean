import Smali.Proofs.Blocks
import Smali.Proofs.DirectiveLines

/-!
# Pieces of a class

The calls about a class fall into pieces: the blocks of its annotations, and every other call
by itself. A piece is legible if the lines that are written for it are read as its calls
again. Between pieces one thing can go wrong: a field without annotations has no closing
line, and so it takes an annotation of the class that follows it directly.
-/

namespace Smali

/-- How many annotations are open after a call. -/
def Call.nestFrom (nest : Nat) : Call → Nat
  | .annotationStart _ _ | .subannotationStart _ _ => nest + 1
  | .finish => nest - 1
  | _ => nest

/-- The pieces of calls, the first of which are made in open annotations. -/
def piecesFrom (nest : Nat) : List Call → List (List Call)
  | [] => []
  | call :: rest =>
    if call.nestFrom nest = 0 then [call] :: piecesFrom 0 rest
    else
      match piecesFrom (call.nestFrom nest) rest with
      | [] => [[call]]
      | piece :: more => (call :: piece) :: more

/-- The pieces of the calls about a class. -/
def pieces (calls : List Call) : List (List Call) := piecesFrom 0 calls

/-- Whether a field ends without annotations directly before an annotation of the class. -/
def Strays (calls : List Call) : Prop :=
  [.field, .finish, .annotationStart] <:+: calls.map Call.kind

instance (calls : List Call) : Decidable (Strays calls) :=
  inferInstanceAs (Decidable ([CallKind.field, .finish, .annotationStart] <:+: calls.map Call.kind))

/-- Whether a line reads as a call of its sort. -/
def Line.reads (l : Line) (call : Call) : Prop :=
  if call.suits .ofClass then l.classCall? = some call else l.bodyCall? = some call

/-- The line of a call is read as the call. -/
def Call.IsLegible (call : Call) : Prop :=
  ∃ text l, call.line? = some text ∧ lineOf text = some l ∧ l.reads call

/-- The lines of a piece are read as its calls. -/
def Legible : List Call → Prop
  | .finish :: _ | [] => True
  | .annotationStart visibility type :: block =>
    (Call.annotationStart visibility type).IsLegible ∧
      Stance.readBlock 1 none (((Site.within 1).written block).map lineOf) = some block
  | call :: _ => call.IsLegible

/-- A call whose line is one line of code. -/
def Call.IsOneLine (call : Call) : Prop :=
  ∀ text, call.line? = some text →
    '\n' ∉ text ∧ Text.trim text ≠ [] ∧ ∀ l, lineOf text = some l → l.isComment = false

/-- The code lines of such a call. -/
theorem Call.IsOneLine.codeLines {call : Call} (h : call.IsOneLine) {text : Text}
    (htext : call.line? = some text) : Text.codeLines text = [Text.trim text] := by
  obtain ⟨hnl, hne, -⟩ := h text htext
  rw [Text.codeLines_of_not_mem hnl, if_neg (by simpa [List.isEmpty_iff] using hne)]

/-- No call. -/
@[simp]
theorem pieces_nil : pieces [] = [] := rfl

/-- A call outside annotations is a piece. -/
theorem pieces_cons {call : Call} (hcall : call.nestFrom 0 = 0) (rest : List Call) :
    pieces (call :: rest) = [call] :: pieces rest := by
  rw [pieces, piecesFrom, if_pos hcall]
  rfl

/-- The annotations that are open after a call in an annotation. -/
theorem nest_eq_nestFrom {s s' : Site} {call : Call} (h : s.next? call = some s')
    (hnest : s.nest ≠ 0) : s'.nest = call.nestFrom s.nest := by
  cases Site.step_of_next? h with
  | value => rfl
  | nested houter => simp only [Call.nestFrom]; omega
  | annotationEnd houter => simp only [Call.nestFrom]; omega
  | body hnest' => exact absurd hnest' hnest
  | header hnest' => exact absurd hnest' hnest
  | field hnest' => exact absurd hnest' hnest
  | method hnest' => exact absurd hnest' hnest
  | annotationOfClass hnest' => exact absurd hnest' hnest
  | annotationOfField hnest' => exact absurd hnest' hnest
  | endField hnest' => exact absurd hnest' hnest
  | annotationOfMethod hnest' => exact absurd hnest' hnest
  | endMethod hnest' => exact absurd hnest' hnest
  | param hnest' => exact absurd hnest' hnest
  | paramEnd hnest' => exact absurd hnest' hnest

/-- A call that leaves no annotation open where none was open. -/
theorem nestFrom_eq_zero {s s' : Site} {call : Call} (h : s.next? call = some s')
    (hnest : s.nest = 0) (hnest' : s'.nest = 0) : call.nestFrom 0 = 0 := by
  cases Site.step_of_next? h with
  | header _ _ hcall => cases call <;> first | rfl | exact absurd hcall Bool.noConfusion
  | body _ _ hcall => cases call <;> first | rfl | exact absurd hcall Bool.noConfusion
  | annotationOfClass => exact absurd hnest' Nat.one_ne_zero
  | annotationOfField => exact absurd hnest' Nat.one_ne_zero
  | annotationOfMethod => exact absurd hnest' Nat.one_ne_zero
  | value houter => exact absurd (houter.symm.trans hnest) (Nat.succ_ne_zero _)
  | nested => exact absurd hnest' (Nat.succ_ne_zero _)
  | _ => rfl

/-- The rest of a block is the rest of a piece. -/
theorem Block.piecesFrom_append {validate : Bool} {s s' : Site} {block : List Call}
    (h : Block validate s block s') (rest : List Call) :
    piecesFrom s.nest (block ++ rest) = block :: pieces rest := by
  induction h with
  | last h hnest => rw [hnest]; rfl
  | @step s mid s' call more h hnest hmid hrest ih =>
    have hnext := nest_eq_nestFrom (Site.next?_of_accept h) hnest
    rw [List.cons_append, piecesFrom, ← hnext, if_neg hmid, ih]

/-- An annotation is a piece. -/
theorem Block.pieces_block {validate : Bool} {s s' : Site} {block : List Call}
    (h : Block validate s block s') (hnest : s.nest = 1) (visibility : Visibility)
    (type : TypeName) (rest : List Call) :
    pieces (.annotationStart visibility type :: (block ++ rest)) =
      (.annotationStart visibility type :: block) :: pieces rest := by
  have hblock := h.piecesFrom_append rest
  rw [hnest] at hblock
  have hopen : (Call.annotationStart visibility type).nestFrom 0 = 1 := rfl
  rw [pieces, piecesFrom, hopen, if_neg Nat.one_ne_zero]
  exact (congrArg (fun ps => match ps with
    | [] => [[Call.annotationStart visibility type]]
    | piece :: more => (.annotationStart visibility type :: piece) :: more) hblock)

/-- Nothing strays in what does not start with a field. -/
theorem strays_cons {call : Call} (hcall : call.kind ≠ .field) (rest : List Call) :
    Strays (call :: rest) ↔ Strays rest := by
  unfold Strays
  rw [List.map_cons, List.infix_cons_iff]
  refine or_iff_right fun h => ?_
  rw [List.cons_prefix_cons] at h
  exact hcall h.1.symm

/-- Nothing strays inside a block. -/
theorem Block.strays_append {validate : Bool} {s s' : Site} {block : List Call}
    (h : Block validate s block s') (rest : List Call) :
    Strays (block ++ rest) ↔ Strays rest := by
  induction h with
  | last h hnest => exact strays_cons CallKind.noConfusion rest
  | @step s mid s' call more h hnest hmid hrest ih =>
    have hcall : call.kind ≠ .field := by
      have hnext := Site.next?_of_accept h
      obtain ⟨outer, houter⟩ := Nat.exists_eq_succ_of_ne_zero hnest
      rw [Site.next?_of_nest houter] at hnext
      cases call <;> first | exact CallKind.noConfusion | exact absurd hnext (Option.some_ne_none _).symm
    rw [List.cons_append, strays_cons hcall, ih]

/-- A field without annotations, and what follows. -/
theorem strays_field (name : Text) (access : Access) (type : TypeName) (v : Option Value)
    (rest : List Call) :
    Strays (.field name access type v :: .finish :: rest) ↔
      rest.head?.map Call.kind = some .annotationStart ∨ Strays rest := by
  have hrest : Strays (.finish :: rest) ↔ Strays rest := strays_cons CallKind.noConfusion rest
  unfold Strays at hrest ⊢
  rw [List.map_cons, List.infix_cons_iff, hrest]
  refine or_congr_left ?_
  rw [List.map_cons, List.cons_prefix_cons, List.cons_prefix_cons]
  cases rest with
  | nil => simp
  | cons call more =>
    rw [List.map_cons, List.cons_prefix_cons, List.head?_cons, Option.map_some, Option.some_inj]
    constructor
    · rintro ⟨-, -, hcall, -⟩
      exact hcall.symm
    · intro hcall
      exact ⟨rfl, rfl, hcall.symm, List.nil_prefix⟩

/-- A field that something else than its end follows. -/
theorem strays_of_head {rest : List Call} (h : rest.head?.map Call.kind ≠ some .finish)
    (call : Call) : Strays (call :: rest) ↔ Strays rest := by
  unfold Strays
  rw [List.map_cons, List.infix_cons_iff]
  refine or_iff_right fun hstart => h ?_
  rw [List.cons_prefix_cons] at hstart
  cases rest with
  | nil => exact absurd (List.prefix_nil.mp hstart.2) (List.cons_ne_nil _ _)
  | cons call more =>
    rw [List.map_cons, List.cons_prefix_cons] at hstart
    rw [List.head?_cons, Option.map_some, hstart.2.1]

end Smali
