import Smali.Proofs.OneLine
import Smali.Proofs.ReadBack
import Smali.Proofs.Recorded

/-!
# Formatting twice

The canonical layout of a source should be its own canonical layout, and it should tell a
listener the same as the source does. Both hold exactly if no annotation of the class follows
a field without a closing line, and if each piece of the class is read back when it stands
alone. The code of several pieces never goes wrong in another way.
-/

namespace Smali

/-! ## Pieces alone -/

/-- The header of a class for a piece that has none. -/
def standInClass : Call := .header (.object "A") .none

/-- A method for a piece that belongs to one. -/
def standInMethod : Call := .method "m" .none ⟨[], .void⟩

/-- The calls about a class that has little more than one piece. -/
def alone : List Call → List Call
  | [] => [standInClass]
  | call :: rest =>
    match call with
    | .header _ _ => [call]
    | .superType _ | .implements _ | .source _ => [standInClass, call]
    | .field _ _ _ _ | .method _ _ _ => [standInClass, call, .finish]
    | .annotationStart _ _ => standInClass :: call :: rest
    | .finish => [standInClass, standInMethod, call]
    | .paramEnd => [standInClass, standInMethod, .param "p0" none, call, .finish]
    | _ => [standInClass, standInMethod, call, .finish]

/-- Whether the code of a piece that stands alone tells the piece again. -/
def ReadsAlone (piece : List Call) : Prop :=
  heard .default (Writer.codeOf (alone piece)) = .ok (Recorder.eventsOf (alone piece))

/-- What is a piece of the calls about a class. -/
inductive IsPiece : List Call → Prop where
  /-- A call outside annotations. -/
  | single {call : Call} (hopens : call.nestFrom 0 = 0)
    (hcall : call = .finish ∨ call.suits .ofAnnotationBody = false) : IsPiece [call]
  /-- An annotation. -/
  | annotated {validate : Bool} {inner mid : Site} (visibility : Visibility) (type : TypeName)
    {block : List Call} (hinner : inner.nest = 1) (hblock : Block validate inner block mid) :
    IsPiece (.annotationStart visibility type :: block)

/-- A call outside annotations is none of an annotation. -/
theorem suits_of_next? {s s' : Site} {call : Call} (h : s.next? call = some s')
    (hnest : s.nest = 0) : call = .finish ∨ call.suits .ofAnnotationBody = false := by
  cases Site.step_of_next? h with
  | header _ _ hcall =>
    cases call <;> first | exact .inr rfl | exact absurd hcall Bool.noConfusion
  | body _ _ hcall => cases call <;> first | exact .inr rfl | exact absurd hcall Bool.noConfusion
  | value houter => exact absurd (houter.symm.trans hnest) (Nat.succ_ne_zero _)
  | nested houter => exact absurd (houter.symm.trans hnest) (Nat.succ_ne_zero _)
  | annotationEnd => exact .inl rfl
  | endField => exact .inl rfl
  | endMethod => exact .inl rfl
  | _ => exact .inr rfl

/-- The pieces of calls that follow on each other are pieces. -/
theorem Tiled.isPiece {validate : Bool} {s : Site} {calls : List Call} (h : Tiled validate s calls) :
    ∀ piece ∈ pieces calls, IsPiece piece := by
  induction h with
  | nil => exact fun piece hpiece => absurd hpiece List.not_mem_nil
  | line h hnest hnest' hcall hrest ih =>
    have hopens := nestFrom_eq_zero (Site.next?_of_accept h) hnest hnest'
    rw [pieces_cons hopens]
    exact List.forall_mem_cons.mpr
      ⟨.single hopens (suits_of_next? (Site.next?_of_accept h) hnest), ih⟩
  | bareField h hfinish hnest hrest ih =>
    rw [pieces_cons rfl, pieces_cons rfl]
    exact List.forall_mem_cons.mpr ⟨.single rfl (.inr rfl),
      List.forall_mem_cons.mpr ⟨.single rfl (.inl rfl), ih⟩⟩
  | close h hnest hhost hrest ih =>
    rw [pieces_cons rfl]
    exact List.forall_mem_cons.mpr ⟨.single rfl (.inl rfl), ih⟩
  | annotated h hnest hinner hblock hrest ih =>
    rw [hblock.pieces_block hinner]
    exact List.forall_mem_cons.mpr ⟨.annotated _ _ hinner hblock, ih⟩

/-! ## Reading back -/

/-- The code of calls is read as the calls exactly if all pieces are legible and no annotation of
the class strays. -/
theorem strictCalls_codeOf_iff {o : Options} {calls : List Call} {s : Site}
    (hrun : (Site.initial o.snippet).run o.validate calls = some s) (hs : s.Ends)
    (hone : ∀ call ∈ calls, call.IsOneLine) :
    strictCalls o (Writer.codeOf calls) = some calls ↔
      (∀ piece ∈ pieces calls, Legible piece) ∧ ¬Strays calls := by
  have htiled : Tiled o.validate (Site.initial o.snippet) calls :=
    .of_run hrun hs rfl fun h => absurd h (Option.some_ne_none _).symm
  have hread := htiled.readAll_iff hone false Bool.noConfusion
  rw [strictCalls_eq, Writer.codeLines_codeOf hrun hs.nest hs.host]
  refine hread.trans (and_congr_right fun _ => ?_)
  simp

/-- A recorder hears certain calls of a source exactly if these are its calls. -/
theorem heard_eq_iff {o : Options} (h : o.IsPlain) {source : Text} {calls : List Call} {s : Site}
    (hrun : (Site.initial o.snippet).run o.validate calls = some s) :
    heard o source = .ok (Recorder.eventsOf calls) ↔ strictCalls o source = some calls := by
  have heq := heard_eq h source
  constructor
  · intro hheard
    rw [hheard] at heq
    obtain ⟨told, htold, hevents⟩ := Option.map_eq_some_iff.mp heq.symm
    obtain ⟨s', hrun', -⟩ := run_of_strictCalls htold
    have hsame := congrArg (List.map Recorder.Event.call) hevents
    rw [Recorder.calls_eventsOf hrun, Recorder.calls_eventsOf hrun'] at hsame
    rw [htold, List.append_cancel_right hsame]
  · intro htold
    rw [htold] at heq
    exact toOption_eq_some.mp heq

/-! ## Pieces that stand alone -/

/-- The class that stands in for others is legible. -/
theorem isLegible_standInClass : standInClass.IsLegible := by
  have hline : lineOf ".class LA;" = some
      ⟨[⟨.directive, ".class", ⟨0, 0⟩⟩, ⟨.typeDescriptor, "LA;", ⟨0, 0⟩⟩], ".class LA;", none,
        ⟨0, 0⟩⟩ := by decide +kernel
  exact ⟨_, _, rfl, hline, rfl⟩

/-- The method that stands in for others is legible. -/
theorem isLegible_standInMethod : standInMethod.IsLegible := by
  have hread : (lineOf ".method m()V").any (fun l => l.directive? = some .method ∧
      (l.method.toOption.map fun m => (m.name, m.access, m.signature)) =
        some ("m".toList, .none, ⟨[], .void⟩)) = true := by decide +kernel
  cases hline : lineOf ".method m()V" with
  | none =>
    rw [hline] at hread
    exact absurd hread Bool.false_ne_true
  | some l =>
    rw [hline, Option.any_some, decide_eq_true_iff] at hread
    obtain ⟨hd, hmethod⟩ := hread
    obtain ⟨m, hm, hparts⟩ := Option.map_eq_some_iff.mp hmethod
    obtain ⟨hname, hparts⟩ := Prod.mk.inj hparts
    obtain ⟨haccess, hsignature⟩ := Prod.mk.inj hparts
    refine ⟨_, l, rfl, hline, ?_⟩
    change l.classCall? = some standInMethod
    unfold Line.classCall?
    rw [hd]
    dsimp only
    rw [hm, Option.map_some, hname, haccess, hsignature]
    rfl

/-- The parameter that stands in for others is legible. -/
theorem isLegible_standInParam : (Call.param "p0" none).IsLegible := by
  have hline : lineOf ".param p0" = some
      ⟨[⟨.directive, ".param", ⟨0, 0⟩⟩, ⟨.identifier, "p0", ⟨0, 0⟩⟩], ".param p0", none,
        ⟨0, 0⟩⟩ := by decide +kernel
  exact ⟨_, _, rfl, hline, rfl⟩

/-- The calls that stand in for others are on one line each. -/
theorem isOneLine_standIns : standInClass.IsOneLine ∧ standInMethod.IsOneLine ∧
    (Call.param "p0" none).IsOneLine := by
  have hline : ∀ {call : Call} {text : Text}, call.line? = some text → text.IsInline →
      call.kind ≠ .instruction → call.IsOneLine := by
    intro call text htext hinline hkind
    refine isOneLine_of_isInline (fun text' htext' => ?_) ?_
    · obtain rfl := Option.some.inj (htext.symm.trans htext')
      exact hinline
    · rintro t rfl
      exact absurd rfl hkind
  exact ⟨hline rfl (by decide) CallKind.noConfusion, hline rfl (by decide) CallKind.noConfusion,
    hline rfl (by decide) CallKind.noConfusion⟩

/-- Calls whose code is read back under default options. -/
theorem heard_codeOf_iff {calls : List Call} {s : Site}
    (hrun : (Site.initial false).run false calls = some s) (hs : s.Ends)
    (hone : ∀ call ∈ calls, call.IsOneLine) :
    heard .default (Writer.codeOf calls) = .ok (Recorder.eventsOf calls) ↔
      (∀ piece ∈ pieces calls, Legible piece) ∧ ¬Strays calls :=
  (heard_eq_iff ⟨rfl, rfl⟩ hrun).trans (strictCalls_codeOf_iff hrun hs hone)

/-- Calls outside annotations are a piece each. -/
theorem pieces_of_nestFrom {calls : List Call} (hopens : ∀ call ∈ calls, call.nestFrom 0 = 0) :
    pieces calls = calls.map fun call => [call] := by
  induction calls with
  | nil => rfl
  | cons call rest ih =>
    obtain ⟨hcall, hrest⟩ := List.forall_mem_cons.mp hopens
    rw [pieces_cons hcall, ih hrest, List.map_cons]

/-- Without annotations none strays. -/
theorem not_strays {calls : List Call} (hopens : ∀ call ∈ calls, call.nestFrom 0 = 0) :
    ¬Strays calls := by
  intro hstrays
  have hmem : CallKind.annotationStart ∈ calls.map Call.kind :=
    hstrays.subset (List.mem_cons_of_mem _ (List.mem_cons_of_mem _ List.mem_cons_self))
  obtain ⟨call, hcall, hkind⟩ := List.mem_map.mp hmem
  have hnest := hopens call hcall
  cases call <;> first | exact CallKind.noConfusion hkind | exact absurd hnest Nat.one_ne_zero

/-- Whether a call, unless it is a certain one, is legible by itself. -/
def Call.StandsBy (call other : Call) : Prop :=
  other.IsOneLine ∧ other.nestFrom 0 = 0 ∧ (other = call ∨ Legible [other])

/-- Among calls that are legible one by one, a single call decides. -/
theorem heard_codeOf_single_iff {calls : List Call} {call : Call} (hcall : call ∈ calls) {s : Site}
    (hrun : (Site.initial false).run false calls = some s) (hs : s.Ends)
    (hothers : ∀ other ∈ calls, call.StandsBy other) :
    heard .default (Writer.codeOf calls) = .ok (Recorder.eventsOf calls) ↔ Legible [call] := by
  have hopens : ∀ other ∈ calls, other.nestFrom 0 = 0 := fun other h => (hothers other h).2.1
  rw [heard_codeOf_iff hrun hs fun other h => (hothers other h).1, pieces_of_nestFrom hopens]
  constructor
  · rintro ⟨hpieces, -⟩
    exact hpieces [call] (List.mem_map.mpr ⟨call, hcall, rfl⟩)
  · intro hlegible
    refine ⟨fun piece hpiece => ?_, not_strays hopens⟩
    obtain ⟨other, hother, rfl⟩ := List.mem_map.mp hpiece
    cases (hothers other hother).2.2 with
    | inl heq => exact heq ▸ hlegible
    | inr h => exact h

/-- A piece that is one call is read back alone exactly if it is legible. -/
theorem readsAlone_single_iff {call : Call} (hopens : call.nestFrom 0 = 0)
    (hcall : call = .finish ∨ call.suits .ofAnnotationBody = false) (hone : call.IsOneLine) :
    ReadsAlone [call] ↔ Legible [call] := by
  obtain ⟨hclass, hmethod, hparam⟩ := isOneLine_standIns
  have hfinish : call.StandsBy .finish := ⟨isOneLine_of_line?_eq_none rfl, rfl, .inr trivial⟩
  have hself : call.StandsBy call := ⟨hone, hopens, .inl rfl⟩
  have hheader : call.StandsBy standInClass := ⟨hclass, rfl, .inr isLegible_standInClass⟩
  have hbody : call.StandsBy standInMethod := ⟨hmethod, rfl, .inr isLegible_standInMethod⟩
  have hopened : call.StandsBy (.param "p0" none) := ⟨hparam, rfl, .inr isLegible_standInParam⟩
  have hends : ∀ {s : Site}, s.phase ≠ .start → s.host = none → s.nest = 0 → s.Ends :=
    fun hphase hhost hnest => ⟨hphase, hhost, hnest⟩
  have hone : ∀ other ∈ [call], call.StandsBy other := List.forall_mem_singleton.mpr hself
  have hclassed : ∀ other ∈ [standInClass, call], call.StandsBy other :=
    List.forall_mem_cons.mpr ⟨hheader, hone⟩
  have hmember : ∀ other ∈ [standInClass, call, .finish], call.StandsBy other :=
    List.forall_mem_cons.mpr ⟨hheader, List.forall_mem_cons.mpr
      ⟨hself, List.forall_mem_singleton.mpr hfinish⟩⟩
  have hcode : ∀ other ∈ [standInClass, standInMethod, call, .finish], call.StandsBy other :=
    List.forall_mem_cons.mpr ⟨hheader, List.forall_mem_cons.mpr ⟨hbody, List.forall_mem_cons.mpr
      ⟨hself, List.forall_mem_singleton.mpr hfinish⟩⟩⟩
  have hmem : call ∈ [standInClass, call] ∧ call ∈ [standInClass, call, .finish] ∧
      call ∈ [standInClass, standInMethod, call, .finish] := by simp
  unfold ReadsAlone
  cases call with
  | comment text => exact absurd hcall (by simp [Call.suits])
  | eolComment text => exact absurd hcall (by simp [Call.suits])
  | value name v => exact absurd hcall (by simp [Call.suits])
  | annotationStart visibility type => exact absurd hopens Nat.one_ne_zero
  | subannotationStart name type => exact absurd hopens Nat.one_ne_zero
  | finish =>
    exact heard_codeOf_single_iff (by simp [alone]) rfl (hends Phase.noConfusion rfl rfl)
      (List.forall_mem_cons.mpr ⟨hheader, List.forall_mem_cons.mpr ⟨hbody, hone⟩⟩)
  | header type access =>
    exact heard_codeOf_single_iff List.mem_cons_self rfl (hends Phase.noConfusion rfl rfl) hone
  | superType type =>
    exact heard_codeOf_single_iff hmem.1 rfl (hends Phase.noConfusion rfl rfl) hclassed
  | implements type =>
    exact heard_codeOf_single_iff hmem.1 rfl (hends Phase.noConfusion rfl rfl) hclassed
  | source name =>
    exact heard_codeOf_single_iff hmem.1 rfl (hends Phase.noConfusion rfl rfl) hclassed
  | field name access type v =>
    exact heard_codeOf_single_iff hmem.2.1 rfl (hends Phase.noConfusion rfl rfl) hmember
  | method name access signature =>
    exact heard_codeOf_single_iff hmem.2.1 rfl (hends Phase.noConfusion rfl rfl) hmember
  | paramEnd =>
    refine heard_codeOf_single_iff (by simp [alone]) rfl (hends Phase.noConfusion rfl rfl) ?_
    exact List.forall_mem_cons.mpr ⟨hheader, List.forall_mem_cons.mpr ⟨hbody,
      List.forall_mem_cons.mpr ⟨hopened, List.forall_mem_cons.mpr
        ⟨hself, List.forall_mem_singleton.mpr hfinish⟩⟩⟩⟩
  | _ => exact heard_codeOf_single_iff hmem.2.2 rfl (hends Phase.noConfusion rfl rfl) hcode

/-- What passes the checks inside an annotation passes them inside every other one. -/
theorem Site.accept_of_nest {validate weaker : Bool} (hweaker : weaker = true → validate = true)
    {s mid t : Site} {call : Call} (h : s.accept validate call = some mid) (hnest : s.nest ≠ 0)
    (ht : t.nest = s.nest) : t.accept weaker call = some { t with nest := mid.nest } := by
  obtain ⟨outer, houter⟩ := Nat.exists_eq_succ_of_ne_zero hnest
  have hnext := Site.next?_of_accept h
  rw [Site.next?_of_nest houter] at hnext
  obtain ⟨nest, hnest', rfl⟩ := Option.map_eq_some_iff.mp hnext
  have hallows : weaker = true → t.allows call = true := by
    intro hw
    have hpass : s.allows call = true := by
      unfold Site.accept at h
      rw [hweaker hw] at h
      split at h
      · exact absurd h (Option.some_ne_none _).symm
      · simp_all
    cases call <;> first | exact hpass | exact absurd hnest' (Option.some_ne_none _).symm
  unfold Site.accept
  rw [if_neg (by simpa using hallows), Site.next?_of_nest (ht.trans houter), hnest']
  rfl

/-- A block is one in every site with as many open annotations. -/
theorem Block.transfer {validate weaker : Bool} (hweaker : weaker = true → validate = true)
    {s s' : Site} {block : List Call} (h : Block validate s block s') {t : Site}
    (ht : t.nest = s.nest) : Block weaker t block { t with nest := 0 } := by
  induction h generalizing t with
  | @last s s' h hnest =>
    have hlast := Site.accept_of_nest hweaker h (by omega) ht
    have hzero : s'.nest = 0 := Block.nest_eq_zero (.last h hnest)
    rw [hzero] at hlast
    exact .last hlast (ht.trans hnest)
  | @step s mid s' call rest h hnest hmid hrest ih =>
    exact .step (Site.accept_of_nest hweaker h hnest ht) (ht.symm ▸ hnest) hmid (ih rfl)

/-- An annotation is read back alone exactly if it is legible. -/
theorem readsAlone_annotation_iff {validate : Bool} {inner mid : Site} (visibility : Visibility)
    (type : TypeName) {block : List Call} (hinner : inner.nest = 1)
    (hblock : Block validate inner block mid)
    (hone : ∀ call ∈ Call.annotationStart visibility type :: block, call.IsOneLine) :
    ReadsAlone (.annotationStart visibility type :: block) ↔
      Legible (.annotationStart visibility type :: block) := by
  have htransfer : Block false ⟨.body, [], none, 1⟩ block ⟨.body, [], none, 0⟩ :=
    hblock.transfer Bool.noConfusion hinner.symm
  have hrun : (Site.initial false).run false
      (standInClass :: .annotationStart visibility type :: block) =
        some ⟨.body, [], none, 0⟩ := htransfer.run
  have hpieces : pieces (standInClass :: .annotationStart visibility type :: block) =
      [[standInClass], .annotationStart visibility type :: block] := by
    have hopening := hblock.pieces_block hinner visibility type []
    rw [List.append_nil] at hopening
    rw [pieces_cons rfl, hopening]
    rfl
  have hstrays : ¬Strays (standInClass :: .annotationStart visibility type :: block) := by
    have hrest := hblock.strays_append []
    rw [List.append_nil] at hrest
    rw [strays_cons CallKind.noConfusion, strays_cons CallKind.noConfusion, hrest]
    exact not_strays fun call hcall => absurd hcall List.not_mem_nil
  unfold ReadsAlone
  rw [alone, heard_codeOf_iff hrun ⟨Phase.noConfusion, rfl, rfl⟩
    (List.forall_mem_cons.mpr ⟨isOneLine_standIns.1, hone⟩), hpieces, List.forall_mem_cons,
    List.forall_mem_singleton]
  constructor
  · rintro ⟨⟨-, hlegible⟩, -⟩
    exact hlegible
  · exact fun hlegible => ⟨⟨isLegible_standInClass, hlegible⟩, hstrays⟩

/-- A piece is read back alone exactly if it is legible. -/
theorem readsAlone_iff {piece : List Call} (h : IsPiece piece)
    (hone : ∀ call ∈ piece, call.IsOneLine) : ReadsAlone piece ↔ Legible piece := by
  cases h with
  | single hopens hcall => exact readsAlone_single_iff hopens hcall (hone _ List.mem_cons_self)
  | annotated visibility type hinner hblock =>
    exact readsAlone_annotation_iff visibility type hinner hblock hone

/-- The calls of a piece are calls of the class. -/
theorem mem_of_mem_pieces {nest : Nat} {calls piece : List Call}
    (hpiece : piece ∈ piecesFrom nest calls) {call : Call} (hcall : call ∈ piece) :
    call ∈ calls := by
  induction calls generalizing nest piece with
  | nil => exact absurd hpiece List.not_mem_nil
  | cons first rest ih =>
    rw [piecesFrom] at hpiece
    split at hpiece
    · cases hpiece with
      | head => exact List.mem_singleton.mp hcall ▸ List.mem_cons_self
      | tail _ hpiece => exact List.mem_cons_of_mem _ (ih hpiece hcall)
    · split at hpiece
      · rw [List.mem_singleton.mp hpiece] at hcall
        exact List.mem_singleton.mp hcall ▸ List.mem_cons_self
      · rename_i start more heq
        cases hpiece with
        | head =>
          cases hcall with
          | head => exact List.mem_cons_self
          | tail _ hcall =>
            exact List.mem_cons_of_mem _ (ih (heq ▸ List.mem_cons_self) hcall)
        | tail _ hpiece =>
          exact List.mem_cons_of_mem _ (ih (heq ▸ List.mem_cons_of_mem _ hpiece) hcall)

/-! ## Formatting twice -/

/-- The canonical layout of a source is laid out as it is and tells the same as the source exactly
if no annotation of the class strays and every piece is read back alone. -/
theorem format_again_iff {o : Options} (h : o.IsPlain) {source code : Text}
    (hformat : format o source = .ok code) :
    ∃ events calls, heard o source = .ok events ∧
      events.map Recorder.Event.call = calls ++ [.finish] ∧
      (format o code = .ok code ∧ heard o code = .ok events ↔
        ¬Strays calls ∧ ∀ piece ∈ pieces calls, ReadsAlone piece) := by
  have hcode := format_eq h source
  rw [hformat] at hcode
  obtain ⟨calls, hcalls, rfl⟩ := Option.map_eq_some_iff.mp hcode.symm
  obtain ⟨s, hrun, hs⟩ := run_of_strictCalls hcalls
  have hone := isOneLine_of_strictCalls hcalls
  refine ⟨Recorder.eventsOf calls, calls, (heard_eq_iff h hrun).mpr hcalls,
    Recorder.calls_eventsOf hrun, ?_⟩
  have htiled : Tiled o.validate (Site.initial o.snippet) calls :=
    .of_run hrun hs rfl fun h => absurd h (Option.some_ne_none _).symm
  have halone : (∀ piece ∈ pieces calls, ReadsAlone piece) ↔
      ∀ piece ∈ pieces calls, Legible piece :=
    forall₂_congr fun piece hpiece => readsAlone_iff (htiled.isPiece piece hpiece)
      fun call hcall => hone call (mem_of_mem_pieces hpiece hcall)
  rw [halone, heard_eq_iff h hrun, and_comm (a := ¬Strays calls),
    ← strictCalls_codeOf_iff hrun hs hone]
  refine and_iff_right_of_imp fun hread => ?_
  have hagain := format_eq h (Writer.codeOf calls)
  rw [hread] at hagain
  cases hresult : format o (Writer.codeOf calls) with
  | error fault => rw [hresult] at hagain; cases hagain
  | ok code =>
    rw [hresult] at hagain
    exact congrArg Except.ok (Option.some.inj hagain)

/-- A class with one field. -/
theorem format_again_field :
    format .default ".class La;\n.field x:I\n".toList =
        .ok ".class La;\n\n.field x:I\n".toList ∧
      ∃ events calls, heard .default ".class La;\n.field x:I\n".toList = .ok events ∧
        events.map Recorder.Event.call = calls ++ [.finish] ∧
        (format .default ".class La;\n\n.field x:I\n".toList =
              .ok ".class La;\n\n.field x:I\n".toList ∧
            heard .default ".class La;\n\n.field x:I\n".toList = .ok events ↔
          ¬Strays calls ∧ ∀ piece ∈ pieces calls, ReadsAlone piece) :=
  ⟨by decide +kernel, format_again_iff ⟨rfl, rfl⟩ (by decide +kernel)⟩

/-- A field without annotations before an annotation of the class. The field loses its closing
line, so the layout is no source any more. -/
theorem format_again_strays :
    format .default
        ".class La;\n.field x:I\n.end field\n.annotation runtime Lb;\n.end annotation\n".toList =
        .ok ".class La;\n\n.field x:I\n\n.annotation runtime Lb;\n.end annotation\n".toList ∧
      format .default
        ".class La;\n\n.field x:I\n\n.annotation runtime Lb;\n.end annotation\n".toList =
        .error ⟨.unterminated, "missing .end field", some ⟨3, 1⟩⟩ :=
  ⟨by decide +kernel, by decide +kernel⟩

end Smali
