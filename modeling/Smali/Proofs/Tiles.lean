import Smali.Proofs.Pieces

/-!
# Calls as tiles

The calls about a class are laid out tile by tile: calls that open and end nothing or open a
member, fields that end without annotations, ends of other members, and annotations as a whole.
Every reading that comes to an end leads to such calls.
-/

namespace Smali

/-- Calls from a site up to the end of the class. -/
inductive Tiled (validate : Bool) : Site → List Call → Prop where
  /-- The class can end. -/
  | nil {s : Site} (h : s.Ends) : Tiled validate s []
  /-- A call that neither ends a member nor opens an annotation. -/
  | line {s s' : Site} {call : Call} {rest : List Call} (h : s.accept validate call = some s')
    (hnest : s.nest = 0) (hnest' : s'.nest = 0) (hcall : call ≠ .finish)
    (hrest : Tiled validate s' rest) : Tiled validate s (call :: rest)
  /-- A field that ends without annotations. -/
  | bareField {s inner s' : Site} {name : Text} {access : Access} {type : TypeName}
    {v : Option Value} {rest : List Call}
    (h : s.accept validate (.field name access type v) = some inner)
    (hfinish : inner.accept validate .finish = some s') (hnest : s.nest = 0)
    (hrest : Tiled validate s' rest) :
    Tiled validate s (.field name access type v :: .finish :: rest)
  /-- The end of a member that has a closing line. -/
  | close {s s' : Site} {rest : List Call} (h : s.accept validate .finish = some s')
    (hnest : s.nest = 0) (hhost : s.host ≠ some (.field false))
    (hrest : Tiled validate s' rest) : Tiled validate s (.finish :: rest)
  /-- An annotation. -/
  | annotated {s inner mid : Site} {visibility : Visibility} {type : TypeName}
    {block rest : List Call}
    (h : s.accept validate (.annotationStart visibility type) = some inner)
    (hnest : s.nest = 0) (hinner : inner.nest = 1) (hblock : Block validate inner block mid)
    (hrest : Tiled validate mid rest) :
    Tiled validate s (.annotationStart visibility type :: (block ++ rest))

namespace Tiled

variable {validate : Bool} {s s' : Site} {calls : List Call}

/-- Tiles behind an annotation that was opened. -/
theorem of_annotationStart {e inner : Site} {visibility : Visibility} {type : TypeName}
    {rest : List Call} (h : s.accept validate (.annotationStart visibility type) = some inner)
    (hnest : s.nest = 0) (hinner : inner.nest = 1) (hrun : inner.run validate rest = some e)
    (he : e.Ends)
    (ih : ∀ mid more, more.length ≤ rest.length → mid.run validate more = some e →
      mid.nest = 0 → mid.host ≠ some (.field false) → Tiled validate mid more) :
    Tiled validate s (.annotationStart visibility type :: rest) := by
  obtain ⟨block, more, mid, rfl, hblock, hmore⟩ :=
    Block.exists_of_run hrun (by omega) he.nest
  have hhost : mid.host ≠ some (.field false) := by
    rw [hblock.host_eq]
    cases Site.step_of_next? (Site.next?_of_accept h) with
    | annotationOfClass hnest hhost => simp [hhost]
    | annotationOfField => simp
    | annotationOfMethod hnest hhost => simp [hhost]
    | header hnest hhost hcall => exact absurd hcall Bool.noConfusion
    | body hnest hhost hcall => exact absurd hcall Bool.noConfusion
  exact .annotated h hnest hinner hblock
    (ih mid more (by rw [List.length_append]; omega) hmore hblock.nest_eq_zero hhost)

/-- Calls that leave nothing open are tiles, unless they start in a field with its end. -/
theorem of_run {e : Site} (hrun : s.run validate calls = some e) (he : e.Ends)
    (hnest : s.nest = 0)
    (hfresh : s.host = some (.field false) → calls.head?.map Call.kind ≠ some .finish) :
    Tiled validate s calls := by
  generalize hlength : calls.length = n
  induction n using Nat.strong_induction_on generalizing s calls with
  | _ n ih =>
    cases calls with
    | nil =>
      obtain rfl := Option.some.inj hrun
      exact .nil he
    | cons call rest =>
      obtain ⟨mid, hmid, hrest⟩ := Option.bind_eq_some_iff.mp hrun
      have hshorter : rest.length < n := by rw [← hlength, List.length_cons]; omega
      have hnext : ∀ mid more, more.length ≤ rest.length → mid.run validate more = some e →
          mid.nest = 0 → mid.host ≠ some (.field false) → Tiled validate mid more :=
        fun mid more hle hmore hmid hhost =>
          ih more.length (by omega) hmore hmid (fun h => absurd h hhost) rfl
      have hlater := hnext mid rest (Nat.le_refl _) hrest
      cases Site.step_of_next? (Site.next?_of_accept hmid) with
      | header hnest hhost hcall =>
        refine .line hmid hnest hnest ?_ (hlater hnest (by simp [hhost]))
        rintro rfl
        exact absurd hcall Bool.noConfusion
      | field _ hhost _ name access type v =>
        by_cases hbare : rest.head?.map Call.kind = some .finish
        · obtain ⟨call, more, rfl, hcall⟩ : ∃ call more, rest = call :: more ∧
              call = .finish := by
            cases rest with
            | nil => exact absurd hbare (by simp)
            | cons call more =>
              refine ⟨call, more, rfl, ?_⟩
              cases call <;> first | rfl | exact absurd (Option.some.inj hbare) CallKind.noConfusion
          subst hcall
          obtain ⟨last, hlast, hmore⟩ := Option.bind_eq_some_iff.mp hrest
          have hends : last = { s with
              phase := .body
              declared := .field name :: s.declared
              host := none } :=
            Option.some.inj (hlast.symm.trans (Site.accept_endField validate hnest rfl))
          refine .bareField hmid hlast hnest
            (hnext last more (by rw [List.length_cons]; omega) hmore ?_ ?_)
          · rw [hends]
            exact hnest
          · rw [hends]
            simp
        · exact .line hmid hnest hnest Call.noConfusion
            (ih rest.length hshorter hrest hnest (fun _ => hbare) rfl)
      | method _ hhost _ name access signature =>
        exact .line hmid hnest hnest Call.noConfusion (hlater hnest (by simp))
      | annotationOfClass => exact of_annotationStart hmid hnest rfl hrest he hnext
      | annotationOfField => exact of_annotationStart hmid hnest rfl hrest he hnext
      | annotationOfMethod => exact of_annotationStart hmid hnest rfl hrest he hnext
      | @endField annotated _ hhost =>
        have hclosed : s.host ≠ some (.field false) := fun h => hfresh h rfl
        exact .close hmid hnest hclosed (hlater hnest (by simp))
      | endMethod _ hhost =>
        exact .close hmid hnest (by simp [hhost]) (hlater hnest (by simp))
      | param _ hhost =>
        exact .line hmid hnest hnest Call.noConfusion (hlater hnest (by simp))
      | paramEnd _ hhost =>
        exact .line hmid hnest hnest Call.noConfusion (hlater hnest (by simp))
      | body _ hhost hcall =>
        refine .line hmid hnest hnest ?_ (hlater hnest (by simp [hhost]))
        rintro rfl
        exact absurd hcall Bool.noConfusion
      | value houter => exact absurd hnest (by omega)
      | nested houter => exact absurd hnest (by omega)
      | annotationEnd houter => exact absurd hnest (by omega)

/-- Tiles follow on each other, and they leave nothing open. -/
theorem run (h : Tiled validate s calls) : ∃ e, s.run validate calls = some e ∧ e.Ends := by
  have hcons : ∀ {s s' : Site} {call : Call} {rest : List Call},
      s.accept validate call = some s' →
      (∃ e, s'.run validate rest = some e ∧ e.Ends) →
      ∃ e, s.run validate (call :: rest) = some e ∧ e.Ends := by
    rintro s s' call rest hcall ⟨e, hrest, he⟩
    exact ⟨e, by rw [Site.run_cons, hcall, Option.bind_some, hrest], he⟩
  induction h with
  | @nil s h => exact ⟨s, rfl, h⟩
  | line h hnest hnest' hcall hrest ih => exact hcons h ih
  | bareField h hfinish hnest hrest ih => exact hcons h (hcons hfinish ih)
  | close h hnest hclosed hrest ih => exact hcons h ih
  | annotated h hnest hinner hblock hrest ih =>
    obtain ⟨e, hrun, he⟩ := ih
    refine hcons h ⟨e, ?_, he⟩
    rw [Site.run_append, hblock.run, Option.bind_some, hrun]

/-- Tiles in a field do not start with its end, unless the end has a closing line. -/
theorem head_ne_finish (h : Tiled validate s calls) (hhost : s.host = some (.field false)) :
    calls.head?.map Call.kind ≠ some .finish := by
  cases h with
  | nil h => exact absurd (h.host.symm.trans hhost) (Option.some_ne_none _).symm
  | line h hnest hnest' hcall hrest =>
    rename_i call rest
    intro heq
    refine hcall ?_
    cases call <;> first | rfl | exact absurd (Option.some.inj heq) CallKind.noConfusion
  | bareField => exact fun heq => CallKind.noConfusion (Option.some.inj heq)
  | close h hnest hclosed => exact absurd hhost hclosed
  | annotated => exact fun heq => CallKind.noConfusion (Option.some.inj heq)

end Tiled

end Smali
