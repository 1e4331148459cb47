import Smali.Proofs.FormatAgain
import Smali.Proofs.TolerantLines

/-!
# Annotations that stray

The code of a field without annotations has no closing line. If an annotation of the class is
written behind it, a reader takes the annotation for one of the field, and then the field has to
be closed. No line of the class closes it, so the reading fails, whatever follows.
-/

namespace Smali

variable {validate : Bool} {s s' inner mid t : Site}

/-- A block leaves all but the annotations as it is. -/
theorem Block.end_eq {block : List Call} (h : Block validate s block mid) :
    mid = { s with nest := 0 } :=
  ((h.transfer id rfl).unique h (rfl : block ++ [] = block ++ [])).2.symm

/-- Behind an annotation of the class is the class. -/
theorem class_of_annotation {visibility : Visibility} {type : TypeName} {block : List Call}
    (hopen : s.accept validate (.annotationStart visibility type) = some inner)
    (hblock : Block validate inner block mid) (hnest : s.nest = 0) (hhost : s.host = none)
    (hphase : s.phase = .body) : mid.host = none ∧ mid.phase = .body := by
  have hnext := Site.next?_of_accept hopen
  rw [Site.next?_of_class hnest hhost] at hnext
  obtain rfl := Option.some.inj ((if_neg (by rw [hphase]; exact nofun)).symm.trans hnext)
  rw [hblock.end_eq]
  exact ⟨hhost, rfl⟩

/-- A legible annotation is read in a field, wherever it was written. -/
theorem readAll_annotationInField {visibility : Visibility} {type : TypeName} {block : List Call}
    (hopen : s.accept validate (.annotationStart visibility type) = some inner)
    (hinner : inner.nest = 1) (hblock : Block validate inner block mid)
    (hone : (Call.annotationStart visibility type).IsOneLine)
    (hlegible : Legible (.annotationStart visibility type :: block))
    {annotated : Bool} (hnest : t.nest = 0) (hfield : t.host = some (.field annotated))
    (rest : List Call) :
    (⟨t, none⟩ : Stance).readAll validate
        ((s.written (.annotationStart visibility type :: (block ++ rest))).map lineOf) =
      ((⟨{ t with host := some (.field true) }, none⟩ : Stance).readAll validate
        ((mid.written rest).map lineOf)).map
          ((.annotationStart visibility type :: block) ++ ·) := by
  obtain ⟨hline, hread⟩ := hlegible
  have hobject : validate = true → t.allows (.annotationStart visibility type) = true := by
    intro hvalidate
    unfold Site.accept at hopen
    rw [hvalidate] at hopen
    split at hopen
    · cases hopen
    · rename_i hpass
      have hallows : s.allows (.annotationStart visibility type) = true := by simpa using hpass
      exact hallows
  have htaken : t.accept validate (.annotationStart visibility type) =
      some { t with host := some (.field true), nest := 1 } :=
    Site.accept_of_next? hobject (Site.next?_of_field hnest hfield _)
  have hrun := (hblock.transfer id
    (t := { t with host := some (.field true), nest := 1 }) hinner.symm).run
  have hlines : (Site.within 1).written block = inner.written block := by
    rw [hblock.written_within, hinner]
  have htake := Stance.takeAll_of_readBlock (s := { t with host := some (.field true), nest := 1 })
    (by simp) hread hrun
  rw [hlines] at htake
  have hmid : { t with host := some (.field true), nest := 0 } =
      { t with host := some (.field true) } := by rw [← hnest]
  have hcode : s.codeLines (.annotationStart visibility type) =
      t.codeLines (.annotationStart visibility type) := rfl
  rw [Site.written_cons hopen, Site.written_block hblock, List.map_append, List.map_append, hcode,
    readAll_call rfl hone htaken (takesLine_annotationStart hnest hone) hline, Stance.readAll_append,
    htake, Option.bind_some]
  dsimp only
  rw [hmid, Option.map_map]
  rfl

/-- A field that has annotations takes no line of a member of the class. -/
theorem readAll_memberInField {call : Call} (hone : call.IsOneLine) {text : Text}
    (htext : call.line? = some text)
    (hd : ∀ l, lineOf text = some l →
      ∃ d, l.directive? = some d ∧ d ≠ .closing ∧ d ≠ .annotationStart)
    (hnest : t.nest = 0) (hfield : t.host = some (.field true)) (lines : List (Option Line)) :
    (⟨t, none⟩ : Stance).readAll validate ((s.codeLines call).map lineOf ++ lines) = none := by
  rw [s.codeLines_of_line? htext hone, List.map_singleton, lineOf_trim, List.singleton_append]
  cases hl : lineOf text with
  | none => rfl
  | some l =>
    obtain ⟨d, hd, hclosing, hopening⟩ := hd l hl
    rw [Stance.readAll_cons, Stance.take_of_field hnest hfield ((hone text htext).2.2 l hl)]
    unfold Stance.inField?
    rw [Line.closes_of_directive? hd hclosing, if_neg Bool.false_ne_true, hd,
      if_neg fun h => hopening (Option.some.inj h), if_pos rfl]
    rfl

/-- Nor does it take the line of any other call about the class. -/
theorem readAll_tileInField {call : Call} (hcall : s.accept validate call = some s')
    (hs : s.nest = 0) (hs' : s'.nest = 0) (hhost : s.host = none) (hphase : s.phase = .body)
    (hone : call.IsOneLine) (hnest : t.nest = 0) (hfield : t.host = some (.field true))
    (lines : List (Option Line)) :
    (⟨t, none⟩ : Stance).readAll validate ((s.codeLines call).map lineOf ++ lines) = none := by
  have hopen : ∀ {host : Host}, s.host ≠ some host := fun hsome =>
    Option.some_ne_none _ (hsome.symm.trans hhost)
  cases Site.step_of_next? (Site.next?_of_accept hcall) with
  | header _ _ _ hheader => exact absurd hphase hheader
  | field =>
    exact readAll_memberInField hone rfl (fun l hl =>
      ⟨_, directive?_field hl, Directive.noConfusion, Directive.noConfusion⟩) hnest hfield lines
  | method =>
    exact readAll_memberInField hone rfl (fun l hl =>
      ⟨_, directive?_method hl, Directive.noConfusion, Directive.noConfusion⟩) hnest hfield lines
  | annotationOfClass => exact absurd hs' Nat.one_ne_zero
  | value houter => exact absurd (houter.symm.trans hs) (Nat.succ_ne_zero _)
  | nested houter => exact absurd (houter.symm.trans hs) (Nat.succ_ne_zero _)
  | annotationEnd houter => exact absurd (houter.symm.trans hs) (Nat.succ_ne_zero _)
  | annotationOfField _ hsome => exact absurd hsome hopen
  | endField _ hsome => exact absurd hsome hopen
  | annotationOfMethod _ hsome => exact absurd hsome hopen
  | endMethod _ hsome => exact absurd hsome hopen
  | param _ hsome => exact absurd hsome hopen
  | paramEnd _ hsome => exact absurd hsome hopen
  | body _ hsome => exact absurd hsome hopen

/-- The lines that end scopes can be scanned. -/
theorem isSome_lineOf_closing {t : Text} (ht : t ∈ s.codeLines .finish) :
    (lineOf t).isSome = true := by
  have hclosing : s.closingText? = some t := Option.mem_toList.mp ht
  have hends : (lineOf ".end annotation").isSome = true ∧ (lineOf ".end subannotation").isSome = true ∧
      (lineOf ".end field").isSome = true ∧ (lineOf ".end method").isSome = true := by
    decide +kernel
  unfold Site.closingText? at hclosing
  split at hclosing
  · exact Option.some.inj hclosing ▸ hends.1
  · exact Option.some.inj hclosing ▸ hends.2.1
  · split at hclosing
    · exact Option.some.inj hclosing ▸ hends.2.2.1
    · cases hclosing
  · exact Option.some.inj hclosing ▸ hends.2.2.2
  · cases hclosing

/-- A block that is read can be scanned. -/
theorem Stance.isSome_of_readBlock {nest : Nat} {braces : Option Braces}
    {lines : List (Option Line)} {calls : List Call}
    (h : readBlock nest braces lines = some calls) : ∀ line ∈ lines, line.isSome = true := by
  induction lines generalizing nest braces calls with
  | nil => exact fun line hline => absurd hline List.not_mem_nil
  | cons line rest ih =>
    cases line with
    | none => exact absurd h (Option.some_ne_none _).symm
    | some l =>
      unfold readBlock at h
      split at h
      · cases h
      · obtain ⟨⟨st, first⟩, -, h⟩ := Option.bind_eq_some_iff.mp h
        obtain ⟨more, hmore, -⟩ := Option.map_eq_some_iff.mp h
        exact List.forall_mem_cons.mpr ⟨rfl, ih hmore⟩

namespace Tiled

variable {calls : List Call}

/-- A reader in a field that has annotations cannot read calls about the class. -/
theorem readAll_inField (h : Tiled validate s calls)
    (hone : ∀ call ∈ calls, call.IsOneLine) (hlegible : ∀ piece ∈ pieces calls, Legible piece)
    (hhost : s.host = none) (hphase : s.phase = .body) (hnest : t.nest = 0)
    (hfield : t.host = some (.field true)) :
    (⟨t, none⟩ : Stance).readAll validate ((s.written calls).map lineOf) = none := by
  induction h generalizing t with
  | nil =>
    have hfinish : (⟨t, none⟩ : Stance).finish? = none := by
      unfold Stance.finish?
      simp [hnest, hfield]
    simp [Stance.readAll, Stance.takeAll, Site.written, hfinish]
  | line hcall hs hs' =>
    rw [Site.written_cons hcall, List.map_append]
    exact readAll_tileInField hcall hs hs' hhost hphase (hone _ List.mem_cons_self) hnest hfield _
  | bareField hcall hfinish hs =>
    rw [Site.written_cons hcall, List.map_append]
    exact readAll_tileInField hcall hs (endsBare hcall hfinish hs).nest hhost hphase
      (hone _ List.mem_cons_self) hnest hfield _
  | close hcall hs hopen =>
    have hnext := Site.next?_of_accept hcall
    rw [Site.next?_of_class hs hhost] at hnext
    exact absurd hnext (Option.some_ne_none _).symm
  | @annotated s inner mid visibility type block rest hopen hs hinner hblock hrest ih =>
    rw [hblock.pieces_block hinner, List.forall_mem_cons] at hlegible
    have hmid := class_of_annotation hopen hblock hs hhost hphase
    have hread := ih (t := { t with host := some (.field true) })
      (fun call hcall => hone call (List.mem_cons_of_mem _ (List.mem_append_right _ hcall)))
      hlegible.2 hmid.1 hmid.2 hnest rfl
    rw [readAll_annotationInField hopen hinner hblock (hone _ List.mem_cons_self) hlegible.1 hnest
      hfield, hread]
    rfl

/-- A reader cannot read legible calls if an annotation of the class strays among them, or behind a
field that it is in still. -/
theorem readAll_strays (h : Tiled validate s calls) (hone : ∀ call ∈ calls, call.IsOneLine)
    (hlegible : ∀ piece ∈ pieces calls, Legible piece) (behind : Bool)
    (hbehind : behind = true → s.nest = 0 ∧ s.host = none ∧ s.phase = .body)
    (hstrays : Strays calls ∨ behind = true ∧ calls.head?.map Call.kind = some .annotationStart) :
    (s.reader behind).readAll validate ((s.written calls).map lineOf) = none := by
  induction h generalizing behind with
  | nil => exact absurd hstrays (by simp [Strays])
  | @line s s' call rest hcall hnest hnest' hfinish hrest ih =>
    have hopens := nestFrom_eq_zero (Site.next?_of_accept hcall) hnest hnest'
    have hline := hone call List.mem_cons_self
    obtain ⟨hkind, hsame⟩ := hrest.strays_line hcall hopens
    obtain ⟨text, htext, htake⟩ := takesLine_tile hcall hnest hnest' hfinish hline hbehind
    rw [pieces_cons hopens, List.forall_mem_cons, legible_singleton hfinish hopens] at hlegible
    have hmore : Strays rest := hsame.mp (hstrays.resolve_right fun h => hkind (Option.some.inj h.2))
    have hread : (⟨s', none⟩ : Stance).readAll validate ((s'.written rest).map lineOf) = none :=
      ih (fun c hc => hone c (List.mem_cons_of_mem _ hc)) hlegible.2 false
        Bool.noConfusion (.inl hmore)
    rw [Site.written_cons hcall, List.map_append, readAll_call htext hline hcall htake hlegible.1,
      hread]
    rfl
  | @bareField s inner s' name access type v rest hfield hfinish hnest hrest ih =>
    have hbare := endsBare hfield hfinish hnest
    have hline := hone _ List.mem_cons_self
    obtain ⟨text, htext, htake⟩ :=
      takesLine_tile hfield hnest hbare.nest Call.noConfusion hline hbehind
    rw [pieces_cons rfl, pieces_cons rfl, List.forall_mem_cons, List.forall_mem_cons,
      legible_singleton Call.noConfusion rfl] at hlegible
    have hmore : rest.head?.map Call.kind = some .annotationStart ∨ Strays rest :=
      (strays_field name access type v rest).mp
        (hstrays.resolve_right fun h => CallKind.noConfusion (Option.some.inj h.2))
    have hread := ih
      (fun c hc => hone c (List.mem_cons_of_mem _ (List.mem_cons_of_mem _ hc))) hlegible.2.2
      true (fun _ => hbare.after) (hmore.symm.imp_right fun h => ⟨rfl, h⟩)
    rw [hbare.reader] at hread
    rw [Site.written_cons hfield, Site.written_cons hfinish, hbare.closing, List.nil_append,
      List.map_append, readAll_call htext hline hfield htake hlegible.1, hread]
    rfl
  | @close s s' rest hcall hnest hclosed hrest ih =>
    obtain rfl := behind_of_close hcall hnest hbehind
    have hmore : Strays rest := (strays_cons CallKind.noConfusion rest).mp
      (hstrays.resolve_right fun h => Bool.noConfusion h.1)
    rw [pieces_cons rfl, List.forall_mem_cons] at hlegible
    have hread : (⟨s', none⟩ : Stance).readAll validate ((s'.written rest).map lineOf) = none :=
      ih (fun c hc => hone c (List.mem_cons_of_mem _ hc)) hlegible.2 false
        Bool.noConfusion (.inl hmore)
    have hclose := readAll_close hnest hclosed hcall ((s'.written rest).map lineOf)
    rw [hread] at hclose
    rw [Site.written_cons hcall, List.map_append]
    exact hclose
  | @annotated s inner mid visibility type block rest hopen hnest hinner hblock hrest ih =>
    have hline := hone _ List.mem_cons_self
    have hothers : ∀ call ∈ rest, call.IsOneLine := fun call hcall =>
      hone call (List.mem_cons_of_mem _ (List.mem_append_right _ hcall))
    rw [hblock.pieces_block hinner, List.forall_mem_cons] at hlegible
    cases behind with
    | true =>
      -- The reader is in the field still, and behind the annotation it cannot leave it.
      obtain ⟨-, hhost, hphase⟩ := hbehind rfl
      have hmid := class_of_annotation hopen hblock hnest hhost hphase
      have hread := hrest.readAll_inField hothers hlegible.2 hmid.1 hmid.2
        (t := { s with host := some (.field true) }) hnest rfl
      have hfield := readAll_annotationInField hopen hinner hblock hline hlegible.1
        (t := { s with host := some (.field false) }) hnest rfl rest
      rw [hread] at hfield
      exact hfield
    | false =>
      have hmore : Strays rest := by
        have hall := hstrays.resolve_right fun h => Bool.noConfusion h.1
        rwa [strays_cons CallKind.noConfusion, hblock.strays_append] at hall
      have hread : (⟨mid, none⟩ : Stance).readAll validate ((mid.written rest).map lineOf) = none :=
        ih hothers hlegible.2 false Bool.noConfusion (.inl hmore)
      have htake := Stance.takeAll_of_readBlock (s := inner) (by simp)
        (hinner.symm ▸ hlegible.1.2) hblock.run
      rw [← hblock.written_within] at htake
      have hinside : (⟨inner, none⟩ : Stance).readAll validate
          ((inner.written (block ++ rest)).map lineOf) = none := by
        rw [Site.written_block hblock, List.map_append, Stance.readAll_append, htake,
          Option.bind_some]
        dsimp only
        rw [hread]
        rfl
      have hopening := readAll_call rfl hline hopen (takesLine_annotationStart hnest hline) hlegible.1.1
        ((inner.written (block ++ rest)).map lineOf)
      rw [hinside] at hopening
      rw [Site.written_cons hopen, List.map_append]
      exact hopening

/-- The lines of legible calls can be scanned. -/
theorem isSome_lineOf (h : Tiled validate s calls) (hone : ∀ call ∈ calls, call.IsOneLine)
    (hlegible : ∀ piece ∈ pieces calls, Legible piece) :
    ∀ t ∈ s.written calls, (lineOf t).isSome = true := by
  have hcall : ∀ {s : Site} {call : Call}, call.IsLegible → call.IsOneLine →
      ∀ t ∈ s.codeLines call, (lineOf t).isSome = true := by
    rintro s call ⟨text, l, htext, hl, -⟩ hone t ht
    rw [s.codeLines_of_line? htext hone] at ht
    rw [List.mem_singleton.mp ht, lineOf_trim, hl]
    rfl
  induction h with
  | nil => exact fun t ht => absurd ht List.not_mem_nil
  | @line s s' call rest hline hnest hnest' hfinish hrest ih =>
    have hopens := nestFrom_eq_zero (Site.next?_of_accept hline) hnest hnest'
    rw [pieces_cons hopens, List.forall_mem_cons, legible_singleton hfinish hopens] at hlegible
    obtain ⟨hfirst, hothers⟩ := List.forall_mem_cons.mp hone
    rw [Site.written_cons hline]
    exact List.forall_mem_append.mpr ⟨hcall hlegible.1 hfirst, ih hothers hlegible.2⟩
  | bareField hfield hfinish hnest hrest ih =>
    rw [pieces_cons rfl, pieces_cons rfl, List.forall_mem_cons, List.forall_mem_cons,
      legible_singleton Call.noConfusion rfl] at hlegible
    obtain ⟨hfirst, hothers⟩ := List.forall_mem_cons.mp hone
    rw [Site.written_cons hfield, Site.written_cons hfinish, (endsBare hfield hfinish hnest).closing,
      List.nil_append]
    exact List.forall_mem_append.mpr ⟨hcall hlegible.1 hfirst,
      ih (List.forall_mem_cons.mp hothers).2 hlegible.2.2⟩
  | @close s s' rest hclose hnest hclosed hrest ih =>
    rw [pieces_cons rfl, List.forall_mem_cons] at hlegible
    rw [Site.written_cons hclose]
    refine List.forall_mem_append.mpr ⟨fun t ht => ?_, ih (List.forall_mem_cons.mp hone).2 hlegible.2⟩
    exact isSome_lineOf_closing ht
  | annotated hopen hnest hinner hblock hrest ih =>
    rw [hblock.pieces_block hinner, List.forall_mem_cons] at hlegible
    obtain ⟨hfirst, hothers⟩ := List.forall_mem_cons.mp hone
    rw [Site.written_cons hopen, Site.written_block hblock]
    refine List.forall_mem_append.mpr ⟨hcall hlegible.1.1 hfirst,
      List.forall_mem_append.mpr ⟨fun t ht => ?_,
        ih (List.forall_mem_append.mp hothers).2 hlegible.2⟩⟩
    have hread := hlegible.1.2
    rw [← hinner, ← hblock.written_within] at hread
    exact Stance.isSome_of_readBlock hread _ (List.mem_map_of_mem ht)

end Tiled

end Smali
