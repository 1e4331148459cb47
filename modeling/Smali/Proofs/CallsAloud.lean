import Smali.Proofs.CallLines
import Smali.Proofs.FormatAgain
import Smali.Proofs.NotedReading

/-!
# Calls that are read back alone

A call is read aloud if the code of little more than the call tells the call again and no comment.
Then all its lines are code without comments, and they are read as the call: the line of a call as
its one call, and the lines of an element as nothing before the last of them.
-/

namespace Smali

open Text

/-! ## Calls alone -/

/-- An annotation for an element that belongs to one. -/
def standInOpening : Call := .annotationStart .runtime (.object "A")

/-- The calls of a piece that has little more than one call. -/
def Call.piece : Call → List Call
  | .annotationStart visibility type => [.annotationStart visibility type, .finish]
  | .value name v => [standInOpening, .value name v, .finish]
  | .subannotationStart name type =>
    [standInOpening, .subannotationStart name type, .finish, .finish]
  | call => [call]

/-- Options under which all is told, and no check is made. -/
def Options.aloud : Options := { Options.default with comments := true }

/-- Whether the code of a call that stands alone tells the call again, and no comment. -/
def Call.ReadsAloud (call : Call) : Prop :=
  heard .aloud (Writer.codeOf (alone call.piece)) = .ok (Recorder.eventsOf (alone call.piece))

/-- A call stands in the calls about a class that has little more. -/
theorem Call.exists_run_alone {call : Call} (h : call.isComment = false) :
    ∃ s, (Site.initial false).run false (alone call.piece) = some s ∧ s.Ends ∧
      call ∈ alone call.piece := by
  have hends : ∀ {s : Site}, s.phase ≠ .start → s.host = none → s.nest = 0 → s.Ends :=
    fun hphase hhost hnest => ⟨hphase, hhost, hnest⟩
  cases call with
  | comment text => exact nomatch h
  | eolComment text => exact nomatch h
  | _ => exact ⟨_, rfl, hends Phase.noConfusion rfl rfl, by simp [alone, piece, standInOpening]⟩

/-- If certain calls are heard of a source, comments included, the source tells them. -/
theorem commentedCalls_of_heard {o : Options} (ho : o.IsAttentive) {source : Text}
    {calls : List Call} {s : Site}
    (hrun : (Site.initial o.snippet).run o.validate calls = some s)
    (h : heard o source = .ok (Recorder.eventsOf calls)) :
    commentedCalls o source = some calls := by
  have heq := heard_commented_eq ho source
  rw [h] at heq
  obtain ⟨told, htold, hevents⟩ := Option.map_eq_some_iff.mp heq.symm
  have hsame := congrArg (List.map Recorder.Event.call) hevents
  rw [Recorder.calls_eventsOf_commented htold, Recorder.calls_eventsOf hrun] at hsame
  rw [htold, List.append_cancel_right hsame]

/-! ## Lines of code -/

/-- All lines of a reading that comes to an end are scanned. -/
theorem Watch.isSome_of_readAll {validate : Bool} {w : Watch} {lines : List (Option Line)}
    {calls : List Call} (h : w.readAll validate lines = some calls) :
    ∀ line ∈ lines, line.isSome = true := by
  induction lines generalizing w calls with
  | nil => exact List.forall_mem_nil _
  | cons line rest ih =>
    cases line with
    | none => exact nomatch h
    | some l =>
      obtain ⟨⟨w', first⟩, -, h⟩ := Option.bind_eq_some_iff.mp h
      obtain ⟨more, hmore, -⟩ := Option.map_eq_some_iff.mp h
      exact List.forall_mem_cons.mpr ⟨rfl, ih hmore⟩

/-- A line that tells of no comment has none. -/
theorem Line.remark_of_remarks {l : Line} (h : l.remarks = []) : l.remark = none := by
  unfold remarks comment? eolCall? eolComment? at h
  cases hremark : l.remark with
  | none => rfl
  | some r =>
    rw [hremark] at h
    cases hcode : l.code.isEmpty <;> simp [hcode] at h

/-- If a source tells of no comment, its code lines are lines of code without comments. -/
theorem exists_isCodeOf {o : Options} {source : Text} {calls : List Call}
    (h : commentedCalls o source = some calls) (hcalls : ∀ call ∈ calls, call.isComment = false) :
    ∀ t ∈ Text.codeLines source, ∃ l : Line, l.IsCodeOf t := by
  intro t ht
  rw [commentedCalls_eq] at h
  have hmem : physicalLine? t ∈ (Text.codeLines source).map physicalLine? := List.mem_map_of_mem ht
  obtain ⟨p, hp⟩ := Option.isSome_iff_exists.mp (Watch.isSome_of_readAll h _ hmem)
  have hremarks : p.remarks = [] := by
    refine List.eq_nil_iff_forall_not_mem.mpr fun call hcall => ?_
    have hcomment := Line.isComment_of_mem_remarks call hcall
    have htold := (Watch.mem_readAll_iff (List.forall_mem_nil _) h hcomment).mpr
      (.inr ⟨p, hp ▸ hmem, hcall⟩)
    exact Bool.false_ne_true ((hcalls call htold).symm.trans hcomment)
  have hline : lineOf t = some p.unplaced := by
    rw [lineOf, ← unplaced_ofText 1 t]
    exact congrArg (Option.map Line.unplaced) hp
  have hremark : p.unplaced.remark = none := by
    rw [Line.unplaced, Line.remark_of_remarks hremarks]
    rfl
  refine ⟨p.unplaced, hline, ?_, hremark⟩
  exact ((startsInk_of_mem_codeLines ht).line hline).resolve_right (by simp [hremark])

/-- The lines of a call are among those that are written for all calls. -/
theorem Site.mem_written {validate : Bool} {s s' : Site} {calls : List Call} {call : Call}
    (hrun : s.run validate calls = some s') (hcall : call ∈ calls) (hfinish : call ≠ .finish)
    {t : Text} (ht : t ∈ call.texts.flatMap Text.codeLines) : t ∈ s.written calls := by
  induction calls generalizing s with
  | nil => exact absurd hcall List.not_mem_nil
  | cons first rest ih =>
    rw [run_cons] at hrun
    obtain ⟨mid, hmid, hrest⟩ := Option.bind_eq_some_iff.mp hrun
    rw [written_cons hmid]
    obtain rfl | hcall := List.mem_cons.mp hcall
    · refine List.mem_append_left _ ?_
      have hcode : s.codeLines call = call.texts.flatMap Text.codeLines := by
        cases call <;> first | rfl | exact absurd rfl hfinish
      rwa [hcode]
    · exact List.mem_append_right _ (ih hrest hcall)

/-! ## Lines of elements -/

/-- Elements and ends lead from annotations to annotations, and out of them no further. -/
theorem Site.host_of_run {validate : Bool} {calls : List Call} {s s' : Site} (hhost : s.host = none)
    (hcalls : ∀ call ∈ calls, call.suits .ofAnnotationBody = true)
    (hrun : s.run validate calls = some s') : s'.host = none := by
  induction calls generalizing s with
  | nil => exact Option.some.inj hrun ▸ hhost
  | cons call rest ih =>
    obtain ⟨hcall, hrest⟩ := List.forall_mem_cons.mp hcalls
    rw [run_cons] at hrun
    obtain ⟨mid, hmid, hrun⟩ := Option.bind_eq_some_iff.mp hrun
    refine ih ?_ hrest hrun
    cases step_of_next? (next?_of_accept hmid) with
    | value => exact hhost
    | nested => exact hhost
    | annotationEnd => exact hhost
    | _ => simp_all [Call.suits]

namespace Stance

variable {validate : Bool} {st st' : Stance} {l : Line} {lines : List Text} {t : Text}
  {calls : List Call} {call : Call}

/-- A line tells one call at most, where no field is open. -/
theorem length_le_of_take (hhost : st.site.host = none)
    (h : st.take validate l = some (st', calls)) : calls.length ≤ 1 := by
  cases takes_of_take h with
  | comment => exact Nat.zero_le 1
  | told => exact Nat.le_refl 1
  | opens => exact Nat.zero_le 1
  | gathers => exact Nat.zero_le 1
  | closes => exact Nat.le_refl 1
  | behindField _ _ hfield => cases hhost.symm.trans hfield

/-- What is told in an array is an element. -/
theorem value_of_take {b : Braces} (hbraces : st.braces = some b)
    (h : st.take validate l = some (st', calls)) : ∀ call ∈ calls, call.kind = .value := by
  cases takes_of_take h with
  | comment => exact List.forall_mem_nil _
  | told => cases hbraces
  | opens => cases hbraces
  | gathers => exact List.forall_mem_nil _
  | closes => exact List.forall_mem_singleton.mpr rfl
  | behindField => cases hbraces

/-- The steps up to the last line, and the step over it. -/
theorem takeAll_concat (hl : l.IsCodeOf t)
    (h : st.takeAll validate ((lines ++ [t]).map lineOf) = some (st', calls)) :
    ∃ mid first second, st.takeAll validate (lines.map lineOf) = some (mid, first) ∧
      mid.take validate l = some (st', second) ∧ calls = first ++ second := by
  rw [List.map_append, List.map_singleton, hl.line, takeAll_append] at h
  obtain ⟨⟨mid, first⟩, hfirst, h⟩ := Option.bind_eq_some_iff.mp h
  obtain ⟨⟨last, second⟩, hsecond, heq⟩ := Option.map_eq_some_iff.mp h
  obtain ⟨rfl, rfl⟩ := Prod.mk.inj heq
  obtain ⟨⟨last', told⟩, htold, hsecond⟩ := Option.bind_eq_some_iff.mp hsecond
  obtain ⟨rfl, rfl⟩ := Prod.mk.inj (Option.some.inj hsecond)
  exact ⟨mid, first, _, hfirst, by simpa using htold, by simp⟩

/-- Lines of code that tell nothing leave an array open, if there are any. -/
theorem eq_nil_of_takeAll (hlines : ∀ t ∈ lines, ∃ l : Line, l.IsCodeOf t)
    (h : st.takeAll validate (lines.map lineOf) = some (st', [])) (hbraces : st'.braces = none) :
    lines = [] := by
  by_contra hne
  obtain ⟨front, t, rfl⟩ := (List.eq_nil_or_concat' lines).resolve_left hne
  obtain ⟨l, hl⟩ := hlines t (List.mem_append_right _ List.mem_cons_self)
  obtain ⟨mid, first, second, -, hlast, hcalls⟩ := takeAll_concat hl h
  exact ne_nil_of_take hl.isComment hlast hbraces (List.append_eq_nil_iff.mp hcalls.symm).2

/-- The end of a scope is told by the last line, where no array is open. -/
theorem takeAll_closing (hl : l.IsCodeOf t) (hhost : st.site.host = none)
    (hcalls : ∀ call ∈ calls, call.suits .ofAnnotationBody = true)
    (h : st.takeAll validate ((lines ++ [t]).map lineOf) = some (st', calls ++ [.finish]))
    (hbraces : st'.braces = none) :
    ∃ site, st.takeAll validate (lines.map lineOf) = some (⟨site, none⟩, calls) := by
  obtain ⟨⟨site, braces⟩, first, second, hfirst, hlast, heq⟩ := takeAll_concat hl h
  have hall : ∀ call ∈ first ++ second, call.suits .ofAnnotationBody = true :=
    heq ▸ List.forall_mem_append.mpr ⟨hcalls, List.forall_mem_singleton.mpr rfl⟩
  have hsite : site.host = none :=
    Site.host_of_run hhost (List.forall_mem_append.mp hall).1 (run_of_takeAll hfirst)
  obtain ⟨last, rfl⟩ : ∃ call, second = [call] := by
    have hle := length_le_of_take hsite hlast
    have hne := List.length_pos_iff.mpr (ne_nil_of_take hl.isComment hlast hbraces)
    exact List.length_eq_one_iff.mp (by omega)
  obtain ⟨rfl, hsame⟩ := List.append_inj' heq rfl
  obtain rfl := (List.cons.inj hsame).1
  have hnone : braces = none := by
    refine Option.eq_none_iff_forall_not_mem.mpr fun b hb => ?_
    exact CallKind.noConfusion (value_of_take hb hlast _ List.mem_cons_self)
  exact ⟨site, hnone ▸ hfirst⟩

/-- Lines that tell one element tell nothing before the last of them. -/
theorem spells_of_takeAll (hlines : ∀ t ∈ lines, ∃ l : Line, l.IsCodeOf t)
    (hnest : st.site.nest ≠ 0) (h : st.takeAll validate (lines.map lineOf) = some (st', [call]))
    (hbraces : st'.braces = none) : Spells validate st lines st' [call] := by
  induction lines generalizing st with
  | nil => exact nomatch h
  | cons t rest ih =>
    obtain ⟨⟨l, hl⟩, hrest⟩ := List.forall_mem_cons.mp hlines
    rw [List.map_cons, hl.line] at h
    obtain ⟨⟨mid, first⟩, htake, h⟩ := Option.bind_eq_some_iff.mp h
    obtain ⟨⟨last, second⟩, hmore, heq⟩ := Option.map_eq_some_iff.mp h
    obtain ⟨rfl, happend⟩ := Prod.mk.inj heq
    cases hmid : mid.braces with
    | none =>
      -- The line has told the element, so nothing is left for others.
      obtain ⟨told, more, rfl⟩ :=
        List.exists_cons_of_ne_nil (ne_nil_of_take hl.isComment htake hmid)
      obtain ⟨rfl, hnil⟩ := List.cons.inj happend
      obtain ⟨rfl, rfl⟩ := List.append_eq_nil_iff.mp hnil
      obtain rfl := eq_nil_of_takeAll hrest hmore hbraces
      obtain ⟨rfl, -⟩ := Prod.mk.inj (Option.some.inj hmore)
      exact .last hl htake hmid
    | some b =>
      obtain ⟨rfl, hsite⟩ | ⟨told, htell⟩ := take_cases hnest htake
      · have hsome : mid.braces.isSome = true := by rw [hmid]; rfl
        rw [List.nil_append] at happend
        exact .more hl htake hsome (ih hrest (hsite ▸ hnest) (happend ▸ hmore))
      · exact nomatch hmid.symm.trans (run_of_tell htell).2.1

end Stance

/-! ## From calls to lines -/

namespace Call

variable {call : Call}

/-- The piece of a call is one of those that stand alone. -/
theorem piece_mem_pieces (h : call.isComment = false) : call.piece ∈ pieces (alone call.piece) := by
  cases call with
  | comment text => exact nomatch h
  | eolComment text => exact nomatch h
  | _ => simp [piece, alone, pieces, piecesFrom, nestFrom, standInOpening, standInClass,
      standInMethod]

/-- With a call stand calls that stand in for others, and ends. -/
theorem mem_alone {other : Call} (hother : other ∈ alone call.piece) :
    other = call ∨
      other ∈ [standInClass, standInMethod, .param "p0" none, standInOpening, .finish] := by
  cases call <;> simp [piece, alone, standInOpening] at hother ⊢ <;> tauto

/-- The annotation that stands in takes one line. -/
theorem isOneLine_standInOpening : standInOpening.IsOneLine := by
  refine isOneLine_of_isInline (fun text htext => ?_) nofun
  obtain rfl := Option.some.inj htext
  decide

/-- What stands alone with a call takes one line each. -/
theorem isOneLine_alone (hone : call.IsOneLine) :
    ∀ other ∈ alone call.piece, other.IsOneLine := by
  obtain ⟨hclass, hmethod, hparam⟩ := isOneLine_standIns
  have hstandIn : ∀ other ∈
      [standInClass, standInMethod, .param "p0" none, standInOpening, .finish],
      other.IsOneLine := by
    simp only [List.forall_mem_cons]
    exact ⟨hclass, hmethod, hparam, isOneLine_standInOpening, isOneLine_of_line?_eq_none rfl,
      List.forall_mem_nil _⟩
  intro other hother
  obtain rfl | hknown := mem_alone hother
  · exact hone
  · exact hstandIn other hknown

/-- The lines of a legible element are read as the element. -/
theorem spells_of_legible (hlegible : Legible call.piece)
    (hcode : ∀ t ∈ call.texts.flatMap codeLines, ∃ l : Line, l.IsCodeOf t)
    (hsuits : call.suits .ofAnnotationBody = true) (hcomment : call.isComment = false)
    (hfinish : call ≠ .finish) :
    Stance.Spells false ⟨.within 1, none⟩ (call.texts.flatMap codeLines)
      ⟨.within (call.nestFrom 1), none⟩ [call] := by
  obtain ⟨last, hlast, -⟩ := exists_isCodeOf_closing "annotation" (by decide +kernel)
  obtain ⟨inner, hinner, -⟩ := exists_isCodeOf_closing "subannotation" (by decide +kernel)
  -- Without the ends of the annotations the lines tell the element alone.
  obtain ⟨site, htake⟩ : ∃ site, Stance.takeAll false ⟨.within 1, none⟩
      ((call.texts.flatMap codeLines).map lineOf) = some (⟨site, none⟩, [call]) := by
    cases call with
    | value name v =>
      exact Stance.takeAll_closing hlast rfl (List.forall_mem_singleton.mpr rfl)
        (Stance.takeAll_of_readBlock (s := .within 1) (fun h => absurd h Bool.false_ne_true)
          hlegible.2 rfl) rfl
    | subannotationStart name type =>
      have hall : Stance.takeAll false ⟨.within 1, none⟩
          ((((Call.subannotationStart name type).texts.flatMap codeLines ++
            [".end subannotation".toList]) ++ [".end annotation".toList]).map lineOf) =
            some (⟨.within 0, none⟩, [.subannotationStart name type, .finish] ++ [.finish]) := by
        rw [List.append_assoc]
        exact Stance.takeAll_of_readBlock (s := .within 1) (fun h => absurd h Bool.false_ne_true)
          hlegible.2 rfl
      obtain ⟨site, hinside⟩ := Stance.takeAll_closing hlast rfl (by simp [Call.suits]) hall rfl
      exact Stance.takeAll_closing hinner rfl
        (List.forall_mem_singleton (a := Call.subannotationStart name type).mpr rfl) hinside rfl
    | comment text => cases hcomment
    | eolComment text => cases hcomment
    | finish => exact absurd rfl hfinish
    | _ => exact absurd hsuits Bool.false_ne_true
  have hsite : site = .within (call.nestFrom 1) := by
    have hnext :=
      Site.next?_of_accept ((Site.run_singleton _ _ _).symm.trans (Stance.run_of_takeAll htake))
    have hnest : site.nest = call.nestFrom 1 := nest_eq_nestFrom hnext Nat.one_ne_zero
    exact hnest ▸ Site.next?_within_eq Nat.one_ne_zero hnext
  exact hsite ▸ Stance.spells_of_takeAll hcode Nat.one_ne_zero htake rfl

/-- A call that is read aloud is audible. -/
theorem ReadsAloud.isAudible (h : call.ReadsAloud) (hcomment : call.isComment = false)
    (hone : call.IsOneLine) : call.IsAudible := by
  obtain ⟨s, hrun, hends, hmem⟩ := exists_run_alone hcomment
  have htold := commentedCalls_of_heard (o := .aloud) ⟨rfl, rfl⟩ hrun h
  have hquiet := Site.isComment_of_run hrun
  have hstrict := strictCalls_of_commentedCalls htold
  rw [List.filter_eq_self.mpr fun other hother => by simp [hquiet other hother]] at hstrict
  have hlegible : Legible call.piece :=
    ((strictCalls_codeOf_iff (o := .aloud) hrun hends (isOneLine_alone hone)).mp hstrict).1 _
      (piece_mem_pieces hcomment)
  have hcode : ∀ t ∈ call.texts.flatMap codeLines, ∃ l : Line, l.IsCodeOf t := by
    intro t ht
    by_cases hfinish : call = .finish
    · subst hfinish
      exact absurd ht List.not_mem_nil
    · refine exists_isCodeOf htold hquiet t ?_
      rw [Writer.codeLines_codeOf hrun hends.nest hends.host]
      exact Site.mem_written hrun hmem hfinish ht
  refine ⟨hcode, fun text htext => ?_, fun hsuits hfinish =>
    spells_of_legible hlegible hcode hsuits hcomment hfinish⟩
  cases call <;> first | exact hlegible | exact hlegible.1 | cases htext

end Call

/-! ## From lines to calls -/

/-- Calls that follow on each other and are no comments are noted. -/
theorem Noted.of_run {validate : Bool} {first s : Site} {calls : List Call}
    (hrun : first.run validate calls = some s) (hone : ∀ call ∈ calls, call.IsOneLine) :
    Noted validate first calls s := by
  induction calls using List.reverseRecOn generalizing s with
  | nil => exact Option.some.inj hrun ▸ .nil
  | append_singleton calls call ih =>
    obtain ⟨hbefore, hcall⟩ := List.forall_mem_append.mp hone
    rw [Site.run_append] at hrun
    obtain ⟨mid, hmid, hlast⟩ := Option.bind_eq_some_iff.mp hrun
    rw [Site.run_singleton] at hlast
    refine (ih hmid hbefore).code hlast (hcall _ List.mem_cons_self) fun _ text htext => ?_
    exact nomatch Site.isComment_of_run hmid _ (List.mem_of_getLast? htext)

namespace Call

variable {call : Call}

/-- A legible call is audible if its line holds no comment. -/
theorem IsLegible.isAudible (h : call.IsLegible) (hone : call.IsOneLine) {text : Text}
    (htext : call.line? = some text)
    (hremark : (lineOf text).any (fun l => l.remark.isNone) = true) : call.IsAudible := by
  have htexts : call.texts.flatMap codeLines = [trim text] := by
    have hsame : call.texts = call.line?.toList := by
      cases call <;> first | rfl | cases htext
    rw [hsame, htext, Option.toList_some, List.flatMap_singleton, hone.codeLines htext]
  refine ⟨?_, fun other hother => h, fun hsuits hfinish => ?_⟩
  · obtain ⟨l, hl, hnone⟩ := (Option.any_eq_true _ _).mp hremark
    rw [Option.isNone_iff_eq_none] at hnone
    have hline : lineOf (trim text) = some l := (lineOf_trim text).trans hl
    rw [htexts, List.forall_mem_singleton]
    refine ⟨l, hline, ?_, hnone⟩
    exact ((startsInk_trim (hone text htext).2.1).line hline).resolve_right (by simp [hnone])
  · cases call <;> first
      | exact absurd hsuits Bool.false_ne_true | exact absurd htext (Option.some_ne_none _).symm

/-- An end has no lines of its own. -/
theorem isAudible_finish : Call.finish.IsAudible :=
  ⟨List.forall_mem_nil _, nofun, fun _ h => absurd rfl h⟩

/-- The annotation that stands in is legible. -/
theorem isLegible_standInOpening : standInOpening.IsLegible := by
  have hname : Text.IsIdentifier "A" := by decide
  have htype : (TypeName.object "A").IsPlain :=
    ⟨by decide, fun _ hmem => Option.some.inj hmem ▸ hname.isClassName⟩
  exact isLegible_annotationStart htype _

/-- What stands alone with an audible call is audible. -/
theorem IsAudible.isAudible_alone (h : call.IsAudible) :
    ∀ other ∈ alone call.piece, other.IsAudible := by
  obtain ⟨hclass, hmethod, hparam⟩ := isOneLine_standIns
  have hstandIn : ∀ other ∈
      [standInClass, standInMethod, .param "p0" none, standInOpening, .finish],
      other.IsAudible := by
    simp only [List.forall_mem_cons]
    exact ⟨isLegible_standInClass.isAudible hclass rfl (by decide +kernel),
      isLegible_standInMethod.isAudible hmethod rfl (by decide +kernel),
      isLegible_standInParam.isAudible hparam rfl (by decide +kernel),
      isLegible_standInOpening.isAudible isOneLine_standInOpening rfl (by decide +kernel),
      isAudible_finish, List.forall_mem_nil _⟩
  intro other hother
  obtain rfl | hknown := mem_alone hother
  · exact h
  · exact hstandIn other hknown

/-- No annotation strays there. -/
theorem not_strays_alone : ¬Strays (alone call.piece) := by
  intro hstrays
  have hfield : CallKind.field ∈ (alone call.piece).map Call.kind :=
    hstrays.subset List.mem_cons_self
  have hstart : CallKind.annotationStart ∈ (alone call.piece).map Call.kind :=
    hstrays.subset (List.mem_cons_of_mem _ (List.mem_cons_of_mem _ List.mem_cons_self))
  cases call <;>
    simp [piece, alone, standInOpening, standInClass, standInMethod, kind] at hfield hstart

/-- A call is read aloud exactly if it is audible. -/
theorem readsAloud_iff (hcomment : call.isComment = false) (hone : call.IsOneLine) :
    call.ReadsAloud ↔ call.IsAudible := by
  refine ⟨fun h => h.isAudible hcomment hone, fun h => ?_⟩
  obtain ⟨s, hrun, hends, -⟩ := exists_run_alone hcomment
  have hnoted : Noted false (Site.initial false) (alone call.piece) s :=
    .of_run hrun (isOneLine_alone hone)
  have hquiet : ((alone call.piece).filter fun c => !c.isComment) = alone call.piece :=
    List.filter_eq_self.mpr fun other hother => by simp [Site.isComment_of_run hrun other hother]
  have htold := hnoted.commentedCalls_codeOf (o := .aloud) hends
    (fun other hother _ => h.isAudible_alone other hother) (hquiet.symm ▸ not_strays_alone)
  have hheard := heard_commented_eq (o := .aloud) ⟨rfl, rfl⟩ (Writer.codeOf (alone call.piece))
  rw [htold, Option.map_some] at hheard
  exact toOption_eq_some.mp hheard

end Call

end Smali
