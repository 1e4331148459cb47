import Smali.Proofs.RemarkedLines
import Smali.Proofs.StrayAnnotations
import Smali.Proofs.TolerantReader

/-!
# Cleaned code

A tolerant reading of a noisy source makes a writer write code. A strict reading of that code
comes to an end exactly if no annotation of the class follows a field without a closing line,
provided that the class was told of and that each of its pieces is read back when it stands
alone. Whatever was skipped or excused, nothing else goes wrong.
-/

namespace Smali

/-! ## What is heard of a source -/

/-- What is heard of a reading that comes to its end, whoever listens. -/
structure Overheard (o : Options) (source : Text) (calls : List Call) (s : Site) : Prop where
  /-- Every call keeps to its line. -/
  keepsToLine : ∀ call ∈ calls, call.KeepsToLine
  /-- Comments aside the calls follow on each other, or they do behind a class line that was
  skipped. -/
  run : ∃ first, (first = Site.initial o.snippet ∨ (Site.initial o.snippet).phase = .start ∧
      first = { Site.initial o.snippet with phase := .header }) ∧
    first.run o.validate (calls.filter fun c => !c.isComment) = some s
  /-- No annotation is left open. -/
  nest : s.nest = 0
  /-- No member is left open. -/
  host : s.host = none
  /-- A listener that never fails hears the calls and the end of the class. -/
  state : ∀ {σ κ : Type} {L : Listener σ κ}, L.NeverFails → ∀ (root : κ) (state : σ),
    (read o L root state source).1 = .ok () ∧ (read o L root state source).2.state =
      ((Desk.initial root state).makeAll L (calls.flatMap Call.moves ++ [.tell .finish])).state

/-- Something is heard of every reading that comes to its end. -/
theorem exists_overheard {σ κ : Type} {o : Options} {L : Listener σ κ} (hL : L.NeverFails)
    {root : κ} {state : σ} {source : Text} (hok : (read o L root state source).1 = .ok ()) :
    ∃ calls s, Overheard o source calls s := by
  have hresult : ((dialogue o source).rehearse o).result = .ok () := by
    rw [read, Dialogue.conduct_eq o hL] at hok
    exact hok
  obtain ⟨moves, calls, ⟨s, hushed⟩, hheard, hend⟩ := leadsOut_dialogue o source
  rw [hresult] at hend
  obtain ⟨hmoves, rfl, hnest, hhost⟩ := hend
  refine ⟨calls, s, hheard.keepsToLine, hheard.run fun _ => ⟨rfl, rfl⟩, hnest, hhost, ?_⟩
  intro σ κ L hL root state
  have hall : (Desk.initial root state).makeAll L moves =
      (Desk.initial root state).makeAll L (calls.flatMap Call.moves) :=
    Desk.makeAll_overheard L hheard (Desk.initial root state)
  rw [read, Dialogue.conduct_eq o hL, hmoves, Desk.makeAll_append, Desk.makeAll_append, hall]
  exact ⟨hresult, rfl⟩

namespace Recorder

/-- A recorder logs a comment wherever it is made. -/
theorem Knows.remark {d : Desk State Handle} {s : Site} {calls : List Call} (h : Knows d s calls)
    {call : Call} (hcall : call.isComment = true) :
    Knows (d.makeAll (listener .obliging) call.moves) s (calls ++ [call]) := by
  obtain ⟨⟨places, hplaces, hlength⟩, hlog⟩ := h
  cases places with
  | nil => exact absurd hlength (by simp)
  | cons place outer =>
    have hmake : d.makeAll (listener .obliging) call.moves =
        (d.call (listener .obliging) call).2 := by
      cases call <;> first | rfl | exact absurd hcall Bool.false_ne_true
    rw [hmake, call_eq d hplaces]
    refine ⟨⟨place :: outer, rfl, hlength⟩, ?_⟩
    unfold State.events at hlog ⊢
    rw [List.reverse_cons, List.map_append, hlog]
    rfl

/-- A recorder logs calls one after another, with comments between them. -/
theorem Knows.remarked {d : Desk State Handle} {s s' : Site} {before : List Call}
    (h : Knows d s before) {validate : Bool} {calls : List Call}
    (hs : s.run validate (calls.filter fun c => !c.isComment) = some s') :
    Knows (d.makeAll (listener .obliging) (calls.flatMap Call.moves)) s' (before ++ calls) := by
  induction calls generalizing d s before with
  | nil =>
    obtain rfl := Option.some.inj hs
    simpa [Desk.makeAll] using h
  | cons call rest ih =>
    rw [Desk.makeAll_cons, List.append_cons]
    cases hcomment : call.isComment with
    | true =>
      rw [List.filter_cons_of_neg (by simp [hcomment])] at hs
      exact ih (h.remark hcomment) hs
    | false =>
      rw [List.filter_cons_of_pos (by simp [hcomment])] at hs
      obtain ⟨mid, hmid, hrun⟩ := Option.bind_eq_some_iff.mp hs
      exact ih (h.call (Site.next?_of_accept hmid)) hrun

end Recorder

namespace Overheard

variable {o : Options} {source : Text} {calls : List Call} {s : Site}

/-- The code that a writer writes. -/
theorem format_eq (h : Overheard o source calls s) :
    format o source = .ok (Writer.codeOf calls) := by
  obtain ⟨hok, hstate⟩ := h.state Writer.listener_neverFails Writer.root (.initial ())
  unfold format
  generalize read o (Writer.listener .discard) Writer.root (.initial ()) source = outcome
    at hok hstate
  obtain ⟨result, desk⟩ := outcome
  obtain rfl : result = .ok () := hok
  exact congrArg (fun state => Except.ok (Writer.State.code state)) hstate

/-- The log of a recorder. -/
theorem heard_eq (h : Overheard o source calls s) :
    heard o source = .ok (Recorder.eventsOf calls) := by
  have hnever : (Recorder.listener .obliging).NeverFails := Recorder.listener_neverFails rfl
  obtain ⟨hok, hstate⟩ := h.state hnever (Recorder.root .ofClass) .initial
  unfold heard
  generalize read o (Recorder.listener .obliging) (Recorder.root .ofClass) .initial source = outcome
    at hok hstate
  obtain ⟨result, desk⟩ := outcome
  obtain rfl : result = .ok () := hok
  exact congrArg (fun state => Except.ok (Recorder.State.events state)) hstate

/-- The calls in the log. -/
theorem calls_eventsOf (h : Overheard o source calls s) :
    (Recorder.eventsOf calls).map Recorder.Event.call = calls ++ [.finish] := by
  obtain ⟨first, hfirst, hrun⟩ := h.run
  have hdepth : first.depth = 0 := by
    rcases hfirst with rfl | ⟨-, rfl⟩ <;> rfl
  exact Recorder.Knows.log_eventsOf ((Recorder.knows_initial hdepth).remarked hrun)

end Overheard

/-! ## The class line -/

/-- Behind the line of a class there is no other one, and there is a class. -/
theorem Site.behind_of_run {validate : Bool} {s s' : Site} {calls : List Call}
    (hphase : s.phase ≠ .start) (h : s.run validate calls = some s') :
    (∀ call ∈ calls, call.kind ≠ .header) ∧ s'.phase ≠ .start := by
  induction calls generalizing s with
  | nil =>
    obtain rfl := Option.some.inj h
    exact ⟨fun call hcall => absurd hcall List.not_mem_nil, hphase⟩
  | cons call rest ih =>
    obtain ⟨mid, hmid, hrest⟩ := Option.bind_eq_some_iff.mp h
    have hproper : Spot.IsProper ⟨s, 0⟩ := fun hstart => absurd hstart hphase
    obtain ⟨hothers, hs'⟩ := ih (hproper.accept hmid) hrest
    refine ⟨List.forall_mem_cons.mpr ⟨fun hkind => ?_, hothers⟩, hs'⟩
    cases call <;> try exact CallKind.noConfusion hkind
    have hnext := Site.next?_of_accept hmid
    unfold Site.next? at hnext
    split at hnext
    · exact absurd hnext (Option.some_ne_none _).symm
    · exact absurd hnext (Option.some_ne_none _).symm
    · exact absurd hnext (Option.some_ne_none _).symm
    · exact absurd hnext ((if_neg hphase).trans_ne (Option.some_ne_none _).symm)

/-- Unless the class line was skipped, the calls start with the class. -/
theorem Overheard.run_initial {o : Options} {source : Text} {calls : List Call} {s : Site}
    (h : Overheard o source calls s)
    (hclass : o.snippet = true ∨
      ∃ call ∈ calls.filter fun c => !c.isComment, call.kind = .header) :
    (Site.initial o.snippet).run o.validate (calls.filter fun c => !c.isComment) = some s ∧
      s.Ends := by
  obtain ⟨first, hfirst, hrun⟩ := h.run
  rcases hfirst with rfl | ⟨hstart, rfl⟩
  · refine ⟨hrun, ?_, h.host, h.nest⟩
    rcases hclass with hsnippet | ⟨call, hcall, -⟩
    · refine (Site.behind_of_run ?_ hrun).2
      rw [Site.initial, hsnippet]
      exact Phase.noConfusion
    · obtain ⟨next, rest, hcalls⟩ := List.exists_cons_of_ne_nil (List.ne_nil_of_mem hcall)
      rw [hcalls] at hrun
      obtain ⟨mid, hmid, hrest⟩ := Option.bind_eq_some_iff.mp hrun
      have hproper : Spot.IsProper ⟨Site.initial o.snippet, 0⟩ := fun _ => ⟨rfl, rfl⟩
      exact (Site.behind_of_run (hproper.accept hmid) hrest).2
  · obtain ⟨hnone, -⟩ := Site.behind_of_run Phase.noConfusion hrun
    rcases hclass with hsnippet | ⟨call, hcall, hheader⟩
    · rw [Site.initial, hsnippet] at hstart
      exact Phase.noConfusion hstart
    · exact absurd hheader (hnone call hcall)

/-! ## Reading cleaned code -/

/-- A strict reading, with comments or without, comes to its end exactly if the source has calls. -/
theorem read_strict_iff {σ κ : Type} {o : Options} (h : o.errors = .strict) {L : Listener σ κ}
    (hL : L.NeverFails) (root : κ) (state : σ) (source : Text) :
    (read o L root state source).1 = .ok () ↔ (strictCalls o source).isSome = true := by
  have hplain : o.quietly.IsPlain := ⟨h, rfl⟩
  have hresult := congrArg Rehearsal.result ((dialogue_heeds o source).rehearse_quietly o)
  have hquiet := read_eq hplain hL root state source
  have hsame : (read o L root state source).1 = (read o.quietly L root state source).1 := by
    rw [read, read, Dialogue.conduct_eq o hL, Dialogue.conduct_eq o.quietly hL]
    exact hresult.symm
  have hcalls : strictCalls o.quietly source = strictCalls o source := rfl
  rw [hsame]
  rw [hcalls] at hquiet
  cases hs : strictCalls o source with
  | none =>
    rw [hs] at hquiet
    obtain ⟨fault, hfault⟩ := hquiet
    exact iff_of_false (by simp [hfault]) Bool.false_ne_true
  | some calls =>
    rw [hs] at hquiet
    exact iff_of_true hquiet.1 rfl

/-- The code of a source, however noisy that is and whatever the options are, can be read strictly
exactly if no annotation of the class strays, provided that the class was told of and that every
piece of it is read back alone. -/
theorem read_cleaned_iff {o : Options} {source code : Text} (hformat : format o source = .ok code) :
    ∃ events calls, heard o source = .ok events ∧
      (events.map Recorder.Event.call).filter (fun c => !c.isComment) = calls ++ [.finish] ∧
      ((o.snippet = true ∨ ∃ call ∈ calls, call.kind = .header) →
        (∀ piece ∈ pieces calls, ReadsAlone piece) →
        ∀ {σ κ : Type} {L : Listener σ κ}, L.NeverFails → ∀ (root : κ) (state : σ),
          ((read { o with errors := .strict } L root state code).1 = .ok () ↔ ¬Strays calls)) := by
  have hok : (read o (Writer.listener .discard) Writer.root (.initial ()) source).1 = .ok () := by
    unfold format at hformat
    generalize read o (Writer.listener .discard) Writer.root (.initial ()) source = outcome
      at hformat ⊢
    obtain ⟨_ | _, desk⟩ := outcome
    · cases hformat
    · rfl
  obtain ⟨told, s, hheard⟩ := exists_overheard Writer.listener_neverFails hok
  obtain rfl : Writer.codeOf told = code := Except.ok.inj (hheard.format_eq.symm.trans hformat)
  refine ⟨_, told.filter fun c => !c.isComment, hheard.heard_eq, ?_, ?_⟩
  · rw [hheard.calls_eventsOf, List.filter_append]
    rfl
  intro hclass halone σ κ L hL root state
  obtain ⟨hrun, hs⟩ := hheard.run_initial hclass
  have hone : ∀ call ∈ told.filter fun c => !c.isComment, call.IsOneLine := fun call hcall =>
    (hheard.keepsToLine call (List.mem_of_mem_filter hcall)).code
  have htiled : Tiled o.validate (Site.initial o.snippet) (told.filter fun c => !c.isComment) :=
    .of_run hrun hs rfl fun h => absurd h (Option.some_ne_none _).symm
  have hlegible : ∀ piece ∈ pieces (told.filter fun c => !c.isComment), Legible piece :=
    fun piece hpiece => (readsAlone_iff (htiled.isPiece piece hpiece) fun call hcall =>
      hone call (mem_of_mem_pieces hpiece hcall)).mp (halone piece hpiece)
  have hcalls : strictCalls { o with errors := .strict } (Writer.codeOf told) =
      ((Site.initial o.snippet).reader false).readAll o.validate
        (((Site.initial o.snippet).written (told.filter fun c => !c.isComment)).map lineOf) :=
    strictCalls_remarked hheard.keepsToLine hrun hs.nest hs.host
      (htiled.isSome_lineOf hone hlegible)
  rw [read_strict_iff rfl hL, hcalls]
  by_cases hstrays : Strays (told.filter fun c => !c.isComment)
  · rw [htiled.readAll_strays hone hlegible false Bool.noConfusion (.inl hstrays)]
    exact iff_of_false Bool.false_ne_true fun h => h hstrays
  · rw [(htiled.readAll_iff hone false Bool.noConfusion).mpr ⟨hlegible, hstrays, Bool.noConfusion⟩]
    exact iff_of_true rfl hstrays

/-- Whether calls are those of the class that stands in, with a comment in it. -/
def isNotedStandIn : List Call → Bool
  | [.header type access, .comment _, .finish] =>
    decide (type = .object "A".toList ∧ access = .none)
  | _ => false

/-- Noise before a class and in it, and a comment. The code can be read strictly. -/
theorem read_cleaned_class :
    format ⟨true, false, false, .ignore⟩ ".noise\n.class LA;\n.field\n# note\n".toList =
        .ok ".class LA;\n\n# note\n".toList ∧
      (read ⟨true, false, false, .strict⟩ .discard () () ".class LA;\n\n# note\n".toList).1 =
        .ok () := by
  have hformat : format ⟨true, false, false, .ignore⟩
      ".noise\n.class LA;\n.field\n# note\n".toList = .ok ".class LA;\n\n# note\n".toList := by
    decide +kernel
  have hread : (heard ⟨true, false, false, .ignore⟩
      ".noise\n.class LA;\n.field\n# note\n".toList).toOption.any (fun events =>
        isNotedStandIn (events.map Recorder.Event.call)) = true := by
    decide +kernel
  obtain ⟨events, calls, hevents, hcalls, hiff⟩ := read_cleaned_iff hformat
  have hclass : calls = [standInClass] := by
    rw [hevents, toOption_ok, Option.any_some, isNotedStandIn.eq_def] at hread
    split at hread
    · rename_i type access text heq
      obtain ⟨rfl, rfl⟩ := of_decide_eq_true hread
      rw [heq] at hcalls
      have hsame : [standInClass] ++ [.finish] = calls ++ [.finish] := hcalls
      exact (List.append_cancel_right hsame).symm
    · cases hread
  subst hclass
  have halone : ReadsAlone [standInClass] :=
    (readsAlone_single_iff rfl (.inr rfl) isOneLine_standIns.1).mpr isLegible_standInClass
  have hdiscard : Listener.discard.NeverFails := fun _ _ _ => ⟨none, rfl⟩
  refine ⟨hformat, (hiff (.inr ⟨_, List.mem_cons_self, rfl⟩)
    (List.forall_mem_singleton.mpr halone) hdiscard () ()).mpr (by decide)⟩

/-- A field without annotations before an annotation of the class. Nothing is skipped, and the code
can not be read strictly. -/
theorem read_cleaned_strays :
    (heard ⟨false, false, false, .ignore⟩
        ".class La;\n.field x:I\n.end field\n.annotation runtime Lb;\n.end annotation\n".toList
      ).toOption.any (fun events => events.any fun event => event.call.kind = .header) = true ∧
      format ⟨false, false, false, .ignore⟩
        ".class La;\n.field x:I\n.end field\n.annotation runtime Lb;\n.end annotation\n".toList =
        .ok ".class La;\n\n.field x:I\n\n.annotation runtime Lb;\n.end annotation\n".toList ∧
      (read ⟨false, false, false, .strict⟩ .discard () ()
        ".class La;\n\n.field x:I\n\n.annotation runtime Lb;\n.end annotation\n".toList).1 =
        .error ⟨.unterminated, "missing .end field", some ⟨3, 1⟩⟩ :=
  ⟨by decide +kernel, by decide +kernel, by decide +kernel⟩

end Smali
