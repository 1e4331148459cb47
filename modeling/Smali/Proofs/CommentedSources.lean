import Smali.Proofs.CleanedCode
import Smali.Proofs.Snippets

/-!
# What a source tells with its comments

A strict reading with comments tells what it tells without them, and all comments of the source
besides. Whoever listens hears exactly these calls, so a source is formatted with its comments as
the code of them. None of the calls is a comment behind code that has nothing in front of it, and
the words of a comment end with no blank.
-/

namespace Smali

/-! ## Code lines -/

/-- A text as a line of a source, with its comment. -/
def physicalLine? (t : Text) : Option Line := (Line.ofText 1 t).toOption

/-- What is seen of such a line is what is seen of the scan. -/
theorem seen_physicalLine? (t : Text) :
    (physicalLine? t).map Line.seen = (scan 1 1 t).toOption.map Scanned.seen :=
  seen_ofText 1 t

/-- The calls of a source, comments included, are those of its code lines. -/
theorem commentedCalls_eq (o : Options) (source : Text) :
    commentedCalls o source = (Watch.initial o.snippet).readAll o.validate
      ((Text.codeLines source).map physicalLine?) := by
  refine Watch.readAll_of_seen _ ?_
  rw [seen_scanLines, List.map_map]
  exact List.map_congr_left fun t _ => (seen_physicalLine? t).symm

/-! ## Steps of a watch -/

/-- The end of a source tells of no comment. -/
theorem Stance.isComment_of_finish? {s : Stance} {calls : List Call} (h : s.finish? = some calls) :
    ∀ call ∈ calls, call.isComment = false := by
  obtain ⟨s', hrun, -⟩ : ∃ s', s.site.run false calls = some s' ∧ s'.Ends := run_of_finish? h
  exact Site.isComment_of_run hrun

/-- A line of code tells of something, or an array is open behind it. -/
theorem Stance.ne_nil_of_take {validate : Bool} {s s' : Stance} {l : Line} {calls : List Call}
    (hl : l.isComment = false) (h : s.take validate l = some (s', calls))
    (hbraces : s'.braces = none) : calls ≠ [] := by
  cases takes_of_take h with
  | comment hcomment => cases hl.symm.trans hcomment
  | told => exact List.cons_ne_nil _ _
  | opens => cases hbraces
  | gathers => cases hbraces
  | closes => exact List.cons_ne_nil _ _
  | behindField => exact List.cons_ne_nil _ _

namespace Watch

variable {validate : Bool} {w w' : Watch} {l : Line} {calls : List Call}

/-- What a step of a watch comes to, comments and other calls apart. -/
structure Tells (validate : Bool) (w : Watch) (l : Line) (w' : Watch) (calls : List Call) :
    Prop where
  /-- The other calls are those of the step without comments. -/
  quiet : w.stance.take validate l = some (w'.stance, calls.filter fun c => !c.isComment)
  /-- Nothing but comments waits. -/
  waiting : ∀ call ∈ w'.waiting, call.isComment = true
  /-- The comments that waited and those of the line are told, or they wait. -/
  comments : ∀ call, call.isComment = true →
    (call ∈ calls ∨ call ∈ w'.waiting ↔ call ∈ w.waiting ∨ call ∈ l.remarks)

/-- Comments are filtered out. -/
theorem filter_of_isComment {calls : List Call} (h : ∀ call ∈ calls, call.isComment = true) :
    calls.filter (fun c => !c.isComment) = [] :=
  List.filter_eq_nil_iff.mpr fun call hcall => by simp [h call hcall]

/-- Calls that are told with comments that waited. -/
theorem mem_weave_iff (s : Stance) (l : Line) (waiting calls : List Call) (call : Call) :
    call ∈ s.weave l waiting calls ↔ call ∈ calls ∨ call ∈ waiting := by
  unfold Stance.weave
  split
  · exact List.mem_append
  · split
    · rw [List.mem_append, or_comm]
    · conv_rhs => rw [← List.take_append_drop 1 calls]
      simp only [List.mem_append]
      tauto

/-- The calls among them that are no comments. -/
theorem filter_weave (s : Stance) (l : Line) {waiting calls : List Call}
    (hwaiting : ∀ call ∈ waiting, call.isComment = true)
    (hcalls : ∀ call ∈ calls, call.isComment = false) :
    (s.weave l waiting calls).filter (fun c => !c.isComment) = calls := by
  have hnone := filter_of_isComment hwaiting
  have hall : ∀ {part : List Call}, part ⊆ calls → part.filter (fun c => !c.isComment) = part :=
    fun hpart => List.filter_eq_self.mpr fun call hcall => by simp [hcalls call (hpart hcall)]
  unfold Stance.weave
  split
  · rw [List.filter_append, hnone, hall (List.Subset.refl _), List.append_nil]
  · split
    · rw [List.filter_append, hnone, hall (List.Subset.refl _), List.nil_append]
    · rw [List.filter_append, List.filter_append, hnone, List.append_nil,
        hall (List.take_subset 1 calls), hall (List.drop_subset 1 calls), List.take_append_drop]

/-- What a step of a watch comes to. -/
theorem tells_of_take (hw : ∀ call ∈ w.waiting, call.isComment = true)
    (h : w.take validate l = some (w', calls)) : Tells validate w l w' calls := by
  have hremarks := Line.isComment_of_mem_remarks (l := l)
  cases hl : l.isComment with
  | true =>
    have hquiet : w.stance.take validate l = some (w.stance, []) :=
      Stance.take_of_isComment w.stance hl
    rw [take, if_pos hl] at h
    split at h
    · obtain ⟨rfl, rfl⟩ := Prod.mk.inj (Option.some.inj h)
      refine ⟨hquiet, List.forall_mem_append.mpr ⟨hw, hremarks⟩, fun call _ => ?_⟩
      simp
    · obtain ⟨rfl, rfl⟩ := Prod.mk.inj (Option.some.inj h)
      refine ⟨?_, hw, fun call _ => or_comm⟩
      rw [hquiet, filter_of_isComment hremarks]
  | false =>
    rw [take_of_code hl] at h
    obtain ⟨⟨s, told⟩, hstep, h⟩ := Option.map_eq_some_iff.mp h
    have htold : ∀ call ∈ told, call.isComment = false :=
      Site.isComment_of_run (Stance.run_of_take hstep)
    have hnot : ∀ call, call.isComment = true → call ∉ told := fun call hcall hmem =>
      Bool.false_ne_true ((htold call hmem).symm.trans hcall)
    unfold heed at h
    split at h
    · obtain ⟨rfl, rfl⟩ := Prod.mk.inj h
      refine ⟨?_, List.forall_mem_append.mpr ⟨hw, hremarks⟩, fun call hcall => ?_⟩
      · rw [hstep, List.filter_eq_self.mpr fun call hmem => by simp [htold call hmem]]
      · rw [List.mem_append]
        exact or_iff_right (hnot call hcall)
    · obtain ⟨rfl, rfl⟩ := Prod.mk.inj h
      refine ⟨?_, nofun, fun call hcall => ?_⟩
      · rw [hstep, List.filter_append, filter_weave w.stance l hw htold,
          filter_of_isComment hremarks, List.append_nil]
      · rw [List.mem_append, mem_weave_iff, or_iff_right (hnot call hcall)]
        exact or_iff_left List.not_mem_nil

/-! ## Whole readings -/

/-- Comments aside, a reading tells what it tells without them. -/
theorem readAll_quiet {lines : List (Option Line)} (hw : ∀ call ∈ w.waiting, call.isComment = true)
    (h : w.readAll validate lines = some calls) :
    w.stance.readAll validate lines = some (calls.filter fun c => !c.isComment) := by
  induction lines generalizing w calls with
  | nil =>
    obtain ⟨fin, hfin, rfl⟩ := Option.map_eq_some_iff.mp h
    have hends : fin.filter (fun c => !c.isComment) = fin := List.filter_eq_self.mpr
      fun call hcall => by simp [Stance.isComment_of_finish? hfin call hcall]
    rw [List.filter_append, filter_of_isComment hw, List.append_nil, hends]
    simp [Stance.readAll, Stance.takeAll, hfin]
  | cons line rest ih =>
    cases line with
    | none => cases h
    | some l =>
      obtain ⟨⟨w', first⟩, htake, h⟩ := Option.bind_eq_some_iff.mp h
      obtain ⟨more, hmore, rfl⟩ := Option.map_eq_some_iff.mp h
      have htells := tells_of_take hw htake
      rw [Stance.readAll_cons, htells.quiet, Option.bind_some]
      dsimp only
      rw [ih htells.waiting hmore, List.filter_append]
      rfl

/-- A reading tells of the comments that waited and of those of its lines, and of no others. -/
theorem mem_readAll_iff {lines : List (Option Line)}
    (hw : ∀ call ∈ w.waiting, call.isComment = true) (h : w.readAll validate lines = some calls)
    {call : Call} (hcall : call.isComment = true) :
    call ∈ calls ↔ call ∈ w.waiting ∨ ∃ l, some l ∈ lines ∧ call ∈ l.remarks := by
  induction lines generalizing w calls with
  | nil =>
    obtain ⟨fin, hfin, rfl⟩ := Option.map_eq_some_iff.mp h
    have hnot : call ∉ fin := fun hmem =>
      Bool.false_ne_true ((Stance.isComment_of_finish? hfin call hmem).symm.trans hcall)
    simp [hnot]
  | cons line rest ih =>
    cases line with
    | none => cases h
    | some l =>
      obtain ⟨⟨w', first⟩, htake, h⟩ := Option.bind_eq_some_iff.mp h
      obtain ⟨more, hmore, rfl⟩ := Option.map_eq_some_iff.mp h
      have htells := tells_of_take hw htake
      have hstep := htells.comments call hcall
      rw [List.mem_append, ih htells.waiting hmore, ← or_assoc, hstep, or_assoc]
      refine or_congr_right ?_
      constructor
      · rintro (hl | ⟨l', hl', hmem⟩)
        · exact ⟨l, List.mem_cons_self, hl⟩
        · exact ⟨l', List.mem_cons_of_mem _ hl', hmem⟩
      · rintro ⟨l', hl', hmem⟩
        obtain heq | hl' := List.mem_cons.mp hl'
        · exact .inl (Option.some.inj heq ▸ hmem)
        · exact .inr ⟨l', hl', hmem⟩

/-- No comment behind code is the first to be told, unless it waited outside of arrays. -/
theorem head_ne_eolComment {lines : List (Option Line)}
    (hw : w.stance.braces = none → ∀ call ∈ w.waiting, call.kind ≠ .eolComment)
    (h : w.readAll validate lines = some calls) : calls.head?.map Call.kind ≠ some .eolComment := by
  have hfirst : ∀ {told more : List Call}, told ≠ [] → (∀ call ∈ told, call.kind ≠ .eolComment) →
      (told ++ more).head?.map Call.kind ≠ some .eolComment := by
    intro told more hne htold heq
    obtain ⟨call, rest, rfl⟩ := List.exists_cons_of_ne_nil hne
    exact htold call List.mem_cons_self (Option.some.inj heq)
  have hcode : ∀ {call : Call}, call.isComment = false → call.kind ≠ .eolComment := by
    intro call hcall
    cases call <;> first | exact CallKind.noConfusion | cases hcall
  induction lines generalizing w calls with
  | nil =>
    obtain ⟨fin, hfin, rfl⟩ := Option.map_eq_some_iff.mp h
    have hbraces : w.stance.braces = none := by
      unfold Stance.finish? at hfin
      split at hfin
      · exact nomatch hfin
      · split at hfin
        · assumption
        · assumption
        · exact nomatch hfin
    have hall : ∀ call ∈ fin ++ w.waiting, call.kind ≠ .eolComment :=
      List.forall_mem_append.mpr
        ⟨fun call hmem => hcode (Stance.isComment_of_finish? hfin call hmem), hw hbraces⟩
    intro heq
    obtain ⟨call, hcall, hkind⟩ := Option.map_eq_some_iff.mp heq
    exact hall call (List.mem_of_mem_head? hcall) hkind
  | cons line rest ih =>
    cases line with
    | none => cases h
    | some l =>
      obtain ⟨⟨w', first⟩, htake, h⟩ := Option.bind_eq_some_iff.mp h
      obtain ⟨more, hmore, rfl⟩ := Option.map_eq_some_iff.mp h
      cases hl : l.isComment with
      | true =>
        obtain ⟨text, htext⟩ := Option.isSome_iff_exists.mp hl
        have hremarks : l.remarks = [.comment text] := by rw [Line.remarks, htext]
        rw [take, if_pos hl, hremarks] at htake
        split at htake
        · obtain ⟨rfl, rfl⟩ := Prod.mk.inj (Option.some.inj htake)
          rw [List.nil_append]
          refine ih (fun hbraces => ?_) hmore
          exact List.forall_mem_append.mpr
            ⟨hw hbraces, List.forall_mem_singleton.mpr CallKind.noConfusion⟩
        · obtain ⟨rfl, rfl⟩ := Prod.mk.inj (Option.some.inj htake)
          exact hfirst (List.cons_ne_nil _ _) (List.forall_mem_singleton.mpr CallKind.noConfusion)
      | false =>
        rw [take_of_code hl] at htake
        obtain ⟨⟨s, told⟩, hstep, htake⟩ := Option.map_eq_some_iff.mp htake
        have htold : ∀ call ∈ told, call.kind ≠ .eolComment := fun call hmem =>
          hcode (Site.isComment_of_run (Stance.run_of_take hstep) call hmem)
        unfold heed at htake
        split at htake
        · next hbraces =>
          obtain ⟨rfl, rfl⟩ := Prod.mk.inj htake
          dsimp only at hbraces
          by_cases hnil : told = []
          · rw [hnil, List.nil_append]
            refine ih (fun hnone => ?_) hmore
            exact absurd hnone (Option.isSome_iff_ne_none.mp hbraces)
          · exact hfirst hnil htold
        · next hbraces =>
          obtain ⟨rfl, rfl⟩ := Prod.mk.inj htake
          dsimp only at hbraces
          have hne : told ≠ [] := Stance.ne_nil_of_take hl hstep (by simpa using hbraces)
          dsimp only
          rw [List.append_assoc]
          unfold Stance.weave
          split
          · rw [List.append_assoc]
            exact hfirst hne htold
          · next hopen =>
            split
            · refine hfirst (List.append_ne_nil_of_right_ne_nil _ hne) ?_
              exact List.forall_mem_append.mpr ⟨hw (by simpa using hopen), htold⟩
            · obtain ⟨call, rest, rfl⟩ := List.exists_cons_of_ne_nil hne
              rw [List.append_assoc, List.append_assoc]
              exact hfirst (List.cons_ne_nil _ _) (List.forall_mem_singleton.mpr
                (htold call List.mem_cons_self))

end Watch

/-! ## What is told of a source -/

/-- The words of a comment: on one line, without blanks at the end. -/
structure Text.IsNote (t : Text) : Prop where
  /-- They hold no line end. -/
  inline : t.IsInline
  /-- No blank ends them. -/
  trimmed : trimRight t = t

variable {o : Options} {source : Text} {calls : List Call}

/-- Comments aside, a source tells what it tells without them. -/
theorem strictCalls_of_commentedCalls (h : commentedCalls o source = some calls) :
    strictCalls o source = some (calls.filter fun c => !c.isComment) :=
  Watch.readAll_quiet (List.forall_mem_nil _) h

/-- A source tells of the comments of its lines and of no others. -/
theorem mem_commentedCalls_iff (h : commentedCalls o source = some calls) {call : Call}
    (hcall : call.isComment = true) :
    call ∈ calls ↔ ∃ l, .ok l ∈ scanLines source ∧ call ∈ l.remarks := by
  rw [Watch.mem_readAll_iff (List.forall_mem_nil _) h hcall]
  refine (or_iff_right List.not_mem_nil).trans ?_
  refine exists_congr fun l => and_congr_left fun _ => ?_
  rw [List.mem_map]
  constructor
  · rintro ⟨r, hr, heq⟩
    cases r with
    | error fault => exact nomatch heq
    | ok l' => exact Option.some.inj heq ▸ hr
  · exact fun hl => ⟨_, hl, rfl⟩

/-- No comment behind code is told before all code. -/
theorem head_commentedCalls (h : commentedCalls o source = some calls) :
    calls.head?.map Call.kind ≠ some .eolComment :=
  Watch.head_ne_eolComment (fun _ => List.forall_mem_nil _) h

/-- What is behind a number sign loses nothing more at its end. -/
theorem trimRight_commentBody (raw : Text) : Text.trimRight (commentBody raw) = commentBody raw :=
  Text.trimRight_append_trimRight [] _

/-- The comments of a source are words of comments. -/
theorem isNote_of_commentedCalls (h : commentedCalls o source = some calls) :
    ∀ call ∈ calls, ∀ text ∈ call.note?, text.IsNote := by
  intro call hcall text htext
  have hcomment := Call.isComment_iff.mpr ⟨text, htext⟩
  obtain ⟨l, hl, hmem⟩ := (mem_commentedCalls_iff h hcomment).mp hcall
  have hbody : text ∈ l.remark.map fun t => commentBody t.text := by
    unfold Line.remarks at hmem
    split at hmem
    · next words hwords =>
      rw [List.mem_singleton.mp hmem] at htext
      obtain rfl := Option.some.inj htext
      unfold Line.comment? at hwords
      split at hwords
      · exact hwords
      · exact nomatch hwords
    · obtain ⟨words, hwords, rfl⟩ := Option.map_eq_some_iff.mp (Option.mem_toList.mp hmem)
      obtain rfl := Option.some.inj htext
      unfold Line.eolComment? at hwords
      split at hwords
      · exact nomatch hwords
      · exact hwords
  refine ⟨(isPhysical_of_mem_scanLines hl).note text hbody, ?_⟩
  obtain ⟨token, -, rfl⟩ := Option.map_eq_some_iff.mp hbody
  exact trimRight_commentBody token.text

/-! ## Listeners -/

/-- A strict reading with comments comes to an end exactly if the source tells something. It makes
the calls one after another, and then it ends the class. -/
theorem read_commented_eq {σ κ : Type} (h : o.IsAttentive) {L : Listener σ κ} (hL : L.NeverFails)
    (root : κ) (state : σ) (source : Text) :
    match commentedCalls o source with
    | some calls => ((read o L root state source).1 = .ok () ∧
        (read o L root state source).2.state =
          ((Desk.initial root state).makeAll L
            (calls.flatMap Call.moves ++ [.tell .finish])).state)
    | none => ∃ fault, (read o L root state source).1 = .error fault := by
  have hcourse := course_dialogue_commented h source
  unfold Dialogue.course at hcourse
  unfold read
  rw [Dialogue.conduct_eq o hL]
  cases hr : ((dialogue o source).rehearse o).result with
  | error fault =>
    rw [hr] at hcourse
    cases hs : commentedCalls o source with
    | none => exact ⟨fault, rfl⟩
    | some calls => simp [hs] at hcourse
  | ok result =>
    rw [hr] at hcourse
    cases hs : commentedCalls o source with
    | none => simp [hs] at hcourse
    | some calls =>
      simp only [hs, Option.map_some, Option.some.injEq, Prod.mk.injEq] at hcourse
      exact ⟨rfl, by rw [← hcourse.2]; rfl⟩

/-- The code of a source with its comments. -/
theorem format_commented_eq (h : o.IsAttentive) (source : Text) :
    (format o source).toOption = (commentedCalls o source).map Writer.codeOf := by
  have hread := read_commented_eq h Writer.listener_neverFails Writer.root (.initial ()) source
  unfold format
  generalize read o (Writer.listener .discard) Writer.root (.initial ()) source = outcome at hread ⊢
  obtain ⟨result, desk⟩ := outcome
  cases hcalls : commentedCalls o source with
  | none =>
    rw [hcalls] at hread
    obtain ⟨fault, hresult⟩ := hread
    obtain rfl : result = .error fault := hresult
    rfl
  | some calls =>
    rw [hcalls] at hread
    obtain ⟨hresult, hstate⟩ := hread
    obtain rfl : result = .ok () := hresult
    exact congrArg (fun state => some (Writer.State.code state)) hstate

/-- What a recorder hears of a source with its comments. -/
theorem heard_commented_eq (h : o.IsAttentive) (source : Text) :
    (heard o source).toOption = (commentedCalls o source).map Recorder.eventsOf := by
  have hnever : (Recorder.listener .obliging).NeverFails := Recorder.listener_neverFails rfl
  have hread := read_commented_eq h hnever (Recorder.root .ofClass) .initial source
  unfold heard
  generalize read o (Recorder.listener .obliging) (Recorder.root .ofClass) .initial source =
    outcome at hread ⊢
  obtain ⟨result, desk⟩ := outcome
  cases hcalls : commentedCalls o source with
  | none =>
    rw [hcalls] at hread
    obtain ⟨fault, hresult⟩ := hread
    obtain rfl : result = .error fault := hresult
    rfl
  | some calls =>
    rw [hcalls] at hread
    obtain ⟨hresult, hstate⟩ := hread
    obtain rfl : result = .ok () := hresult
    exact congrArg (fun state => some (Recorder.State.events state)) hstate

/-- The log of a recorder holds the calls of a source with its comments. -/
theorem Recorder.calls_eventsOf_commented (h : commentedCalls o source = some calls) :
    (eventsOf calls).map Event.call = calls ++ [.finish] := by
  obtain ⟨s, hrun, -⟩ := run_of_strictCalls (strictCalls_of_commentedCalls h)
  exact Knows.log_eventsOf ((knows_initial rfl).remarked hrun)

end Smali
