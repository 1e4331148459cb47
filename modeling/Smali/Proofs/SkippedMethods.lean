import Smali.Proofs.MethodFrames
import Smali.Proofs.ReaderRemit

/-!
# A malformed method is skipped as a whole

A reader that skips over faults takes a method whose declaration cannot be read for a construct to
be skipped: it notes one fault and drops the lines up to the closing line, whatever they hold. Lines
that cannot be scanned are noted as well. Then the reader is where it was before, at the level of
the class. So a malformed method that is put behind another method adds its diagnostics to a
reading, and changes nothing else.
-/

namespace Smali

open scoped Dialogue.Laws

/-! ## A tolerant reader -/

/-- Comments at the level of the class are told to the end. -/
theorem result_remarkClasses (o : Options) (held : List Text) :
    ((held.forM remarkClass).rehearse o).result = .ok () := by
  induction held with
  | nil => rfl
  | cons text held ih =>
    rw [List.forM_eq_forM, List.forM_cons,
      Dialogue.result_bind_of_ok (rfl : ((remarkClass text).rehearse o).result = .ok ())]
    exact ih

/-- A closing line leaves the frames around. -/
theorem result_closeBy (o : Options) (l : Line) (opened : Position) (heard : Bool)
    (outer : List Frame) : ((closeBy l opened heard outer).rehearse o).result = .ok outer := by
  unfold closeBy
  rw [Dialogue.result_bind_of_ok (rfl : (endScope.rehearse o).result = .ok none)]
  dsimp only
  cases (if heard then l.eolCall? else none) <;> rfl

section Tolerant

variable {o : Options} (ho : o.errors = .ignore)
include ho

/-- A fault of the source is skipped over. -/
theorem rehearse_excuse {fault : Fault} (h : fault.kind.isRecoverable = true) :
    (Dialogue.excuse fault).rehearse o = ⟨[], [fault], .ok ()⟩ := by
  simp only [Dialogue.excuse, Dialogue.perform, Dialogue.rehearse, Act.stop?, ho, h, and_self,
    if_true]
  rfl

/-- A frame that ends raises no fault. -/
theorem result_close (f : Frame) (before : Option Line) :
    ∃ held, ((f.close before).rehearse o).result = .ok ⟨none, held⟩ := by
  have hexcuse : ∀ {fault : Fault} (place : Position) (held : List Text),
      fault.kind.isRecoverable = true →
        (Dialogue.rehearse o (do
          Dialogue.excuse fault
          return (⟨(← endScope).map (·, place), held⟩ : Arrival))).result = .ok ⟨none, held⟩ := by
    intro fault place held h
    rw [Dialogue.result_bind_of_ok (congrArg Rehearsal.result (rehearse_excuse ho h))]
    rfl
  cases f with
  | field f =>
    refine ⟨f.held.reverse, ?_⟩
    unfold Frame.close
    dsimp only
    split
    · exact hexcuse f.opened _ rfl
    · rfl
  | method m => exact ⟨[], hexcuse m.opened [] (by cases before <;> rfl)⟩
  | annotationBody opened name => exact ⟨[], hexcuse opened [] (by cases before <;> rfl)⟩
  | array g =>
    refine ⟨[], ?_⟩
    unfold Frame.close
    rw [Dialogue.result_bind_of_ok (congrArg Rehearsal.result (rehearse_excuse ho rfl))]
    rfl
  | skipping name => exact ⟨[], rfl⟩

/-- The frames end up to the first that stays. -/
theorem result_unwind (before : Option Line) (stays : Frame → Bool) (held : List Text)
    (frames : List Frame) :
    ((unwind before stays ⟨none, held⟩ frames).rehearse o).result =
      .ok (frames.dropWhile fun f => !stays f) := by
  induction frames generalizing held with
  | nil =>
    change (Dialogue.rehearse o (held.forM remarkClass >>= fun _ => pure [])).result = .ok []
    rw [Dialogue.result_bind_of_ok (result_remarkClasses o held)]
    rfl
  | cons f outer ih =>
    have hstep : unwind before stays ⟨none, held⟩ (f :: outer) =
        if stays f then pure (f :: outer)
        else f.close before >>= fun a => unwind before stays a outer := by
      cases f <;> rfl
    rw [hstep, List.dropWhile_cons]
    cases hstays : stays f with
    | true => rfl
    | false =>
      obtain ⟨held', hclose⟩ := result_close ho f before
      simp only [Bool.false_eq_true, if_false, Bool.not_false, if_true]
      rw [Dialogue.result_bind_of_ok hclose, ih]

/-! ## The end of a method -/

/-- Whether a line closes a method: the frames inside of the method end before the line, and the
line is the closing line of a method, be it read or skipped. -/
def Control.closesMethod (c : Control) (l : Line) : Bool :=
  l.closes "method" &&
    match c.frames.dropWhile fun f => !f.takes l with
    | f :: _ => f.isMethod
    | [] => false

/-- Behind a method nothing is open, and the class is in its body. -/
theorem result_take_of_closesMethod {c : Control} {l : Line} (h : c.closesMethod l = true)
    (hrooted : c.IsRooted) :
    c.stage = .body ∧ ((c.take l).rehearse o).result = .ok { c with frames := [] } := by
  unfold Control.closesMethod at h
  obtain ⟨hcloses, hmethod⟩ := Bool.and_eq_true_iff.mp h
  obtain ⟨f, outer, hleft, hf⟩ : ∃ f outer,
      (c.frames.dropWhile fun f => !f.takes l) = f :: outer ∧ f.isMethod = true := by
    split at hmethod
    · exact ⟨_, _, ‹_›, hmethod⟩
    · exact absurd hmethod Bool.false_ne_true
  have hsuffix : f :: outer <:+ c.frames := hleft ▸ List.dropWhile_suffix _
  obtain ⟨rfl, hstage⟩ := hrooted f outer hsuffix hf
  have hunwind : ((unwind (some l) (·.takes l) .nothing c.frames).rehearse o).result = .ok [f] :=
    (result_unwind ho (some l) (·.takes l) [] c.frames).trans (congrArg _ hleft)
  refine ⟨hstage, ?_⟩
  unfold Control.take
  rw [Dialogue.result_bind_of_ok hunwind]
  cases f with
  | method m =>
    have hcomment := Line.comment?_of_directive (Line.directive?_of_closes hcloses)
    have hline : ((takeInMethod m l []).rehearse o).result = .ok [] := by
      unfold takeInMethod
      rw [hcomment]
      dsimp only
      rw [if_pos hcloses]
      exact result_closeBy o l m.opened true []
    exact Dialogue.result_bind_of_ok hline
  | skipping name =>
    obtain rfl : name = "method".toList := of_decide_eq_true hf
    have hframes : (if l.closes "method" then [] else [Frame.skipping "method"]) = [] :=
      if_pos hcloses
    exact congrArg (fun frames => Except.ok { c with frames := frames }) hframes
  | _ => exact absurd hf Bool.false_ne_true

/-! ## A malformed method -/

omit ho in
/-- What is wrong with the declaration of a method is a fault of grammar. -/
theorem Line.kind_of_method {l : Line} {fault : Fault} (h : l.method = .error fault) :
    fault.kind = .grammar := by
  unfold Line.method at h
  cases hsplit : l.splitAccess l.arguments with
  | error flags =>
    rw [hsplit] at h
    cases h
    unfold Line.splitAccess Access.ofKeywords at hsplit
    dsimp only at hsplit
    split at hsplit
    · cases hsplit
      rfl
    · cases hwords : Access.addKeywords .none (Text.words l.arguments).dropLast with
      | ok access =>
        rw [hwords] at hsplit
        cases hsplit
      | error word =>
        rw [hwords] at hsplit
        cases hsplit
        rfl
  | ok found =>
    obtain ⟨access, declaration⟩ := found
    rw [hsplit] at h
    cases hparse : parseMethodDeclaration declaration with
    | error flaw =>
      dsimp only [bind, Except.bind] at h
      rw [hparse] at h
      cases h
      rfl
    | ok declared =>
      dsimp only [bind, Except.bind] at h
      rw [hparse] at h
      cases h

/-- The line of a malformed method opens a construct to be skipped. -/
theorem rehearse_take_method {c : Control} {l : Line} {fault : Fault} (hframes : c.frames = [])
    (hstage : c.stage = .body) (hd : l.directive? = some .method)
    (hfault : l.method = .error fault) :
    (c.take l).rehearse o = ⟨[], [fault], .ok { c with frames := [.skipping "method"] }⟩ := by
  have hopen : { c with stage := .body }.openMethod l = do
      Dialogue.excuse fault
      return { c with stage := .body, frames := [.skipping "method"] } := by
    unfold Control.openMethod methodHeader
    rw [hfault]
    rfl
  have hline : c.classLine l = { c with stage := .body }.openMethod l := by
    unfold Control.classLine
    rw [Line.comment?_of_directive hd, hd, hstage]
    rfl
  have hkind : fault.kind.isRecoverable = true := by rw [Line.kind_of_method hfault]; rfl
  rw [Control.take_of_frames hframes, hline, hopen,
    Dialogue.rehearse_bind_of_ok (rehearse_excuse ho hkind), ← hstage]
  rfl

omit ho in
/-- A construct that is skipped takes a line of whatever kind. -/
theorem rehearse_take_skipping {c : Control} {l : Line} {name : Text}
    (hframes : c.frames = [.skipping name]) (hl : l.closes name = true ∨ l.opensMember = false) :
    (c.take l).rehearse o =
      ⟨[], [], .ok { c with frames := if l.closes name then [] else [.skipping name] }⟩ := by
  have htakes : (Frame.skipping name).takes l = true := by
    simp only [Frame.takes, Bool.or_eq_true, Bool.not_eq_true']
    exact hl
  unfold Control.take
  rw [hframes, unwind_nothing_cons, if_pos htakes]
  rfl

/-- The faults of lines that cannot be scanned. -/
def scanFaults (lines : List (Except Fault Line)) : List Fault :=
  lines.filterMap fun
    | .error fault => some fault
    | .ok _ => none

/-- Lines that are skipped leave no trace but the faults of those that cannot be scanned. -/
theorem rehearse_takeLines_skipping {c : Control} {name : Text}
    (hframes : c.frames = [.skipping name]) {lines : List (Except Fault Line)}
    (hfaults : ∀ fault, .error fault ∈ lines → fault.kind = .lexical)
    (hlines : ∀ l, .ok l ∈ lines → l.closes name = false ∧ l.opensMember = false) :
    (c.takeLines lines).rehearse o = ⟨[], scanFaults lines, .ok c⟩ := by
  induction lines with
  | nil => rfl
  | cons line lines ih =>
    have hrest := ih (fun fault hmem => hfaults fault (List.mem_cons_of_mem _ hmem))
      fun l hmem => hlines l (List.mem_cons_of_mem _ hmem)
    cases line with
    | error fault =>
      have hkind : fault.kind.isRecoverable = true := by
        rw [hfaults fault List.mem_cons_self]
        rfl
      unfold Control.takeLines
      rw [Dialogue.rehearse_bind_of_ok (rehearse_excuse ho hkind), hrest]
      rfl
    | ok l =>
      obtain ⟨hcloses, hmember⟩ := hlines l List.mem_cons_self
      have hline := rehearse_take_skipping (o := o) hframes (.inr hmember)
      rw [hcloses, if_neg Bool.false_ne_true, ← hframes] at hline
      unfold Control.takeLines
      rw [Dialogue.rehearse_bind_of_ok hline, hrest]
      rfl

/-- A malformed method leaves no trace but its faults. -/
theorem rehearse_malformedMethod {c : Control} (hframes : c.frames = []) (hstage : c.stage = .body)
    {head last : Line} {inner : List (Except Fault Line)} {fault : Fault}
    (hhead : head.directive? = some .method) (hfault : head.method = .error fault)
    (hfaults : ∀ fault, .error fault ∈ inner → fault.kind = .lexical)
    (hinner : ∀ l, .ok l ∈ inner → l.closes "method" = false ∧ l.opensMember = false)
    (hlast : last.closes "method" = true) :
    (c.takeLines (.ok head :: (inner ++ [.ok last]))).rehearse o =
      ⟨[], fault :: scanFaults inner, .ok c⟩ := by
  have hopens := rehearse_take_method ho hframes hstage hhead hfault
  obtain ⟨stage, declared, frames⟩ := c
  obtain rfl : frames = [] := hframes
  have hskipped := rehearse_takeLines_skipping ho
    (c := ⟨stage, declared, [.skipping "method"]⟩) rfl hfaults hinner
  have hcloses := rehearse_take_skipping (o := o)
    (c := ⟨stage, declared, [.skipping "method"]⟩) rfl (.inl hlast)
  rw [hlast, if_pos rfl] at hcloses
  have hend :
      ((⟨stage, declared, [.skipping "method"]⟩ : Control).takeLines [.ok last]).rehearse o =
        ⟨[], [], .ok ⟨stage, declared, []⟩⟩ :=
    Dialogue.rehearse_bind_of_ok hcloses
  have hinside := Dialogue.rehearse_bind_of_ok (f := fun c => c.takeLines [.ok last]) hskipped
  rw [← Control.takeLines_append, hend] at hinside
  unfold Control.takeLines
  rw [Dialogue.rehearse_bind_of_ok hopens, hinside]
  simp [Rehearsal.after]

end Tolerant

/-- Whether the last of some lines at the start of a source closes a method, if nobody fails. -/
def endsWithMethod (o : Options) (before : List Text) : Bool :=
  match before.getLast?,
      (((Control.initial o).takeLines (scanFrom 1 before.dropLast)).rehearse o).result with
  | some closing, .ok c =>
    match scanFrom before.length [closing] with
    | [.ok l] => c.closesMethod l
    | _ => false
  | _, _ => false

/-- Behind such lines the reader is at the level of the class. -/
theorem exists_reaches_of_endsWithMethod {o : Options} (ho : o.errors = .ignore)
    {before : List Text} (h : endsWithMethod o before = true) :
    ∃ c, Reaches o before c ∧ c.frames = [] ∧ c.stage = .body := by
  unfold endsWithMethod at h
  split at h
  · rename_i closing c hlast hreach
    split at h
    · rename_i l hscan
      obtain ⟨earlier, rfl⟩ : ∃ earlier, before = earlier ++ [closing] :=
        ⟨_, (List.dropLast_append_getLast? closing hlast).symm⟩
      rw [List.dropLast_concat] at hreach
      rw [List.length_append, List.length_singleton] at hscan
      obtain ⟨hstage, htake⟩ := result_take_of_closesMethod ho h (Reaches.isRooted hreach)
      refine ⟨{ c with frames := [] }, ?_, rfl, hstage⟩
      unfold Reaches
      rw [scanFrom_append, Nat.add_comm 1, hscan, Control.takeLines_append,
        Dialogue.result_bind_of_ok hreach]
      exact Dialogue.result_bind_of_ok htake
    · exact absurd h Bool.false_ne_true
  · exact absurd h Bool.false_ne_true

/-- Before a listener that never fails, a reader that skips over faults is not disturbed by a
malformed method. Behind a line that closes a method, some lines are put: a line with a method whose
declaration cannot be read, lines of which none closes a method or opens a member or a class, though
some may not even be scanned, and a line that closes a method. Then the calls are the same, and so
is the end of the reading. The diagnostics are the same, with one for the method and one for each
line that cannot be scanned in between, and the lines behind have other numbers. -/
theorem malformed_method_skipped {σ κ : Type} {L : Listener σ κ} (hL : L.NeverFails) {o : Options}
    (ho : o.errors = .ignore) (root : κ) (state : σ) {source source' : Text}
    {before block after : List Text} (hsource : Text.lines source = before ++ after)
    (hsource' : Text.lines source' = before ++ (block ++ after))
    (hpoint : endsWithMethod o before = true)
    {head last : Line} {inner : List (Except Fault Line)} {fault : Fault}
    (hblock : scanFrom (before.length + 1) block = .ok head :: (inner ++ [.ok last]))
    (hhead : head.directive? = some .method) (hfault : head.method = .error fault)
    (hinner : ∀ l, .ok l ∈ inner → l.closes "method" = false ∧ l.opensMember = false)
    (hlast : last.closes "method" = true) :
    let renumber := Fault.renumber (lineNumberBehind before.length block.length)
    callsOf o L root state source' = callsOf o L root state source ∧
      (read o L root state source').1 = (read o L root state source).1.mapError renumber ∧
      ∃ earlier later,
        (read o L root state source).2.diagnostics = earlier ++ later ∧
        (read o L root state source').2.diagnostics =
          earlier ++ ((fault :: scanFaults inner) ++ later.map renumber) := by
  obtain ⟨c, hreach, hframes, hstage⟩ := exists_reaches_of_endsWithMethod ho hpoint
  have hfaults : ∀ fault, .error fault ∈ inner → fault.kind = .lexical := fun fault hmem =>
    kind_of_scanFrom (hblock ▸ List.mem_cons_of_mem _ (List.mem_append_left _ hmem))
  have hskipped := rehearse_malformedMethod ho hframes hstage hhead hfault hfaults hinner hlast
  rw [← hblock] at hskipped
  exact readings_of_insertion hsource hsource' hreach hskipped hL root state

/-- A closing line without a comment. -/
def closingLineAt (number : Nat) (name : Text) : Line :=
  ⟨[⟨.directive, ".end", ⟨number, 1⟩⟩, ⟨.identifier, name, ⟨number, 6⟩⟩], ".end " ++ name, none,
    ⟨number, 1⟩⟩

/-- A class with two methods and with a line that belongs to nothing. -/
def twoMethods : Text :=
  ".class La;\n.method a()V\n.end method\n.method b()V\n.end method\nc".toList

/-- The same class with a malformed method between the methods. It is declared as nothing, and there
are an open quote and the end of a field in it. -/
def malformedBetween : Text :=
  ".class La;\n.method a()V\n.end method\n.method\n\"open\n.end field\n.end method\n".toList ++
    ".method b()V\n.end method\nc".toList

/-- Both classes are told with six calls. Of the one a single line is skipped over, of the other
also the method in between and the open quote in it. -/
theorem malformed_method_skipped_between :
    let L := Recorder.listener .obliging
    let root := Recorder.root .ofClass
    let o : Options := { Options.default with errors := .ignore }
    callsOf o L root .initial malformedBetween = callsOf o L root .initial twoMethods ∧
      (callsOf o L root .initial twoMethods).length = 6 ∧
      (read o L root .initial malformedBetween).1 = .ok () ∧
      (read o L root .initial twoMethods).2.diagnostics.map (·.position.map Position.line) =
        [some 6] ∧
      (read o L root .initial malformedBetween).2.diagnostics.map (·.position.map Position.line) =
        [some 4, some 5, some 10] := by
  intro L root o
  have hL : L.NeverFails := Recorder.listener_neverFails rfl
  have hplain : Text.lines twoMethods =
      [".class La;".toList, ".method a()V".toList, ".end method".toList] ++
        [".method b()V".toList, ".end method".toList, ['c']] := by decide +kernel
  have hmalformed : Text.lines malformedBetween =
      [".class La;".toList, ".method a()V".toList, ".end method".toList] ++
        ([".method".toList, "\"open".toList, ".end field".toList, ".end method".toList] ++
          [".method b()V".toList, ".end method".toList, ['c']]) := by decide +kernel
  have hblock : scanFrom 4 [".method".toList, "\"open".toList, ".end field".toList,
        ".end method".toList] =
      .ok ⟨[⟨.directive, ".method", ⟨4, 1⟩⟩], ".method", none, ⟨4, 1⟩⟩ ::
        ([.error (.located .lexical ⟨5, 1⟩ "unterminated or malformed literal \"open"),
          .ok (closingLineAt 6 "field")] ++ [.ok (closingLineAt 7 "method")]) := by decide +kernel
  have hinner : ∀ l, .ok l ∈ [.error (Fault.located .lexical ⟨5, 1⟩
        "unterminated or malformed literal \"open"), Except.ok (closingLineAt 6 "field")] →
      l.closes "method" = false ∧ l.opensMember = false := by
    intro l hl
    obtain rfl : l = closingLineAt 6 "field" := by simpa using hl
    decide
  obtain ⟨hcalls, -, -⟩ := malformed_method_skipped hL (o := o) rfl root Recorder.State.initial
    hplain hmalformed (by decide +kernel) hblock rfl rfl hinner rfl
  exact ⟨hcalls, by decide +kernel, by decide +kernel, by decide +kernel, by decide +kernel⟩

end Smali
