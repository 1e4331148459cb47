import Smali.Proofs.DialogueLaws
import Smali.Proofs.Remits

/-!
# The remit of a reader

Whatever a reader is received with, the faults that it finds itself stand at the place of the
line that it takes, or at the place where a frame was opened; every call that it makes outside
the class header is covered by every remit. So a reader keeps to a remit as soon as the
remit has the places of the lines, what the scanner found, and the calls of the header
if a header can still come.
-/

namespace Smali

open Dialogue (Within)

/-! ## Arguments -/

/-- A result whose fault, if it is one, is found at a place. -/
def FaultsAt {α : Type} (place : Position) (result : Except Fault α) : Prop :=
  ∀ fault, result = .error fault → fault.IsAt place

section Arguments

variable {α β : Type} {place : Position}

/-- A result that is no fault. -/
theorem faultsAt_ok (a : α) : FaultsAt place (.ok a) := nofun

/-- A fault that is found at the place. -/
theorem faultsAt_error {fault : Fault} (h : fault.IsAt place) :
    FaultsAt place (.error fault : Except Fault α) :=
  fun _ heq => Except.error.inj heq ▸ h

/-- Two results in a row. -/
theorem FaultsAt.bind {result : Except Fault α} {f : α → Except Fault β}
    (h : FaultsAt place result) (hf : ∀ a, FaultsAt place (f a)) :
    FaultsAt place (result >>= f) := by
  cases result with
  | ok a => exact hf a
  | error fault => exact faultsAt_error (h fault rfl)

/-- A result that is changed where it is no fault. -/
theorem FaultsAt.map {result : Except Fault α} (f : α → β) (h : FaultsAt place result) :
    FaultsAt place (result.map f) := by
  cases result with
  | ok a => exact faultsAt_ok (f a)
  | error fault => exact faultsAt_error (h fault rfl)

/-- A flaw that is turned into a fault at the place. -/
theorem faultsAt_mapError {ε : Type} {result : Except ε α} {f : ε → Fault}
    (h : ∀ flaw, (f flaw).IsAt place) : FaultsAt place (result.mapError f) := by
  cases result with
  | ok a => exact faultsAt_ok a
  | error flaw => exact faultsAt_error (h flaw)

/-- The value of a literal at a place. -/
theorem faultsAt_decodeAt (place : Position) (t : Text) :
    FaultsAt place (Line.decodeAt place t) :=
  faultsAt_mapError fun _ => ⟨rfl, .inr (.inr (.inr rfl))⟩

namespace Line

variable (l : Line)

/-- A type at a line. -/
theorem faultsAt_parseType (t : Text) : FaultsAt l.position (l.parseType t) :=
  faultsAt_mapError fun _ => ⟨rfl, .inr (.inr (.inl rfl))⟩

/-- The flags in front of a declaration. -/
theorem faultsAt_splitAccess (t : Text) : FaultsAt l.position (l.splitAccess t) := by
  unfold splitAccess
  dsimp only
  split
  · exact faultsAt_error (l.grammar_isAt _)
  · split
    · exact faultsAt_ok _
    · next fault hfault =>
      -- The fault of an unknown flag has no place yet.
      refine faultsAt_error ?_
      unfold Access.ofKeywords at hfault
      cases hadd : Access.addKeywords Access.none (Text.words t).dropLast with
      | ok access =>
        rw [hadd] at hfault
        exact Except.noConfusion rfl rfl (heq_of_eq hfault)
      | error word =>
        rw [hadd] at hfault
        obtain rfl := Except.error.inj hfault
        exact ⟨rfl, .inl rfl⟩

/-- Flags and type of a class line. -/
theorem faultsAt_classHeader : FaultsAt l.position l.classHeader :=
  (l.faultsAt_splitAccess _).bind fun _ => (l.faultsAt_parseType _).bind fun _ => faultsAt_ok _

/-- A single type. -/
theorem faultsAt_singleType : FaultsAt l.position l.singleType := by
  unfold singleType
  split
  · exact faultsAt_error (l.grammar_isAt _)
  · exact l.faultsAt_parseType _

/-- The file name of a source line. -/
theorem faultsAt_sourceName : FaultsAt l.position l.sourceName := by
  unfold sourceName
  split
  · exact faultsAt_ok _
  · exact faultsAt_error (l.grammar_isAt _)

/-- A count. -/
theorem faultsAt_count : FaultsAt l.position l.count := by
  unfold count
  split
  · exact faultsAt_ok _
  · exact faultsAt_error (l.grammar_isAt _)

/-- A text literal. -/
theorem faultsAt_quotedOr {fault : Fault} (h : fault.IsAt place) (t : Text) :
    FaultsAt place (quotedOr fault t) := by
  unfold quotedOr
  split
  · exact faultsAt_ok _
  · exact faultsAt_error h

/-- Register and name of a parameter. -/
theorem faultsAt_param : FaultsAt l.position l.param := by
  unfold param
  dsimp only
  split
  · exact faultsAt_error (l.grammar_isAt _)
  · split
    · exact faultsAt_ok _
    · exact (faultsAt_quotedOr (l.grammar_isAt _) _).map _

/-- A register. -/
theorem faultsAt_register (t : Option Text) : FaultsAt l.position (l.register t) := by
  unfold register
  split
  · split
    · exact faultsAt_error (l.grammar_isAt _)
    · exact faultsAt_ok _
  · exact faultsAt_error (l.grammar_isAt _)

/-- The name of a local variable. -/
theorem faultsAt_localName {malformed : Fault} (h : malformed.IsAt l.position) (t : Text) :
    FaultsAt l.position (l.localName malformed t) := by
  unfold localName
  split
  · exact faultsAt_ok _
  · split
    · split
      · exact faultsAt_ok _
      · exact faultsAt_error (l.grammar_isAt _)
    · exact faultsAt_error h

/-- A local variable. -/
theorem faultsAt_localVariable : FaultsAt l.position l.localVariable := by
  have hmalformed := l.grammar_isAt ("malformed .local '" ++ l.text ++ "'")
  refine FaultsAt.bind (l.faultsAt_register _) fun register => ?_
  split
  · exact faultsAt_ok _
  · refine FaultsAt.bind (l.faultsAt_localName hmalformed _) fun name => ?_
    dsimp only
    split
    · refine FaultsAt.bind (l.faultsAt_parseType _) fun type => ?_
      split
      · exact faultsAt_ok _
      · exact (faultsAt_quotedOr hmalformed _).bind fun _ => faultsAt_ok _
    · exact faultsAt_error hmalformed

/-- A handler. -/
theorem faultsAt_handler : FaultsAt l.position l.handler := by
  unfold handler
  split
  · split
    · exact faultsAt_ok _
    · exact faultsAt_error (l.grammar_isAt _)
  · exact faultsAt_error (l.grammar_isAt _)

/-- A field. -/
theorem faultsAt_field : FaultsAt l.position l.field := by
  unfold field
  dsimp only
  refine FaultsAt.bind (l.faultsAt_splitAccess _) fun _ => ?_
  refine FaultsAt.bind (faultsAt_mapError fun _ => ⟨rfl, .inl rfl⟩) fun _ => ?_
  split
  · exact faultsAt_ok _
  · exact (faultsAt_decodeAt l.position _).bind fun _ => faultsAt_ok _

/-- A method. -/
theorem faultsAt_method : FaultsAt l.position l.method := by
  refine FaultsAt.bind (l.faultsAt_splitAccess _) fun _ => ?_
  exact FaultsAt.bind (faultsAt_mapError fun _ => ⟨rfl, .inl rfl⟩) fun _ => faultsAt_ok _

/-- Visibility and type of an annotation. -/
theorem faultsAt_annotationHeader : FaultsAt l.position l.annotationHeader := by
  unfold Line.annotationHeader
  split
  · next visibility type _ =>
    have hvisibility : FaultsAt l.position
        ((Visibility.ofKeyword visibility).mapError (·.attach l.position)) := by
      unfold Visibility.ofKeyword
      split
      · exact faultsAt_ok _
      · split
        · exact faultsAt_ok _
        · split
          · exact faultsAt_ok _
          · exact faultsAt_error ⟨rfl, .inl rfl⟩
    exact hvisibility.bind fun _ => (l.faultsAt_parseType type).bind fun _ => faultsAt_ok _
  · exact faultsAt_error (l.grammar_isAt _)

end Line

end Arguments

/-! ## Lines in general -/

section Lines

variable {r : Remit} {l : Line}

/-- What the arguments of a line consist of. -/
theorem Passage.within_ofLine {α : Type} (hl : r.places l.position) {result : Except Fault α}
    (h : FaultsAt l.position result) : (Passage.ofExcept result).Within r fun _ => True :=
  Passage.within_ofExcept fun fault hfault => r.faults_of_isAt fault _ (h fault hfault) hl

/-- A fault of grammar at a line. -/
theorem faults_grammar (hl : r.places l.position) (details : Text) :
    r.faults (l.grammar details) :=
  r.faults_of_isAt _ _ (l.grammar_isAt details) hl

/-- The comment behind a line. -/
theorem calls_eolCall? (r : Remit) (l : Line) : ∀ call ∈ l.eolCall?, r.calls call := by
  intro call h
  obtain ⟨text, -, rfl⟩ := Option.map_eq_some_iff.mp h
  exact r.calls_of_isHeader _ rfl

/-- A call for a line that opens no scope. -/
theorem within_tellLine {call : Call} (h : r.calls call) :
    (Passage.tellLine l call).Within r fun _ => True :=
  (Passage.within_tell h).bind fun _ _ => Passage.within_remark (calls_eolCall? r l)

/-- A call for a line that opens a scope. -/
theorem within_enterLine {call : Call} (h : r.calls call) :
    (Passage.enter call l.eolCall?).Within r fun _ => True :=
  Passage.within_enter h (calls_eolCall? r l)

/-- A condition that concerns a line. -/
theorem within_check (hl : r.places l.position) (holds : Bool) (details : Text) :
    (Passage.check l holds details).Within r fun _ => True :=
  Passage.within_require hl

/-- The conditions on a value. -/
theorem within_checkValue {place : Position} (h : r.places place) (value : Value) :
    (Passage.checkValue place value).Within r fun _ => True := by
  unfold Passage.checkValue
  split
  · exact trivial
  · exact Passage.within_require h

/-- A fault of a passage is skipped over. -/
theorem within_attempt {α : Type} {place : Position} (hplace : r.places place) {p : Passage α}
    {Q : α → Prop} (h : p.Within r Q) :
    (Dialogue.attempt place p).Within r fun result => ∀ a ∈ result, Q a := by
  refine Within.bind h fun result hresult => ?_
  cases result with
  | ok a => exact fun _ ha => Option.some.inj ha ▸ hresult
  | error fault =>
    refine (Dialogue.within_perform (a := .excuse (fault.attach place))
      (r.faults_attach fault place hresult hplace)).bind fun _ _ => ?_
    exact nofun

end Lines

/-! ## Ends of scopes -/

section Ends

variable {r : Remit}

/-- A fault is skipped over. -/
theorem within_excuse {fault : Fault} (h : r.faults fault) :
    (Dialogue.excuse fault).Within r fun _ => True :=
  Dialogue.within_perform h

/-- The end of a scope is told. -/
theorem within_endScope (r : Remit) :
    endScope.Within r fun received => ∀ fault ∈ received, r.faults fault := by
  refine Within.bind (Passage.within_tell (r.calls_of_isHeader _ rfl)) fun result hresult => ?_
  refine (Dialogue.within_perform (a := .leave) trivial).bind fun _ _ => ?_
  cases result with
  | ok _ => exact nofun
  | error fault => exact fun _ h => Option.some.inj h ▸ hresult

/-- The end of a scope, as what comes out of it. -/
theorem within_endScope_arrival {opened : Position} (h : r.places opened) (held : List Text) :
    Within r (Arrival.Within r)
      (do return (⟨(← endScope).map (·, opened), held⟩ : Arrival)) := by
  refine (within_endScope r).bind fun received hreceived fault place heq => ?_
  obtain ⟨fault, hfault, heq⟩ := Option.map_eq_some_iff.mp heq
  cases heq
  exact ⟨hreceived fault hfault, h⟩

/-- A call that opens no scope and whose fault ends the reading. -/
theorem within_tell_strict {call : Call} (h : r.calls call)
    {rest : Except Fault Unit → Dialogue Unit} (hok : (rest (.ok ())).Within r fun _ => True)
    (herror : ∀ fault, rest (.error fault) = .halt fault) :
    Within r (fun _ => True) ((Passage.tell call).run >>= rest) := by
  refine ⟨h, fun received hreceived => ?_⟩
  cases received with
  | none => exact hok
  | some fault =>
    change (rest (.error fault)).Within r fun _ => True
    exact herror fault ▸ (hreceived fault rfl).2

/-- A comment at the level of the class. -/
theorem within_remarkClass (r : Remit) (text : Text) :
    (remarkClass text).Within r fun _ => True :=
  within_tell_strict (r.calls_of_isHeader _ rfl) trivial fun _ => rfl

/-- What comes out of a scope is skipped over. -/
theorem Arrival.Within.excuse {a : Arrival} (h : a.Within r) :
    a.excuse.Within r fun _ => True := by
  unfold Arrival.excuse
  split
  · next fault place heq =>
    obtain ⟨hfault, hplace⟩ := h fault place heq
    exact within_excuse (r.faults_attach fault place hfault hplace)
  · exact trivial

/-- What comes out of a member reaches the class. -/
theorem Arrival.Within.reachClass {a : Arrival} (h : a.Within r) :
    a.reachClass.Within r fun _ => True :=
  h.excuse.bind fun _ _ => Dialogue.within_forM fun text _ => within_remarkClass r text

/-- A scope that ends without its closing line, before a line or at the end of the source. -/
theorem faults_missingEnd {what : Text} {opened : Position} (h : r.places opened)
    {before : Option Line} (hbefore : ∀ l ∈ before, r.places l.position) :
    r.faults (missingEnd what opened before) := by
  cases before with
  | none => exact r.faults_of_isAt _ opened ⟨rfl, .inr (.inl rfl)⟩ h
  | some l => exact r.faults_of_isAt _ l.position ⟨rfl, .inr (.inl rfl)⟩ (hbefore l rfl)

/-- A frame that ends without a closing line. -/
theorem within_close {f : Frame} (hf : f.Within r) {before : Option Line}
    (hbefore : ∀ l ∈ before, r.places l.position) :
    (f.close before).Within r (Arrival.Within r) := by
  cases f with
  | field f =>
    simp only [Frame.close]
    split
    · refine (within_excuse (r.faults_of_isAt _ f.opened ⟨rfl, .inr (.inl rfl)⟩ hf)).bind
        fun _ _ => ?_
      exact within_endScope_arrival hf _
    · exact within_endScope_arrival hf _
  | method m =>
    refine (within_excuse (faults_missingEnd hf hbefore)).bind fun _ _ => ?_
    exact within_endScope_arrival hf _
  | annotationBody opened name =>
    refine (within_excuse (faults_missingEnd hf hbefore)).bind fun _ _ => ?_
    exact within_endScope_arrival hf _
  | array g =>
    refine (within_excuse (r.faults_of_isAt _ g.opened ⟨rfl, .inr (.inl rfl)⟩ hf.1)).bind
      fun _ _ => ?_
    exact Arrival.within_nothing r
  | skipping name => exact Arrival.within_nothing r

/-- Frames are left down to the first that stays. -/
theorem within_unwind {before : Option Line} (hbefore : ∀ l ∈ before, r.places l.position)
    (stays : Frame → Bool) {frames : List Frame} (hframes : ∀ f ∈ frames, f.Within r)
    {a : Arrival} (ha : a.Within r) :
    (unwind before stays a frames).Within r fun left => ∀ f ∈ left, f.Within r := by
  induction frames generalizing a with
  | nil => exact ha.reachClass.bind fun _ _ => hframes
  | cons f outer ih =>
    have hf := hframes f List.mem_cons_self
    have houter : ∀ f ∈ outer, f.Within r := fun f hf => hframes f (List.mem_cons_of_mem _ hf)
    have hstep : Within r (fun left => ∀ f ∈ left, f.Within r) (do
        a.excuse
        if stays f then return f :: outer
        else unwind before stays (← f.close before) outer) := by
      refine ha.excuse.bind fun _ _ => ?_
      split
      · exact hframes
      · exact (within_close hf hbefore).bind fun _ hclosed => ih houter hclosed
    obtain ⟨_ | ⟨fault, place⟩, held⟩ := a
    · cases f <;> exact hstep
    · cases f with
      | field f =>
        -- The fault that takes the field with it goes on from the place of the field.
        refine (Dialogue.within_perform (a := .leave) trivial).bind fun _ _ => ?_
        refine ih houter fun fault' place' heq => ?_
        cases heq
        exact ⟨(ha fault place rfl).1, hf⟩
      | _ => exact hstep

/-- A fault is handed to the frames around. -/
theorem within_raise {fault : Fault} (hfault : r.faults fault) {opened : Position}
    (hopened : r.places opened) {outer : List Frame} (houter : ∀ f ∈ outer, f.Within r) :
    (raise fault opened outer).Within r fun left => ∀ f ∈ left, f.Within r := by
  refine within_unwind ?_ _ houter fun fault' place' heq => ?_
  · exact nofun
  · cases heq
    exact ⟨hfault, hopened⟩

/-- A closing line ends a scope. -/
theorem within_closeBy (l : Line) {opened : Position} (hopened : r.places opened) (heard : Bool)
    {outer : List Frame} (houter : ∀ f ∈ outer, f.Within r) :
    (closeBy l opened heard outer).Within r fun left => ∀ f ∈ left, f.Within r := by
  refine (within_endScope r).bind fun received hreceived => ?_
  cases received with
  | some fault => exact within_raise (hreceived fault rfl) hopened houter
  | none =>
    refine Within.bind (Passage.within_remark ?_) fun result hresult => ?_
    · cases heard with
      | true => exact calls_eolCall? r l
      | false => exact nofun
    · cases result with
      | ok _ => exact houter
      | error fault => exact within_raise hresult hopened houter

/-- A fault of a passage takes the scope with it. -/
theorem within_orRaise {opened : Position} (hopened : r.places opened) {outer : List Frame}
    (houter : ∀ f ∈ outer, f.Within r) {p : Passage (List Frame)}
    (h : p.Within r fun left => ∀ f ∈ left, f.Within r) :
    (orRaise opened outer p).Within r fun left => ∀ f ∈ left, f.Within r := by
  refine Within.bind h fun result hresult => ?_
  cases result with
  | ok frames => exact hresult
  | error fault =>
    exact (Dialogue.within_perform (a := .leave) trivial).bind fun _ _ =>
      within_raise hresult hopened houter

end Ends

/-! ## Frames -/

section Frames

variable {r : Remit} {l : Line}

/-- The annotation of a line is gone into, or skipped. -/
theorem within_openAnnotationScope (hl : r.places l.position) :
    (openAnnotationScope l).Within r (Frame.Within r) := by
  have hheader : (annotationHeader l).Within r fun _ => True :=
    (Passage.within_ofLine hl l.faultsAt_annotationHeader).bind fun _ _ =>
      (within_check hl _ _).bind fun _ _ => trivial
  refine (Passage.within_outcome hheader).bind fun result hresult => ?_
  cases result with
  | ok header => exact (within_enterLine (r.calls_of_isHeader _ rfl)).bind fun _ _ => hl
  | error fault => exact (Passage.within_lift (within_excuse hresult)).bind fun _ _ => trivial

/-- The nested annotation of a line is gone into. -/
theorem within_openSubannotationScope (hl : r.places l.position) (name descriptor : Text) :
    (openSubannotationScope l name descriptor).Within r (Frame.Within r) := by
  refine (Passage.within_ofLine hl (l.faultsAt_parseType _)).bind fun type _ => ?_
  refine (within_check hl _ _).bind fun _ _ => ?_
  exact (within_enterLine (r.calls_of_isHeader _ rfl)).bind fun _ _ => hl

/-- An element whose value is complete. -/
theorem within_tellElement {place : Position} (hplace : r.places place) (name text : Text)
    {comment : Option Call} (hcomment : ∀ call ∈ comment, r.calls call) {remarks : List Call}
    (hremarks : ∀ call ∈ remarks, r.calls call) :
    (tellElement place name text comment remarks).Within r fun _ => True := by
  refine (Passage.within_ofExcept fun fault hfault =>
    r.faults_of_isAt fault place (faultsAt_decodeAt place text fault hfault) hplace).bind
      fun value _ => ?_
  refine (within_checkValue hplace value).bind fun _ _ => ?_
  refine (Passage.within_tell (r.calls_of_isHeader _ rfl)).bind fun _ _ => ?_
  refine (Passage.within_remark hcomment).bind fun _ _ => ?_
  exact Passage.within_forM fun call hcall =>
    Passage.within_remark fun _ heq => Option.some.inj heq ▸ hremarks call hcall

/-- A line as an annotation element. -/
theorem within_elementLine (hl : r.places l.position) :
    (elementLine l).Within r fun frame => ∀ f ∈ frame, f.Within r := by
  unfold elementLine
  dsimp only
  split
  · exact faults_grammar hl _
  · split
    · exact faults_grammar hl _
    · split
      · refine (within_openSubannotationScope hl _ _).bind fun f hf => ?_
        exact fun _ heq => Option.some.inj heq ▸ hf
      · split
        · exact fun _ heq => Option.some.inj heq ▸ ⟨hl, nofun⟩
        · refine (within_tellElement hl _ _ (calls_eolCall? r l) ?_).bind fun _ _ => ?_
          · exact nofun
          · exact nofun

/-- The frame that a line opens, if it opens one. -/
theorem within_opened {frame : Option (Option Frame)}
    (h : ∀ opened ∈ frame, ∀ f ∈ opened, f.Within r) {outer : List Frame}
    (houter : ∀ f ∈ outer, f.Within r) : ∀ f ∈ frame.join.toList ++ outer, f.Within r := by
  refine List.forall_mem_append.mpr ⟨fun f hf => ?_, houter⟩
  exact h (some f) (Option.join_eq_some_iff.mp (Option.mem_toList.mp hf)) f rfl

/-- A line in an annotation. -/
theorem within_takeInAnnotationBody (hl : r.places l.position) {opened : Position}
    (hopened : r.places opened) (name : Text) {outer : List Frame}
    (houter : ∀ f ∈ outer, f.Within r) :
    (takeInAnnotationBody opened name l outer).Within r fun left => ∀ f ∈ left, f.Within r := by
  have hframes : ∀ f ∈ .annotationBody opened name :: outer, f.Within r :=
    List.forall_mem_cons.mpr ⟨hopened, houter⟩
  unfold takeInAnnotationBody
  dsimp only
  split
  · refine within_orRaise hopened houter ?_
    exact (Passage.within_remark fun _ heq => Option.some.inj heq ▸
      r.calls_of_isHeader _ rfl).bind fun _ _ => hframes
  · refine (within_attempt hl (within_elementLine hl)).bind fun frame hframe => ?_
    exact within_opened hframe hframes
  · split
    · exact within_closeBy l hopened true houter
    · exact (within_excuse (faults_grammar hl _)).bind fun _ _ => hframes

/-- A line in an array. -/
theorem within_takeInArray {g : Gathering} (hg : Frame.Within r (.array g)) (l : Line)
    {outer : List Frame} (houter : ∀ f ∈ outer, f.Within r) :
    (takeInArray g l outer).Within r fun left => ∀ f ∈ left, f.Within r := by
  have hadd : Frame.Within r (.array (g.add l)) := by
    unfold Gathering.add
    split
    · exact ⟨hg.1, List.forall_mem_cons.mpr ⟨r.calls_of_isHeader _ rfl, hg.2⟩⟩
    · refine ⟨hg.1, List.forall_mem_append.mpr ⟨fun call hcall => ?_, hg.2⟩⟩
      exact calls_eolCall? r l call (Option.mem_toList.mp hcall)
  unfold takeInArray
  dsimp only
  split
  · refine (within_attempt hg.1 (within_tellElement hg.1 _ _ ?_ ?_)).bind fun _ _ => houter
    · intro call hcall
      obtain ⟨text, -, rfl⟩ := Option.map_eq_some_iff.mp hcall
      exact r.calls_of_isHeader _ rfl
    · exact fun call hcall => hadd.2 call (List.mem_reverse.mp hcall)
  · exact List.forall_mem_cons.mpr ⟨hadd, houter⟩

/-- A line in a field. -/
theorem within_takeInField {f : OpenField} (hf : r.places f.opened) (hl : r.places l.position)
    {outer : List Frame} (houter : ∀ f ∈ outer, f.Within r) :
    (takeInField f l outer).Within r fun left => ∀ f ∈ left, f.Within r := by
  have hheld : Passage.Within r (fun _ => True)
      (f.held.reverse.forM fun text => Passage.remark (some (.comment text))) :=
    Passage.within_forM fun text _ => Passage.within_remark fun _ heq =>
      Option.some.inj heq ▸ r.calls_of_isHeader _ rfl
  unfold takeInField
  split
  · exact List.forall_mem_cons.mpr ⟨hf, houter⟩
  · refine Within.bind hheld fun told htold => ?_
    cases told with
    | error fault =>
      exact (Dialogue.within_perform (a := .leave) trivial).bind fun _ _ =>
        within_raise htold hf houter
    | ok _ =>
      dsimp only
      split
      · exact within_closeBy l hf f.heard houter
      · refine within_orRaise hf houter ?_
        refine (within_openAnnotationScope hl).bind fun frame hframe => ?_
        exact List.forall_mem_cons.mpr ⟨hframe, List.forall_mem_cons.mpr ⟨hf, houter⟩⟩

/-- A line with code. -/
theorem within_codeLine (hl : r.places l.position) (m : OpenMethod) :
    (codeLine m l).Within r fun _ => True := by
  refine (within_check hl _ _).bind fun _ _ => ?_
  split <;> exact within_tellLine (r.calls_of_isHeader _ rfl)

/-- A closing line in a method. -/
theorem within_closingLine (hl : r.places l.position) (m : OpenMethod) :
    (closingLine m l).Within r fun _ => True := by
  unfold closingLine
  split
  · split
    · exact within_tellLine (r.calls_of_isHeader _ rfl)
    · exact faults_grammar hl _
  · split
    · exact (Passage.within_ofLine hl (l.faultsAt_register _)).bind fun _ _ =>
        within_tellLine (r.calls_of_isHeader _ rfl)
    · split
      · exact faults_grammar hl _
      · exact within_codeLine hl m

/-- A line with a handler for exceptions of one type. -/
theorem within_catchingLine (hl : r.places l.position) (m : OpenMethod) :
    (catchingLine m l).Within r fun _ => True := by
  refine (within_check hl _ _).bind fun _ _ => ?_
  refine (Passage.within_ofLine hl l.faultsAt_handler).bind fun h _ => ?_
  refine (Passage.within_ofLine hl (l.faultsAt_parseType _)).bind fun exception _ => ?_
  refine (within_check hl _ _).bind fun _ _ => ?_
  exact within_tellLine (r.calls_of_isHeader _ rfl)

/-- A line with a handler for all exceptions. -/
theorem within_catchAllLine (hl : r.places l.position) (m : OpenMethod) :
    (catchAllLine m l).Within r fun _ => True := by
  refine (within_check hl _ _).bind fun _ _ => ?_
  refine (Passage.within_ofLine hl l.faultsAt_handler).bind fun h _ => ?_
  split
  · exact within_tellLine (r.calls_of_isHeader _ rfl)
  · exact faults_grammar hl _

/-- A line with a directive in a method. -/
theorem within_directiveLine (hl : r.places l.position) (m : OpenMethod) (d : Directive) :
    (directiveLine m l d).Within r fun _ => True := by
  have htell : ∀ {α : Type} {result : Except Fault α} (call : α → Call),
      FaultsAt l.position result → (∀ a, (call a).isHeader = false) →
        Passage.Within r (fun _ => True) (do
          Passage.tellLine l (call (← Passage.ofExcept result))) :=
    fun call hresult hcall => (Passage.within_ofLine hl hresult).bind fun a _ =>
      within_tellLine (r.calls_of_isHeader (call a) (hcall a))
  unfold directiveLine
  split
  · exact (within_check hl _ _).bind fun _ _ => htell .registers l.faultsAt_count fun _ => rfl
  · exact (within_check hl _ _).bind fun _ _ => htell .locals l.faultsAt_count fun _ => rfl
  · exact htell .line l.faultsAt_count fun _ => rfl
  · exact htell (fun a => .param a.1 a.2) l.faultsAt_param fun _ => rfl
  · exact within_catchingLine hl m
  · exact within_catchAllLine hl m
  · exact htell (fun v => .localVariable v.register v.name v.type v.signature)
      l.faultsAt_localVariable fun _ => rfl
  · exact htell .restartLocal (l.faultsAt_register _) fun _ => rfl
  · exact within_tellLine (r.calls_of_isHeader _ rfl)
  · exact within_tellLine (r.calls_of_isHeader _ rfl)
  · exact within_codeLine hl m
  · exact faults_grammar hl _

/-- A line of the body of a method. -/
theorem within_bodyLine (hl : r.places l.position) (m : OpenMethod) :
    (bodyLine m l).Within r fun frame => ∀ f ∈ frame, f.Within r := by
  unfold bodyLine
  split
  · exact (within_codeLine hl m).bind fun _ _ => nofun
  · exact (within_openAnnotationScope hl).bind fun f hf => fun _ heq => Option.some.inj heq ▸ hf
  · exact (within_closingLine hl m).bind fun _ _ => nofun
  · exact (within_directiveLine hl m _).bind fun _ _ => nofun

/-- A line in a method. -/
theorem within_takeInMethod {m : OpenMethod} (hm : r.places m.opened) (hl : r.places l.position)
    {outer : List Frame} (houter : ∀ f ∈ outer, f.Within r) :
    (takeInMethod m l outer).Within r fun left => ∀ f ∈ left, f.Within r := by
  unfold takeInMethod
  split
  · refine within_orRaise hm houter ((Passage.within_remark fun _ heq => Option.some.inj heq ▸
      r.calls_of_isHeader _ rfl).bind fun _ _ => ?_)
    exact List.forall_mem_cons.mpr ⟨hm, houter⟩
  · split
    · exact within_closeBy l hm true houter
    · refine (within_attempt hl (within_bodyLine hl m)).bind fun frame hframe => ?_
      refine within_opened hframe (List.forall_mem_cons.mpr ⟨?_, houter⟩)
      exact (congrArg r.places (m.after_opened l)).mpr hm

end Frames

/-! ## Classes -/

section Classes

variable {r : Remit} {l : Line}

/-- A line of the class header. -/
theorem within_headerLine (hl : r.places l.position) (hcalls : ∀ call, r.calls call)
    (d : Directive) : (headerLine l d).Within r fun _ => True := by
  unfold headerLine
  split
  · refine (Passage.within_ofLine hl l.faultsAt_classHeader).bind fun _ _ => ?_
    exact (within_check hl _ _).bind fun _ _ => within_tellLine (hcalls _)
  · refine (Passage.within_ofLine hl l.faultsAt_singleType).bind fun _ _ => ?_
    exact (within_check hl _ _).bind fun _ _ => within_tellLine (hcalls _)
  · refine (Passage.within_ofLine hl l.faultsAt_singleType).bind fun _ _ => ?_
    exact (within_check hl _ _).bind fun _ _ => within_tellLine (hcalls _)
  · exact (Passage.within_ofLine hl l.faultsAt_sourceName).bind fun _ _ =>
      within_tellLine (hcalls _)

/-- What the line of a field tells. -/
theorem within_fieldHeader (hl : r.places l.position) (declared : List Member) :
    (fieldHeader declared l).Within r fun _ => True := by
  refine (Passage.within_ofLine hl l.faultsAt_field).bind fun f _ => ?_
  have hrest : Passage.Within r (fun _ => True) (do
      Passage.check l (!declared.contains (.field f.name)) ("duplicate field " ++ f.name)
      return f) :=
    (within_check hl _ _).bind fun _ _ => trivial
  dsimp only
  split
  · exact hrest
  · refine (within_check hl _ _).bind fun _ _ => ?_
    exact (within_checkValue hl _).bind fun _ _ => hrest

/-- What the line of a method tells. -/
theorem within_methodHeader (hl : r.places l.position) (declared : List Member) :
    (methodHeader declared l).Within r fun _ => True := by
  refine (Passage.within_ofLine hl l.faultsAt_method).bind fun m _ => ?_
  refine (within_check hl _ _).bind fun _ _ => ?_
  refine (within_check hl _ _).bind fun _ _ => ?_
  exact (within_check hl _ _).bind fun _ _ => trivial

/-- A reader whose frames are within a remit. Where the class header can still go on, its
calls are. -/
structure Control.Within (r : Remit) (c : Control) : Prop where
  /-- Either no call of the header can come, or all are covered. -/
  header : c.stage = .body ∨ ∀ call, r.calls call
  /-- The frames were opened at places of the remit. -/
  frames : ∀ f ∈ c.frames, f.Within r

/-- The field of a line is gone into. -/
theorem within_openField {c : Control} (hc : c.Within r) (hl : r.places l.position) :
    (c.openField l).Within r (Control.Within r) := by
  refine Within.bind (within_fieldHeader hl c.declared) fun result hresult => ?_
  cases result with
  | error fault =>
    refine (within_excuse hresult).bind fun _ _ => ?_
    refine (Dialogue.within_perform (a := .hush) trivial).bind fun _ _ => ?_
    exact ⟨hc.header, List.forall_mem_singleton.mpr hl⟩
  | ok f =>
    refine (within_attempt hl (within_enterLine (r.calls_of_isHeader _ rfl))).bind
      fun opened _ => ⟨hc.header, ?_⟩
    cases opened with
    | none => exact nofun
    | some _ => exact List.forall_mem_singleton.mpr hl

/-- The method of a line is gone into, or skipped. -/
theorem within_openMethod {c : Control} (hc : c.Within r) (hl : r.places l.position) :
    (c.openMethod l).Within r (Control.Within r) := by
  refine Within.bind (within_methodHeader hl c.declared) fun result hresult => ?_
  cases result with
  | error fault =>
    refine (within_excuse hresult).bind fun _ _ => ?_
    exact ⟨hc.header, List.forall_mem_singleton.mpr trivial⟩
  | ok m =>
    refine (within_attempt hl (within_enterLine (r.calls_of_isHeader _ rfl))).bind
      fun opened _ => ⟨hc.header, ?_⟩
    cases opened with
    | none => exact nofun
    | some _ => exact List.forall_mem_singleton.mpr hl

/-- The header does not go on among the members. -/
theorem Stage.ne_body_of_next? {stage : Stage} {d : Directive} (h : stage.next? d = some .header) :
    stage ≠ .body := by
  rintro rfl
  cases d <;> simp [Stage.next?] at h

/-- A line that opens a member of the class, or an annotation. -/
theorem within_classDirective {c : Control} (hframes : ∀ f ∈ c.frames, f.Within r)
    (hl : r.places l.position) (d : Directive) {next : Stage} (hnext : next ≠ .header) :
    (c.classDirective l d next).Within r (Control.Within r) := by
  have hbody : Control.Within r { c with stage := .body } := ⟨.inl rfl, hframes⟩
  unfold Control.classDirective
  split
  · exact absurd rfl hnext
  · exact within_openField hbody hl
  · exact within_openMethod hbody hl
  · refine (within_attempt hl (within_openAnnotationScope hl)).bind fun frame hframe => ?_
    exact ⟨.inl rfl, fun f hf => hframe f (Option.mem_toList.mp hf)⟩

/-- A line at the level of the class. -/
theorem within_classLine {c : Control} (hc : c.Within r) (hl : r.places l.position) :
    (c.classLine l).Within r (Control.Within r) := by
  have hexcuse : ∀ details, Within r (Control.Within r) (do
      Dialogue.excuse (l.grammar details)
      return c) :=
    fun details => (within_excuse (faults_grammar hl details)).bind fun _ _ => hc
  unfold Control.classLine
  split
  · exact (within_remarkClass r _).bind fun _ _ => hc
  · exact hexcuse _
  · exact hexcuse _
  · split
    · next next hnext =>
      by_cases hheader : next = .header
      · subst hheader
        have hcalls := hc.header.resolve_left (Stage.ne_body_of_next? hnext)
        exact (within_attempt hl (within_headerLine hl hcalls _)).bind fun _ _ =>
          ⟨.inr hcalls, hc.frames⟩
      · exact within_classDirective hc.frames hl _ hheader
    · exact hexcuse _

/-- A line in the innermost of some frames. -/
theorem within_takeInner {c : Control} (hc : c.Within r) (hl : r.places l.position)
    {frames : List Frame} (hframes : ∀ f ∈ frames, f.Within r) :
    (c.takeInner l frames).Within r (Control.Within r) := by
  have hnext : ∀ {d : Dialogue (List Frame)}, d.Within r (fun left => ∀ f ∈ left, f.Within r) →
      Within r (Control.Within r) (do return { c with frames := ← d }) :=
    fun hd => hd.bind fun _ hleft => ⟨hc.header, hleft⟩
  cases frames with
  | nil => exact within_classLine ⟨hc.header, nofun⟩ hl
  | cons f outer =>
    obtain ⟨hf, houter⟩ := List.forall_mem_cons.mp hframes
    cases f with
    | field f => exact hnext (within_takeInField hf hl houter)
    | method m => exact hnext (within_takeInMethod hf hl houter)
    | annotationBody opened name => exact hnext (within_takeInAnnotationBody hl hf name houter)
    | array g => exact hnext (within_takeInArray hf l houter)
    | skipping name =>
      refine ⟨hc.header, ?_⟩
      dsimp only
      split
      · exact houter
      · exact hframes

/-- Every line keeps to a remit that has its place. -/
theorem within_take {c : Control} (hc : c.Within r) (hl : r.places l.position) :
    (c.take l).Within r (Control.Within r) := by
  refine (within_unwind ?_ _ hc.frames (Arrival.within_nothing r)).bind fun left hleft =>
    within_takeInner hc hl hleft
  exact fun _ heq => Option.some.inj heq ▸ hl

/-- The end of a source. -/
theorem within_finish {c : Control} (hframes : ∀ f ∈ c.frames, f.Within r)
    (hclass : r.faults (.plain .grammar "missing .class directive".toList)) :
    c.finish.Within r fun _ => True := by
  refine (within_unwind ?_ _ hframes (Arrival.within_nothing r)).bind fun _ _ => ?_
  · exact fun l hl => absurd hl (Option.not_mem_none l)
  · dsimp only
    split
    · refine (within_excuse hclass).bind fun _ _ => ?_
      exact within_tell_strict (r.calls_of_isHeader _ rfl) trivial fun _ => rfl
    · exact within_tell_strict (r.calls_of_isHeader _ rfl) trivial fun _ => rfl

/-- Any lines are read within a remit that has their places and the faults of the scanner. -/
theorem within_readLines (hclass : r.faults (.plain .grammar "missing .class directive".toList))
    {lines : List (Except Fault Line)} (hlines : ∀ l, .ok l ∈ lines → r.places l.position)
    (hfaults : ∀ fault, .error fault ∈ lines → r.faults fault) {c : Control} (hc : c.Within r) :
    (c.readLines lines).Within r fun _ => True := by
  induction lines generalizing c with
  | nil => exact within_finish hc.frames hclass
  | cons line lines ih =>
    have hmore := fun {c : Control} => @ih (fun l hl => hlines l (List.mem_cons_of_mem _ hl))
      (fun fault hfault => hfaults fault (List.mem_cons_of_mem _ hfault)) c
    cases line with
    | error fault =>
      exact (within_excuse (hfaults fault List.mem_cons_self)).bind fun _ _ => hmore hc
    | ok l => exact (within_take hc (hlines l List.mem_cons_self)).bind fun _ hc => hmore hc

/-- A whole source. -/
theorem dialogue_within (r : Remit) (hcalls : ∀ call, r.calls call)
    (hclass : r.faults (.plain .grammar "missing .class directive".toList)) (o : Options)
    {source : Text} (hlines : ∀ l, .ok l ∈ scanLines source → r.places l.position)
    (hfaults : ∀ fault, .error fault ∈ scanLines source → r.faults fault) :
    (dialogue o source).Within r fun _ => True :=
  within_readLines hclass hlines hfaults (c := .initial o) ⟨.inr hcalls, nofun⟩

end Classes

end Smali
