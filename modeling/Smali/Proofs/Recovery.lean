import Smali.Proofs.ReaderRemit
import Smali.Proofs.ScopeProtocol

/-!
# Recovery

A lenient reader skips over every fault that noisy input can cause. The faults of the scanner
are lexical, and those that a reader finds itself stand within a remit; so in front of a
listener that never fails only a literal that cannot be read ends the reading, or a semantic
check that fails. At the end of any other source the class has been told of its end.
-/

namespace Smali

/-- A word that is no token of any kind. -/
theorem kind_of_classify {word : Text} {position : Position} {fault : Fault}
    (h : classify word position = .error fault) : fault.kind = .lexical := by
  unfold classify at h
  split at h
  · exact absurd h (by simp)
  split at h
  · exact absurd h (by simp)
  split at h
  · exact absurd h (by simp)
  split at h
  · exact Except.error.inj h ▸ rfl
  split at h <;> exact absurd h (by simp)

/-- A change of what is found changes no fault. -/
theorem eq_error_of_map {α β : Type} {result : Except Fault α} {f : α → β} {fault : Fault}
    (h : result.map f = .error fault) : result = .error fault := by
  cases result with
  | ok a => exact absurd h (by simp [Except.map])
  | error other => exact congrArg Except.error (Except.error.inj h)

/-- The scanner finds nothing but lexical faults. -/
theorem kind_of_scan {number column : Nat} {t : Text} {fault : Fault}
    (h : scan number column t = .error fault) : fault.kind = .lexical := by
  fun_induction scan number column t with
  | case1 => exact absurd h (by simp)
  | case2 _ c rest _ ih => exact ih (eq_error_of_map h)
  | case3 => exact absurd h (by simp)
  | case4 _ c rest position _ _ _ body after _ _ _ _ ih => exact ih (eq_error_of_map h)
  | case5 => exact Except.error.inj h ▸ rfl
  | case6 _ c rest position _ _ _ _ ih => exact ih (eq_error_of_map h)
  | case7 _ c rest position _ _ _ _ word _ kind _ ih => exact ih (eq_error_of_map h)
  | case8 _ c rest position _ _ _ _ word _ fault' hfault =>
    exact Except.error.inj h ▸ kind_of_classify hfault

/-- The lines of a source that cannot be scanned have lexical faults. -/
theorem kind_of_scanLines {source : Text} {fault : Fault} (h : .error fault ∈ scanLines source) :
    fault.kind = .lexical := by
  obtain ⟨⟨number, t⟩, -, hline⟩ := List.mem_map.mp h
  exact kind_of_scan (eq_error_of_map hline)

/-! ## Rehearsals within a remit -/

namespace Dialogue.Within

variable {α : Type} {r : Remit} {Q : α → Prop} {d : Dialogue α} {o : Options}

/-- A fault that ends a rehearsal ends a scope that hears of nothing else, or is a check that failed
at a place of the remit, or is one of the remit that cannot be skipped over. -/
theorem rehearse_placed (h : d.Within r Q) {fault : Fault}
    (hresult : (d.rehearse o).result = .error fault) :
    r.received fault ∨
      (o.validate = true ∧ fault.kind = .validation ∧ ∃ place ∈ fault.position, r.places place) ∨
      (r.faults fault ∧ ¬(o.errors = .ignore ∧ fault.kind.isRecoverable = true)) := by
  induction d with
  | done a => exact absurd hresult (by simp [rehearse])
  | halt fault' => exact .inl (Except.error.inj hresult ▸ h)
  | act first next ih =>
    unfold rehearse at hresult
    cases hstop : first.stop? o with
    | none =>
      rw [hstop] at hresult
      exact ih none (h.2 none (by simp)) hresult
    | some stop =>
      rw [hstop] at hresult
      obtain rfl := Except.error.inj hresult
      have hfirst := h.1
      cases first with
      | excuse fault' =>
        simp only [Act.stop?] at hstop
        split at hstop
        · exact absurd hstop (by simp)
        · next hkind =>
          obtain rfl := Option.some.inj hstop
          exact .inr (.inr ⟨hfirst, hkind⟩)
      | require holds fault' =>
        simp only [Act.stop?] at hstop
        split at hstop
        · next hfails =>
          obtain rfl := Option.some.inj hstop
          exact .inr (.inl ⟨(Bool.and_eq_true_iff.mp hfails).1, hfirst⟩)
        · exact absurd hstop (by simp)
      | _ => exact absurd hstop (by simp [Act.stop?])

/-- A fault that ends a rehearsal ends a scope that hears of nothing else, or is a failed
check, or one of the remit that cannot be skipped over. -/
theorem rehearse_result (h : d.Within r Q) {fault : Fault}
    (hresult : (d.rehearse o).result = .error fault) :
    r.received fault ∨ (o.validate = true ∧ fault.kind = .validation) ∨
      (r.faults fault ∧ ¬(o.errors = .ignore ∧ fault.kind.isRecoverable = true)) :=
  (h.rehearse_placed hresult).imp_right (.imp_left fun hchecked => ⟨hchecked.1, hchecked.2.1⟩)

/-- What a rehearsal skips over is of the remit, and can be skipped over. -/
theorem rehearse_skipped (h : d.Within r Q) :
    ∀ fault ∈ (d.rehearse o).skipped,
      r.faults fault ∧ o.errors = .ignore ∧ fault.kind.isRecoverable = true := by
  induction d with
  | done a => exact List.forall_mem_nil _
  | halt fault => exact List.forall_mem_nil _
  | act first next ih =>
    unfold rehearse
    cases hstop : first.stop? o with
    | some stop => exact List.forall_mem_nil _
    | none =>
      refine List.forall_mem_append.mpr ⟨?_, ih none (h.2 none (by simp))⟩
      have hfirst := h.1
      cases first with
      | excuse fault =>
        simp only [Act.stop?] at hstop
        split at hstop
        · next hkind => exact List.forall_mem_singleton.mpr ⟨hfirst, hkind⟩
        · exact absurd hstop (by simp)
      | _ => exact List.forall_mem_nil _

end Dialogue.Within

/-- The faults of noisy input, together with those of literals. -/
def Fault.IsOfSource (fault : Fault) : Prop :=
  fault.kind.isRecoverable = true ∨ fault.kind = .literal

/-- The remit of a reader whose calls are all received well. -/
def Remit.ofSource : Remit where
  calls _ := True
  places _ := True
  received _ := False
  faults := Fault.IsOfSource
  calls_of_isHeader _ _ := trivial
  faults_of_isAt fault _ h _ := by
    obtain h | h | h | h := h.kind
    · exact .inl (h ▸ rfl)
    · exact .inl (h ▸ rfl)
    · exact .inl (h ▸ rfl)
    · exact .inr h
  faults_of_received _ h := h.elim
  faults_attach _ _ h _ := h

/-- Every source is read within that remit. -/
theorem dialogue_within_ofSource (o : Options) (source : Text) :
    (dialogue o source).Within .ofSource fun _ => True :=
  dialogue_within .ofSource (fun _ => trivial) (.inl rfl) o (fun _ _ => trivial)
    fun _ h => .inl (kind_of_scanLines h ▸ rfl)

/-! ## The end of the class -/

section

variable {σ κ : Type} {L : Listener σ κ}

/-- The last call of a reading that comes to its end tells the class of it. -/
theorem callsOf_finish (hL : L.NeverFails) {o : Options} {root : κ} {state : σ} {source : Text}
    (h : (read o L root state source).1 = .ok ()) :
    ∃ calls, callsOf o L root state source = calls ++ [⟨0, .finish, none⟩] := by
  have hends := dialogue_endsClass o source
  unfold Dialogue.EndsClass at hends
  rw [read_result o root state source hL] at h
  rw [h] at hends
  obtain ⟨moves, heq, hmoves⟩ := hends
  have hstart : (Desk.initial (0, root) (state, ([] : List Heard))).ToldAt 0 := ⟨.start, rfl⟩
  refine ⟨((Desk.initial (0, root) (state, [])).makeAll L.traced moves).state.2, ?_⟩
  rw [callsOf_eq o root state source hL, heq, Desk.makeAll_append]
  exact (hstart.makeAll hL hmoves).finish.1

/-- What becomes of a source that is read without regard to noise. -/
structure Recovers (o : Options) (result : Except Fault Unit) (calls : List Heard)
    (diagnostics : List Fault) : Prop where
  /-- A fault that ends the reading is a literal that cannot be read, or a failed check. -/
  ends : ∀ fault, result = .error fault →
    fault.kind = .literal ∨ (o.validate = true ∧ fault.kind = .validation)
  /-- The faults that are noted are those of noisy input. -/
  noted : ∀ fault ∈ diagnostics, fault.kind = .lexical ∨ fault.kind = .grammar ∨
    fault.kind = .unterminated ∨ fault.kind = .descriptor
  /-- At the end of the source the class is told of its end. -/
  closed : result = .ok () → ∃ heard ∈ calls, heard.who = 0 ∧ heard.call = .finish

/-- Only a kind of noisy input can be skipped over. -/
theorem FaultKind.noisy_of_isRecoverable {kind : FaultKind} (h : kind.isRecoverable = true) :
    kind = .lexical ∨ kind = .grammar ∨ kind = .unterminated ∨ kind = .descriptor := by
  cases kind <;> simp_all [FaultKind.isRecoverable]

/-- No fault that could be skipped over ends a lenient reading, whatever the source is and
whatever a listener declines, as long as it never fails. -/
theorem recovers_of_ignore (hL : L.NeverFails) {o : Options} (ho : o.errors = .ignore)
    (root : κ) (state : σ) (source : Text) :
    Recovers o (read o L root state source).1 (callsOf o L root state source)
      (read o L root state source).2.diagnostics := by
  have hwithin := dialogue_within_ofSource o source
  constructor
  case ends =>
    intro fault hfault
    rw [read_result o root state source hL] at hfault
    obtain hreceived | hchecked | ⟨hsource, hkind⟩ := hwithin.rehearse_result hfault
    · exact hreceived.elim
    · exact .inr hchecked
    · exact .inl (hsource.resolve_left fun hrecoverable => hkind ⟨ho, hrecoverable⟩)
  case noted =>
    intro fault hfault
    rw [read_diagnostics o root state source hL] at hfault
    exact FaultKind.noisy_of_isRecoverable (hwithin.rehearse_skipped fault hfault).2.2
  case closed =>
    intro hresult
    obtain ⟨calls, hcalls⟩ := callsOf_finish hL hresult
    exact ⟨⟨0, .finish, none⟩, hcalls ▸ List.mem_append_right _ (List.mem_singleton_self _), rfl,
      rfl⟩

/-- A class without a type, an open quote, a stray closing line and a method without an end:
each is noted, and a recorder hears of the end of the class. -/
theorem recovers_of_ignore_noisy :
    let o : Options := ⟨true, false, true, .ignore⟩
    let source := ".class\n.source \"a\n.end field\n.method m()V\nnop".toList
    let reading := read o (Recorder.listener .obliging) (Recorder.root .ofClass) .initial source
    reading.1 = .ok () ∧ reading.2.diagnostics.length = 4 ∧
      Recovers o reading.1
        (callsOf o (Recorder.listener .obliging) (Recorder.root .ofClass) .initial source)
        reading.2.diagnostics :=
  ⟨by decide +kernel, by decide +kernel,
    recovers_of_ignore (Recorder.listener_neverFails rfl) rfl _ _ _⟩

end

end Smali
