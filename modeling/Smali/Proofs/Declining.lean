import Smali.Proofs.Company
import Smali.Proofs.ReaderFooting

/-!
# Declined scopes

The reader goes through a scope in the same way whether or not someone listens in it. So a
listener that declines some scopes hears the calls of one that does not, without those that were
made in these scopes.
-/

namespace Smali

/-! ## Listeners that decline -/

namespace Listener

variable {σ κ : Type}

/-- A listener that behaves like another one, except that it opens no scope for some calls. -/
def declining (L : Listener σ κ) (declines : Call → Bool) : Listener σ κ where
  hear handle call state :=
    let r := L.hear handle call state
    { r with outcome := if declines call = true then r.outcome.map fun _ => none else r.outcome }

/-- A listener whose replies depend on the scope and on the call, but not on what was told in
other scopes. -/
structure IsScoped (L : Listener σ κ) : Prop where
  /-- The scopes that it opens. -/
  outcome : ∀ handle call state state',
    (L.hear handle call state).outcome = (L.hear handle call state').outcome
  /-- How it goes on in the scope of the call. -/
  self : ∀ handle call state state',
    (L.hear handle call state).self = (L.hear handle call state').self

/-- To decline is not to fail. -/
theorem NeverFails.declining {L : Listener σ κ} (hL : L.NeverFails) (declines : Call → Bool) :
    (L.declining declines).NeverFails := by
  intro handle call state
  obtain ⟨opened, h⟩ := hL handle call state
  unfold Listener.declining
  dsimp only
  split
  · exact ⟨none, by rw [h]; rfl⟩
  · exact ⟨opened, h⟩

end Listener

/-- Listeners that have the same handles. Their states need not have anything in common. -/
def Company.sameHandles (σ κ : Type) : Company σ κ σ κ := ⟨fun _ _ => True, Eq, fun _ => True⟩

/-- A listener with replies that depend on the scope keeps company with the one that declines. -/
theorem Listener.IsScoped.holds {σ κ : Type} {L : Listener σ κ} (hL : L.IsScoped)
    (declines : Call → Bool) :
    (Company.sameHandles σ κ).Holds declines false L (L.declining declines) where
  together := by
    rintro handle _ state state' call - rfl -
    refine ⟨trivial, hL.self handle call state state', fun _ opened opened' h h' => ?_⟩
    unfold Listener.declining at h'
    rw [hL.outcome handle call state state'] at h
    dsimp only at h'
    split at h' <;> rw [h] at h'
    next hd =>
      obtain rfl : none = opened' := Except.ok.inj h'
      rw [if_pos hd]
      exact ⟨rfl, fun _ _ => trivial⟩
    next hd =>
      obtain rfl : opened = opened' := Except.ok.inj h'
      rw [if_neg hd]
      exact Company.rel_eq opened
  comment _ hdeaf := absurd hdeaf Bool.false_ne_true
  alone _ _ _ := ⟨trivial, trivial, fun _ _ _ _ _ => trivial⟩

/-- A recorder that is to raise no fault decides by the call alone. -/
theorem Recorder.listener_isScoped {script : Recorder.Script} (h : script.failure = none) :
    (Recorder.listener script).IsScoped where
  outcome _ _ _ _ := by simp only [Recorder.listener, Recorder.hear, Recorder.Script.fault?, h]
  self _ _ _ _ := rfl

/-! ## Readings -/

/-- A listener that declines some scopes, and is otherwise like another one, leads to the same
result and the same diagnostics. What it hears are the calls of the other one without those that
were made in the scopes that it declined and in all scopes in these. -/
theorem declining_is_projection {σ κ σ' κ' : Type} {C : Company σ κ σ' κ'}
    {declines : Call → Bool} {V : Listener σ κ} {W : Listener σ' κ'}
    (hC : C.Holds declines false V W) (hV : V.NeverFails) (hW : W.NeverFails) {root : κ}
    {root' : κ'} (hroot : C.handles root root') {state : σ} {state' : σ'}
    (hstate : C.states state state') (o : Options) (source : Text) :
    (read o W root' state' source).1 = (read o V root state source).1 ∧
      (read o W root' state' source).2.diagnostics =
        (read o V root state source).2.diagnostics ∧
      SameCalls (callsOf o W root' state' source)
        (withoutDeclined declines [] (callsOf o V root state source)) := by
  have hfits := (dialogue_heeds o source).fits_of_mem o
  obtain ⟨f, hf, hcalls⟩ := hC.renumbering hV hW hroot hstate hfits
  refine ⟨?_, ?_, ?_⟩
  · rw [read_result o _ _ _ hW, read_result o _ _ _ hV]
  · rw [read_diagnostics o _ _ _ hW, read_diagnostics o _ _ _ hV]
  · simp only [heeded, Bool.false_and, Bool.not_false, List.filter_true] at hcalls
    rw [callsOf_eq o _ _ _ hW, callsOf_eq o _ _ _ hV, ← hcalls]
    exact sameCalls_map _ hf

/-- Whether a call opens an annotation of the class `Lb;`. -/
def startsAnnotation (call : Call) : Bool :=
  match call with
  | .annotationStart _ type => type.descriptor = "Lb;".toList
  | _ => false

/-- A class with an annotation in which there is another one, and comments behind the closing
lines. -/
def annotatedClass : Text :=
  ".class La;\n.annotation runtime Lb;\nx = .subannotation Lc;\n.end subannotation # in\n".toList ++
    ".end annotation # out\n.method m()V\n.end method # behind\n".toList

/-- A recorder that declines the annotation hears neither what stands in it nor what stands in the
annotation inside, but the class still hears the comment behind the closing line. -/
theorem declining_annotation :
    let o : Options := { Options.default with comments := true }
    let V := Recorder.listener .obliging
    let root := Recorder.root .ofClass
    (read o (V.declining startsAnnotation) root .initial annotatedClass).1 =
        (read o V root .initial annotatedClass).1 ∧
      (read o (V.declining startsAnnotation) root .initial annotatedClass).2.diagnostics =
        (read o V root .initial annotatedClass).2.diagnostics ∧
      SameCalls (callsOf o (V.declining startsAnnotation) root .initial annotatedClass)
        (withoutDeclined startsAnnotation [] (callsOf o V root .initial annotatedClass)) ∧
      (callsOf o V root .initial annotatedClass).map (fun h => (h.who, h.call.kind)) =
        [(0, .header), (0, .annotationStart), (2, .subannotationStart), (3, .finish),
          (2, .eolComment), (2, .finish), (0, .eolComment), (0, .method), (8, .finish),
          (0, .eolComment), (0, .finish)] ∧
      (callsOf o (V.declining startsAnnotation) root .initial annotatedClass).map
          (fun h => (h.who, h.call.kind)) =
        [(0, .header), (0, .annotationStart), (0, .eolComment), (0, .method), (4, .finish),
          (0, .eolComment), (0, .finish)] := by
  intro o V root
  have hV : V.NeverFails := Recorder.listener_neverFails rfl
  have hscoped : V.IsScoped := Recorder.listener_isScoped rfl
  have hroot : (Company.sameHandles Recorder.State Recorder.Handle).handles root root := rfl
  have hstate : (Company.sameHandles Recorder.State Recorder.Handle).states .initial .initial :=
    trivial
  obtain ⟨hresult, hdiagnostics, hcalls⟩ := declining_is_projection
    (hscoped.holds startsAnnotation) hV (hV.declining startsAnnotation) hroot hstate o
      annotatedClass
  exact ⟨hresult, hdiagnostics, hcalls, by decide +kernel, by decide +kernel⟩

end Smali
