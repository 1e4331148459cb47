import Smali.Output.Writer
import Smali.Proofs.CallFaults

/-!
# Writers in front of listeners

A writer in front of a listener changes nothing for the listener: the same calls are made, the
same faults come back, and the reading has the same result. What the writer writes does not
depend on the listener either, as long as this never fails. So all writers of a chain write the
same text.
-/

namespace Smali

/-! ## Faults of listeners that are alike -/

/-- The faults in some notes, in order. -/
def faultsOf {κ : Type} (notes : List (Note κ)) : List Fault := notes.filterMap Note.fault

namespace Likeness

variable {σ₁ κ₁ σ₂ κ₂ : Type}

/-- The same likeness with notes in which the same faults stand. -/
def noted (R : Likeness σ₁ κ₁ σ₂ κ₂) :
    Likeness (σ₁ × List (Note κ₁)) κ₁ (σ₂ × List (Note κ₂)) κ₂ :=
  ⟨fun s₁ s₂ => R.states s₁.1 s₂.1 ∧ faultsOf s₁.2 = faultsOf s₂.2, R.handles⟩

/-- A call in a scope with the notes of it. A scope without a handle has none. -/
theorem meet_noted {σ κ : Type} (L : Listener σ κ) (handle : Option κ) (call : Call)
    (s : σ × List (Note κ)) :
    (L.noted.meet handle call s).outcome = (L.meet handle call s.1).outcome ∧
      (L.noted.meet handle call s).self = (L.meet handle call s.1).self ∧
      (L.noted.meet handle call s).state.1 = (L.meet handle call s.1).state ∧
      faultsOf (L.noted.meet handle call s).state.2 =
        faultsOf s.2 ++ (Listener.faultOf (L.meet handle call s.1).outcome).toList := by
  cases handle with
  | none => exact ⟨rfl, rfl, rfl, (List.append_nil _).symm⟩
  | some handle =>
    refine ⟨rfl, rfl, rfl, ?_⟩
    simp only [Listener.meet, Listener.noted, faultsOf, List.filterMap_append]
    cases (L.hear handle call s.1).outcome <;> rfl

/-- Listeners that are alike fail alike. -/
theorem Holds.noted {R : Likeness σ₁ κ₁ σ₂ κ₂} {L₁ : Listener σ₁ κ₁} {L₂ : Listener σ₂ κ₂}
    (h : R.Holds L₁ L₂) : R.noted.Holds L₁.noted L₂.noted where
  hush := h.hush
  meet := by
    intro scope call h₁ h₂ s₁ s₂ hsuits hhandles hstates
    obtain ⟨houtcome, hself, hstate⟩ := h.meet hsuits hhandles hstates.1
    obtain ⟨ho₁, hh₁, hs₁, hf₁⟩ := meet_noted L₁ h₁ call s₁
    obtain ⟨ho₂, hh₂, hs₂, hf₂⟩ := meet_noted L₂ h₂ call s₂
    refine ⟨by rw [ho₁, ho₂]; exact houtcome, by rw [hh₁, hh₂]; exact hself, ?_, ?_⟩
    · rw [hs₁, hs₂]
      exact hstate
    · rw [hf₁, hf₂, hstates.2]
      split at houtcome
      · next hok₁ hok₂ => rw [hok₁, hok₂]; rfl
      · next herror₁ herror₂ => rw [herror₁, herror₂, houtcome]; rfl
      · exact houtcome.elim

end Likeness

namespace Writer

variable {σ κ : Type}

/-! ## Pens and slots -/

/-- A pen goes on writing the same sort of scope. -/
theorem Pen.scope_after (pen : Pen) (call : Call) : (pen.after call).scope = pen.scope := by
  cases pen <;> cases call <;> rfl

/-- The pen for the scope that a call opens. -/
theorem Pen.scope_opened? (pen : Pen) (call : Call) :
    (pen.opened? call).map Pen.scope = call.opens? := by
  cases call <;> rfl

/-- A slot for a scope takes a delegate for the same sort of scope. -/
theorem child_eq {scope : Scope} {delegate : Option (Delegate κ)}
    (h : ∀ d ∈ delegate, d.scope = scope) : Slot.child scope delegate = .ok ⟨scope, delegate⟩ := by
  cases delegate with
  | none => rfl
  | some d =>
    have hd : d.scope = scope := h d rfl
    simp [Slot.child, Slot.assign, Slot.vacant, hd]

/-- A class takes any delegate for a class. -/
theorem assign_root (handle : κ) :
    (root : Handle κ).slot.assign ⟨.ofClass, handle⟩ = .ok (rootFor handle).slot :=
  rfl

/-- The handle for the scope that a call opens, with the delegate's own handle for it. -/
def Pen.child? (pen : Pen) (call : Call) (opened : Option κ) : Option (Handle κ) :=
  (pen.opened? call).map fun child =>
    ⟨child, ⟨child.scope, opened.map fun handle => ⟨child.scope, handle⟩⟩⟩

/-- What comes of a call that was passed on: no slot is given a delegate of another sort. -/
theorem reply_outcome (pen : Pen) (call : Call) (sheet : Sheet) (slot : Slot κ) (state : σ)
    (opened : Option κ) :
    (reply pen call sheet
        ⟨.ok (opened.bind fun handle => call.opens?.map fun scope => ⟨scope, handle⟩), slot,
          state⟩).outcome = .ok (pen.child? call opened) := by
  have hscope := pen.scope_opened? call
  unfold reply Pen.child?
  cases hopened : pen.opened? call with
  | none => rfl
  | some child =>
    rw [hopened] at hscope
    have hopens : call.opens? = some child.scope := hscope.symm
    have hdelegate : (opened.bind fun handle => call.opens?.map fun scope =>
        (⟨scope, handle⟩ : Delegate κ)) = opened.map fun handle => ⟨child.scope, handle⟩ := by
      cases opened <;> simp [hopens]
    have hchild : Slot.child child.scope (opened.map fun handle => (⟨child.scope, handle⟩ :
        Delegate κ)) = .ok ⟨child.scope, opened.map fun handle => ⟨child.scope, handle⟩⟩ := by
      refine child_eq fun d hd => ?_
      obtain ⟨_, -, rfl⟩ := Option.map_eq_some_iff.mp hd
      rfl
    dsimp only
    rw [hdelegate, hchild]
    rfl

/-! ## What comes of a call -/

/-- The handle of the listener behind a writer. -/
def Handle.behind (h : Handle κ) : Option κ := h.slot.delegate.map Delegate.handle

/-- A handle whose pen and whose delegate are for the same sort of scope. -/
structure Handle.IsFor (scope : Scope) (h : Handle κ) : Prop where
  /-- The pen. -/
  pen : h.pen.scope = scope
  /-- The delegate. -/
  delegate : ∀ d ∈ h.slot.delegate, d.scope = scope

/-- The handle of a scope that was opened is for this scope. -/
theorem Pen.isFor_child? (pen : Pen) {call : Call} (opened : Option κ) {scope : Scope}
    (hscope : call.opens? = some scope) :
    ∃ h, pen.child? call opened = some h ∧ h.IsFor scope ∧ h.behind = opened ∧
      some h.pen = pen.opened? call := by
  have hopened := pen.scope_opened? call
  rw [hscope] at hopened
  obtain ⟨child, hchild, rfl⟩ := Option.map_eq_some_iff.mp hopened
  refine ⟨_, congrArg (Option.map _) hchild, ⟨rfl, fun d hd => ?_⟩, ?_, hchild.symm⟩
  · obtain ⟨_, -, rfl⟩ := Option.map_eq_some_iff.mp hd
    rfl
  · cases opened <;> rfl

/-- A call that suits its scope is written and passed on as it is. Its fault comes back. -/
theorem meet_eq (L : Listener σ κ) {scope : Scope} {h : Handle κ} (hfor : h.IsFor scope)
    {call : Call} (hsuits : call.suits scope = true) (s : State σ) :
    (listener L).meet (some h) call s =
      ⟨(L.meet h.behind call s.inner).outcome.map (h.pen.child? call),
        some ⟨h.pen.after call,
          ⟨h.slot.scope, (L.meet h.behind call s.inner).self.map fun handle => ⟨scope, handle⟩⟩⟩,
        ⟨h.pen.write call s.sheet, (L.meet h.behind call s.inner).state⟩⟩ := by
  obtain ⟨pen, slot, delegate⟩ := h
  obtain ⟨rfl, hdelegate⟩ := hfor
  have hhear : (listener L).meet (some ⟨pen, slot, delegate⟩) call s =
      let r := reply pen call (pen.write call s.sheet)
        (Slot.pass L ⟨slot, delegate⟩ call s.inner)
      ⟨r.outcome, some r.self, r.state⟩ := by
    simp only [Listener.meet, listener, hear, hsuits, if_true]
  rw [hhear]
  cases delegate with
  | none =>
    exact congrArg (fun outcome => (⟨outcome, some ⟨pen.after call, ⟨slot, none⟩⟩,
        ⟨pen.write call s.sheet, s.inner⟩⟩ : Meeting (State σ) (Handle κ)))
      (reply_outcome pen call _ ⟨slot, none⟩ s.inner none)
  | some d =>
    obtain ⟨scope, handle⟩ := d
    obtain rfl : scope = pen.scope := hdelegate _ rfl
    have hpass : Slot.pass L ⟨slot, some ⟨pen.scope, handle⟩⟩ call s.inner =
        ⟨(L.hear handle call s.inner).outcome.map fun opened =>
            opened.bind fun handle => call.opens?.map fun scope => ⟨scope, handle⟩,
          ⟨slot, some ⟨pen.scope, (L.hear handle call s.inner).self⟩⟩,
          (L.hear handle call s.inner).state⟩ := by
      simp only [Slot.pass, hsuits, if_true]
    rw [hpass]
    simp only [Handle.behind, Option.map_some, Listener.meet]
    cases (L.hear handle call s.inner).outcome with
    | error fault => rfl
    | ok opened =>
      exact congrArg (fun outcome => (⟨outcome, some ⟨pen.after call, ⟨slot,
          some ⟨pen.scope, (L.hear handle call s.inner).self⟩⟩⟩,
          ⟨pen.write call s.sheet, (L.hear handle call s.inner).state⟩⟩ :
          Meeting (State σ) (Handle κ)))
        (reply_outcome pen call _ ⟨slot, _⟩ _ opened)

/-- What stays for a scope behind a call. -/
theorem Handle.IsFor.after {scope : Scope} {h : Handle κ} (hfor : h.IsFor scope) (call : Call)
    (self : Option κ) :
    Handle.IsFor scope ⟨h.pen.after call,
      ⟨h.slot.scope, self.map fun handle => ⟨scope, handle⟩⟩⟩ := by
  refine ⟨(h.pen.scope_after call).trans hfor.pen, fun d hd => ?_⟩
  obtain ⟨_, -, rfl⟩ := Option.map_eq_some_iff.mp hd
  rfl

/-- A writer in front of a listener that never fails does not fail either. -/
theorem front_neverFails {L : Listener σ κ} (hL : L.NeverFails) : (listener L).NeverFails := by
  intro h call s
  obtain ⟨pen, slot, delegate⟩ := h
  simp only [listener, hear]
  split
  · unfold Slot.pass
    split
    · exact ⟨_, reply_outcome pen call _ _ _ none⟩
    · next d hd =>
      split
      · obtain ⟨opened, hopened⟩ := hL d.handle call s.inner
        refine ⟨pen.child? call opened, ?_⟩
        simp only [hopened]
        exact reply_outcome pen call _ _ _ opened
      · exact ⟨_, reply_outcome pen call _ _ _ none⟩
  · exact ⟨none, rfl⟩

/-! ## What a listener behind a writer hears -/

/-- A writer with the listener behind it. -/
def frontLikeness (σ κ : Type) : Likeness (State σ) (Handle κ) σ κ :=
  ⟨fun s₁ s₂ => s₁.inner = s₂,
    fun scope h₁ h₂ => h₁.bind Handle.behind = h₂ ∧ ∀ h ∈ h₁, h.IsFor scope⟩

/-- A writer is alike to the listener behind it. -/
theorem front_holds (L : Listener σ κ) : (frontLikeness σ κ).Holds (listener L) L where
  hush := ⟨rfl, nofun⟩
  meet := by
    intro scope call h₁ h₂ s₁ s₂ hsuits hhandles hstates
    obtain ⟨rfl, hfor⟩ := hhandles
    obtain rfl : s₁.inner = s₂ := hstates
    cases h₁ with
    | none => exact ⟨fun _ _ => ⟨rfl, nofun⟩, ⟨rfl, nofun⟩, rfl⟩
    | some h =>
      rw [meet_eq L (hfor h rfl) hsuits, Option.bind_some]
      refine ⟨?_, ⟨?_, fun h' hh' => Option.some.inj hh' ▸ (hfor h rfl).after call _⟩, rfl⟩
      · cases (L.meet h.behind call s₁.inner).outcome with
        | error fault => exact rfl
        | ok opened =>
          intro scope' hscope'
          obtain ⟨child, hchild, hchildFor, hbehind, -⟩ := h.pen.isFor_child? opened hscope'
          simp only [hchild]
          exact ⟨hbehind, fun h' hh' => Option.some.inj hh' ▸ hchildFor⟩
      · cases (L.meet h.behind call s₁.inner).self <;> rfl

/-! ## What two writers write -/

/-- Two writers, whoever is behind them. -/
def twinLikeness (σ₁ κ₁ σ₂ κ₂ : Type) :
    Likeness (State σ₁) (Handle κ₁) (State σ₂) (Handle κ₂) :=
  ⟨fun s₁ s₂ => s₁.sheet = s₂.sheet,
    fun scope h₁ h₂ => h₁.map Handle.pen = h₂.map Handle.pen ∧
      (∀ h ∈ h₁, h.IsFor scope) ∧ ∀ h ∈ h₂, h.IsFor scope⟩

/-- A listener that never fails does not fail in a scope that may have been declined. -/
theorem meet_ok {L : Listener σ κ} (hL : L.NeverFails) (handle : Option κ) (call : Call)
    (state : σ) : ∃ opened, (L.meet handle call state).outcome = .ok opened := by
  cases handle with
  | none => exact ⟨none, rfl⟩
  | some handle => exact hL handle call state

/-- Writers in front of listeners that never fail are alike. -/
theorem twin_holds {σ₁ κ₁ σ₂ κ₂ : Type} {L₁ : Listener σ₁ κ₁} {L₂ : Listener σ₂ κ₂}
    (hL₁ : L₁.NeverFails) (hL₂ : L₂.NeverFails) :
    (twinLikeness σ₁ κ₁ σ₂ κ₂).Holds (listener L₁) (listener L₂) where
  hush := ⟨rfl, nofun, nofun⟩
  meet := by
    intro scope call h₁ h₂ s₁ s₂ hsuits hhandles hstates
    obtain ⟨hpens, hfor₁, hfor₂⟩ := hhandles
    have hsheets : s₁.sheet = s₂.sheet := hstates
    match h₁, h₂, hpens with
    | none, none, _ => exact ⟨fun _ _ => ⟨rfl, nofun, nofun⟩, ⟨rfl, nofun, nofun⟩, hsheets⟩
    | some h₁, some h₂, hpens =>
      have hpen : h₁.pen = h₂.pen := Option.some.inj hpens
      obtain ⟨opened₁, hopened₁⟩ := meet_ok hL₁ h₁.behind call s₁.inner
      obtain ⟨opened₂, hopened₂⟩ := meet_ok hL₂ h₂.behind call s₂.inner
      rw [meet_eq L₁ (hfor₁ h₁ rfl) hsuits, meet_eq L₂ (hfor₂ h₂ rfl) hsuits, hopened₁, hopened₂]
      refine ⟨fun scope' hscope' => ?_, ⟨?_, fun h hh => ?_, fun h hh => ?_⟩, ?_⟩
      · obtain ⟨child₁, hchild₁, hchildFor₁, -, hwrites₁⟩ := h₁.pen.isFor_child? opened₁ hscope'
        obtain ⟨child₂, hchild₂, hchildFor₂, -, hwrites₂⟩ := h₂.pen.isFor_child? opened₂ hscope'
        rw [hchild₁, hchild₂]
        refine ⟨?_, fun h hh => Option.some.inj hh ▸ hchildFor₁,
          fun h hh => Option.some.inj hh ▸ hchildFor₂⟩
        change some child₁.pen = some child₂.pen
        rw [hwrites₁, hwrites₂, hpen]
      · exact congrArg (fun pen => some (Pen.after pen call)) hpen
      · exact Option.some.inj hh ▸ (hfor₁ h₁ rfl).after call _
      · exact Option.some.inj hh ▸ (hfor₂ h₂ rfl).after call _
      · change h₁.pen.write call s₁.sheet = h₂.pen.write call s₂.sheet
        rw [hpen, hsheets]

/-! ## Chains -/

/-- The state of a chain of writers. -/
def ChainState (σ : Type) : Nat → Type
  | 0 => σ
  | n + 1 => State (ChainState σ n)

/-- A handle of a chain of writers. -/
def ChainHandle (κ : Type) : Nat → Type
  | 0 => κ
  | n + 1 => Handle (ChainHandle κ n)

/-- Writers each of which is the delegate of the one before it, with a listener at the end. -/
def chain (L : Listener σ κ) : (n : Nat) → Listener (ChainState σ n) (ChainHandle κ n)
  | 0 => L
  | n + 1 => listener (chain L n)

/-- The handle of a chain for a class. -/
def chainRoot (root : κ) : (n : Nat) → ChainHandle κ n
  | 0 => root
  | n + 1 => rootFor (chainRoot root n)

/-- Writers that have written nothing. -/
def chainInitial (state : σ) : (n : Nat) → ChainState σ n
  | 0 => state
  | n + 1 => State.initial (chainInitial state n)

/-- What the writers of a chain have written, from the first one on. -/
def codes : (n : Nat) → ChainState σ n → List Text
  | 0, _ => []
  | n + 1, s => State.code s :: codes n (State.inner s)

/-- A chain in front of a listener that never fails. -/
theorem chain_neverFails {L : Listener σ κ} (hL : L.NeverFails) (n : Nat) :
    (chain L n).NeverFails := by
  induction n with
  | zero => exact hL
  | succ n ih => exact front_neverFails ih

end Writer

/-! ## Readings -/

/-- What a writer without a delegate writes of a source. -/
def codeAlone (o : Options) (source : Text) : Text :=
  (read o (Writer.listener .discard) Writer.root (.initial ()) source).2.state.code

section Readings

variable {σ κ : Type}

/-- The pen and the delegate for a class. -/
theorem isFor_rootFor (root : κ) : (Writer.rootFor root).IsFor .ofClass :=
  ⟨rfl, fun _ h => Option.some.inj h ▸ rfl⟩

/-- A reading with a writer in front of a listener, and one with the listener alone. -/
theorem front_ends (o : Options) (L : Listener σ κ) (root : κ) (state : σ) (source : Text) :
    (Writer.frontLikeness σ κ).Ends
      (read o (Writer.listener L) (Writer.rootFor root) (.initial state) source)
      (read o L root state source) :=
  (Writer.front_holds L).conduct o (dialogue_heeds o source)
    ⟨rfl, .cons ⟨rfl, fun _ h => Option.some.inj h ▸ isFor_rootFor root⟩ .nil, rfl⟩

/-- A reading with a writer in front of a listener meets the faults of this listener, one after
another, and no others. -/
theorem faults_front (o : Options) (L : Listener σ κ) (root : κ) (state : σ) (source : Text) :
    faultsOf (read o (Writer.listener L).noted (Writer.rootFor root) (.initial state, [])
        source).2.state.2 =
      faultsOf (read o L.noted root (state, []) source).2.state.2 := by
  have hdesks : (Writer.frontLikeness σ κ).noted.Desks ⟨[.ofClass], none⟩
      (Desk.initial (Writer.rootFor root) (.initial state, [])) (Desk.initial root (state, [])) :=
    ⟨⟨rfl, rfl⟩, .cons ⟨rfl, fun _ h => Option.some.inj h ▸ isFor_rootFor root⟩ .nil, rfl⟩
  exact ((Writer.front_holds L).noted.conduct o (dialogue_heeds o source) hdesks).states.2

/-- In front of a listener that never fails, a writer writes what it writes alone. -/
theorem code_front {L : Listener σ κ} (hL : L.NeverFails) (o : Options) (root : κ) (state : σ)
    (source : Text) :
    (read o (Writer.listener L) (Writer.rootFor root) (.initial state) source).2.state.code =
      codeAlone o source := by
  have hdiscard : Listener.discard.NeverFails := fun _ _ _ => ⟨none, rfl⟩
  have hdesks : (Writer.twinLikeness σ κ Unit Unit).Desks ⟨[.ofClass], none⟩
      (Desk.initial (Writer.rootFor root) (.initial state))
      (Desk.initial Writer.root (.initial ())) :=
    ⟨rfl, .cons ⟨rfl, fun _ h => Option.some.inj h ▸ isFor_rootFor root,
      fun _ h => Option.some.inj h ▸ ⟨rfl, nofun⟩⟩ .nil, rfl⟩
  have hends := (Writer.twin_holds hL hdiscard).conduct o (dialogue_heeds o source) hdesks
  exact congrArg (fun sheet : Writer.Sheet => sheet.page.contents) hends.states

/-- All writers of a chain in front of a listener that never fails write the same. -/
theorem codes_chain {L : Listener σ κ} (hL : L.NeverFails) (o : Options) (root : κ) (state : σ)
    (source : Text) (n : Nat) :
    Writer.codes n (read o (Writer.chain L n) (Writer.chainRoot root n)
        (Writer.chainInitial state n) source).2.state =
      List.replicate n (codeAlone o source) := by
  induction n with
  | zero => rfl
  | succ n ih =>
    have hcode := code_front (Writer.chain_neverFails hL n) o (Writer.chainRoot root n)
      (Writer.chainInitial state n) source
    have hinner := (front_ends o (Writer.chain L n) (Writer.chainRoot root n)
      (Writer.chainInitial state n) source).states
    rw [List.replicate_succ, ← ih, ← hcode]
    exact congrArg (fun s => _ :: Writer.codes n s) hinner

/-- A writer takes a listener as its delegate and is transparent: with the writer in front, a
reading has the same result and the same diagnostics, leaves the listener in the same state and
makes the same calls on its visitors; and every fault that comes back is one that the listener
raised. If the listener never fails, the writer writes what it would write alone, and so do all
writers of a chain in front of the listener. -/
theorem writer_is_transparent (o : Options) (L : Listener σ κ) (root : κ) (state : σ)
    (source : Text) :
    (Writer.root.slot.assign ⟨.ofClass, root⟩ = .ok (Writer.rootFor root).slot ∧
      (read o (Writer.listener L) (Writer.rootFor root) (.initial state) source).1 =
        (read o L root state source).1 ∧
      (read o (Writer.listener L) (Writer.rootFor root) (.initial state) source).2.diagnostics =
        (read o L root state source).2.diagnostics ∧
      (read o (Writer.listener L) (Writer.rootFor root) (.initial state) source).2.state.inner =
        (read o L root state source).2.state) ∧
    (read o (Writer.listener L.traced) (Writer.rootFor (0, root)) (.initial (state, []))
        source).2.state.inner.2 = callsOf o L root state source ∧
    faultsOf (read o (Writer.listener L).noted (Writer.rootFor root) (.initial state, [])
        source).2.state.2 =
      faultsOf (read o L.noted root (state, []) source).2.state.2 ∧
    (L.NeverFails →
      (read o (Writer.listener L) (Writer.rootFor root) (.initial state) source).2.state.code =
          codeAlone o source ∧
        ∀ n, Writer.codes n (read o (Writer.chain L n) (Writer.chainRoot root n)
            (Writer.chainInitial state n) source).2.state =
          List.replicate n (codeAlone o source)) := by
  have hends := front_ends o L root state source
  have hcalls := front_ends o L.traced (0, root) (state, []) source
  exact ⟨⟨Writer.assign_root root, hends.result, congrArg List.reverse hends.skipped,
      hends.states⟩,
    congrArg Prod.snd hcalls.states, faults_front o L root state source,
    fun hL => ⟨code_front hL o root state source, codes_chain hL o root state source⟩⟩

/-- Three writers in front of a recorder write the same of a class of two lines. -/
theorem codes_of_three_writers :
    Writer.codes 3 (read .default (Writer.chain (Recorder.listener .obliging) 3)
        (Writer.chainRoot (Recorder.root .ofClass) 3) (Writer.chainInitial .initial 3)
        ".class La;\n.super Lb;".toList).2.state =
      List.replicate 3 ".class La;\n.super Lb;\n".toList := by
  have hnever : (Recorder.listener .obliging).NeverFails := Recorder.listener_neverFails rfl
  have hcode : codeAlone .default ".class La;\n.super Lb;".toList =
      ".class La;\n.super Lb;\n".toList := by decide +kernel
  obtain ⟨-, -, -, hcodes⟩ := writer_is_transparent .default (Recorder.listener .obliging)
    (Recorder.root .ofClass) .initial ".class La;\n.super Lb;".toList
  rw [← hcode]
  exact (hcodes hnever).2 3

end Readings

end Smali
