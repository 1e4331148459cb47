import Smali.Proofs.Likeness
import Smali.Proofs.ReaderFooting
import Smali.Proofs.Trace

/-!
# Faults of calls

A listener may receive any call with a fault, of whatever kind. The fault ends the reading,
as the last call and the result of it, if the reader is strict or the kind is not one that
noisy input causes; and also if the call tells of a comment of the class or of the end of the
class, outside of which nothing could skip over the fault. A lenient reader skips over all
other faults of calls as if the input were malformed.
-/

namespace Smali

/-- A call with the handle that heard it, and how it was received. -/
structure Note (κ : Type) where
  /-- The handle before the call. -/
  handle : κ
  /-- The call. -/
  call : Call
  /-- The fault that it was received with. -/
  fault : Option Fault

namespace Listener

variable {σ κ : Type}

/-- The fault in what comes of a call. -/
def faultOf : Except Fault (Option κ) → Option Fault
  | .ok _ => none
  | .error fault => some fault

/-- A listener that takes a note of each call. -/
def noted (L : Listener σ κ) : Listener (σ × List (Note κ)) κ where
  hear := fun handle call (state, notes) =>
    let r := L.hear handle call state
    ⟨r.outcome, r.self, (r.state, notes ++ [⟨handle, call, faultOf r.outcome⟩])⟩

/-- Notes change neither states nor handles. -/
def notedLikeness (σ κ : Type) : Likeness (σ × List (Note κ)) κ σ κ :=
  ⟨fun s₁ s₂ => s₁.1 = s₂, fun _ h₁ h₂ => h₁ = h₂⟩

/-- A listener is alike with and without notes. -/
theorem noted_holds (L : Listener σ κ) : (notedLikeness σ κ).Holds L.noted L where
  hush := rfl
  meet := by
    intro scope call h₁ h₂ s₁ s₂ _ hhandles hstates
    obtain rfl : h₁ = h₂ := hhandles
    obtain rfl : s₁.1 = s₂ := hstates
    cases h₁ with
    | none => exact ⟨fun _ _ => rfl, rfl, rfl⟩
    | some handle =>
      refine ⟨?_, rfl, rfl⟩
      simp only [meet, noted]
      cases (L.hear handle call s₁.1).outcome with
      | ok child => exact fun _ _ => rfl
      | error fault => exact rfl

end Listener

/-- Reads a source and takes notes. The class is the visitor with number zero. -/
def readNoted {σ κ : Type} (o : Options) (L : Listener σ κ) (root : κ) (state : σ)
    (source : Text) :
    Except Fault Unit × Desk ((σ × List Heard) × List (Note (Nat × κ))) (Nat × κ) :=
  read o L.traced.noted (0, root) ((state, []), []) source

/-- Taking notes changes neither the result nor the diagnostics nor the listener. -/
theorem readNoted_ends {σ κ : Type} (o : Options) (L : Listener σ κ) (root : κ) (state : σ)
    (source : Text) :
    (Listener.notedLikeness (σ × List Heard) (Nat × κ)).Ends (readNoted o L root state source)
      (readTraced o L root state source) :=
  (Listener.noted_holds L.traced).conduct o (dialogue_heeds o source)
    ⟨rfl, .cons rfl .nil, rfl⟩

/-! ## What becomes of a fault -/

/-- Whether the reading has to end with a fault that waits. -/
def Due.Ends (o : Options) (due : Due) : Prop :=
  o.errors = .strict ∨ due.fault.kind.isRecoverable = false ∨ due.isFinal = true

/-- The fault of a call, as it waits behind the call: it is final if the class itself heard a
comment or its end. -/
def Note.due? {κ : Type} (note : Note (Nat × κ)) : Option Due :=
  note.fault.map fun fault =>
    ⟨fault, note.handle.1 = 0 && (note.call.kind = .comment || note.call.kind = .finish)⟩

section Reckoning

variable {σ κ α : Type}

/-- What becomes of a fault that waits, by the calls behind it, the result and the faults that
are skipped over in the end: either it ends the reading, or it is skipped over. -/
structure Due.Settled (o : Options) (due : Due) (behind : List (Note (Nat × κ)))
    (result : Except Fault α) (skipped : List Fault) : Prop where
  /-- When there is no further call and the result passes on the fault. -/
  ends_iff : (behind = [] ∧ ∃ fault, result = .error fault ∧ fault.Echoes due.fault) ↔ due.Ends o
  /-- What happens otherwise. -/
  skips : ¬ due.Ends o → ∃ fault ∈ skipped, fault.Echoes due.fault

/-- What becomes of the fault that waits and of those of the calls from a footing on. -/
structure Reckoned (o : Options) (due : Option Due) (notes : List (Note (Nat × κ)))
    (result : Except Fault α) (skipped : List Fault) : Prop where
  /-- The fault that waits is settled. -/
  waiting : ∀ d ∈ due, d.Settled o notes result skipped
  /-- The faults of calls are settled. -/
  calls : ∀ before note behind, notes = before ++ note :: behind →
    ∀ d ∈ note.due?, d.Settled o behind result skipped
  /-- Without a fault that waits and without further calls, a lenient reading ends with no fault
  that could have been skipped over. -/
  quiet : due = none → notes = [] → o.errors = .ignore → ∀ fault, result = .error fault →
    fault.kind.isRecoverable = false

/-- The handles of the open scopes: the class has number zero, and nobody else does. -/
def Ranked : List (Option (Nat × κ)) → Prop
  | [] => True
  | handle :: outer => (∀ h ∈ handle, h.1 = 0 ↔ outer = []) ∧ Ranked outer

/-- Without the innermost scope. -/
theorem Ranked.tail {scopes : List (Option (Nat × κ))} (h : Ranked scopes) :
    Ranked scopes.tail := by
  cases scopes with
  | nil => exact h
  | cons _ _ => exact h.2

/-- A desk on a footing. -/
structure Desk.Matches (d : Desk σ (Nat × κ)) (s : Footing) : Prop where
  /-- Handles have their numbers. -/
  ranked : Ranked d.scopes
  /-- The scopes that are open. -/
  length_eq : d.scopes.length = s.scopes.length

/-- A note of a call, if someone heard it, and the fault of the call. -/
def NoteOf (s : Footing) (call : Call) (told : List (Note (Nat × κ))) (received : Option Fault) :
    Prop :=
  told = [] ∧ received = none ∨
    ∃ note, told = [note] ∧ note.due? = received.map (⟨·, call.isLast s.scopes⟩)

/-- A call with what it was received with, and what comes behind it. -/
theorem NoteOf.reckoned {o : Options} {s : Footing} {call : Call} {told : List (Note (Nat × κ))}
    {received : Option Fault} (h : NoteOf s call told received) (hs : s.due = none)
    {behind : List (Note (Nat × κ))} {result : Except Fault α} {skipped : List Fault}
    (hbehind : Reckoned o (received.map (⟨·, call.isLast s.scopes⟩)) behind result skipped) :
    Reckoned o s.due (told ++ behind) result skipped := by
  obtain ⟨rfl, rfl⟩ | ⟨note, rfl, hnote⟩ := h
  · rw [hs]
    exact hbehind
  · refine ⟨by simp [hs], fun before note' after hsplit => ?_, nofun⟩
    cases before with
    | nil =>
      obtain ⟨rfl, rfl⟩ := List.cons.inj hsplit
      rw [hnote]
      exact hbehind.waiting
    | cons _ before => exact hbehind.calls before note' after (List.cons.inj hsplit).2

/-- A call is noted if someone hears it. -/
theorem Desk.Matches.call (L : Listener σ κ) {s : Footing}
    {d : Desk ((σ × List Heard) × List (Note (Nat × κ))) (Nat × κ)} (h : d.Matches s)
    (call : Call) :
    (d.call L.traced.noted call).2.Matches s ∧
      (d.call L.traced.noted call).2.skipped = d.skipped ∧
      (∀ child, (d.call L.traced.noted call).1 = .ok (some child) → child.1 ≠ 0) ∧
      ∃ told, (d.call L.traced.noted call).2.state.2 = d.state.2 ++ told ∧
        NoteOf s call told (Listener.faultOf (d.call L.traced.noted call).1) := by
  obtain ⟨⟨⟨state, heard⟩, notes⟩, scopes, skipped⟩ := d
  obtain ⟨hranked, hlength⟩ := h
  match scopes, hranked, hlength with
  | [], hranked, hlength =>
    exact ⟨⟨hranked, hlength⟩, rfl, (fun _ h => by cases h), [], (List.append_nil notes).symm,
      .inl ⟨rfl, rfl⟩⟩
  | none :: outer, hranked, hlength =>
    exact ⟨⟨hranked, hlength⟩, rfl, (fun _ h => by cases h), [], (List.append_nil notes).symm,
      .inl ⟨rfl, rfl⟩⟩
  | some (who, handle) :: outer, hranked, hlength =>
    have hwho : who = 0 ↔ outer = [] := hranked.1 _ rfl
    refine ⟨⟨⟨fun _ hself => Option.some.inj hself ▸ hwho, hranked.2⟩, hlength⟩, rfl, ?_, _, rfl,
      .inr ⟨_, rfl, ?_⟩⟩
    · simp only [Desk.call, Listener.noted, Listener.traced]
      intro child hchild
      cases houtcome : (L.hear handle call state).outcome with
      | error fault => rw [houtcome] at hchild; cases hchild
      | ok opened =>
        rw [houtcome] at hchild
        obtain ⟨_, -, rfl⟩ := Option.map_eq_some_iff.mp (Except.ok.inj hchild)
        exact Nat.succ_ne_zero _
    · have hlast : (decide (who = 0) && (call.kind = .comment || call.kind = .finish)) =
          call.isLast s.scopes := by
        have htail : s.scopes.tail.isEmpty = decide (who = 0) := by
          rw [Bool.eq_iff_iff, List.isEmpty_iff, decide_eq_true_iff, hwho,
            ← List.length_eq_zero_iff, ← List.length_eq_zero_iff, List.length_tail, ← hlength]
          rfl
        unfold Call.isLast
        rw [htail]
      unfold Note.due?
      rw [← hlast]
      rfl

/-- Going into the scope that a call opens. -/
theorem Desk.Matches.push {d : Desk σ (Nat × κ)} {s : Footing} (h : d.Matches s)
    (hs : s.scopes ≠ []) {child : Option (Nat × κ)} (hchild : ∀ h ∈ child, h.1 ≠ 0) (scope : Scope)
    (due : Option Due) :
    Desk.Matches ⟨d.state, child :: d.scopes, d.skipped⟩ ⟨scope :: s.scopes, due⟩ := by
  have hne : d.scopes ≠ [] := by
    rw [← List.length_pos_iff, h.length_eq, List.length_pos_iff]
    exact hs
  refine ⟨⟨fun x hx => ?_, h.ranked⟩, congrArg (· + 1) h.length_eq⟩
  exact iff_of_false (hchild x hx) hne

/-- What a whole dialogue comes to. -/
structure Reckons (o : Options) (d : Desk ((σ × List Heard) × List (Note (Nat × κ))) (Nat × κ))
    (due : Option Due)
    (outcome : Except Fault α × Desk ((σ × List Heard) × List (Note (Nat × κ))) (Nat × κ)) :
    Prop where
  /-- All faults of calls are settled. -/
  reckoned : ∃ notes, outcome.2.state.2 = d.state.2 ++ notes ∧
    Reckoned o due notes outcome.1 outcome.2.skipped
  /-- What was skipped over stays. -/
  skipped : ∀ fault ∈ d.skipped, fault ∈ outcome.2.skipped

/-- A call and what comes behind it. -/
theorem Reckons.of_call {o : Options} {s : Footing} {call : Call} {received : Option Fault}
    {d d' : Desk ((σ × List Heard) × List (Note (Nat × κ))) (Nat × κ)}
    {outcome : Except Fault α × Desk ((σ × List Heard) × List (Note (Nat × κ))) (Nat × κ)}
    (hs : s.due = none) (hskipped : d'.skipped = d.skipped)
    (htold : ∃ told, d'.state.2 = d.state.2 ++ told ∧ NoteOf s call told received)
    (h : Reckons o d' (received.map (⟨·, call.isLast s.scopes⟩)) outcome) :
    Reckons o d s.due outcome := by
  obtain ⟨told, hd', htold⟩ := htold
  obtain ⟨⟨behind, hbehind, hreckoned⟩, hmore⟩ := h
  exact ⟨⟨told ++ behind, by rw [hbehind, hd', List.append_assoc], htold.reckoned hs hreckoned⟩,
    hskipped ▸ hmore⟩

/-- A fault that is skipped over or ends the dialogue. -/
theorem Reckons.of_excuse {o : Options} {s : Footing} {fault : Fault} (hsettles : fault.Settles s)
    {L : Listener σ κ} {next : Option Fault → Dialogue α}
    {d : Desk ((σ × List Heard) × List (Note (Nat × κ))) (Nat × κ)}
    (hnext : ∀ skipped, Reckons o ⟨d.state, d.scopes, skipped⟩ none
      ((next none).conduct o L.traced.noted ⟨d.state, d.scopes, skipped⟩)) :
    Reckons o d s.due ((Dialogue.act (.excuse fault) next).conduct o L.traced.noted d) := by
  unfold Dialogue.conduct Desk.receive Desk.excuse
  dsimp only
  split
  · next received d' heq =>
    split at heq
    · next hskips =>
      cases heq
      obtain ⟨⟨notes, hnotes, hreckoned⟩, hmore⟩ := hnext (fault :: d.skipped)
      refine ⟨⟨notes, hnotes, fun due hdue => ⟨?_, fun _ => ?_⟩, hreckoned.calls, fun _ =>
        hreckoned.quiet rfl⟩, fun f hf => hmore f (List.mem_cons_of_mem _ hf)⟩
      · obtain ⟨hfinal, hechoes⟩ := hsettles due hdue
        have hkind : due.fault.kind.isRecoverable = true := hechoes.kind ▸ hskips.2
        refine iff_of_false ?_ ?_
        · rintro ⟨hnone, f, hresult, hf⟩
          have hquiet := hreckoned.quiet rfl hnone hskips.1 f hresult
          rw [hf.kind, hkind] at hquiet
          exact absurd hquiet Bool.noConfusion
        · rintro (hstrict | hunrecoverable | hlast)
          · cases hskips.1.symm.trans hstrict
          · cases hkind.symm.trans hunrecoverable
          · cases hfinal.symm.trans hlast
      · exact ⟨fault, hmore fault List.mem_cons_self, (hsettles due hdue).2⟩
    · cases heq
  · next f d' heq =>
    split at heq
    · cases heq
    · next hfinal =>
      cases heq
      have hends : ∀ due ∈ s.due, due.Ends o := by
        intro due hdue
        rw [Decidable.not_and_iff_or_not] at hfinal
        rcases hfinal with hstrict | hkind
        · exact .inl (by cases herrors : o.errors with
            | strict => rfl
            | ignore => exact absurd herrors hstrict)
        · refine .inr (.inl ?_)
          rw [← (hsettles due hdue).2.kind]
          exact Bool.eq_false_iff.mpr hkind
      refine ⟨⟨[], (List.append_nil _).symm, fun due hdue => ⟨?_, fun hnot => ?_⟩, ?_, ?_⟩,
        fun _ hf => hf⟩
      · exact iff_of_true ⟨rfl, fault, rfl, (hsettles due hdue).2⟩ (hends due hdue)
      · exact absurd (hends due hdue) hnot
      · exact fun before note behind hsplit => absurd hsplit (by simp)
      · rintro - - hignore f hresult
        cases hresult
        exact Bool.eq_false_iff.mpr fun hkind => hfinal ⟨hignore, hkind⟩

/-- A call that opens no scope, and what comes behind it. -/
theorem Reckons.of_tell {o : Options} {L : Listener σ κ} {s : Footing} {call : Call}
    (hs : s.due = none) {next : Option Fault → Dialogue α}
    {d : Desk ((σ × List Heard) × List (Note (Nat × κ))) (Nat × κ)} (hd : d.Matches s)
    (hok : ∀ d' : Desk ((σ × List Heard) × List (Note (Nat × κ))) (Nat × κ), d'.Matches s →
      Reckons o d' none ((next none).conduct o L.traced.noted d'))
    (herror : ∀ fault (d' : Desk ((σ × List Heard) × List (Note (Nat × κ))) (Nat × κ)),
      d'.Matches s → Reckons o d' (some ⟨fault, call.isLast s.scopes⟩)
        ((next (some fault)).conduct o L.traced.noted d')) :
    Reckons o d s.due ((Dialogue.act (.tell call) next).conduct o L.traced.noted d) := by
  obtain ⟨hmatches, hskipped, -, htold⟩ := hd.call L call
  unfold Dialogue.conduct Desk.receive
  dsimp only
  unfold Desk.tell
  generalize d.call L.traced.noted call = r at hmatches hskipped htold
  obtain ⟨fault | child, d'⟩ := r
  · exact .of_call hs hskipped htold (herror fault d' hmatches)
  · exact .of_call hs hskipped htold (hok d' hmatches)

/-- A call that opens a scope, and what comes behind it. -/
theorem Reckons.of_enter {o : Options} {L : Listener σ κ} {s : Footing} {call : Call}
    (hs : s.due = none) (hscopes : s.scopes ≠ []) (opened : Scope)
    {next : Option Fault → Dialogue α}
    {d : Desk ((σ × List Heard) × List (Note (Nat × κ))) (Nat × κ)} (hd : d.Matches s)
    (hok : ∀ d' : Desk ((σ × List Heard) × List (Note (Nat × κ))) (Nat × κ),
      d'.Matches ⟨opened :: s.scopes, none⟩ →
        Reckons o d' none ((next none).conduct o L.traced.noted d'))
    (herror : ∀ fault (d' : Desk ((σ × List Heard) × List (Note (Nat × κ))) (Nat × κ)),
      d'.Matches s → Reckons o d' (some ⟨fault, call.isLast s.scopes⟩)
        ((next (some fault)).conduct o L.traced.noted d')) :
    Reckons o d s.due ((Dialogue.act (.enter call) next).conduct o L.traced.noted d) := by
  obtain ⟨hmatches, hskipped, hchild, htold⟩ := hd.call L call
  unfold Dialogue.conduct Desk.receive
  dsimp only
  unfold Desk.enter
  generalize d.call L.traced.noted call = r at hmatches hskipped hchild htold
  obtain ⟨fault | child, d'⟩ := r
  · exact .of_call hs hskipped htold (herror fault d' hmatches)
  · have hpush : Desk.Matches ⟨d'.state, child :: d'.scopes, d'.skipped⟩
        ⟨opened :: s.scopes, none⟩ :=
      hmatches.push hscopes (fun h hh => hchild h (congrArg Except.ok hh)) opened none
    obtain ⟨hreckoned, hmore⟩ := hok _ hpush
    exact .of_call hs hskipped htold ⟨hreckoned, hmore⟩

/-- Whatever the calls of a dialogue are received with, the faults are settled, each by what
comes behind its call. -/
theorem Dialogue.Heeds.reckons (o : Options) (L : Listener σ κ) {dialogue : Dialogue α}
    {s : Footing} (h : dialogue.Heeds (fun _ s => s.due = none) s)
    {d : Desk ((σ × List Heard) × List (Note (Nat × κ))) (Nat × κ)} (hd : d.Matches s) :
    Reckons o d s.due (dialogue.conduct o L.traced.noted d) := by
  induction dialogue generalizing s d with
  | done a =>
    have hs : s.due = none := h
    rw [hs]
    exact ⟨⟨[], (List.append_nil _).symm, by simp, fun _ _ _ hsplit => absurd hsplit (by simp),
      (fun _ _ _ _ h => by cases h)⟩, fun _ hf => hf⟩
  | halt fault =>
    obtain ⟨due, hdue, hfinal, hechoes⟩ := h
    refine ⟨⟨[], (List.append_nil _).symm, fun due' hdue' => ?_,
      fun _ _ _ hsplit => absurd hsplit (by simp), fun hnone => ?_⟩, fun _ hf => hf⟩
    · obtain rfl : due = due' := Option.some.inj (hdue.symm.trans hdue')
      exact ⟨iff_of_true ⟨rfl, fault, rfl, hechoes⟩ (.inr (.inr hfinal)),
        fun hnot => absurd (.inr (.inr hfinal)) hnot⟩
    · cases hnone.symm.trans hdue
  | act first next ih =>
    obtain ⟨hallows, hnext⟩ := h
    cases first with
    | tell call =>
      have hs : s.due = none := hallows.1.1
      exact .of_tell hs hd
        (fun d' hd' => hs ▸ ih none (hnext none (.inl rfl)) hd')
        (fun fault d' hd' => ih (some fault) (hnext (some fault) (.inr rfl)) ⟨hd'.1, hd'.2⟩)
    | remark call =>
      have hs : s.due = none := hallows.1.1
      have hok := fun (d' : Desk ((σ × List Heard) × List (Note (Nat × κ))) (Nat × κ))
        (hd' : d'.Matches s) => ih none (hnext none (.inl rfl)) hd'
      cases hcomments : o.comments with
      | true =>
        have hremark : (act (.remark call) next).conduct o L.traced.noted d =
            (act (.tell call) next).conduct o L.traced.noted d := by
          simp [conduct, Desk.receive, hcomments]
        rw [hremark]
        exact .of_tell hs hd (fun d' hd' => hs ▸ hok d' hd')
          (fun fault d' hd' => ih (some fault) (hnext (some fault) (.inr rfl)) ⟨hd'.1, hd'.2⟩)
      | false =>
        have hremark : (act (.remark call) next).conduct o L.traced.noted d =
            (next none).conduct o L.traced.noted d := by
          simp [conduct, Desk.receive, hcomments]
        rw [hremark]
        exact hok d hd
    | enter call =>
      obtain ⟨⟨hs, scope, hscope, -⟩, hopens⟩ := hallows
      obtain ⟨opened, hopened⟩ := Option.isSome_iff_exists.mp hopens
      refine .of_enter hs (List.ne_nil_of_mem (List.mem_of_head? hscope)) opened hd
        (fun d' hd' => ?_)
        (fun fault d' hd' => ih (some fault) (hnext (some fault) (.inr rfl)) ⟨hd'.1, hd'.2⟩)
      have hgo := hnext none (.inl rfl)
      simp only [Footing.after, hopened] at hgo
      exact hs ▸ ih none hgo ⟨hd'.1, hd'.2⟩
    | hush =>
      have hs : s.scopes ≠ [] := by
        rw [hallows.2]
        exact List.cons_ne_nil _ _
      have hpush : Desk.Matches ⟨d.state, none :: d.scopes, d.skipped⟩
          ⟨.ofField :: s.scopes, s.due⟩ := hd.push hs (by simp) .ofField s.due
      obtain ⟨hreckoned, hmore⟩ := ih none (hnext none (.inl rfl)) hpush
      exact ⟨hreckoned, hmore⟩
    | leave =>
      have htail : Desk.Matches ⟨d.state, d.scopes.tail, d.skipped⟩ ⟨s.scopes.tail, s.due⟩ := by
        refine ⟨hd.ranked.tail, ?_⟩
        rw [List.length_tail, List.length_tail, hd.length_eq]
      obtain ⟨hreckoned, hmore⟩ := ih none (hnext none (.inl rfl)) htail
      exact ⟨hreckoned, hmore⟩
    | excuse fault =>
      refine .of_excuse hallows fun skipped => ?_
      exact ih none (hnext none (.inl rfl)) ⟨hd.1, hd.2⟩
    | require holds fault =>
      obtain ⟨hs, hkind⟩ := hallows
      unfold conduct Desk.receive
      dsimp only
      split
      · next received d' heq =>
        split at heq
        · cases heq
        · cases heq
          exact ih none (hnext none (.inl rfl)) hd
      · next f d' heq =>
        split at heq
        · cases heq
          refine ⟨⟨[], (List.append_nil _).symm, by simp [hs],
            fun _ _ _ hsplit => absurd hsplit (by simp), ?_⟩, fun _ hf => hf⟩
          rintro - - - f hresult
          cases hresult
          rw [hkind]
          rfl
        · cases heq

end Reckoning

/-- Whether a fault of a call can only end the reading. Outside of the class there is nothing
that could skip over the fault of a comment of the class or of its end. -/
def Note.Aborts {κ : Type} (note : Note (Nat × κ)) (o : Options) (fault : Fault) : Prop :=
  o.errors = .strict ∨ fault.kind.isRecoverable = false ∨
    note.handle.1 = 0 ∧ (note.call.kind = .comment ∨ note.call.kind = .finish)

/-- The fault that waits behind a call has to end the reading. -/
theorem Note.aborts_iff {κ : Type} (note : Note (Nat × κ)) (o : Options) (fault : Fault) :
    Due.Ends o ⟨fault, note.handle.1 = 0 &&
      (note.call.kind = .comment || note.call.kind = .finish)⟩ ↔ note.Aborts o fault := by
  simp [Due.Ends, Note.Aborts]

/-- A call that is received with a fault is the last one, and the reading passes on the fault,
exactly if the reader is strict, or the kind of the fault is not one that noisy input causes, or
the class itself was told of a comment or of its end. Otherwise the fault is skipped over. -/
theorem fault_of_call_ends_reading_iff {σ κ : Type} (o : Options) (L : Listener σ κ) (root : κ)
    (state : σ) (source : Text) {before : List (Note (Nat × κ))} {note : Note (Nat × κ)}
    {behind : List (Note (Nat × κ))}
    (hnotes : (readNoted o L root state source).2.state.2 = before ++ note :: behind)
    {fault : Fault} (hfault : note.fault = some fault) :
    (behind = [] ∧ (∃ f, (read o L root state source).1 = .error f ∧ f.Echoes fault) ↔
        note.Aborts o fault) ∧
      (¬ note.Aborts o fault →
        ∃ f ∈ (read o L root state source).2.diagnostics, f.Echoes fault) := by
  have hends := readNoted_ends o L root state source
  have htraced := read_untraced o L root state source
  have hresult : (readNoted o L root state source).1 = (read o L root state source).1 :=
    hends.result.trans (congrArg Prod.fst htraced).symm
  have hskipped : (readNoted o L root state source).2.skipped =
      (read o L root state source).2.skipped :=
    hends.skipped.trans (congrArg (fun r => r.2.skipped) htraced).symm
  have hroot : Desk.Matches (Desk.initial (0, root) ((state, []), []) :
      Desk ((σ × List Heard) × List (Note (Nat × κ))) (Nat × κ)) ⟨[.ofClass], none⟩ :=
    ⟨⟨fun _ h => Option.some.inj h ▸ iff_of_true rfl rfl, trivial⟩, rfl⟩
  obtain ⟨⟨notes, heq, hreckoned⟩, -⟩ := (dialogue_heeds o source).reckons o L hroot
  have hall : notes = before ++ note :: behind := heq.symm.trans hnotes
  obtain ⟨hiff, hskips⟩ := hreckoned.calls before note behind hall _
    (congrArg (Option.map _) hfault)
  rw [Note.aborts_iff] at hiff hskips
  rw [← hresult]
  refine ⟨hiff, fun hnot => ?_⟩
  obtain ⟨f, hf, hechoes⟩ := hskips hnot
  exact ⟨f, List.mem_reverse.mpr (hskipped ▸ hf), hechoes⟩

/-- The end of a class is received with a fault of a kind that noisy input causes. Even a lenient
reading passes it on. -/
theorem fault_of_end_ends_reading :
    ∃ note, (readNoted { Options.default with errors := .ignore }
        (Recorder.listener ⟨[], some ⟨.finish, 1, .plain .grammar "stop"⟩⟩)
        (Recorder.root .ofClass) .initial ".class La;\n".toList).2.state.2.getLast? = some note ∧
      note.fault = some (.plain .grammar "stop") ∧
      ∃ f, (read { Options.default with errors := .ignore }
        (Recorder.listener ⟨[], some ⟨.finish, 1, .plain .grammar "stop"⟩⟩)
        (Recorder.root .ofClass) .initial ".class La;\n".toList).1 = .error f ∧
        f.Echoes (.plain .grammar "stop") := by
  have hnotes : ((readNoted { Options.default with errors := .ignore }
      (Recorder.listener ⟨[], some ⟨.finish, 1, .plain .grammar "stop"⟩⟩)
      (Recorder.root .ofClass) .initial ".class La;\n".toList).2.state.2.map
        fun note => (note.fault, note.handle.1, note.call.kind)) =
      [(none, 0, .header), (some (.plain .grammar "stop"), 0, .finish)] := by
    decide +kernel
  obtain ⟨first, more, hsplit, -, hmore⟩ := List.map_eq_cons_iff.mp hnotes
  obtain ⟨note, behind, rfl, hnote, hbehind⟩ := List.map_eq_cons_iff.mp hmore
  obtain rfl := List.map_eq_nil_iff.mp hbehind
  obtain ⟨hfault, hplace⟩ := Prod.mk.inj hnote
  obtain ⟨hwho, hkind⟩ := Prod.mk.inj hplace
  have hlast : _ = [first] ++ note :: [] := hsplit
  refine ⟨note, by rw [hsplit]; rfl, hfault, ?_⟩
  exact ((fault_of_call_ends_reading_iff _ _ _ _ _ hlast hfault).1.mpr
    (.inr (.inr ⟨hwho, .inr hkind⟩))).2

/-- The first call of a lenient reading is received with a fault of a kind that noisy input
causes. The reading goes on and comes to a good end. -/
theorem fault_of_header_skipped :
    ∃ note behind, (readNoted { Options.default with errors := .ignore }
        (Recorder.listener ⟨[], some ⟨.header, 1, .plain .grammar "stop"⟩⟩)
        (Recorder.root .ofClass) .initial ".class La;\n.super Lb;\n".toList).2.state.2 =
          note :: behind ∧
      note.fault = some (.plain .grammar "stop") ∧
      behind.map (·.call.kind) = [.superType, .finish] ∧
      (read { Options.default with errors := .ignore }
        (Recorder.listener ⟨[], some ⟨.header, 1, .plain .grammar "stop"⟩⟩)
        (Recorder.root .ofClass) .initial ".class La;\n.super Lb;\n".toList).1.isOk = true := by
  have hnotes : ((readNoted { Options.default with errors := .ignore }
      (Recorder.listener ⟨[], some ⟨.header, 1, .plain .grammar "stop"⟩⟩)
      (Recorder.root .ofClass) .initial ".class La;\n.super Lb;\n".toList).2.state.2.map
        fun note => (note.fault, note.call.kind)) =
      [(some (.plain .grammar "stop"), .header), (none, .superType), (none, .finish)] := by
    decide +kernel
  obtain ⟨note, behind, hsplit, hnote, hbehind⟩ := List.map_eq_cons_iff.mp hnotes
  refine ⟨note, behind, hsplit, (Prod.mk.inj hnote).1, ?_, by decide +kernel⟩
  have hkinds := congrArg (List.map Prod.snd) hbehind
  rwa [List.map_map] at hkinds

end Smali
