import Smali.Reader.Dialogue

/-!
# Footings

Whatever a listener replies, a dialogue has to know which scopes are open and whether a fault
is waiting to be dealt with. A footing is this much. A dialogue that heeds its footing makes
only calls that the innermost scope can hear, leaves only scopes inside the class, and after a
fault makes no call before it has dealt with the fault: by leaving scopes, and then by skipping
over the fault or by ending with it.
-/

namespace Smali

/-- A fault that passes on another one, its place aside. -/
structure Fault.Echoes (fault received : Fault) : Prop where
  /-- The same sort of failure. -/
  kind : fault.kind = received.kind
  /-- The same explanation. -/
  details : fault.details = received.details

/-- A fault passes on itself. -/
theorem Fault.echoes_refl (fault : Fault) : fault.Echoes fault := ⟨rfl, rfl⟩

/-- A place attached to a fault changes nothing else. -/
theorem Fault.Echoes.attach {fault received : Fault} (h : fault.Echoes received)
    (position : Position) : (fault.attach position).Echoes received :=
  ⟨h.kind, h.details⟩

/-- A fault that a call was received with and that is not dealt with yet. -/
structure Due where
  /-- The fault. -/
  fault : Fault
  /-- Whether it can only end the dialogue. -/
  isFinal : Bool

/-- Where a dialogue stands. -/
structure Footing where
  /-- The scopes that are open, the innermost first; the class is the outermost. -/
  scopes : List Scope
  /-- The fault that waits. -/
  due : Option Due

/-- Whether a fault of a call can only end the dialogue: comments of the class itself and its
end are told outside of everything that could skip over the fault. -/
def Call.isLast (call : Call) (scopes : List Scope) : Bool :=
  scopes.tail.isEmpty && (call.kind = .comment || call.kind = .finish)

/-- A call in a scope around which there are others. -/
theorem Call.isLast_cons (call : Call) (scope : Scope) {outer : List Scope} (h : outer ≠ []) :
    call.isLast (scope :: outer) = false := by
  cases outer with
  | nil => exact absurd rfl h
  | cons => rfl

/-- A call that is neither a comment on a line of its own nor the end of a scope. -/
theorem Call.isLast_of_kind {call : Call} (hcomment : call.kind ≠ .comment)
    (hfinish : call.kind ≠ .finish) (scopes : List Scope) : call.isLast scopes = false := by
  simp [isLast, hcomment, hfinish]

/-- Whether an act is a call, which may be received with a fault. -/
def Act.isCall : Act → Bool
  | .tell _ | .remark _ | .enter _ => true
  | _ => false

/-- A fault that passes on the one that waits, if one does and can be skipped over. -/
def Fault.Settles (fault : Fault) (s : Footing) : Prop :=
  ∀ due ∈ s.due, due.isFinal = false ∧ fault.Echoes due.fault

/-- What settles a fault also does so with a place. -/
theorem Fault.Settles.attach {fault : Fault} {s : Footing} (h : fault.Settles s)
    (position : Position) : (fault.attach position).Settles s :=
  fun due hdue => ⟨(h due hdue).1, (h due hdue).2.attach position⟩

/-- Where nothing waits there is nothing to settle. -/
theorem Fault.settles_clear (fault : Fault) (scopes : List Scope) : fault.Settles ⟨scopes, none⟩ :=
  nofun

namespace Footing

/-- Whether the innermost scope can hear a call. -/
def Hears (s : Footing) (call : Call) : Prop :=
  s.due = none ∧ ∃ scope ∈ s.scopes.head?, call.suits scope = true

/-- The acts that may follow. -/
def Allows (s : Footing) : Act → Prop
  | .tell call => s.Hears call ∧ call.opens? = none ∧ call.isComment = false
  | .remark call => s.Hears call ∧ call.isComment = true
  | .enter call => s.Hears call ∧ call.opens?.isSome = true
  | .hush => s.due = none ∧ s.scopes = [.ofClass]
  | .leave => s.scopes.tail ≠ []
  | .excuse fault => fault.Settles s
  | .require _ fault => s.due = none ∧ fault.kind = .validation

/-- The footing after an act, by the fault with which it was received. -/
def after (s : Footing) (a : Act) (received : Option Fault) : Footing :=
  match a, received with
  | .tell call, some fault | .remark call, some fault | .enter call, some fault =>
    { s with due := some ⟨fault, call.isLast s.scopes⟩ }
  | .enter call, none => { s with scopes := call.opens?.toList ++ s.scopes }
  | .hush, _ => { s with scopes := .ofField :: s.scopes }
  | .leave, _ => { s with scopes := s.scopes.tail }
  | .excuse _, _ => { s with due := none }
  | _, _ => s

end Footing

namespace Dialogue

variable {α β : Type}

/-- From a footing on, a dialogue makes only acts that may follow, whatever they are received
with. A result stands in a relation to the footing at the end. An end without a result passes
on a fault that cannot be skipped over. -/
def Heeds (Q : α → Footing → Prop) : Dialogue α → Footing → Prop
  | .done a, s => Q a s
  | .halt fault, s => ∃ due ∈ s.due, due.isFinal = true ∧ fault.Echoes due.fault
  | .act first next, s =>
    s.Allows first ∧ ∀ received, (received = none ∨ first.isCall = true) →
      (next received).Heeds Q (s.after first received)

/-- Two dialogues in a row. -/
theorem Heeds.bind {s : Footing} {d : Dialogue α} {f : α → Dialogue β} {P : α → Footing → Prop}
    {Q : β → Footing → Prop} (h : d.Heeds P s) (hf : ∀ a s, P a s → (f a).Heeds Q s) :
    (d >>= f).Heeds Q s := by
  change (d.bind f).Heeds Q s
  induction d generalizing s with
  | done a => exact hf a s h
  | halt fault => exact h
  | act first next ih =>
    exact ⟨h.1, fun received hreceived => ih received (h.2 received hreceived)⟩

/-- A weaker relation at the end. -/
theorem Heeds.weaken {s : Footing} {d : Dialogue α} {P Q : α → Footing → Prop} (h : d.Heeds P s)
    (hpq : ∀ a s, P a s → Q a s) : d.Heeds Q s := by
  induction d generalizing s with
  | done a => exact hpq a s h
  | halt fault => exact h
  | act first next ih =>
    exact ⟨h.1, fun received hreceived => ih received (h.2 received hreceived)⟩

/-- Skipping over a fault. -/
theorem heeds_excuse {s : Footing} {fault : Fault} (h : fault.Settles s) :
    (excuse fault).Heeds (fun _ s' => s' = ⟨s.scopes, none⟩) s :=
  ⟨h, fun _ _ => rfl⟩

/-- Going back to the scope around. -/
theorem heeds_leave {s : Footing} {scope : Scope} {outer : List Scope}
    (h : s.scopes = scope :: outer) (houter : outer ≠ []) :
    leave.Heeds (fun _ s' => s' = ⟨outer, s.due⟩) s := by
  refine ⟨?_, fun _ _ => ?_⟩
  · change s.scopes.tail ≠ []
    rwa [h]
  · change (⟨s.scopes.tail, s.due⟩ : Footing) = ⟨outer, s.due⟩
    rw [h, List.tail_cons]

end Dialogue

/-! ## Passages -/

namespace Passage

variable {α β : Type}

/-- From a footing on, a passage makes only acts that may follow. Its result, or the fault that
cuts it short, stands in a relation to the footing at the end. -/
def Heeds (E : Fault → Footing → Prop) (Q : α → Footing → Prop) (p : Passage α) (s : Footing) :
    Prop :=
  p.run.Heeds (fun
    | .ok a => Q a
    | .error fault => E fault) s

/-- A fault in some scopes that passes on the one that waits. -/
def Fails (scopes : List Scope) (fault : Fault) (s : Footing) : Prop :=
  s.scopes = scopes ∧ fault.Settles s

/-- In some scopes where no fault waits, a passage leads to a relation; a fault that cuts it
short is found where it started. -/
def HeedsIn (scopes : List Scope) (Q : α → Footing → Prop) (p : Passage α) : Prop :=
  p.Heeds (Fails scopes) Q ⟨scopes, none⟩

/-- A passage that stays in its scopes. -/
def Stays (scopes : List Scope) (p : Passage α) : Prop :=
  p.HeedsIn scopes fun _ s => s = ⟨scopes, none⟩

variable {scopes : List Scope}

/-- A fault that is there at once. -/
theorem heedsIn_throw {Q : α → Footing → Prop} (fault : Fault) :
    (throw fault : Passage α).HeedsIn scopes Q :=
  ⟨rfl, fault.settles_clear scopes⟩

/-- Two passages in a row. -/
theorem Heeds.bind {E : Fault → Footing → Prop} {P : α → Footing → Prop} {Q : β → Footing → Prop}
    {p : Passage α} {f : α → Passage β} {s : Footing} (h : p.Heeds E P s)
    (hf : ∀ a s, P a s → (f a).Heeds E Q s) : (p >>= f).Heeds E Q s := by
  refine Dialogue.Heeds.bind h fun r s' hr => ?_
  cases r with
  | ok a => exact hf a s' hr
  | error fault => exact hr

/-- A passage that stays in its scopes, and another one. -/
theorem Stays.bind {Q : β → Footing → Prop} {p : Passage α} {f : α → Passage β}
    (h : p.Stays scopes) (hf : ∀ a, (f a).HeedsIn scopes Q) : (p >>= f).HeedsIn scopes Q :=
  Heeds.bind h fun a _ hs => hs ▸ hf a

/-- A result that was found without acts. -/
theorem stays_ofExcept (result : Except Fault α) : (ofExcept result).Stays scopes := by
  cases result with
  | ok a => exact rfl
  | error fault => exact heedsIn_throw fault

/-- An act that may be received with a fault. -/
theorem heeds_perform {a : Act} {E : Fault → Footing → Prop} {Q : Unit → Footing → Prop}
    {s : Footing} (ha : s.Allows a) (hok : Q () (s.after a none))
    (herror : ∀ fault, a.isCall = true → E fault (s.after a (some fault))) :
    (perform a).Heeds E Q s := by
  refine ⟨ha, fun received hreceived => ?_⟩
  cases received with
  | none => exact hok
  | some fault => exact herror fault (hreceived.resolve_left (Option.some_ne_none fault))

/-- A fault of a call that can be skipped over. -/
theorem fails_after {a : Act} {call : Call} (fault : Fault)
    (ha : a = .tell call ∨ a = .remark call ∨ a = .enter call)
    (hlast : call.isLast scopes = false) :
    Fails scopes fault ((⟨scopes, none⟩ : Footing).after a (some fault)) := by
  obtain rfl | rfl | rfl := ha <;>
    exact ⟨rfl, fun due hdue => Option.some.inj hdue ▸ ⟨hlast, fault.echoes_refl⟩⟩

/-- A call that opens no scope. -/
theorem stays_tell {call : Call} {scope : Scope} (hscope : scopes.head? = some scope)
    (hsuits : call.suits scope = true) (hopens : call.opens? = none)
    (hcomment : call.isComment = false) (hlast : call.isLast scopes = false) :
    (tell call).Stays scopes :=
  heeds_perform ⟨⟨rfl, scope, hscope, hsuits⟩, hopens, hcomment⟩ rfl fun fault _ =>
    fails_after fault (.inl rfl) hlast

/-- A comment, if there is one. -/
theorem stays_remark {comment : Option Call} (hscopes : scopes ≠ [])
    (h : ∀ call ∈ comment, call.isComment = true ∧ call.isLast scopes = false) :
    (remark comment).Stays scopes := by
  cases comment with
  | none => exact rfl
  | some call =>
    obtain ⟨hcomment, hlast⟩ := h call rfl
    obtain ⟨scope, outer, rfl⟩ := List.exists_cons_of_ne_nil hscopes
    have hsuits : call.suits scope = true := by
      cases call <;> first | rfl | exact absurd hcomment Bool.false_ne_true
    exact heeds_perform ⟨⟨rfl, scope, rfl, hsuits⟩, hcomment⟩ rfl fun fault _ =>
      fails_after fault (.inr (.inl rfl)) hlast

/-- A semantic condition. -/
theorem stays_require {holds : Bool} {fault : Fault} (h : fault.kind = .validation) :
    (require holds fault).Stays scopes :=
  heeds_perform ⟨rfl, h⟩ rfl fun _ hcall => absurd hcall Bool.false_ne_true

/-- A call that opens a scope, with the comment that the scope is told. -/
theorem heedsIn_enter {call : Call} {scope opened : Scope} {comment : Option Call}
    (hscope : scopes.head? = some scope) (hsuits : call.suits scope = true)
    (hopens : call.opens? = some opened) (hlast : call.isLast scopes = false)
    (hcomment : ∀ remark ∈ comment, remark.isComment = true) :
    (enter call comment).HeedsIn scopes fun _ s => s = ⟨opened :: scopes, none⟩ := by
  have hscopes : scopes ≠ [] := by
    rintro rfl
    exact Option.noConfusion rfl (heq_of_eq hscope)
  refine Heeds.bind (P := fun _ s => s = ⟨opened :: scopes, none⟩) ?_ fun _ s hs => ?_
  · refine heeds_perform ⟨⟨rfl, scope, hscope, hsuits⟩, by rw [hopens]; rfl⟩ ?_ fun fault _ =>
      fails_after fault (.inr (.inr rfl)) hlast
    change (⟨call.opens?.toList ++ scopes, none⟩ : Footing) = _
    rw [hopens]
    rfl
  · subst hs
    refine Dialogue.Heeds.bind (stays_remark (List.cons_ne_nil _ _) fun remark hremark =>
      ⟨hcomment remark hremark, remark.isLast_cons opened hscopes⟩) fun r s hr => ?_
    cases r with
    | ok _ => exact hr
    | error fault =>
      refine (Dialogue.heeds_leave hr.1 hscopes).bind fun _ s' hs' => ?_
      subst hs'
      exact ⟨rfl, hr.2⟩

/-- A passage with its fault as a result. -/
theorem heedsIn_outcome {Q : α → Footing → Prop} {p : Passage α} {E : Fault → Footing → Prop}
    (h : p.HeedsIn scopes Q) :
    p.outcome.Heeds E (fun
      | .ok a => Q a
      | .error fault => Fails scopes fault) ⟨scopes, none⟩ := by
  refine Dialogue.Heeds.bind h fun r s hr => ?_
  cases r with
  | ok a => exact hr
  | error fault => exact hr

/-- A dialogue that no fault cuts short. -/
theorem heeds_lift {E : Fault → Footing → Prop} {Q : α → Footing → Prop} {d : Dialogue α}
    {s : Footing} (h : d.Heeds Q s) : (liftM d : Passage α).Heeds E Q s :=
  Dialogue.Heeds.bind h fun _ _ ha => ha

end Passage

end Smali
