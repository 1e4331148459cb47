import Smali.Proofs.CodeParts
import Smali.Proofs.Declining
import Smali.Proofs.LineAccounts

/-!
# Comments influence nothing else

Whether comments are told, and whether there are any in the source, makes no difference to the
result of a reading, to its diagnostics and to the calls that tell of something else.
-/

namespace Smali

variable {σ κ σ' κ' : Type}

/-- A listener opens the scopes that another one opens, and does without the comments that this
one is told. What the two keep of the calls may differ. -/
def DoesWithoutComments (L : Listener σ κ) (root : κ) (state : σ) (L' : Listener σ' κ')
    (root' : κ') (state' : σ') : Prop :=
  ∃ C : Company σ κ σ' κ', C.Holds (fun _ => false) true L L' ∧ C.handles root root' ∧
    C.states state state'

/-- A listener that accepts everything can do without comments. -/
theorem Listener.AcceptsAll.doesWithoutComments {L : Listener σ κ} (hL : L.AcceptsAll) (root : κ)
    (state : σ) : DoesWithoutComments L root state L root state := by
  refine ⟨⟨fun _ _ => True, fun _ _ => True, fun _ => True⟩, ⟨?_, ?_, ?_⟩, trivial, trivial⟩
  · rintro handle handle' state state' call - - -
    refine ⟨trivial, trivial, fun hopens opened opened' h h' => ?_⟩
    obtain ⟨child, hchild, hopened⟩ := hL handle call state
    obtain ⟨child', hchild', hopened'⟩ := hL handle' call state'
    obtain rfl := Except.ok.inj (h.symm.trans hchild)
    obtain rfl := Except.ok.inj (h'.symm.trans hchild')
    obtain ⟨_, rfl⟩ := Option.isSome_iff_exists.mp (hopened hopens)
    obtain ⟨_, rfl⟩ := Option.isSome_iff_exists.mp (hopened' hopens)
    exact .some trivial
  · exact fun _ _ _ _ _ => ⟨trivial, trivial⟩
  · exact fun _ _ _ => ⟨trivial, trivial, fun _ _ _ _ _ => trivial⟩

/-- So can one that opens scopes by the call and its scope alone and goes on behind a comment as
before it. -/
theorem Listener.IsScoped.doesWithoutComments {L : Listener σ κ} (hL : L.IsScoped)
    (hcomment : ∀ handle call state, call.isComment = true →
      (L.hear handle call state).self = handle) (root : κ) (state : σ) :
    DoesWithoutComments L root state L root state := by
  refine ⟨.sameHandles σ κ, ⟨?_, ?_, ?_⟩, rfl, trivial⟩
  · rintro handle _ state state' call - rfl -
    refine ⟨trivial, hL.self handle call state state', fun _ opened opened' h h' => ?_⟩
    rw [hL.outcome handle call state state'] at h
    obtain rfl := Except.ok.inj (h.symm.trans h')
    exact Company.rel_eq opened
  · rintro handle _ state state' call - hcall rfl -
    exact ⟨trivial, hcomment handle call state hcall⟩
  · exact fun _ _ _ => ⟨trivial, trivial, fun _ _ _ _ _ => trivial⟩

/-- A listener that passes over comments, and is otherwise like another one. -/
def Listener.deaf (L : Listener σ κ) : Listener σ κ where
  hear handle call state :=
    if call.isComment = true then ⟨.ok none, handle, state⟩ else L.hear handle call state

/-- Whatever a listener makes of comments, it does without those that it passes over. -/
theorem Listener.doesWithoutComments_deaf (L : Listener σ κ) (root : κ) (state : σ) :
    DoesWithoutComments L.deaf root state L root state := by
  refine ⟨⟨Eq, Eq, fun _ => False⟩, ⟨?_, ?_, ?_⟩, rfl, rfl⟩
  · rintro handle _ state _ call hcall rfl rfl
    have hsame : L.deaf.hear handle call state = L.hear handle call state :=
      if_neg (by simpa using hcall)
    rw [hsame]
    refine ⟨rfl, rfl, fun _ opened opened' h h' => ?_⟩
    obtain rfl := Except.ok.inj (h.symm.trans h')
    exact Company.rel_eq opened
  · rintro handle _ state _ call - hcall rfl rfl
    have hsame : L.deaf.hear handle call state = ⟨.ok none, handle, state⟩ := if_pos hcall
    rw [hsame]
    exact ⟨rfl, rfl⟩
  · exact fun _ h => h.elim

/-- The calls that tell of no comment. -/
def withoutComments (log : List Heard) : List Heard := log.filter fun h => !h.call.isComment

/-- The calls of a reading without comments are those of the reading with comments that tell of
none. -/
theorem DoesWithoutComments.renumbering {L : Listener σ κ} {root : κ} {state : σ}
    {L' : Listener σ' κ'} {root' : κ'} {state' : σ'}
    (h : DoesWithoutComments L root state L' root' state') (hL : L.NeverFails)
    (hL' : L'.NeverFails) (o : Options) (source : Text) :
    ∃ f, IsRenumbering f ∧
      (callsOf o.quietly L' root' state' source).map (Heard.renumber f) =
        withoutComments (callsOf o L root state source) := by
  obtain ⟨C, hC, hroot, hstate⟩ := h
  have hheeds := dialogue_heeds o source
  obtain ⟨f, hf, hcalls⟩ := hC.renumbering hL hL' hroot hstate (hheeds.fits_of_mem o)
  refine ⟨f, hf, ?_⟩
  have hquietly : dialogue o.quietly source = dialogue o source := rfl
  rw [callsOf_eq _ _ _ _ hL', callsOf_eq _ _ _ _ hL, hquietly, hheeds.rehearse_quietly o]
  rw [withoutDeclined_none] at hcalls
  exact hcalls

end Smali
