import Smali.Reader.Run

/-!
# Laws of dialogues

Dialogues in a row can be put together in any order, and to conduct them in a row is to
conduct one and then the other. To end frames is to hand over first what came out of the last
scope, and then to end the frames that are left.
-/

namespace Smali

namespace Dialogue

variable {α β γ : Type}

/-- Nothing comes before a dialogue. -/
theorem done_bind (a : α) (f : α → Dialogue β) : (done a).bind f = f a := rfl

/-- Nothing follows a dialogue. -/
theorem bind_done (d : Dialogue α) : d.bind .done = d := by
  induction d with
  | done a => rfl
  | halt fault => rfl
  | act first next ih => exact congrArg (act first) (funext ih)

/-- Three dialogues in a row. -/
theorem bind_bind (d : Dialogue α) (f : α → Dialogue β) (g : β → Dialogue γ) :
    (d.bind f).bind g = d.bind fun a => (f a).bind g := by
  induction d with
  | done a => rfl
  | halt fault => rfl
  | act first next ih => exact congrArg (act first) (funext ih)

namespace Laws

scoped instance : LawfulMonad Dialogue :=
  LawfulMonad.mk' Dialogue bind_done done_bind bind_bind

end Laws

/-- Whatever a dialogue is received with, its result has a property. -/
def Yields (P : α → Prop) : Dialogue α → Prop
  | .done a => P a
  | .halt _ => True
  | .act _ next => ∀ received, (next received).Yields P

/-- Two dialogues in a row. -/
theorem Yields.bind {d : Dialogue α} {f : α → Dialogue β} {P : α → Prop} {Q : β → Prop}
    (h : d.Yields P) (hf : ∀ a, P a → (f a).Yields Q) : (d >>= f).Yields Q := by
  change (d.bind f).Yields Q
  induction d with
  | done a => exact hf a h
  | halt fault => exact trivial
  | act first next ih => exact fun received => ih received (h received)

/-- A weaker property of the result. -/
theorem Yields.weaken {d : Dialogue α} {P Q : α → Prop} (h : d.Yields P)
    (hpq : ∀ a, P a → Q a) : d.Yields Q := by
  induction d with
  | done a => exact hpq a h
  | halt fault => exact trivial
  | act first next ih => exact fun received => ih received (h received)

/-- Nothing is said of the result. -/
theorem yields_true (d : Dialogue α) : d.Yields fun _ => True := by
  induction d with
  | done a => exact trivial
  | halt fault => exact trivial
  | act first next ih => exact ih

/-- The result of two dialogues in a row is that of the second. -/
theorem yields_bind {d : Dialogue α} {f : α → Dialogue β} {Q : β → Prop}
    (hf : ∀ a, (f a).Yields Q) : (d >>= f).Yields Q :=
  d.yields_true.bind fun a _ => hf a

/-- What goes on in the same way with every result that can come goes on in the same way. -/
theorem Yields.bind_congr {d : Dialogue α} {f g : α → Dialogue β} {P : α → Prop}
    (h : d.Yields P) (hfg : ∀ a, P a → f a = g a) : d >>= f = d >>= g := by
  change d.bind f = d.bind g
  induction d with
  | done a => exact hfg a h
  | halt fault => rfl
  | act first next ih =>
    exact congrArg (act first) (funext fun received => ih received (h received))

/-- One dialogue is conducted, and then what goes on with its result. -/
theorem conduct_bind {σ κ : Type} (o : Options) (L : Listener σ κ) (d : Dialogue α)
    (f : α → Dialogue β) (desk : Desk σ κ) :
    (d >>= f).conduct o L desk =
      match d.conduct o L desk with
      | (.ok a, desk) => (f a).conduct o L desk
      | (.error fault, desk) => (.error fault, desk) := by
  change (d.bind f).conduct o L desk = _
  induction d generalizing desk with
  | done a => rfl
  | halt fault => rfl
  | act first next ih =>
    simp only [bind, conduct]
    cases desk.receive o L first with
    | onward received desk => exact ih received desk
    | final fault desk => rfl

/-- The result of a dialogue that is conducted to its end has the property. -/
theorem Yields.conduct {σ κ : Type} {d : Dialogue α} {P : α → Prop} (h : d.Yields P)
    {o : Options} {L : Listener σ κ} {desk desk' : Desk σ κ} {a : α}
    (hd : d.conduct o L desk = (.ok a, desk')) : P a := by
  induction d generalizing desk with
  | done _ => exact Except.ok.inj (congrArg Prod.fst hd) ▸ h
  | halt fault => exact nomatch congrArg Prod.fst hd
  | act first next ih =>
    unfold Dialogue.conduct at hd
    cases hreceived : desk.receive o L first with
    | onward received desk =>
      rw [hreceived] at hd
      exact ih received (h received) hd
    | final fault desk =>
      rw [hreceived] at hd
      exact nomatch congrArg Prod.fst hd

end Dialogue

/-! ## Frames -/

open scoped Dialogue.Laws

/-- Where nothing comes out, the innermost frame stays or is closed. -/
theorem unwind_nothing_cons (before : Option Line) (stays : Frame → Bool) (f : Frame)
    (outer : List Frame) :
    unwind before stays .nothing (f :: outer) =
      if stays f then pure (f :: outer)
      else f.close before >>= fun a => unwind before stays a outer := by
  cases f <;> rfl

/-- Nothing comes out, and every frame stays. -/
theorem unwind_nothing (frames : List Frame) :
    unwind none (fun _ => true) .nothing frames = pure frames := by
  cases frames with
  | nil => rfl
  | cons f outer => exact unwind_nothing_cons none _ f outer

/-- What comes out of a scope is handed over first. -/
theorem unwind_eq (before : Option Line) (stays : Frame → Bool) (a : Arrival)
    (frames : List Frame) :
    unwind before stays a frames =
      unwind none (fun _ => true) a frames >>= unwind before stays .nothing := by
  induction frames generalizing a with
  | nil =>
    change (a.reachClass >>= fun _ => pure []) = (a.reachClass >>= fun _ => pure []) >>= _
    rw [bind_assoc]
    rfl
  | cons f outer ih =>
    have hstep : (a.excuse >>= fun _ =>
        if stays f then pure (f :: outer)
        else f.close before >>= fun a => unwind before stays a outer) =
        (a.excuse >>= fun _ => pure (f :: outer)) >>= unwind before stays .nothing := by
      rw [bind_assoc]
      cases f <;> rfl
    obtain ⟨_ | ⟨fault, place⟩, held⟩ := a
    · cases f <;> exact hstep
    · cases f with
      | field f =>
        change (Dialogue.leave >>= fun _ =>
            unwind before stays ⟨some (fault, f.opened), []⟩ outer) =
          (Dialogue.leave >>= fun _ =>
            unwind none (fun _ => true) ⟨some (fault, f.opened), []⟩ outer) >>= _
        rw [bind_assoc, ih]
      | _ => exact hstep

/-- The same method stays open after a line of its body. -/
theorem OpenMethod.after_opened (m : OpenMethod) (l : Line) : (m.after l).opened = m.opened := by
  unfold OpenMethod.after
  split
  · rfl
  · split <;> rfl

/-- A line where no frame is open is a line at the level of the class. -/
theorem Control.take_of_frames {c : Control} (h : c.frames = []) (l : Line) :
    c.take l = c.classLine l := by
  obtain ⟨stage, declared, frames⟩ := c
  subst h
  rfl

end Smali
