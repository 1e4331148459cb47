import Smali.Proofs.Paragraphs

/-!
# Blank lines

Whatever calls a writer hears, about a class and in the scopes it hands out, its sheet shows the
paragraphs of the calls about the class. A call moves this on by one step, and so do all moves of
a desk: scopes are entered, left or ignored at any time, with or without their ends being told.
-/

namespace Smali

/-- The call that a move makes, if it makes one. -/
def Move.call? : Move → Option Call
  | .tell call | .enter call => some call
  | .hush | .leave => none

namespace Writer

/-- The calls about a class that open paragraphs, in order. -/
def items (log : List Heard) : List Call :=
  (classCalls log).filter fun call => (item? call).isSome

/-- One more call is heard. -/
theorem items_concat (log : List Heard) (heard : Heard) :
    items (log ++ [heard]) =
      if heard.who = 0 ∧ (item? heard.call).isSome then items log ++ [heard.call]
      else items log := by
  unfold items classCalls
  by_cases hwho : heard.who = 0
  · cases hitem : (item? heard.call).isSome <;> simp [hwho, hitem]
  · simp [hwho]

/-! ## One call -/

/-- Only calls that a class hears open paragraphs. -/
theorem suits_of_item? {call : Call} (h : (item? call).isSome) :
    call.suits .ofClass = true := by
  cases call <;> first | rfl | exact absurd h Bool.false_ne_true

/-- A scope of a class or of anything else stays one. -/
theorem after_eq_ofClass (pen : Pen) (call : Call) :
    pen.after call = .ofClass ↔ pen = .ofClass := by
  cases pen with
  | ofClass => cases call <;> exact Iff.rfl
  | _ => cases call <;> exact iff_of_false nofun nofun

/-- No call opens the scope of a class, and what opens a scope in a class opens a paragraph. -/
theorem cases_of_opened? {pen child : Pen} {call : Call} (h : pen.opened? call = some child)
    (hsuits : call.suits pen.scope = true) :
    child ≠ .ofClass ∧ (pen = .ofClass → (item? call).isSome) := by
  cases call with
  | field name access type value => exact ⟨Option.some.inj h ▸ nofun, fun _ => rfl⟩
  | method name access signature => exact ⟨Option.some.inj h ▸ nofun, fun _ => rfl⟩
  | annotationStart visibility type => exact ⟨Option.some.inj h ▸ nofun, fun _ => rfl⟩
  | subannotationStart name type =>
    refine ⟨Option.some.inj h ▸ nofun, ?_⟩
    rintro rfl
    exact absurd hsuits Bool.false_ne_true
  | _ => exact absurd h (Option.some_ne_none _).symm

/-- What a pen writes opens a paragraph of the class or belongs to the last one. -/
theorem Laid.write {s : Sheet} {calls : List Call} {front : Option Text} {ps : List Paragraph}
    (h : Laid s calls front ps) {pen : Pen} (hpen : pen ≠ .ofClass → calls ≠ []) {call : Call}
    (hcall : call.IsUnbroken) :
    ∃ front' ps', Laid (pen.write call s)
      (if pen = .ofClass ∧ (item? call).isSome then calls ++ [call] else calls) front' ps' := by
  by_cases heol : ∃ text, call = .eolComment text
  · obtain ⟨text, rfl⟩ := heol
    have hlevel : calls = [] → pen.level = 0 := fun hcalls => by
      cases pen with
      | ofClass => rfl
      | _ => exact absurd hcalls (hpen nofun)
    rw [if_neg (by rintro ⟨-, hitem⟩; exact Bool.false_ne_true hitem)]
    have hwrite : pen.write (.eolComment text) s =
        { s with page := s.page.eolComment pen.level text } := by
      cases pen <;> rfl
    rw [hwrite]
    exact h.remark hlevel (hcall text List.mem_cons_self)
  · have hcode : ∀ text, call ≠ .eolComment text := fun text htext => heol ⟨text, htext⟩
    by_cases hclass : pen = .ofClass
    · subst hclass
      rw [write_ofClass s hcode]
      cases hitem : item? call with
      | none =>
        rw [if_neg (by simp)]
        exact ⟨front, ps, h⟩
      | some item =>
        obtain ⟨kind, line⟩ := item
        rw [if_pos (by simp)]
        exact ⟨front, h.item hitem (fillsLines_of_item? hcall hitem)⟩
    · obtain ⟨hlast, hgains⟩ := gains_write hclass hcall hcode s
      have hsheet : pen.write call s = ⟨(pen.write call s).page, s.last⟩ := by rw [← hlast]
      rw [if_neg (fun hboth => hclass hboth.1), hsheet]
      exact ⟨front, h.lines (hpen hclass) hgains⟩

/-! ## All calls -/

section Moves

variable {σ κ : Type}

/-- A handle that a writer has handed out. The class itself has the number zero, and there are
others only where something has been written. -/
def IsHandedOut (log : List Heard) (h : Nat × Handle κ) : Prop :=
  (h.1 = 0 ↔ h.2.pen = .ofClass) ∧ (h.2.pen ≠ .ofClass → items log ≠ [])

/-- A writer whose sheet shows the paragraphs of the calls it has heard. -/
structure Drafted (d : Desk (State σ × List Heard) (Nat × Handle κ)) : Prop where
  /-- The sheet. -/
  laid : ∃ front ps, Laid d.state.1.sheet (items d.state.2) front ps
  /-- The handles of all scopes. -/
  scopes : ∀ h, some h ∈ d.scopes → IsHandedOut d.state.2 h

/-- A handle stays one when more is heard. -/
theorem IsHandedOut.concat {log : List Heard} {h : Nat × Handle κ} (hh : IsHandedOut log h)
    (heard : Heard) : IsHandedOut (log ++ [heard]) h := by
  refine ⟨hh.1, fun hpen => ?_⟩
  rw [items_concat]
  split
  · exact List.append_ne_nil_of_right_ne_nil _ (List.cons_ne_nil _ _)
  · exact hh.2 hpen

/-- The sheet after a call is that of the pen, or nothing was written and nothing heard of a
class. -/
theorem Laid.hear (inner : Listener σ κ) {who : Nat} {h : Handle κ} {s : State σ}
    {log : List Heard} (hh : IsHandedOut log (who, h))
    (hlaid : ∃ front ps, Laid s.sheet (items log) front ps) {call : Call}
    (hcall : call.IsUnbroken) (opened : Option Nat) :
    ∃ front ps, Laid (hear inner h call s).state.sheet (items (log ++ [⟨who, call, opened⟩]))
      front ps := by
  obtain ⟨front, ps, hlaid⟩ := hlaid
  rw [items_concat]
  unfold Writer.hear
  by_cases hsuits : call.suits h.pen.scope = true
  · rw [if_pos hsuits]
    have hwritten := hlaid.write hh.2 hcall
    simp only [← hh.1] at hwritten
    exact hwritten
  · rw [if_neg hsuits, if_neg]
    · exact ⟨front, ps, hlaid⟩
    · rintro ⟨hwho, hitem⟩
      have hpen : h.pen = .ofClass := hh.1.mp hwho
      rw [hpen] at hsuits
      exact hsuits (suits_of_item? hitem)

/-- The handle that a call leaves, and the one it hands out. -/
theorem IsHandedOut.hear (inner : Listener σ κ) {who : Nat} {h : Handle κ} (s : State σ)
    {log : List Heard} (hh : IsHandedOut log (who, h)) (call : Call) (opened : Option Nat) :
    IsHandedOut (log ++ [⟨who, call, opened⟩]) (who, (hear inner h call s).self) ∧
      ∀ child, (hear inner h call s).outcome = .ok (some child) →
        IsHandedOut (log ++ [⟨who, call, opened⟩]) (log.length + 1, child) := by
  have hkept := hh.concat ⟨who, call, opened⟩
  unfold Writer.hear
  by_cases hsuits : call.suits h.pen.scope = true
  · rw [if_pos hsuits]
    have hafter := after_eq_ofClass h.pen call
    refine ⟨⟨hkept.1.trans hafter.symm, fun hpen => hkept.2 (mt hafter.mpr hpen)⟩, ?_⟩
    intro child hchild
    simp only [reply] at hchild
    split at hchild
    · cases hchild
    · cases hchild
    · rename_i found pen' _ hopened
      obtain ⟨slot, -, hslot⟩ := exists_of_map_eq_ok hchild
      obtain rfl := Option.some.inj hslot
      obtain ⟨hpen, hitem⟩ := cases_of_opened? hopened hsuits
      refine ⟨iff_of_false (Nat.succ_ne_zero _) hpen, fun _ => ?_⟩
      by_cases hclass : h.pen = .ofClass
      · rw [items_concat, if_pos ⟨hh.1.mpr hclass, hitem hclass⟩]
        exact List.append_ne_nil_of_right_ne_nil _ (List.cons_ne_nil _ _)
      · exact hkept.2 hclass
  · rw [if_neg hsuits]
    refine ⟨hkept, fun child hchild => ?_⟩
    exact absurd (Except.ok.inj hchild).symm (Option.some_ne_none child)

variable (inner : Listener σ κ) {d : Desk (State σ × List Heard) (Nat × Handle κ)}

/-- A call keeps the sheet in paragraphs, and so it is with the handle it hands out. -/
theorem Drafted.call (h : Drafted d) {call : Call} (hcall : call.IsUnbroken) :
    Drafted (d.call (listener inner).traced call).2 ∧
      ∀ child, (d.call (listener inner).traced call).1 = .ok (some child) →
        IsHandedOut (d.call (listener inner).traced call).2.state.2 child := by
  obtain ⟨⟨state, log⟩, scopes, skipped⟩ := d
  rcases scopes with _ | ⟨_ | ⟨who, handle⟩, outer⟩
  · exact ⟨h, nofun⟩
  · exact ⟨h, nofun⟩
  · have hh := h.scopes (who, handle) List.mem_cons_self
    obtain ⟨hself, hchild⟩ := hh.hear inner state call
      (Listener.numberFor call (hear inner handle call state).outcome (log.length + 1))
    refine ⟨⟨Laid.hear inner hh h.laid hcall _, fun h' hmem => ?_⟩, ?_⟩
    · obtain heq | hmem := List.mem_cons.mp hmem
      · exact Option.some.inj heq ▸ hself
      · exact (h.scopes h' (List.mem_cons_of_mem _ hmem)).concat _
    · rintro ⟨number, child⟩ hopened
      obtain ⟨found, hfound, hmap⟩ := exists_of_map_eq_ok hopened
      obtain ⟨child', rfl, heq⟩ := Option.map_eq_some_iff.mp hmap
      obtain ⟨rfl, rfl⟩ := Prod.mk.inj heq
      exact hchild _ hfound

/-- So does a move. -/
theorem Drafted.make (h : Drafted d) {move : Move} (hmove : ∀ call ∈ move.call?, call.IsUnbroken) :
    Drafted (d.make (listener inner).traced move) := by
  cases move with
  | tell call => exact (h.call inner (hmove call rfl)).1
  | enter call =>
    obtain ⟨hdesk, hopened⟩ := h.call inner (hmove call rfl)
    simp only [Desk.make]
    generalize d.call (listener inner).traced call = r at hdesk hopened
    obtain ⟨_ | opened, d'⟩ := r
    · exact hdesk
    · refine ⟨hdesk.laid, fun h' hmem => ?_⟩
      obtain heq | hmem := List.mem_cons.mp hmem
      · exact hopened h' (congrArg Except.ok heq.symm)
      · exact hdesk.scopes h' hmem
  | hush =>
    refine ⟨h.laid, fun h' hmem => ?_⟩
    obtain heq | hmem := List.mem_cons.mp hmem
    · exact absurd heq (Option.some_ne_none _)
    · exact h.scopes h' hmem
  | leave => exact ⟨h.laid, fun h' hmem => h.scopes h' (List.mem_of_mem_tail hmem)⟩

/-- So do moves one after another. -/
theorem Drafted.makeAll (h : Drafted d) {moves : List Move}
    (hmoves : ∀ move ∈ moves, ∀ call ∈ move.call?, call.IsUnbroken) :
    Drafted (d.makeAll (listener inner).traced moves) := by
  unfold Desk.makeAll
  induction moves generalizing d with
  | nil => exact h
  | cons move moves ih =>
    obtain ⟨hmove, hrest⟩ := List.forall_mem_cons.mp hmoves
    exact ih (h.make inner hmove) hrest

/-- Before anything is written. -/
theorem drafted_initial {root : Handle κ} (hroot : root.pen = .ofClass) (state : σ) :
    Drafted (Desk.initial (0, root) (State.initial state, [])) := by
  refine ⟨⟨none, [], laid_blank⟩, fun h hmem => ?_⟩
  obtain rfl := Option.some.inj (List.mem_singleton.mp hmem)
  exact ⟨iff_of_true rfl hroot, fun hpen => absurd hroot hpen⟩

/-- Whatever a fresh writer and the scopes it hands out are told, in texts without line ends, its
code is the paragraphs of the calls about the class, each in front of all that was told after it.
An empty line stands between two paragraphs where the first is of the header or a member and the
second a member or a comment, and nowhere else. -/
theorem code_in_paragraphs (inner : Listener σ κ) {root : Handle κ} (hroot : root.pen = .ofClass)
    (state : σ) {moves : List Move}
    (hmoves : ∀ move ∈ moves, ∀ call ∈ move.call?, call.IsUnbroken) :
    let d := (Desk.initial (0, root) (State.initial state, [])).makeAll (listener inner).traced moves
    ∃ (front : Option Text) (ps : List Paragraph),
      d.state.1.code = Text.unlines (front.toList ++ layout .nothing ps) ∧
      Spaced (front.toList ++ layout .nothing ps) ∧
      List.Forall₂ Paragraph.Tells ps (items d.state.2) ∧
      (∀ p ∈ ps, ∀ l ∈ p.lines, l.IsFull) ∧
      ∀ l ∈ front, l.IsInline ∧ ∃ more, l = '#' :: more := by
  intro d
  have hdrafted : Drafted d := (drafted_initial hroot state).makeAll inner hmoves
  obtain ⟨front, ps, hlaid⟩ := hdrafted.laid
  exact ⟨front, ps, hlaid.shows.contents, hlaid.spaced, hlaid.tells, hlaid.full, hlaid.front⟩

/-- The moves of a class with a comment in front of it, a field with an open annotation, and a
method behind a comment. -/
def draftMoves : List Move :=
  [.tell (.eolComment "draft"), .tell (.header (.object "a") .none),
    .enter (.field "f" .none (.object "b") none),
    .enter (.annotationStart .runtime (.object "c")),
    .tell (.value "x" (.annotated (.object "d") [("y", .bool true)])), .leave,
    .tell (.eolComment "open"), .leave, .tell (.comment "next"), .tell (.eolComment "or not"),
    .enter (.method "m" .none ⟨[], .void⟩), .tell .finish, .leave]

/-- An annotation that nobody ends, and the comments behind lines. -/
theorem code_in_paragraphs_draft :
    let d := (Desk.initial (0, root) (State.initial (), [])).makeAll (listener .discard).traced
      draftMoves
    (∀ move ∈ draftMoves, ∀ call ∈ move.call?, call.IsUnbroken) ∧
      d.state.1.code = Text.unlines
        ["# draft", ".class La;", "", ".field f:Lb;", "    .annotation runtime Lc;",
          "        x = .subannotation Ld;", "            y = true",
          "        .end subannotation # open", "", "# next # or not", ".method m()V",
          ".end method"] ∧
      ∃ (front : Option Text) (ps : List Paragraph),
        d.state.1.code = Text.unlines (front.toList ++ layout .nothing ps) ∧
        Spaced (front.toList ++ layout .nothing ps) ∧
        List.Forall₂ Paragraph.Tells ps (items d.state.2) ∧
        (∀ p ∈ ps, ∀ l ∈ p.lines, l.IsFull) ∧
        ∀ l ∈ front, l.IsInline ∧ ∃ more, l = '#' :: more :=
  have hplain : ∀ move ∈ draftMoves, ∀ call ∈ move.call?, call.IsUnbroken := by decide
  ⟨hplain, by decide +kernel, code_in_paragraphs .discard rfl () hplain⟩

end Moves

end Writer

end Smali
