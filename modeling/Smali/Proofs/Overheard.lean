import Smali.Proofs.LineAccounts
import Smali.Proofs.OneLine

/-!
# What is heard of a reading

A reading may go into scopes that nobody hears, and it may skip a malformed class line. What a
listener hears of its moves are calls all the same: those made outside of such scopes. If each
call could follow where it was made, then the calls that were heard follow on each other.
-/

namespace Smali

namespace Call

/-- The words of a call that tells of a comment. -/
def note? : Call → Option Text
  | .comment text | .eolComment text => some text
  | _ => none

/-- Whether a method has the name and the signature that its declaration spells. -/
def IsSpelled (call : Call) : Prop :=
  ∀ name access signature, call = .method name access signature →
    parseMethodDeclaration (name ++ signature.descriptor) = .ok (name, signature)

/-- Whether a call is written on lines of its own: code takes one line and spells what it
declares, and a comment does not run over the end of its line. -/
structure KeepsToLine (call : Call) : Prop where
  /-- Code is on one line. -/
  code : call.IsOneLine
  /-- A method is what its declaration spells. -/
  spelled : call.IsSpelled
  /-- The words of a comment hold no line end. -/
  note : ∀ text ∈ call.note?, text.IsInline

/-- A call with words has no line of its own. -/
theorem isComment_iff {call : Call} : call.isComment = true ↔ ∃ text, call.note? = some text := by
  cases call <;> simp [isComment, note?]

/-- A comment keeps to its line if its words do. -/
theorem keepsToLine_of_note {call : Call} {text : Text} (hcall : call.note? = some text)
    (htext : text.IsInline) : call.KeepsToLine := by
  refine ⟨fun line hline => ?_, ?_, fun other hother => ?_⟩
  · cases call <;> first | exact absurd hcall (Option.some_ne_none _).symm | cases hline
  · rintro name access signature rfl
    exact nomatch hcall
  · obtain rfl := Option.some.inj (hcall.symm.trans hother)
    exact htext

/-- A call that is no comment keeps to its line if it is code on one line. -/
theorem IsOneLine.keepsToLine {call : Call} (h : call.IsOneLine) (hspelled : call.IsSpelled)
    (hcall : call.isComment = false) : call.KeepsToLine := by
  refine ⟨h, hspelled, fun text htext => ?_⟩
  have := isComment_iff.mpr ⟨text, htext⟩
  exact absurd (hcall.symm.trans this) Bool.false_ne_true

end Call

/-- A line with a method tells what it spells. -/
theorem Line.isSpelled_of_method {l : Line} {m : MethodArguments} (h : l.method = .ok m) :
    (Call.method m.name m.access m.signature).IsSpelled := by
  obtain ⟨⟨access, declaration⟩, -, h⟩ := exists_of_bind_eq_ok h
  obtain ⟨⟨name, signature⟩, hparse, heq⟩ := exists_of_bind_eq_ok h
  cases heq
  cases hp : parseMethodDeclaration declaration with
  | error flaw => rw [hp] at hparse; cases hparse
  | ok found =>
    rw [hp] at hparse
    cases hparse
    intro name access signature hcall
    cases hcall
    rw [← (parseMethodDeclaration_eq_ok_iff.mp hp).2.2.1, hp]

/-! ## Spots -/

/-- Where a reading stands, and how many scopes are open there that nobody hears. -/
structure Spot where
  /-- What the calls that were heard have led to. -/
  site : Site
  /-- How many scopes are open that nobody hears. -/
  hushed : Nat

namespace Spot

/-- The spot after a call that is made there, if it can follow. A comment can always follow, and
so can everything that nobody hears. -/
def next? (validate : Bool) (p : Spot) (call : Call) : Option Spot :=
  match p.hushed with
  | 0 => if call.isComment then some p else (p.site.accept validate call).map (⟨·, 0⟩)
  | outer + 1 =>
    some ⟨p.site, match call with
      | .finish => outer
      | call => if call.opens?.isSome then outer + 2 else outer + 1⟩

/-- What is heard of a call. -/
def heard (p : Spot) (call : Call) : List Call := if p.hushed = 0 then [call] else []

/-- A comment changes nothing. -/
theorem next?_of_isComment (validate : Bool) (p : Spot) {call : Call}
    (h : call.isComment = true) : p.next? validate call = some p := by
  obtain ⟨site, _ | outer⟩ := p
  · exact if_pos h
  · cases call <;> first | rfl | exact absurd h Bool.false_ne_true

/-- A call that is accepted where everything is heard. -/
theorem next?_of_accept {validate : Bool} {s s' : Site} {call : Call}
    (h : s.accept validate call = some s') : next? validate ⟨s, 0⟩ call = some ⟨s', 0⟩ := by
  have hcall := Site.isComment_of_next? (Site.next?_of_accept h)
  unfold next?
  simp only [hcall, Bool.false_eq_true, if_false, h, Option.map_some]

/-- In a site without a class no member is open. -/
def IsProper (p : Spot) : Prop :=
  p.site.phase = .start → p.site.nest = 0 ∧ p.site.host = none

/-- What the site of a spot becomes with a call. -/
theorem site_of_next? {validate : Bool} {p q : Spot} {call : Call}
    (h : p.next? validate call = some q) :
    q.site = p.site ∧ (p.heard call).filter (fun c => !c.isComment) = [] ∨
      p.site.accept validate call = some q.site ∧
        (p.heard call).filter (fun c => !c.isComment) = [call] := by
  obtain ⟨site, _ | outer⟩ := p
  · cases hcall : call.isComment with
    | true =>
      rw [next?_of_isComment validate _ hcall] at h
      obtain rfl := Option.some.inj h
      exact .inl ⟨rfl, by simp [heard, hcall]⟩
    | false =>
      have hmap : (site.accept validate call).map (⟨·, 0⟩) = some q := by
        simpa only [next?, hcall, Bool.false_eq_true, if_false] using h
      obtain ⟨s', hs', rfl⟩ := Option.map_eq_some_iff.mp hmap
      exact .inr ⟨hs', by simp [heard, hcall]⟩
  · obtain rfl := Option.some.inj h
    exact .inl ⟨rfl, rfl⟩

/-- At a proper site only the line of a class follows before the class. -/
theorem IsProper.accept {validate : Bool} {s s' : Site} {hushed : Nat} {call : Call}
    (h : IsProper ⟨s, hushed⟩) (hs : s.accept validate call = some s') :
    s'.phase ≠ .start := by
  intro hphase
  have hbody : ∀ {mid : Site}, mid.phase = .body → mid = s' → False := by
    rintro mid hmid rfl
    exact absurd (hmid.symm.trans hphase) Phase.noConfusion
  have hhost : ∀ {host : Host}, s.phase = s'.phase → s.host = some host → False := by
    intro host hsame hhost
    exact Option.some_ne_none _ (hhost.symm.trans (h (hsame.trans hphase)).2)
  have hnest : ∀ {outer : Nat}, s.phase = s'.phase → s.nest = outer + 1 → False := by
    intro outer hsame hnest
    exact Nat.succ_ne_zero _ (hnest.symm.trans (h (hsame.trans hphase)).1)
  cases Site.step_of_next? (Site.next?_of_accept hs) with
  | header => exact Phase.noConfusion hphase
  | field => exact hbody rfl rfl
  | method => exact hbody rfl rfl
  | annotationOfClass => exact hbody rfl rfl
  | annotationOfField _ hopen => exact hhost rfl hopen
  | endField _ hopen => exact hhost rfl hopen
  | annotationOfMethod _ hopen => exact hhost rfl hopen
  | endMethod _ hopen => exact hhost rfl hopen
  | param _ hopen => exact hhost rfl hopen
  | paramEnd _ hopen => exact hhost rfl hopen
  | body _ hopen => exact hhost rfl hopen
  | value hopen => exact hnest rfl hopen
  | nested hopen => exact hnest rfl hopen
  | annotationEnd hopen => exact hnest rfl hopen

end Spot

/-! ## Moves -/

/-- Moves that lead from one spot to another, and what is heard of them. -/
inductive Overhears (validate : Bool) : Spot → List Move → List Call → Spot → Prop where
  /-- No moves. -/
  | nil {p : Spot} : Overhears validate p [] [] p
  /-- The moves of a call. -/
  | call {p q r : Spot} {call : Call} {moves : List Move} {calls : List Call}
    (hline : call.KeepsToLine) (h : p.next? validate call = some q)
    (hrest : Overhears validate q moves calls r) :
    Overhears validate p (call.moves ++ moves) (p.heard call ++ calls) r
  /-- A scope that nobody hears. -/
  | hush {s : Site} {hushed : Nat} {r : Spot} {moves : List Move} {calls : List Call}
    (hrest : Overhears validate ⟨s, hushed + 1⟩ moves calls r) :
    Overhears validate ⟨s, hushed⟩ (.hush :: moves) calls r
  /-- A class line that is skipped. The reading goes on behind it. -/
  | skipClass {s : Site} {r : Spot} {moves : List Move} {calls : List Call}
    (hphase : s.phase = .start)
    (hrest : Overhears validate ⟨{ s with phase := .header }, 0⟩ moves calls r) :
    Overhears validate ⟨s, 0⟩ moves calls r

namespace Overhears

variable {validate : Bool} {p q r : Spot} {moves more : List Move} {calls told : List Call}

/-- One call. -/
theorem single {call : Call} (hline : call.KeepsToLine) (h : p.next? validate call = some q) :
    Overhears validate p call.moves (p.heard call) q := by
  have hcall := Overhears.call hline h .nil
  rwa [List.append_nil, List.append_nil] at hcall

/-- Moves one after another. -/
theorem append (h : Overhears validate p moves calls q) (h' : Overhears validate q more told r) :
    Overhears validate p (moves ++ more) (calls ++ told) r := by
  induction h with
  | nil => exact h'
  | call hline hcall _ ih =>
    rw [List.append_assoc, List.append_assoc]
    exact .call hline hcall (ih h')
  | hush _ ih => exact .hush (ih h')
  | skipClass hphase _ ih => exact .skipClass hphase (ih h')

/-- All calls that are heard keep to their lines. -/
theorem keepsToLine (h : Overhears validate p moves calls q) :
    ∀ call ∈ calls, call.KeepsToLine := by
  induction h with
  | nil => exact fun call hcall => absurd hcall List.not_mem_nil
  | @call p q r call moves calls hline hcall _ ih =>
    refine List.forall_mem_append.mpr ⟨fun other hother => ?_, ih⟩
    unfold Spot.heard at hother
    split at hother
    · exact List.mem_singleton.mp hother ▸ hline
    · exact absurd hother List.not_mem_nil
  | hush _ ih => exact ih
  | skipClass _ _ ih => exact ih

/-- The calls that are heard follow on each other from where the moves start, or from behind a
class line that was skipped. -/
theorem run (h : Overhears validate p moves calls q) (hp : p.IsProper) :
    ∃ s, (s = p.site ∨ p.site.phase = .start ∧ s = { p.site with phase := .header }) ∧
      s.run validate (calls.filter fun c => !c.isComment) = some q.site := by
  induction h with
  | nil => exact ⟨_, .inl rfl, rfl⟩
  | @call p q r call moves calls hline hcall _ ih =>
    rw [List.filter_append]
    rcases Spot.site_of_next? hcall with ⟨hsite, hheard⟩ | ⟨haccept, hheard⟩
    · rw [hheard, List.nil_append, ← hsite]
      exact ih (by unfold Spot.IsProper; rwa [hsite])
    · have hphase : q.site.phase ≠ .start := hp.accept haccept
      obtain ⟨s, hs, hrun⟩ := ih fun hstart => absurd hstart hphase
      obtain rfl : s = q.site := hs.resolve_right fun hstart => hphase hstart.1
      refine ⟨p.site, .inl rfl, ?_⟩
      rw [hheard, Site.run_append, Site.run_singleton, haccept, Option.bind_some, hrun]
  | hush _ ih => exact ih hp
  | @skipClass s r moves calls hphase _ ih =>
    obtain ⟨s', hs', hrun⟩ := ih fun hstart => Phase.noConfusion hstart
    obtain rfl := hs'.resolve_right fun hstart => Phase.noConfusion hstart.1
    exact ⟨_, .inr ⟨hphase, rfl⟩, hrun⟩

end Overhears

/-! ## Desks -/

namespace Desk

variable {σ κ : Type} (L : Listener σ κ)

/-- A desk in further scopes that nobody hears. -/
def muffled (d : Desk σ κ) (hushed : Nat) : Desk σ κ :=
  { d with scopes := List.replicate hushed none ++ d.scopes }

/-- What nobody hears opens and ends scopes that nobody hears. -/
theorem makeAll_unheard (d : Desk σ κ) {validate : Bool} {s : Site} {outer : Nat} {q : Spot}
    {call : Call} (h : Spot.next? validate ⟨s, outer + 1⟩ call = some q) :
    (d.muffled (outer + 1)).makeAll L call.moves = d.muffled q.hushed := by
  obtain rfl := Option.some.inj h
  cases call <;> rfl

/-- Moves do to a desk what the calls do that are heard of them. -/
theorem makeAll_overheard {validate : Bool} {p q : Spot} {moves : List Move} {calls : List Call}
    (h : Overhears validate p moves calls q) (d : Desk σ κ) :
    (d.muffled p.hushed).makeAll L moves =
      (d.makeAll L (calls.flatMap Call.moves)).muffled q.hushed := by
  induction h generalizing d with
  | nil => rfl
  | @call p q r call moves calls hline hcall _ ih =>
    obtain ⟨s, _ | outer⟩ := p
    · have hheard : (⟨s, 0⟩ : Spot).heard call = [call] := if_pos rfl
      have hq : q.hushed = 0 := by
        cases hcomment : call.isComment with
        | true =>
          rw [Spot.next?_of_isComment validate _ hcomment] at hcall
          exact Option.some.inj hcall ▸ rfl
        | false =>
          simp only [Spot.next?, hcomment, Bool.false_eq_true, if_false] at hcall
          obtain ⟨s', -, rfl⟩ := Option.map_eq_some_iff.mp hcall
          rfl
      rw [makeAll_append, hheard, List.flatMap_append, List.flatMap_singleton, makeAll_append,
        ← ih, hq]
      rfl
    · have hheard : (⟨s, outer + 1⟩ : Spot).heard call = [] := if_neg (Nat.succ_ne_zero outer)
      rw [makeAll_append, hheard, List.nil_append, makeAll_unheard L d hcall, ih]
  | hush _ ih => exact ih d
  | skipClass _ _ ih => exact ih d

end Desk

end Smali
