import Smali.Proofs.CommentAccounts
import Smali.Proofs.InkedPages

/-!
# Calls as their code shows them

Not all that is told of comments can be seen in the code. Two comments on one line are one
comment, and a comment behind the end of a field without annotations stands behind the field. If no
comment is held in such a field, other calls have the same code, and each comment of them is where
a reader finds it: behind the lines of a call or on a line of its own.
-/

namespace Smali

/-! ## Comments behind comments -/

namespace Page

/-- The words of a comment with another one behind it. -/
def joined (first second : Text) : Text :=
  if first.isEmpty then comment second else first ++ ' ' :: comment second

/-- Two comments on one line are one comment. -/
theorem comment_joined (first second : Text) :
    comment (joined first second) = comment first ++ ' ' :: comment second := by
  have hne : (comment second).isEmpty = false := by
    unfold comment
    split <;> rfl
  unfold joined
  split
  · next h =>
    have hfirst : comment first = ['#'] := if_pos h
    rw [hfirst, comment.eq_def (comment second), hne]
    rfl
  · next h =>
    have hfirst : comment first = '#' :: ' ' :: first := if_neg h
    have happend : (first ++ ' ' :: comment second).isEmpty = false := by simp
    rw [hfirst, comment.eq_def (first ++ ' ' :: comment second), happend]
    rfl

variable {p : Page}

/-- A comment behind a line that was just started. -/
theorem eolComment_line (p : Page) (level level' : Nat) (text words : Text) :
    (p.line level text).eolComment level' words = p.line level (text ++ ' ' :: comment words) := by
  simp [eolComment, line, append]

/-- A comment behind a comment that was put behind a line. -/
theorem eolComment_eolComment (p : Page) (level level' : Nat) (first second : Text) :
    (p.eolComment level first).eolComment level' second =
      p.eolComment level (joined first second) := by
  cases hopen : p.isOpen with
  | false =>
    have hline : ∀ words, p.eolComment level words = p.line level (comment words) := fun words =>
      if_neg (by simp [hopen])
    rw [hline, hline, eolComment_line, comment_joined]
  | true => simp [eolComment, hopen, append, comment_joined]

/-- Behind a comment the line is open. -/
theorem isOpen_eolComment (p : Page) (level : Nat) (words : Text) :
    (p.eolComment level words).isOpen = true := by
  unfold eolComment
  split
  · assumption
  · rfl

end Page

/-- The words of both are words. -/
theorem Text.IsNote.joined {first second : Text} (h : first.IsNote) (h' : second.IsNote) :
    (Page.joined first second).IsNote := by
  obtain ⟨hinline, hne⟩ := Writer.isFull_comment h'.inline
  have htrimmed : ∀ t : Text, trimRight (t ++ Page.comment second) = t ++ Page.comment second := by
    intro t
    have hlast : ∀ c ∈ (t ++ Page.comment second).getLast?, isBlank c = false := by
      rw [List.getLast?_append_of_ne_nil t hne]
      exact h'.isTrimmed_comment.2
    have hwhole := trimRight_append_of_last hlast []
    rw [List.append_nil] at hwhole
    exact hwhole.trans (List.append_nil _)
  unfold Page.joined
  split
  · exact ⟨hinline, htrimmed []⟩
  · have happend :
        first ++ ' ' :: Page.comment second = (first ++ [' ']) ++ Page.comment second := by
      simp
    rw [happend]
    exact ⟨isInline_append.mpr ⟨isInline_append.mpr ⟨h.inline, by decide⟩, hinline⟩, htrimmed _⟩

namespace Writer

/-- A comment behind a comment, for every pen. -/
theorem write_eolComment (pen : Pen) (sheet : Sheet) (first second : Text) :
    pen.write (.eolComment second) (pen.write (.comment first) sheet) =
        pen.write (.comment (Page.joined first second)) sheet ∧
      pen.write (.eolComment second) (pen.write (.eolComment first) sheet) =
        pen.write (.eolComment (Page.joined first second)) sheet := by
  refine ⟨?_, congrArg (Sheet.mk · _) (Page.eolComment_eolComment _ _ _ _ _)⟩
  cases pen <;> exact congrArg (Sheet.mk · _)
    ((Page.eolComment_line _ _ _ _ _).trans (by rw [Page.comment_joined]))

variable {d : Desk (State Unit) (Handle Unit)}

/-- A comment behind a comment, for every writer. -/
theorem makeAll_joined {nest : Nat} {host : Option Host} (h : Penned d.scopes nest host)
    {call call' : Call} {first second : Text}
    (hcall : call = .comment first ∧ call' = .comment (Page.joined first second) ∨
      call = .eolComment first ∧ call' = .eolComment (Page.joined first second)) :
    (d.makeAll (listener .discard) call.moves).makeAll (listener .discard)
        (Call.eolComment second).moves = d.makeAll (listener .discard) call'.moves := by
  obtain ⟨pen, slot, outer, hscopes, hslot⟩ := h.exists_pen
  obtain ⟨hjoin, hjoin'⟩ := write_eolComment pen d.state.sheet first second
  have hbehind : ∀ sheet,
      Desk.makeAll (listener .discard) { d with state := ⟨sheet, d.state.inner⟩ }
        (Call.eolComment second).moves =
        { d with state := ⟨pen.write (.eolComment second) sheet, d.state.inner⟩ } :=
    fun sheet => makeAll_remark (d := { d with state := ⟨sheet, d.state.inner⟩ }) hscopes hslot rfl
  obtain ⟨rfl, rfl⟩ | ⟨rfl, rfl⟩ := hcall
  · rw [makeAll_remark hscopes hslot rfl, makeAll_remark hscopes hslot rfl, hbehind, hjoin]
  · rw [makeAll_remark hscopes hslot rfl, makeAll_remark hscopes hslot rfl, hbehind, hjoin']

/-- The end of a field without annotations can wait until a comment is written. -/
theorem makeAll_eolComment_finish (h : Penned d.scopes 0 (some (.field false)))
    (hopen : d.state.sheet.page.isOpen = true) (words : Text) :
    (d.makeAll (listener .discard) Call.finish.moves).makeAll (listener .discard)
        (Call.eolComment words).moves =
      (d.makeAll (listener .discard) (Call.eolComment words).moves).makeAll (listener .discard)
        Call.finish.moves := by
  obtain ⟨⟨sheet, inner⟩, scopes, skipped⟩ := d
  dsimp only at h hopen
  have hpage : ∀ level, sheet.page.eolComment level words =
      sheet.page.append (' ' :: Page.comment words) := fun level => if_pos hopen
  cases h with
  | ofField slot hslot annotated houter =>
    obtain ⟨pen, slot', outer, rfl, hslot'⟩ := houter.exists_pen
    have hfinish : ∀ sheet : Sheet,
        Desk.makeAll (listener .discard) ⟨⟨sheet, inner⟩,
          some ⟨.ofField false, slot⟩ :: some ⟨pen, slot'⟩ :: outer, skipped⟩ Call.finish.moves =
        ⟨⟨sheet, inner⟩, some ⟨pen, slot'⟩ :: outer, skipped⟩ := by
      intro sheet
      have hmake : ∀ d : Desk (State Unit) (Handle Unit),
          d.makeAll (listener .discard) Call.finish.moves =
            (d.make (listener .discard) (.tell .finish)).make (listener .discard) .leave :=
        fun _ => rfl
      rw [hmake, make_tell rfl hslot rfl]
      rfl
    have hremark : ∀ {pen : Pen} {slot : Slot Unit} {scopes : List (Option (Handle Unit))},
        slot.delegate = none →
        Desk.makeAll (listener .discard) ⟨⟨sheet, inner⟩, some ⟨pen, slot⟩ :: scopes, skipped⟩
          (Call.eolComment words).moves =
        ⟨⟨pen.write (.eolComment words) sheet, inner⟩, some ⟨pen, slot⟩ :: scopes, skipped⟩ :=
      fun hslot => makeAll_remark rfl hslot rfl
    rw [hfinish, hremark hslot', hremark hslot, hfinish]
    simp only [Pen.write, hpage]

end Writer

/-! ## Noted calls -/

namespace Call

/-- What is known of the field that the last call was made in, as long as the field has no
annotation: whether a comment on a line of its own was told in it. -/
def heldIn (held : Option Bool) : Call → Option Bool
  | .field _ _ _ _ => some false
  | .comment _ => held.map fun _ => true
  | .eolComment _ => held
  | _ => none

/-- Whether a field ends without annotations behind a comment on a line of its own, with what is
known of the field that is open at the start. -/
def holdFrom (held : Option Bool) : List Call → Bool
  | [] => false
  | call :: rest =>
    (decide (held = some true) && decide (call.kind = .finish)) || holdFrom (call.heldIn held) rest

end Call

/-- Whether a comment is held in a field without annotations: it stands there on a line of its
own. -/
def HoldsComment (calls : List Call) : Prop := Call.holdFrom none calls = true

instance (calls : List Call) : Decidable (HoldsComment calls) :=
  inferInstanceAs (Decidable (Call.holdFrom none calls = true))

/-- What comes later does not matter to what is held. -/
theorem Call.holdFrom_append (held : Option Bool) (first second : List Call) :
    holdFrom held (first ++ second) =
      (holdFrom held first || holdFrom (first.foldl heldIn held) second) := by
  induction first generalizing held with
  | nil => rw [List.nil_append, holdFrom, Bool.false_or, List.foldl_nil]
  | cons call first ih =>
    rw [List.cons_append, holdFrom, holdFrom, ih, Bool.or_assoc, List.foldl_cons]

namespace Site

/-- Whether a call has no line: it ends a field without annotations. -/
def IsMute (s : Site) (call : Call) : Prop := call = .finish ∧ s.closingText? = none

instance (s : Site) (call : Call) : Decidable (s.IsMute call) :=
  decidable_of_iff (call.kind = .finish ∧ s.closingText? = none)
    (and_congr_left' ⟨Call.eq_finish_of_kind, fun h => h ▸ rfl⟩)

variable {validate : Bool} {s s' : Site} {call : Call}

/-- Where a call has no line a field without annotations is open. -/
theorem IsMute.host (h : s.IsMute call) (hcall : s.accept validate call = some s') :
    s.nest = 0 ∧ s.host = some (.field false) := by
  obtain ⟨rfl, hnone⟩ := h
  unfold closingText? at hnone
  cases step_of_next? (next?_of_accept hcall) with
  | header _ _ hheader => exact absurd hheader Bool.noConfusion
  | body _ _ hbody => exact absurd hbody Bool.noConfusion
  | @endField annotated hnest hhost =>
    cases annotated with
    | false => exact ⟨hnest, hhost⟩
    | true => simp [hnest, hhost] at hnone
  | endMethod hnest hhost => simp [hnest, hhost] at hnone
  | @annotationEnd outer hnest => cases outer <;> simp [hnest] at hnone

/-- Behind it the class is open. -/
theorem IsMute.host_after (h : s.IsMute call) (hcall : s.accept validate call = some s') :
    s'.host = none := by
  obtain ⟨hnest, hhost⟩ := h.host hcall
  obtain ⟨rfl, -⟩ := h
  obtain rfl := Option.some.inj ((accept_endField validate hnest hhost).symm.trans hcall)
  rfl

/-- It has no code lines. -/
theorem IsMute.codeLines (h : s.IsMute call) : s.codeLines call = [] := by
  obtain ⟨rfl, hnone⟩ := h
  rw [Site.codeLines, hnone, Option.toList_none]

end Site

/-- Calls with comments that stand where a reader finds them, from a site to another. A comment
behind code follows a call with a line, and no field without annotations ends behind a comment on
a line of its own. -/
inductive Noted (validate : Bool) (first : Site) : List Call → Site → Prop where
  /-- No calls. -/
  | nil : Noted validate first [] first
  /-- A comment on a line of its own. -/
  | note {calls : List Call} {s : Site} {text : Text} (h : Noted validate first calls s)
    (ht : text.IsNote) : Noted validate first (calls ++ [.comment text]) s
  /-- A call without a comment behind it. -/
  | code {calls : List Call} {s s' : Site} {call : Call} (h : Noted validate first calls s)
    (hcall : s.accept validate call = some s') (hone : call.IsOneLine)
    (hmute : s.IsMute call → ∀ text, calls.getLast? ≠ some (.comment text)) :
    Noted validate first (calls ++ [call]) s'
  /-- A call with a comment behind it. -/
  | remarked {calls : List Call} {s s' : Site} {call : Call} {text : Text}
    (h : Noted validate first calls s) (hcall : s.accept validate call = some s')
    (hone : call.IsOneLine) (hline : ¬s.IsMute call) (ht : text.IsNote) :
    Noted validate first (calls ++ [call, .eolComment text]) s'

namespace Writer

/-- A writer behind certain calls. -/
def behind (d : Desk (State Unit) (Handle Unit)) (calls : List Call) :
    Desk (State Unit) (Handle Unit) :=
  d.makeAll (listener .discard) (calls.flatMap Call.moves)

variable (d : Desk (State Unit) (Handle Unit))

/-- Calls in two portions. -/
theorem behind_append (calls more : List Call) :
    behind d (calls ++ more) = behind (behind d calls) more := by
  unfold behind
  rw [List.flatMap_append, Desk.makeAll_append]

/-- One call. -/
theorem behind_singleton (call : Call) :
    behind d [call] = d.makeAll (listener .discard) call.moves := by
  rw [behind, List.flatMap_singleton]

/-- Two calls. -/
theorem behind_pair (call call' : Call) :
    behind d [call, call'] =
      (d.makeAll (listener .discard) call.moves).makeAll (listener .discard) call'.moves := by
  rw [← behind_singleton, ← behind_singleton, ← behind_append]
  rfl

end Writer

namespace Noted

variable {validate : Bool} {first s : Site} {calls : List Call}
  {d : Desk (Writer.State Unit) (Writer.Handle Unit)}

/-- No comment can be accepted. -/
theorem isComment_of_accept {s s' : Site} {call : Call} (h : s.accept validate call = some s') :
    call.isComment = false :=
  Site.isComment_of_run ((Site.run_singleton validate s call).trans h) call List.mem_cons_self

/-- The calls follow on each other, comments aside. -/
theorem run (h : Noted validate first calls s) :
    first.run validate (calls.filter fun c => !c.isComment) = some s := by
  have hstep : ∀ {calls : List Call} {s s' : Site} {call : Call} {notes : List Call},
      first.run validate (calls.filter fun c => !c.isComment) = some s →
      s.accept validate call = some s' → (∀ note ∈ notes, note.isComment = true) →
      first.run validate ((calls ++ call :: notes).filter fun c => !c.isComment) = some s' := by
    intro calls s s' call notes hrun hcall hnotes
    rw [List.filter_append, List.filter_cons_of_pos (by simp [isComment_of_accept hcall]),
      Watch.filter_of_isComment hnotes, Site.run_append, hrun, Option.bind_some,
      Site.run_singleton, hcall]
  induction h with
  | nil => rfl
  | note h ht ih =>
    rw [List.filter_append, Watch.filter_of_isComment (List.forall_mem_singleton.mpr rfl),
      List.append_nil, ih]
  | code h hcall hone hmute ih => exact hstep ih hcall (List.forall_mem_nil _)
  | remarked h hcall hone hline ht ih => exact hstep ih hcall (List.forall_mem_singleton.mpr rfl)

/-- A writer behind the calls stands where they lead. -/
theorem exists_wrote (h : Noted validate first calls s) (hd : Writer.Wrote d first []) :
    ∃ lines, Writer.Wrote (Writer.behind d calls) s lines := by
  have hremark : ∀ {d : Desk (Writer.State Unit) (Writer.Handle Unit)} {s : Site} {lines : List Text}
      {call : Call} {text : Text}, Writer.Wrote d s lines → call.note? = some text →
      text.IsInline → ∃ lines', Writer.Wrote (d.makeAll (Writer.listener .discard) call.moves) s
        lines' := by
    intro d s lines call text h hcall htext
    have hink : ∀ t ∈ lines, t.StartsInk := fun t ht =>
      Text.startsInk_of_mem_codeLines (h.holds.codeLines ▸ ht)
    obtain ⟨lines', hwrote, -⟩ := h.remark (.refl hink) hcall htext
    exact ⟨lines', hwrote⟩
  induction h with
  | nil => exact ⟨[], hd⟩
  | note h ht ih =>
    obtain ⟨lines, hlines⟩ := ih
    rw [Writer.behind_append, Writer.behind_singleton]
    exact hremark hlines rfl ht.inline
  | code h hcall hone hmute ih =>
    obtain ⟨lines, hlines⟩ := ih
    rw [Writer.behind_append, Writer.behind_singleton]
    exact ⟨_, hlines.call (Site.next?_of_accept hcall)⟩
  | remarked h hcall hone hline ht ih =>
    obtain ⟨lines, hlines⟩ := ih
    rw [Writer.behind_append, Writer.behind_pair]
    exact hremark (hlines.call (Site.next?_of_accept hcall)) rfl ht.inline

/-- Calls that are read in their place with one more comment behind the last line. -/
structure Remarks (validate : Bool) (first s : Site)
    (d : Desk (Writer.State Unit) (Writer.Handle Unit)) (calls : List Call) (words : Text) (calls' : List Call) : Prop where
  /-- The comments stand where a reader finds them. -/
  noted : Noted validate first calls' s
  /-- The other calls are the same. -/
  code : (calls'.filter fun c => !c.isComment) = calls.filter fun c => !c.isComment
  /-- There are calls. -/
  ne_nil : calls' ≠ []
  /-- A comment on a line of its own is the last call only if one was. -/
  last : ∀ text, calls'.getLast? = some (.comment text) →
    ∃ text, calls.getLast? = some (.comment text)
  /-- A writer is at the same place. -/
  behind_eq : Writer.behind d calls' = Writer.behind d (calls ++ [.eolComment words])

/-- Of the calls two portions are told apart by their comments alone. -/
theorem filter_append_congr {more more' : List Call}
    (h : (more'.filter fun c => !c.isComment) = more.filter fun c => !c.isComment) :
    ((calls ++ more').filter fun c => !c.isComment) =
      (calls ++ more).filter fun c => !c.isComment := by
  rw [List.filter_append, List.filter_append, h]

/-- A comment behind two calls, where the second is a comment already. -/
theorem behind_joined {call : Call} {s' : Site} {lines : List Text}
    (hwrote : Writer.Wrote (Writer.behind d calls) s lines)
    (hcall : s.accept validate call = some s') (text words : Text) :
    Writer.behind d (calls ++ [call, .eolComment (Page.joined text words)]) =
      Writer.behind d (calls ++ [call, .eolComment text] ++ [.eolComment words]) := by
  have hpenned := (hwrote.call (Site.next?_of_accept hcall)).penned
  rw [Writer.behind_append, Writer.behind_append, Writer.behind_append, Writer.behind_pair,
    Writer.behind_pair, Writer.behind_singleton]
  exact (Writer.makeAll_joined hpenned (.inr ⟨rfl, rfl⟩)).symm

/-- A comment that is told behind the end of a field without annotations is written behind the line
of the field. -/
theorem remarks_mute {s' : Site} (h : Noted validate first calls s)
    (hcall : s.accept validate .finish = some s') (hmute : s.IsMute .finish)
    (hlast : ∀ text, calls.getLast? ≠ some (.comment text)) (hfirst : first.host = none)
    (hd : Writer.Wrote d first []) {words : Text} (hwords : words.IsNote) :
    ∃ calls', Remarks validate first s' d (calls ++ [.finish]) words calls' := by
  obtain ⟨hnest, hhost⟩ := hmute.host hcall
  have hone : Call.finish.IsOneLine := isOneLine_of_line?_eq_none rfl
  have hends : ∀ (calls : List Call) (call : Call) (words text : Text),
      (calls ++ [call, .eolComment words]).getLast? ≠ some (.comment text) := by
    intro calls call words text
    rw [List.append_cons, List.getLast?_concat]
    exact nofun
  cases h with
  | nil => exact absurd (hhost.symm.trans hfirst) nofun
  | note h ht => exact absurd List.getLast?_concat (hlast _)
  | @code calls s₀ _ call h hcall₀ hone₀ hmute₀ =>
    obtain ⟨lines, hlines⟩ := h.exists_wrote hd
    have hline : ¬s₀.IsMute call := fun hmute =>
      absurd (hhost.symm.trans (hmute.host_after hcall₀)) nofun
    have hnext := Site.next?_of_accept hcall₀
    have hpenned := (hlines.call hnext).penned
    have hink := hlines.endsInk hnext hone₀ (isComment_of_accept hcall₀)
      fun heq hnone => hline ⟨heq, hnone⟩
    rw [hnest, hhost] at hpenned
    refine ⟨calls ++ [call, .eolComment words] ++ [.finish],
      (h.remarked hcall₀ hone₀ hline hwords).code hcall hone fun _ => hends _ _ _, ?_, by simp,
      fun text htext => ?_, ?_⟩
    · rw [List.append_assoc, List.append_assoc]
      exact filter_append_congr rfl
    · rw [List.getLast?_concat] at htext
      exact nomatch htext
    · simp only [Writer.behind_append, Writer.behind_pair, Writer.behind_singleton]
      exact (Writer.makeAll_eolComment_finish hpenned hink.isOpen words).symm
  | @remarked calls s₀ _ call text h hcall₀ hone₀ hline ht =>
    obtain ⟨lines, hlines⟩ := h.exists_wrote hd
    have hpenned := (hlines.call (Site.next?_of_accept hcall₀)).penned
    have hjoined := behind_joined hlines hcall₀ text words
    rw [hnest, hhost] at hpenned
    refine ⟨calls ++ [call, .eolComment (Page.joined text words)] ++ [.finish],
      (h.remarked hcall₀ hone₀ hline (ht.joined hwords)).code hcall hone fun _ => hends _ _ _, ?_,
      by simp, fun text htext => ?_, ?_⟩
    · rw [List.append_assoc, List.append_assoc]
      exact filter_append_congr rfl
    · rw [List.getLast?_concat] at htext
      exact nomatch htext
    · rw [Writer.behind_append, hjoined]
      simp only [Writer.behind_append, Writer.behind_pair, Writer.behind_singleton]
      obtain ⟨pen, slot, outer, hscopes, hslot⟩ := hpenned.exists_pen
      have hremark :=
        Writer.makeAll_remark hscopes hslot (rfl : (Call.eolComment text).isComment = true)
      refine (Writer.makeAll_eolComment_finish ?_ ?_ words).symm
      · rwa [hremark]
      · rw [hremark]
        exact Page.isOpen_eolComment _ _ _

/-- A comment behind code comes to stand behind the last line. -/
theorem exists_remarks (h : Noted validate first calls s) (hne : calls ≠ [])
    (hfirst : first.host = none) (hd : Writer.Wrote d first []) {words : Text}
    (hwords : words.IsNote) : ∃ calls', Remarks validate first s d calls words calls' := by
  cases h with
  | nil => exact absurd rfl hne
  | @note calls s text h ht =>
    obtain ⟨lines, hlines⟩ := h.exists_wrote hd
    refine ⟨calls ++ [.comment (Page.joined text words)], h.note (ht.joined hwords),
      filter_append_congr rfl, by simp, fun _ _ => ⟨text, List.getLast?_concat⟩, ?_⟩
    rw [List.append_assoc, Writer.behind_append, Writer.behind_append, Writer.behind_singleton]
    refine ((Writer.behind_pair _ _ _).trans ?_).symm
    exact Writer.makeAll_joined hlines.penned (.inl ⟨rfl, rfl⟩)
  | @code calls s' _ call h hcall hone hmute =>
    by_cases hline : s'.IsMute call
    · obtain ⟨rfl, -⟩ := id hline
      exact remarks_mute h hcall hline (hmute hline) hfirst hd hwords
    · refine ⟨calls ++ [call, .eolComment words], h.remarked hcall hone hline hwords,
        filter_append_congr rfl, by simp, fun text htext => ?_, by simp⟩
      rw [List.append_cons, List.getLast?_concat] at htext
      exact nomatch htext
  | @remarked calls s' _ call text h hcall hone hline ht =>
    obtain ⟨lines, hlines⟩ := h.exists_wrote hd
    refine ⟨calls ++ [call, .eolComment (Page.joined text words)],
      h.remarked hcall hone hline (ht.joined hwords), filter_append_congr rfl, by simp,
      fun text htext => ?_, behind_joined hlines hcall text words⟩
    rw [List.append_cons, List.getLast?_concat] at htext
    exact nomatch htext

end Noted

/-! ## Settling comments -/

/-- Calls that are told and calls with the same code whose comments a reader finds in their
places. -/
structure Settles (validate : Bool) (first s : Site)
    (d : Desk (Writer.State Unit) (Writer.Handle Unit)) (told calls : List Call) : Prop where
  /-- The comments stand where a reader finds them. -/
  noted : Noted validate first calls s
  /-- The other calls are those that are told. -/
  code : (calls.filter fun c => !c.isComment) = told.filter fun c => !c.isComment
  /-- There are calls if something is told. -/
  ne_nil : told ≠ [] → calls ≠ []
  /-- An annotation in a field is noted with the field. -/
  proper : s.IsProper
  /-- What is known of a field that has no annotations. -/
  held : s.nest = 0 → s.host = some (.field false) →
    ∃ held, told.foldl Call.heldIn none = some held ∧
      ((∃ text, calls.getLast? = some (.comment text)) → held = true)
  /-- A writer is at the same place. -/
  behind_eq : Writer.behind d calls = Writer.behind d told

namespace Settles

variable {validate : Bool} {first s : Site} {told calls : List Call}
  {d : Desk (Writer.State Unit) (Writer.Handle Unit)}

/-- One more comment on a line of its own. -/
theorem note (h : Settles validate first s d told calls) {text : Text} (ht : text.IsNote) :
    Settles validate first s d (told ++ [.comment text]) (calls ++ [.comment text]) := by
  refine ⟨h.noted.note ht, ?_, fun _ => by simp, h.proper, fun hnest hhost => ?_, ?_⟩
  · rw [List.filter_append, List.filter_append, h.code]
  · obtain ⟨held, hheld, -⟩ := h.held hnest hhost
    refine ⟨true, ?_, fun _ => rfl⟩
    rw [List.foldl_concat, hheld]
    rfl
  · rw [Writer.behind_append, h.behind_eq, Writer.behind_append]

/-- One more comment behind code. -/
theorem eolNote (h : Settles validate first s d told calls) (htold : told ≠ [])
    (hfirst : first.host = none) (hd : Writer.Wrote d first []) {text : Text} (ht : text.IsNote) :
    ∃ calls', Settles validate first s d (told ++ [.eolComment text]) calls' := by
  obtain ⟨calls', hnoted, hcode, hne, hlast, hbehind⟩ :=
    h.noted.exists_remarks (h.ne_nil htold) hfirst hd ht
  refine ⟨calls', hnoted, ?_, fun _ => hne, h.proper, fun hnest hhost => ?_, ?_⟩
  · rw [hcode, h.code, List.filter_append, Watch.filter_of_isComment
      (List.forall_mem_singleton.mpr rfl), List.append_nil]
  · obtain ⟨held, hheld, hcomment⟩ := h.held hnest hhost
    refine ⟨held, ?_, fun ⟨text, htext⟩ => hcomment (hlast text htext)⟩
    rw [List.foldl_concat, hheld]
    rfl
  · rw [hbehind, Writer.behind_append, h.behind_eq, Writer.behind_append]

/-- One more call that is no comment. -/
theorem code_call (h : Settles validate first s d told calls) {s' : Site} {call : Call}
    (hcall : s.accept validate call = some s') (hone : call.IsOneLine)
    (hheld : Call.holdFrom none (told ++ [call]) = false) :
    Settles validate first s' d (told ++ [call]) (calls ++ [call]) := by
  obtain ⟨hproper, hfield, -⟩ := h.proper.next (Site.next?_of_accept hcall)
  refine ⟨h.noted.code hcall hone fun hmute text htext => ?_, ?_, fun _ => by simp, hproper,
    fun hnest hhost => ?_, ?_⟩
  · obtain ⟨hnest, hhost⟩ := hmute.host hcall
    obtain ⟨held, hfold, hcomment⟩ := h.held hnest hhost
    obtain rfl := hcomment ⟨text, htext⟩
    obtain ⟨rfl, -⟩ := hmute
    rw [Call.holdFrom_append, hfold] at hheld
    simp [Call.holdFrom, Call.kind] at hheld
  · rw [List.filter_append, List.filter_append, h.code]
  · have hopens := hfield.mpr ⟨hnest, hhost⟩
    refine ⟨false, ?_, ?_⟩
    · rw [List.foldl_concat]
      cases call <;> first | rfl | cases hopens
    · rintro ⟨text, htext⟩
      rw [List.getLast?_concat] at htext
      obtain rfl := Option.some.inj htext
      cases hopens
  · rw [Writer.behind_append, h.behind_eq, Writer.behind_append]

end Settles

/-- Whatever is told, other calls have the same code, and the comments of these stand where a reader
finds them, if no comment is held in a field without annotations. -/
theorem exists_settles {validate : Bool} {first s : Site} {told : List Call}
    {d : Desk (Writer.State Unit) (Writer.Handle Unit)} (hd : Writer.Wrote d first [])
    (hfirst : first.host = none) (hnotes : ∀ call ∈ told, ∀ text ∈ call.note?, text.IsNote)
    (hone : ∀ call ∈ told, call.IsOneLine) (hhead : told.head?.map Call.kind ≠ some .eolComment)
    (hheld : ¬HoldsComment told)
    (hrun : first.run validate (told.filter fun c => !c.isComment) = some s) :
    ∃ calls, Settles validate first s d told calls := by
  unfold HoldsComment at hheld
  rw [Bool.not_eq_true] at hheld
  induction told using List.reverseRecOn generalizing s with
  | nil =>
    obtain rfl := Option.some.inj hrun
    exact ⟨[], .nil, rfl, id, fun _ hhost => absurd (hhost.symm.trans hfirst) nofun,
      fun _ hhost => absurd (hhost.symm.trans hfirst) nofun, rfl⟩
  | append_singleton told call ih =>
    obtain ⟨hnotes, hnote⟩ := List.forall_mem_append.mp hnotes
    obtain ⟨hone, hcall⟩ := List.forall_mem_append.mp hone
    have hbefore : Call.holdFrom none told = false := by
      rw [Call.holdFrom_append, Bool.or_eq_false_iff] at hheld
      exact hheld.1
    have hfirstTold : told.head?.map Call.kind ≠ some .eolComment := by
      cases told with
      | nil => exact nofun
      | cons next told => exact hhead
    rw [List.filter_append, Site.run_append] at hrun
    obtain ⟨mid, hmid, hlast⟩ := Option.bind_eq_some_iff.mp hrun
    obtain ⟨calls, hcalls⟩ := ih hnotes hone hfirstTold hbefore hmid
    cases hcomment : call.isComment with
    | true =>
      rw [Watch.filter_of_isComment (List.forall_mem_singleton.mpr hcomment)] at hlast
      obtain rfl := Option.some.inj hlast
      cases call with
      | comment text => exact ⟨_, hcalls.note (hnote _ List.mem_cons_self text rfl)⟩
      | eolComment text =>
        refine hcalls.eolNote ?_ hfirst hd (hnote _ List.mem_cons_self text rfl)
        rintro rfl
        exact hhead rfl
      | _ => cases hcomment
    | false =>
      rw [List.filter_cons_of_pos (by simp [hcomment]), List.filter_nil, Site.run_singleton]
        at hlast
      exact ⟨_, hcalls.code_call hlast (hcall _ List.mem_cons_self) hheld⟩

end Smali
