import Smali.Proofs.Places
import Smali.Proofs.ToldCalls
import Smali.Proofs.Written

/-!
# Annotations as blocks

The calls from the start of an annotation of a class or a member up to its end form a block.
The closing line of the outermost annotation cannot be read inside anything else. So however
the lines of a block are read, each such line ends a block, and from the number of blocks it
follows that the lines of one block are read as one block or not at all.
-/

namespace Smali

/-! ## Blocks -/

/-- The end of a scope is the only call of its kind. -/
theorem Call.eq_finish_of_kind {call : Call} (h : call.kind = .finish) : call = .finish := by
  cases call <;> first | rfl | cases h

/-- Calls up to the end of the outermost annotation that is open. -/
inductive Block (validate : Bool) : Site → List Call → Site → Prop where
  /-- The last end. -/
  | last {s s' : Site} (h : s.accept validate .finish = some s') (hnest : s.nest = 1) :
    Block validate s [.finish] s'
  /-- A call behind which an annotation is still open. -/
  | step {s mid s' : Site} {call : Call} {rest : List Call}
    (h : s.accept validate call = some mid) (hnest : s.nest ≠ 0) (hmid : mid.nest ≠ 0)
    (hrest : Block validate mid rest s') : Block validate s (call :: rest) s'

namespace Site

/-- A site in annotations of which nothing else is known. -/
def within (nest : Nat) : Site := ⟨.body, [], none, nest⟩

/-- In annotations a call changes nothing but how many of them are open. -/
theorem next?_within {s : Site} (hnest : s.nest ≠ 0) (call : Call) :
    s.next? call =
      ((within s.nest).next? call).map fun inner => { s with nest := inner.nest } := by
  obtain ⟨outer, houter⟩ := Nat.exists_eq_succ_of_ne_zero hnest
  rw [next?_of_nest houter, next?_of_nest (s := within s.nest) houter, Option.map_map]
  rfl

/-- A site in annotations stays one. -/
theorem next?_within_eq {nest : Nat} (hnest : nest ≠ 0) {call : Call} {s : Site}
    (h : (within nest).next? call = some s) : s = within s.nest := by
  obtain ⟨outer, rfl⟩ := Nat.exists_eq_succ_of_ne_zero hnest
  rw [next?_of_nest rfl] at h
  obtain ⟨inner, -, rfl⟩ := Option.map_eq_some_iff.mp h
  rfl

/-- How many blocks calls end. -/
def blocks (s : Site) : List Call → Nat
  | [] => 0
  | call :: rest =>
    (if s.nest = 1 ∧ call.kind = .finish then 1 else 0) +
      match s.next? call with
      | some s => s.blocks rest
      | none => 0

/-- The blocks of two portions of calls. -/
theorem blocks_append {validate : Bool} {s s' : Site} {first : List Call}
    (h : s.run validate first = some s') (second : List Call) :
    s.blocks (first ++ second) = s.blocks first + s'.blocks second := by
  induction first generalizing s with
  | nil =>
    obtain rfl := Option.some.inj h
    simp [blocks]
  | cons call rest ih =>
    obtain ⟨mid, hmid, hrest⟩ := Option.bind_eq_some_iff.mp h
    rw [List.cons_append, blocks, blocks, next?_of_accept hmid]
    dsimp only
    rw [ih hrest, Nat.add_assoc]

end Site

namespace Block

variable {validate : Bool} {s s' : Site} {calls : List Call}

/-- The calls of a block follow. -/
theorem run (h : Block validate s calls s') : s.run validate calls = some s' := by
  induction h with
  | last h hnest => rw [Site.run_singleton, h]
  | step h hnest hmid hrest ih => rw [Site.run_cons, h, Option.bind_some, ih]

/-- Behind a block no annotation is open. -/
theorem nest_eq_zero (h : Block validate s calls s') : s'.nest = 0 := by
  induction h with
  | @last s s' h hnest =>
    have hs := Site.next?_of_accept h
    rw [Site.next?_of_nest hnest] at hs
    obtain rfl := Option.some.inj hs
    rfl
  | step h hnest hmid hrest ih => exact ih

/-- A block leaves the member that is open. -/
theorem host_eq (h : Block validate s calls s') : s'.host = s.host := by
  have hcall : ∀ {s mid : Site} {call : Call}, s.accept validate call = some mid → s.nest ≠ 0 →
      mid.host = s.host := by
    intro s mid call hmid hnest
    obtain ⟨outer, houter⟩ := Nat.exists_eq_succ_of_ne_zero hnest
    have hnext := Site.next?_of_accept hmid
    rw [Site.next?_of_nest houter] at hnext
    obtain ⟨nest, -, rfl⟩ := Option.map_eq_some_iff.mp hnext
    rfl
  induction h with
  | last h hnest => exact hcall h (by omega)
  | step h hnest hmid hrest ih => rw [ih, hcall h hnest]

/-- Calls from an open annotation to where none is open start with a block. -/
theorem exists_of_run {s e : Site} {calls : List Call} (hrun : s.run validate calls = some e)
    (hnest : s.nest ≠ 0) (hend : e.nest = 0) :
    ∃ block rest mid, calls = block ++ rest ∧ Block validate s block mid ∧
      mid.run validate rest = some e := by
  induction calls generalizing s with
  | nil =>
    obtain rfl := Option.some.inj hrun
    exact absurd hend hnest
  | cons call rest ih =>
    obtain ⟨mid, hmid, hrest⟩ := Option.bind_eq_some_iff.mp hrun
    by_cases hzero : mid.nest = 0
    · obtain ⟨outer, houter⟩ := Nat.exists_eq_succ_of_ne_zero hnest
      have hnext := Site.next?_of_accept hmid
      rw [Site.next?_of_nest houter] at hnext
      obtain ⟨nest, hstep, rfl⟩ := Option.map_eq_some_iff.mp hnext
      obtain rfl : nest = 0 := hzero
      have hfinish : call = .finish ∧ outer = 0 := by
        cases call with
        | finish => exact ⟨rfl, Option.some.inj hstep⟩
        | value name v => exact absurd (Option.some.inj hstep) (Nat.succ_ne_zero _)
        | subannotationStart name type => exact absurd (Option.some.inj hstep) (Nat.succ_ne_zero _)
        | _ => exact absurd hstep (Option.some_ne_none _).symm
      obtain ⟨rfl, rfl⟩ := hfinish
      exact ⟨[.finish], rest, _, rfl, .last hmid houter, hrest⟩
    · obtain ⟨block, rest', last, rfl, hblock, hlast⟩ := ih hrest hzero
      exact ⟨call :: block, rest', last, rfl, .step hmid hnest hzero hblock, hlast⟩

/-- Blocks that start the same calls are the same. -/
theorem unique {block block' rest rest' : List Call} {e e' : Site}
    (h : Block validate s block e) (h' : Block validate s block' e')
    (heq : block ++ rest = block' ++ rest') : block = block' ∧ e = e' := by
  induction h generalizing block' with
  | last h hnest =>
    cases h' with
    | last h' hnest' => exact ⟨rfl, Option.some.inj (h.symm.trans h')⟩
    | step h' hnest' hmid' hrest' =>
      obtain ⟨rfl, -⟩ := List.cons.inj heq
      obtain rfl := Option.some.inj (h.symm.trans h')
      exact absurd (nest_eq_zero (.last h hnest)) hmid'
  | step h hnest hmid hrest ih =>
    cases h' with
    | last h' hnest' =>
      obtain ⟨rfl, -⟩ := List.cons.inj heq
      obtain rfl := Option.some.inj (h.symm.trans h')
      exact absurd (nest_eq_zero (.last h' hnest')) hmid
    | step h' hnest' hmid' hrest' =>
      obtain ⟨rfl, htail⟩ := List.cons.inj heq
      obtain rfl := Option.some.inj (h.symm.trans h')
      obtain ⟨rfl, rfl⟩ := ih hrest' htail
      exact ⟨rfl, rfl⟩

/-- A block ends one block. -/
theorem blocks_eq_one (h : Block validate s calls s') : s.blocks calls = 1 := by
  induction h with
  | last h hnest =>
    rw [Site.blocks, Site.next?_of_accept h, if_pos ⟨hnest, rfl⟩]
    rfl
  | @step s mid s' call rest h hnest hmid hrest ih =>
    have hnext := Site.next?_of_accept h
    have hne : ¬(s.nest = 1 ∧ call.kind = .finish) := by
      rintro ⟨hone, hkind⟩
      obtain rfl := Call.eq_finish_of_kind hkind
      rw [Site.next?_of_nest hone] at hnext
      obtain rfl := Option.some.inj hnext
      exact hmid rfl
    rw [Site.blocks, hnext, if_neg hne, Nat.zero_add]
    exact ih

/-- The last line of a block is the closing line of the annotation. -/
theorem written_eq (h : Block validate s calls s') :
    ∃ lines, s.written calls = lines ++ [".end annotation".toList] := by
  induction h with
  | @last s s' h hnest =>
    refine ⟨[], ?_⟩
    rw [Site.written, Site.next?_of_accept h]
    have hclosing : s.closingText? = some ".end annotation".toList := by
      rw [Site.closingText?, hnest]
    simp [Site.codeLines, Site.written, hclosing]
  | @step s mid s' call rest h hnest hmid hrest ih =>
    obtain ⟨lines, hlines⟩ := ih
    refine ⟨s.codeLines call ++ lines, ?_⟩
    rw [Site.written, Site.next?_of_accept h]
    dsimp only
    rw [hlines, List.append_assoc]

/-- The lines of a block depend on nothing but how many annotations are open. -/
theorem written_within (h : Block validate s calls s') :
    s.written calls = (Site.within s.nest).written calls := by
  induction h with
  | @last s s' h hnest =>
    have hnext := Site.next?_of_accept h
    rw [Site.next?_within (by omega)] at hnext
    obtain ⟨inner, hinner, rfl⟩ := Option.map_eq_some_iff.mp hnext
    rw [Site.written, Site.written, Site.next?_of_accept h, hinner]
    have hclosing : s.closingText? = (Site.within s.nest).closingText? := by
      rw [Site.closingText?, Site.closingText?, Site.within, hnest]
    simp [Site.codeLines, Site.written, hclosing]
  | @step s mid s' call rest h hnest hmid hrest ih =>
    have hnext := Site.next?_of_accept h
    rw [Site.next?_within hnest] at hnext
    obtain ⟨inner, hinner, rfl⟩ := Option.map_eq_some_iff.mp hnext
    rw [Site.written, Site.written, Site.next?_of_accept h, hinner]
    dsimp only at ih ⊢
    rw [ih, ← Site.next?_within_eq hnest hinner]
    congr 1
    obtain ⟨outer, houter⟩ := Nat.exists_eq_succ_of_ne_zero hnest
    cases call with
    | finish =>
      simp only [Site.codeLines, Site.closingText?, Site.within, houter]
      cases outer <;> rfl
    | _ => rfl

end Block

/-! ## Closing lines -/

/-- A line that closes an annotation of a class or a member. -/
def Line.closesBlock (l : Option Line) : Bool := l.any (·.closes "annotation")

namespace Stance

variable {validate : Bool}

/-- Such a line has a call in such an annotation alone, and the call ends it. -/
theorem callOf?_of_closesBlock {s : Site} {l : Line} {call : Call}
    (hl : l.closes "annotation" = true) (h : s.callOf? l = some call) :
    s.nest = 1 ∧ call = .finish := by
  have hd := Line.directive?_of_closes hl
  unfold Site.callOf? at h
  split at h
  · next outer hnest =>
    unfold Line.elementCall? at h
    simp only [hd] at h
    cases outer with
    | zero =>
      rw [if_pos (by exact hl)] at h
      exact ⟨hnest, (Option.some.inj h).symm⟩
    | succ outer =>
      have hother : l.closes (closingName (outer + 1)) = false :=
        Line.closes_unique hl (by change "annotation".toList ≠ "subannotation".toList; decide)
      rw [if_neg (Bool.eq_false_iff.mp hother)] at h
      cases h
  · have hfield : l.closes "field" = false := Line.closes_unique hl (by decide)
    have hstart : l.directive? ≠ some .annotationStart := by
      rw [hd]
      exact fun heq => by cases heq
    rw [if_neg (Bool.eq_false_iff.mp hfield), if_neg hstart] at h
    cases h
  · have hmethod : l.closes "method" = false := Line.closes_unique hl (by decide)
    have hparam : l.closes "param" = false := Line.closes_unique hl (by decide)
    have hlocal : l.closes "local" = false := Line.closes_unique hl (by decide)
    rw [Line.bodyCall?, hd] at h
    dsimp only at h
    unfold Line.closingCall? at h
    rw [hmethod, hparam, hlocal, hl, Bool.or_true, Bool.true_or] at h
    cases h
  · rw [Line.classCall?, hd] at h
    cases h

/-- Such a line can be read in such an annotation alone, and it ends it. -/
theorem take_closesBlock {s s' : Stance} {l : Line} {calls : List Call}
    (hl : l.closes "annotation" = true) (h : s.take validate l = some (s', calls)) :
    s.braces = none ∧ s.site.nest = 1 ∧ calls = [.finish] ∧ s'.site.nest = 0 ∧
      s'.braces = none := by
  have hd := Line.directive?_of_closes hl
  have hended : Gathering.isEndedBy l = true := by
    have : l.endOf? = some "annotation".toList := of_decide_eq_true hl
    simp [Gathering.isEndedBy, this]
  cases takes_of_take h with
  | comment hcomment => cases hd.symm.trans (directive?_of_isComment hcomment)
  | @told site _ _ _ hcall htell =>
    obtain ⟨hnest, rfl⟩ := callOf?_of_closesBlock hl hcall
    obtain ⟨hrun, hbraces, -⟩ := run_of_tell htell
    obtain ⟨phase, declared, host, nest⟩ := site
    obtain rfl : nest = 1 := hnest
    refine ⟨rfl, rfl, rfl, ?_, hbraces⟩
    exact (Block.last (by rwa [Site.run_singleton] at hrun) rfl).nest_eq_zero
  | opens _ _ hdirective => cases hd.symm.trans hdirective
  | gathers _ hinside => cases hended.symm.trans hinside
  | closes _ hinside => cases hended.symm.trans hinside
  | behindField _ _ _ _ hcall =>
    rw [Line.classCall?, hd] at hcall
    cases hcall

/-- Each of them ends a block. -/
theorem count_le_blocks {s s' : Stance} {lines : List (Option Line)} {calls : List Call}
    (h : s.takeAll validate lines = some (s', calls)) :
    lines.countP Line.closesBlock ≤ s.site.blocks calls := by
  induction lines generalizing s calls with
  | nil => exact Nat.zero_le _
  | cons line rest ih =>
    cases line with
    | none => exact absurd h (Option.some_ne_none _).symm
    | some l =>
      obtain ⟨⟨mid, first⟩, hfirst, h⟩ := Option.bind_eq_some_iff.mp h
      obtain ⟨⟨last, second⟩, hsecond, heq⟩ := Option.map_eq_some_iff.mp h
      obtain ⟨rfl, rfl⟩ := Prod.mk.inj heq
      rw [Site.blocks_append (run_of_take hfirst)]
      have hrest := ih hsecond
      rw [List.countP_cons]
      cases hl : Line.closesBlock (some l) with
      | false => simp only [Bool.false_eq_true, if_false]; omega
      | true =>
        obtain ⟨-, hnest, rfl, -, -⟩ := take_closesBlock (by simpa [Line.closesBlock] using hl) hfirst
        have hone : 1 ≤ s.site.blocks [.finish] := by
          rw [Site.blocks, if_pos ⟨hnest, rfl⟩]
          exact Nat.le_add_right _ _
        simp only [if_true]
        omega

end Stance

/-- The closing line of an annotation. -/
theorem closesBlock_lineOf : Line.closesBlock (lineOf ".end annotation") = true := by
  decide +kernel

/-- The lines of calls hold the closing lines of their blocks. -/
theorem blocks_le_count {validate : Bool} {s s' : Site} {calls : List Call}
    (h : s.run validate calls = some s') :
    s.blocks calls ≤ ((s.written calls).map lineOf).countP Line.closesBlock := by
  induction calls generalizing s with
  | nil => exact Nat.zero_le _
  | cons call rest ih =>
    obtain ⟨mid, hmid, hrest⟩ := Option.bind_eq_some_iff.mp h
    have hnext := Site.next?_of_accept hmid
    rw [Site.blocks, Site.written, hnext]
    dsimp only
    rw [List.map_append, List.countP_append]
    have hcall : (if s.nest = 1 ∧ call.kind = .finish then 1 else 0) ≤
        ((s.codeLines call).map lineOf).countP Line.closesBlock := by
      split
      · rename_i hcond
        obtain rfl := Call.eq_finish_of_kind hcond.2
        have hclosing : s.closingText? = some ".end annotation".toList := by
          rw [Site.closingText?, hcond.1]
        have hlines : s.codeLines .finish = [".end annotation".toList] := by
          rw [Site.codeLines, hclosing]
          rfl
        rw [hlines, List.map_cons, List.countP_cons, if_pos closesBlock_lineOf]
        exact Nat.le_add_left _ _
      · exact Nat.zero_le _
    exact Nat.add_le_add hcall (ih hrest)

/-! ## Reading blocks -/

namespace Stance

variable {validate : Bool}

/-- The calls of lines in annotations, up to the end of the outermost one with the last line. -/
def readBlock (nest : Nat) (braces : Option Braces) : List (Option Line) → Option (List Call)
  | [] => if nest = 0 ∧ braces.isNone then some [] else none
  | none :: _ => none
  | some l :: rest =>
    if nest = 0 then none
    else
      (take false ⟨.within nest, braces⟩ l).bind fun (s, calls) =>
        (readBlock s.site.nest s.braces rest).map (calls ++ ·)

/-- A call in annotations, wherever these stand. -/
theorem tell_within {s : Site} (hnest : s.nest ≠ 0) (call : Call) :
    tell validate s call =
      (tell false (.within s.nest) call).bind fun (inner, calls) =>
        (s.run validate calls).map fun s' => (⟨s', inner.braces⟩, calls) := by
  unfold tell Site.accept
  rw [Site.next?_within hnest]
  cases hnext : (Site.within s.nest).next? call with
  | none => simp
  | some inner =>
    simp only [Bool.false_and, Bool.false_eq_true, if_false, Option.map_some, Option.bind_some]
    rw [Site.run_singleton]
    unfold Site.accept
    rw [Site.next?_within hnest, hnext]
    cases validate && !s.allows call <;> rfl

/-- A line of code in the innermost annotation. -/
theorem take_of_nest {s : Site} {outer : Nat} (hnest : s.nest = outer + 1) {l : Line}
    (hl : l.isComment = false) :
    take validate ⟨s, none⟩ l = inAnnotation? validate s outer l := by
  unfold take
  simp only [hl, hnest]
  rfl

/-- A line of code in an array. -/
theorem take_of_braces (s : Site) (b : Braces) {l : Line} (hl : l.isComment = false) :
    take validate ⟨s, some b⟩ l = inArray? validate s b l := by
  unfold take
  rw [hl]
  rfl

/-- A line in annotations, wherever these stand. -/
theorem take_within {s : Site} (hnest : s.nest ≠ 0) (braces : Option Braces) (l : Line) :
    take validate ⟨s, braces⟩ l =
      (take false ⟨.within s.nest, braces⟩ l).bind fun (inner, calls) =>
        (s.run validate calls).map fun s' => (⟨s', inner.braces⟩, calls) := by
  obtain ⟨outer, houter⟩ := Nat.exists_eq_succ_of_ne_zero hnest
  have htell := @tell_within validate s hnest
  cases hl : l.isComment with
  | true =>
    unfold take
    rw [hl]
    rfl
  | false =>
    cases braces with
    | some b =>
      rw [take_of_braces _ _ hl, take_of_braces _ _ hl]
      unfold inArray?
      dsimp only
      split
      · rfl
      · split
        · cases (Literal.decode (b.text ++ '\n' :: l.text)).toOption with
          | none => rfl
          | some v => exact htell _
        · rfl
    | none =>
      rw [take_of_nest houter hl, take_of_nest (s := .within s.nest) houter hl]
      unfold inAnnotation?
      split
      · cases l.element? with
        | none => rfl
        | some element =>
          cases element with
          | call call => exact htell call
          | braces b => rfl
      · split
        · exact htell .finish
        · rfl

/-- A line in annotations tells one call, or it is part of an array or a comment. -/
theorem take_cases {s : Site} (hnest : s.nest ≠ 0) {braces : Option Braces} {l : Line}
    {s' : Stance} {calls : List Call} (h : take validate ⟨s, braces⟩ l = some (s', calls)) :
    (calls = [] ∧ s'.site = s) ∨ ∃ call, tell validate s call = some (s', calls) := by
  cases takes_of_take h with
  | comment => exact .inl ⟨rfl, rfl⟩
  | told _ _ htell => exact .inr ⟨_, htell⟩
  | opens => exact .inl ⟨rfl, rfl⟩
  | gathers => exact .inl ⟨rfl, rfl⟩
  | closes _ _ _ _ htell => exact .inr ⟨_, htell⟩
  | behindField _ hzero => exact absurd hzero hnest

/-- Where a line in annotations leads to. -/
theorem site_of_take {s s' : Site} (hnest : s.nest ≠ 0) {braces : Option Braces} {l : Line}
    {inner : Stance} {calls : List Call}
    (h : take false ⟨.within s.nest, braces⟩ l = some (inner, calls))
    (hs : s.run validate calls = some s') : s'.nest = inner.site.nest := by
  rcases take_cases (s := .within s.nest) hnest h with ⟨rfl, hsite⟩ | ⟨call, htell⟩
  · obtain rfl := Option.some.inj hs
    rw [hsite]
    rfl
  · obtain ⟨hrun, -, rfl⟩ := run_of_tell htell
    rw [Site.run_singleton] at hrun hs
    have hnext := Site.next?_of_accept hs
    rw [Site.next?_within hnest, Site.next?_of_accept hrun] at hnext
    obtain rfl := Option.some.inj hnext
    rfl

/-- The lines of a block that are read as its calls are read so everywhere. -/
theorem takeAll_of_readBlock {s s' : Site} {braces : Option Braces}
    {lines : List (Option Line)} {calls : List Call} (hnest : braces.isSome → s.nest ≠ 0)
    (h : readBlock s.nest braces lines = some calls) (hs : s.run validate calls = some s') :
    takeAll validate ⟨s, braces⟩ lines = some (⟨s', none⟩, calls) := by
  induction lines generalizing s braces calls with
  | nil =>
    unfold readBlock at h
    split at h
    · rename_i hend
      obtain rfl := Option.some.inj h
      obtain rfl := Option.some.inj hs
      obtain rfl := Option.isNone_iff_eq_none.mp hend.2
      rfl
    · exact absurd h (Option.some_ne_none _).symm
  | cons line rest ih =>
    cases line with
    | none => exact absurd h (Option.some_ne_none _).symm
    | some l =>
      unfold readBlock at h
      split at h
      · exact absurd h (Option.some_ne_none _).symm
      · rename_i hzero
        obtain ⟨⟨inner, first⟩, hfirst, h⟩ := Option.bind_eq_some_iff.mp h
        obtain ⟨second, hsecond, rfl⟩ := Option.map_eq_some_iff.mp h
        rw [Site.run_append] at hs
        obtain ⟨mid, hmid, hs⟩ := Option.bind_eq_some_iff.mp hs
        have hsite := site_of_take hzero hfirst hmid
        have hbraces : inner.braces.isSome → mid.nest ≠ 0 := by
          intro hb
          rcases take_cases (s := .within s.nest) hzero hfirst with ⟨rfl, hsame⟩ | ⟨call, htell⟩
          · rw [hsite, hsame]
            exact hzero
          · rw [(run_of_tell htell).2.1] at hb
            exact absurd hb Bool.noConfusion
        unfold takeAll
        rw [take_within hzero, hfirst, Option.bind_some]
        dsimp only
        rw [hmid, Option.map_some, Option.bind_some]
        dsimp only
        rw [ih hbraces (hsite ▸ hsecond) hs]
        rfl

/-- Lines in annotations that end one block at most, and that with their last line, are read
as its calls. -/
theorem readBlock_of_takeAll {s : Site} {s' : Stance} {braces : Option Braces}
    {lines : List (Option Line)} {last : Line} (hlast : last.closes "annotation" = true)
    {calls : List Call} (hnest : s.nest ≠ 0)
    (h : takeAll validate ⟨s, braces⟩ (lines ++ [some last]) = some (s', calls))
    (hblocks : s.blocks calls ≤ 1) :
    readBlock s.nest braces (lines ++ [some last]) = some calls ∧ s'.braces = none ∧
      Block validate s calls s'.site := by
  induction lines generalizing s braces calls with
  | nil =>
    obtain ⟨⟨mid, first⟩, hfirst, h⟩ := Option.bind_eq_some_iff.mp h
    obtain ⟨rfl, rfl⟩ := Prod.mk.inj (Option.some.inj h)
    obtain ⟨hbraces, hone, hcalls, hmid, hnone⟩ := take_closesBlock hlast hfirst
    dsimp only at hbraces hone hcalls hmid hnone
    subst hbraces hcalls
    have hrun := run_of_take hfirst
    rw [take_within hnest] at hfirst
    obtain ⟨⟨inner, first⟩, hinner, hfirst⟩ := Option.bind_eq_some_iff.mp hfirst
    obtain ⟨s', hs', heq⟩ := Option.map_eq_some_iff.mp hfirst
    obtain ⟨rfl, rfl⟩ := Prod.mk.inj heq
    have hzero : inner.site.nest = 0 := (site_of_take hnest hinner hs').symm.trans hmid
    refine ⟨?_, hnone, ?_⟩
    · rw [List.nil_append, readBlock, if_neg hnest, hinner, Option.bind_some]
      dsimp only at hnone ⊢
      rw [readBlock, hzero, hnone, if_pos ⟨rfl, rfl⟩]
      rfl
    · refine .last ?_ hone
      rw [List.append_nil, Site.run_singleton] at *
      exact hrun
  | cons line rest ih =>
    cases line with
    | none => exact absurd h (Option.some_ne_none _).symm
    | some l =>
      obtain ⟨⟨mid, first⟩, hfirst, h⟩ := Option.bind_eq_some_iff.mp h
      obtain ⟨⟨final, second⟩, hsecond, heq⟩ := Option.map_eq_some_iff.mp h
      obtain ⟨rfl, rfl⟩ := Prod.mk.inj heq
      have hrun := run_of_take hfirst
      rw [Site.blocks_append hrun] at hblocks
      have hopen : mid.site.nest ≠ 0 := by
        intro hzero
        -- Otherwise a block has ended here, and the last line ends another one.
        have hcount : (rest ++ [some last]).countP Line.closesBlock ≤ mid.site.blocks second :=
          count_le_blocks hsecond
        have hmore : 1 ≤ (rest ++ [some last]).countP Line.closesBlock := by
          rw [List.countP_append]
          have : Line.closesBlock (some last) = true := hlast
          simp [this]
        rcases take_cases hnest hfirst with ⟨rfl, hsite⟩ | ⟨call, htell⟩
        · exact hnest (hsite ▸ hzero)
        · obtain ⟨htold, -, rfl⟩ := run_of_tell htell
          rw [Site.run_singleton] at htold
          obtain ⟨block, rest', e, heq, hblock, -⟩ :=
            Block.exists_of_run ((Site.run_singleton _ _ _).trans htold) hnest hzero
          have hone := hblock.blocks_eq_one
          cases hblock with
          | last hlast' hnest' =>
            obtain ⟨rfl, rfl⟩ := List.cons.inj heq
            dsimp only at hblocks
            omega
          | step hstep hnest' hmid' hrest' =>
            obtain ⟨rfl, hnil⟩ := List.cons.inj heq
            obtain ⟨hnil, -⟩ := List.append_eq_nil_iff.mp hnil.symm
            subst hnil
            cases hrest'
      obtain ⟨hread, hbraces, hblock⟩ := ih hopen hsecond (by omega)
      have hwithin := hfirst
      rw [take_within hnest] at hwithin
      obtain ⟨⟨inner, first'⟩, hinner, hwithin⟩ := Option.bind_eq_some_iff.mp hwithin
      obtain ⟨s'', hs'', heq⟩ := Option.map_eq_some_iff.mp hwithin
      obtain ⟨rfl, rfl⟩ := Prod.mk.inj heq
      refine ⟨?_, hbraces, ?_⟩
      · rw [List.cons_append, readBlock, if_neg hnest, hinner, Option.bind_some]
        dsimp only at hread ⊢
        rw [← site_of_take hnest hinner hs'', hread]
        rfl
      · rcases take_cases hnest hfirst with ⟨hnil, hsite⟩ | ⟨call, htell⟩
        · subst hnil
          dsimp only at hsite hblock
          rw [List.nil_append, ← hsite]
          exact hblock
        · obtain ⟨htold, -, hone⟩ := run_of_tell htell
          subst hone
          rw [Site.run_singleton] at htold
          exact .step htold hnest hopen hblock

end Stance

/-- The lines of a block are read as its calls, with what follows read as other calls, exactly if
the lines of the block by themselves are read as its calls. -/
theorem readAll_block_iff {validate : Bool} {s mid e : Site} {block rest : List Call}
    (hblock : Block validate s block mid) (hnest : s.nest = 1)
    (hrest : mid.run validate rest = some e) :
    (⟨s, none⟩ : Stance).readAll validate
        ((s.written block).map lineOf ++ (mid.written rest).map lineOf) = some (block ++ rest) ↔
      Stance.readBlock 1 none (((Site.within 1).written block).map lineOf) = some block ∧
        (⟨mid, none⟩ : Stance).readAll validate ((mid.written rest).map lineOf) = some rest := by
  have hwithin : (Site.within 1).written block = s.written block := by
    rw [hblock.written_within, hnest]
  rw [hwithin, ← hnest, Stance.readAll_append]
  constructor
  · intro h
    obtain ⟨⟨st, first⟩, hfirst, h⟩ := Option.bind_eq_some_iff.mp h
    obtain ⟨second, hsecond, happend⟩ := Option.map_eq_some_iff.mp h
    obtain ⟨lines, hlines⟩ := hblock.written_eq
    obtain ⟨last, hlast, hcloses⟩ : ∃ last, lineOf ".end annotation" = some last ∧
        last.closes "annotation" = true := by
      have := closesBlock_lineOf
      cases hl : lineOf ".end annotation" with
      | none => rw [hl] at this; exact absurd this Bool.false_ne_true
      | some last => rw [hl] at this; exact ⟨last, rfl, this⟩
    -- Each closing line among the others ends a block, so the lines of this one end no second.
    have hblocks : s.blocks first ≤ 1 := by
      have hall := congrArg s.blocks happend
      rw [Site.blocks_append (Stance.run_of_takeAll hfirst), Site.blocks_append hblock.run,
        hblock.blocks_eq_one] at hall
      obtain ⟨⟨final, told⟩, htold, hsecond⟩ := Option.bind_eq_some_iff.mp hsecond
      obtain ⟨ends, -, rfl⟩ := Option.map_eq_some_iff.mp hsecond
      rw [Site.blocks_append (Stance.run_of_takeAll htold)] at hall
      have hread := Stance.count_le_blocks htold
      have hwritten := blocks_le_count hrest
      dsimp only at hall
      omega
    rw [hlines, List.map_append, List.map_singleton, hlast] at hfirst ⊢
    obtain ⟨hread, hbraces, hblock'⟩ :=
      Stance.readBlock_of_takeAll hcloses (by omega) hfirst hblocks
    obtain ⟨rfl, hsite⟩ := hblock'.unique hblock happend
    obtain ⟨site, braces⟩ := st
    obtain rfl : braces = none := hbraces
    obtain rfl : site = mid := hsite
    exact ⟨hread, by rw [hsecond, List.append_cancel_left happend]⟩
  · rintro ⟨hread, hmore⟩
    have hall := Stance.takeAll_of_readBlock (by simp) hread hblock.run
    rw [hall, Option.bind_some]
    dsimp only
    rw [hmore]
    rfl

end Smali
