import Smali.Proofs.CleanedCode
import Smali.Proofs.CutShort
import Smali.Proofs.SoundChecks
import Smali.Proofs.Tolerance
import Smali.Proofs.Uncommented

/-!
# Exact checks

In a strict reading the semantic checks refuse nothing but what would leave a log that is not
clean. For a strict reading without checks tells all calls of a source, and if someone hears all of
them, then a clean log shows that each of them would have passed its checks where it was made.
-/

namespace Smali

/-! ## Steps with checks -/

namespace Stance

/-- A step that is taken with checks if it is taken without, and if its calls pass their checks. -/
def Passes (s : Site) (unchecked checked : Option (Stance × List Call)) : Prop :=
  ∀ told, unchecked = some told → (s.run true told.2).isSome = true → checked = some told

/-- A call. -/
theorem passes_tell (s : Site) (call : Call) :
    Passes s (tell false s call) (tell true s call) := by
  intro told htold hrun
  obtain ⟨s', hs', rfl⟩ := Option.map_eq_some_iff.mp htold
  obtain ⟨s'', hs''⟩ := Option.isSome_iff_exists.mp hrun
  rw [Site.run_singleton] at hs''
  have hnext : s.next? call = some s' := hs'
  obtain rfl := Option.some.inj (hnext.symm.trans (Site.next?_of_accept hs''))
  exact congrArg (Option.map _) hs''

/-- A line. -/
theorem passes_take (s : Stance) (l : Line) : Passes s.site (s.take false l) (s.take true l) := by
  rintro ⟨s', calls⟩ htold hrun
  refine take_of_takes ?_
  cases takes_of_take htold with
  | comment hl => exact .comment hl
  | told hl hcall htell => exact .told hl hcall (passes_tell _ _ _ htell hrun)
  | opens hl hnest hdirective helement => exact .opens hl hnest hdirective helement
  | gathers hl hinside hopen => exact .gathers hl hinside hopen
  | closes hl hinside hclosed hv htell =>
    exact .closes hl hinside hclosed hv (passes_tell _ _ _ htell hrun)
  | behindField hl hnest hhost hstays hcall htell =>
    rw [Site.run_cons, Site.accept_endField true hnest hhost, Option.bind_some] at hrun
    exact .behindField hl hnest hhost hstays hcall (passes_tell _ _ _ htell hrun)

/-- Lines one after another. -/
theorem passes_takeAll (s : Stance) (lines : List (Option Line)) :
    Passes s.site (s.takeAll false lines) (s.takeAll true lines) := by
  induction lines generalizing s with
  | nil => exact fun _ htold _ => htold
  | cons line rest ih =>
    cases line with
    | none => exact fun _ htold _ => htold
    | some l =>
      intro told htold hrun
      obtain ⟨⟨mid, calls⟩, htake, htold⟩ := Option.bind_eq_some_iff.mp htold
      obtain ⟨⟨last, more⟩, hrest, rfl⟩ := Option.map_eq_some_iff.mp htold
      obtain ⟨s', hrun⟩ := Option.isSome_iff_exists.mp hrun
      rw [Site.run_append] at hrun
      obtain ⟨site, hfirst, hmore⟩ := Option.bind_eq_some_iff.mp hrun
      have hchecked := passes_take s l _ htake (by rw [hfirst]; rfl)
      obtain rfl := Option.some.inj (hfirst.symm.trans (run_of_take hchecked))
      have hall := ih mid _ hrest (by rw [hmore]; rfl)
      rw [takeAll, hchecked, Option.bind_some]
      dsimp only
      rw [hall]
      rfl

/-- A source with calls that pass their checks has them with checks, too. -/
theorem readAll_checked {s : Stance} {s' : Site} {lines : List (Option Line)} {calls : List Call}
    (h : s.readAll false lines = some calls) (hrun : s.site.run true calls = some s') :
    s.readAll true lines = some calls := by
  obtain ⟨⟨mid, first⟩, hfirst, hfinish⟩ := Option.bind_eq_some_iff.mp h
  obtain ⟨ends, hends, rfl⟩ := Option.map_eq_some_iff.mp hfinish
  rw [Site.run_append] at hrun
  obtain ⟨site, hsite, -⟩ := Option.bind_eq_some_iff.mp hrun
  have hchecked := passes_takeAll s lines _ hfirst (by rw [hsite]; rfl)
  rw [readAll, hchecked, Option.bind_some]
  exact hfinish

end Stance

/-! ## Desks where everything is heard -/

namespace Desk

variable {σ κ : Type} {L : Listener σ κ} {d d' : Desk (σ × List Heard) (Nat × κ)} {s s' : Site}
  {told : Call} {entry : Option Heard}

/-- A desk that stands where a site stands, with someone listening in every open scope. -/
structure HearsAll (d : Desk (σ × List Heard) (Nat × κ)) (s : Site) : Prop
    extends d.StandsAt s where
  /-- All open scopes have visitors. -/
  heard : ∀ scope ∈ d.numbers, scope.isSome = true
  /-- The same scopes are open. -/
  depth : d.numbers.length = s.depth + 1
  /-- All members were told of. -/
  declared : ∀ m ∈ s.declared, ∃ h ∈ d.state.2, h.call.member? = some m

namespace HearsAll

/-- Every call is heard. -/
theorem exists_mem (h : d.HearsAll s) (hentry : d.IsEntry told entry) : ∃ e, entry = some e := by
  have hwho := hentry.who
  have hdepth := h.depth
  cases hscopes : d.numbers with
  | nil =>
    rw [hscopes] at hdepth
    exact absurd hdepth (Nat.succ_ne_zero _).symm
  | cons scope outer =>
    obtain ⟨v, rfl⟩ := Option.isSome_iff_exists.mp (h.heard scope (hscopes ▸ List.mem_cons_self))
    rw [hscopes] at hwho
    obtain ⟨e, he, -⟩ := Option.map_eq_some_iff.mp hwho
    exact ⟨e, he⟩

/-- A call that can follow. -/
theorem call (h : d.HearsAll s) (hlogs : d.Logs d' told entry)
    (hopened : told.opens?.isSome = true → ∀ e ∈ entry, e.opened.isSome = true)
    (hnext : s.next? told = some s') : d'.HearsAll s' := by
  obtain ⟨e, rfl⟩ := h.exists_mem hlogs.toIsEntry
  have hscopes := hlogs.scopes
  refine ⟨h.toStandsAt.call hlogs hnext, ?_, ?_, fun m hm => ?_⟩
  · rw [hscopes]
    rcases told.cases_scopes with rfl | ⟨hopens, -, hbehind⟩ | ⟨-, -, hbehind⟩
    · exact fun scope hscope => h.heard scope (List.mem_of_mem_tail hscope)
    · rw [hbehind]
      exact List.forall_mem_cons.mpr ⟨hopened hopens e rfl, h.heard⟩
    · rw [hbehind]
      exact h.heard
  · have hdepth := h.depth
    rw [hscopes]
    cases Site.leads_of_next? hnext with
    | finish hfinish hless =>
      subst hfinish
      rw [Call.scopesBehind, List.length_tail]
      omega
    | enter hmoves hopens hmore =>
      rcases told.cases_scopes with rfl | ⟨-, -, hbehind⟩ | ⟨hnone, -, -⟩
      · cases hopens
      · rw [hbehind, List.length_cons]
        omega
      · exact absurd hopens (Bool.eq_false_iff.mp hnone)
    | tell hmoves hsame =>
      rcases told.cases_scopes with rfl | ⟨-, henter, -⟩ | ⟨-, -, hbehind⟩
      · cases hmoves
      · rw [henter] at hmoves
        cases hmoves
      · rw [hbehind]
        omega
  · rw [Site.declared_of_next? hnext] at hm
    rcases List.mem_append.mp hm with hm | hm
    · exact ⟨e, hlogs.mem rfl, (congrArg Call.member? (hlogs.call e rfl)).trans
        (Option.mem_toList.mp hm)⟩
    · obtain ⟨opener, hopener, hmember⟩ := h.declared m hm
      exact ⟨opener, hlogs.subset hopener, hmember⟩

/-- A call that leaves a clean log passes its checks. -/
theorem allows (h : d.HearsAll s) (hlogs : d.Logs d' told entry) (hnext : s.next? told = some s')
    (hclean : IsClean d'.state.2) : s.allows told = true := by
  obtain ⟨e, rfl⟩ := h.exists_mem hlogs.toIsEntry
  have hcall : e.call = told := hlogs.call e rfl
  have hmem := hlogs.mem (e := e) rfl
  refine Site.allows_iff.mpr ⟨hcall ▸ hclean.checked e hmem, fun m hm hdeclared => ?_,
    fun hcode => ?_⟩
  · obtain ⟨opener, hopener, hmember⟩ := h.declared m hdeclared
    rw [hlogs.log] at hclean
    exact hclean.member_ne hopener hmember (hcall ▸ hm)
  · obtain ⟨name, access, paramOpen, hhost, hopens⟩ := h.opener hlogs.toIsEntry hnext hcode
    rw [Site.allowsCode, hhost]
    exact hclean.code e hmem (hcall ▸ hcode) access ((hopens e rfl).mono hlogs.subset)

/-- Calls that can follow on each other pass their checks if they leave a clean log. -/
theorem run_of_isClean (hL : L.AcceptsAll) (h : d.HearsAll s) {calls : List Call}
    (hrun : s.run false calls = some s')
    (hclean : IsClean (d.makeAll L.traced (calls.flatMap Call.moves)).state.2) :
    s.run true calls = some s' := by
  induction calls generalizing d s with
  | nil => exact hrun
  | cons call rest ih =>
    obtain ⟨mid, hmid, hrest⟩ := Option.bind_eq_some_iff.mp hrun
    have hnext := Site.next?_of_accept hmid
    obtain ⟨entry, hlogs, hopened⟩ := exists_logs hL.neverFails d call
    rw [makeAll_cons] at hclean
    have hprefix : (d.makeAll L.traced call.moves).state.2 <+:
        ((d.makeAll L.traced call.moves).makeAll L.traced (rest.flatMap Call.moves)).state.2 :=
      heard_prefix_makeAll L (d.makeAll L.traced call.moves) List.nil_prefix
    have hallows := h.allows hlogs hnext (hclean.sublist hprefix.sublist)
    rw [Site.run_cons, Site.accept_of_next? (fun _ => hallows) hnext]
    exact ih (h.call hlogs (hopened hL) hnext) hrest hclean

end HearsAll

end Desk

/-! ## Strict readings -/

section Strict

variable {σ κ : Type} {L : Listener σ κ}

/-- A strict reading without checks that leaves a clean log comes to its end with checks, too. -/
theorem isOk_of_isClean (hL : L.AcceptsAll) {o : Options} (hstrict : o.errors = .strict)
    (hvalidate : o.validate = false) {root : κ} {state : σ} {source : Text}
    (hok : (read o L root state source).1 = .ok ())
    (hclean : IsClean (callsOf o L root state source)) :
    (read { o with validate := true } L root state source).1 = .ok () := by
  have hnever := hL.neverFails
  obtain ⟨calls, hcalls⟩ := Option.isSome_iff_exists.mp
    ((read_strict_iff hstrict hnever root state source).mp hok)
  obtain ⟨s, hrun, -⟩ := run_of_strictCalls hcalls
  rw [hvalidate] at hrun
  -- The log without comments is clean as well, and it is the log of the calls.
  obtain ⟨f, -, hquiet⟩ := (hL.doesWithoutComments root state).renumbering hnever hnever o source
  have hquietly : IsClean (withoutComments (callsOf o L root state source)) :=
    hclean.sublist List.filter_sublist
  have hlog : callsOf o.quietly L root state source =
      ((Desk.initial (0, root) (state, [])).makeAll L.traced
        (calls.flatMap Call.moves ++ [.tell .finish])).state.2 := by
    have hread := read_eq (o := o.quietly) ⟨hstrict, rfl⟩ hnever.traced (0, root)
      (state, ([] : List Heard)) source
    have hsame : strictCalls o.quietly source = some calls := hcalls
    rw [hsame] at hread
    exact congrArg Prod.snd hread.2
  rw [← hquiet, hlog] at hquietly
  have hinitial : (Desk.initial (0, root) (state, ([] : List Heard))).HearsAll
      (Site.initial o.snippet) :=
    ⟨⟨nofun, nofun⟩, List.forall_mem_singleton.mpr rfl, rfl, nofun⟩
  have hchecked := hinitial.run_of_isClean hL hrun (hquietly.of_renumber.sublist
    (Desk.heard_prefix_makeAll L _ (List.prefix_append _ _)).sublist)
  have hlines : (Stance.initial o.snippet).readAll false
      ((scanLines source).map Except.toOption) = some calls := hvalidate ▸ hcalls
  have hall : strictCalls { o with validate := true } source = some calls :=
    Stance.readAll_checked hlines hchecked
  exact (read_strict_iff (o := { o with validate := true }) hstrict hnever root state source).mpr
    (Option.isSome_iff_exists.mpr ⟨calls, hall⟩)

/-- Semantic checks are sound, and in strict mode they are exact. With them every listener that
never fails hears calls that form a clean log, whatever becomes of the reading. And before a
listener that declines nothing, a strict reading with checks comes to its end exactly if the one
without checks does and leaves a clean log. -/
theorem checks_sound_and_exact (hL : L.NeverFails) (o : Options) (root : κ) (state : σ)
    (source : Text) :
    IsClean (callsOf { o with validate := true } L root state source) ∧
      (L.AcceptsAll →
        ((read { o with errors := .strict, validate := true } L root state source).1 = .ok () ↔
          (read { o with errors := .strict, validate := false } L root state source).1 = .ok () ∧
            IsClean (callsOf { o with errors := .strict, validate := false } L root state
              source))) := by
  refine ⟨isClean_callsOf hL rfl root state source, fun haccepts => ⟨fun hok => ?_, ?_⟩⟩
  · have hclean := isClean_callsOf hL (o := { o with errors := .strict, validate := true }) rfl
      root state source
    rcases checks_only_cut_short { o with errors := .strict } L root state source with
      ⟨hcalls, -, hresult⟩ | ⟨fault, herror, -⟩
    · exact ⟨hresult ▸ hok, hcalls ▸ hclean⟩
    · cases hok.symm.trans herror
  · rintro ⟨hok, hclean⟩
    exact isOk_of_isClean haccepts rfl rfl hok hclean

end Strict

/-- A class with a field that starts with a constant of an enum, and with an abstract method that
has code. -/
def codedClass : Text :=
  ".class La;\n.field x:Lb; = .enum Lb;->C:Lb;\n.method abstract m()V\nnop\n.end method\n".toList

/-- With checks the reading ends before the code, and its log is clean. Without them the reading
comes to its end, and its log is not clean. -/
theorem checks_sound_and_exact_class :
    let o := Options.default
    let L := Recorder.listener .obliging
    let root := Recorder.root .ofClass
    (read { o with errors := .strict, validate := true } L root .initial codedClass).1 =
        .error ⟨.validation, "abstract or native method m cannot have code", some ⟨4, 1⟩⟩ ∧
      IsClean (callsOf { o with errors := .strict, validate := true } L root .initial codedClass) ∧
      (read { o with errors := .strict, validate := false } L root .initial codedClass).1 =
        .ok () ∧
      ¬IsClean (callsOf { o with errors := .strict, validate := false } L root .initial
        codedClass) := by
  intro o L root
  have hL : L.AcceptsAll := Recorder.acceptsAll_obliging
  have herror : (read { o with errors := .strict, validate := true } L root .initial
      codedClass).1 =
        .error ⟨.validation, "abstract or native method m cannot have code", some ⟨4, 1⟩⟩ := by
    decide +kernel
  have hok : (read { o with errors := .strict, validate := false } L root .initial
      codedClass).1 = .ok () := by
    decide +kernel
  obtain ⟨-, hexact⟩ := checks_sound_and_exact hL.neverFails o root .initial codedClass
  obtain ⟨hclean, -⟩ := checks_sound_and_exact hL.neverFails { o with errors := .strict } root
    .initial codedClass
  refine ⟨herror, hclean, hok, fun h => ?_⟩
  have hchecked := (hexact hL).mpr ⟨hok, h⟩
  rw [herror] at hchecked
  cases hchecked

end Smali
