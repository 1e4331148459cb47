import Smali.Proofs.CleanLogs
import Smali.Proofs.ScopeProtocol
import Smali.Proofs.TolerantReader

/-!
# Sound checks

A reading that makes the semantic checks leaves a clean log, also where a fault ends it. What a
check looks at is the site of the reader, and what a visitor hears is in the log. So the desk is
followed along with the site: the visitor of an open method stands where the site has the method.
-/

namespace Smali

/-! ## Entries -/

/-- The visitors of the open scopes behind a call, with the visitor of the scope that it opens, if
there is one. -/
def Call.scopesBehind (call : Call) (opened : Option Nat) (scopes : List (Option Nat)) :
    List (Option Nat) :=
  match call with
  | .finish => scopes.tail
  | call => if call.opens?.isSome then opened :: scopes else scopes

/-- A call ends a scope, it opens one, or it does neither. -/
theorem Call.cases_scopes (call : Call) :
    call = .finish ∨
      call.opens?.isSome = true ∧ call.moves = [.enter call] ∧
        (∀ opened scopes, call.scopesBehind opened scopes = opened :: scopes) ∨
      call.opens?.isSome = false ∧ call.moves = [.tell call] ∧
        ∀ opened scopes, call.scopesBehind opened scopes = scopes := by
  cases call <;>
    first
    | exact .inl rfl
    | exact .inr (.inl ⟨rfl, rfl, fun _ _ => rfl⟩)
    | exact .inr (.inr ⟨rfl, rfl, fun _ _ => rfl⟩)

/-- Visitors have the numbers of the calls that handed them out. -/
def IsNumbered (log : List Heard) : Prop :=
  ∀ k h v, log[k]? = some h → h.opened = some v → v = k + 1

/-- Two calls do not hand out the same visitor. -/
theorem IsNumbered.opener_unique {log : List Heard} (hlog : IsNumbered log) {h h' : Heard}
    (hh : h ∈ log) (hh' : h' ∈ log) {v : Nat} (hv : h.opened = some v)
    (hv' : h'.opened = some v) : h = h' := by
  obtain ⟨k, hk⟩ := List.getElem?_of_mem hh
  obtain ⟨k', hk'⟩ := List.getElem?_of_mem hh'
  have hsame : k + 1 = k' + 1 := (hlog k h v hk hv).symm.trans (hlog k' h' v hk' hv')
  obtain rfl := Nat.succ.inj hsame
  exact Option.some.inj (hk.symm.trans hk')

/-- Whoever hears of code was handed out for a method that may have code. -/
def CodeFits (log : List Heard) : Prop :=
  ∀ h ∈ log, h.call.tellsCode = true →
    ∃ access, OpensMethod log h.who access ∧ access.mayHaveCode = true

/-- A call about code is made in a method. -/
theorem Site.host_of_tellsCode {s s' : Site} {call : Call} (h : s.next? call = some s')
    (hcall : call.tellsCode = true) :
    s.nest = 0 ∧ ∃ name access paramOpen, s.host = some (.method name access paramOpen) := by
  cases Site.step_of_next? h with
  | body hnest hhost => exact ⟨hnest, _, _, _, hhost⟩
  | header _ _ hheader =>
    cases call <;> first | exact absurd hheader Bool.false_ne_true | cases hcall
  | _ => exact absurd hcall Bool.false_ne_true

/-- A call that is accepted with checks passes them. -/
theorem Site.allows_of_accept {s s' : Site} {call : Call} (h : s.accept true call = some s') :
    s.allows call = true := by
  unfold accept at h
  cases hallows : s.allows call with
  | true => rfl
  | false => simp [hallows] at h

/-- A run with comments starts with a comment, or with a call that is accepted. -/
theorem Site.run_remarked {validate : Bool} {s s' : Site} {call : Call} {rest : List Call}
    (h : s.run validate ((call :: rest).filter fun c => !c.isComment) = some s') :
    call.isComment = true ∧ s.run validate (rest.filter fun c => !c.isComment) = some s' ∨
      ∃ mid, s.accept validate call = some mid ∧
        mid.run validate (rest.filter fun c => !c.isComment) = some s' := by
  cases hcomment : call.isComment with
  | true =>
    rw [List.filter_cons_of_neg (by simp [hcomment])] at h
    exact .inl ⟨rfl, h⟩
  | false =>
    rw [List.filter_cons_of_pos (by simp [hcomment])] at h
    exact .inr (Option.bind_eq_some_iff.mp h)

/-- A call declares its member and nothing else. -/
theorem Site.declared_of_next? {s s' : Site} {call : Call} (h : s.next? call = some s') :
    s'.declared = call.member?.toList ++ s.declared := by
  cases Site.step_of_next? h with
  | header _ _ hheader => cases call <;> first | rfl | exact absurd hheader Bool.false_ne_true
  | body _ _ hbody => cases call <;> first | rfl | exact absurd hbody Bool.false_ne_true
  | _ => rfl

namespace Desk

variable {σ κ : Type} {L : Listener σ κ} {d d' : Desk (σ × List Heard) (Nat × κ)}

/-- An entry in the log of a desk: a call, by the visitor of the innermost scope. There is none if
nobody listens there. -/
structure IsEntry (d : Desk (σ × List Heard) (Nat × κ)) (told : Call) (entry : Option Heard) :
    Prop where
  /-- The entry is about the call. -/
  call : ∀ h ∈ entry, h.call = told
  /-- Who hears it. -/
  who : entry.map Heard.who = d.numbers.head?.join
  /-- A visitor that is handed out gets the next number. -/
  number : ∀ h ∈ entry, ∀ v ∈ h.opened, v = d.state.2.length + 1

/-- A desk that has made the moves of a call. -/
structure Logs (d d' : Desk (σ × List Heard) (Nat × κ)) (told : Call) (entry : Option Heard) :
    Prop extends d.IsEntry told entry where
  /-- The entry is the last one. -/
  log : d'.state.2 = d.state.2 ++ entry.toList
  /-- The scopes behind the call. -/
  scopes : d'.numbers = told.scopesBehind (entry.bind Heard.opened) d.numbers

/-- A call has an entry. A listener that accepts everything hands out a visitor for every scope
that is opened. -/
theorem exists_entry (hL : L.NeverFails) (d : Desk (σ × List Heard) (Nat × κ)) (call : Call) :
    ∃ entry opened, d.IsEntry call entry ∧
      (d.call L.traced call).2.state.2 = d.state.2 ++ entry.toList ∧
      (d.call L.traced call).2.numbers = d.numbers ∧
      (d.call L.traced call).1 = .ok opened ∧
      (call.opens?.isSome = true → opened.map Prod.fst = entry.bind Heard.opened ∧
        (L.AcceptsAll → ∀ h ∈ entry, h.opened.isSome = true)) := by
  obtain ⟨⟨state, log⟩, scopes, skipped⟩ := d
  rcases scopes with _ | ⟨_ | ⟨who, handle⟩, outer⟩
  · exact ⟨none, none, ⟨nofun, rfl, nofun⟩, (List.append_nil _).symm, rfl, rfl,
      fun _ => ⟨rfl, fun _ => nofun⟩⟩
  · exact ⟨none, none, ⟨nofun, rfl, nofun⟩, (List.append_nil _).symm, rfl, rfl,
      fun _ => ⟨rfl, fun _ => nofun⟩⟩
  · obtain ⟨opened, hopened⟩ := hL handle call state
    have hnumber := Listener.numberFor_ok call opened (log.length + 1)
    refine ⟨some ⟨who, call, Listener.numberFor call (.ok opened) (log.length + 1)⟩,
      opened.map fun child => (log.length + 1, child), ⟨?_, rfl, ?_⟩, ?_, rfl, ?_, fun ho => ?_⟩
    · rintro _ ⟨⟩
      rfl
    · rintro _ ⟨⟩
      rw [hnumber]
      exact Listener.mem_numberFor
    · simp only [Desk.call, Listener.traced, hopened]
      rfl
    · simp only [Desk.call, Listener.traced, hopened]
      rfl
    · rw [hnumber, if_pos ho]
      refine ⟨by cases opened <;> rfl, fun haccepts => ?_⟩
      obtain ⟨child, hchild, hsome⟩ := haccepts handle call state
      obtain rfl := Except.ok.inj (hopened.symm.trans hchild)
      rintro _ ⟨⟩
      rw [Option.isSome_map]
      exact hsome ho

/-- What the moves of a call come to. -/
theorem exists_logs (hL : L.NeverFails) (d : Desk (σ × List Heard) (Nat × κ)) (call : Call) :
    ∃ entry, d.Logs (d.makeAll L.traced call.moves) call entry ∧
      (L.AcceptsAll → call.opens?.isSome = true → ∀ h ∈ entry, h.opened.isSome = true) := by
  obtain ⟨entry, opened, hentry, hlog, hnumbers, houtcome, hopens⟩ := exists_entry hL d call
  refine ⟨entry, ⟨hentry, ?_, ?_⟩, fun haccepts ho => (hopens ho).2 haccepts⟩
  · rcases call.cases_scopes with rfl | ⟨ho, hmoves, -⟩ | ⟨-, hmoves, -⟩
    · exact hlog
    · rw [hmoves, ← hlog]
      simp only [makeAll, List.foldl_cons, List.foldl_nil, make]
      rcases d.call L.traced call with ⟨_ | _, _⟩ <;> rfl
    · rw [hmoves]
      exact hlog
  · rcases call.cases_scopes with rfl | ⟨ho, hmoves, hbehind⟩ | ⟨-, hmoves, hbehind⟩
    · rw [Call.scopesBehind, ← hnumbers, numbers, numbers, ← List.map_tail]
      rfl
    · rw [hmoves, hbehind, ← (hopens ho).1, ← hnumbers]
      simp only [makeAll, List.foldl_cons, List.foldl_nil, make]
      generalize d.call L.traced call = r at houtcome ⊢
      obtain ⟨_, d'⟩ := r
      dsimp only at houtcome
      subst houtcome
      rfl
    · rw [hmoves, hbehind]
      exact hnumbers

namespace Logs

variable {told : Call} {entry : Option Heard}

/-- What was told stays told. -/
theorem subset (h : d.Logs d' told entry) : d.state.2 ⊆ d'.state.2 :=
  h.log ▸ List.subset_append_left _ _

/-- The entry is told. -/
theorem mem (h : d.Logs d' told entry) {e : Heard} (he : e ∈ entry) : e ∈ d'.state.2 :=
  h.log ▸ List.mem_append_right _ (Option.mem_toList.mpr he)

/-- Visitors keep the numbers of the calls that handed them out. -/
theorem isNumbered (h : d.Logs d' told entry) (hd : IsNumbered d.state.2) :
    IsNumbered d'.state.2 := by
  rw [h.log]
  intro k e v hk hv
  cases entry with
  | none =>
    rw [Option.toList_none, List.append_nil] at hk
    exact hd k e v hk hv
  | some last =>
    rcases getElem?_snoc hk with hk | ⟨rfl, rfl⟩
    · exact hd k e v hk hv
    · exact h.number e rfl v hv

/-- Code is told to visitors of methods that may have code, if that holds of the entry. -/
theorem codeFits (h : d.Logs d' told entry) (hd : CodeFits d.state.2)
    (hentry : ∀ e ∈ entry, told.tellsCode = true →
      ∃ access, OpensMethod d.state.2 e.who access ∧ access.mayHaveCode = true) :
    CodeFits d'.state.2 := by
  intro e he hcode
  rw [h.log] at he
  have hopens : ∃ access, OpensMethod d.state.2 e.who access ∧ access.mayHaveCode = true := by
    rcases List.mem_append.mp he with he | he
    · exact hd e he hcode
    · have he := Option.mem_toList.mp he
      exact hentry e he (h.call e he ▸ hcode)
  exact hopens.imp fun _ ⟨hopens, hmay⟩ => ⟨hopens.mono h.subset, hmay⟩

end Logs

/-! ## Desks and sites -/

/-- A desk that stands where a site stands: the visitor of the method that is open was handed out
for a method with its flags. -/
structure StandsAt (d : Desk (σ × List Heard) (Nat × κ)) (s : Site) : Prop where
  /-- Visitors have the numbers of the calls that handed them out. -/
  numbered : IsNumbered d.state.2
  /-- The visitor of the method stands behind those of the annotations that are open in it. -/
  host : ∀ name access paramOpen, s.host = some (.method name access paramOpen) →
    ∀ v, d.numbers[s.nest]? = some (some v) → OpensMethod d.state.2 v access

namespace StandsAt

variable {s s' : Site} {told : Call} {entry : Option Heard}

/-- A step after which the visitor of the method is the same, if a method is open. -/
theorem stay (h : d.StandsAt s) (hlogs : d.Logs d' told entry)
    (hsame : ∀ name access paramOpen, s'.host = some (.method name access paramOpen) →
      (∃ name paramOpen, s.host = some (.method name access paramOpen)) ∧
        d'.numbers[s'.nest]? = d.numbers[s.nest]?) : d'.StandsAt s' where
  numbered := hlogs.isNumbered h.numbered
  host name access paramOpen hhost v hv := by
    obtain ⟨⟨name', paramOpen', hhost'⟩, hplace⟩ := hsame name access paramOpen hhost
    exact (h.host name' access paramOpen' hhost' v (hplace ▸ hv)).mono hlogs.subset

/-- A comment changes nothing. -/
theorem comment (h : d.StandsAt s) (hlogs : d.Logs d' told entry)
    (htold : told.isComment = true) : d'.StandsAt s := by
  have hscopes : d'.numbers = d.numbers := by
    rw [hlogs.scopes]
    cases told <;> first | rfl | exact absurd htold Bool.false_ne_true
  exact h.stay hlogs fun name _ paramOpen hhost => ⟨⟨name, paramOpen, hhost⟩, by rw [hscopes]⟩

/-- A call that can follow. -/
theorem call (h : d.StandsAt s) (hlogs : d.Logs d' told entry) (hnext : s.next? told = some s') :
    d'.StandsAt s' := by
  have hscopes := hlogs.scopes
  cases Site.step_of_next? hnext with
  | header _ hhost => exact h.stay hlogs fun _ _ _ hmethod => by simp [hhost] at hmethod
  | field => exact h.stay hlogs fun _ _ _ hmethod => by simp at hmethod
  | method hnest _ _ name access signature =>
    refine ⟨hlogs.isNumbered h.numbered, ?_⟩
    rintro _ _ _ ⟨⟩ v hv
    have hopened : entry.bind Heard.opened = some v := by
      rw [hscopes] at hv
      dsimp only at hv
      rw [hnest] at hv
      exact Option.some.inj hv
    obtain ⟨e, he, hv⟩ := Option.bind_eq_some_iff.mp hopened
    exact ⟨e, hlogs.mem he, hv, name, signature, hlogs.call e he⟩
  | annotationOfClass _ hhost => exact h.stay hlogs fun _ _ _ hmethod => by simp [hhost] at hmethod
  | annotationOfField => exact h.stay hlogs fun _ _ _ hmethod => by simp at hmethod
  | endField => exact h.stay hlogs fun _ _ _ hmethod => by simp at hmethod
  | annotationOfMethod hnest =>
    refine h.stay hlogs fun name _ paramOpen hmethod => ⟨⟨name, paramOpen, hmethod⟩, ?_⟩
    rw [hscopes, hnest]
    rfl
  | endMethod => exact h.stay hlogs fun _ _ _ hmethod => by simp at hmethod
  | param _ hhost =>
    refine h.stay hlogs fun _ _ _ hmethod => ?_
    cases hmethod
    exact ⟨⟨_, _, hhost⟩, by rw [hscopes]; rfl⟩
  | paramEnd _ hhost =>
    refine h.stay hlogs fun _ _ _ hmethod => ?_
    cases hmethod
    exact ⟨⟨_, _, hhost⟩, by rw [hscopes]; rfl⟩
  | body _ _ hbody =>
    refine h.stay hlogs fun name _ paramOpen hmethod => ⟨⟨name, paramOpen, hmethod⟩, ?_⟩
    rw [hscopes]
    cases told <;> first | rfl | exact absurd hbody Bool.false_ne_true
  | value =>
    exact h.stay hlogs fun name _ paramOpen hmethod => ⟨⟨name, paramOpen, hmethod⟩, by
      rw [hscopes]; rfl⟩
  | nested hnest =>
    refine h.stay hlogs fun name _ paramOpen hmethod => ⟨⟨name, paramOpen, hmethod⟩, ?_⟩
    rw [hscopes, hnest]
    rfl
  | annotationEnd hnest =>
    refine h.stay hlogs fun name _ paramOpen hmethod => ⟨⟨name, paramOpen, hmethod⟩, ?_⟩
    rw [hscopes, hnest]
    exact List.getElem?_tail

/-- Code is told in a method, to a visitor that was handed out for it. -/
theorem opener (h : d.StandsAt s) (hentry : d.IsEntry told entry) (hnext : s.next? told = some s')
    (htold : told.tellsCode = true) :
    ∃ name access paramOpen, s.host = some (.method name access paramOpen) ∧
      ∀ e ∈ entry, OpensMethod d.state.2 e.who access := by
  obtain ⟨hnest, name, access, paramOpen, hhost⟩ := Site.host_of_tellsCode hnext htold
  refine ⟨name, access, paramOpen, hhost, fun e he => h.host _ _ _ hhost e.who ?_⟩
  have hwho := hentry.who
  rw [Option.mem_def.mp he, Option.map_some] at hwho
  rw [hnest, ← List.head?_eq_getElem?]
  exact Option.join_eq_some_iff.mp hwho.symm

end StandsAt

/-! ## Runs -/

section Runs

variable {calls : List Call} {s s' : Site}

/-- Nothing but the calls is told, if anything. -/
theorem map_call_sublist (hL : L.NeverFails) (d : Desk (σ × List Heard) (Nat × κ))
    (calls : List Call) :
    ((d.makeAll L.traced (calls.flatMap Call.moves)).state.2.map Heard.call).Sublist
      (d.state.2.map Heard.call ++ calls) := by
  induction calls generalizing d with
  | nil =>
    rw [List.append_nil]
    exact List.Sublist.refl _
  | cons call rest ih =>
    obtain ⟨entry, hlogs, -⟩ := exists_logs hL d call
    have hentry : (entry.toList.map Heard.call).Sublist [call] := by
      cases entry with
      | none => exact List.nil_sublist _
      | some e =>
        obtain rfl := hlogs.call e rfl
        exact List.Sublist.refl _
    rw [makeAll_cons, List.append_cons]
    refine (ih _).trans (List.Sublist.append_right ?_ rest)
    rw [hlogs.log, List.map_append]
    exact hentry.append_left _

/-- Calls that pass their checks, with comments between them. -/
theorem StandsAt.run (hL : L.NeverFails) (h : d.StandsAt s) (hcode : CodeFits d.state.2)
    (hrun : s.run true (calls.filter fun c => !c.isComment) = some s') :
    (d.makeAll L.traced (calls.flatMap Call.moves)).StandsAt s' ∧
      CodeFits (d.makeAll L.traced (calls.flatMap Call.moves)).state.2 := by
  induction calls generalizing d s with
  | nil =>
    obtain rfl := Option.some.inj hrun
    exact ⟨h, hcode⟩
  | cons call rest ih =>
    obtain ⟨entry, hlogs, -⟩ := exists_logs hL d call
    rw [makeAll_cons]
    rcases Site.run_remarked hrun with ⟨hcomment, hrest⟩ | ⟨mid, haccept, hrest⟩
    · refine ih (h.comment hlogs hcomment) (hlogs.codeFits hcode fun _ _ htells => ?_) hrest
      exact absurd htells (Bool.eq_false_iff.mp (Call.harmless_of_isComment hcomment).code)
    · have hnext := Site.next?_of_accept haccept
      refine ih (h.call hlogs hnext) (hlogs.codeFits hcode fun e he htells => ?_) hrest
      obtain ⟨name, access, paramOpen, hhost, hopens⟩ :=
        h.opener hlogs.toIsEntry hnext htells
      have hallows := (Site.allows_iff.mp (Site.allows_of_accept haccept)).2.2 htells
      rw [Site.allowsCode, hhost] at hallows
      exact ⟨access, hopens e he, hallows⟩

end Runs

end Desk

/-- Calls that pass their checks declare new members, and nothing is wrong with any of them. -/
theorem Site.isChecked_of_run {s s' : Site} {calls : List Call}
    (hrun : s.run true (calls.filter fun c => !c.isComment) = some s') :
    (∀ call ∈ calls, call.IsChecked) ∧
      s'.declared = (calls.filterMap Call.member?).reverse ++ s.declared ∧
      (s.declared.Nodup → s'.declared.Nodup) := by
  induction calls generalizing s with
  | nil =>
    obtain rfl := Option.some.inj hrun
    exact ⟨nofun, rfl, id⟩
  | cons call rest ih =>
    rcases Site.run_remarked hrun with ⟨hcomment, hrest⟩ | ⟨mid, haccept, hrest⟩
    · obtain ⟨hchecked, hdeclared, hnodup⟩ := ih hrest
      have hcall := Call.harmless_of_isComment hcomment
      rw [List.filterMap_cons_none hcall.member]
      exact ⟨List.forall_mem_cons.mpr ⟨hcall.checked, hchecked⟩, hdeclared, hnodup⟩
    · obtain ⟨hchecked, hdeclared, hnodup⟩ := ih hrest
      obtain ⟨hcall, hnew, -⟩ := Site.allows_iff.mp (Site.allows_of_accept haccept)
      have hmid := Site.declared_of_next? (Site.next?_of_accept haccept)
      refine ⟨List.forall_mem_cons.mpr ⟨hcall, hchecked⟩, ?_, fun hs => hnodup ?_⟩
      · rw [hdeclared, hmid]
        cases hmember : call.member? with
        | none => rw [List.filterMap_cons_none hmember]; rfl
        | some m =>
          rw [List.filterMap_cons_some hmember, List.reverse_cons, List.append_assoc]
          rfl
      · rw [hmid]
        cases hmember : call.member? with
        | none => exact hs
        | some m => exact List.nodup_cons.mpr ⟨hnew m hmember, hs⟩

/-! ## Soundness -/

/-- The flags of the method that a visitor was handed out for. -/
theorem OpensMethod.access_unique {log : List Heard} (hlog : IsNumbered log) {v : Nat}
    {access access' : Access} (h : OpensMethod log v access) (h' : OpensMethod log v access') :
    access = access' := by
  obtain ⟨e, he, hv, name, signature, hcall⟩ := h
  obtain ⟨e', he', hv', name', signature', hcall'⟩ := h'
  obtain rfl := hlog.opener_unique he he' hv hv'
  obtain ⟨-, rfl, -⟩ := Call.method.inj (hcall.symm.trans hcall')
  rfl

/-- A log is clean if nothing is told in it but calls that are checked, that are what their lines
spell, and that declare different members. -/
theorem isClean_of_calls {log : List Heard} {calls : List Call}
    (hsub : (log.map Heard.call).Sublist calls) (hchecked : ∀ call ∈ calls, call.IsChecked)
    (hspelled : ∀ call ∈ calls, call.IsSpelled) (hmembers : (calls.filterMap Call.member?).Nodup)
    (hcode : CodeFits log) (hnumbered : IsNumbered log) : IsClean log := by
  have hmem : ∀ h ∈ log, h.call ∈ calls := fun h hh => hsub.subset (List.mem_map_of_mem hh)
  have hpairs := List.pairwise_filterMap.mp hmembers
  have hfields : (calls.filterMap Call.fieldName?).Nodup := by
    refine List.pairwise_filterMap.mpr (hpairs.imp fun {c c'} hne name hname name' hname' => ?_)
    cases c <;> cases hname
    cases c' <;> cases hname'
    exact fun heq => hne _ rfl _ rfl (congrArg Member.field heq)
  have hmethods : (calls.filterMap Call.methodName?).Nodup := by
    refine List.pairwise_filterMap.mpr
      (hpairs.imp_of_mem fun {c c'} hc hc' hne m hm m' hm' heq => ?_)
    cases c <;> cases hm
    cases c' <;> cases hm'
    -- Methods with the same name and the same descriptor are spelled in the same way.
    obtain ⟨hname, hdescriptor⟩ := Prod.mk.inj heq
    have hparse := hspelled _ hc _ _ _ rfl
    rw [hname, hdescriptor, hspelled _ hc' _ _ _ rfl] at hparse
    obtain ⟨-, hsignature⟩ := Prod.mk.inj (Except.ok.inj hparse)
    exact hne _ rfl _ rfl (by rw [hname, hsignature])
  refine ⟨fun h hh => hchecked _ (hmem h hh), fun h hh htells access hopens => ?_, ?_, ?_⟩
  · obtain ⟨access', hopens', hmay⟩ := hcode h hh htells
    rwa [hopens.access_unique hnumbered hopens']
  · have hlog := hfields.sublist (hsub.filterMap _)
    rwa [List.filterMap_map] at hlog
  · have hlog := hmethods.sublist (hsub.filterMap _)
    rwa [List.filterMap_map] at hlog

/-- With checks a reading leaves a clean log, whether or not it comes to its end. -/
theorem isClean_callsOf {σ κ : Type} {L : Listener σ κ} (hL : L.NeverFails) {o : Options}
    (ho : o.validate = true) (root : κ) (state : σ) (source : Text) :
    IsClean (callsOf o L root state source) := by
  obtain ⟨moves, calls, ⟨s, hushed⟩, hheard, hend⟩ := leadsOut_dialogue o source
  have hmoves : (Desk.initial (0, root) (state, [])).makeAll L.traced moves =
      ((Desk.initial (0, root) (state, [])).makeAll L.traced
        (calls.flatMap Call.moves)).muffled hushed :=
    Desk.makeAll_overheard L.traced hheard (Desk.initial (0, root) (state, []))
  obtain ⟨first, hfirst, hrun⟩ := hheard.run fun _ => ⟨rfl, rfl⟩
  rw [ho] at hrun
  have hfirst : first.host = none ∧ first.declared = [] := by
    rcases hfirst with rfl | ⟨-, rfl⟩ <;> exact ⟨rfl, rfl⟩
  obtain ⟨hchecked, hdeclared, hnodup⟩ := Site.isChecked_of_run hrun
  have hspelled : ∀ call ∈ calls, call.IsSpelled :=
    fun call hcall => (hheard.keepsToLine call hcall).spelled
  have hmembers : (calls.filterMap Call.member?).Nodup := by
    have hs := hnodup (hfirst.2 ▸ List.nodup_nil)
    rw [hdeclared, hfirst.2, List.append_nil] at hs
    exact (List.reverse_perm _).nodup_iff.mp hs
  have hinitial : (Desk.initial (0, root) (state, ([] : List Heard))).StandsAt first :=
    ⟨nofun, fun _ _ _ hhost => absurd (hfirst.1.symm.trans hhost) (Option.some_ne_none _).symm⟩
  obtain ⟨hstands, hcode⟩ := hinitial.run hL nofun hrun
  have hsub := Desk.map_call_sublist hL (Desk.initial (0, root) (state, [])) calls
  have hclean : IsClean ((Desk.initial (0, root) (state, [])).makeAll L.traced moves).state.2 := by
    rw [hmoves]
    exact isClean_of_calls (Desk.map_call_sublist hL _ calls) hchecked hspelled hmembers hcode
      hstands.numbered
  rw [callsOf_eq _ _ _ _ hL]
  cases hresult : ((dialogue o source).rehearse o).result with
  | error fault =>
    rw [hresult] at hend
    rwa [hend]
  | ok _ =>
    rw [hresult] at hend
    -- Behind the calls the class ends.
    obtain ⟨entry, hlogs, -⟩ := Desk.exists_logs hL
      ((Desk.initial (0, root) (state, [])).makeAll L.traced moves) .finish
    have hlog : ((Desk.initial (0, root) (state, [])).makeAll L.traced
        (moves ++ [.tell .finish])).state.2 =
        ((Desk.initial (0, root) (state, [])).makeAll L.traced moves).state.2 ++ entry.toList := by
      rw [Desk.makeAll_append]
      exact hlogs.log
    rw [hend.1, hlog]
    cases entry with
    | none => rwa [Option.toList_none, List.append_nil]
    | some e => exact hclean.snoc (hlogs.call e rfl ▸ Call.harmless_finish)

end Smali
