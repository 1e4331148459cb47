import Smali.Proofs.Sites
import Smali.Proofs.StrictStep
import Smali.Proofs.ToldCalls

/-!
# What a recorder hears

A recorder that declines nothing logs all calls, whatever scope they are made in. So the log
of a strict reading and the calls of the source determine each other.
-/

namespace Smali

namespace Recorder

/-- A desk of a recorder that knows all scopes that are open at a site. -/
structure Knows (d : Desk State Handle) (s : Site) (calls : List Call) : Prop where
  /-- Every scope has a handle. -/
  scopes : ∃ places : List Handle, d.scopes = places.map some ∧
    places.length = s.depth + 1
  /-- The calls in the log. -/
  log : d.state.events.map Event.call = calls

/-- A call is logged. -/
theorem call_eq (d : Desk State Handle) {place : Handle} {outer : List (Option Handle)}
    (hscopes : d.scopes = some place :: outer) (call : Call) :
    d.call (listener .obliging) call =
      (.ok (call.opens?.map fun scope => ⟨place.depth + 1, scope⟩),
        { d with
          state := ⟨⟨place, call⟩ :: d.state.log, d.state.heard⟩
          scopes := some place :: outer }) := by
  simp only [Desk.call, hscopes]
  rfl

/-- A recorder logs a call of a site. -/
theorem Knows.call {d : Desk State Handle} {s s' : Site} {calls : List Call} (h : Knows d s calls)
    {call : Call} (hs : s.next? call = some s') :
    Knows (d.makeAll (listener .obliging) call.moves) s' (calls ++ [call]) := by
  obtain ⟨⟨places, hplaces, hlength⟩, hlog⟩ := h
  cases places with
  | nil => exact absurd hlength (by simp)
  | cons place outer =>
    have hcall := call_eq d hplaces call
    have hlog' : (State.events ⟨⟨place, call⟩ :: d.state.log, d.state.heard⟩).map Event.call =
        calls ++ [call] := by
      unfold State.events at hlog ⊢
      rw [List.reverse_cons, List.map_append, hlog]
      rfl
    rw [List.length_cons, Nat.add_right_cancel_iff] at hlength
    cases Site.leads_of_next? hs with
    | finish hfinish hdepth =>
      subst hfinish
      have hmake : d.makeAll (listener .obliging) Call.finish.moves =
          { (d.call (listener .obliging) .finish).2 with
            scopes := (d.call (listener .obliging) .finish).2.scopes.tail } := rfl
      rw [hmake, hcall]
      exact ⟨⟨outer, rfl, hlength.trans hdepth⟩, hlog'⟩
    | enter hmoves hopens hdepth =>
      obtain ⟨scope, hscope⟩ := Option.isSome_iff_exists.mp hopens
      have hmake : d.makeAll (listener .obliging) call.moves =
          d.make (listener .obliging) (.enter call) := by rw [hmoves]; rfl
      rw [hmake, Desk.make, hcall, hscope]
      exact ⟨⟨⟨place.depth + 1, scope⟩ :: place :: outer, rfl, by
        rw [List.length_cons, List.length_cons, hlength, hdepth]⟩, hlog'⟩
    | tell hmoves hdepth =>
      have hmake : d.makeAll (listener .obliging) call.moves =
          (d.call (listener .obliging) call).2 := by rw [hmoves]; rfl
      rw [hmake, hcall]
      exact ⟨⟨place :: outer, rfl, by rw [List.length_cons, hlength, hdepth]⟩, hlog'⟩

/-- A recorder logs calls one after another. -/
theorem Knows.calls {d : Desk State Handle} {s s' : Site} {before : List Call}
    (h : Knows d s before) {validate : Bool} {calls : List Call}
    (hs : s.run validate calls = some s') :
    Knows (d.makeAll (listener .obliging) (calls.flatMap Call.moves)) s' (before ++ calls) := by
  induction calls generalizing d s before with
  | nil =>
    obtain rfl := Option.some.inj hs
    simpa [Desk.makeAll] using h
  | cons call rest ih =>
    obtain ⟨mid, hmid, hrest⟩ := Option.bind_eq_some_iff.mp hs
    rw [Desk.makeAll_cons, List.append_cons]
    exact ih (h.call (Site.next?_of_accept hmid)) hrest

/-- What a new recorder hears of calls about a class and the end of the class. -/
def eventsOf (calls : List Call) : List Event :=
  ((Desk.initial (root .ofClass) State.initial).makeAll (listener .obliging)
    (calls.flatMap Call.moves ++ [.tell .finish])).state.events

/-- It has a log of the calls, and of the end of the class behind them. -/
theorem Knows.log_eventsOf {s : Site} {calls told : List Call}
    (h : Knows ((Desk.initial (root .ofClass) State.initial).makeAll (listener .obliging)
      (calls.flatMap Call.moves)) s told) :
    (eventsOf calls).map Event.call = told ++ [.finish] := by
  have hall : eventsOf calls =
      (Desk.make (listener .obliging) ((Desk.initial (root .ofClass) State.initial).makeAll
        (listener .obliging) (calls.flatMap Call.moves)) (.tell .finish)).state.events := by
    unfold eventsOf
    rw [Desk.makeAll, List.foldl_append]
    rfl
  rw [hall]
  generalize (Desk.initial (root .ofClass) State.initial).makeAll (listener .obliging)
    (calls.flatMap Call.moves) = d at h ⊢
  obtain ⟨⟨places, hplaces, hlength⟩, hlog⟩ := h
  cases places with
  | nil => exact absurd hlength (by simp)
  | cons place outer =>
    have hmake : Desk.make (listener .obliging) d (.tell .finish) =
        (d.call (listener .obliging) .finish).2 := rfl
    rw [hmake, call_eq d hplaces]
    unfold State.events at hlog ⊢
    rw [List.reverse_cons, List.map_append, hlog]
    rfl

/-- A new recorder knows the class. -/
theorem knows_initial {s : Site} (hdepth : s.depth = 0) :
    Knows (Desk.initial (root .ofClass) State.initial) s [] :=
  ⟨⟨[root .ofClass], rfl, by rw [hdepth]; rfl⟩, rfl⟩

/-- It hears all of the calls, if they can follow on each other. -/
theorem calls_eventsOf {snippet validate : Bool} {calls : List Call} {s : Site}
    (hrun : (Site.initial snippet).run validate calls = some s) :
    (eventsOf calls).map Event.call = calls ++ [.finish] :=
  Knows.log_eventsOf ((knows_initial rfl).calls hrun)

end Recorder

/-- What a recorder that declines nothing hears of a source. -/
def heard (o : Options) (source : Text) : Except Fault (List Recorder.Event) :=
  match read o (Recorder.listener .obliging) (Recorder.root .ofClass) .initial source with
  | (.ok _, desk) => .ok desk.state.events
  | (.error fault, _) => .error fault

/-- A recorder hears the calls of the source. -/
theorem heard_eq {o : Options} (h : o.IsPlain) (source : Text) :
    (heard o source).toOption = (strictCalls o source).map Recorder.eventsOf := by
  have hnever : (Recorder.listener .obliging).NeverFails := Recorder.listener_neverFails rfl
  have hread := read_eq h hnever (Recorder.root .ofClass) .initial source
  unfold heard
  generalize read o (Recorder.listener .obliging) (Recorder.root .ofClass) .initial source =
    outcome at hread ⊢
  obtain ⟨result, desk⟩ := outcome
  cases hcalls : strictCalls o source with
  | none =>
    rw [hcalls] at hread
    obtain ⟨fault, hresult⟩ := hread
    obtain rfl : result = .error fault := hresult
    rfl
  | some calls =>
    rw [hcalls] at hread
    obtain ⟨hresult, hstate⟩ := hread
    obtain rfl : result = .ok () := hresult
    exact congrArg (fun state => some (Recorder.State.events state)) hstate

end Smali
