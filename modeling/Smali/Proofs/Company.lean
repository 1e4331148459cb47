import Mathlib.Data.List.Forall2
import Mathlib.Order.Monotone.Basic
import Smali.Proofs.Quiet
import Smali.Proofs.Trace

/-!
# Listeners in company

Two listeners keep company if one of them does what the other one does, except that it declines
some scopes and perhaps is not told the comments. Led through the same moves, comments aside, it
hears the calls of the other one without those in the scopes that it declined. The numbers of
visitors shift on the way, because they count calls, but their order stays.
-/

namespace Smali

/-! ## Logs up to the numbers of visitors -/

/-- A call with other numbers for the visitors. -/
def Heard.renumber (f : Nat → Nat) (h : Heard) : Heard := ⟨f h.who, h.call, h.opened.map f⟩

/-- Other numbers for visitors, in the same order. The class keeps its number. -/
structure IsRenumbering (f : Nat → Nat) : Prop where
  /-- The visitors keep their order. -/
  mono : StrictMono f
  /-- The class keeps its number. -/
  zero : f 0 = 0

/-- The same calls on the same visitors, whatever the numbers of these are. -/
def SameCalls (log log' : List Heard) : Prop :=
  ∃ (calls : List Heard) (f g : Nat → Nat), IsRenumbering f ∧ IsRenumbering g ∧
    calls.map (Heard.renumber f) = log ∧ calls.map (Heard.renumber g) = log'

/-- Calls with other numbers for the visitors are the same calls. -/
theorem sameCalls_map (log : List Heard) {f : Nat → Nat} (hf : IsRenumbering f) :
    SameCalls log (log.map (Heard.renumber f)) := by
  refine ⟨log, id, f, ⟨strictMono_id, rfl⟩, hf, List.map_id'' (fun h => ?_) log, rfl⟩
  obtain ⟨who, call, opened⟩ := h
  cases opened <;> rfl

/-- What is told does not depend on the numbers. -/
theorem SameCalls.map_call {log log' : List Heard} (h : SameCalls log log') :
    log.map Heard.call = log'.map Heard.call := by
  obtain ⟨calls, f, g, -, -, rfl, rfl⟩ := h
  rw [List.map_map, List.map_map]
  rfl

/-- The visitors whose calls are left out, after one more call. -/
def Heard.goneNext (declines : Call → Bool) (gone : List Nat) (h : Heard) : List Nat :=
  if h.who ∈ gone ∨ declines h.call = true then h.opened.toList ++ gone else gone

/-- What remains of a call if some scopes are declined: nothing, if it was made on a visitor whose
calls are left out, and no visitor is handed out for a scope that is declined. -/
def Heard.remains (declines : Call → Bool) (gone : List Nat) (h : Heard) : Option Heard :=
  if h.who ∈ gone then none
  else if declines h.call = true then some ⟨h.who, h.call, none⟩
  else some h

/-- The calls that remain if some scopes are declined: those on the visitors of such scopes are
left out, and those on all visitors that were handed out further inside. -/
def withoutDeclined (declines : Call → Bool) : List Nat → List Heard → List Heard
  | _, [] => []
  | gone, h :: rest =>
    (h.remains declines gone).toList ++ withoutDeclined declines (h.goneNext declines gone) rest

/-- One more call at the end of a log. -/
theorem withoutDeclined_snoc (declines : Call → Bool) (gone : List Nat) (log : List Heard)
    (h : Heard) :
    withoutDeclined declines gone (log ++ [h]) = withoutDeclined declines gone log ++
      (h.remains declines (log.foldl (Heard.goneNext declines) gone)).toList := by
  induction log generalizing gone with
  | nil => simp [withoutDeclined]
  | cons first rest ih =>
    simp only [List.cons_append, withoutDeclined, List.foldl_cons, ih, List.append_assoc]

/-- If no scope is declined, all calls remain. -/
theorem withoutDeclined_none (log : List Heard) :
    withoutDeclined (fun _ => false) [] log = log := by
  induction log with
  | nil => rfl
  | cons h rest ih =>
    have hgone : h.goneNext (fun _ => false) [] = [] := by simp [Heard.goneNext]
    have hremains : h.remains (fun _ => false) [] = some h := by simp [Heard.remains]
    rw [withoutDeclined, hgone, hremains, ih]
    rfl

/-! ## Company -/

/-- What is common to two listeners. -/
structure Company (σ κ σ' κ' : Type) where
  /-- States that go together. -/
  states : σ → σ' → Prop
  /-- Handles for the same scope. -/
  handles : κ → κ' → Prop
  /-- Handles of the first listener for a scope that the second one does not listen in. -/
  alone : κ → Prop

namespace Company

variable {σ κ σ' κ' : Type}

/-- What is opened with the same handle is opened alike. -/
theorem rel_eq (opened : Option κ) : Option.Rel Eq opened opened := by
  cases opened with
  | none => exact .none
  | some child => exact .some rfl

/-- Replies to a call that both listeners heard. If the scope that it opens is declined, the
second listener has no handle for it. Otherwise it has one if the first listener has one. -/
structure Replies (C : Company σ κ σ' κ') (declines : Call → Bool) (call : Call) (r : Reply σ κ)
    (r' : Reply σ' κ') : Prop where
  /-- The states go on together. -/
  state : C.states r.state r'.state
  /-- So do the handles of the scope of the call. -/
  self : C.handles r.self r'.self
  /-- The scope that the call opens. -/
  outcome : call.opens?.isSome = true → ∀ opened opened', r.outcome = .ok opened →
    r'.outcome = .ok opened' →
      if declines call = true then opened' = none ∧ ∀ child ∈ opened, C.alone child
      else Option.Rel C.handles opened opened'

/-- The reply to a call that only the first listener heard, in a scope that the second one does
not listen in. -/
structure RepliesAlone (C : Company σ κ σ' κ') (call : Call) (state' : σ') (r : Reply σ κ) :
    Prop where
  /-- The state still goes with that of the second listener. -/
  state : C.states r.state state'
  /-- The handle stays one of such a scope. -/
  self : C.alone r.self
  /-- And so is the handle of a scope inside. -/
  outcome : call.opens?.isSome = true → ∀ opened, r.outcome = .ok opened →
    ∀ child ∈ opened, C.alone child

/-- The second listener does what the first one does, except that it declines some scopes. If it
is deaf, it is not told the comments, either. -/
structure Holds (C : Company σ κ σ' κ') (declines : Call → Bool) (deaf : Bool) (L : Listener σ κ)
    (L' : Listener σ' κ') : Prop where
  /-- Calls that both hear. -/
  together : ∀ {handle handle' state state'} call, (deaf && call.isComment) = false →
    C.handles handle handle' → C.states state state' → C.Replies declines call (L.hear handle call state)
      (L'.hear handle' call state')
  /-- Comments that only the first one hears. -/
  comment : ∀ {handle handle' state state'} call, deaf = true → call.isComment = true →
    C.handles handle handle' → C.states state state' →
    C.states (L.hear handle call state).state state' ∧
      C.handles (L.hear handle call state).self handle'
  /-- Calls in a scope that only the first one listens in. -/
  alone : ∀ {handle state state'} call, C.alone handle → C.states state state' →
    C.RepliesAlone call state' (L.hear handle call state)

end Company

/-! ## Logs in company -/

/-- The calls that a listener is told. -/
def heeded (deaf : Bool) (log : List Heard) : List Heard :=
  log.filter fun h => !(deaf && h.call.isComment)

/-- The visitors whose calls are left out, behind all calls of a log. -/
def goneIn (declines : Call → Bool) (deaf : Bool) (log : List Heard) : List Nat :=
  (heeded deaf log).foldl (Heard.goneNext declines) []

section Snoc

variable {declines : Call → Bool} {deaf : Bool} {log : List Heard} {h : Heard}

/-- A comment that is not told changes nothing. -/
theorem heeded_snoc_missed (hcall : (deaf && h.call.isComment) = true) :
    heeded deaf (log ++ [h]) = heeded deaf log := by
  rw [heeded, List.filter_append, List.filter_cons_of_neg (by rw [hcall]; exact Bool.false_ne_true),
    List.filter_nil, List.append_nil]
  rfl

/-- Every other call is told. -/
theorem heeded_snoc (hcall : (deaf && h.call.isComment) = false) :
    heeded deaf (log ++ [h]) = heeded deaf log ++ [h] := by
  rw [heeded, List.filter_append, List.filter_cons_of_pos (by rw [hcall]; rfl), List.filter_nil]
  rfl

/-- The visitors whose calls are left out, behind one more call. -/
theorem goneIn_snoc (hcall : (deaf && h.call.isComment) = false) :
    goneIn declines deaf (log ++ [h]) = h.goneNext declines (goneIn declines deaf log) := by
  rw [goneIn, heeded_snoc hcall, List.foldl_append]
  rfl

/-- One more call leaves all these visitors out, and at most the one that it hands out besides. -/
theorem goneIn_subset_snoc (declines : Call → Bool) (deaf : Bool) (log : List Heard) (h : Heard) :
    goneIn declines deaf log ⊆ goneIn declines deaf (log ++ [h]) ∧
      ∀ v ∈ goneIn declines deaf (log ++ [h]), v ∈ h.opened ∨ v ∈ goneIn declines deaf log := by
  cases hcall : deaf && h.call.isComment with
  | true =>
    have hsame : goneIn declines deaf (log ++ [h]) = goneIn declines deaf log := by
      rw [goneIn, heeded_snoc_missed hcall, goneIn]
    exact hsame ▸ ⟨fun _ hv => hv, fun _ hv => .inr hv⟩
  | false =>
    rw [goneIn_snoc hcall]
    unfold Heard.goneNext
    split
    · exact ⟨List.subset_append_right _ _,
        fun v hv => (List.mem_append.mp hv).imp_left Option.mem_toList.mp⟩
    · exact ⟨fun _ hv => hv, fun _ hv => .inr hv⟩

/-- What remains, with one more call. -/
theorem withoutDeclined_heeded_snoc (hcall : (deaf && h.call.isComment) = false) :
    withoutDeclined declines [] (heeded deaf (log ++ [h])) =
      withoutDeclined declines [] (heeded deaf log) ++
        (h.remains declines (goneIn declines deaf log)).toList := by
  rw [heeded_snoc hcall, withoutDeclined_snoc]
  rfl

end Snoc

/-- Numbers above a bound go to the next number. -/
def shiftAbove (bound : Nat) (f : Nat → Nat) (v : Nat) : Nat := if v ≤ bound then f v else f v + 1

/-- The second log is what remains of the first one, up to the numbers of visitors. New visitors
get numbers that go together. -/
structure LogsAgree (declines : Call → Bool) (deaf : Bool) (f : Nat → Nat)
    (log log' : List Heard) : Prop extends IsRenumbering f where
  /-- The next numbers go together. -/
  ahead : ∀ k, f (log'.length + 1 + k) = log.length + 1 + k
  /-- What remains. -/
  same : log'.map (Heard.renumber f) = withoutDeclined declines [] (heeded deaf log)
  /-- Visitors whose calls are left out were handed out before. -/
  gone : ∀ v ∈ goneIn declines deaf log, v ≤ log.length
  /-- So were all visitors of the second log. -/
  known : ∀ h ∈ log', h.who ≤ log'.length ∧ ∀ v ∈ h.opened, v ≤ log'.length

namespace LogsAgree

variable {declines : Call → Bool} {deaf : Bool} {f : Nat → Nat} {log log' : List Heard}

/-- Before the first call. -/
theorem nil : LogsAgree declines deaf id [] [] :=
  ⟨⟨strictMono_id, rfl⟩, fun _ => rfl, rfl, fun _ hv => absurd hv List.not_mem_nil, nofun⟩

/-- The next visitor of the second log is the next one of the first log. -/
theorem next (h : LogsAgree declines deaf f log log') : f (log'.length + 1) = log.length + 1 :=
  h.ahead 0

/-- A visitor that both logs know is not the next one. -/
theorem lt_next (h : LogsAgree declines deaf f log log') {who : Nat} (hwho : who ≤ log'.length) :
    f who < log.length + 1 :=
  h.next ▸ h.mono (Nat.lt_add_one_of_le hwho)

/-- The next visitor is not left out. -/
theorem next_not_mem_gone (h : LogsAgree declines deaf f log log') :
    log.length + 1 ∉ goneIn declines deaf log :=
  fun hmem => Nat.not_succ_le_self _ (h.gone _ hmem)

/-- Visitors whose calls are left out were handed out before, also behind one more call. -/
theorem gone_snoc (h : LogsAgree declines deaf f log log') {entry : Heard}
    (hopened : ∀ number ∈ entry.opened, number = log.length + 1) :
    ∀ v ∈ goneIn declines deaf (log ++ [entry]), v ≤ (log ++ [entry]).length := by
  intro v hv
  rw [List.length_append, List.length_singleton]
  rcases (goneIn_subset_snoc declines deaf log entry).2 v hv with hv | hv
  · exact Nat.le_of_eq (hopened v hv)
  · exact Nat.le_succ_of_le (h.gone v hv)

/-- A call that both listeners hear. -/
theorem heard (h : LogsAgree declines deaf f log log') {who : Nat} (hwho : who ≤ log'.length)
    (hgone : f who ∉ goneIn declines deaf log) {call : Call}
    (hcall : (deaf && call.isComment) = false) {opened opened' : Option Nat}
    (hopened : ∀ number ∈ opened, number = log.length + 1)
    (hopened' : opened' = if declines call = true then none else
      opened.map fun _ => log'.length + 1) :
    LogsAgree declines deaf f (log ++ [⟨f who, call, opened⟩]) (log' ++ [⟨who, call, opened'⟩]) := by
  have hnumber : opened'.map f = if declines call = true then none else opened := by
    subst hopened'
    split
    · rfl
    · cases opened with
      | none => rfl
      | some number => rw [hopened number rfl, Option.map_map, Option.map_some,
          Function.comp_apply, h.next]
  refine ⟨h.toIsRenumbering, fun k => ?_, ?_, h.gone_snoc hopened, fun entry hentry => ?_⟩
  · have hahead := h.ahead (1 + k)
    rw [List.length_append, List.length_append, List.length_singleton, List.length_singleton]
    rwa [← Nat.add_assoc, ← Nat.add_assoc] at hahead
  · rw [withoutDeclined_heeded_snoc hcall, List.map_append, h.same, Heard.remains, if_neg hgone,
      List.map_singleton, Heard.renumber, hnumber]
    split <;> rfl
  · rw [List.length_append, List.length_singleton]
    rcases List.mem_append.mp hentry with hentry | hentry
    · obtain ⟨hle, hall⟩ := h.known entry hentry
      exact ⟨Nat.le_succ_of_le hle, fun v hv => Nat.le_succ_of_le (hall v hv)⟩
    · rw [List.mem_singleton.mp hentry]
      refine ⟨Nat.le_succ_of_le hwho, fun v hv => ?_⟩
      subst hopened'
      split at hv
      · exact absurd hv (Option.not_mem_none v)
      · obtain ⟨_, _, rfl⟩ := Option.map_eq_some_iff.mp hv
        exact Nat.le_refl _

/-- A call that only the first listener hears, and of which nothing remains, shifts the numbers of
all later visitors. -/
theorem shift (h : LogsAgree declines deaf f log log') {entry : Heard}
    (hopened : ∀ number ∈ entry.opened, number = log.length + 1)
    (hsame : withoutDeclined declines [] (heeded deaf (log ++ [entry])) =
      withoutDeclined declines [] (heeded deaf log)) :
    ∃ g : Nat → Nat, (∀ v ≤ log'.length, g v = f v) ∧
      LogsAgree declines deaf g (log ++ [entry]) log' := by
  have hbelow : ∀ v ≤ log'.length, shiftAbove log'.length f v = f v := fun v hv => if_pos hv
  refine ⟨shiftAbove log'.length f, hbelow, ⟨fun v w hlt => ?_, ?_⟩, fun k => ?_, ?_,
    h.gone_snoc hopened, h.known⟩
  · have hmono := h.mono hlt
    unfold shiftAbove
    split <;> split <;> omega
  · exact (hbelow 0 (Nat.zero_le _)).trans h.zero
  · have hahead := h.ahead k
    rw [shiftAbove, if_neg (by omega), hahead, List.length_append, List.length_singleton]
    omega
  · rw [hsame, ← h.same]
    refine List.map_congr_left fun heard hheard => ?_
    obtain ⟨hwho, hopened⟩ := h.known heard hheard
    unfold Heard.renumber
    rw [hbelow _ hwho, Option.map_congr fun v hv => hbelow v (hopened v hv)]

/-- A comment that the second listener is not told, or a call in a scope that only the first one
listens in. -/
theorem missed (h : LogsAgree declines deaf f log log') (entry : Heard)
    (hcall : (deaf && entry.call.isComment) = true ∨ entry.who ∈ goneIn declines deaf log)
    (hopened : ∀ number ∈ entry.opened, number = log.length + 1) :
    ∃ g : Nat → Nat, (∀ v ≤ log'.length, g v = f v) ∧
      LogsAgree declines deaf g (log ++ [entry]) log' := by
  refine h.shift hopened ?_
  cases hmissed : deaf && entry.call.isComment with
  | true => rw [heeded_snoc_missed hmissed]
  | false =>
    have hwho := hcall.resolve_left (by rw [hmissed]; exact Bool.false_ne_true)
    rw [withoutDeclined_heeded_snoc hmissed, Heard.remains, if_pos hwho]
    exact List.append_nil _

end LogsAgree

/-! ## Desks in company -/

/-- The number of the visitor that a listener hands out, if a call opens a scope. -/
theorem Listener.numberFor_ok {κ : Type} (call : Call) (opened : Option κ) (number : Nat) :
    numberFor call (.ok opened) number =
      if call.opens?.isSome = true then opened.map fun _ => number else none := by
  unfold numberFor
  cases call.opens? <;> cases opened <;> rfl

/-- It is the next number. -/
theorem Listener.mem_numberFor {κ : Type} {call : Call} {opened : Option κ} {number : Nat} :
    ∀ n ∈ (if call.opens?.isSome = true then opened.map fun _ => number else none),
      n = number := by
  intro n hn
  split at hn
  · obtain ⟨_, _, rfl⟩ := Option.map_eq_some_iff.mp hn
    rfl
  · exact absurd hn (Option.not_mem_none n)

namespace Company

variable {σ κ σ' κ' : Type}

/-- What the two desks hold for one open scope: nobody listens in it, or both listeners do, with
visitors that go together, or only the first one does, and its calls are left out. -/
inductive Shares (C : Company σ κ σ' κ') (f : Nat → Nat) (gone : List Nat) (known : Nat) :
    Option (Nat × κ) → Option (Nat × κ') → Prop where
  /-- Nobody listens. -/
  | unheard : C.Shares f gone known none none
  /-- Both listen. -/
  | both {who : Nat} {handle : κ} {handle' : κ'} (hwho : who ≤ known) (hgone : f who ∉ gone)
    (h : C.handles handle handle') :
    C.Shares f gone known (some (f who, handle)) (some (who, handle'))
  /-- Only the first one listens. -/
  | alone {who : Nat} {handle : κ} (hgone : who ∈ gone) (h : C.alone handle) :
    C.Shares f gone known (some (who, handle)) none

/-- One more call changes nothing about a scope that is open. -/
theorem Shares.snoc {C : Company σ κ σ' κ'} {declines : Call → Bool} {deaf : Bool}
    {f g : Nat → Nat} {log log' : List Heard} {scope : Option (Nat × κ)}
    {scope' : Option (Nat × κ')}
    (h : C.Shares f (goneIn declines deaf log) log'.length scope scope')
    (hlogs : LogsAgree declines deaf f log log') (hg : ∀ v ≤ log'.length, g v = f v)
    {entry : Heard} (hopened : ∀ number ∈ entry.opened, number = log.length + 1) {known : Nat}
    (hknown : log'.length ≤ known) :
    C.Shares g (goneIn declines deaf (log ++ [entry])) known scope scope' := by
  obtain ⟨hsub, hnew⟩ := goneIn_subset_snoc declines deaf log entry
  cases h with
  | unheard => exact .unheard
  | @both who handle handle' hwho hgone h =>
    have hstays : f who ∉ goneIn declines deaf (log ++ [entry]) := by
      intro hmem
      rcases hnew _ hmem with hmem | hmem
      · exact Nat.ne_of_lt (hlogs.lt_next hwho) (hopened _ hmem)
      · exact hgone hmem
    rw [← hg who hwho] at hstays ⊢
    exact .both (hwho.trans hknown) hstays h
  | alone hgone h => exact .alone (hsub hgone) h

/-- What the desks hold for a scope that a call opens, where both listeners heard the call. -/
theorem Shares.opened {C : Company σ κ σ' κ'} {declines : Call → Bool} {deaf : Bool}
    {f : Nat → Nat} {log log' : List Heard} (hlogs : LogsAgree declines deaf f log log')
    {who : Nat} (hgone : f who ∉ goneIn declines deaf log) {call : Call}
    (hcall : (deaf && call.isComment) = false) {opened : Option κ} {opened' : Option κ'}
    (hopens : if declines call = true then opened' = none ∧ ∀ child ∈ opened, C.alone child
      else Option.Rel C.handles opened opened') :
    C.Shares f
      (goneIn declines deaf (log ++ [⟨f who, call, opened.map fun _ => log.length + 1⟩]))
      (log'.length + 1) (opened.map fun child => (log.length + 1, child))
      (opened'.map fun child => (log'.length + 1, child)) := by
  rw [goneIn_snoc hcall, Heard.goneNext]
  split at hopens
  next hd =>
    obtain ⟨rfl, halone⟩ := hopens
    rw [if_pos (.inr hd)]
    cases opened with
    | none => exact .unheard
    | some child => exact .alone List.mem_cons_self (halone child rfl)
  next hd =>
    rw [if_neg (not_or.mpr ⟨hgone, hd⟩)]
    cases hopens with
    | none => exact .unheard
    | some hhandles =>
      rw [Option.map_some, Option.map_some, ← hlogs.next]
      exact .both (Nat.le_refl _) (hlogs.next ▸ hlogs.next_not_mem_gone) hhandles

/-- The same where only the first listener heard it. -/
theorem Shares.openedAlone {C : Company σ κ σ' κ'} {declines : Call → Bool} {deaf : Bool}
    {f : Nat → Nat} {log : List Heard} {who known : Nat} (hgone : who ∈ goneIn declines deaf log)
    {call : Call} (hcall : (deaf && call.isComment) = false) {opened : Option κ} {number : Nat}
    (halone : ∀ child ∈ opened, C.alone child) :
    C.Shares f (goneIn declines deaf (log ++ [⟨who, call, opened.map fun _ => number⟩])) known
      (opened.map fun child => (number, child)) none := by
  rw [goneIn_snoc hcall, Heard.goneNext, if_pos (.inl hgone)]
  cases opened with
  | none => exact .unheard
  | some child => exact .alone List.mem_cons_self (halone child rfl)

/-- The desks of two listeners in company. -/
structure Desks (C : Company σ κ σ' κ') (declines : Call → Bool) (deaf : Bool) (f : Nat → Nat)
    (d : Desk (σ × List Heard) (Nat × κ)) (d' : Desk (σ' × List Heard) (Nat × κ')) : Prop where
  /-- The states go together. -/
  states : C.states d.state.1 d'.state.1
  /-- The logs agree. -/
  logs : LogsAgree declines deaf f d.state.2 d'.state.2
  /-- The open scopes go together. -/
  scopes : List.Forall₂ (C.Shares f (goneIn declines deaf d.state.2) d'.state.2.length)
    d.scopes d'.scopes

section Course

variable {C : Company σ κ σ' κ'} {declines : Call → Bool} {deaf : Bool} {L : Listener σ κ}
  {L' : Listener σ' κ'} {f : Nat → Nat} {d : Desk (σ × List Heard) (Nat × κ)}
  {d' : Desk (σ' × List Heard) (Nat × κ')}

/-- A call that both desks make. The scopes that it opens go together. -/
theorem Desks.call (hC : C.Holds declines deaf L L') (hL : L.NeverFails) (hL' : L'.NeverFails)
    (h : C.Desks declines deaf f d d') {call : Call} (hcall : (deaf && call.isComment) = false) :
    ∃ g opened opened', (d.call L.traced call).1 = .ok opened ∧
      (d'.call L'.traced call).1 = .ok opened' ∧
      C.Desks declines deaf g (d.call L.traced call).2 (d'.call L'.traced call).2 ∧
      (call.opens?.isSome = true →
        C.Shares g (goneIn declines deaf (d.call L.traced call).2.state.2)
          (d'.call L'.traced call).2.state.2.length opened opened') := by
  obtain ⟨⟨state, log⟩, scopes, skipped⟩ := d
  obtain ⟨⟨state', log'⟩, scopes', skipped'⟩ := d'
  obtain ⟨hstates, hlogs, hscopes⟩ := h
  dsimp only at hstates hlogs hscopes
  cases hscopes with
  | nil => exact ⟨f, none, none, rfl, rfl, ⟨hstates, hlogs, .nil⟩, fun _ => .unheard⟩
  | cons hscope houter =>
    cases hscope with
    | unheard =>
      exact ⟨f, none, none, rfl, rfl, ⟨hstates, hlogs, .cons .unheard houter⟩, fun _ => .unheard⟩
    | @both who handle handle' hwho hgone hhandles =>
      obtain ⟨opened, hopened⟩ := hL handle call state
      obtain ⟨opened', hopened'⟩ := hL' handle' call state'
      obtain ⟨hstate, hself, houtcome⟩ := hC.together call hcall hhandles hstates
      simp only [Desk.call, Listener.traced, hopened, hopened', Listener.numberFor_ok]
      generalize hnumber : (if call.opens?.isSome = true then
        opened.map fun _ => log.length + 1 else none) = number
      generalize hnumber' : (if call.opens?.isSome = true then
        opened'.map fun _ => log'.length + 1 else none) = number'
      have hnew : ∀ n ∈ number, n = log.length + 1 := hnumber ▸ Listener.mem_numberFor
      have hsame : number' = if declines call = true then none else
          number.map fun _ => log'.length + 1 := by
        subst hnumber hnumber'
        by_cases ho : call.opens?.isSome = true
        · have hopens := houtcome ho opened opened' hopened hopened'
          by_cases hd : declines call = true
          · rw [if_pos hd] at hopens
            simp [hd, hopens.1]
          · rw [if_neg hd] at hopens
            cases hopens <;> simp [hd, ho]
        · simp [ho]
      have hlogs' := hlogs.heard hwho hgone hcall hnew hsame
      have hknown : log'.length ≤ (log' ++ [(⟨who, call, number'⟩ : Heard)]).length := by simp
      refine ⟨f, _, _, rfl, rfl, ⟨hstate, hlogs', .cons ?_ ?_⟩, fun ho => ?_⟩
      · exact (Shares.both hwho hgone hself).snoc hlogs (fun _ _ => rfl) hnew hknown
      · exact houter.imp fun _ _ h => h.snoc hlogs (fun _ _ => rfl) hnew hknown
      · rw [if_pos ho] at hnumber
        subst hnumber
        rw [List.length_append, List.length_singleton]
        exact .opened hlogs hgone hcall (houtcome ho opened opened' hopened hopened')
    | @alone who handle hgone hhandle =>
      obtain ⟨opened, hopened⟩ := hL handle call state
      obtain ⟨hstate, hself, houtcome⟩ := hC.alone call hhandle hstates
      simp only [Desk.call, Listener.traced, hopened, Listener.numberFor_ok]
      generalize hnumber : (if call.opens?.isSome = true then
        opened.map fun _ => log.length + 1 else none) = number
      have hnew : ∀ n ∈ number, n = log.length + 1 := hnumber ▸ Listener.mem_numberFor
      obtain ⟨g, hg, hlogs'⟩ := hlogs.missed ⟨who, call, number⟩ (.inr hgone) hnew
      refine ⟨g, _, _, rfl, rfl, ⟨hstate, hlogs', .cons ?_ ?_⟩, fun ho => ?_⟩
      · exact (Shares.alone hgone hself).snoc hlogs hg hnew (Nat.le_refl _)
      · exact houter.imp fun _ _ h => h.snoc hlogs hg hnew (Nat.le_refl _)
      · rw [if_pos ho] at hnumber
        subst hnumber
        exact .openedAlone hgone hcall (houtcome ho opened hopened)

/-- A comment that only the first desk tells. -/
theorem Desks.missed (hC : C.Holds declines deaf L L') (hL : L.NeverFails)
    (h : C.Desks declines deaf f d d') {call : Call} (hcall : (deaf && call.isComment) = true) :
    ∃ g, C.Desks declines deaf g (d.make L.traced (.tell call)) d' := by
  obtain ⟨⟨state, log⟩, scopes, skipped⟩ := d
  obtain ⟨⟨state', log'⟩, scopes', skipped'⟩ := d'
  obtain ⟨hstates, hlogs, hscopes⟩ := h
  dsimp only at hstates hlogs hscopes
  obtain ⟨hdeaf, hcomment⟩ := Bool.and_eq_true_iff.mp hcall
  have hopens : call.opens?.isSome = false := by rw [Call.opens?_of_isComment hcomment]; rfl
  have hnew : ∀ n ∈ (none : Option Nat), n = log.length + 1 := nofun
  cases hscopes with
  | nil => exact ⟨f, hstates, hlogs, .nil⟩
  | cons hscope houter =>
    cases hscope with
    | unheard => exact ⟨f, hstates, hlogs, .cons .unheard houter⟩
    | @both who handle handle' hwho hgone hhandles =>
      obtain ⟨opened, hopened⟩ := hL handle call state
      obtain ⟨hstate, hself⟩ := hC.comment call hdeaf hcomment hhandles hstates
      simp only [Desk.make, Desk.call, Listener.traced, hopened, Listener.numberFor_ok, hopens,
        Bool.false_eq_true, if_false]
      obtain ⟨g, hg, hlogs'⟩ := hlogs.missed ⟨f who, call, none⟩ (.inl hcall) hnew
      refine ⟨g, hstate, hlogs', .cons ?_ (houter.imp fun _ _ h => ?_)⟩
      · exact (Shares.both hwho hgone hself).snoc hlogs hg hnew (Nat.le_refl _)
      · exact h.snoc hlogs hg hnew (Nat.le_refl _)
    | @alone who handle hgone hhandle =>
      obtain ⟨opened, hopened⟩ := hL handle call state
      obtain ⟨hstate, hself, -⟩ := hC.alone call hhandle hstates
      simp only [Desk.make, Desk.call, Listener.traced, hopened, Listener.numberFor_ok, hopens,
        Bool.false_eq_true, if_false]
      obtain ⟨g, hg, hlogs'⟩ := hlogs.missed ⟨who, call, none⟩ (.inl hcall) hnew
      refine ⟨g, hstate, hlogs', .cons ?_ (houter.imp fun _ _ h => ?_)⟩
      · exact (Shares.alone hgone hself).snoc hlogs hg hnew (Nat.le_refl _)
      · exact h.snoc hlogs hg hnew (Nat.le_refl _)

/-- A move that both desks make. -/
theorem Desks.make (hC : C.Holds declines deaf L L') (hL : L.NeverFails) (hL' : L'.NeverFails)
    (h : C.Desks declines deaf f d d') {m : Move} (hfits : m.Fits)
    (hmove : (deaf && m.isComment) = false) :
    ∃ g, C.Desks declines deaf g (d.make L.traced m) (d'.make L'.traced m) := by
  cases m with
  | tell call =>
    obtain ⟨g, _, _, _, _, h, _⟩ := h.call hC hL hL' hmove
    exact ⟨g, h⟩
  | enter call =>
    have hcall : (deaf && call.isComment) = false := by
      rw [Call.isComment_of_opens? hfits, Bool.and_false]
    obtain ⟨g, opened, opened', hopened, hopened', h, hshares⟩ := h.call hC hL hL' hcall
    have hopens := hshares hfits
    simp only [Desk.make]
    generalize d.call L.traced call = r at hopened h hopens ⊢
    generalize d'.call L'.traced call = r' at hopened' h hopens ⊢
    obtain ⟨_, e⟩ := r
    obtain ⟨_, e'⟩ := r'
    dsimp only at hopened hopened' h hopens
    subst hopened hopened'
    exact ⟨g, h.states, h.logs, .cons hopens h.scopes⟩
  | hush => exact ⟨f, h.states, h.logs, .cons .unheard h.scopes⟩
  | leave =>
    have hscopes := List.forall₂_drop 1 h.scopes
    rw [List.drop_one, List.drop_one] at hscopes
    exact ⟨f, h.states, h.logs, hscopes⟩

/-- Moves that both desks make one after another, comments aside if the second listener is deaf. -/
theorem Desks.makeAll (hC : C.Holds declines deaf L L') (hL : L.NeverFails) (hL' : L'.NeverFails)
    (h : C.Desks declines deaf f d d') {moves : List Move} (hfits : ∀ m ∈ moves, m.Fits) :
    ∃ g, C.Desks declines deaf g (d.makeAll L.traced moves)
      (d'.makeAll L'.traced (moves.filter fun m => !(deaf && m.isComment))) := by
  induction moves generalizing f d d' with
  | nil => exact ⟨f, h⟩
  | cons m moves ih =>
    obtain ⟨hm, hmoves⟩ := List.forall_mem_cons.mp hfits
    simp only [Desk.makeAll, List.foldl_cons, List.filter_cons] at ih ⊢
    cases hmissed : deaf && m.isComment with
    | true =>
      cases m with
      | tell call =>
        obtain ⟨g, h⟩ := h.missed hC hL hmissed
        exact ih h hmoves
      | _ => exact absurd (Bool.and_eq_true_iff.mp hmissed).2 Bool.false_ne_true
    | false =>
      obtain ⟨g, h⟩ := h.make hC hL hL' hm hmissed
      exact ih h hmoves

/-- What two listeners in company hear of the same moves, from the first one on. -/
theorem Holds.renumbering (hC : C.Holds declines deaf L L') (hL : L.NeverFails)
    (hL' : L'.NeverFails) {root : κ} {root' : κ'} (hroot : C.handles root root') {state : σ}
    {state' : σ'} (hstate : C.states state state') {moves : List Move}
    (hfits : ∀ m ∈ moves, m.Fits) :
    ∃ f, IsRenumbering f ∧
      ((Desk.initial (0, root') (state', [])).makeAll L'.traced
        (moves.filter fun m => !(deaf && m.isComment))).state.2.map (Heard.renumber f) =
      withoutDeclined declines []
        (heeded deaf ((Desk.initial (0, root) (state, [])).makeAll L.traced moves).state.2) := by
  have hinitial : C.Desks declines deaf id (Desk.initial (0, root) (state, []))
      (Desk.initial (0, root') (state', [])) :=
    ⟨hstate, .nil, .cons (.both (Nat.le_refl 0) List.not_mem_nil hroot) .nil⟩
  obtain ⟨f, h⟩ := hinitial.makeAll hC hL hL' hfits
  exact ⟨f, h.logs.toIsRenumbering, h.logs.same⟩

end Course

end Company

end Smali
