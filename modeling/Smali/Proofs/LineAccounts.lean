import Smali.Proofs.Quiet
import Smali.Proofs.ReaderFooting
import Smali.Proofs.ScopeOrder
import Smali.Proofs.ToldCalls
import Smali.Proofs.Trace

/-!
# Lines and the calls for them

In a strict reading every line of code stands for one call in the innermost open scope, arrays
aside: all lines of an array stand for one call together. Besides these calls there is only the
end of each field without a closing line, and the end of the class behind all lines.
-/

namespace Smali

/-- A listener that replies to every call that opens a scope with a handle for it. -/
def Listener.AcceptsAll {σ κ : Type} (L : Listener σ κ) : Prop :=
  ∀ handle call state, ∃ opened, (L.hear handle call state).outcome = .ok opened ∧
    (call.opens?.isSome = true → opened.isSome = true)

/-- It never fails. -/
theorem Listener.AcceptsAll.neverFails {σ κ : Type} {L : Listener σ κ} (hL : L.AcceptsAll) :
    L.NeverFails :=
  fun handle call state => (hL handle call state).imp fun _ h => h.1

/-! ## Accounts -/

/-- A scope that someone listens in. -/
structure Listening where
  /-- The number of the visitor. -/
  who : Nat
  /-- The call that opened the scope; the class has none. -/
  opener : Option Call

/-- The scopes that are open behind a call in the innermost one, the innermost first. -/
def Heard.scopes (h : Heard) (before : List Listening) : List Listening :=
  match h.call, h.opened with
  | .finish, _ => before.tail
  | call, some number => ⟨number, some call⟩ :: before
  | _, none => before

namespace Line

/-- The call of a line in a scope, by the call that opened the scope: the opening call of a line
that opens a scope, the end of the scope for its closing line, and for any other line the call
of its own. -/
def callIn? (l : Line) : Option Call → Option Call
  | none => l.classCall?
  | some (.field _ _ _ _) =>
    if l.closes "field" then some .finish
    else if l.directive? = some .annotationStart then l.annotationCall?
    else none
  | some (.method _ _ _) => l.bodyCall?
  | some (.annotationStart _ _) => l.elementCall? "annotation"
  | some (.subannotationStart _ _) => l.elementCall? "subannotation"
  | some _ => none

end Line

/-- Lines that go on with an array, and the value that it has with the last of them. -/
inductive Gathers : Braces → List Line → Value → Prop where
  /-- The line with the closing brace. -/
  | last {b : Braces} {l : Line} {v : Value} (hinside : Gathering.isEndedBy l = false)
    (hclosed : (b.add l).depth ≤ 0) (hv : Literal.decode (b.add l).text = .ok v) :
    Gathers b [l] v
  /-- A line before it. -/
  | more {b : Braces} {l : Line} {lines : List Line} {v : Value}
    (hinside : Gathering.isEndedBy l = false) (hopen : 0 < (b.add l).depth)
    (h : Gathers (b.add l) lines v) : Gathers b (l :: lines) v

/-- Lines of code together with the calls for them, in some open scopes. -/
inductive Accounts : List Listening → List Line → List Heard → Prop where
  /-- Behind all lines the class ends. -/
  | finish : Accounts [⟨0, none⟩] [] [⟨0, .finish, none⟩]
  /-- A line and its call. -/
  | line {top : Listening} {outer : List Listening} {l : Line} {lines : List Line} {h : Heard}
    {rest : List Heard} (hwho : h.who = top.who) (hcall : l.callIn? top.opener = some h.call)
    (hrest : Accounts (h.scopes (top :: outer)) lines rest) :
    Accounts (top :: outer) (l :: lines) (h :: rest)
  /-- The lines of an array and their call. -/
  | array {top : Listening} {outer : List Listening} {l : Line} {b : Braces} {more : List Line}
    {v : Value} {lines : List Line} {rest : List Heard}
    (hl : l.directive? = none ∧ l.element? = some (.braces b)) (hmore : Gathers b more v)
    (hrest : Accounts (top :: outer) lines rest) :
    Accounts (top :: outer) (l :: (more ++ lines)) (⟨top.who, .value b.name v, none⟩ :: rest)
  /-- The end of a field before a line that is not its own, or behind all lines. -/
  | implicitEnd {who : Nat} {name : Text} {access : Access} {type : TypeName} {v : Option Value}
    {outer : List Listening} {lines : List Line} {rest : List Heard}
    (hnext : ∀ l ∈ lines.head?, l.closes "field" = false ∧
      l.directive? ≠ some .annotationStart)
    (hrest : Accounts outer lines rest) :
    Accounts (⟨who, some (.field name access type v)⟩ :: outer) lines
      (⟨who, .finish, none⟩ :: rest)

/-! ## From calls to accounts -/

/-- Calls as they are heard in some open scopes, one after another. -/
def Follows : List Listening → List Call → List Heard → Prop
  | _, [], [] => True
  | top :: outer, call :: calls, h :: heard =>
    h.who = top.who ∧ h.call = call ∧ h.opened.isSome = call.opens?.isSome ∧
      Follows (h.scopes (top :: outer)) calls heard
  | _, _, _ => False

/-- The scope of the member that is open, if one is, and the class. -/
def Listening.Hosts : Option Host → List Listening → Prop
  | none, scopes => scopes = [⟨0, none⟩]
  | some (.field _), scopes => ∃ who name access type v,
    scopes = [⟨who, some (.field name access type v)⟩, ⟨0, none⟩]
  | some (.method _ _ _), scopes => ∃ who name access signature,
    scopes = [⟨who, some (.method name access signature)⟩, ⟨0, none⟩]

/-- The scopes that are open at a site: annotations, all but the outermost nested, in a member or
in the class. -/
def Listening.Nested (host : Option Host) : Nat → List Listening → Prop
  | 0, scopes => Hosts host scopes
  | 1, scopes => ∃ who visibility type outer,
    scopes = ⟨who, some (.annotationStart visibility type)⟩ :: outer ∧ Hosts host outer
  | n + 2, scopes => ∃ who name type outer,
    scopes = ⟨who, some (.subannotationStart name type)⟩ :: outer ∧ Nested host (n + 1) outer

/-- The scopes that are open at a site. -/
def Site.Opens (s : Site) (scopes : List Listening) : Prop :=
  Listening.Nested s.host s.nest scopes

/-- A call that opens nothing and ends nothing. -/
theorem Heard.scopes_of_plain {h : Heard} (hopened : h.opened.isSome = h.call.opens?.isSome)
    (hopens : h.call.opens? = none) (hfinish : h.call ≠ .finish) (scopes : List Listening) :
    h.scopes scopes = scopes := by
  obtain ⟨who, call, opened⟩ := h
  cases opened with
  | none => cases call <;> first | rfl | exact absurd rfl hfinish
  | some number =>
    rw [hopens] at hopened
    exact absurd hopened Bool.true_eq_false.mp

/-- A call that opens a scope. -/
theorem Heard.scopes_of_opens {h : Heard} (hopened : h.opened.isSome = h.call.opens?.isSome)
    (hopens : h.call.opens?.isSome = true) (scopes : List Listening) :
    ∃ number, h.scopes scopes = ⟨number, some h.call⟩ :: scopes := by
  obtain ⟨who, call, opened⟩ := h
  obtain ⟨number, rfl⟩ := Option.isSome_iff_exists.mp (hopened.trans hopens)
  cases call <;> first | exact ⟨number, rfl⟩ | exact absurd hopens Bool.false_ne_true

/-- The end of a scope. -/
theorem Heard.scopes_of_finish {h : Heard} (hfinish : h.call = .finish) (scopes : List Listening) :
    h.scopes scopes = scopes.tail := by
  unfold Heard.scopes
  rw [hfinish]

/-- The scopes behind a call that can follow. -/
theorem Site.Opens.next {s s' : Site} {scopes : List Listening} (h : s.Opens scopes) {heard : Heard}
    (hopened : heard.opened.isSome = heard.call.opens?.isSome)
    (hnext : s.next? heard.call = some s') : s'.Opens (heard.scopes scopes) := by
  -- Calls that open nothing and end nothing leave the member and the annotations as they are.
  have hplain : heard.call.opens? = none → heard.call ≠ .finish →
      Listening.Nested s.host s.nest (heard.scopes scopes) := fun hopens hfinish => by
    rw [Heard.scopes_of_plain hopened hopens hfinish]
    exact h
  have hopen : heard.call.opens?.isSome = true →
      ∃ number, heard.scopes scopes = ⟨number, some heard.call⟩ :: scopes :=
    fun hopens => Heard.scopes_of_opens hopened hopens scopes
  have hfinish : heard.call = .finish → heard.scopes scopes = scopes.tail :=
    fun hfinish => Heard.scopes_of_finish hfinish scopes
  unfold Opens at h ⊢
  generalize heard.scopes scopes = after at hplain hopen hfinish ⊢
  generalize heard.call = call at hnext hplain hopen hfinish
  cases Site.step_of_next? hnext with
  | header hnest hhost hcall hphase =>
    refine hplain ?_ ?_ <;> cases call <;> simp_all [Call.isHeader, Call.opens?]
  | field hnest hhost hphase name access type v =>
    obtain ⟨number, rfl⟩ := hopen rfl
    rw [hnest, hhost] at h
    obtain rfl : scopes = [⟨0, none⟩] := h
    simp only [hnest]
    exact ⟨number, name, access, type, v, rfl⟩
  | method hnest hhost hphase name access signature =>
    obtain ⟨number, rfl⟩ := hopen rfl
    rw [hnest, hhost] at h
    obtain rfl : scopes = [⟨0, none⟩] := h
    simp only [hnest]
    exact ⟨number, name, access, signature, rfl⟩
  | annotationOfClass hnest hhost hphase visibility type =>
    obtain ⟨number, rfl⟩ := hopen rfl
    rw [hnest] at h
    exact ⟨number, visibility, type, scopes, rfl, h⟩
  | annotationOfField hnest hhost visibility type =>
    obtain ⟨number, rfl⟩ := hopen rfl
    rw [hnest, hhost] at h
    exact ⟨number, visibility, type, scopes, rfl, h⟩
  | endField hnest hhost =>
    rw [hnest, hhost] at h
    obtain ⟨who, name, access, type, v, rfl⟩ := h
    simp only [hnest]
    exact hfinish rfl
  | annotationOfMethod hnest hhost visibility type =>
    obtain ⟨number, rfl⟩ := hopen rfl
    rw [hnest] at h
    exact ⟨number, visibility, type, scopes, rfl, h⟩
  | endMethod hnest hhost =>
    rw [hnest, hhost] at h
    obtain ⟨who, name, access, signature, rfl⟩ := h
    simp only [hnest]
    exact hfinish rfl
  | param hnest hhost register label =>
    rw [hnest, hhost] at hplain
    simp only [hnest]
    exact hplain rfl (by simp)
  | paramEnd hnest hhost =>
    rw [hnest, hhost] at hplain
    simp only [hnest]
    exact hplain rfl (by simp)
  | body hnest hhost hcall => exact hplain (Call.isBody_iff hcall).1 (Call.isBody_iff hcall).2.2.1
  | value hnest name v => exact hplain rfl (by simp)
  | nested hnest name type =>
    obtain ⟨number, rfl⟩ := hopen rfl
    rw [hnest] at h
    exact ⟨number, name, type, scopes, rfl, h⟩
  | annotationEnd hnest =>
    rw [hfinish rfl]
    rw [hnest] at h
    rename_i outer
    cases outer with
    | zero =>
      obtain ⟨who, visibility, type, outer, rfl, h⟩ := h
      exact h
    | succ outer =>
      obtain ⟨who, name, type, outer, rfl, h⟩ := h
      exact h

/-- The first of some calls as it is heard. -/
theorem Follows.cons {scopes : List Listening} {call : Call} {calls : List Call}
    {heard : List Heard} (h : Follows scopes (call :: calls) heard) :
    ∃ top outer first rest, scopes = top :: outer ∧ heard = first :: rest ∧
      first.who = top.who ∧ first.call = call ∧
      first.opened.isSome = first.call.opens?.isSome ∧
      Follows (first.scopes scopes) calls rest := by
  match scopes, heard, h with
  | top :: outer, first :: rest, ⟨hwho, hcall, hopened, hrest⟩ =>
    exact ⟨top, outer, first, rest, rfl, rfl, hwho, hcall, hcall ▸ hopened, hrest⟩

/-- The end of the innermost scope as it is heard. -/
theorem Follows.cons_finish {who : Nat} {opener : Option Call} {outer : List Listening}
    {calls : List Call} {heard : List Heard}
    (h : Follows (⟨who, opener⟩ :: outer) (.finish :: calls) heard) :
    ∃ rest, heard = ⟨who, .finish, none⟩ :: rest ∧ Follows outer calls rest := by
  obtain ⟨top, outer', ⟨who', call, opened⟩, rest, hscopes, rfl, hwho, hcall, hopened, hrest⟩ :=
    h.cons
  obtain ⟨rfl, rfl⟩ := List.cons.inj hscopes
  obtain rfl : call = .finish := hcall
  obtain rfl : who' = who := hwho
  obtain rfl : opened = none := by simpa [Call.opens?] using hopened
  exact ⟨rest, rfl, hrest⟩

/-! ## Lines at a site -/

/-- The call of a line at a site is its call in the innermost scope. -/
theorem Site.callIn?_of_opens {s : Site} {scopes : List Listening} (hs : s.Opens scopes)
    (l : Line) : ∀ top ∈ scopes.head?, l.callIn? top.opener = s.callOf? l := by
  obtain ⟨phase, declared, host, nest⟩ := s
  intro top htop
  match nest with
  | outer + 2 =>
    obtain ⟨who, name, type, outer, rfl, -⟩ := hs
    obtain rfl := Option.some.inj htop
    rfl
  | 1 =>
    obtain ⟨who, visibility, type, outer, rfl, -⟩ := hs
    obtain rfl := Option.some.inj htop
    rfl
  | 0 =>
    match host with
    | none =>
      obtain rfl : scopes = [⟨0, none⟩] := hs
      obtain rfl := Option.some.inj htop
      rfl
    | some (.field annotated) =>
      obtain ⟨who, name, access, type, v, rfl⟩ := hs
      obtain rfl := Option.some.inj htop
      rfl
    | some (.method name access paramOpen) =>
      obtain ⟨who, name, access, signature, rfl⟩ := hs
      obtain rfl := Option.some.inj htop
      rfl

/-! ## Accounts from some point on -/

/-- The accounts from a point on, where perhaps an array is open. -/
def AccountsFrom (braces : Option Braces) (scopes : List Listening) (lines : List Line)
    (heard : List Heard) : Prop :=
  match braces with
  | none => Accounts scopes lines heard
  | some b => ∃ top outer more v lines' rest, scopes = top :: outer ∧ lines = more ++ lines' ∧
      heard = ⟨top.who, .value b.name v, none⟩ :: rest ∧ Gathers b more v ∧
      Accounts scopes lines' rest

namespace Stance

variable {validate : Bool}

/-- What has to be known of the lines behind a point and of the calls for them. -/
def Continues (s : Stance) (lines : List Line) (more : List Call) : Prop :=
  ∀ scopes heard, s.site.Opens scopes → Follows scopes (more ++ [.finish]) heard →
    AccountsFrom s.braces scopes lines heard

variable {s' : Stance} {l : Line} {lines : List Line} {first more : List Call}
  {scopes : List Listening} {heard : List Heard}

/-- The call of a line, as it is heard, and the accounts behind it. -/
theorem Continues.of_tell (hs' : s'.Continues lines more) {s : Site} (hs : s.Opens scopes)
    {call : Call} (hf : Follows scopes (call :: (more ++ [.finish])) heard)
    (htell : tell validate s call = some (s', [call])) :
    ∃ top outer h rest, scopes = top :: outer ∧ heard = h :: rest ∧ h.who = top.who ∧
      h.call = call ∧ h.opened.isSome = call.opens?.isSome ∧
      Accounts (h.scopes scopes) lines rest := by
  obtain ⟨hrun, hbraces, -⟩ := run_of_tell htell
  rw [Site.run_singleton] at hrun
  obtain ⟨top, outer, h, rest, rfl, rfl, hwho, rfl, hopened, hrest⟩ := hf.cons
  have haccounts := hs' _ rest (hs.next hopened (Site.next?_of_accept hrun)) hrest
  rw [hbraces] at haccounts
  exact ⟨top, outer, h, rest, rfl, rfl, hwho, rfl, hopened, haccounts⟩

/-- A line of code. -/
theorem Continues.of_take (hs' : s'.Continues lines more) {s : Stance} (hl : l.isComment = false)
    (htake : s.take validate l = some (s', first)) : s.Continues (l :: lines) (first ++ more) := by
  intro scopes heard hs hf
  cases takes_of_take htake with
  | comment hcomment => cases hl.symm.trans hcomment
  | told _ hcall htell =>
    have hcallIn := Site.callIn?_of_opens hs l
    obtain ⟨top, outer, h, rest, rfl, rfl, hwho, rfl, -, haccounts⟩ := hs'.of_tell hs hf htell
    exact .line hwho ((hcallIn top rfl).trans hcall) haccounts
  | opens _ _ hdirective helement =>
    obtain ⟨top, outer', gathered, v, lines', rest, rfl, rfl, rfl, hgathers, haccounts⟩ :=
      hs' scopes heard hs hf
    exact .array ⟨hdirective, helement⟩ hgathers haccounts
  | gathers _ hinside hopen =>
    obtain ⟨top, outer, gathered, v, lines', rest, rfl, rfl, rfl, hgathers, haccounts⟩ :=
      hs' scopes heard hs hf
    exact ⟨top, outer, l :: gathered, v, lines', rest, rfl, rfl, rfl,
      .more hinside hopen hgathers, haccounts⟩
  | closes _ hinside hclosed hv htell =>
    obtain ⟨top, outer, ⟨who, call, opened⟩, rest, rfl, rfl, hwho, hcall, hopened, haccounts⟩ :=
      hs'.of_tell hs hf htell
    obtain rfl : call = _ := hcall
    obtain rfl : who = top.who := hwho
    obtain rfl : opened = none := by simpa [Call.opens?] using hopened
    exact ⟨top, outer, [l], _, lines, rest, rfl, rfl, rfl, .last hinside hclosed hv, haccounts⟩
  | @behindField s _ call _ hnest hhost hstays hcall htell =>
    unfold Site.Opens at hs
    rw [hnest, hhost] at hs
    obtain ⟨who, name, access, type, v, rfl⟩ := hs
    obtain ⟨rest, rfl, hrest⟩ := hf.cons_finish
    have hclass : Site.Opens { s with host := none } [⟨0, none⟩] := by
      unfold Site.Opens
      rw [hnest]
      rfl
    obtain ⟨top, outer, h, rest, hscopes, rfl, hwho, rfl, -, haccounts⟩ :=
      hs'.of_tell hclass hrest htell
    obtain ⟨rfl, rfl⟩ := List.cons.inj hscopes
    refine .implicitEnd (fun l' hl' => ?_) (.line hwho hcall haccounts)
    obtain rfl := Option.some.inj hl'
    exact hstays

/-- The end of a source. -/
theorem continues_of_finish? {s : Stance} {calls : List Call} (h : s.finish? = some calls) :
    s.Continues [] calls := by
  intro scopes heard hs hf
  obtain ⟨⟨phase, declared, host, nest⟩, braces⟩ := s
  -- The class ends behind all other scopes.
  have hclass : ∀ {heard}, Follows [⟨0, none⟩] [.finish] heard →
      Accounts [⟨0, none⟩] [] heard := by
    intro heard hf
    obtain ⟨rest, rfl, hrest⟩ := hf.cons_finish
    cases rest with
    | nil => exact .finish
    | cons _ _ => exact absurd hrest id
  unfold finish? at h
  split at h
  · exact absurd h (Option.some_ne_none _).symm
  · split at h
    · next hbraces hnest hhost =>
      obtain rfl := Option.some.inj h
      obtain rfl : braces = none := hbraces
      obtain rfl : nest = 0 := hnest
      obtain rfl : host = none := hhost
      obtain rfl : scopes = [⟨0, none⟩] := hs
      exact hclass hf
    · next hbraces hnest hhost =>
      obtain rfl := Option.some.inj h
      obtain rfl : braces = none := hbraces
      obtain rfl : nest = 0 := hnest
      obtain rfl : host = some (.field false) := hhost
      obtain ⟨who, name, access, type, v, rfl⟩ := hs
      obtain ⟨rest, rfl, hrest⟩ := hf.cons_finish
      exact .implicitEnd nofun (hclass hrest)
    · exact absurd h (Option.some_ne_none _).symm

/-- The lines up to the end of a source. -/
theorem continues_of_readAll {lines : List Line} {s : Stance} {calls : List Call}
    (h : s.readAll validate (lines.map some) = some calls) :
    s.Continues (lines.filter fun l => !l.isComment) calls := by
  induction lines generalizing s calls with
  | nil =>
    obtain ⟨⟨s', first⟩, hnil, h⟩ := Option.bind_eq_some_iff.mp h
    obtain ⟨ends, hends, rfl⟩ := Option.map_eq_some_iff.mp h
    obtain ⟨rfl, rfl⟩ := Prod.mk.inj (Option.some.inj hnil)
    exact continues_of_finish? hends
  | cons l lines ih =>
    rw [List.map_cons, readAll_cons] at h
    obtain ⟨⟨s', first⟩, htake, hmore⟩ := Option.bind_eq_some_iff.mp h
    obtain ⟨rest, hrest, rfl⟩ := Option.map_eq_some_iff.mp hmore
    have hs' := ih hrest
    cases hl : l.isComment with
    | true =>
      unfold take at htake
      rw [hl, if_pos rfl] at htake
      obtain ⟨rfl, rfl⟩ := Prod.mk.inj (Option.some.inj htake)
      rw [List.filter_cons_of_neg (by rw [hl]; exact Bool.false_ne_true)]
      exact hs'
    | false =>
      rw [List.filter_cons_of_pos (by rw [hl]; rfl)]
      exact hs'.of_take hl htake

end Stance

/-! ## Moves as they are heard -/

/-- Moves in some open scopes, and what is heard of them. -/
inductive Plays : List Listening → List Move → List Heard → Prop where
  /-- No moves. -/
  | nil {scopes : List Listening} : Plays scopes [] []
  /-- A call that opens no scope. -/
  | tell {top : Listening} {outer : List Listening} {call : Call} {moves : List Move}
    {heard : List Heard} (hopens : call.opens? = none) (h : Plays (top :: outer) moves heard) :
    Plays (top :: outer) (.tell call :: moves) (⟨top.who, call, none⟩ :: heard)
  /-- A call that opens a scope. -/
  | enter {top : Listening} {outer : List Listening} {call : Call} {number : Nat}
    {moves : List Move} {heard : List Heard} (hopens : call.opens?.isSome = true)
    (h : Plays (⟨number, some call⟩ :: top :: outer) moves heard) :
    Plays (top :: outer) (.enter call :: moves) (⟨top.who, call, some number⟩ :: heard)
  /-- Back to the scope around. -/
  | leave {top : Listening} {outer : List Listening} {moves : List Move} {heard : List Heard}
    (h : Plays outer moves heard) : Plays (top :: outer) (.leave :: moves) heard

/-- Without comments. -/
theorem Plays.quietly {scopes : List Listening} {moves : List Move} {heard : List Heard}
    (h : Plays scopes moves heard) :
    Plays scopes (moves.filter fun m => !m.isComment)
      (heard.filter fun h => !h.call.isComment) := by
  induction h with
  | nil => exact .nil
  | tell hopens _ ih =>
    rename_i call _ _ _
    cases hcall : call.isComment with
    | true => simpa [Move.isComment, hcall] using ih
    | false => simpa [Move.isComment, hcall] using Plays.tell hopens ih
  | enter hopens _ ih =>
    rename_i call _ _ _ _
    have hcall : call.isComment = false := by
      cases call <;> first | rfl | exact absurd hopens Bool.false_ne_true
    simpa [Move.isComment, hcall] using Plays.enter hopens ih
  | leave _ ih => simpa [Move.isComment] using Plays.leave ih

/-- The moves of calls, and the calls as they are heard. -/
theorem Plays.follows {calls : List Call} {scopes : List Listening} {heard : List Heard}
    (h : Plays scopes (calls.flatMap Call.moves ++ [.tell .finish]) heard) :
    Follows scopes (calls ++ [.finish]) heard := by
  induction calls generalizing scopes heard with
  | nil =>
    cases h with
    | tell hopens h =>
      cases h
      exact ⟨rfl, rfl, rfl, trivial⟩
  | cons call calls ih =>
    rw [List.flatMap_cons, List.append_assoc] at h
    by_cases hfinish : call = .finish
    · subst hfinish
      change Plays scopes (.tell .finish :: .leave :: _) heard at h
      cases h with
      | tell hopens h =>
        cases h with
        | leave h => exact ⟨rfl, rfl, rfl, ih h⟩
    · cases hopens : call.opens? with
      | none =>
        have hmoves : call.moves = [.tell call] := by
          cases call <;> first | rfl | exact absurd rfl hfinish | exact nomatch hopens
        rw [hmoves] at h
        cases h with
        | tell hopens' h =>
          refine ⟨rfl, rfl, by rw [hopens]; rfl, ?_⟩
          rw [Heard.scopes_of_plain (by rw [hopens]; rfl) hopens hfinish]
          exact ih h
      | some scope =>
        have hmoves : call.moves = [.enter call] := by
          cases call <;> first | rfl | exact absurd rfl hfinish | exact nomatch hopens
        rw [hmoves] at h
        cases h with
        | enter hopens' h =>
          refine ⟨rfl, rfl, by rw [hopens]; rfl, ?_⟩
          cases call <;> first | exact ih h | exact absurd hopens' Bool.false_ne_true

section Playing

variable {σ κ : Type} {L : Listener σ κ}

/-- A desk with the visitors of some open scopes. -/
def Desk.Hears (d : Desk (σ × List Heard) (Nat × κ)) (scopes : List Listening) : Prop :=
  d.scopes.map (Option.map Prod.fst) = scopes.map fun scope => some scope.who

/-- The visitor of the innermost scope hears a call. -/
theorem Desk.Hears.tell {d : Desk (σ × List Heard) (Nat × κ)} {top : Listening}
    {outer : List Listening} (hd : d.Hears (top :: outer)) {call : Call}
    (hopens : call.opens? = none) :
    (d.make L.traced (.tell call)).Hears (top :: outer) ∧
      (d.make L.traced (.tell call)).state.2 = d.state.2 ++ [⟨top.who, call, none⟩] := by
  obtain ⟨⟨state, heard⟩, scopes, skipped⟩ := d
  obtain ⟨handle, rest, rfl, hhandle, hrest⟩ := List.map_eq_cons_iff.mp hd
  obtain ⟨⟨who, handle⟩, rfl, rfl⟩ := Option.map_eq_some_iff.mp hhandle
  refine ⟨hd, ?_⟩
  simp only [make, Desk.call, Listener.traced, Listener.numberFor, hopens]

/-- The visitor of the innermost scope hears a call that opens a scope, and there is a visitor
for this scope. -/
theorem Desk.Hears.enter (hL : L.AcceptsAll) {d : Desk (σ × List Heard) (Nat × κ)}
    {top : Listening} {outer : List Listening} (hd : d.Hears (top :: outer)) {call : Call}
    (hopens : call.opens?.isSome = true) :
    ∃ number, (d.make L.traced (.enter call)).Hears (⟨number, some call⟩ :: top :: outer) ∧
      (d.make L.traced (.enter call)).state.2 = d.state.2 ++ [⟨top.who, call, some number⟩] := by
  obtain ⟨⟨state, heard⟩, scopes, skipped⟩ := d
  obtain ⟨handle, rest, rfl, hhandle, hrest⟩ := List.map_eq_cons_iff.mp hd
  obtain ⟨⟨who, handle⟩, rfl, rfl⟩ := Option.map_eq_some_iff.mp hhandle
  obtain ⟨opened, houtcome, hopened⟩ := hL handle call state
  obtain ⟨child, rfl⟩ := Option.isSome_iff_exists.mp (hopened hopens)
  obtain ⟨scope, hscope⟩ := Option.isSome_iff_exists.mp hopens
  refine ⟨heard.length + 1, ?_, ?_⟩
  · simp only [Hears, make, Desk.call, Listener.traced, houtcome, Except.map, Option.map_some,
      List.map_cons, hrest]
  · simp only [make, Desk.call, Listener.traced, Listener.numberFor, houtcome, Except.map, hscope]

/-- Going back to the scope around. -/
theorem Desk.Hears.leave {d : Desk (σ × List Heard) (Nat × κ)} {scopes : List Listening}
    (hd : d.Hears scopes) :
    (d.make L.traced .leave).Hears scopes.tail ∧ (d.make L.traced .leave).state = d.state := by
  refine ⟨?_, rfl⟩
  unfold Hears at hd ⊢
  simp only [make, List.map_tail, hd]

/-- What is heard of moves that keep to the scopes, and of the end of the class. -/
theorem Desk.Hears.plays (hL : L.AcceptsAll) {n m : Nat} {moves : List Move}
    (h : Ordered n moves m) (hhush : Move.hush ∉ moves)
    {d : Desk (σ × List Heard) (Nat × κ)} {scopes : List Listening} (hd : d.Hears scopes)
    (hscopes : scopes.length = n + 1) :
    ∃ heard, (d.makeAll L.traced (moves ++ [.tell .finish])).state.2 = d.state.2 ++ heard ∧
      Plays scopes (moves ++ [.tell .finish]) heard := by
  induction h generalizing d scopes with
  | nil =>
    obtain ⟨top, outer, rfl⟩ := List.exists_cons_of_length_eq_add_one hscopes
    exact ⟨_, (hd.tell rfl).2, .tell rfl .nil⟩
  | tell hopens hfinish _ ih =>
    obtain ⟨top, outer, rfl⟩ := List.exists_cons_of_length_eq_add_one hscopes
    obtain ⟨hd', hstate⟩ := hd.tell (L := L) hopens
    obtain ⟨heard, hheard, hplays⟩ := ih (List.not_mem_of_not_mem_cons hhush) hd' hscopes
    rw [hstate, List.append_assoc] at hheard
    exact ⟨_ :: heard, hheard, .tell hopens hplays⟩
  | enter hopens _ ih =>
    obtain ⟨top, outer, rfl⟩ := List.exists_cons_of_length_eq_add_one hscopes
    obtain ⟨number, hd', hstate⟩ := hd.enter hL hopens
    obtain ⟨heard, hheard, hplays⟩ := ih (List.not_mem_of_not_mem_cons hhush) hd'
      (congrArg (· + 1) hscopes)
    rw [hstate, List.append_assoc] at hheard
    exact ⟨_ :: heard, hheard, .enter hopens hplays⟩
  | hush _ _ => exact absurd List.mem_cons_self hhush
  | close _ ih =>
    obtain ⟨top, outer, rfl⟩ := List.exists_cons_of_length_eq_add_one hscopes
    obtain ⟨hd', hstate⟩ := hd.tell (L := L) (show Call.finish.opens? = none from rfl)
    obtain ⟨hd'', hsame⟩ := hd'.leave (L := L)
    obtain ⟨heard, hheard, hplays⟩ := ih
      (List.not_mem_of_not_mem_cons (List.not_mem_of_not_mem_cons hhush)) hd''
      (Nat.succ.inj hscopes)
    rw [hsame, hstate, List.append_assoc] at hheard
    exact ⟨_ :: heard, hheard, .tell rfl (.leave hplays)⟩

end Playing

/-! ## Whole readings -/

/-- The lines of a source that can be scanned to its end. -/
theorem exists_lines {scanned : List (Except Fault Line)} {validate : Bool} {s : Stance}
    {calls : List Call} (h : s.readAll validate (scanned.map Except.toOption) = some calls) :
    ∃ lines : List Line, scanned = lines.map .ok := by
  induction scanned generalizing s calls with
  | nil => exact ⟨[], rfl⟩
  | cons line rest ih =>
    cases line with
    | error fault => exact nomatch h
    | ok l =>
      rw [List.map_cons, Except.toOption, Stance.readAll_cons] at h
      obtain ⟨_, -, hmore⟩ := Option.bind_eq_some_iff.mp h
      obtain ⟨_, hrest, -⟩ := Option.map_eq_some_iff.mp hmore
      obtain ⟨lines, rfl⟩ := ih hrest
      exact ⟨l :: lines, rfl⟩

/-- A call that can follow tells of no comment. -/
theorem Site.isComment_of_next? {s s' : Site} {call : Call} (h : s.next? call = some s') :
    call.isComment = false := by
  cases step_of_next? h with
  | header hnest hhost hcall => cases call <;> first | rfl | exact absurd hcall Bool.noConfusion
  | body hnest hhost hcall => cases call <;> first | rfl | exact absurd hcall Bool.noConfusion
  | _ => rfl

/-- Calls that follow on each other tell of no comment. -/
theorem Site.isComment_of_run {validate : Bool} {calls : List Call} {s s' : Site}
    (h : s.run validate calls = some s') : ∀ call ∈ calls, call.isComment = false := by
  induction calls generalizing s with
  | nil => exact nofun
  | cons call calls ih =>
    rw [run_cons] at h
    obtain ⟨mid, hmid, hrest⟩ := Option.bind_eq_some_iff.mp h
    exact List.forall_mem_cons.mpr ⟨isComment_of_next? (next?_of_accept hmid), ih hrest⟩

/-- The moves of calls that tell of no comment. Nobody is left out. -/
theorem Call.moves_quiet {call : Call} (h : call.isComment = false) :
    ∀ m ∈ call.moves, m.isComment = false ∧ m ≠ .hush := by
  unfold Call.moves
  split
  · simp [Move.isComment, Call.isComment]
  · split <;> simp [Move.isComment, h]

/-- In a strict reading that comes to a good end, with a listener that accepts everything, the
calls that tell of no comment are those for the lines of code, in order: one for each line, one
for all lines of an array together, and besides these only the ends of fields without a closing
line and the end of the class. -/
theorem calls_account_for_lines {σ κ : Type} {L : Listener σ κ} (hL : L.AcceptsAll) {o : Options}
    (hstrict : o.errors = .strict) (root : κ) (state : σ) {source : Text}
    (hok : (read o L root state source).1 = .ok ()) :
    ∃ lines : List Line, scanLines source = lines.map .ok ∧
      Accounts [⟨0, none⟩] (lines.filter fun l => !l.isComment)
        ((callsOf o L root state source).filter fun h => !h.call.isComment) := by
  have hnever : L.NeverFails := fun handle call state =>
    (hL handle call state).imp fun _ h => h.1
  have hplain : o.quietly.IsPlain := ⟨hstrict, rfl⟩
  have hquietly := (dialogue_heeds o source).rehearse_quietly o
  have hread : ((dialogue o source).rehearse o).result = .ok () := by
    rw [read, Dialogue.conduct_eq o hnever] at hok
    exact hok
  -- Without comments the moves are those of the calls for the lines.
  have hcourse := course_dialogue hplain source
  have hdialogue : dialogue o.quietly source = dialogue o source := rfl
  unfold Dialogue.course at hcourse
  rw [hdialogue, hquietly] at hcourse
  dsimp only at hcourse
  rw [hread] at hcourse
  obtain ⟨calls, hcalls, hquiet⟩ := Option.map_eq_some_iff.mp hcourse.symm
  obtain ⟨lines, hlines⟩ := exists_lines hcalls
  refine ⟨lines, hlines, ?_⟩
  obtain ⟨s, hrun, -⟩ := run_of_strictCalls hcalls
  have hsilent : ∀ m ∈ calls.flatMap Call.moves ++ [.tell .finish],
      m.isComment = false ∧ m ≠ .hush := by
    intro m hm
    rcases List.mem_append.mp hm with hm | hm
    · obtain ⟨call, hcall, hm⟩ := List.mem_flatMap.mp hm
      exact Call.moves_quiet (Site.isComment_of_run hrun call hcall) m hm
    · rw [List.mem_singleton.mp hm]
      exact ⟨rfl, fun h => by cases h⟩
  have hfilter : ((dialogue o source).rehearse o).moves.filter (fun m => !m.isComment) =
      calls.flatMap Call.moves ++ [.tell .finish] := (Prod.mk.inj hquiet).2.symm
  have hhush : Move.hush ∉ ((dialogue o source).rehearse o).moves := fun hmem =>
    (hsilent .hush (hfilter ▸ List.mem_filter.mpr ⟨hmem, rfl⟩)).2 rfl
  -- With comments the visitors of the open scopes hear the same calls, and comments between them.
  have hends := dialogue_endsClass o source
  unfold Dialogue.EndsClass at hends
  rw [hread] at hends
  obtain ⟨moves, heq, hordered⟩ := hends
  rw [heq] at hfilter hhush
  have hinitial : Desk.Hears (Desk.initial (0, root) (state, [])) [⟨0, none⟩] := rfl
  obtain ⟨heard, hheard, hplays⟩ := hinitial.plays hL hordered
    (fun hmem => hhush (List.mem_append_left _ hmem)) rfl
  have hcallsOf : callsOf o L root state source = heard := by
    rw [callsOf, readTraced, read, Dialogue.conduct_eq _ hnever.traced, heq]
    exact hheard
  have hsilence := hplays.quietly
  rw [hfilter] at hsilence
  rw [hcallsOf]
  have hall : (Stance.initial o.snippet).readAll o.validate (lines.map some) = some calls := by
    have hmap : (scanLines source).map Except.toOption = lines.map some := by
      rw [hlines, List.map_map]
      rfl
    rw [← hmap]
    exact hcalls
  exact Stance.continues_of_readAll hall _ _ rfl hsilence.follows

/-- A recorder without a script accepts everything. -/
theorem Recorder.acceptsAll_obliging : (Recorder.listener .obliging).AcceptsAll := by
  intro place call state
  refine ⟨_, rfl, fun hopens => ?_⟩
  obtain ⟨scope, hscope⟩ := Option.isSome_iff_exists.mp hopens
  simp [hscope, Recorder.Script.declines, Recorder.Script.obliging]

/-- A class with a comment and a field without a closing line: four lines of code, and six calls
for them. -/
theorem calls_account_for_field_and_method :
    ∃ lines : List Line,
      scanLines ".class La;\n# note\n.field x:I\n.method m()V\n.end method\n".toList =
        lines.map .ok ∧
      Accounts [⟨0, none⟩] (lines.filter fun l => !l.isComment)
        ((callsOf { Options.default with comments := true } (Recorder.listener .obliging)
          (Recorder.root .ofClass) .initial
          ".class La;\n# note\n.field x:I\n.method m()V\n.end method\n".toList).filter
            fun h => !h.call.isComment) ∧
      (lines.filter fun l => !l.isComment).length = 4 ∧
      ((callsOf { Options.default with comments := true } (Recorder.listener .obliging)
        (Recorder.root .ofClass) .initial
        ".class La;\n# note\n.field x:I\n.method m()V\n.end method\n".toList).filter
          fun h => !h.call.isComment).length = 6 := by
  have hgood : (read { Options.default with comments := true } (Recorder.listener .obliging)
      (Recorder.root .ofClass) .initial
      ".class La;\n# note\n.field x:I\n.method m()V\n.end method\n".toList).1.isOk = true := by
    decide +kernel
  have hok : (read { Options.default with comments := true } (Recorder.listener .obliging)
      (Recorder.root .ofClass) .initial
      ".class La;\n# note\n.field x:I\n.method m()V\n.end method\n".toList).1 = .ok () := by
    generalize (read _ _ _ _ _).1 = result at hgood ⊢
    cases result with
    | ok _ => rfl
    | error fault => exact absurd hgood Bool.false_ne_true
  obtain ⟨lines, hlines, haccounts⟩ :=
    calls_account_for_lines Recorder.acceptsAll_obliging rfl _ _ hok
  refine ⟨lines, hlines, haccounts, ?_, by decide +kernel⟩
  have hcount : ((scanLines
      ".class La;\n# note\n.field x:I\n.method m()V\n.end method\n".toList).filter
        fun line => line.toOption.any fun l => !l.isComment).length = 4 := by decide +kernel
  rw [hlines, List.filter_map, List.length_map] at hcount
  exact hcount

end Smali
