import Smali.Proofs.CommentedReading

/-!
# Comments and who hears them

In a strict reading every comment of the source is told once, in order, and next to the call of
its line: the comment behind a line that opens a scope in the new scope, any other one in the
scope that is open behind its line. The comments in an array are told behind the element, and a
field without a closing line is over when the next comment is told.
-/

namespace Smali

/-- The comments of a line, as a visitor hears them. -/
def Line.remarksTo (l : Line) (who : Nat) : List Heard := l.remarks.map (⟨who, ·, none⟩)

/-- The next line of code belongs to a field that is open. -/
def fieldGoesOn (lines : List Line) : Bool :=
  (lines.find? fun l => !l.isComment).any Line.staysInField

/-- Lines together with the calls for them and for their comments, in some open scopes. -/
inductive Attributes : List Listening → List Line → List Heard → Prop where
  /-- Behind all lines the class ends. -/
  | finish : Attributes [⟨0, none⟩] [] [⟨0, .finish, none⟩]
  /-- A comment on a line of its own is told in the innermost scope. -/
  | comment {top : Listening} {outer : List Listening} {l : Line} {lines : List Line}
    {rest : List Heard} (hl : l.isComment = true) (hrest : Attributes (top :: outer) lines rest) :
    Attributes (top :: outer) (l :: lines) (l.remarksTo top.who ++ rest)
  /-- The comment behind a line is told in the innermost scope behind the call of the line. A line
  opens a field if the next line of code belongs to the field. -/
  | line {top next : Listening} {outer : List Listening} {l : Line} {lines : List Line} {h : Heard}
    {rest : List Heard} (hl : l.isComment = false) (hwho : h.who = top.who)
    (hcall : l.callIn? top.opener = some h.call)
    (hnext : (h.scopes (top :: outer)).head? = some next)
    (hfield : h.call.opens? = some .ofField → fieldGoesOn lines = true)
    (hrest : Attributes (h.scopes (top :: outer)) lines rest) :
    Attributes (top :: outer) (l :: lines) (h :: (l.remarksTo next.who ++ rest))
  /-- Otherwise the field ends right behind its only line. -/
  | field {l : Line} {lines : List Line} {call : Call} {who : Nat} {rest : List Heard}
    (hl : l.isComment = false) (hcall : l.callIn? none = some call)
    (hopens : call.opens? = some .ofField) (hnext : fieldGoesOn lines = false)
    (hrest : Attributes [⟨0, none⟩] lines rest) :
    Attributes [⟨0, none⟩] (l :: lines)
      (⟨0, call, some who⟩ :: (l.remarksTo who ++ ⟨who, .finish, none⟩ :: rest))
  /-- The lines of an array have one call, and then their comments are told. -/
  | array {top : Listening} {outer : List Listening} {l last : Line} {b : Braces}
    {more lines : List Line} {v : Value} {rest : List Heard}
    (hl : l.isComment = false ∧ l.directive? = none ∧ l.element? = some (.braces b))
    (hlast : last.isComment = false)
    (hmore : Gathers b ((more ++ [last]).filter fun l => !l.isComment) v)
    (hrest : Attributes (top :: outer) lines rest) :
    Attributes (top :: outer) (l :: (more ++ last :: lines))
      (⟨top.who, .value b.name v, none⟩ ::
        ((l :: (more ++ [last])).flatMap (·.remarksTo top.who) ++ rest))

/-! ## Calls of lines -/

/-- The call of a line is no comment. -/
theorem Line.isComment_of_callIn? {l : Line} {opener : Option Call} {call : Call}
    (h : l.callIn? opener = some call) : call.isComment = false := by
  have hannotation : l.annotationCall? = some call → call.isComment = false := by
    intro h
    obtain ⟨_, -, rfl⟩ := Option.map_eq_some_iff.mp h
    rfl
  have helement : ∀ {name}, l.elementCall? name = some call → call.isComment = false := by
    intro name h
    unfold elementCall? at h
    split at h
    · split at h
      · obtain rfl := Option.some.inj h
        obtain ⟨name, v, rfl⟩ | ⟨name, type, rfl⟩ := element?_call ‹_›
        · rfl
        · rfl
      · exact absurd h (Option.some_ne_none _).symm
    · split at h
      · obtain rfl := Option.some.inj h
        rfl
      · exact absurd h (Option.some_ne_none _).symm
  unfold callIn? at h
  split at h
  · unfold classCall? at h
    split at h
    · obtain ⟨_, -, rfl⟩ := Option.map_eq_some_iff.mp h
      rfl
    · obtain ⟨_, -, rfl⟩ := Option.map_eq_some_iff.mp h
      rfl
    · obtain ⟨_, -, rfl⟩ := Option.map_eq_some_iff.mp h
      rfl
    · obtain ⟨_, -, rfl⟩ := Option.map_eq_some_iff.mp h
      rfl
    · obtain ⟨_, -, rfl⟩ := Option.map_eq_some_iff.mp h
      rfl
    · obtain ⟨_, -, rfl⟩ := Option.map_eq_some_iff.mp h
      rfl
    · exact hannotation h
    · exact absurd h (Option.some_ne_none _).symm
  · split at h
    · obtain rfl := Option.some.inj h
      rfl
    · split at h
      · exact hannotation h
      · exact absurd h (Option.some_ne_none _).symm
  · cases tellsBody_of_bodyCall? h with
    | code hbody => cases call <;> first | rfl | exact absurd hbody Bool.false_ne_true
    | _ => rfl
  · exact helement h
  · exact helement h
  · exact absurd h (Option.some_ne_none _).symm

/-- The comments of lines, as one visitor hears them. -/
theorem Line.comments_remarksTo (lines : List Line) (who : Nat) :
    ((lines.flatMap (·.remarksTo who)).map Heard.call).filter Call.isComment =
      lines.flatMap Line.remarks := by
  have hcalls : (lines.flatMap (·.remarksTo who)).map Heard.call = lines.flatMap Line.remarks := by
    have hline : (fun l : Line => (l.remarksTo who).map Heard.call) = Line.remarks := by
      funext l
      rw [remarksTo, List.map_map]
      exact List.map_id _
    rw [List.map_flatMap, hline]
  rw [hcalls, List.filter_eq_self]
  intro call hcall
  obtain ⟨l, -, hcall⟩ := List.mem_flatMap.mp hcall
  exact isComment_of_mem_remarks call hcall

/-- Whatever is attributed, the comments that are told are those of the lines, in order. -/
theorem Attributes.comments {scopes : List Listening} {lines : List Line} {heard : List Heard}
    (h : Attributes scopes lines heard) :
    (heard.map Heard.call).filter Call.isComment = lines.flatMap Line.remarks := by
  have hline : ∀ (l : Line) who,
      ((l.remarksTo who).map Heard.call).filter Call.isComment = l.remarks := by
    intro l who
    simpa using Line.comments_remarksTo [l] who
  induction h with
  | finish => rfl
  | comment hl _ ih => rw [List.map_append, List.filter_append, hline, ih, List.flatMap_cons]
  | line hl _ hcall _ _ _ ih =>
    rw [List.map_cons, List.filter_cons_of_neg (Bool.eq_false_iff.mp
      (Line.isComment_of_callIn? hcall)), List.map_append, List.filter_append, hline, ih,
      List.flatMap_cons]
  | field hl hcall _ _ _ ih =>
    rw [List.map_cons, List.filter_cons_of_neg (Bool.eq_false_iff.mp
      (Line.isComment_of_callIn? hcall)), List.map_append, List.filter_append, hline,
      List.map_cons, List.filter_cons_of_neg Bool.false_ne_true, ih, List.flatMap_cons]
  | @array top outer l last b more lines v rest hl hlast _ _ ih =>
    have hlines : l :: (more ++ last :: lines) = (l :: (more ++ [last])) ++ lines := by simp
    rw [List.map_cons, List.filter_cons_of_neg Bool.false_ne_true, List.map_append,
      List.filter_append, Line.comments_remarksTo, ih, hlines, List.flatMap_append]

/-! ## From calls to attributions -/

/-- Comments are heard by the visitor of the innermost scope. -/
theorem Follows.comments {top : Listening} {outer : List Listening} {comments calls : List Call}
    (hcomments : ∀ call ∈ comments, call.isComment = true) {heard : List Heard}
    (h : Follows (top :: outer) (comments ++ calls) heard) :
    ∃ rest, heard = comments.map (⟨top.who, ·, none⟩) ++ rest ∧
      Follows (top :: outer) calls rest := by
  induction comments generalizing heard with
  | nil => exact ⟨heard, rfl, h⟩
  | cons comment comments ih =>
    rw [List.forall_mem_cons] at hcomments
    obtain ⟨top', outer', ⟨who, call, opened⟩, rest, hscopes, rfl, hwho, hcall, hopened, hrest⟩ :=
      h.cons
    obtain ⟨rfl, rfl⟩ := List.cons.inj hscopes
    obtain rfl : call = comment := hcall
    obtain rfl : who = top.who := hwho
    have hopens : call.opens? = none ∧ call ≠ .finish := by
      have hcomment := hcomments.1
      cases call <;> first | exact absurd hcomment Bool.false_ne_true | exact ⟨rfl, nofun⟩
    rw [Heard.scopes_of_plain hopened hopens.1 hopens.2] at hrest
    obtain ⟨rest, rfl, hcalls⟩ := ih hcomments.2 hrest
    have hnone : opened = none := by simpa [hopens.1] using hopened
    subst hnone
    exact ⟨rest, rfl, hcalls⟩

/-- An annotation in a field is noted with the field. -/
def Site.IsProper (s : Site) : Prop := s.nest ≠ 0 → s.host ≠ some (.field false)

/-- Only the line of a field leads to a field without annotations, and it does so at the level of
the class. -/
theorem Site.IsProper.next {s s' : Site} (h : s.IsProper) {call : Call}
    (hnext : s.next? call = some s') :
    s'.IsProper ∧
      (call.opens? = some .ofField ↔ s'.nest = 0 ∧ s'.host = some (.field false)) ∧
      (call.opens? = some .ofField → s.nest = 0 ∧ s.host = none) := by
  unfold IsProper at h ⊢
  cases step_of_next? hnext with
  | header hnest hhost hcall hphase =>
    have hopens : call.opens? = none := by
      cases call <;> first | rfl | exact absurd hcall Bool.false_ne_true
    simp_all
  | body hnest hhost hcall => simp_all [(Call.isBody_iff hcall).1]
  | _ => simp_all [Call.opens?]

/-- An annotation is open behind an element. -/
theorem Site.nest_of_value {s s' : Site} {name : Text} {v : Value}
    (h : s.next? (.value name v) = some s') : ∃ outer, s'.nest = outer + 1 := by
  cases hnest : s.nest with
  | succ outer =>
    rw [next?_of_nest hnest] at h
    exact ⟨outer, by rw [← Option.some.inj h]⟩
  | zero =>
    cases hhost : s.host with
    | none =>
      rw [next?_of_class hnest hhost] at h
      exact absurd h (Option.some_ne_none _).symm
    | some host =>
      cases host with
      | field annotated =>
        rw [next?_of_field hnest hhost] at h
        exact absurd h (Option.some_ne_none _).symm
      | method name access paramOpen =>
        rw [next?_of_method hnest hhost] at h
        exact absurd h (Option.some_ne_none _).symm

/-- Annotations in fields stay noted over several calls. -/
theorem Site.IsProper.run {validate : Bool} {calls : List Call} {s s' : Site} (h : s.IsProper)
    (hrun : s.run validate calls = some s') : s'.IsProper := by
  induction calls generalizing s with
  | nil =>
    obtain rfl := Option.some.inj hrun
    exact h
  | cons call calls ih =>
    rw [run_cons] at hrun
    obtain ⟨mid, hmid, hrest⟩ := Option.bind_eq_some_iff.mp hrun
    exact ih (h.next (next?_of_accept hmid)).1 hrest

/-- Calls as one visitor hears them. -/
def heardBy (who : Nat) (calls : List Call) : List Heard := calls.map (⟨who, ·, none⟩)

/-- What is heard from a point on, where comments wait: for the end of an array, or for the next
line of code in a field. -/
def AttributesFrom (w : Watch) (scopes : List Listening) (lines : List Line)
    (heard : List Heard) : Prop :=
  match w.stance.braces, w.stance.site.nest, w.stance.site.host with
  | some b, _, _ => ∃ top outer more last lines' v rest, scopes = top :: outer ∧
      lines = more ++ last :: lines' ∧ last.isComment = false ∧
      Gathers b ((more ++ [last]).filter fun l => !l.isComment) v ∧
      heard = ⟨top.who, .value b.name v, none⟩ ::
        (heardBy top.who w.waiting ++ (more ++ [last]).flatMap (·.remarksTo top.who) ++ rest) ∧
      Attributes scopes lines' rest
  | none, 0, some (.field annotated) => ∃ field outer rest, scopes = field :: outer ∧
      if fieldGoesOn lines then
        heard = heardBy field.who w.waiting ++ rest ∧ Attributes scopes lines rest
      else
        annotated = false ∧ heard = ⟨field.who, .finish, none⟩ :: (heardBy 0 w.waiting ++ rest) ∧
          Attributes outer lines rest
  | _, _, _ => Attributes scopes lines heard

/-- The scopes that are open at a site. -/
theorem Site.Opens.exists_cons {s : Site} {scopes : List Listening} (h : s.Opens scopes) :
    ∃ top outer, scopes = top :: outer := by
  unfold Opens at h
  generalize s.nest = nest, s.host = host at h
  match nest, host, h with
  | 0, none, h => exact ⟨_, _, h⟩
  | 0, some (.field _), ⟨who, name, access, type, v, h⟩ => exact ⟨_, _, h⟩
  | 0, some (.method _ _ _), ⟨who, name, access, signature, h⟩ => exact ⟨_, _, h⟩
  | 1, _, ⟨who, visibility, type, outer, h, _⟩ => exact ⟨_, _, h⟩
  | _ + 2, _, ⟨who, name, type, outer, h, _⟩ => exact ⟨_, _, h⟩

/-- A line with a call in a field belongs to the field. -/
theorem staysInField_of_callIn? {l : Line} {name : Text} {access : Access} {type : TypeName}
    {v : Option Value} {call : Call} (h : l.callIn? (some (.field name access type v)) = some call) :
    l.staysInField = true := by
  unfold Line.callIn? at h
  dsimp only at h
  unfold Line.staysInField
  split at h
  · next hcloses => rw [hcloses, Bool.true_or]
  · split at h
    · next hdirective => rw [decide_eq_true hdirective, Bool.or_true]
    · exact absurd h (Option.some_ne_none _).symm

/-- A comment in front of others does not matter to a field. -/
theorem fieldGoesOn_cons_comment {l : Line} (hl : l.isComment = true) (lines : List Line) :
    fieldGoesOn (l :: lines) = fieldGoesOn lines := by
  unfold fieldGoesOn
  rw [List.find?_cons_of_neg (by simp [hl])]

/-- A field goes on with a line of code that belongs to it. -/
theorem fieldGoesOn_cons_code {l : Line} (hl : l.isComment = false) (lines : List Line) :
    fieldGoesOn (l :: lines) = l.staysInField := by
  unfold fieldGoesOn
  rw [List.find?_cons_of_pos (by simp [hl])]
  rfl

namespace Watch

variable {validate : Bool}

/-- A watch at which comments wait only if they have to. -/
structure IsSound (w : Watch) : Prop where
  /-- An annotation in a field is noted. -/
  proper : w.stance.site.IsProper
  /-- Comments wait in an array or in a field. -/
  waiting : w.stance.defers = false → w.waiting = []
  /-- Nothing else waits. -/
  comments : ∀ call ∈ w.waiting, call.isComment = true

/-- What has to be known of the lines behind a point and of the calls for them. -/
def Continues (w : Watch) (lines : List Line) (more : List Call) : Prop :=
  ∀ scopes heard, w.stance.site.Opens scopes → Follows scopes (more ++ [.finish]) heard →
    AttributesFrom w scopes lines heard

variable {w : Watch} {l : Line} {lines : List Line} {more : List Call}
  {scopes : List Listening} {heard : List Heard}

/-- A line of code with its call, and the comment behind it. -/
theorem Continues.of_tell {s' : Stance} (hs' : Continues ⟨s', []⟩ lines more) {s : Site}
    (hproper : s.IsProper) (hs : s.Opens scopes) (hl : l.isComment = false) {call : Call}
    (hf : Follows scopes (call :: (l.remarks ++ (more ++ [.finish]))) heard)
    (hcall : ∀ top ∈ scopes.head?, l.callIn? top.opener = some call)
    (htell : Stance.tell validate s call = some (s', [call])) :
    Attributes scopes (l :: lines) heard := by
  obtain ⟨hrun, hbraces, -⟩ := Stance.run_of_tell htell
  rw [Site.run_singleton] at hrun
  obtain ⟨top, outer, h, rest, rfl, rfl, hwho, rfl, hopened, hrest⟩ := hf.cons
  have hnext := Site.next?_of_accept hrun
  obtain ⟨hproper', hfield, hclass⟩ := hproper.next hnext
  have hopens := hs.next hopened hnext
  obtain ⟨next, around, hscopes⟩ := hopens.exists_cons
  rw [hscopes] at hrest
  obtain ⟨rest, rfl, hmore⟩ := Follows.comments Line.isComment_of_mem_remarks hrest
  rw [← hscopes] at hmore
  have hattributes := hs' _ rest hopens hmore
  have hown := hcall top rfl
  have hhead : (h.scopes (top :: outer)).head? = some next := by rw [hscopes, List.head?_cons]
  unfold AttributesFrom at hattributes
  rw [hbraces] at hattributes
  by_cases hopensField : h.call.opens? = some .ofField
  · obtain ⟨hnest', hhost'⟩ := hfield.mp hopensField
    obtain ⟨hnest, hhost⟩ := hclass hopensField
    rw [hnest', hhost'] at hattributes
    obtain ⟨field, around', rest', hscopes', hrest'⟩ := hattributes
    obtain ⟨rfl, rfl⟩ := List.cons.inj (hscopes.symm.trans hscopes')
    split at hrest'
    · next hgoes =>
      obtain ⟨rfl, hattributes⟩ := hrest'
      exact .line hl hwho hown hhead (fun _ => hgoes) hattributes
    · next hgoes =>
      obtain ⟨-, rfl, hattributes⟩ := hrest'
      unfold Site.Opens at hs
      rw [hnest, hhost] at hs
      obtain ⟨rfl, rfl⟩ := List.cons.inj (show top :: outer = [⟨0, none⟩] from hs)
      obtain ⟨who, call, opened⟩ := h
      obtain ⟨number, rfl⟩ := Option.isSome_iff_exists.mp
        (hopened.trans (by rw [hopensField]; rfl))
      obtain rfl : who = 0 := hwho
      have hchild : Heard.scopes ⟨0, call, some number⟩ [⟨0, none⟩] =
          [⟨number, some call⟩, ⟨0, none⟩] := by
        cases call <;> first | rfl | exact nomatch hopensField
      obtain ⟨rfl, rfl⟩ := List.cons.inj (hscopes.symm.trans hchild)
      exact .field hl hown hopensField (Bool.eq_false_iff.mpr hgoes) hattributes
  · have hline : Attributes (h.scopes (top :: outer)) lines rest →
        Attributes (top :: outer) (l :: lines) (h :: (l.remarksTo next.who ++ rest)) :=
      .line hl hwho hown hhead fun hopens => absurd hopens hopensField
    refine hline ?_
    split at hattributes
    · next heq => exact absurd heq (Option.some_ne_none _).symm
    · next annotated _ hnest' hhost' =>
      obtain ⟨field, around', rest', hscopes', hrest'⟩ := hattributes
      split at hrest'
      · obtain ⟨rfl, hattributes⟩ := hrest'
        exact hattributes
      · obtain ⟨rfl, -⟩ := hrest'
        exact absurd (hfield.mpr ⟨hnest', hhost'⟩) hopensField
    · exact hattributes

/-- Where no comments wait, all lines are attributed. -/
theorem attributesFrom_iff (hdefers : w.stance.defers = false) :
    AttributesFrom w scopes lines heard ↔ Attributes scopes lines heard := by
  obtain ⟨⟨⟨phase, declared, host, nest⟩, braces⟩, waiting⟩ := w
  match braces, nest, host, hdefers with
  | none, 0, none, _ => exact Iff.rfl
  | none, 0, some (.method name access paramOpen), _ => exact Iff.rfl
  | none, outer + 1, _, _ => exact Iff.rfl

/-- A comment on a line of its own. -/
theorem Continues.of_comment {w' : Watch} (hs' : w'.Continues lines more) (hw : w.IsSound)
    (hl : l.isComment = true) {first : List Call} (htake : w.take validate l = some (w', first)) : w.Continues (l :: lines) (first ++ more) := by
  intro scopes heard hs hf
  unfold take at htake
  rw [hl, if_pos rfl] at htake
  obtain ⟨⟨⟨phase, declared, host, nest⟩, braces⟩, waiting⟩ := w
  cases hdefers : Stance.defers ⟨⟨phase, declared, host, nest⟩, braces⟩ with
  | true =>
    rw [hdefers, if_pos rfl] at htake
    obtain ⟨rfl, rfl⟩ := Prod.mk.inj (Option.some.inj htake)
    have hattributes := hs' scopes heard hs hf
    match braces, nest, host, hdefers with
    | some b, _, _, _ =>
      obtain ⟨top, outer, gathered, last, lines', v, rest, rfl, rfl, hlast, hgathers, rfl, hrest⟩ :=
        hattributes
      refine ⟨top, outer, l :: gathered, last, lines', v, rest, rfl, rfl, hlast, ?_, ?_, hrest⟩
      · rwa [List.cons_append, List.filter_cons_of_neg (by simp [hl])]
      · simp [heardBy, Line.remarksTo]
    | none, 0, some (.field annotated), _ =>
      obtain ⟨who, name, access, type, v, rfl⟩ := hs
      obtain ⟨field, outer, rest, hscopes, hrest⟩ := hattributes
      obtain ⟨rfl, rfl⟩ := List.cons.inj hscopes
      refine ⟨_, _, l.remarksTo (if fieldGoesOn lines then who else 0) ++ rest, rfl, ?_⟩
      rw [fieldGoesOn_cons_comment hl]
      split at hrest
      · next hgoes =>
        obtain ⟨rfl, hrest⟩ := hrest
        rw [if_pos hgoes, if_pos hgoes]
        exact ⟨by simp [heardBy, Line.remarksTo], .comment hl hrest⟩
      · next hgoes =>
        obtain ⟨hannotated, rfl, hrest⟩ := hrest
        rw [if_neg hgoes, if_neg hgoes]
        exact ⟨hannotated, by simp [heardBy, Line.remarksTo], .comment hl hrest⟩
  | false =>
    rw [hdefers, if_neg Bool.false_ne_true] at htake
    obtain ⟨rfl, rfl⟩ := Prod.mk.inj (Option.some.inj htake)
    obtain rfl : waiting = [] := hw.waiting hdefers
    obtain ⟨top, outer, rfl⟩ := hs.exists_cons
    rw [List.append_assoc] at hf
    obtain ⟨rest, rfl, hrest⟩ := Follows.comments Line.isComment_of_mem_remarks hf
    have hattributes := hs' _ rest hs hrest
    exact (attributesFrom_iff hdefers).mpr (.comment hl ((attributesFrom_iff hdefers).mp hattributes))

/-- A line of code. -/
theorem Continues.of_code {w' : Watch} (hs' : w'.Continues lines more) (hw : w.IsSound)
    (hl : l.isComment = false) {first : List Call} (htake : w.take validate l = some (w', first)) : w.Continues (l :: lines) (first ++ more) := by
  intro scopes heard hs hf
  rw [take_of_code hl] at htake
  obtain ⟨⟨s', calls⟩, hstep, hheed⟩ := Option.map_eq_some_iff.mp htake
  obtain ⟨stance, waiting⟩ := w
  cases Stance.takes_of_take hstep with
  | comment hcomment => cases hl.symm.trans hcomment
  | @told s _ call _ hcallOf htell =>
    have hcall : ∀ top ∈ scopes.head?, l.callIn? top.opener = some call :=
      fun top htop => (Site.callIn?_of_opens hs l top htop).trans hcallOf
    have hbraces : s'.braces = none := (Stance.run_of_tell htell).2.1
    have hfirst : w' = ⟨s', []⟩ ∧
        first = Stance.weave ⟨s, none⟩ l waiting [call] ++ l.remarks := by
      rw [heed, if_neg (by simp [hbraces])] at hheed
      exact ⟨(Prod.mk.inj hheed).1.symm, (Prod.mk.inj hheed).2.symm⟩
    obtain ⟨rfl, rfl⟩ := hfirst
    have htold : ∀ heard, Follows scopes (call :: (l.remarks ++ (more ++ [.finish]))) heard →
        Attributes scopes (l :: lines) heard :=
      fun heard hf => hs'.of_tell hw.proper hs hl hf hcall htell
    cases hdefers : Stance.defers ⟨s, none⟩ with
    | false =>
      obtain rfl : waiting = [] := hw.waiting hdefers
      rw [Stance.weave_nil] at hf
      exact (attributesFrom_iff hdefers).mpr (htold heard (by simpa using hf))
    | true =>
      obtain ⟨annotated, hnest, hhost⟩ : ∃ annotated, s.nest = 0 ∧
          s.host = some (.field annotated) := by
        unfold Stance.defers at hdefers
        dsimp only at hdefers
        split at hdefers
        · next heq => exact absurd heq (Option.some_ne_none _).symm
        · next annotated _ hnest hhost => exact ⟨annotated, hnest, hhost⟩
        · exact absurd hdefers Bool.false_ne_true
      have hscopes := hs
      unfold Site.Opens at hscopes
      rw [hnest, hhost] at hscopes
      obtain ⟨who, name, access, type, v, rfl⟩ := hscopes
      have hstays : l.staysInField = true := staysInField_of_callIn? (hcall _ rfl)
      have hweave : Stance.weave ⟨s, none⟩ l waiting [call] = waiting ++ [call] := by
        simp [Stance.weave, hstays]
      rw [hweave, List.append_assoc, List.append_assoc, List.append_assoc] at hf
      obtain ⟨rest, rfl, hrest⟩ := Follows.comments hw.comments hf
      have hattributes := htold rest hrest
      unfold AttributesFrom
      dsimp only
      rw [hnest, hhost]
      refine ⟨_, _, rest, rfl, ?_⟩
      rw [if_pos (by rw [fieldGoesOn_cons_code hl, hstays])]
      exact ⟨rfl, hattributes⟩
  | @opens s outer b _ hnest hdirective helement =>
    have hdefers : Stance.defers ⟨s, none⟩ = false := by simp [Stance.defers, hnest]
    obtain rfl : waiting = [] := hw.waiting hdefers
    obtain ⟨rfl, rfl⟩ := Prod.mk.inj hheed
    obtain ⟨top, outer', gathered, last, lines', v, rest, rfl, rfl, hlast, hgathers, rfl, hrest⟩ :=
      hs' scopes heard hs hf
    have harray := Attributes.array ⟨hl, hdirective, helement⟩ hlast hgathers hrest
    refine (attributesFrom_iff hdefers).mpr ?_
    simpa [heardBy, Line.remarksTo] using harray
  | @gathers s b _ hinside hopen =>
    obtain ⟨rfl, rfl⟩ := Prod.mk.inj hheed
    obtain ⟨top, outer', gathered, last, lines', v, rest, rfl, rfl, hlast, hgathers, rfl, hrest⟩ :=
      hs' scopes heard hs hf
    refine ⟨top, outer', l :: gathered, last, lines', v, rest, rfl, rfl, hlast, ?_, ?_, hrest⟩
    · rw [List.cons_append, List.filter_cons_of_pos (by simp [hl])]
      exact .more hinside hopen hgathers
    · simp [heardBy, Line.remarksTo, Braces.add]
  | @closes s b v _ _ hinside hclosed hv htell =>
    obtain ⟨hrun, hbraces, -⟩ := Stance.run_of_tell htell
    rw [Site.run_singleton] at hrun
    have hnext := Site.next?_of_accept hrun
    obtain ⟨rfl, rfl⟩ : w' = ⟨s', []⟩ ∧ first = .value b.name v :: (waiting ++ l.remarks) := by
      rw [heed, if_neg (by simp [hbraces])] at hheed
      exact ⟨(Prod.mk.inj hheed).1.symm, by simpa [Stance.weave] using (Prod.mk.inj hheed).2.symm⟩
    obtain ⟨top, outer, ⟨who, call, opened⟩, rest, rfl, rfl, hwho, hcall, hopened, hrest⟩ := hf.cons
    obtain rfl : call = _ := hcall
    obtain rfl : who = top.who := hwho
    obtain rfl : opened = none := by simpa [Call.opens?] using hopened
    have hopens := hs.next hopened hnext
    have hbehind : Follows (top :: outer) (waiting ++ l.remarks ++ (more ++ [.finish])) rest := by
      rw [← List.append_assoc]
      exact hrest
    obtain ⟨rest, rfl, hmore⟩ := Follows.comments (List.forall_mem_append.mpr
      ⟨hw.comments, Line.isComment_of_mem_remarks⟩) hbehind
    have hdefers : Stance.defers s' = false := by
      obtain ⟨outer, hnest⟩ := Site.nest_of_value hnext
      simp [Stance.defers, hbraces, hnest]
    have hattributes := (attributesFrom_iff (w := ⟨s', []⟩) hdefers).mp (hs' _ rest hopens hmore)
    refine ⟨top, outer, [], l, lines, v, rest, rfl, rfl, hl, ?_, ?_, hattributes⟩
    · rw [List.nil_append, List.filter_cons_of_pos (by simp [hl])]
      exact .last hinside hclosed hv
    · simp [heardBy, Line.remarksTo]
  | @behindField s _ call _ hnest hhost hstays hcall htell =>
    have hbraces : s'.braces = none := (Stance.run_of_tell htell).2.1
    have hstays' : l.staysInField = false := by
      rw [Line.staysInField, hstays.1, Bool.false_or, decide_eq_false hstays.2]
    obtain ⟨rfl, rfl⟩ : w' = ⟨s', []⟩ ∧
        first = .finish :: (waiting ++ call :: l.remarks) := by
      rw [heed, if_neg (by simp [hbraces])] at hheed
      exact ⟨(Prod.mk.inj hheed).1.symm,
        by simpa [Stance.weave, hstays'] using (Prod.mk.inj hheed).2.symm⟩
    have hclass : Site.Opens { s with host := none } [⟨0, none⟩] := by
      unfold Site.Opens
      rw [hnest]
      rfl
    unfold Site.Opens at hs
    rw [hnest, hhost] at hs
    obtain ⟨who, name, access, type, v, rfl⟩ := hs
    obtain ⟨rest, rfl, hrest⟩ := Follows.cons_finish (by simpa using hf)
    obtain ⟨rest, rfl, hmore⟩ := Follows.comments hw.comments hrest
    have hattributes := hs'.of_tell (s := { s with host := none })
      (fun _ h => absurd h (Option.some_ne_none _).symm) hclass hl hmore
      (fun top htop => by obtain rfl := Option.some.inj htop; exact hcall) htell
    unfold AttributesFrom
    dsimp only
    rw [hnest, hhost]
    refine ⟨_, _, rest, rfl, ?_⟩
    rw [if_neg (by rw [fieldGoesOn_cons_code hl, hstays']; exact Bool.false_ne_true)]
    exact ⟨rfl, rfl, hattributes⟩

/-- A step leads from a sound watch to a sound watch. -/
theorem IsSound.take (hw : w.IsSound) {w' : Watch} {calls : List Call}
    (h : w.take validate l = some (w', calls)) : w'.IsSound := by
  have hdue : ∀ call ∈ w.waiting ++ l.remarks, call.isComment = true :=
    List.forall_mem_append.mpr ⟨hw.comments, Line.isComment_of_mem_remarks⟩
  cases hl : l.isComment with
  | true =>
    unfold Watch.take at h
    rw [hl, if_pos rfl] at h
    split at h
    · next hdefers =>
      obtain ⟨rfl, -⟩ := Prod.mk.inj (Option.some.inj h)
      exact ⟨hw.proper, fun hnot => absurd hdefers (Bool.eq_false_iff.mp hnot), hdue⟩
    · obtain ⟨rfl, -⟩ := Prod.mk.inj (Option.some.inj h)
      exact hw
  | false =>
    rw [take_of_code hl] at h
    obtain ⟨⟨s', more⟩, htake, hheed⟩ := Option.map_eq_some_iff.mp h
    have hproper := hw.proper.run (Stance.run_of_take htake)
    unfold heed at hheed
    split at hheed
    · next hbraces =>
      obtain ⟨rfl, -⟩ := Prod.mk.inj hheed
      obtain ⟨b, hb⟩ := Option.isSome_iff_exists.mp hbraces
      refine ⟨hproper, fun hnot => ?_, hdue⟩
      simp [Stance.defers, show s'.braces = some b from hb] at hnot
    · obtain ⟨rfl, -⟩ := Prod.mk.inj hheed
      exact ⟨hproper, fun _ => rfl, nofun⟩

/-- The end of a source. -/
theorem continues_of_finish? {calls : List Call} (h : w.stance.finish? = some calls)
    (hw : w.IsSound) : w.Continues [] (calls ++ w.waiting) := by
  intro scopes heard hs hf
  obtain ⟨⟨⟨phase, declared, host, nest⟩, braces⟩, waiting⟩ := w
  -- The class ends behind all other scopes.
  have hclass : ∀ {heard}, Follows [⟨0, none⟩] [.finish] heard →
      Attributes [⟨0, none⟩] [] heard := by
    intro heard hf
    obtain ⟨rest, rfl, hrest⟩ := hf.cons_finish
    cases rest with
    | nil => exact .finish
    | cons _ _ => exact absurd hrest id
  unfold Stance.finish? at h
  split at h
  · exact absurd h (Option.some_ne_none _).symm
  · split at h
    · next hbraces hnest hhost =>
      obtain rfl := Option.some.inj h
      obtain rfl : braces = none := hbraces
      obtain rfl : nest = 0 := hnest
      obtain rfl : host = none := hhost
      obtain rfl : waiting = [] := hw.waiting rfl
      obtain rfl : scopes = [⟨0, none⟩] := hs
      exact hclass hf
    · next hbraces hnest hhost =>
      obtain rfl := Option.some.inj h
      obtain rfl : braces = none := hbraces
      obtain rfl : nest = 0 := hnest
      obtain rfl : host = some (.field false) := hhost
      obtain ⟨who, name, access, type, v, rfl⟩ := hs
      obtain ⟨rest, rfl, hrest⟩ := hf.cons_finish
      obtain ⟨rest, rfl, hmore⟩ := Follows.comments hw.comments hrest
      exact ⟨_, _, rest, rfl, rfl, rfl, hclass hmore⟩
    · exact absurd h (Option.some_ne_none _).symm

/-- The lines up to the end of a source. -/
theorem continues_of_readAll {lines : List Line} {w : Watch} (hw : w.IsSound) {calls : List Call}
    (h : w.readAll validate (lines.map some) = some calls) : w.Continues lines calls := by
  induction lines generalizing w calls with
  | nil =>
    obtain ⟨ends, hends, rfl⟩ := Option.map_eq_some_iff.mp h
    exact continues_of_finish? hends hw
  | cons l lines ih =>
    rw [List.map_cons, readAll] at h
    obtain ⟨⟨w', first⟩, htake, hmore⟩ := Option.bind_eq_some_iff.mp h
    obtain ⟨rest, hrest, rfl⟩ := Option.map_eq_some_iff.mp hmore
    have hs' := ih (hw.take htake) hrest
    cases hl : l.isComment with
    | true => exact hs'.of_comment hw hl htake
    | false => exact hs'.of_code hw hl htake

end Watch

/-! ## Whole readings -/

/-- Every call is heard by someone. -/
theorem Call.hush_not_mem_moves (call : Call) : Move.hush ∉ call.moves := by
  unfold Call.moves
  split
  · simp
  · split <;> simp

/-- The lines of a source that can be scanned to its end. -/
theorem Watch.exists_lines {scanned : List (Except Fault Line)} {validate : Bool} {w : Watch}
    {calls : List Call} (h : w.readAll validate (scanned.map Except.toOption) = some calls) :
    ∃ lines : List Line, scanned = lines.map .ok := by
  induction scanned generalizing w calls with
  | nil => exact ⟨[], rfl⟩
  | cons line rest ih =>
    cases line with
    | error fault => exact nomatch h
    | ok l =>
      rw [List.map_cons, Except.toOption, Watch.readAll] at h
      obtain ⟨_, -, hmore⟩ := Option.bind_eq_some_iff.mp h
      obtain ⟨_, hrest, -⟩ := Option.map_eq_some_iff.mp hmore
      obtain ⟨lines, rfl⟩ := ih hrest
      exact ⟨l :: lines, rfl⟩

/-- The calls of a good reading, comments included, as a listener hears them that accepts
everything. -/
theorem follows_of_read {σ κ : Type} {L : Listener σ κ} (hL : L.AcceptsAll) {o : Options}
    (h : o.IsAttentive) (root : κ) (state : σ) {source : Text}
    (hok : (read o L root state source).1 = .ok ()) :
    ∃ calls, commentedCalls o source = some calls ∧
      Follows [⟨0, none⟩] (calls ++ [.finish]) (callsOf o L root state source) := by
  have hread : ((dialogue o source).rehearse o).result = .ok () :=
    (read_result o root state source hL.neverFails).symm.trans hok
  have hcourse := course_dialogue_commented h source
  unfold Dialogue.course at hcourse
  rw [hread] at hcourse
  obtain ⟨calls, hcalls, hmoves⟩ := Option.map_eq_some_iff.mp hcourse.symm
  have hmoves := (Prod.mk.inj hmoves).2
  -- The visitors of the open scopes hear these moves.
  have hends := dialogue_endsClass o source
  unfold Dialogue.EndsClass at hends
  rw [hread] at hends
  obtain ⟨moves, heq, hordered⟩ := hends
  have hhush : Move.hush ∉ moves := by
    intro hmem
    have hmem : Move.hush ∈ calls.flatMap Call.moves ++ [.tell .finish] := by
      rw [hmoves, heq]
      exact List.mem_append_left _ hmem
    rcases List.mem_append.mp hmem with hmem | hmem
    · obtain ⟨call, -, hmem⟩ := List.mem_flatMap.mp hmem
      exact Call.hush_not_mem_moves call hmem
    · cases List.mem_singleton.mp hmem
  have hinitial : Desk.Hears (Desk.initial (0, root) (state, [])) [⟨0, none⟩] := rfl
  obtain ⟨heard, hheard, hplays⟩ := hinitial.plays hL hordered hhush rfl
  have hcallsOf : callsOf o L root state source = heard := by
    rw [callsOf_eq o root state source hL.neverFails, heq]
    exact hheard
  rw [← heq, ← hmoves] at hplays
  rw [hcallsOf]
  exact ⟨calls, hcalls, hplays.follows⟩

/-- In a strict reading with comments that comes to a good end, with a listener that accepts
everything, every comment of the source is told once and in order, by the call for its sort, and
it is heard in the scope that it stands in. -/
theorem comments_reach_their_scopes {σ κ : Type} {L : Listener σ κ} (hL : L.AcceptsAll)
    {o : Options} (hstrict : o.errors = .strict) (hcomments : o.comments = true) (root : κ)
    (state : σ) {source : Text} (hok : (read o L root state source).1 = .ok ()) :
    ∃ lines : List Line, scanLines source = lines.map .ok ∧
      Attributes [⟨0, none⟩] lines (callsOf o L root state source) ∧
      ((callsOf o L root state source).map Heard.call).filter Call.isComment =
        lines.flatMap Line.remarks := by
  obtain ⟨calls, hcalls, hfollows⟩ := follows_of_read hL ⟨hstrict, hcomments⟩ root state hok
  obtain ⟨lines, hlines⟩ := Watch.exists_lines hcalls
  have hall : (Watch.initial o.snippet).readAll o.validate (lines.map some) = some calls := by
    have hmap : (scanLines source).map Except.toOption = lines.map some := by
      rw [hlines, List.map_map]
      rfl
    rw [← hmap]
    exact hcalls
  have hattributes : Attributes [⟨0, none⟩] lines (callsOf o L root state source) := by
    have hsound : (Watch.initial o.snippet).IsSound := ⟨fun hnest => absurd rfl hnest, fun _ => rfl, nofun⟩
    exact Watch.continues_of_readAll hsound hall _ _ rfl hfollows
  exact ⟨lines, hlines, hattributes, hattributes.comments⟩

/-- Comments on an array in an annotation, in a field with a closing line and behind one without:
all eleven are told, each to the visitor of its scope. -/
theorem comments_reach_annotation_and_fields :
    let source := (".class La; # 1\n.annotation runtime Lb; # 2\nx = \x7b # 3\n# 4\n1 # 5\n\x7d # 6\n" ++
      ".end annotation # 7\n.field y:I # 8\n# 9\n.field z:I\n# 10\n.end field # 11\n").toList
    let told := callsOf { Options.default with comments := true } (Recorder.listener .obliging)
      (Recorder.root .ofClass) .initial source
    (∃ lines : List Line, scanLines source = lines.map .ok ∧ Attributes [⟨0, none⟩] lines told ∧
      (told.map Heard.call).filter Call.isComment = lines.flatMap Line.remarks) ∧
      (told.filter fun h => h.call.isComment).map Heard.who = [0, 3, 3, 3, 3, 3, 0, 12, 0, 16, 0] := by
  intro source told
  have hgood : (read { Options.default with comments := true } (Recorder.listener .obliging)
      (Recorder.root .ofClass) .initial source).1.isOk = true := by
    decide +kernel
  have hok : (read { Options.default with comments := true } (Recorder.listener .obliging)
      (Recorder.root .ofClass) .initial source).1 = .ok () := by
    generalize (read _ _ _ _ _).1 = result at hgood ⊢
    cases result with
    | ok _ => rfl
    | error fault => exact absurd hgood Bool.false_ne_true
  exact ⟨comments_reach_their_scopes Recorder.acceptsAll_obliging rfl rfl _ _ hok,
    by decide +kernel⟩

end Smali
