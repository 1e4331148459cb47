import Mathlib.Data.List.ReduceOption
import Mathlib.Logic.ExistsUnique
import Mathlib.Logic.Relation
import Smali.Proofs.ScopeOrder
import Smali.Proofs.Trace

/-!
# The scope protocol

What a listener that never fails can rely on. Every visitor that it hands out hears of
the end of its scope once, and of nothing afterwards. What is told to a visitor and to the
visitors that descend from it stands between the call that handed it out and its end, and
until then the visitor around hears nothing. The numbers of visitors grow with the places
of the calls that hand them out, so a scope with all scopes in it is a range of numbers.
-/

namespace Smali

/-! ## Logs of calls -/

/-- Whether a number belongs to a visitor: to the class, or to one that was handed out. -/
def IsVisitor (log : List Heard) (v : Nat) : Prop :=
  v = 0 ∨ ∃ e ∈ log, e.opened = some v

/-- At a place of a log a visitor hears of the end of its scope. -/
def EndsAt (log : List Heard) (j v : Nat) : Prop :=
  ∃ opened, log[j]? = some ⟨v, .finish, opened⟩

/-- A visitor that was handed out by a call on another one. -/
def IsChild (log : List Heard) (parent child : Nat) : Prop :=
  ∃ e ∈ log, e.who = parent ∧ e.opened = some child

/-- A visitor itself, or one that was handed out further inside. -/
def Descends (log : List Heard) : Nat → Nat → Prop := Relation.ReflTransGen (IsChild log)

/-- The log of a reading that has come to its end. -/
structure ScopesClosed (log : List Heard) : Prop where
  /-- Every visitor hears of the end of its scope, once. -/
  ends_once : ∀ v, IsVisitor log v → ∃! j, EndsAt log j v
  /-- Nobody hears anything after that. -/
  silent : ∀ v j k e, EndsAt log j v → j < k → log[k]? = some e → e.who ≠ v
  /-- All that a child and its descendants hear stands between the call that handed it
  out and its end. -/
  inside : ∀ i e v j, log[i]? = some e → e.opened = some v → EndsAt log j v →
    ∀ k e', log[k]? = some e' → Descends log v e'.who → i < k ∧ k ≤ j
  /-- In between nothing is told to the visitor around. -/
  apart : ∀ i e v j, log[i]? = some e → e.opened = some v → EndsAt log j v →
    ∀ k e', log[k]? = some e' → i < k → k < j → e'.who ≠ e.who
  /-- The last call ends the class. -/
  last : log.getLast? = some ⟨0, .finish, none⟩

/-- The log of a reading that a fault has ended. -/
structure ScopesUnclosed (log : List Heard) : Prop where
  /-- No visitor hears of the end of its scope more than once. -/
  ends_at_most_once : ∀ v j k, EndsAt log j v → EndsAt log k v → j = k
  /-- The end of the class is not told. -/
  class_open : ∀ j, ¬EndsAt log j 0

/-! ## How logs grow -/

/-- The logs that arise while scopes are gone into and left, with the visitors of the
scopes that are open, the innermost first. Nobody hears what is told in a scope without a
visitor. -/
inductive Told : List (Option Nat) → List Heard → Prop where
  /-- Before the first call. -/
  | start : Told [some 0] []
  /-- A call that neither opens nor ends a scope. -/
  | tell {v : Nat} {outer : List (Option Nat)} {log : List Heard} {call : Call}
    (h : Told (some v :: outer) log) (hfinish : call ≠ .finish) :
    Told (some v :: outer) (log ++ [⟨v, call, none⟩])
  /-- A call that opens a scope. A new visitor has the next number. -/
  | enter {v : Nat} {outer : List (Option Nat)} {log : List Heard} {call : Call}
    {opened : Option Nat} (h : Told (some v :: outer) log) (hfinish : call ≠ .finish)
    (hopened : opened = none ∨ opened = some (log.length + 1)) :
    Told (opened :: some v :: outer) (log ++ [⟨v, call, opened⟩])
  /-- A scope that nobody hears. -/
  | hush {scope : Option Nat} {outer : List (Option Nat)} {log : List Heard}
    (h : Told (scope :: outer) log) : Told (none :: scope :: outer) log
  /-- The end of a scope. -/
  | finish {v : Nat} {outer : List (Option Nat)} {log : List Heard}
    (h : Told (some v :: outer) log) : Told outer (log ++ [⟨v, .finish, none⟩])
  /-- The end of a scope that nobody hears. -/
  | unhush {outer : List (Option Nat)} {log : List Heard} (h : Told (none :: outer) log) :
    Told outer log

/-- The end of the scope of a visitor at a place, seen from the numbers: from the number
of the visitor up to that place all visitors have numbers from its own on, and afterwards
none has a number in this range. -/
structure EndsBlock (log : List Heard) (v j : Nat) : Prop where
  /-- The end stands behind the call that handed out the visitor. -/
  le : v ≤ j
  /-- The end is told to the visitor. -/
  ends : log[j]? = some ⟨v, .finish, none⟩
  /-- Up to the end only the visitor and later ones hear anything, and the end is told
  only once. -/
  within : ∀ k e, log[k]? = some e → v ≤ k → k ≤ j →
    v ≤ e.who ∧ (e.who = v → e.call = .finish → k = j)
  /-- After the end neither the visitor nor one of those hears anything. -/
  after : ∀ k (e : Heard), log[k]? = some e → j < k → e.who < v ∨ j < e.who

/-- What holds of a log and of the visitors that are open. -/
structure Orderly (current : List Nat) (log : List Heard) : Prop where
  /-- A visitor has the number of calls up to the one that handed it out. -/
  numbered : ∀ k (e : Heard) v, log[k]? = some e → e.opened = some v → v = k + 1
  /-- Whoever hears a call was handed out before. -/
  known : ∀ k (e : Heard), log[k]? = some e → IsVisitor log e.who ∧ e.who ≤ k
  /-- The open visitors are visitors. -/
  visitors : ∀ v ∈ current, IsVisitor log v ∧ v ≤ log.length
  /-- Inner visitors have higher numbers. -/
  decreasing : current.Pairwise (· > ·)
  /-- From its number on, an open visitor and later ones hear everything, and its end is
  not told. -/
  unended : ∀ v ∈ current, ∀ k (e : Heard), log[k]? = some e → v ≤ k →
    v ≤ e.who ∧ (e.who = v → e.call ≠ .finish)
  /-- The scopes of all others have ended, and no open visitor was handed out in them. -/
  ended : ∀ v, IsVisitor log v → v ∉ current →
    ∃ j, EndsBlock log v j ∧ ∀ s ∈ current, s < v ∨ j < s

/-! ### One more call -/

/-- The calls of a log with one more at its end. -/
theorem getElem?_snoc {α : Type} {log : List α} {x e : α} {k : Nat}
    (h : (log ++ [x])[k]? = some e) : log[k]? = some e ∨ k = log.length ∧ e = x := by
  rcases Nat.lt_or_ge k log.length with hk | hk
  · rw [List.getElem?_append_left hk] at h
    exact .inl h
  · rw [List.getElem?_append_right hk] at h
    obtain ⟨hlt, -⟩ := List.getElem?_eq_some_iff.mp h
    have hlen : k = log.length := by
      rw [List.length_singleton] at hlt
      omega
    subst hlen
    rw [Nat.sub_self] at h
    exact .inr ⟨rfl, (Option.some.inj h).symm⟩

/-- The calls of a log stay where they are. -/
theorem getElem?_snoc_of_some {α : Type} {log : List α} {x e : α} {k : Nat}
    (h : log[k]? = some e) : (log ++ [x])[k]? = some e := by
  obtain ⟨hk, -⟩ := List.getElem?_eq_some_iff.mp h
  rw [List.getElem?_append_left hk]
  exact h

/-- The place of a call is less than their number. -/
theorem lt_of_getElem? {α : Type} {log : List α} {e : α} {k : Nat} (h : log[k]? = some e) :
    k < log.length :=
  (List.getElem?_eq_some_iff.mp h).1

/-- Visitors stay visitors. -/
theorem IsVisitor.snoc {log : List Heard} {v : Nat} (h : IsVisitor log v) (x : Heard) :
    IsVisitor (log ++ [x]) v := by
  rcases h with h | ⟨e, he, ho⟩
  · exact .inl h
  · exact .inr ⟨e, List.mem_append_left _ he, ho⟩

/-- Who is a visitor after one more call. -/
theorem isVisitor_of_snoc {log : List Heard} {x : Heard} {v : Nat}
    (h : IsVisitor (log ++ [x]) v) : IsVisitor log v ∨ x.opened = some v := by
  rcases h with h | ⟨e, he, ho⟩
  · exact .inl (.inl h)
  · rcases List.mem_append.mp he with he | he
    · exact .inl (.inr ⟨e, he, ho⟩)
    · exact .inr (List.mem_singleton.mp he ▸ ho)

/-- The end of a scope stays where it is, if the next call is told to someone else. -/
theorem EndsBlock.snoc {log : List Heard} {v j : Nat} (h : EndsBlock log v j) {x : Heard}
    (hx : x.who < v ∨ j < x.who) : EndsBlock (log ++ [x]) v j where
  le := h.le
  ends := getElem?_snoc_of_some h.ends
  within k e he hv hj := by
    have hlt := lt_of_getElem? h.ends
    rcases getElem?_snoc he with he | ⟨hk, -⟩
    · exact h.within k e he hv hj
    · omega
  after k e he hj := by
    rcases getElem?_snoc he with he | ⟨-, rfl⟩
    · exact h.after k e he hj
    · exact hx

namespace Orderly

variable {v : Nat} {rest : List Nat} {log : List Heard}

/-- The open visitors around the innermost one have lower numbers. -/
theorem le_head (h : Orderly (v :: rest) log) {s : Nat} (hs : s ∈ v :: rest) : s ≤ v := by
  rcases List.mem_cons.mp hs with rfl | hs
  · exact Nat.le_refl s
  · exact Nat.le_of_lt (List.rel_of_pairwise_cons h.decreasing hs)

/-- Before the first call. -/
theorem start : Orderly [0] [] where
  numbered k e v h := nomatch h
  known k e h := nomatch h
  visitors v hv := by
    rw [List.mem_singleton.mp hv]
    exact ⟨.inl rfl, Nat.le_refl 0⟩
  decreasing := List.pairwise_singleton _ 0
  unended v hv k e h := nomatch h
  ended v hv hne := by
    rcases hv with rfl | ⟨e, he, -⟩
    · exact absurd List.mem_cons_self hne
    · exact nomatch he

/-- A call that ends no scope, and that may hand out a visitor. -/
theorem hear (h : Orderly (v :: rest) log) {call : Call} (hfinish : call ≠ .finish)
    {opened : Option Nat} (hopened : opened = none ∨ opened = some (log.length + 1)) :
    Orderly (opened.toList ++ v :: rest) (log ++ [⟨v, call, opened⟩]) where
  numbered k e w he hw := by
    rcases getElem?_snoc he with he | ⟨hk, rfl⟩
    · exact h.numbered k e w he hw
    · rcases hopened with ho | ho
      · exact absurd (ho.symm.trans hw) (Option.some_ne_none w).symm
      · rw [hk]
        exact (Option.some.inj (ho.symm.trans hw)).symm
  known k e he := by
    rcases getElem?_snoc he with he | ⟨hk, rfl⟩
    · exact ⟨(h.known k e he).1.snoc _, (h.known k e he).2⟩
    · have hv := h.visitors v List.mem_cons_self
      exact ⟨hv.1.snoc _, hk ▸ hv.2⟩
  visitors w hw := by
    rw [List.length_append, List.length_singleton]
    rcases List.mem_append.mp hw with hw | hw
    · have ho := Option.mem_toList.mp hw
      refine ⟨.inr ⟨_, List.mem_append_right _ (List.mem_singleton.mpr rfl), ho⟩, ?_⟩
      rcases hopened with hn | hn
      · exact absurd (hn.symm.trans ho) (Option.some_ne_none w).symm
      · exact Nat.le_of_eq (Option.some.inj (hn.symm.trans ho)).symm
    · have hv := h.visitors w hw
      exact ⟨hv.1.snoc _, Nat.le_succ_of_le hv.2⟩
  decreasing := by
    rcases hopened with rfl | rfl
    · exact h.decreasing
    · refine List.pairwise_cons.mpr ⟨fun s hs => ?_, h.decreasing⟩
      exact Nat.lt_succ_of_le (h.visitors s hs).2
  unended s hs k e he hle := by
    have hold : s ∈ v :: rest → s ≤ e.who ∧ (e.who = s → e.call ≠ .finish) := by
      intro hs
      rcases getElem?_snoc he with he | ⟨-, rfl⟩
      · exact h.unended s hs k e he hle
      · exact ⟨h.le_head hs, fun _ => hfinish⟩
    rcases List.mem_append.mp hs with hs | hs
    · have hk := lt_of_getElem? he
      rw [List.length_append, List.length_singleton] at hk
      rcases hopened with ho | ho
      · exact absurd (ho.symm.trans (Option.mem_toList.mp hs)) (Option.some_ne_none s).symm
      · have hs' := Option.some.inj (ho.symm.trans (Option.mem_toList.mp hs))
        omega
    · exact hold hs
  ended w hw hne := by
    have hwho : w ∉ v :: rest := fun hmem => hne (List.mem_append_right _ hmem)
    rcases isVisitor_of_snoc hw with hw | hw
    · obtain ⟨j, hj, hs⟩ := h.ended w hw hwho
      refine ⟨j, hj.snoc (hs v List.mem_cons_self), fun s hmem => ?_⟩
      rcases List.mem_append.mp hmem with hmem | hmem
      · have hlt := lt_of_getElem? hj.ends
        rcases hopened with ho | ho
        · exact absurd (ho.symm.trans (Option.mem_toList.mp hmem)) (Option.some_ne_none s).symm
        · have hs' := Option.some.inj (ho.symm.trans (Option.mem_toList.mp hmem))
          omega
      · exact hs s hmem
    · exact absurd (List.mem_append_left _ (Option.mem_toList.mpr hw)) hne

/-- The end of the innermost scope. -/
theorem finish (h : Orderly (v :: rest) log) : Orderly rest (log ++ [⟨v, .finish, none⟩]) where
  numbered k e w he hw := by
    rcases getElem?_snoc he with he | ⟨-, rfl⟩
    · exact h.numbered k e w he hw
    · exact absurd hw (Option.some_ne_none w).symm
  known k e he := by
    rcases getElem?_snoc he with he | ⟨hk, rfl⟩
    · exact ⟨(h.known k e he).1.snoc _, (h.known k e he).2⟩
    · have hv := h.visitors v List.mem_cons_self
      exact ⟨hv.1.snoc _, hk ▸ hv.2⟩
  visitors w hw := by
    have hv := h.visitors w (List.mem_cons_of_mem v hw)
    rw [List.length_append, List.length_singleton]
    exact ⟨hv.1.snoc _, Nat.le_succ_of_le hv.2⟩
  decreasing := h.decreasing.of_cons
  unended s hs k e he hle := by
    rcases getElem?_snoc he with he | ⟨-, rfl⟩
    · exact h.unended s (List.mem_cons_of_mem v hs) k e he hle
    · have hlt := List.rel_of_pairwise_cons h.decreasing hs
      exact ⟨Nat.le_of_lt hlt, fun heq => absurd heq (Nat.ne_of_gt hlt)⟩
  ended w hw hne := by
    have hold : IsVisitor log w := by
      rcases isVisitor_of_snoc hw with hw | hw
      · exact hw
      · exact absurd hw (Option.some_ne_none w).symm
    by_cases hv : w = v
    · subst hv
      refine ⟨log.length, ⟨(h.visitors w List.mem_cons_self).2, ?_, ?_, ?_⟩, fun s hs => ?_⟩
      · rw [List.getElem?_append_right (Nat.le_refl _), Nat.sub_self]
        rfl
      · intro k e he hle hk
        rcases getElem?_snoc he with he | ⟨hk, rfl⟩
        · have hopen := h.unended w List.mem_cons_self k e he hle
          exact ⟨hopen.1, fun hwho hcall => absurd hcall (hopen.2 hwho)⟩
        · exact ⟨Nat.le_refl w, fun _ _ => hk⟩
      · intro k e he hk
        have hlt := lt_of_getElem? he
        rw [List.length_append, List.length_singleton] at hlt
        omega
      · exact .inl (List.rel_of_pairwise_cons h.decreasing hs)
    · have hmem : w ∉ v :: rest := fun hmem =>
        (List.mem_cons.mp hmem).elim hv hne
      obtain ⟨j, hj, hs⟩ := h.ended w hold hmem
      exact ⟨j, hj.snoc (hs v List.mem_cons_self), fun s hmem =>
        hs s (List.mem_cons_of_mem v hmem)⟩

end Orderly

/-- The logs that arise are orderly. -/
theorem Told.orderly {scopes : List (Option Nat)} {log : List Heard} (h : Told scopes log) :
    Orderly scopes.reduceOption log := by
  induction h with
  | start => exact .start
  | tell _ hfinish ih => exact Orderly.hear ih hfinish (.inl rfl)
  | @enter v outer log call opened _ hfinish hopened ih =>
    have hnext := Orderly.hear ih hfinish hopened
    cases opened <;> exact hnext
  | hush _ ih => exact ih
  | finish _ ih => exact Orderly.finish ih
  | unhush _ ih => exact ih

/-- As long as a scope is open, the class is, around all others. -/
theorem Told.class_outermost {scopes : List (Option Nat)} {log : List Heard}
    (h : Told scopes log) (hne : scopes ≠ []) : scopes.getLast? = some (some 0) := by
  induction h with
  | start => rfl
  | tell _ _ ih => exact ih hne
  | enter _ _ _ ih =>
    rw [List.getLast?_cons_cons]
    exact ih (List.cons_ne_nil _ _)
  | hush _ ih =>
    rw [List.getLast?_cons_cons]
    exact ih (List.cons_ne_nil _ _)
  | @finish v outer _ _ ih =>
    cases outer with
    | nil => exact absurd rfl hne
    | cons scope outer => exact ih (List.cons_ne_nil _ _)
  | @unhush outer _ _ ih =>
    cases outer with
    | nil => exact absurd rfl hne
    | cons scope outer => exact ih (List.cons_ne_nil _ _)

/-! ## What an orderly log says -/

/-- Whoever hears of an end at a place has the end of its block there. -/
theorem EndsBlock.eq_of_endsAt {current : List Nat} {log : List Heard}
    (h : Orderly current log) {v j k : Nat} (hj : EndsBlock log v j) (hk : EndsAt log k v) :
    k = j := by
  obtain ⟨opened, hk⟩ := hk
  have hle := (h.known k _ hk).2
  rcases Nat.lt_or_ge j k with hlt | hge
  · have hafter := hj.after k _ hk hlt
    have hvj := hj.le
    dsimp only at hafter
    omega
  · exact (hj.within k _ hk hle hge).2 rfl rfl

/-- If no scope is open any more, the scopes of all visitors are closed. -/
theorem Told.scopesClosed {log : List Heard} (h : Told [] (log ++ [⟨0, .finish, none⟩])) :
    ScopesClosed (log ++ [⟨0, .finish, none⟩]) := by
  generalize hlog : log ++ [(⟨0, .finish, none⟩ : Heard)] = log' at h
  have ho : Orderly [] log' := h.orderly
  have hblock : ∀ {v}, IsVisitor log' v → ∃ j, EndsBlock log' v j := fun hv =>
    (ho.ended _ hv List.not_mem_nil).imp fun _ hj => hj.1
  have hends : ∀ {v j}, EndsAt log' j v → EndsBlock log' v j := by
    intro v j hj
    obtain ⟨opened, he⟩ := hj
    obtain ⟨k, hk⟩ := hblock (ho.known j _ he).1
    rw [hk.eq_of_endsAt ho ⟨opened, he⟩]
    exact hk
  constructor
  case ends_once =>
    intro v hv
    obtain ⟨j, hj⟩ := hblock hv
    exact ⟨j, ⟨none, hj.ends⟩, fun k hk => hj.eq_of_endsAt ho hk⟩
  case silent =>
    intro v j k e hj hlt he
    have hafter := (hends hj).after k e he hlt
    have hle := (hends hj).le
    omega
  case inside =>
    intro i e v j he hopened hj k e' he' hdescends
    have hv := ho.numbered i e v he hopened
    have hb := hends hj
    -- The numbers of all descendants lie between that of the visitor and its end.
    have hrange : ∀ w, Descends log' v w → v ≤ w ∧ w ≤ j := by
      intro w hw
      induction hw with
      | refl => exact ⟨Nat.le_refl v, hb.le⟩
      | @tail b c _ hchild ih =>
        obtain ⟨x, hx, hwho, hc⟩ := hchild
        obtain ⟨n, hn⟩ := List.getElem?_of_mem hx
        have hcn := ho.numbered n x c hn hc
        have hle := (ho.known n x hn).2
        have hnj : n ≤ j := by
          by_contra hlt
          have hafter := hb.after n x hn (by omega)
          omega
        have hne : n ≠ j := by
          intro heq
          rw [heq, hb.ends] at hn
          rw [← Option.some.inj hn] at hc
          exact Option.noConfusion rfl (heq_of_eq hc)
        omega
    obtain ⟨hlow, hhigh⟩ := hrange e'.who hdescends
    have hknown := (ho.known k e' he').2
    refine ⟨by omega, ?_⟩
    by_contra hlt
    have hafter := hb.after k e' he' (by omega)
    omega
  case apart =>
    intro i e v j he hopened hj k e' he' hik hkj
    have hv := ho.numbered i e v he hopened
    have hwithin := (hends hj).within k e' he' (by omega) (by omega)
    have hknown := (ho.known i e he).2
    omega
  case last =>
    rw [← hlog]
    exact List.getLast?_concat

/-- As long as a scope is open, the class is, and no scope has ended twice. -/
theorem Told.scopesUnclosed {scopes : List (Option Nat)} {log : List Heard}
    (h : Told scopes log) (hne : scopes ≠ []) : ScopesUnclosed log := by
  have ho : Orderly scopes.reduceOption log := h.orderly
  have hopen : ∀ {v j}, v ∈ scopes.reduceOption → ¬EndsAt log j v := by
    intro v j hv hj
    obtain ⟨opened, he⟩ := hj
    exact (ho.unended v hv j _ he (ho.known j _ he).2).2 rfl rfl
  constructor
  case ends_at_most_once =>
    intro v j k hj hk
    obtain ⟨opened, he⟩ := id hj
    by_cases hv : v ∈ scopes.reduceOption
    · exact absurd hj (hopen hv)
    · obtain ⟨i, hi, -⟩ := ho.ended v (ho.known j _ he).1 hv
      rw [hi.eq_of_endsAt ho hj, hi.eq_of_endsAt ho hk]
  case class_open =>
    intro j
    refine hopen (List.mem_of_getLast? ?_ |> List.reduceOption_mem_iff.mpr)
    exact h.class_outermost hne

/-! ## The logs of a desk -/

namespace Desk

variable {σ κ : Type} {L : Listener σ κ}

/-- The visitors of the scopes that are open, the innermost first. -/
def numbers (d : Desk (σ × List Heard) (Nat × κ)) : List (Option Nat) :=
  d.scopes.map (·.map Prod.fst)

/-- The log and the open scopes of a desk arise from calls, and a number of scopes is open
inside the class. -/
def ToldAt (n : Nat) (d : Desk (σ × List Heard) (Nat × κ)) : Prop :=
  Told d.numbers d.state.2 ∧ d.scopes.length = n + 1

/-- A call that neither opens nor ends a scope. -/
theorem ToldAt.tell {n : Nat} {d : Desk (σ × List Heard) (Nat × κ)} (h : d.ToldAt n)
    {call : Call} (hopens : call.opens? = none) (hfinish : call ≠ .finish) :
    (d.make L.traced (.tell call)).ToldAt n := by
  obtain ⟨⟨state, log⟩, scopes, skipped⟩ := d
  rcases scopes with _ | ⟨_ | ⟨who, handle⟩, outer⟩
  · exact h
  · exact h
  · refine ⟨?_, h.2⟩
    have hnext := @Told.tell _ _ _ call h.1 hfinish
    simp only [make, Desk.call, Listener.traced, Listener.numberFor, hopens]
    exact hnext

/-- A call that opens a scope. -/
theorem ToldAt.enter (hL : L.NeverFails) {n : Nat} {d : Desk (σ × List Heard) (Nat × κ)}
    (h : d.ToldAt n) {call : Call} (hopens : call.opens?.isSome) :
    (d.make L.traced (.enter call)).ToldAt (n + 1) := by
  have hfinish : call ≠ .finish := by
    rintro rfl
    exact Bool.false_ne_true hopens
  obtain ⟨⟨state, log⟩, scopes, skipped⟩ := d
  rcases scopes with _ | ⟨_ | ⟨who, handle⟩, outer⟩
  · exact absurd h.2 (Nat.succ_ne_zero n).symm
  · exact ⟨.hush h.1, congrArg Nat.succ h.2⟩
  · obtain ⟨scope, hscope⟩ := Option.isSome_iff_exists.mp hopens
    obtain ⟨opened, ho⟩ := hL handle call state
    refine ⟨?_, ?_⟩
    · have hnumber : (opened.map fun _ => log.length + 1) = none ∨
          (opened.map fun _ => log.length + 1) = some (log.length + 1) := by
        cases opened <;> simp
      have hnext := h.1.enter hfinish hnumber
      simp only [numbers, make, Desk.call, Listener.traced, Listener.numberFor, ho, hscope]
      cases opened <;> exact hnext
    · simp only [make, Desk.call, Listener.traced, ho]
      exact congrArg Nat.succ h.2

/-- A scope that nobody hears. -/
theorem ToldAt.hush {n : Nat} {d : Desk (σ × List Heard) (Nat × κ)} (h : d.ToldAt n) :
    (d.make L.traced .hush).ToldAt (n + 1) := by
  obtain ⟨⟨state, log⟩, scopes, skipped⟩ := d
  cases scopes with
  | nil => exact absurd h.2 (Nat.succ_ne_zero n).symm
  | cons scope outer => exact ⟨.hush h.1, congrArg Nat.succ h.2⟩

/-- The end of a scope, with the way back to the scope around. -/
theorem ToldAt.close {n : Nat} {d : Desk (σ × List Heard) (Nat × κ)} (h : d.ToldAt (n + 1)) :
    ((d.make L.traced (.tell .finish)).make L.traced .leave).ToldAt n := by
  obtain ⟨⟨state, log⟩, scopes, skipped⟩ := d
  rcases scopes with _ | ⟨_ | ⟨who, handle⟩, outer⟩
  · exact absurd h.2 (Nat.succ_ne_zero _).symm
  · exact ⟨.unhush h.1, Nat.succ.inj h.2⟩
  · exact ⟨.finish h.1, Nat.succ.inj h.2⟩

/-- Moves that keep to the scopes. -/
theorem ToldAt.makeAll (hL : L.NeverFails) {n m : Nat} {moves : List Move}
    (hmoves : Ordered n moves m) {d : Desk (σ × List Heard) (Nat × κ)} (h : d.ToldAt n) :
    (d.makeAll L.traced moves).ToldAt m := by
  induction hmoves generalizing d with
  | nil => exact h
  | tell hopens hfinish _ ih => exact ih (h.tell hopens hfinish)
  | enter hopens _ ih => exact ih (h.enter hL hopens)
  | hush _ ih => exact ih h.hush
  | close _ ih => exact ih h.close

/-- Where no scope inside is open, only the class is. -/
theorem ToldAt.scopes_eq {d : Desk (σ × List Heard) (Nat × κ)} (h : d.ToldAt 0) :
    ∃ handle, d.scopes = [some (0, handle)] := by
  obtain ⟨scope, hscopes⟩ := List.length_eq_one_iff.mp h.2
  have hclass := h.1.class_outermost (by simp [numbers, hscopes])
  rw [numbers, hscopes] at hclass
  cases scope with
  | none => exact Option.noConfusion rfl (heq_of_eq (Option.some.inj hclass))
  | some handle =>
    have hwho : handle.1 = 0 := Option.some.inj (Option.some.inj hclass)
    exact ⟨handle.2, by rw [hscopes, ← hwho]⟩

/-- The end of the class, where no scope inside is open. -/
theorem ToldAt.finish {d : Desk (σ × List Heard) (Nat × κ)} (h : d.ToldAt 0) :
    (d.make L.traced (.tell .finish)).state.2 = d.state.2 ++ [⟨0, .finish, none⟩] ∧
      Told [] (d.state.2 ++ [⟨0, .finish, none⟩]) := by
  obtain ⟨⟨state, log⟩, scopes, skipped⟩ := d
  obtain ⟨handle, rfl⟩ := h.scopes_eq
  exact ⟨rfl, h.1.finish⟩

end Desk

/-- Whatever the source and the options are and whatever a listener declines, as long as it
never fails: a reading that comes to its end has closed the scopes of all visitors, in
order, and one that a fault ends has closed none twice and the class not at all. -/
theorem scopes_closed_in_order {σ κ : Type} {L : Listener σ κ} (hL : L.NeverFails)
    (o : Options) (root : κ) (state : σ) (source : Text) :
    ((read o L root state source).1 = .ok () → ScopesClosed (callsOf o L root state source)) ∧
      ∀ fault, (read o L root state source).1 = .error fault →
        ScopesUnclosed (callsOf o L root state source) := by
  have hread : (read o L root state source).1 = ((dialogue o source).rehearse o).result := by
    rw [read, Dialogue.conduct_eq o hL]
  have hcalls : callsOf o L root state source =
      ((Desk.initial (0, root) (state, [])).makeAll L.traced
        ((dialogue o source).rehearse o).moves).state.2 := by
    rw [callsOf, readTraced, read, Dialogue.conduct_eq o hL.traced]
    rfl
  have hstart : (Desk.initial (0, root) (state, ([] : List Heard))).ToldAt 0 := ⟨.start, rfl⟩
  have hends := dialogue_endsClass o source
  unfold Dialogue.EndsClass at hends
  rw [hread, hcalls]
  constructor
  · intro hr
    rw [hr] at hends
    obtain ⟨moves, heq, hmoves⟩ := hends
    have htold := (hstart.makeAll hL hmoves).finish (L := L)
    rw [heq, Desk.makeAll, List.foldl_append]
    change ScopesClosed
      (((Desk.initial (0, root) (state, [])).makeAll L.traced moves).make L.traced
        (.tell .finish)).state.2
    rw [htold.1]
    exact htold.2.scopesClosed
  · intro fault hr
    rw [hr] at hends
    obtain ⟨m, hmoves⟩ := hends
    have htold := hstart.makeAll hL hmoves
    refine htold.1.scopesUnclosed fun hnil => ?_
    have hlength := htold.2
    rw [List.map_eq_nil_iff.mp hnil] at hlength
    exact Nat.succ_ne_zero m hlength.symm

/-- A field without its closing line and a method that is declined: the reading skips over
the missing end, and all scopes are closed. -/
theorem scopes_closed_in_order_declining :
    ScopesClosed (callsOf { Options.default with errors := .ignore }
      (Recorder.listener ⟨[⟨.method, none⟩], none⟩) (Recorder.root .ofClass) .initial
      (".class La;\n.field x:I\n.annotation runtime Lb;\nv = 1\n.method m()V\nnop\n" ++
        ".end method\n").toList) := by
  refine (scopes_closed_in_order
    (@Recorder.listener_neverFails ⟨[⟨.method, none⟩], none⟩ rfl)
    { Options.default with errors := .ignore } (Recorder.root .ofClass) .initial
    (".class La;\n.field x:I\n.annotation runtime Lb;\nv = 1\n.method m()V\nnop\n" ++
      ".end method\n").toList).1 ?_
  decide +kernel

end Smali
