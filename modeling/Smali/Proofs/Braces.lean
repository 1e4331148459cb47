import Smali.Proofs.Escapes
import Smali.Proofs.Layout

/-!
# Level texts

The scan for braces and commas goes over a level text from outside quotes to outside quotes. It
comes back to its depth, without going below it, and sees no comma there. Over the lines of a text
the scan goes line by line, since it does not look at the blanks between them.
-/

namespace Smali.Literal

open Text

/-! ## The scan -/

/-- The step of a scan, unless it meets a comma or a closing brace at depth zero. -/
def scanStep (place : Quoting × Nat) (c : Char) : Option (Quoting × Nat) :=
  if place = (.outside, 0) ∧ (c = ',' ∨ c = '\x7d') then none
  else some (place.1.next c, (place.2 + place.1.weight c).toNat)

/-- The place of a scan behind a text. -/
def scanTo (place : Quoting × Nat) (t : Text) : Option (Quoting × Nat) := t.foldlM scanStep place

@[simp]
theorem scanTo_nil (place : Quoting × Nat) : scanTo place [] = some place := rfl

/-- One character and the text behind it. -/
theorem scanTo_cons (place : Quoting × Nat) (c : Char) (t : Text) :
    scanTo place (c :: t) = (scanStep place c).bind fun next => scanTo next t := rfl

/-- Two texts. -/
theorem scanTo_append (place : Quoting × Nat) (t u : Text) :
    scanTo place (t ++ u) = (scanTo place t).bind fun next => scanTo next u :=
  List.foldlM_append

/-- Only a closing brace outside quotes leads up. -/
theorem weight_nonneg {q : Quoting} {c : Char} (h : ¬(q = .outside ∧ c = '\x7d')) :
    0 ≤ q.weight c := by
  unfold Quoting.weight
  split
  · decide
  · exact absurd ⟨rfl, rfl⟩ h
  · decide

/-- A step leads up by one at most. -/
theorem neg_one_le_weight (q : Quoting) (c : Char) : -1 ≤ q.weight c := by
  unfold Quoting.weight
  split <;> decide

/-- A step keeps count of the depth, and it does not pass a comma at depth zero. -/
theorem of_scanStep {q q' : Quoting} {depth depth' : Nat} {c : Char}
    (h : scanStep (q, depth) c = some (q', depth')) :
    q' = q.next c ∧ (depth' : Int) = depth + q.weight c ∧
      ¬(c = ',' ∧ q = .outside ∧ (depth : Int) = 0) := by
  unfold scanStep at h
  split at h
  · exact absurd h (Option.some_ne_none _).symm
  · rename_i hgo
    obtain ⟨rfl, rfl⟩ := Prod.mk.inj (Option.some.inj h)
    refine ⟨rfl, Int.toNat_of_nonneg ?_, fun hcomma => hgo ⟨?_, .inl hcomma.1⟩⟩
    · by_cases hclose : q = .outside ∧ c = '\x7d'
      · have hdepth : depth ≠ 0 := fun h0 => hgo ⟨by rw [hclose.1, h0], .inr hclose.2⟩
        have := neg_one_le_weight q c
        dsimp only
        omega
      · have := weight_nonneg hclose
        dsimp only
        omega
    · rw [hcomma.2.1, Int.ofNat_eq_zero.mp hcomma.2.2]

/-- Further down a step meets no more than here. -/
theorem scanStep_add {q q' : Quoting} {depth depth' : Nat} {c : Char} (k : Nat)
    (h : scanStep (q, depth) c = some (q', depth')) :
    scanStep (q, depth + k) c = some (q', depth' + k) := by
  obtain ⟨rfl, hdepth, -⟩ := of_scanStep h
  unfold scanStep at h ⊢
  split at h
  · exact absurd h (Option.some_ne_none _).symm
  · rename_i hgo
    rw [if_neg]
    · dsimp only
      congr 2
      push_cast
      omega
    · rintro ⟨hplace, hc⟩
      obtain ⟨rfl, hzero⟩ := Prod.mk.inj hplace
      obtain ⟨rfl, rfl⟩ := Nat.add_eq_zero_iff.mp hzero
      exact hgo ⟨rfl, hc⟩

/-- Further down a scan goes the same way. -/
theorem scanTo_add {q q' : Quoting} {depth depth' : Nat} {t : Text} (k : Nat)
    (h : scanTo (q, depth) t = some (q', depth')) :
    scanTo (q, depth + k) t = some (q', depth' + k) := by
  induction t generalizing q depth with
  | nil =>
    obtain ⟨rfl, rfl⟩ := Prod.mk.inj (Option.some.inj h)
    rfl
  | cons c t ih =>
    rw [scanTo_cons] at h ⊢
    obtain ⟨⟨q₁, depth₁⟩, hstep, hrest⟩ := Option.bind_eq_some_iff.mp h
    rw [scanStep_add k hstep]
    exact ih hrest

/-- A scan keeps count of the depth. -/
theorem depthFrom_of_scanTo {q q' : Quoting} {depth depth' : Nat} {t : Text}
    (h : scanTo (q, depth) t = some (q', depth')) : (depth : Int) + depthFrom q t = depth' := by
  induction t generalizing q depth with
  | nil =>
    obtain ⟨rfl, rfl⟩ := Prod.mk.inj (Option.some.inj h)
    exact Int.add_zero _
  | cons c t ih =>
    rw [scanTo_cons] at h
    obtain ⟨⟨q₁, depth₁⟩, hstep, hrest⟩ := Option.bind_eq_some_iff.mp h
    obtain ⟨rfl, hdepth, -⟩ := of_scanStep hstep
    rw [depthFrom, ← Int.add_assoc, ← hdepth, ih hrest]

/-- There is at least one part. -/
theorem partsFrom_ne_nil (q : Quoting) (depth : Int) (t : Text) : partsFrom q depth t ≠ [] := by
  cases t with
  | nil => exact List.cons_ne_nil _ _
  | cons c t =>
    rw [partsFrom]
    split
    · exact List.cons_ne_nil _ _
    · split <;> exact List.cons_ne_nil _ _

/-! ## Level texts -/

/-- Whether a scan from outside quotes comes back to its place. -/
def IsLevel (t : Text) : Prop := scanTo (.outside, 0) t = some (.outside, 0)

instance (t : Text) : Decidable (IsLevel t) :=
  inferInstanceAs (Decidable (scanTo (.outside, 0) t = some (.outside, 0)))

/-- It comes back at any depth. -/
theorem IsLevel.scanTo_eq {t : Text} (h : IsLevel t) (depth : Nat) :
    scanTo (.outside, depth) t = some (.outside, depth) := by
  have hdepth := scanTo_add depth h
  rwa [Nat.zero_add] at hdepth

/-- The depth of a level text. -/
theorem IsLevel.braceDepth_eq {t : Text} (h : IsLevel t) : braceDepth t = 0 := by
  have hdepth := depthFrom_of_scanTo h
  simpa [braceDepth] using hdepth

/-- Two level texts. -/
theorem IsLevel.append {t u : Text} (ht : IsLevel t) (hu : IsLevel u) : IsLevel (t ++ u) := by
  unfold IsLevel at *
  rw [scanTo_append, ht]
  exact hu

/-- A character that means nothing to a scan outside quotes. -/
def isInert (c : Char) : Bool :=
  c != '"' && c != '\'' && c != '\x7b' && c != '\x7d' && c != ','

/-- Such characters make a level text. -/
theorem isLevel_of_isInert {t : Text} (h : ∀ c ∈ t, isInert c = true) : IsLevel t := by
  unfold IsLevel
  induction t with
  | nil => rfl
  | cons c t ih =>
    have hc := h c List.mem_cons_self
    simp only [isInert, Bool.and_eq_true, bne_iff_ne, ne_eq] at hc
    have hstep : scanStep (.outside, 0) c = some (.outside, 0) := by
      unfold scanStep Quoting.next Quoting.weight
      simp [hc]
    rw [scanTo_cons, hstep]
    exact ih fun c hc => h c (List.mem_cons_of_mem _ hc)

/-- Blanks make a level text. -/
theorem isLevel_of_isBlank {w : Text} (hw : IsBlank w) : IsLevel w := by
  refine isLevel_of_isInert fun c hc => ?_
  have hblank := hw c hc
  simp only [isInert, Bool.and_eq_true, bne_iff_ne, ne_eq]
  refine ⟨⟨⟨⟨?_, ?_⟩, ?_⟩, ?_⟩, ?_⟩ <;> (rintro rfl; exact absurd hblank (by decide))

/-! ## Quoted texts -/

/-- Between quotes a step leaves the depth alone. -/
theorem scanStep_of_ne_outside {q : Quoting} (hq : q ≠ .outside) (depth : Nat) (c : Char) :
    scanStep (q, depth) c = some (q.next c, depth) := by
  have hweight : q.weight c = 0 := by
    unfold Quoting.weight
    split <;> first | exact absurd rfl hq | rfl
  rw [scanStep, if_neg fun h => hq (congrArg Prod.fst h.1)]
  simp only [hweight, Int.add_zero, Int.toNat_natCast]

/-- A quoted text is level, whatever it holds. -/
theorem isLevel_quoted {quote : Char} (hquote : quote = '"' ∨ quote = '\'') (t : Text) :
    IsLevel (quote :: escape t ++ [quote]) := by
  have hopen : scanStep (.outside, 0) quote = some (.inside quote, 0) := by
    obtain rfl | rfl := hquote <;> rfl
  have hbody : ∀ {body : Text}, IsBody body →
      scanTo (.inside quote, 0) (body ++ [quote]) = some (.outside, 0) := by
    intro body h
    induction h with
    | nil => obtain rfl | rfl := hquote <;> rfl
    | escape hletter _ ih =>
      rw [List.cons_append, scanTo_cons, scanStep_of_ne_outside Quoting.noConfusion, Quoting.next,
        if_pos rfl]
      exact ih
    | plain hbackslash hdouble hsingle _ ih =>
      rw [List.cons_append, scanTo_cons, scanStep_of_ne_outside Quoting.noConfusion, Quoting.next,
        if_neg hbackslash, if_neg]
      · exact ih
      · rintro rfl
        obtain h | h := hquote
        · exact hdouble h
        · exact hsingle h
  unfold IsLevel
  rw [List.cons_append, scanTo_cons, hopen]
  exact hbody (isBody_escape t)

/-! ## Lines -/

/-- Lines that a scan goes over one by one, each of them from outside quotes to outside quotes.
The depth behind each line is the floor at least. -/
inductive Spans (floor : Nat) : Nat → List Text → Nat → Prop
  /-- No lines. -/
  | nil (depth : Nat) : Spans floor depth [] depth
  /-- One line and more. -/
  | cons {depth next last : Nat} {l : Text} {ls : List Text}
      (line : scanTo (.outside, depth) l = some (.outside, next)) (above : floor ≤ next)
      (rest : Spans floor next ls last) : Spans floor depth (l :: ls) last

namespace Spans

/-- Lines and more lines. -/
theorem append {floor depth next last : Nat} {ls more : List Text} (h : Spans floor depth ls next)
    (hmore : Spans floor next more last) : Spans floor depth (ls ++ more) last := by
  induction h with
  | nil => exact hmore
  | cons line above rest ih => exact .cons line above (ih hmore)

/-- Further down. -/
theorem add {floor depth last : Nat} {ls : List Text} (k : Nat) (h : Spans floor depth ls last) :
    Spans (floor + k) (depth + k) ls (last + k) := by
  induction h with
  | nil => exact .nil _
  | cons line above rest ih => exact .cons (scanTo_add k line) (by omega) ih

/-- With a lower floor. -/
theorem lower {floor floor' depth last : Nat} {ls : List Text} (hle : floor' ≤ floor)
    (h : Spans floor depth ls last) : Spans floor' depth ls last := by
  induction h with
  | nil => exact .nil _
  | cons line above rest ih => exact .cons line (hle.trans above) ih

/-- A level line. -/
theorem singleton {l : Text} (h : IsLevel l) : Spans 0 0 [l] 0 := .cons h (Nat.zero_le _) (.nil _)

/-- A level text in front of the first line. -/
theorem prefix_first {floor depth last : Nat} {p : Text} {ls : List Text} (hp : IsLevel p)
    (h : Spans floor depth ls last) : Spans floor depth (ls.modifyHead (p ++ ·)) last := by
  cases h with
  | nil => exact .nil _
  | cons line above rest =>
    refine .cons ?_ above rest
    rw [scanTo_append, hp.scanTo_eq depth]
    exact line

/-- A comma behind the last line, below depth zero. -/
theorem comma {floor depth last : Nat} {l : Text} {ls : List Text}
    (h : Spans floor depth (ls ++ [l]) (last + 1)) :
    Spans floor depth (ls ++ [l ++ [',']]) (last + 1) := by
  induction ls generalizing depth with
  | nil =>
    cases h with
    | cons line above rest =>
      cases rest
      refine .cons ?_ above (.nil _)
      rw [scanTo_append, line]
      rfl
  | cons first ls ih =>
    cases h with
    | cons line above rest => exact .cons line above (ih rest)

/-- A text is scanned like its code lines. -/
theorem scanTo_eq {floor depth last : Nat} {t : Text} (h : Spans floor depth (codeLines t) last) :
    scanTo (.outside, depth) t = some (.outside, last) := by
  generalize hls : codeLines t = ls at h
  induction h generalizing t with
  | nil depth => exact (isLevel_of_isBlank (codeLines_eq_nil.mp hls)).scanTo_eq depth
  | cons line above rest ih =>
    obtain ⟨before, more, hbefore, rfl, hmore⟩ := exists_of_codeLines_eq_cons hls
    rw [scanTo_append, (isLevel_of_isBlank hbefore).scanTo_eq, Option.bind_some, scanTo_append,
      line]
    exact ih hmore

end Spans

end Smali.Literal
