import Smali.Proofs.CodeParts
import Smali.Proofs.CodeTexts

/-!
# Texts that are scanned to their end

A text of which a scan takes everything, without finding a comment, can stand between others: what
is put behind a character that ends words is scanned by itself. Blanks may be put in or taken out
wherever some are left, and beside a mark even where none are, for no quoted literal is opened or
closed by that and no escape ends in a blank or a mark.
-/

namespace Smali

/-! ## One token after another -/

/-- Where the text stands does not matter. -/
theorem scans_iff (number column : Nat) {t : Text} :
    t.Scans ↔ ∃ s, scan number column t = .ok s ∧ s.remark = none := by
  constructor
  · intro h
    obtain ⟨code, hcode⟩ := h number column
    exact ⟨_, hcode, rfl⟩
  · rintro ⟨s, hs, hremark⟩ number' column'
    have hline := Scanned.isView_line.scan_trim number column t
    rw [← Scanned.isView_line.scan_trim number' column' t, hs] at hline
    cases hscan : scan number' column' t with
    | error fault => rw [hscan] at hline; cases hline
    | ok found =>
      rw [hscan] at hline
      have hnone : s.line.remark = none := Option.map_eq_none_iff.mpr hremark
      rw [Option.some.inj hline] at hnone
      have hall := all_of_scan hscan
      rw [Scanned.all, Option.map_eq_none_iff.mp hnone, Option.map_none, Option.getD_none,
        List.append_nil] at hall
      obtain ⟨code, text, remark⟩ := found
      obtain rfl : text = t := hall
      obtain rfl : remark = none := Option.map_eq_none_iff.mp hnone
      exact ⟨code, rfl⟩

/-- Blanks around a text do not matter. -/
theorem scans_trim {t : Text} : (Text.trim t).Scans ↔ t.Scans := by
  have hline := Scanned.isView_line.scan_trim 1 1 t
  have hview : ∀ {t : Text}, t.Scans ↔ ∃ l, (scan 1 1 t).toOption.map Scanned.line = some l ∧
      l.remark = none := by
    intro t
    rw [scans_iff 1 1]
    cases scan 1 1 t with
    | error fault => exact iff_of_false (fun ⟨_, h, _⟩ => nomatch h) (fun ⟨_, h, _⟩ => nomatch h)
    | ok s => simp [Except.toOption, Scanned.line]
  rw [hview, hview, hline]

/-- Something that is put in front of a scan brings no comment. -/
theorem exists_scanned_map {r : Except Fault Scanned} {f : Scanned → Scanned}
    (hf : ∀ s, (f s).remark = s.remark) :
    (∃ s, r.map f = .ok s ∧ s.remark = none) ↔ ∃ s, r = .ok s ∧ s.remark = none := by
  constructor
  · rintro ⟨_, h, hremark⟩
    obtain ⟨s, hs, rfl⟩ := exists_of_map_eq_ok h
    exact ⟨s, hs, (hf s).symm.trans hremark⟩
  · rintro ⟨s, rfl, hremark⟩
    exact ⟨f s, rfl, (hf s).trans hremark⟩

section Tokens

variable {c : Char} {t : Text}

/-- A blank in front. -/
theorem scans_blank (hc : Text.isBlank c = true) : Text.Scans (c :: t) ↔ t.Scans := by
  rw [scans_iff 1 1, scan_blank _ _ hc, exists_scanned_map (f := .skip c) fun _ => rfl, ← scans_iff]

/-- Blanks in front. -/
theorem scans_append_left {w : Text} (hw : Text.IsBlank w) : (w ++ t).Scans ↔ t.Scans := by
  rw [← scans_trim, Text.trim_append_left hw, scans_trim]

/-- A mark in front. -/
theorem scans_mark (hc : isMark c = true) : Text.Scans (c :: t) ↔ t.Scans := by
  rw [scans_iff 1 1, scan_mark _ _ hc, exists_scanned_map (f := .push _ _ _) fun _ => rfl,
    ← scans_iff]

/-- A number sign opens a comment. -/
theorem not_scans_comment : ¬Text.Scans ('#' :: t) := by
  rw [scans_iff 1 1, scan_comment]
  rintro ⟨s, hs, hremark⟩
  cases hs
  cases hremark

/-- A quoted literal in front. -/
theorem scans_quote (hc : c = '"' ∨ c = '\'') {body after : Text}
    (hbody : Literal.takeBody? c t = some (body, after)) :
    Text.Scans (c :: t) ↔ after.Scans := by
  rw [scans_iff 1 1, scan_quote _ _ hc hbody, exists_scanned_map (f := .push _ _ _) fun _ => rfl,
    ← scans_iff]

/-- A quote without its partner. -/
theorem not_scans_openQuote (hc : c = '"' ∨ c = '\'') (hbody : Literal.takeBody? c t = none) :
    ¬Text.Scans (c :: t) := by
  have hfault := scan_openQuote 1 1 hc hbody
  rw [scans_iff 1 1, hfault]
  rintro ⟨s, hs, -⟩
  cases hs

/-- A word in front. -/
theorem scans_word (hc : startsWord c = true) : Text.Scans (c :: t) ↔
    (classify (c :: t.takeWhile (!endsWord ·)) ⟨1, 1⟩).isOk = true ∧
      Text.Scans (t.dropWhile (!endsWord ·)) := by
  rw [scans_iff 1 1, scan_word _ _ hc]
  cases classify (c :: t.takeWhile (!endsWord ·)) ⟨1, 1⟩ with
  | error fault =>
    refine iff_of_false ?_ fun h => Bool.false_ne_true h.1
    rintro ⟨s, hs, -⟩
    cases hs
  | ok kind =>
    dsimp only
    rw [exists_scanned_map (f := .push _ _ _) fun _ => rfl, ← scans_iff]
    exact (and_iff_right rfl).symm

end Tokens

/-- The characters that a token or a comment may start with. -/
theorem starts_cases (c : Char) : Text.isBlank c = true ∨ c = '#' ∨ (c = '"' ∨ c = '\'') ∨
    isMark c = true ∨ startsWord c = true := by
  by_cases hblank : Text.isBlank c = true
  · exact .inl hblank
  · by_cases hsign : c = '#'
    · exact .inr (.inl hsign)
    · by_cases hquote : c = '"' ∨ c = '\''
      · exact .inr (.inr (.inl hquote))
      · by_cases hmark : isMark c = true
        · exact .inr (.inr (.inr (.inl hmark)))
        · rw [not_or] at hquote
          exact .inr (.inr (.inr (.inr (by simp [startsWord, hblank, hsign, hquote, hmark]))))

/-- A character that starts a word ends none. -/
theorem endsWord_of_startsWord {c : Char} (hc : startsWord c = true) : endsWord c = false := by
  simp only [startsWord, isMark, Bool.and_eq_true, Bool.not_eq_true', bne_iff_ne, ne_eq,
    Bool.or_eq_false_iff, beq_eq_false_iff_ne] at hc
  simp [endsWord, hc]

/-! ## Texts behind one another -/

/-- The word at the start of a text, and the rest. -/
theorem length_dropWhile_lt (c : Char) (t : Text) :
    (t.dropWhile (!endsWord ·)).length < (c :: t).length :=
  Nat.lt_succ_of_le (List.dropWhile_suffix _).length_le

/-- Behind a text that is scanned to its end, what starts with no part of a word is scanned by
itself. -/
theorem Text.Scans.append_iff {t u : Text} (ht : t.Scans)
    (hu : ∀ c ∈ u.head?, endsWord c = true) : (t ++ u).Scans ↔ u.Scans := by
  induction hn : t.length using Nat.strong_induction_on generalizing t with
  | _ n ih =>
    cases t with
    | nil => rfl
    | cons c t =>
      have hnext : ∀ {t' : Text}, t'.Scans → t'.length < (c :: t).length →
          ((t' ++ u).Scans ↔ u.Scans) := fun h hlt => ih _ (hn ▸ hlt) h rfl
      rw [List.cons_append]
      rcases starts_cases c with hc | rfl | hc | hc | hc
      · rw [scans_blank hc] at ht ⊢
        exact hnext ht (Nat.lt_succ_self _)
      · exact absurd ht not_scans_comment
      · cases hbody : Literal.takeBody? c t with
        | none => exact absurd ht (not_scans_openQuote hc hbody)
        | some found =>
          obtain ⟨body, after⟩ := found
          rw [scans_quote hc hbody] at ht
          rw [scans_quote hc (takeBody?_append hbody u)]
          exact hnext ht (Nat.lt_succ_of_lt (Literal.length_takeBody? hbody))
      · rw [scans_mark hc] at ht ⊢
        exact hnext ht (Nat.lt_succ_self _)
      · obtain ⟨htake, hdrop⟩ := takeWhile_append_end hu t
        rw [scans_word hc] at ht ⊢
        rw [htake, hdrop, and_iff_right ht.1]
        exact hnext ht.2 (length_dropWhile_lt c t)

/-- Behind a space a text is scanned by itself. -/
theorem Text.Scans.space_iff {t u : Text} (ht : t.Scans) : Scans (t ++ ' ' :: u) ↔ u.Scans := by
  rw [ht.append_iff (by rintro _ ⟨⟩; rfl), scans_blank rfl]

/-- Behind a keyword the arguments are scanned by themselves. -/
theorem scans_keyword {word arguments : Text} (hword : IsKeyword word) :
    Text.Scans (word ++ ' ' :: arguments) ↔ arguments.Scans :=
  (IsCode.of_isWord (.of_isKeyword hword)).scans.space_iff

/-- A word that starts like no number is scanned with a word that follows it at once. -/
theorem Text.Scans.glued {c d : Char} {p t : Text} (ht : Text.Scans (d :: t))
    (hd : startsWord d = true) (hc : startsWord c = true)
    (hword : ∀ e ∈ c :: p, endsWord e = false)
    (hnumber : c ≠ '-' ∧ c ≠ '+' ∧ Text.isDigit c = false) : Text.Scans (c :: p ++ d :: t) := by
  have hfirst := endsWord_of_startsWord hd
  have hall : ∀ e ∈ p, (!endsWord e) = true := fun e he => by
    simp [hword e (List.mem_cons_of_mem c he)]
  have htake : (p ++ d :: t).takeWhile (!endsWord ·) = p ++ d :: t.takeWhile (!endsWord ·) := by
    rw [List.takeWhile_append_of_pos hall, List.takeWhile_cons_of_pos (by simp [hfirst])]
  have hdrop : (p ++ d :: t).dropWhile (!endsWord ·) = t.dropWhile (!endsWord ·) := by
    rw [List.dropWhile_append_of_pos hall, List.dropWhile_cons_of_pos (by simp [hfirst])]
  have hjoined : IsWord (c :: (p ++ d :: t.takeWhile (!endsWord ·))) := by
    refine .of_first hc (fun e he => ?_) hnumber.1 hnumber.2.1 hnumber.2.2
    rcases List.mem_append.mp (List.cons_append ▸ he : e ∈ (c :: p) ++ _) with he | he
    · exact hword e he
    · rcases List.mem_cons.mp he with rfl | he
      · exact hfirst
      · simpa using List.mem_takeWhile_imp he
  obtain ⟨kind, hkind, -⟩ := hjoined.classify_eq ⟨1, 1⟩
  rw [scans_word hd] at ht
  rw [List.cons_append, scans_word hc, htake, hdrop, hkind]
  exact ⟨rfl, ht.2⟩

/-! ## Blanks inside of texts -/

/-- No blank has a meaning behind a backslash. -/
theorem isEscapeLetter_of_isBlank {c : Char} (h : Text.isBlank c = true) :
    Literal.isEscapeLetter c = false := by
  rw [Bool.eq_false_iff]
  intro hc
  unfold Literal.isEscapeLetter Literal.simpleEscape? at hc
  split at hc <;> simp_all [Text.isBlank]

/-- No mark has a meaning behind a backslash. -/
theorem isEscapeLetter_of_isMark {c : Char} (h : isMark c = true) :
    Literal.isEscapeLetter c = false := by
  simp only [isMark, Bool.or_eq_true, beq_iff_eq] at h
  obtain ((rfl | rfl) | rfl) | rfl := h <;> rfl

/-- A mark ends words. -/
theorem endsWord_of_isMark {c : Char} (h : isMark c = true) : endsWord c = true := by
  simp only [isMark, Bool.or_eq_true, beq_iff_eq] at h
  obtain ((rfl | rfl) | rfl) | rfl := h <;> rfl

/-- Two texts that stay apart with some blanks between them: there is a blank, or the one ends with
a mark, or the other starts with one. -/
def Text.Apart (p w q : Text) : Prop :=
  w ≠ [] ∨ p = [] ∨ (∃ c ∈ p.getLast?, isMark c = true) ∨ ∃ c ∈ q.head?, isMark c = true

/-- What is left of the first text stays apart too. -/
theorem Text.Apart.suffix {p p' w q : Text} (h : Apart p w q) (hp : p' <:+ p) : Apart p' w q := by
  obtain ⟨before, rfl⟩ := hp
  by_cases hp' : p' = []
  · exact .inr (.inl hp')
  · rcases h with h | h | h | h
    · exact .inl h
    · exact absurd (List.append_eq_nil_iff.mp h).2 hp'
    · rw [List.getLast?_append_of_ne_nil _ hp'] at h
      exact .inr (.inr (.inl h))
    · exact .inr (.inr (.inr h))

section Respaced

variable {w w' q : Text} (hw : Text.IsBlank w) (hw' : Text.IsBlank w')

include hw

/-- Blanks in front belong to the body of a quoted literal. -/
theorem takeBody?_append_left {quote : Char} (hquote : Text.isBlank quote = false) (t : Text) :
    Literal.takeBody? quote (w ++ t) =
      (Literal.takeBody? quote t).map fun (body, after) => (w ++ body, after) := by
  induction w with
  | nil => exact Option.map_id'.symm
  | cons c w ih =>
    obtain ⟨hc, hw⟩ := Text.isBlank_cons.mp hw
    have hslash : c ≠ '\\' := by
      rintro rfl
      exact absurd hc (by decide)
    have hne : c ≠ quote := by
      rintro rfl
      exact Bool.false_ne_true (hquote.symm.trans hc)
    rw [List.cons_append, takeBody?_cons hslash, if_neg hne, ih hw, Option.map_map]
    rfl

/-- No escape begins where two texts are apart. -/
theorem not_isEscapeLetter_of_apart {p : Text} (hp : p.getLast? = some '\\')
    (h : Text.Apart p w q) : ∀ c ∈ (w ++ q).head?, Literal.isEscapeLetter c = false := by
  intro c hc
  cases w with
  | cons d w =>
    obtain rfl := Option.some.inj hc
    exact isEscapeLetter_of_isBlank (Text.isBlank_cons.mp hw).1
  | nil =>
    rcases h with h | rfl | ⟨d, hd, hmark⟩ | ⟨d, hd, hmark⟩
    · exact absurd rfl h
    · cases hp
    · obtain rfl := Option.some.inj (hp.symm.trans hd)
      exact absurd hmark (by decide)
    · obtain rfl := Option.some.inj (hc.symm.trans hd)
      exact isEscapeLetter_of_isMark hmark

/-- A word does not go on where two texts are apart. -/
theorem takeWhile_of_apart {c : Char} {p : Text} (hc : startsWord c = true)
    (h : Text.Apart (c :: p) w q) :
    (p ++ (w ++ q)).takeWhile (!endsWord ·) = p.takeWhile (!endsWord ·) ∧
      (p ++ (w ++ q)).dropWhile (!endsWord ·) = p.dropWhile (!endsWord ·) ++ (w ++ q) := by
  by_cases hends : ∃ d ∈ p, endsWord d = true
  · obtain ⟨d, hd, hdends⟩ := hends
    obtain ⟨before, after, rfl⟩ := List.append_of_mem hd
    have hsplit := fun u : Text =>
      takeWhile_append_end (u := d :: (after ++ u)) (by rintro _ ⟨⟩; exact hdends) before
    have hnone := hsplit []
    rw [List.append_nil] at hnone
    rw [List.append_assoc, List.cons_append, (hsplit _).1, (hsplit _).2, hnone.1, hnone.2,
      List.append_assoc, List.cons_append]
    exact ⟨rfl, rfl⟩
  · refine takeWhile_append_end (fun d hd => ?_) p
    cases w with
    | cons e w =>
      obtain rfl := Option.some.inj hd
      exact endsWord_of_isBlank hw e rfl
    | nil =>
      rcases h with h | h | ⟨e, he, hmark⟩ | ⟨e, he, hmark⟩
      · exact absurd rfl h
      · cases h
      · have hword : endsWord e = false := by
          rcases List.mem_cons.mp (List.mem_of_getLast? he) with rfl | he
          · exact endsWord_of_startsWord hc
          · exact Bool.eq_false_iff.mpr fun hends' => hends ⟨e, he, hends'⟩
        exact absurd (hword.symm.trans (endsWord_of_isMark hmark)) Bool.false_ne_true
      · obtain rfl := Option.some.inj (hd.symm.trans he)
        exact endsWord_of_isMark hmark

include hw'

/-- A quoted literal that starts in the first of two texts ends there, or it ends at the same place
behind other blanks between them. -/
theorem takeBody?_respaced {quote : Char} (hquote : Text.isBlank quote = false)
    {p body after : Text} (hapart : Text.Apart p w q)
    (h : Literal.takeBody? quote (p ++ (w ++ q)) = some (body, after)) :
    (∃ rest, Literal.takeBody? quote p = some (body, rest) ∧ after = rest ++ (w ++ q)) ∨
      ∃ body', Literal.takeBody? quote (p ++ (w' ++ q)) = some (body', after) := by
  fun_induction Literal.takeBody? quote p generalizing body with
  | case1 =>
    rw [List.nil_append, takeBody?_append_left hw hquote] at h
    obtain ⟨⟨first, second⟩, hfound, heq⟩ := Option.map_eq_some_iff.mp h
    obtain ⟨-, rfl⟩ := Prod.mk.inj heq
    refine .inr ⟨w' ++ first, ?_⟩
    rw [List.nil_append, takeBody?_append_left hw' hquote, hfound]
    rfl
  | case2 =>
    have hletter := not_isEscapeLetter_of_apart hw rfl hapart
    cases hrest : w ++ q with
    | nil => rw [hrest] at h; cases h
    | cons c rest =>
      rw [hrest] at h hletter
      rw [List.cons_append, List.nil_append, Literal.takeBody?, hletter c rfl] at h
      cases h
  | case3 letter rest hletter ih =>
    rw [List.cons_append, List.cons_append, Literal.takeBody?, if_pos hletter] at h ⊢
    obtain ⟨⟨first, second⟩, hfound, heq⟩ := Option.map_eq_some_iff.mp h
    obtain ⟨rfl, rfl⟩ := Prod.mk.inj heq
    rcases ih (hapart.suffix ⟨['\\', letter], rfl⟩) hfound with ⟨more, hmore, rfl⟩ | ⟨body', hbody'⟩
    · exact .inl ⟨more, by rw [hmore]; rfl, rfl⟩
    · exact .inr ⟨'\\' :: letter :: body', by rw [hbody']; rfl⟩
  | case4 letter rest hletter =>
    rw [List.cons_append, List.cons_append, Literal.takeBody?, if_neg hletter] at h
    cases h
  | case5 rest hend hescape =>
    have hslash := Literal.ne_backslash hend hescape
    rw [List.cons_append, takeBody?_cons hslash, if_pos rfl] at h
    obtain ⟨rfl, rfl⟩ := Prod.mk.inj (Option.some.inj h)
    exact .inl ⟨rest, rfl, rfl⟩
  | case6 c rest hend hescape hc ih =>
    have hslash := Literal.ne_backslash hend hescape
    rw [List.cons_append, takeBody?_cons hslash, if_neg hc] at h ⊢
    obtain ⟨⟨first, second⟩, hfound, heq⟩ := Option.map_eq_some_iff.mp h
    obtain ⟨rfl, rfl⟩ := Prod.mk.inj heq
    rcases ih (hapart.suffix ⟨[c], rfl⟩) hfound with ⟨more, hmore, rfl⟩ | ⟨body', hbody'⟩
    · exact .inl ⟨more, by rw [hmore]; rfl, rfl⟩
    · exact .inr ⟨c :: body', by rw [hbody']; rfl⟩

/-- The blanks between two texts may be others, as long as the texts stay apart. -/
theorem Text.Scans.respaced {p : Text} (h : Text.Scans (p ++ (w ++ q)))
    (hapart : Text.Apart p w q) (hapart' : Text.Apart p w' q) : Text.Scans (p ++ (w' ++ q)) := by
  -- by induction on the length, since a token takes more than one character of the first text
  induction hn : p.length using Nat.strong_induction_on generalizing p with
  | _ n ih =>
    cases p with
    | nil =>
      rw [List.nil_append, scans_append_left hw] at h
      rwa [List.nil_append, scans_append_left hw']
    | cons c p =>
      have hnext : ∀ {p' : Text}, p' <:+ p → Text.Scans (p' ++ (w ++ q)) →
          Text.Scans (p' ++ (w' ++ q)) := fun hp h =>
        have hp' := hp.trans (List.suffix_cons c p)
        ih _ (hn ▸ Nat.lt_succ_of_le hp.length_le) h (hapart.suffix hp') (hapart'.suffix hp') rfl
      rw [List.cons_append] at h ⊢
      rcases starts_cases c with hc | rfl | hc | hc | hc
      · rw [scans_blank hc] at h ⊢
        exact hnext List.suffix_rfl h
      · exact absurd h not_scans_comment
      · have hquote : Text.isBlank c = false := by rcases hc with rfl | rfl <;> rfl
        cases hbody : Literal.takeBody? c (p ++ (w ++ q)) with
        | none => exact absurd h (not_scans_openQuote hc hbody)
        | some found =>
          obtain ⟨body, after⟩ := found
          rw [scans_quote hc hbody] at h
          -- the literal ends in front of the blanks, or what is left behind it is the same
          rcases takeBody?_respaced hw hw' hquote (hapart.suffix (List.suffix_cons c p)) hbody with
            ⟨rest, hrest, rfl⟩ | ⟨body', hbody'⟩
          · rw [scans_quote hc (takeBody?_append hrest (w' ++ q))]
            exact hnext ⟨body ++ [c], by simp [Literal.eq_of_takeBody? hrest]⟩ h
          · exact (scans_quote hc hbody').mpr h
      · rw [scans_mark hc] at h ⊢
        exact hnext List.suffix_rfl h
      · obtain ⟨htake, hdrop⟩ := takeWhile_of_apart hw hc hapart
        obtain ⟨htake', hdrop'⟩ := takeWhile_of_apart hw' hc hapart'
        rw [scans_word hc, htake, hdrop] at h
        rw [scans_word hc, htake', hdrop']
        exact ⟨h.1, hnext (List.dropWhile_suffix _) h.2⟩

end Respaced

/-! ## Lines -/

/-- What a scan finds in front of the comment is scanned to its end. -/
theorem scans_of_scan {number column : Nat} {t : Text} {s : Scanned}
    (h : scan number column t = .ok s) : s.text.Scans :=
  (scans_iff number column).mpr ⟨_, scan_text h, rfl⟩

/-- A directive is a keyword. -/
theorem isDirectiveWord_of_classify {word : Text} {position : Position}
    (h : classify word position = .ok .directive) : isDirectiveWord word = true := by
  unfold classify at h
  split at h
  · cases h
  · split at h
    · assumption
    · split at h
      · cases h
      · split at h
        · cases h
        · split at h <;> cases h

/-- The first token of what a scan finds, and what it finds behind that. -/
theorem exists_of_scan_cons {number column : Nat} {t : Text} {s : Scanned}
    (h : scan number column t = .ok s) {token : Token} {more : List Token}
    (hcode : s.code = token :: more) :
    ∃ w column' rest inner, Text.IsBlank w ∧ scan number column' rest = .ok inner ∧
      inner.code = more ∧ s.text = w ++ (token.text ++ inner.text) ∧
      (token.kind = .directive → IsKeyword token.text) := by
  fun_induction scan number column t generalizing s with
  | case1 => cases h; cases hcode
  | case2 column c rest hc ih =>
    obtain ⟨inner, hinner, rfl⟩ := exists_of_map_eq_ok h
    obtain ⟨w, column', rest, found, hw, hfound, hmore, htext, hkeyword⟩ := ih hinner hcode
    exact ⟨c :: w, column', rest, found, Text.isBlank_cons.mpr ⟨hc, hw⟩, hfound, hmore,
      congrArg (c :: ·) htext, hkeyword⟩
  | case3 => cases h; cases hcode
  | case4 column c rest position hblank hsign hc body after hbody =>
    obtain ⟨inner, hinner, rfl⟩ := exists_of_map_eq_ok h
    obtain ⟨rfl, rfl⟩ := List.cons.inj hcode
    refine ⟨[], _, _, inner, Text.isBlank_nil, hinner, rfl, rfl, fun hkind => ?_⟩
    rename_i kind _
    by_cases hdouble : c = '"' <;> simp [kind, hdouble] at hkind
  | case5 => cases h
  | case6 =>
    obtain ⟨inner, hinner, rfl⟩ := exists_of_map_eq_ok h
    obtain ⟨rfl, rfl⟩ := List.cons.inj hcode
    exact ⟨[], _, _, inner, Text.isBlank_nil, hinner, rfl, rfl, TokenKind.noConfusion⟩
  | case7 column c rest position hblank hsign hc hmark word _ kind hkind =>
    have hword : startsWord c = true := by
      simp_all [startsWord]
    obtain ⟨inner, hinner, rfl⟩ := exists_of_map_eq_ok h
    obtain ⟨rfl, rfl⟩ := List.cons.inj hcode
    refine ⟨[], _, _, inner, Text.isBlank_nil, hinner, rfl, rfl, fun hdirective => ?_⟩
    obtain rfl : kind = .directive := hdirective
    refine ⟨isDirectiveWord_of_classify hkind, fun d hd => ?_⟩
    rcases List.mem_cons.mp hd with rfl | hd
    · exact endsWord_of_startsWord hword
    · simpa using List.mem_takeWhile_imp hd
  | case8 => cases h

section Lines

variable {number : Nat} {t : Text} {l : Line} (hl : Line.ofText number t = .ok l)

include hl

/-- What is scanned behind the directive of a line are its arguments. -/
theorem exists_behind_directive {d : Directive} (hd : l.directive? = some d) :
    ∃ column rest inner, scan number column rest = .ok inner ∧ inner.code = l.code.tail ∧
      l.arguments = Text.trim inner.text := by
  obtain ⟨s, hs, rfl⟩ := exists_of_map_eq_ok hl
  dsimp only
  cases hcode : s.code with
  | nil =>
    rw [Line.directive?, hcode] at hd
    cases hd
  | cons token more =>
    obtain ⟨kind, word, position⟩ := token
    have hkind : kind = .directive := by
      rw [Line.directive?, hcode] at hd
      dsimp only at hd
      split at hd
      · rename_i heq
        exact congrArg Token.kind (List.cons.inj heq).1
      · cases hd
    obtain ⟨w, column, rest, inner, hw, hinner, hmore, htext, hkeyword⟩ :=
      exists_of_scan_cons hs hcode
    refine ⟨column, rest, inner, hinner, hmore, ?_⟩
    subst hkind
    rw [← arguments_push inner (hkeyword rfl) position, htext, Line.arguments, Line.arguments]
    dsimp only
    rw [Text.trim_append_left hw]
    rfl

/-- The arguments of a line are scanned to their end. -/
theorem scans_arguments : l.arguments.Scans := by
  cases hd : l.directive? with
  | some d =>
    obtain ⟨column, rest, inner, hinner, -, harguments⟩ := exists_behind_directive hl hd
    rw [harguments, scans_trim]
    exact scans_of_scan hinner
  | none =>
    obtain ⟨s, hs, rfl⟩ := exists_of_map_eq_ok hl
    have htext : (Text.trim s.text).Scans := scans_trim.mpr (scans_of_scan hs)
    unfold Line.directive? at hd
    unfold Line.arguments
    dsimp only at hd ⊢
    split at hd
    · cases hd
    · exact htext

/-- What stands behind the name on a closing line is scanned to its end. -/
theorem scans_behind_end {name : Text} (hend : l.endOf? = some name)
    (hname : Text.IsTrimmed name) (hne : name ≠ []) :
    ∃ rest, l.arguments = name ++ rest ∧ rest.Scans := by
  unfold Line.endOf? at hend
  split at hend
  · rename_i first second more hd hcode
    obtain rfl := Option.some.inj hend
    obtain ⟨column, rest, inner, hinner, hmore, harguments⟩ := exists_behind_directive hl hd
    rw [hcode, List.tail_cons] at hmore
    obtain ⟨w, column', rest', found, hw, hfound, -, htext, -⟩ := exists_of_scan_cons hinner hmore
    obtain ⟨c, name, hname'⟩ := List.exists_cons_of_ne_nil hne
    have hleft : Text.trimLeft (second.text ++ found.text) = second.text ++ found.text := by
      rw [hname'] at hname ⊢
      exact List.dropWhile_cons_of_neg (by simp [hname.1 c rfl])
    refine ⟨Text.trimRight found.text, ?_, ?_⟩
    · rw [harguments, htext, Text.trim_append_left hw, Text.trim, hleft,
        Text.trimRight_append_of_last hname.2]
    · rw [← scans_trim, Text.trim_trimRight, scans_trim]
      exact scans_of_scan hfound
  · cases hend

end Lines

end Smali
