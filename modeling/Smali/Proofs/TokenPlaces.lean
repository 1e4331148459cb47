import Smali.Proofs.CodeParts

/-!
# Places of tokens

The tokens of a line stand in it one behind the other, each where its place says, and what they
leave of it is blank. A comment is the last of them. The text of a line reaches from its first
token of code to the end of the last one, so it starts with its directive, and a number sign in it
stands between quotes. A line that is refused is refused at one of its own characters.
-/

namespace Smali

/-! ## Tokens that fill a text -/

/-- Tokens that stand one behind the other in a text that starts at a column, each with characters
of its own and at its place, with nothing but blanks around them. -/
inductive Fills (number : Nat) : Nat → List Token → Text → Prop where
  /-- Blanks alone. -/
  | blank {column : Nat} {w : Text} (hw : Text.IsBlank w) : Fills number column [] w
  /-- A token behind blanks. -/
  | token {column : Nat} {w : Text} {token : Token} {tokens : List Token} {rest : Text}
      (hw : Text.IsBlank w) (hne : token.text ≠ [])
      (hplace : token.position = ⟨number, column + w.length⟩)
      (hrest : Fills number (column + w.length + token.text.length) tokens rest) :
      Fills number column (token :: tokens) (w ++ (token.text ++ rest))

namespace Token

/-- Whether a token is a comment. -/
def isRemark (t : Token) : Bool := t.kind = .comment || t.kind = .eolComment

/-- Whether a token stands between quotes. -/
def isQuoted (t : Token) : Bool := t.kind = .stringLiteral || t.kind = .charLiteral

/-- Whether a column is one of those of a token. -/
def Covers (t : Token) (column : Nat) : Prop :=
  t.position.column ≤ column ∧ column < t.position.column + t.text.length

/-- What a scan finds in front of a comment: no blank is at its ends, and a number sign in it
stands between quotes. -/
structure IsCode (t : Token) : Prop where
  /-- It is no comment. -/
  isRemark : t.isRemark = false
  /-- No blank is at its ends. -/
  isTrimmed : Text.IsTrimmed t.text
  /-- A number sign stands between quotes. -/
  isQuoted : '#' ∈ t.text → t.isQuoted = true

end Token

namespace Fills

variable {number column : Nat} {tokens : List Token} {t : Text}

/-- A blank in front. -/
theorem skip {c : Char} (hc : Text.isBlank c = true) (h : Fills number (column + 1) tokens t) :
    Fills number column tokens (c :: t) := by
  cases h with
  | blank hw => exact .blank (Text.isBlank_cons.mpr ⟨hc, hw⟩)
  | @token _ w token tokens rest hw hne hplace hrest =>
    have hlength : column + 1 + w.length = column + (c :: w).length := by
      rw [List.length_cons]
      omega
    rw [hlength] at hplace hrest
    exact .token (w := c :: w) (Text.isBlank_cons.mpr ⟨hc, hw⟩) hne hplace hrest

/-- A token in front. -/
theorem push (kind : TokenKind) {text : Text} (hne : text ≠ [])
    (h : Fills number (column + text.length) tokens t) :
    Fills number column (⟨kind, text, ⟨number, column⟩⟩ :: tokens) (text ++ t) :=
  .token (w := []) Text.isBlank_nil hne rfl h

/-- A token behind. -/
theorem concat (h : Fills number column tokens t) (kind : TokenKind) {text : Text}
    (hne : text ≠ []) :
    Fills number column (tokens ++ [⟨kind, text, ⟨number, column + t.length⟩⟩]) (t ++ text) := by
  induction h with
  | @blank column w hw =>
    have hlast : Fills number (column + w.length + text.length) [] [] := .blank Text.isBlank_nil
    have hone : Fills number column [⟨kind, text, ⟨number, column + w.length⟩⟩]
        (w ++ (text ++ [])) := .token hw hne rfl hlast
    rwa [List.append_nil] at hone
  | @token column w token tokens rest hw hne' hplace _ ih =>
    have hlength : column + w.length + token.text.length + rest.length =
        column + (w ++ (token.text ++ rest)).length := by
      rw [List.length_append, List.length_append]
      omega
    rw [hlength] at ih
    rw [List.append_assoc, List.append_assoc]
    exact .token hw hne' hplace ih

/-- Each token stands in the text, at its place. -/
theorem exists_of_mem (h : Fills number column tokens t) {token : Token} (hmem : token ∈ tokens) :
    token.text ≠ [] ∧ ∃ before after, t = before ++ (token.text ++ after) ∧
      token.position = ⟨number, column + before.length⟩ := by
  induction h with
  | blank => exact absurd hmem List.not_mem_nil
  | @token column w first tokens rest hw hne hplace _ ih =>
    obtain rfl | hmem := List.mem_cons.mp hmem
    · exact ⟨hne, w, rest, rfl, hplace⟩
    · obtain ⟨htoken, before, after, rfl, hposition⟩ := ih hmem
      refine ⟨htoken, w ++ (first.text ++ before), after, by simp only [List.append_assoc], ?_⟩
      rw [hposition, List.length_append, List.length_append]
      simp only [Nat.add_assoc]

/-- No token starts before the one in front of it ends. -/
theorem pairwise (h : Fills number column tokens t) :
    tokens.Pairwise fun a b => a.position.column + a.text.length ≤ b.position.column := by
  induction h with
  | blank => exact List.Pairwise.nil
  | token _ _ hplace hrest ih =>
    refine List.Pairwise.cons (fun later hlater => ?_) ih
    obtain ⟨-, before, -, -, hposition⟩ := hrest.exists_of_mem hlater
    rw [hplace, hposition]
    exact Nat.le_add_right _ _

/-- A character that is not blank belongs to a token. -/
theorem exists_covers (h : Fills number column tokens t) {before after : Text} {x : Char}
    (hx : Text.isBlank x = false) (ht : t = before ++ x :: after) :
    ∃ token ∈ tokens, x ∈ token.text ∧ token.Covers (column + before.length) := by
  induction h generalizing before with
  | @blank column w hw =>
    have hmem : x ∈ w := ht ▸ List.mem_append_right _ List.mem_cons_self
    exact absurd (hw x hmem) (by rw [hx]; exact Bool.false_ne_true)
  | @token column w token tokens rest hw hne hplace _ ih =>
    obtain ⟨u, rfl, hinner⟩ | ⟨u, rfl, hinner⟩ := List.append_eq_append_iff.mp ht
    · -- the character stands behind the blanks, so in this token or in what follows
      obtain ⟨v, rfl, hlater⟩ | ⟨v, htext, hlater⟩ := List.append_eq_append_iff.mp hinner
      · obtain ⟨later, hmem, hxlater, hcovers⟩ := ih hlater
        refine ⟨later, List.mem_cons_of_mem _ hmem, hxlater, ?_⟩
        rwa [List.length_append, List.length_append, ← Nat.add_assoc, ← Nat.add_assoc]
      · cases v with
        | nil =>
          rw [List.append_nil] at htext
          have hbehind : rest = [] ++ x :: after := hlater.symm
          obtain ⟨later, hmem, hxlater, hcovers⟩ := ih hbehind
          refine ⟨later, List.mem_cons_of_mem _ hmem, hxlater, ?_⟩
          rwa [List.length_append, ← Nat.add_assoc, ← htext]
        | cons y v =>
          obtain ⟨rfl, -⟩ := List.cons.inj hlater
          refine ⟨token, List.mem_cons_self, ?_, ?_⟩
          · rw [htext]
            exact List.mem_append_right _ List.mem_cons_self
          · unfold Token.Covers
            rw [hplace, htext]
            simp only [List.length_append, List.length_cons]
            omega
    · cases u with
      | nil =>
        -- the character is the first one of the token
        obtain ⟨first, more, htext⟩ := List.exists_cons_of_ne_nil hne
        rw [htext] at hinner
        obtain ⟨rfl, -⟩ := List.cons.inj hinner
        refine ⟨token, List.mem_cons_self, htext ▸ List.mem_cons_self, ?_⟩
        unfold Token.Covers
        rw [hplace, htext]
        simp only [List.append_nil, List.length_cons]
        omega
      | cons y u =>
        obtain ⟨rfl, -⟩ := List.cons.inj hinner
        have hblank := hw x (List.mem_append_right _ List.mem_cons_self)
        exact absurd hblank (by rw [hx]; exact Bool.false_ne_true)

/-- The part of the text from the first token to the last one, with the blanks around it. -/
theorem exists_span (h : Fills number column tokens t) (hne : tokens ≠ []) :
    ∃ before inner after, Text.IsBlank before ∧ Text.IsBlank after ∧
      t = before ++ (inner ++ after) ∧ (tokens.head hne).text <+: inner ∧
      (tokens.getLast hne).text <:+ inner ∧
      (tokens.head hne).position = ⟨number, column + before.length⟩ ∧
      (tokens.getLast hne).position.column + (tokens.getLast hne).text.length =
        column + before.length + inner.length := by
  induction h with
  | blank => exact absurd rfl hne
  | @token column w token tokens rest hw _ hplace hrest ih =>
    cases tokens with
    | nil =>
      cases hrest with
      | blank hrest =>
        refine ⟨w, token.text, rest, hw, hrest, rfl, List.prefix_rfl, List.suffix_rfl, hplace, ?_⟩
        change token.position.column + token.text.length = _
        rw [hplace]
    | cons second tokens =>
      obtain ⟨before, inner, after, -, hafter, rfl, -, hlast, -, hend⟩ :=
        ih (List.cons_ne_nil _ _)
      refine ⟨w, token.text ++ (before ++ inner), after, hw, hafter, by
        simp only [List.append_assoc], List.prefix_append _ _, ?_, hplace, ?_⟩
      · rw [List.getLast_cons_cons]
        exact hlast.trans ((List.suffix_append _ _).trans (List.suffix_append _ _))
      · rw [List.getLast_cons_cons, hend, List.length_append, List.length_append]
        omega

end Fills

/-! ## Scanning -/

/-- What a scan from a column on finds: the tokens fill the characters before the comment, and the
comment stands behind these. -/
structure Scanned.IsPlaced (number column : Nat) (s : Scanned) : Prop where
  /-- The tokens fill the characters before the comment. -/
  fills : Fills number column s.code s.text
  /-- They are code. -/
  code : ∀ token ∈ s.code, token.IsCode
  /-- The comment starts with its sign, behind these characters. -/
  remark : ∀ r ∈ s.remark, r.1 ≠ [] ∧ r.2 = ⟨number, column + s.text.length⟩

namespace Scanned.IsPlaced

variable {number column : Nat} {s : Scanned}

/-- A blank in front. -/
theorem skip {c : Char} (hc : Text.isBlank c = true) (h : s.IsPlaced number (column + 1)) :
    (s.skip c).IsPlaced number column where
  fills := h.fills.skip hc
  code := h.code
  remark r hr := by
    obtain ⟨hne, hplace⟩ := h.remark r hr
    refine ⟨hne, ?_⟩
    rw [hplace, Scanned.skip, List.length_cons, Nat.add_assoc, Nat.add_comm 1]

/-- A token in front. -/
theorem push {kind : TokenKind} {text : Text} (hne : text ≠ [])
    (hcode : Token.IsCode ⟨kind, text, ⟨number, column⟩⟩)
    (h : s.IsPlaced number (column + text.length)) :
    (s.push kind text ⟨number, column⟩).IsPlaced number column where
  fills := h.fills.push kind hne
  code := List.forall_mem_cons.mpr ⟨hcode, h.code⟩
  remark r hr := by
    obtain ⟨hne, hplace⟩ := h.remark r hr
    refine ⟨hne, ?_⟩
    rw [hplace, Scanned.push, List.length_append, Nat.add_assoc]

/-- What a scan puts in front keeps the places. -/
theorem map {r : Except Fault Scanned} {f : Scanned → Scanned} {column' : Nat}
    (h : r.map f = .ok s) (hr : ∀ {inner}, r = .ok inner → inner.IsPlaced number column')
    (hf : ∀ {inner : Scanned}, inner.IsPlaced number column' → (f inner).IsPlaced number column) :
    s.IsPlaced number column := by
  obtain ⟨inner, hinner, rfl⟩ := exists_of_map_eq_ok h
  exact hf (hr hinner)

end Scanned.IsPlaced

/-- No word is a comment or stands between quotes. -/
theorem isRemark_of_classify {word : Text} {position : Position} {kind : TokenKind}
    (h : classify word position = .ok kind) : Token.isRemark ⟨kind, word, position⟩ = false := by
  unfold classify at h
  split at h
  · cases h; rfl
  · split at h
    · cases h; rfl
    · split at h
      · cases h; rfl
      · split at h
        · cases h
        · split at h
          · cases h; rfl
          · cases h; rfl

/-- A token of characters that are no blanks and no number signs. -/
theorem Token.isCode_of_word {kind : TokenKind} {text : Text} {position : Position}
    (hkind : Token.isRemark ⟨kind, text, position⟩ = false)
    (htext : ∀ c ∈ text, Text.isBlank c = false ∧ c ≠ '#') :
    Token.IsCode ⟨kind, text, position⟩ where
  isRemark := hkind
  isTrimmed := ⟨fun c hc => (htext c (List.mem_of_mem_head? hc)).1,
    fun c hc => (htext c (List.mem_of_getLast? hc)).1⟩
  isQuoted hsign := absurd rfl (htext '#' hsign).2

/-- A quoted literal is code. -/
theorem Token.isCode_of_quote {quote : Char} (hquote : quote = '"' ∨ quote = '\'') (body : Text)
    (position : Position) :
    Token.IsCode ⟨quoteKind quote, quote :: body ++ [quote], position⟩ := by
  have hblank : Text.isBlank quote = false := by rcases hquote with rfl | rfl <;> rfl
  refine ⟨?_, Text.isTrimmed_of_ends rfl (List.getLast?_concat) hblank hblank, fun _ => ?_⟩
  · rcases hquote with rfl | rfl <;> rfl
  · rcases hquote with rfl | rfl <;> rfl

/-- A scan finds tokens where it says. -/
theorem isPlaced_of_scan {number column : Nat} {t : Text} {s : Scanned}
    (h : scan number column t = .ok s) : s.IsPlaced number column := by
  fun_induction scan number column t generalizing s with
  | case1 =>
    cases h
    exact ⟨.blank Text.isBlank_nil, fun _ hmem => absurd hmem List.not_mem_nil,
      fun _ hr => absurd hr (Option.not_mem_none _)⟩
  | case2 column c rest hc ih => exact .map h ih fun hs => hs.skip hc
  | case3 column rest =>
    cases h
    refine ⟨.blank Text.isBlank_nil, fun _ hmem => absurd hmem List.not_mem_nil, fun r hr => ?_⟩
    obtain rfl := Option.some.inj hr
    exact ⟨List.cons_ne_nil _ _, rfl⟩
  | case4 column c rest position hblank hsign hc body after hbody =>
    rename_i ih
    exact .map h ih fun hs =>
      hs.push (List.cons_ne_nil _ _) (Token.isCode_of_quote hc body ⟨number, column⟩)
  | case5 => cases h
  | case6 column c rest position hblank hsign hc hmark =>
    rename_i ih
    refine .map h ih fun hs => hs.push (List.cons_ne_nil _ _) (Token.isCode_of_word rfl ?_)
    rintro d hd
    obtain rfl := List.mem_singleton.mp hd
    exact ⟨Bool.eq_false_iff.mpr hblank, hsign⟩
  | case7 column c rest position hblank hsign hc hmark word _ kind hkind =>
    rename_i ih
    refine .map h ih fun hs =>
      hs.push (List.cons_ne_nil _ _) (Token.isCode_of_word (isRemark_of_classify hkind) ?_)
    rintro d hd
    obtain rfl | hd := List.mem_cons.mp hd
    · exact ⟨Bool.eq_false_iff.mpr hblank, hsign⟩
    · have hends := List.mem_takeWhile_imp hd
      simp only [endsWord, Bool.not_eq_true', Bool.or_eq_false_iff, beq_eq_false_iff_ne] at hends
      exact ⟨hends.1.1.1.1.1.1, hends.2⟩
  | case8 => cases h

/-- A result that fails at some of the columns before one of them, if it fails. -/
def FailsWithin {α : Type} (number column stop : Nat) (r : Except Fault α) : Prop :=
  ∀ fault, r = .error fault → ∃ place message,
    fault = .located .lexical ⟨number, place⟩ message ∧ column ≤ place ∧ place < stop

/-- The same behind more characters. -/
theorem FailsWithin.map {α β : Type} {number column column' stop : Nat} {r : Except Fault α}
    {f : α → β} (h : FailsWithin number column' stop r) (hle : column ≤ column') :
    FailsWithin number column stop (r.map f) := by
  intro fault hr
  cases r with
  | ok a => cases hr
  | error found =>
    cases hr
    obtain ⟨place, message, hfault, hfrom, hto⟩ := h fault rfl
    exact ⟨place, message, hfault, hle.trans hfrom, hto⟩

/-- A word is refused at its own place. -/
theorem fault_of_classify {word : Text} {position : Position} {fault : Fault}
    (h : classify word position = .error fault) :
    ∃ message, fault = .located .lexical position message := by
  unfold classify at h
  split at h
  · cases h
  · split at h
    · cases h
    · split at h
      · cases h
      · split at h
        · cases h
          exact ⟨_, rfl⟩
        · split at h <;> cases h

/-- A scan that fails does so at one of its characters. -/
theorem scan_failsWithin (number column : Nat) (t : Text) {stop : Nat}
    (hstop : column + t.length ≤ stop) : FailsWithin number column stop (scan number column t) := by
  fun_induction scan number column t with
  | case1 =>
    intro fault h
    cases h
  | case2 column c rest hc ih =>
    rw [List.length_cons] at hstop
    exact (ih (by omega)).map (by omega)
  | case3 =>
    intro fault h
    cases h
  | case4 column c rest position hblank hsign hc body after hbody _ text kind ih =>
    have hlength : rest.length = body.length + 1 + after.length := by
      rw [Literal.eq_of_takeBody? hbody, List.length_append, List.length_cons]
      omega
    have htext : text.length = body.length + 2 := by
      simp only [text, List.length_append, List.length_cons, List.length_nil]
    rw [List.length_cons] at hstop
    exact (ih (by omega)).map (by omega)
  | case5 column c rest position hblank hsign hc hbody =>
    intro fault h
    cases h
    rw [List.length_cons] at hstop
    exact ⟨column, _, rfl, Nat.le_refl _, by omega⟩
  | case6 column c rest position hblank hsign hc hmark ih =>
    rw [List.length_cons] at hstop
    exact (ih (by omega)).map (by omega)
  | case7 column c rest position hblank hsign hc hmark word _ kind hkind ih =>
    have hlength : rest.length =
        (rest.takeWhile (!endsWord ·)).length + (rest.dropWhile (!endsWord ·)).length := by
      rw [← List.length_append, List.takeWhile_append_dropWhile]
    have hword : word.length = (rest.takeWhile (!endsWord ·)).length + 1 := List.length_cons
    rw [List.length_cons] at hstop
    exact (ih (by omega)).map (by omega)
  | case8 column c rest position hblank hsign hc hmark word _ found hkind =>
    intro fault h
    cases h
    obtain ⟨message, rfl⟩ := fault_of_classify hkind
    rw [List.length_cons] at hstop
    exact ⟨column, message, rfl, Nat.le_refl _, by omega⟩

/-! ## Lines -/

/-- How a line that was accepted lies in the physical line that it was read from. -/
structure Line.LiesIn (l : Line) (number : Nat) (t : Text) : Prop where
  /-- The tokens fill the physical line from its first column on. -/
  fills : Fills number 1 l.tokens t
  /-- Each token is a part of the physical line that is not empty, and its column is one more than
  the number of characters before it. -/
  places : ∀ token ∈ l.tokens, token.text ≠ [] ∧ ∃ before after,
    t = before ++ (token.text ++ after) ∧ token.position = ⟨number, 1 + before.length⟩
  /-- Each token starts behind the ones before it. -/
  pairwise : l.tokens.Pairwise fun a b => a.position.column + a.text.length ≤ b.position.column
  /-- Only the last token can be a comment. -/
  comments : ∀ token ∈ l.tokens.dropLast, token.isRemark = false
  /-- The code of the line are the tokens that are no comments. -/
  code : l.code = l.tokens.filter (!·.isRemark)
  /-- Without code the line has no text. -/
  text_nil : l.code = [] → l.text = []
  /-- The text of the line is the part from the start of the first token of code to the end of the
  last one. -/
  text : ∀ first ∈ l.code.head?, ∀ last ∈ l.code.getLast?, ∃ before after,
    t = before ++ (l.text ++ after) ∧ first.position.column = 1 + before.length ∧
      last.position.column + last.text.length = 1 + before.length + l.text.length
  /-- A directive in front is the start of the text, and the arguments are what follows it. -/
  arguments : ∀ keyword place rest, l.code = ⟨.directive, keyword, place⟩ :: rest →
    ∃ after, l.text = keyword ++ after ∧ l.arguments = Text.trim after
  /-- A number sign in the text stands in a token between quotes. -/
  signs : ∀ before after, l.text = before ++ '#' :: after →
    ∃ token ∈ l.code, token.isQuoted = true ∧ token.Covers (l.position.column + before.length)

/-- A text between tokens without blanks at their ends has none at its own ends. -/
theorem Text.IsTrimmed.of_infixes {first last inner : Text} (hfirst : first.IsTrimmed)
    (hlast : last.IsTrimmed) (hne : first ≠ []) (hne' : last ≠ []) (hstart : first <+: inner)
    (hsuffix : last <:+ inner) : inner.IsTrimmed := by
  constructor
  · obtain ⟨rest, rfl⟩ := hstart
    rw [List.head?_append_of_ne_nil _ hne]
    exact hfirst.1
  · obtain ⟨front, rfl⟩ := hsuffix
    rw [List.getLast?_append_of_ne_nil _ hne']
    exact hlast.2

/-- Without the blanks around it, a text that code fills reaches from the start of the first token
to the end of the last one. -/
theorem Fills.exists_trim {number column : Nat} {tokens : List Token} {t : Text}
    (h : Fills number column tokens t) (hcode : ∀ token ∈ tokens, token.IsCode)
    (hne : tokens ≠ []) : ∃ before after, t = before ++ (Text.trim t ++ after) ∧
      (tokens.head hne).text <+: Text.trim t ∧
      (tokens.head hne).position = ⟨number, column + before.length⟩ ∧
      (tokens.getLast hne).position.column + (tokens.getLast hne).text.length =
        column + before.length + (Text.trim t).length := by
  obtain ⟨before, inner, after, hbefore, hafter, rfl, hfirst, hlast, hplace, hend⟩ :=
    h.exists_span hne
  have htrimmed : Text.IsTrimmed inner :=
    (hcode _ (List.head_mem hne)).isTrimmed.of_infixes (hcode _ (List.getLast_mem hne)).isTrimmed
      (h.exists_of_mem (List.head_mem hne)).1 (h.exists_of_mem (List.getLast_mem hne)).1
      hfirst hlast
  have hinner : Text.trim (before ++ (inner ++ after)) = inner := by
    rw [Text.trim_append_left hbefore, Text.trim_append_right hafter, htrimmed.trim_eq]
  rw [hinner]
  exact ⟨before, after, rfl, hfirst, hplace, hend⟩

section Accepted

variable {number : Nat} {t : Text} {l : Line} (h : Line.ofText number t = .ok l)

include h

/-- A line is made of what a scan of its physical line finds. -/
theorem exists_of_ofText :
    ∃ s, scan number 1 t = .ok s ∧ l.code = s.code ∧ l.text = Text.trim s.text ∧
      (l.remark = s.remark.map fun r =>
        ⟨if s.code.isEmpty then .comment else .eolComment, r.1, r.2⟩) ∧
      ∀ first ∈ s.code.head?, l.position = first.position := by
  obtain ⟨s, hs, rfl⟩ := exists_of_map_eq_ok h
  refine ⟨s, hs, rfl, rfl, rfl, ?_⟩
  cases s.code with
  | nil => exact fun _ hfirst => absurd hfirst (Option.not_mem_none _)
  | cons first rest =>
    intro first' hfirst
    obtain rfl := Option.some.inj hfirst
    rfl

/-- The code of a line is code. -/
theorem isCode_of_ofText : ∀ token ∈ l.code, token.IsCode := by
  obtain ⟨s, hs, hcode, -⟩ := exists_of_ofText h
  rw [hcode]
  exact (isPlaced_of_scan hs).code

/-- The comment of a line is one. -/
theorem isRemark_of_ofText : ∀ token ∈ l.remark.toList, token.isRemark = true := by
  obtain ⟨s, -, -, -, hremark, -⟩ := exists_of_ofText h
  intro token hmem
  rw [hremark] at hmem
  obtain ⟨r, -, rfl⟩ := Option.map_eq_some_iff.mp (Option.mem_toList.mp hmem)
  unfold Token.isRemark
  cases s.code.isEmpty <;> rfl

/-- The tokens of a line fill its physical line. -/
theorem fills_of_ofText : Fills number 1 l.tokens t := by
  obtain ⟨s, hs, hcode, -, hremark, -⟩ := exists_of_ofText h
  have hplaced := isPlaced_of_scan hs
  have hall := all_of_scan hs
  rw [Line.tokens, hcode, hremark]
  unfold Scanned.all at hall
  cases hr : s.remark with
  | none =>
    rw [hr] at hall
    rw [← hall]
    simpa using hplaced.fills
  | some r =>
    obtain ⟨hne, hplace⟩ := hplaced.remark r hr
    rw [hr] at hall
    have hlast := hplaced.fills.concat (if s.code.isEmpty then .comment else .eolComment) hne
    rw [← hplace] at hlast
    rw [← hall]
    exact hlast

/-- The comment of a line is its last token. -/
theorem isRemark_dropLast_of_ofText : ∀ token ∈ l.tokens.dropLast, token.isRemark = false := by
  intro token hmem
  refine (isCode_of_ofText h token ?_).isRemark
  unfold Line.tokens at hmem
  cases hr : l.remark with
  | none =>
    rw [hr, Option.toList_none, List.append_nil] at hmem
    exact List.mem_of_mem_dropLast hmem
  | some r => rwa [hr, Option.toList_some, List.dropLast_concat] at hmem

/-- The code of a line is what is left of its tokens without the comment. -/
theorem code_of_ofText : l.code = l.tokens.filter (!·.isRemark) := by
  have hnone : l.remark.toList.filter (!·.isRemark) = [] :=
    List.filter_eq_nil_iff.mpr fun token hmem => by simp [isRemark_of_ofText h token hmem]
  have hevery : l.code.filter (!·.isRemark) = l.code :=
    List.filter_eq_self.mpr fun token hmem => by simp [(isCode_of_ofText h token hmem).isRemark]
  rw [Line.tokens, List.filter_append, hnone, hevery, List.append_nil]

/-- Without code a line has no text. -/
theorem text_eq_nil_of_ofText (hnil : l.code = []) : l.text = [] := by
  obtain ⟨s, hs, hcode, htext, -⟩ := exists_of_ofText h
  rw [htext]
  exact Text.trim_eq_nil.mpr ((code_eq_nil_iff hs).mp (hcode ▸ hnil))

/-- The code of a line reaches from the start of its text to the end of it. -/
theorem exists_span_of_ofText (hne : l.code ≠ []) :
    ∃ before after, t = before ++ (l.text ++ after) ∧ (l.code.head hne).text <+: l.text ∧
      (l.code.head hne).position = ⟨number, 1 + before.length⟩ ∧
      (l.code.getLast hne).position.column + (l.code.getLast hne).text.length =
        1 + before.length + l.text.length := by
  obtain ⟨s, hs, hcode, htext, -⟩ := exists_of_ofText h
  have hplaced := isPlaced_of_scan hs
  obtain ⟨before, after, hsplit, hstart, hplace, hend⟩ :=
    hplaced.fills.exists_trim hplaced.code (hcode ▸ hne)
  simp only [← hcode, ← htext] at hsplit hstart hplace hend
  refine ⟨before, after ++ (s.remark.map Prod.fst).getD [], ?_, hstart, hplace, hend⟩
  rw [← all_of_scan hs, Scanned.all, hsplit]
  simp only [List.append_assoc]

/-- The place of a line is that of its first token of code. -/
theorem position_of_ofText (hne : l.code ≠ []) : l.position = (l.code.head hne).position := by
  obtain ⟨s, -, hcode, -, -, hposition⟩ := exists_of_ofText h
  refine hposition _ ?_
  rw [← hcode, List.head?_eq_some_head hne]
  rfl

/-- What stands in the text of a line stands in its code, blanks aside. -/
theorem exists_covers_of_ofText {before after : Text} {x : Char} (hx : Text.isBlank x = false)
    (htext : l.text = before ++ x :: after) :
    ∃ token ∈ l.code, x ∈ token.text ∧ token.Covers (l.position.column + before.length) := by
  have hne : l.code ≠ [] := fun hnil => by
    rw [text_eq_nil_of_ofText h hnil] at htext
    exact absurd htext.symm (List.append_ne_nil_of_right_ne_nil _ (List.cons_ne_nil _ _))
  obtain ⟨s, hs, hcode, htrim, -⟩ := exists_of_ofText h
  have hplaced := isPlaced_of_scan hs
  obtain ⟨front, behind, hsplit, -, hplace, -⟩ :=
    hplaced.fills.exists_trim hplaced.code (hcode ▸ hne)
  simp only [← hcode, ← htrim, htext] at hsplit hplace
  have hwhole : s.text = (front ++ before) ++ x :: (after ++ behind) := by
    rw [hsplit]
    simp only [List.append_assoc, List.cons_append]
  obtain ⟨token, hmem, hin, hcovers⟩ := hplaced.fills.exists_covers hx hwhole
  rw [position_of_ofText h hne, hplace]
  rw [List.length_append, ← Nat.add_assoc] at hcovers
  exact ⟨token, hcode ▸ hmem, hin, hcovers⟩

/-- A line that is accepted lies in its physical line. -/
theorem liesIn_of_ofText : l.LiesIn number t where
  fills := fills_of_ofText h
  places _ hmem := (fills_of_ofText h).exists_of_mem hmem
  pairwise := (fills_of_ofText h).pairwise
  comments := isRemark_dropLast_of_ofText h
  code := code_of_ofText h
  text_nil := text_eq_nil_of_ofText h
  text first hfirst last hlast := by
    have hne : l.code ≠ [] := fun hnil => by
      rw [hnil] at hfirst
      exact absurd hfirst (Option.not_mem_none _)
    obtain rfl := (List.head_eq_iff_head?_eq_some hne).mpr hfirst
    obtain rfl := (List.getLast_eq_iff_getLast?_eq_some hne).mpr hlast
    obtain ⟨before, after, hsplit, -, hplace, hend⟩ := exists_span_of_ofText h hne
    exact ⟨before, after, hsplit, congrArg Position.column hplace, hend⟩
  arguments keyword place rest hcode := by
    have hne : l.code ≠ [] := hcode ▸ List.cons_ne_nil _ _
    obtain ⟨-, -, -, ⟨after, hafter⟩, -, -⟩ := exists_span_of_ofText h hne
    simp only [hcode, List.head_cons] at hafter
    refine ⟨after, hafter.symm, ?_⟩
    unfold Line.arguments
    rw [hcode]
    dsimp only
    rw [← hafter, List.drop_left]
  signs before after hsign := by
    obtain ⟨token, hmem, hin, hcovers⟩ := exists_covers_of_ofText h (by rfl) hsign
    exact ⟨token, hmem, (isCode_of_ofText h token hmem).isQuoted hin, hcovers⟩

end Accepted

/-- Every physical line is either accepted, and its tokens then tile it with nothing but blanks
between them, or refused at one of its characters. -/
theorem physical_line_tiled (number : Nat) (t : Text) :
    (∃ l, Line.ofText number t = .ok l ∧ l.LiesIn number t) ∨
      ∃ column message, Line.ofText number t = .error (.located .lexical ⟨number, column⟩ message) ∧
        1 ≤ column ∧ column ≤ t.length := by
  cases h : Line.ofText number t with
  | ok l => exact .inl ⟨l, rfl, liesIn_of_ofText h⟩
  | error fault =>
    have hfails : FailsWithin number 1 (1 + t.length) (Line.ofText number t) :=
      (scan_failsWithin number 1 t (Nat.le_refl _)).map (Nat.le_refl 1)
    obtain ⟨column, message, rfl, hfrom, hto⟩ := hfails fault h
    exact .inr ⟨column, message, rfl, hfrom, by omega⟩

end Smali
