import Smali.Listener.Recorder
import Smali.Proofs.Divisions
import Smali.Proofs.TokenPlaces
import Smali.Reader.Run

/-!
# Braces of tokens and of texts

What stands in quotes is settled twice. The scan of a line looks for quotes where a token starts,
so that a quote in a word is one of its characters; the count of braces looks at every character.
Between tokens the two agree as long as each word closes the quotes that the count sees in it. Up
to the first word that does not, the count has met the braces that are tokens and no others; from
there on it takes what follows for a quoted text.
-/

namespace Smali

namespace Literal

/-! ## Counting over parts of a text -/

/-- The quotes that a scan is in behind a text. -/
def Quoting.past (q : Quoting) (t : Text) : Quoting := t.foldl Quoting.next q

/-- Whether a scan from outside quotes comes back there. -/
def ClosesQuotes (t : Text) : Prop := Quoting.outside.past t = .outside

instance (t : Text) : Decidable (ClosesQuotes t) :=
  inferInstanceAs (Decidable (Quoting.outside.past t = .outside))

/-- Two texts. -/
theorem depthFrom_append (q : Quoting) (t u : Text) :
    depthFrom q (t ++ u) = depthFrom q t + depthFrom (q.past t) u := by
  induction t generalizing q with
  | nil => exact (Int.zero_add _).symm
  | cons c t ih =>
    rw [List.cons_append, depthFrom, depthFrom, ih, Int.add_assoc]
    rfl

/-- Two texts that close their quotes. -/
theorem ClosesQuotes.append {t u : Text} (ht : ClosesQuotes t) (hu : ClosesQuotes u) :
    ClosesQuotes (t ++ u) := by
  unfold ClosesQuotes Quoting.past at *
  rw [List.foldl_append, ht, hu]

/-- A text that closes its quotes, and another one. -/
theorem ClosesQuotes.braceDepth_append {t : Text} (h : ClosesQuotes t) (u : Text) :
    braceDepth (t ++ u) = braceDepth t + braceDepth u := by
  unfold ClosesQuotes at h
  rw [braceDepth, depthFrom_append, h]
  rfl

/-- A text without braces. -/
theorem depthFrom_eq_zero {t : Text} (hopen : '\x7b' ∉ t) (hclose : '\x7d' ∉ t) (q : Quoting) :
    depthFrom q t = 0 := by
  induction t generalizing q with
  | nil => rfl
  | cons c t ih =>
    rw [List.mem_cons, not_or] at hopen hclose
    have hweight : q.weight c = 0 := by
      unfold Quoting.weight
      split
      · exact absurd rfl hopen.1
      · exact absurd rfl hclose.1
      · rfl
    rw [depthFrom, hweight, ih hopen.2 hclose.2, Int.add_zero]

/-- A level text closes its quotes. -/
theorem IsLevel.closesQuotes {t : Text} (h : IsLevel t) : ClosesQuotes t := by
  have hquoting := congrArg Scan.quoting h.isClosed
  rwa [Scan.quoting_past] at hquoting

/-- A quoted literal is level. -/
theorem isLevel_of_takeBody? {quote : Char} (hquote : quote = '"' ∨ quote = '\'')
    {t body after : Text} (h : takeBody? quote t = some (body, after)) :
    IsLevel (quote :: body ++ [quote]) := by
  have hopen : scanStep (.outside, 0) quote = some (.inside quote, 0) := by
    obtain rfl | rfl := hquote <;> rfl
  obtain ⟨hslash, -, hquoted⟩ := takeBody?_eq_some_iff.mp h
  have hbody : scanTo (.inside quote, 0) (body ++ [quote]) = some (.outside, 0) := by
    clear h
    have hpaired := hquoted.isPaired
    induction hpaired with
    | nil => obtain rfl | rfl := hquote <;> rfl
    | lone hc _ ih =>
      obtain ⟨hne, hrest⟩ := (isQuotedBody_cons hc).mp hquoted
      rw [List.cons_append, scanTo_cons, scanStep_of_ne_outside Quoting.noConfusion, Quoting.next,
        if_neg hc, if_neg hne]
      exact ih hrest
    | pair hletter _ ih =>
      obtain ⟨-, hrest⟩ := (isQuotedBody_pair hslash).mp hquoted
      rw [List.cons_append, scanTo_cons, scanStep_of_ne_outside Quoting.noConfusion, Quoting.next,
        if_pos rfl]
      exact ih hrest
  unfold IsLevel
  rw [List.cons_append, scanTo_cons, hopen]
  exact hbody

end Literal

open Literal

/-! ## Tokens -/

namespace Token

/-- Whether a token is an opening brace. -/
def opensBrace (t : Token) : Bool := t.kind = .punctuation && t.text = ['\x7b']

/-- Whether a token is a closing brace. -/
def closesBrace (t : Token) : Bool := t.kind = .punctuation && t.text = ['\x7d']

/-- Whether the count of braces takes what follows a word for a quoted text. -/
def opensQuote (t : Token) : Bool := !t.isQuoted && !decide (ClosesQuotes t.text)

end Token

/-- Opening less closing braces among tokens. -/
def openBraces (tokens : List Token) : Int :=
  tokens.countP Token.opensBrace - tokens.countP Token.closesBrace

/-- A word that leaves a quote open is no brace. -/
theorem Token.openBraces_of_opensQuote {token : Token} (h : token.opensQuote = true) :
    openBraces [token] = 0 := by
  have hopen : ¬ClosesQuotes token.text := by
    simp only [opensQuote, Bool.and_eq_true, Bool.not_eq_true', decide_eq_false_iff_not] at h
    exact h.2
  have hbrace : ∀ brace, ClosesQuotes [brace] → token.text ≠ [brace] :=
    fun brace hcloses htext => hopen (htext ▸ hcloses)
  simp [openBraces, opensBrace, closesBrace, hbrace '\x7b' rfl, hbrace '\x7d' rfl]

/-- Tokens and more tokens. -/
theorem openBraces_append (tokens more : List Token) :
    openBraces (tokens ++ more) = openBraces tokens + openBraces more := by
  unfold openBraces
  rw [List.countP_append, List.countP_append]
  push_cast
  omega

/-- One token and more. -/
theorem openBraces_cons (token : Token) (tokens : List Token) :
    openBraces (token :: tokens) = openBraces [token] + openBraces tokens :=
  openBraces_append [token] tokens

/-- How the count of braces meets a token that was scanned. -/
structure Token.IsWeighed (t : Token) : Prop where
  /-- It counts the token if that is a brace. -/
  depth : braceDepth t.text = openBraces [t]
  /-- It sees the end of a quoted token. -/
  quoted : t.isQuoted = true → ClosesQuotes t.text

namespace Token

/-- Behind a token that opens no quote the count is outside quotes again. -/
theorem IsWeighed.closesQuotes {t : Token} (h : t.IsWeighed) (ht : t.opensQuote = false) :
    ClosesQuotes t.text := by
  cases hquoted : t.isQuoted with
  | true => exact h.quoted hquoted
  | false => simpa [opensQuote, hquoted] using ht

/-- A quoted literal is met so. -/
theorem isWeighed_of_quote {quote : Char} (hquote : quote = '"' ∨ quote = '\'')
    {t body after : Text} (h : takeBody? quote t = some (body, after)) (position : Position) :
    IsWeighed ⟨quoteKind quote, quote :: body ++ [quote], position⟩ := by
  have hlevel := isLevel_of_takeBody? hquote h
  refine ⟨hlevel.braceDepth_eq.trans ?_, fun _ => hlevel.closesQuotes⟩
  obtain rfl | rfl := hquote <;> rfl

/-- A mark is met so. -/
theorem isWeighed_of_mark {c : Char} (hc : isMark c = true) (position : Position) :
    IsWeighed ⟨.punctuation, [c], position⟩ := by
  have hcases : c = '\x7b' ∨ c = '\x7d' ∨ c = ',' ∨ c = '=' := by
    simpa [isMark, or_assoc] using hc
  obtain rfl | rfl | rfl | rfl := hcases <;>
    exact ⟨rfl, fun hquoted => absurd hquoted Bool.false_ne_true⟩

/-- A word is met so. -/
theorem isWeighed_of_word {kind : TokenKind} {word : Text} {position : Position}
    (hkind : classify word position = .ok kind) (hopen : '\x7b' ∉ word) (hclose : '\x7d' ∉ word) :
    IsWeighed ⟨kind, word, position⟩ := by
  have hquoted : isQuoted ⟨kind, word, position⟩ = false := by
    unfold classify at hkind
    split_ifs at hkind <;> cases hkind <;> rfl
  have hnoOpen : word ≠ ['\x7b'] := by
    rintro rfl
    exact hopen List.mem_cons_self
  have hnoClose : word ≠ ['\x7d'] := by
    rintro rfl
    exact hclose List.mem_cons_self
  refine ⟨?_, fun h => absurd (hquoted.symm.trans h) Bool.false_ne_true⟩
  rw [braceDepth, depthFrom_eq_zero hopen hclose]
  simp [openBraces, opensBrace, closesBrace, hnoOpen, hnoClose]

end Token

/-- The count of braces meets every token that is scanned so. -/
theorem isWeighed_of_scan {number column : Nat} {t : Text} {s : Scanned}
    (h : scan number column t = .ok s) : ∀ token ∈ s.code, token.IsWeighed := by
  fun_induction scan number column t generalizing s with
  | case1 | case3 =>
    cases h
    exact List.forall_mem_nil _
  | case2 column c rest hc ih =>
    obtain ⟨inner, hinner, rfl⟩ := exists_of_map_eq_ok h
    have hall := ih hinner
    exact hall
  | case4 column c rest position hblank hsign hc body after hbody =>
    rename_i ih
    obtain ⟨inner, hinner, rfl⟩ := exists_of_map_eq_ok h
    exact List.forall_mem_cons.mpr ⟨Token.isWeighed_of_quote hc hbody position, ih hinner⟩
  | case5 | case8 => cases h
  | case6 column c rest position hblank hsign hc hmark =>
    rename_i ih
    obtain ⟨inner, hinner, rfl⟩ := exists_of_map_eq_ok h
    exact List.forall_mem_cons.mpr ⟨Token.isWeighed_of_mark hmark position, ih hinner⟩
  | case7 column c rest position hblank hsign hc hmark word _ kind hkind =>
    rename_i ih
    obtain ⟨inner, hinner, rfl⟩ := exists_of_map_eq_ok h
    have hno : ∀ d, isMark d = true → d ∉ word := by
      rintro d hd hmem
      obtain rfl | hmem := List.mem_cons.mp hmem
      · exact hmark hd
      · have hends := List.mem_takeWhile_imp hmem
        simp only [isMark, Bool.or_eq_true, beq_iff_eq] at hd
        obtain ((rfl | rfl) | rfl) | rfl := hd <;> exact absurd hends (by decide)
    exact List.forall_mem_cons.mpr
      ⟨Token.isWeighed_of_word hkind (hno _ rfl) (hno _ rfl), ih hinner⟩

/-! ## Lines -/

namespace Fills

variable {number column : Nat} {tokens : List Token} {t : Text}

/-- Without the blanks at its start a text is filled by the same tokens. -/
theorem trimLeft (h : Fills number column tokens t) (hcode : ∀ token ∈ tokens, token.IsCode) :
    ∃ column', Fills number column' tokens (Text.trimLeft t) := by
  cases h with
  | blank hw =>
    rw [Text.trimLeft, Text.dropWhile_isBlank_eq_nil.mpr hw]
    exact ⟨column, .blank Text.isBlank_nil⟩
  | @token _ w token tokens rest hw hne hplace hrest =>
    obtain ⟨c, more, htext⟩ := List.exists_cons_of_ne_nil hne
    have hfirst := (hcode token List.mem_cons_self).isTrimmed.1 c (by rw [htext]; rfl)
    have hleft : Text.trimLeft (w ++ (token.text ++ rest)) = [] ++ (token.text ++ rest) := by
      rw [Text.trimLeft, List.dropWhile_append_of_pos hw, htext, List.cons_append]
      exact List.dropWhile_cons_of_neg (ne_true_of_eq_false hfirst)
    rw [hleft]
    exact ⟨_, .token Text.isBlank_nil hne hplace hrest⟩

/-- The same for the blanks at its end. -/
theorem trimRight (h : Fills number column tokens t) (hcode : ∀ token ∈ tokens, token.IsCode) :
    Fills number column tokens (Text.trimRight t) := by
  induction h with
  | blank hw =>
    rw [Text.trimRight_eq_nil.mpr hw]
    exact .blank Text.isBlank_nil
  | @token column w token tokens rest hw hne hplace _ ih =>
    obtain ⟨htoken, htokens⟩ := List.forall_mem_cons.mp hcode
    have hlast : ∀ c ∈ (w ++ token.text).getLast?, Text.isBlank c = false := by
      rw [List.getLast?_append_of_ne_nil _ hne]
      exact htoken.isTrimmed.2
    rw [← List.append_assoc, Text.trimRight_append_of_last hlast, List.append_assoc]
    exact .token hw hne hplace (ih htokens)

/-- Tokens in two portions fill a text in two portions. -/
theorem exists_append {front rest : List Token} (h : Fills number column (front ++ rest) t) :
    ∃ before after column', t = before ++ after ∧ Fills number column front before ∧
      Fills number column' rest after := by
  induction front generalizing column t with
  | nil => exact ⟨[], t, column, rfl, .blank Text.isBlank_nil, h⟩
  | cons token front ih =>
    cases h with
    | @token _ w _ _ tail hw hne hplace htail =>
      obtain ⟨before, after, column', rfl, hbefore, hafter⟩ := ih htail
      exact ⟨w ++ (token.text ++ before), after, column', by simp only [List.append_assoc],
        .token hw hne hplace hbefore, hafter⟩

/-- If each word closes the quotes in it, the text does, and its depth is that of the tokens. -/
theorem braceDepth_eq (h : Fills number column tokens t)
    (hweighed : ∀ token ∈ tokens, token.IsWeighed)
    (hclosed : ∀ token ∈ tokens, token.opensQuote = false) :
    ClosesQuotes t ∧ braceDepth t = openBraces tokens := by
  induction h with
  | blank hw => exact ⟨(isLevel_of_isBlank hw).closesQuotes, (isLevel_of_isBlank hw).braceDepth_eq⟩
  | @token column w token tokens rest hw _ _ _ ih =>
    obtain ⟨hhere, hthere⟩ := List.forall_mem_cons.mp hweighed
    obtain ⟨hfirst, hmore⟩ := List.forall_mem_cons.mp hclosed
    obtain ⟨hrest, hdepth⟩ := ih hthere hmore
    have hblank := isLevel_of_isBlank hw
    have htoken := hhere.closesQuotes hfirst
    refine ⟨hblank.closesQuotes.append (htoken.append hrest), ?_⟩
    rw [hblank.closesQuotes.braceDepth_append, hblank.braceDepth_eq, htoken.braceDepth_append,
      hhere.depth, hdepth, openBraces_cons token tokens, Int.zero_add]

end Fills

section Accepted

variable {number : Nat} {t : Text} {l : Line} (hl : Line.ofText number t = .ok l)

include hl

/-- The tokens of a line fill its text. -/
theorem fills_text_of_ofText : ∃ column, Fills number column l.code l.text := by
  obtain ⟨s, hs, hcode, htext, -⟩ := exists_of_ofText hl
  have hplaced := isPlaced_of_scan hs
  obtain ⟨column, hleft⟩ := hplaced.fills.trimLeft hplaced.code
  rw [hcode, htext]
  exact ⟨column, hleft.trimRight hplaced.code⟩

/-- The count of braces meets the tokens of a line as they are. -/
theorem isWeighed_of_ofText : ∀ token ∈ l.code, token.IsWeighed := by
  obtain ⟨s, hs, hcode, -⟩ := exists_of_ofText hl
  rw [hcode]
  exact isWeighed_of_scan hs

/-- An array goes on at the depth of the line that it takes. -/
theorem Gathering.depth_add (g : Gathering) : (g.add l).depth = g.depth + braceDepth l.text := by
  unfold Gathering.add
  cases hcomment : l.comment? with
  | none => rfl
  | some text =>
    have hcode : l.code = [] := by
      unfold Line.comment? at hcomment
      split at hcomment
      · exact List.isEmpty_iff.mp ‹_›
      · exact nomatch hcomment
    rw [text_eq_nil_of_ofText hl hcode]
    exact (Int.add_zero _).symm

/-- If each word of a line closes the quotes in it, the depth of the line is that of its tokens. -/
theorem braceDepth_eq_openBraces (hclosed : ∀ token ∈ l.code, token.opensQuote = false) :
    braceDepth l.text = openBraces l.code := by
  obtain ⟨column, hfills⟩ := fills_text_of_ofText hl
  exact (hfills.braceDepth_eq (isWeighed_of_ofText hl) hclosed).2

/-- Up to the first word that does not, the depth is that of the tokens, and what follows the word
is scanned inside its quote. -/
theorem braceDepth_of_opensQuote {done more : List Token} {word : Token}
    (hcode : l.code = done ++ word :: more) (hdone : ∀ token ∈ done, token.opensQuote = false)
    (hword : word.opensQuote = true) :
    ∃ before after, l.text = before ++ (word.text ++ after) ∧
      braceDepth l.text = openBraces done + depthFrom (Quoting.outside.past word.text) after ∧
      openBraces l.code = openBraces done + openBraces more := by
  have hweighed := isWeighed_of_ofText hl
  obtain ⟨column, hfills⟩ := fills_text_of_ofText hl
  rw [hcode, List.forall_mem_append, List.forall_mem_cons] at hweighed
  rw [hcode] at hfills
  obtain ⟨before, after, _, htext, hbefore, hafter⟩ := hfills.exists_append
  obtain ⟨hcloses, hdepth⟩ := hbefore.braceDepth_eq hweighed.1 hdone
  have hnone := Token.openBraces_of_opensQuote hword
  cases hafter with
  | @token _ w _ _ rest hw _ _ _ =>
    refine ⟨before ++ w, rest, by rw [htext]; simp only [List.append_assoc], ?_, ?_⟩
    · have hblank := isLevel_of_isBlank hw
      have hhere : depthFrom .outside word.text = openBraces [word] := hweighed.2.1.depth
      rw [htext, hcloses.braceDepth_append, hdepth, hblank.closesQuotes.braceDepth_append,
        hblank.braceDepth_eq, braceDepth, depthFrom_append, hhere, hnone, Int.zero_add, Int.zero_add]
    · rw [hcode, openBraces_append, openBraces_cons word, hnone, Int.zero_add]

/-- **Braces are counted as tokens.** If each word of a line closes the quotes in it, then the depth
of the line is the number of opening less closing braces among its tokens, and an array that takes
the line goes on or ends as the tokens say. At the first word that leaves a quote open the count
parts from the tokens: it is right exactly if what follows the word, scanned inside that quote, has
the depth of the tokens behind the word. -/
theorem text_counts_brace_tokens :
    ((∀ token ∈ l.code, token.opensQuote = false) →
      braceDepth l.text = openBraces l.code ∧
        ∀ g : Gathering, (g.add l).depth = g.depth + openBraces l.code ∧
          (g.isClosedBy l = true ↔ l.isComment = false ∧ g.depth + openBraces l.code ≤ 0)) ∧
      ∀ done word more, l.code = done ++ word :: more →
        (∀ token ∈ done, token.opensQuote = false) → word.opensQuote = true →
          ∃ before after, l.text = before ++ (word.text ++ after) ∧
            (braceDepth l.text = openBraces l.code ↔
              depthFrom (Quoting.outside.past word.text) after = openBraces more) := by
  refine ⟨fun hclosed => ?_, fun done word more hcode hdone hword => ?_⟩
  · have hdepth := braceDepth_eq_openBraces hl hclosed
    refine ⟨hdepth, fun g => ?_⟩
    have hadd : (g.add l).depth = g.depth + openBraces l.code := by
      rw [Gathering.depth_add hl, hdepth]
    refine ⟨hadd, ?_⟩
    rw [Gathering.isClosedBy, hadd]
    simp
  · obtain ⟨before, after, htext, hdepth, htokens⟩ :=
      braceDepth_of_opensQuote hl hcode hdone hword
    refine ⟨before, after, htext, ?_⟩
    rw [hdepth, htokens]
    omega

end Accepted

/-- A line whose word closes its quotes, behind a brace in quotes, and a line whose word does not. -/
theorem text_counts_brace_tokens_at :
    let closed : Line := ⟨[⟨.stringLiteral, "\"\x7d\"", ⟨1, 1⟩⟩, ⟨.identifier, "b'c'", ⟨1, 5⟩⟩,
      ⟨.punctuation, "\x7d", ⟨1, 10⟩⟩], "\"\x7d\" b'c' \x7d", none, ⟨1, 1⟩⟩
    let word : Token := ⟨.identifier, "b'c", ⟨1, 1⟩⟩
    let brace : Token := ⟨.punctuation, "\x7d", ⟨1, 5⟩⟩
    let opened : Line := ⟨[word, brace], "b'c \x7d", none, ⟨1, 1⟩⟩
    Line.ofText 1 closed.text = .ok closed ∧
      braceDepth closed.text = openBraces closed.code ∧ openBraces closed.code = -1 ∧
      Line.ofText 1 opened.text = .ok opened ∧
      ∃ before after, opened.text = before ++ (word.text ++ after) ∧
        (braceDepth opened.text = openBraces opened.code ↔
          depthFrom (Quoting.outside.past word.text) after = openBraces [brace]) := by
  intro closed word brace opened
  have hclosed : Line.ofText 1 closed.text = .ok closed := by decide +kernel
  have hopened : Line.ofText 1 opened.text = .ok opened := by decide +kernel
  exact ⟨hclosed, ((text_counts_brace_tokens hclosed).1 (by decide +kernel)).1, by decide +kernel,
    hopened, (text_counts_brace_tokens hopened).2 [] word [brace] rfl (List.forall_mem_nil _)
      (by decide +kernel)⟩

/-- A name with a single quote in an array that is closed on its line: for the tokens the depth is
zero, for the count of braces it is one, and the array is read on to the end of the annotation. -/
theorem quote_in_word_miscounted :
    let line := "x = \x7b La;->b'c:I \x7d"
    let source := ".class La;\n.annotation runtime Lb;\n" ++ line ++ "\n.end annotation\n"
    (Line.ofText 3 line.toList).toOption.any (fun l => openBraces l.code = 0) = true ∧
      (Line.ofText 3 line.toList).toOption.any (fun l => braceDepth l.text = 1) = true ∧
      (read .default (Recorder.listener .obliging) (Recorder.root .ofClass) .initial
        source.toList).1 =
        .error (.located .unterminated ⟨3, 1⟩ "unterminated array value".toList) := by
  decide +kernel

/-! ## Arrays over several lines -/

namespace Line

/-- Whether a line was accepted and each word of it closes the quotes in it. -/
def CountsAsTokens (l : Line) : Prop :=
  (∃ number t, Line.ofText number t = .ok l) ∧ ∀ token ∈ l.code, token.opensQuote = false

end Line

/-- Over several lines an array comes to the depth of their tokens. -/
theorem Gathering.depth_of_lines {lines : List Line} (h : ∀ l ∈ lines, l.CountsAsTokens)
    (g : Gathering) :
    (lines.foldl Gathering.add g).depth = g.depth + openBraces (lines.flatMap Line.code) := by
  induction lines generalizing g with
  | nil => exact (Int.add_zero _).symm
  | cons l lines ih =>
    obtain ⟨⟨⟨number, t, hl⟩, hclosed⟩, hlines⟩ := List.forall_mem_cons.mp h
    rw [List.foldl_cons, ih hlines, Gathering.depth_add hl, braceDepth_eq_openBraces hl hclosed,
      List.flatMap_cons, openBraces_append, Int.add_assoc]

/-- The value of an element has the depth of the tokens behind its equals sign. -/
theorem braceDepth_of_value {number : Nat} {t : Text} {l : Line} (hl : Line.ofText number t = .ok l)
    {front rest : List Token} {sign : Token} (hcode : l.code = front ++ sign :: rest)
    (hsign : sign.text = ['=']) (hfront : ∀ token ∈ front, '=' ∉ token.text)
    (hclosed : ∀ token ∈ rest, token.opensQuote = false) :
    ∃ before after, Text.cut? (· == '=') l.text = some (before, after) ∧
      braceDepth (Text.trim after) = openBraces rest := by
  have hweighed := isWeighed_of_ofText hl
  have hall := isCode_of_ofText hl
  obtain ⟨column, hfills⟩ := fills_text_of_ofText hl
  rw [hcode, List.forall_mem_append, List.forall_mem_cons] at hweighed hall
  rw [hcode] at hfills
  obtain ⟨before, after, _, htext, hbefore, hafter⟩ := hfills.exists_append
  cases hafter with
  | @token _ w _ _ value hw _ _ hvalue =>
    have hnone : '=' ∉ before ++ w := by
      rw [List.mem_append, not_or]
      refine ⟨fun hmem => ?_, fun hmem => absurd (hw _ hmem) (by decide)⟩
      obtain ⟨start, stop, rfl⟩ := List.append_of_mem hmem
      obtain ⟨token, htoken, hin, -⟩ := hbefore.exists_covers (by decide) rfl
      exact hfront token htoken hin
    refine ⟨before ++ w, value, ?_, ?_⟩
    · rw [htext, hsign, ← List.append_assoc]
      exact Text.cut?_of_not_mem hnone value
    · obtain ⟨_, hleft⟩ := hvalue.trimLeft hall.2.2
      exact ((hleft.trimRight hall.2.2).braceDepth_eq hweighed.2.2 hclosed).2

/-- **An array ends where its tokens say.** Behind the line of an element and more lines of its
array, the next line ends the array if it is no comment and closes as many braces as have been
opened behind the equals sign. -/
theorem array_ends_by_tokens {l last : Line} {lines : List Line} {number : Nat} {t : Text}
    (hl : Line.ofText number t = .ok l) {front rest : List Token} {sign : Token}
    (hcode : l.code = front ++ sign :: rest) (hsign : sign.text = ['='])
    (hfront : ∀ token ∈ front, '=' ∉ token.text)
    (hclosed : ∀ token ∈ rest, token.opensQuote = false)
    (hlines : ∀ l ∈ lines ++ [last], l.CountsAsTokens) (name : Text) :
    ∃ before after, Text.cut? (· == '=') l.text = some (before, after) ∧
      ((lines.foldl Gathering.add (.start l name (Text.trim after))).isClosedBy last = true ↔
        last.isComment = false ∧ openBraces (rest ++ (lines ++ [last]).flatMap Line.code) ≤ 0) := by
  obtain ⟨before, after, hcut, hvalue⟩ := braceDepth_of_value hl hcode hsign hfront hclosed
  refine ⟨before, after, hcut, ?_⟩
  have hdepth := Gathering.depth_of_lines hlines (.start l name (Text.trim after))
  rw [List.foldl_append, List.foldl_cons, List.foldl_nil] at hdepth
  rw [Gathering.isClosedBy, hdepth, openBraces_append, ← hvalue]
  simp [Gathering.start]

end Smali
