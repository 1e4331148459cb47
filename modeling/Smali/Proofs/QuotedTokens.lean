import Smali.Proofs.Escapes

/-!
# Quoted literals in their lines

A text in quotes is one token, whatever stands behind its second quote: a text that looks like the
end of an escape, another quote, a number sign or nothing. The reader of quoted literals stops at
the quote that was put behind the written form, and the scan goes on from there as it would at the
start of a line, only that its columns are further to the right.
-/

namespace Smali

open Text Literal

/-- The written form of a text in quotes is one token of the line, and the rest of the line is
scanned behind it. -/
theorem scan_escape (number column : Nat) {quote : Char} (hquote : quote = '"' ∨ quote = '\'')
    (t rest : Text) :
    scan number column (quote :: escape t ++ quote :: rest) =
      (scan number (column + (quote :: escape t ++ [quote]).length) rest).map
        (.push (quoteKind quote) (quote :: escape t ++ [quote]) ⟨number, column⟩) := by
  have hbody := (isBody_escape t).takeBody?_eq hquote rest
  exact scan_quote number column hquote hbody

/-- Texts in quotes are read back in context: with any rest behind them the reader finds the body
that was written, the body denotes the text, the scan makes one token of it, and it is made of
printable ASCII characters. -/
theorem quoted_escape_in_context (quote : Char) (hquote : quote = '"' ∨ quote = '\'')
    (t rest : Text) :
    takeQuoted? quote (quote :: escape t ++ quote :: rest) = some (escape t, rest) ∧
      unescape (escape t) = .ok t ∧
      (∀ number column,
        scan number column (quote :: escape t ++ quote :: rest) =
          (scan number (column + (quote :: escape t ++ [quote]).length) rest).map
            (.push (quoteKind quote) (quote :: escape t ++ [quote]) ⟨number, column⟩)) ∧
      ∀ c ∈ escape t, ' ' ≤ c ∧ c ≤ '~' := by
  refine ⟨takeQuoted?_escape hquote t rest, unescape_escape t,
    fun number column => scan_escape number column hquote t rest, fun c hc => ?_⟩
  simpa [isPrintable] using isPrintable_of_mem_escape hc

/-- A text with both quotes, a backslash, a line feed, a control character and a character of two
units, written in single quotes in front of what looks like more of the literal. -/
theorem quoted_escape_in_context_hardText :
    takeQuoted? '\'' "'\\\"\\'\\\\u0041\\n\\u0001\\ud83d\\ude00'u0041' # end".toList =
        some ("\\\"\\'\\\\u0041\\n\\u0001\\ud83d\\ude00".toList, "u0041' # end".toList) ∧
      unescape "\\\"\\'\\\\u0041\\n\\u0001\\ud83d\\ude00" = .ok "\"'\\u0041\n\x01😀".toList := by
  have htext : escape "\"'\\u0041\n\x01😀" = "\\\"\\'\\\\u0041\\n\\u0001\\ud83d\\ude00".toList := by
    decide +kernel
  have h := quoted_escape_in_context '\'' (.inr rfl) "\"'\\u0041\n\x01😀" "u0041' # end"
  rw [htext] at h
  exact ⟨h.1, h.2.1⟩

end Smali
