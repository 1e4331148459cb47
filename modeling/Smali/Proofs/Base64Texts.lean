import Smali.Archive.Base64

/-!
# Base64 texts

Every symbol stands for one number below 64, and three bytes hold the same bits as four such
numbers. The bits that a last group does not need have to be zero, so that bytes have one written
form: a text is read as some bytes if and only if it is what they are written as. No symbol is
blank.
-/

namespace Smali.Base64

/-! ## Symbols -/

/-- The number of a symbol. -/
theorem value?_symbol {n : Nat} (h : n < 64) : value? (symbol n) = some n := by
  revert n
  decide

/-- No symbol fills a group up. -/
theorem symbol_ne_equals {n : Nat} (h : n < 64) : symbol n ≠ '=' := by
  revert n
  decide

/-- No symbol is blank. -/
theorem isBlank_symbol {n : Nat} (h : n < 64) : Text.isBlank (symbol n) = false := by
  revert n
  decide

/-- Symbols are characters of seven bits. -/
theorem toNat_lt_of_value? {c : Char} {n : Nat} (h : value? c = some n) : c.toNat < 128 := by
  have hrange : ∀ z : Char, z.toNat < 128 → c ≤ z → c.toNat < 128 :=
    fun z hz hc => Nat.lt_of_le_of_lt hc hz
  unfold value? at h
  split at h
  · rename_i hupper
    exact hrange 'Z' (by decide) hupper.2
  · split at h
    · rename_i hlower
      exact hrange 'z' (by decide) hlower.2
    · split at h
      · rename_i hdigit
        exact hrange '9' (by decide) hdigit.2
      · split at h
        · rename_i hplus
          exact hplus ▸ by decide
        · split at h
          · rename_i hslash
            exact hslash ▸ by decide
          · cases h

/-- The symbol of a number. -/
theorem symbol_of_value? {c : Char} {n : Nat} (h : value? c = some n) : n < 64 ∧ c = symbol n := by
  have hall : ∀ m < 128, ∀ n ∈ value? (Char.ofNat m), n < 64 ∧ Char.ofNat m = symbol n := by
    decide +kernel
  have hc := hall c.toNat (toNat_lt_of_value? h) n
  rw [Char.ofNat_toNat] at hc
  exact hc h

/-! ## Reading -/

/-- A byte by its number. -/
theorem ofNat_eq {x : UInt8} {n : Nat} (h : n = x.toNat) : UInt8.ofNat n = x := by
  rw [h, UInt8.ofNat_toNat]

/-- Bytes are read from what they are written as. -/
theorem decode?_encode (bytes : List UInt8) : decode? (encode bytes) = some bytes := by
  fun_induction encode bytes with
  | case1 => rfl
  | case2 x n =>
    have hx : n < 256 := x.toNat_lt
    have hbyte : UInt8.ofNat (n / 4 * 4 + n % 4 * 16 / 16) = x := ofNat_eq (by omega)
    rw [decode?, lastByte?, value?_symbol (by omega), value?_symbol (by omega)]
    dsimp only [Option.bind_eq_bind, Option.bind_some]
    rw [if_pos (by omega), hbyte]
  | case3 x y n =>
    have hx : x.toNat < 256 := x.toNat_lt
    have hy : y.toNat < 256 := y.toNat_lt
    have hfirst : UInt8.ofNat (n / 1024 * 4 + n / 16 % 64 / 16) = x := ofNat_eq (by omega)
    have hsecond : UInt8.ofNat (n / 16 % 64 % 16 * 16 + n % 16 * 4 / 4) = y := ofNat_eq (by omega)
    rw [decode?, lastBytes?, value?_symbol (by omega), value?_symbol (by omega),
      value?_symbol (by omega)]
    · dsimp only [Option.bind_eq_bind, Option.bind_some]
      rw [if_pos (by omega), hfirst, hsecond]
    · exact symbol_ne_equals (by omega)
  | case4 x y z rest n ih =>
    have hx : x.toNat < 256 := x.toNat_lt
    have hy : y.toNat < 256 := y.toNat_lt
    have hz : z.toNat < 256 := z.toNat_lt
    have hfirst : UInt8.ofNat (n / 262144 * 4 + n / 4096 % 64 / 16) = x := ofNat_eq (by omega)
    have hsecond : UInt8.ofNat (n / 4096 % 64 % 16 * 16 + n / 64 % 64 / 4) = y :=
      ofNat_eq (by omega)
    have hthird : UInt8.ofNat (n / 64 % 64 % 4 * 64 + n % 64) = z := ofNat_eq (by omega)
    have hlast : symbol (n % 64) ≠ '=' := symbol_ne_equals (by omega)
    rw [decode?, group?, value?_symbol (by omega), value?_symbol (by omega),
      value?_symbol (by omega), value?_symbol (by omega), ih]
    · dsimp only [Option.bind_eq_bind, Option.bind_some]
      rw [hfirst, hsecond, hthird]
      rfl
    · exact fun _ h => absurd h hlast
    · exact fun h => absurd h hlast

/-! ## Writing -/

/-- The number of a byte. -/
theorem toNat_ofNat {n : Nat} (h : n < 256) : (UInt8.ofNat n).toNat = n :=
  UInt8.toNat_ofNat_of_lt h

/-- A last group of one byte. -/
theorem encode_of_lastByte? {p q : Char} {bytes : List UInt8} (h : lastByte? p q = some bytes) :
    encode bytes = [p, q, '=', '='] := by
  obtain ⟨m, hm, hq⟩ := Option.bind_eq_some_iff.mp h
  obtain ⟨n, hn, hbytes⟩ := Option.bind_eq_some_iff.mp hq
  obtain ⟨hm64, rfl⟩ := symbol_of_value? hm
  obtain ⟨hn64, rfl⟩ := symbol_of_value? hn
  split at hbytes
  · obtain rfl := Option.some.inj hbytes
    have hfirst : (m * 4 + n / 16) / 4 = m := by omega
    have hsecond : (m * 4 + n / 16) % 4 * 16 = n := by omega
    rw [encode, toNat_ofNat (by omega), hfirst, hsecond]
  · cases hbytes

/-- A last group of two bytes. -/
theorem encode_of_lastBytes? {p q r : Char} {bytes : List UInt8}
    (h : lastBytes? p q r = some bytes) : encode bytes = [p, q, r, '='] := by
  obtain ⟨m, hm, hq⟩ := Option.bind_eq_some_iff.mp h
  obtain ⟨n, hn, hr⟩ := Option.bind_eq_some_iff.mp hq
  obtain ⟨k, hk, hbytes⟩ := Option.bind_eq_some_iff.mp hr
  obtain ⟨hm64, rfl⟩ := symbol_of_value? hm
  obtain ⟨hn64, rfl⟩ := symbol_of_value? hn
  obtain ⟨hk64, rfl⟩ := symbol_of_value? hk
  split at hbytes
  · obtain rfl := Option.some.inj hbytes
    generalize hbits : (m * 4 + n / 16) * 256 + (n % 16 * 16 + k / 4) = bits
    have hfirst : bits / 1024 = m := by omega
    have hsecond : bits / 16 % 64 = n := by omega
    have hthird : bits % 16 * 4 = k := by omega
    rw [encode, toNat_ofNat (by omega), toNat_ofNat (by omega), hbits, hfirst, hsecond, hthird]
  · cases hbytes

/-- A group of three bytes, with bytes behind it. -/
theorem encode_of_group? {p q r s : Char} {bytes : List UInt8} (h : group? p q r s = some bytes)
    (rest : List UInt8) : encode (bytes ++ rest) = p :: q :: r :: s :: encode rest := by
  obtain ⟨m, hm, hq⟩ := Option.bind_eq_some_iff.mp h
  obtain ⟨n, hn, hr⟩ := Option.bind_eq_some_iff.mp hq
  obtain ⟨k, hk, hs⟩ := Option.bind_eq_some_iff.mp hr
  obtain ⟨l, hl, hbytes⟩ := Option.bind_eq_some_iff.mp hs
  obtain ⟨hm64, rfl⟩ := symbol_of_value? hm
  obtain ⟨hn64, rfl⟩ := symbol_of_value? hn
  obtain ⟨hk64, rfl⟩ := symbol_of_value? hk
  obtain ⟨hl64, rfl⟩ := symbol_of_value? hl
  obtain rfl := Option.some.inj hbytes
  generalize hbits :
    ((m * 4 + n / 16) * 256 + (n % 16 * 16 + k / 4)) * 256 + (k % 4 * 64 + l) = bits
  have hfirst : bits / 262144 = m := by omega
  have hsecond : bits / 4096 % 64 = n := by omega
  have hthird : bits / 64 % 64 = k := by omega
  have hfourth : bits % 64 = l := by omega
  rw [List.cons_append, List.cons_append, List.cons_append, List.nil_append, encode,
    toNat_ofNat (by omega), toNat_ofNat (by omega), toNat_ofNat (by omega), hbits, hfirst, hsecond,
    hthird, hfourth]

/-- A text that is read as some bytes is what they are written as. -/
theorem encode_of_decode? {t : Text} {bytes : List UInt8} (h : decode? t = some bytes) :
    encode bytes = t := by
  fun_induction decode? t generalizing bytes with
  | case1 => exact Option.some.inj h ▸ rfl
  | case2 p q => exact encode_of_lastByte? h
  | case3 p q r => exact encode_of_lastBytes? h
  | case4 p q r s rest _ _ ih =>
    obtain ⟨first, hfirst, hrest⟩ := Option.bind_eq_some_iff.mp h
    obtain ⟨more, hmore, hbytes⟩ := Option.bind_eq_some_iff.mp hrest
    rw [← Option.some.inj hbytes, encode_of_group? hfirst, ih hmore]
  | case5 => cases h

/-- Bytes have one written form, and no other text is read as them. -/
theorem decode?_eq_some_iff {t : Text} {bytes : List UInt8} :
    decode? t = some bytes ↔ t = encode bytes :=
  ⟨fun h => (encode_of_decode? h).symm, fun h => h ▸ decode?_encode bytes⟩

/-- A written form holds no blanks. -/
theorem isBlank_of_mem_encode {bytes : List UInt8} {c : Char} (h : c ∈ encode bytes) :
    Text.isBlank c = false := by
  have hequals : Text.isBlank '=' = false := by decide
  fun_induction encode bytes with
  | case1 => cases h
  | case2 x n =>
    have hx : n < 256 := x.toNat_lt
    simp only [List.mem_cons, List.not_mem_nil, or_false] at h
    obtain rfl | rfl | rfl | rfl := h
    · exact isBlank_symbol (by omega)
    · exact isBlank_symbol (by omega)
    · exact hequals
    · exact hequals
  | case3 x y n =>
    have hx : x.toNat < 256 := x.toNat_lt
    have hy : y.toNat < 256 := y.toNat_lt
    simp only [List.mem_cons, List.not_mem_nil, or_false] at h
    obtain rfl | rfl | rfl | rfl := h
    · exact isBlank_symbol (by omega)
    · exact isBlank_symbol (by omega)
    · exact isBlank_symbol (by omega)
    · exact hequals
  | case4 x y z rest n ih =>
    have hx : x.toNat < 256 := x.toNat_lt
    have hy : y.toNat < 256 := y.toNat_lt
    have hz : z.toNat < 256 := z.toNat_lt
    simp only [List.mem_cons] at h
    obtain rfl | rfl | rfl | rfl | h := h
    · exact isBlank_symbol (by omega)
    · exact isBlank_symbol (by omega)
    · exact isBlank_symbol (by omega)
    · exact isBlank_symbol (by omega)
    · exact ih h

end Smali.Base64
