import Smali.Text.Basic

/-!
# Base64

Three bytes are written as four symbols of six bits each. A last group of one or
two bytes is written with two or three symbols and filled up with equals signs;
the bits that such a group does not need are zero.
-/

namespace Smali.Base64

/-- The symbol of a number below 64. -/
def symbol (n : Nat) : Char :=
  if n < 26 then Char.ofNat (0x41 + n)
  else if n < 52 then Char.ofNat (0x61 + (n - 26))
  else if n < 62 then Char.ofNat (0x30 + (n - 52))
  else if n = 62 then '+'
  else '/'

/-- The number of a symbol. -/
def value? (c : Char) : Option Nat :=
  if 'A' ≤ c ∧ c ≤ 'Z' then some (c.toNat - 0x41)
  else if 'a' ≤ c ∧ c ≤ 'z' then some (c.toNat - 0x61 + 26)
  else if '0' ≤ c ∧ c ≤ '9' then some (c.toNat - 0x30 + 52)
  else if c = '+' then some 62
  else if c = '/' then some 63
  else none

/-- The written form of bytes. -/
def encode : List UInt8 → Text
  | [] => []
  | [x] =>
    let n := x.toNat
    [symbol (n / 4), symbol (n % 4 * 16), '=', '=']
  | [x, y] =>
    let n := x.toNat * 256 + y.toNat
    [symbol (n / 1024), symbol (n / 16 % 64), symbol (n % 16 * 4), '=']
  | x :: y :: z :: rest =>
    let n := (x.toNat * 256 + y.toNat) * 256 + z.toNat
    symbol (n / 262144) :: symbol (n / 4096 % 64) :: symbol (n / 64 % 64) :: symbol (n % 64) ::
      encode rest

/-- The byte of two symbols. -/
def lastByte? (p q : Char) : Option (List UInt8) := do
  let p ← value? p
  let q ← value? q
  if q % 16 = 0 then some [UInt8.ofNat (p * 4 + q / 16)] else none

/-- The two bytes of three symbols. -/
def lastBytes? (p q r : Char) : Option (List UInt8) := do
  let p ← value? p
  let q ← value? q
  let r ← value? r
  if r % 4 = 0 then some [UInt8.ofNat (p * 4 + q / 16), UInt8.ofNat (q % 16 * 16 + r / 4)]
  else none

/-- The three bytes of four symbols. -/
def group? (p q r s : Char) : Option (List UInt8) := do
  let p ← value? p
  let q ← value? q
  let r ← value? r
  let s ← value? s
  some [UInt8.ofNat (p * 4 + q / 16), UInt8.ofNat (q % 16 * 16 + r / 4),
    UInt8.ofNat (r % 4 * 64 + s)]

/-- The bytes of a written form. -/
def decode? : Text → Option (List UInt8)
  | [] => some []
  | [p, q, '=', '='] => lastByte? p q
  | [p, q, r, '='] => lastBytes? p q r
  | p :: q :: r :: s :: rest => do
    let bytes ← group? p q r s
    return bytes ++ (← decode? rest)
  | _ => none

end Smali.Base64
