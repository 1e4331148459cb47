/-!
# The AES block cipher

A block is four columns of four bytes. A round substitutes every byte, rotates
the rows, mixes each column and adds a round key; the last round does not mix.
Every step has an inverse, and decryption takes the inverse steps in reverse
order. Round keys are expanded from a key of four, six or eight words.
-/

namespace Smali.Aes

/-- Four bytes. -/
structure Word where
  a : UInt8
  b : UInt8
  c : UInt8
  d : UInt8
  deriving DecidableEq, Repr, Inhabited

/-- The bytewise sum of two words. -/
def Word.add (v w : Word) : Word := ⟨v.a ^^^ w.a, v.b ^^^ w.b, v.c ^^^ w.c, v.d ^^^ w.d⟩

/-- The word with a function applied to each byte. -/
def Word.map (f : UInt8 → UInt8) (w : Word) : Word := ⟨f w.a, f w.b, f w.c, f w.d⟩

/-- The bytes of a word. -/
def Word.toList (w : Word) : List UInt8 := [w.a, w.b, w.c, w.d]

/-- Four columns. -/
structure Block where
  c0 : Word
  c1 : Word
  c2 : Word
  c3 : Word
  deriving DecidableEq, Repr, Inhabited

namespace Block

/-- The sum of two blocks. -/
def add (x y : Block) : Block :=
  ⟨x.c0.add y.c0, x.c1.add y.c1, x.c2.add y.c2, x.c3.add y.c3⟩

/-- The block with a function applied to each column. -/
def map (f : Word → Word) (x : Block) : Block := ⟨f x.c0, f x.c1, f x.c2, f x.c3⟩

/-- The bytes of a block. -/
def toList (x : Block) : List UInt8 := x.c0.toList ++ x.c1.toList ++ x.c2.toList ++ x.c3.toList

end Block

/-! ## The field of bytes -/

/-- A byte multiplied by the unknown of the field's polynomials. -/
def double (x : UInt8) : UInt8 := (x <<< 1) ^^^ (if x < 0x80 then 0 else 0x1b)

/-- The product of two bytes, by the lowest `n` bits of the second. -/
def mulBits : Nat → UInt8 → UInt8 → UInt8
  | 0, _, _ => 0
  | n + 1, x, y => (if y &&& 1 = 1 then x else 0) ^^^ mulBits n (double x) (y >>> 1)

/-- The product of two bytes. -/
def mul (x y : UInt8) : UInt8 := mulBits 8 x y

/-- A power of a byte. -/
def power (x : UInt8) : Nat → UInt8
  | 0 => 1
  | n + 1 => mul x (power x n)

/-- A byte rotated to the left. -/
def rotate (x : UInt8) (n : UInt8) : UInt8 := (x <<< n) ||| (x >>> (8 - n))

/-- The substitute of a byte: its inverse in the field under an affine map. -/
def substitute (x : UInt8) : UInt8 :=
  let y := power x 254
  y ^^^ rotate y 1 ^^^ rotate y 2 ^^^ rotate y 3 ^^^ rotate y 4 ^^^ 0x63

/-- The byte with a substitute. -/
def restore (x : UInt8) : UInt8 :=
  power (rotate x 1 ^^^ rotate x 3 ^^^ rotate x 6 ^^^ 0x05) 254

/-- All substitutes. -/
def substitutes : Array UInt8 := Array.ofFn fun i : Fin 256 => substitute (UInt8.ofNat i)

/-- All bytes in the order of their substitutes. -/
def restored : Array UInt8 := Array.ofFn fun i : Fin 256 => restore (UInt8.ofNat i)

/-- The substitute of a byte, by the table. -/
def sub (x : UInt8) : UInt8 := substitutes.getD x.toNat 0

/-- The byte with a substitute, by the table. -/
def unsub (x : UInt8) : UInt8 := restored.getD x.toNat 0

/-! ## Steps of a round -/

/-- Rotates each row by its number. -/
def shiftRows (x : Block) : Block :=
  ⟨⟨x.c0.a, x.c1.b, x.c2.c, x.c3.d⟩, ⟨x.c1.a, x.c2.b, x.c3.c, x.c0.d⟩,
    ⟨x.c2.a, x.c3.b, x.c0.c, x.c1.d⟩, ⟨x.c3.a, x.c0.b, x.c1.c, x.c2.d⟩⟩

/-- Rotates each row back. -/
def unshiftRows (x : Block) : Block :=
  ⟨⟨x.c0.a, x.c3.b, x.c2.c, x.c1.d⟩, ⟨x.c1.a, x.c0.b, x.c3.c, x.c2.d⟩,
    ⟨x.c2.a, x.c1.b, x.c0.c, x.c3.d⟩, ⟨x.c3.a, x.c2.b, x.c1.c, x.c0.d⟩⟩

/-- Mixes a column: the polynomial `3z³ + z² + z + 2` times the column. -/
def mixColumn (w : Word) : Word :=
  let f (p q r s : UInt8) : UInt8 := double p ^^^ (double q ^^^ q) ^^^ r ^^^ s
  ⟨f w.a w.b w.c w.d, f w.b w.c w.d w.a, f w.c w.d w.a w.b, f w.d w.a w.b w.c⟩

/-- Mixes a column back: the polynomial `11z³ + 13z² + 9z + 14` times the column. -/
def unmixColumn (w : Word) : Word :=
  let two := double
  let four := fun x => double (double x)
  let eight := fun x => double (double (double x))
  let f (p q r s : UInt8) : UInt8 :=
    (eight p ^^^ four p ^^^ two p) ^^^ (eight q ^^^ two q ^^^ q) ^^^ (eight r ^^^ four r ^^^ r) ^^^
      (eight s ^^^ s)
  ⟨f w.a w.b w.c w.d, f w.b w.c w.d w.a, f w.c w.d w.a w.b, f w.d w.a w.b w.c⟩

/-- A round with its key. -/
def round (key x : Block) : Block :=
  ((shiftRows (x.map (Word.map sub))).map mixColumn).add key

/-- The last round with its key. -/
def lastRound (key x : Block) : Block := (shiftRows (x.map (Word.map sub))).add key

/-- A round taken back. -/
def unround (key x : Block) : Block :=
  (unshiftRows ((x.add key).map unmixColumn)).map (Word.map unsub)

/-- The last round taken back. -/
def unlastRound (key x : Block) : Block := (unshiftRows (x.add key)).map (Word.map unsub)

/-- The rounds of a list of keys, the last without mixing. -/
def rounds : List Block → Block → Block
  | [], x => x
  | [key], x => lastRound key x
  | key :: more, x => rounds more (round key x)

/-- The rounds of a list of keys taken back. -/
def unrounds : List Block → Block → Block
  | [], x => x
  | [key], x => unlastRound key x
  | key :: more, x => unround key (unrounds more x)

/-- Encrypts a block with round keys; the first is added before the first round. -/
def encryptBlock : List Block → Block → Block
  | [], x => x
  | key :: more, x => rounds more (x.add key)

/-- Decrypts a block with round keys. -/
def decryptBlock : List Block → Block → Block
  | [], x => x
  | key :: more, x => (unrounds more x).add key

/-! ## Round keys -/

/-- The words of a list of bytes. -/
def wordsOf : List UInt8 → List Word
  | a :: b :: c :: d :: rest => ⟨a, b, c, d⟩ :: wordsOf rest
  | _ => []

/-- The blocks of a list of words. -/
def blocksOfWords : List Word → List Block
  | c0 :: c1 :: c2 :: c3 :: rest => ⟨c0, c1, c2, c3⟩ :: blocksOfWords rest
  | _ => []

/-- The blocks of a list of bytes. -/
def blocksOf (bytes : List UInt8) : List Block := blocksOfWords (wordsOf bytes)

/-- What is added to the word one key length earlier, for the word with an index. -/
def scheduleWord (size index : Nat) (latest : Word) : Word :=
  if index % size = 0 then
    let w : Word := ⟨sub latest.b, sub latest.c, sub latest.d, sub latest.a⟩
    { w with a := w.a ^^^ power 2 (index / size - 1) }
  else if 6 < size ∧ index % size = 4 then latest.map sub
  else latest

/-- Expands a key of `size` words by `n` more. The words are listed latest first. -/
def expand (size : Nat) : Nat → List Word → List Word
  | 0, ws => ws
  | n + 1, ws =>
    let next := (scheduleWord size ws.length (ws.headD default)).add (ws.getD (size - 1) default)
    expand size n (next :: ws)

/-- The round keys of a key, one more than there are rounds. -/
def roundKeys (key : List UInt8) : List Block :=
  let ws := wordsOf key
  blocksOfWords (expand ws.length (4 * (ws.length + 7) - ws.length) ws.reverse).reverse

end Smali.Aes
