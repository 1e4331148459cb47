import Smali.Archive.Cbc
import Smali.Proofs.ByteField

/-!
# Decryption of blocks

Every step of a round is undone by its inverse, whatever the round key is: a sum by the same sum,
the substitution by the other table, the rotated rows by rows that are rotated back, and the mixed
columns by a second product. So the rounds of a list of keys are undone in reverse order, and blocks
that are chained are decrypted one by one. The last byte of a padded plaintext says how much of it
is padding, so that the plaintext is found again.
-/

namespace Smali.Aes

/-! ## Columns -/

/-- A byte that is added twice is gone. -/
theorem xor_left_cancel (x y : UInt8) : x ^^^ (x ^^^ y) = y := by
  rw [← UInt8.xor_assoc, UInt8.xor_self, UInt8.zero_xor]

/-- The same, with the byte behind. -/
theorem xor_right_cancel (x y : UInt8) : x ^^^ y ^^^ y = x := by
  rw [UInt8.xor_assoc, UInt8.xor_self, UInt8.xor_zero]

/-- Sums in any order. -/
theorem xor_left_comm (x y z : UInt8) : x ^^^ (y ^^^ z) = y ^^^ (x ^^^ z) := by
  ac_rfl

/-- A row of the product that mixes a column. -/
def mixed (p q r s : UInt8) : UInt8 := double p ^^^ (double q ^^^ q) ^^^ r ^^^ s

/-- A row of the product that mixes it back. -/
def unmixed (p q r s : UInt8) : UInt8 :=
  mulBits 4 p 14 ^^^ mulBits 4 q 11 ^^^ mulBits 4 r 13 ^^^ mulBits 4 s 9

/-- The factors of that row are sums of one, two, four and eight. -/
theorem mulBits_factors (x : UInt8) :
    mulBits 4 x 14 = double (double (double x)) ^^^ double (double x) ^^^ double x ∧
      mulBits 4 x 11 = double (double (double x)) ^^^ double x ^^^ x ∧
      mulBits 4 x 13 = double (double (double x)) ^^^ double (double x) ^^^ x ∧
      mulBits 4 x 9 = double (double (double x)) ^^^ x := by
  simp +decide only [mulBits, if_true, if_false, UInt8.zero_xor, UInt8.xor_zero]
  refine ⟨?_, ?_, ?_, ?_⟩ <;> ac_rfl

/-- A column is mixed row by row. -/
theorem mixColumn_eq (w : Word) :
    mixColumn w = ⟨mixed w.a w.b w.c w.d, mixed w.b w.c w.d w.a, mixed w.c w.d w.a w.b,
      mixed w.d w.a w.b w.c⟩ := rfl

/-- It is mixed back row by row. -/
theorem unmixColumn_eq (w : Word) :
    unmixColumn w = ⟨unmixed w.a w.b w.c w.d, unmixed w.b w.c w.d w.a, unmixed w.c w.d w.a w.b,
      unmixed w.d w.a w.b w.c⟩ := by
  simp only [unmixed, mulBits_factors]
  rfl

/-- What a byte adds to the first row of the product of both matrices, and what it adds to the
others. -/
theorem factors_cancel (x : UInt8) :
    double (mulBits 4 x 14) ^^^ mulBits 4 x 11 ^^^ mulBits 4 x 13 ^^^
        (double (mulBits 4 x 9) ^^^ mulBits 4 x 9) = x ∧
      double (mulBits 4 x 14) ^^^ mulBits 4 x 14 ^^^ double (mulBits 4 x 11) ^^^
        mulBits 4 x 13 ^^^ mulBits 4 x 9 = 0 ∧
      mulBits 4 x 14 ^^^ (double (mulBits 4 x 11) ^^^ mulBits 4 x 11) ^^^
        double (mulBits 4 x 13) ^^^ mulBits 4 x 9 = 0 ∧
      mulBits 4 x 14 ^^^ mulBits 4 x 11 ^^^ (double (mulBits 4 x 13) ^^^ mulBits 4 x 13) ^^^
        double (mulBits 4 x 9) = 0 := by
  simp only [mulBits_factors, double_xor, UInt8.xor_comm, xor_left_comm, xor_left_cancel,
    UInt8.xor_self, UInt8.xor_zero, and_self]

/-- The first row of the product of both matrices gives the first byte. -/
theorem unmixed_mixed (a b c d : UInt8) :
    unmixed (mixed a b c d) (mixed b c d a) (mixed c d a b) (mixed d a b c) = a := by
  obtain ⟨ha, -, -, -⟩ := factors_cancel a
  obtain ⟨-, hb, -, -⟩ := factors_cancel b
  obtain ⟨-, -, hc, -⟩ := factors_cancel c
  obtain ⟨-, -, -, hd⟩ := factors_cancel d
  calc unmixed (mixed a b c d) (mixed b c d a) (mixed c d a b) (mixed d a b c)
    _ = (double (mulBits 4 a 14) ^^^ mulBits 4 a 11 ^^^ mulBits 4 a 13 ^^^
          (double (mulBits 4 a 9) ^^^ mulBits 4 a 9)) ^^^
        (double (mulBits 4 b 14) ^^^ mulBits 4 b 14 ^^^ double (mulBits 4 b 11) ^^^
          mulBits 4 b 13 ^^^ mulBits 4 b 9) ^^^
        (mulBits 4 c 14 ^^^ (double (mulBits 4 c 11) ^^^ mulBits 4 c 11) ^^^
          double (mulBits 4 c 13) ^^^ mulBits 4 c 9) ^^^
        (mulBits 4 d 14 ^^^ mulBits 4 d 11 ^^^ (double (mulBits 4 d 13) ^^^ mulBits 4 d 13) ^^^
          double (mulBits 4 d 9)) := by
      simp only [unmixed, mixed, mulBits_xor, mulBits_double]
      ac_rfl
    _ = a := by rw [ha, hb, hc, hd, UInt8.xor_zero, UInt8.xor_zero, UInt8.xor_zero]

/-- A mixed column is mixed back. The rows are the first one, rotated. -/
@[simp]
theorem unmixColumn_mixColumn (w : Word) : unmixColumn (mixColumn w) = w := by
  obtain ⟨a, b, c, d⟩ := w
  rw [mixColumn_eq, unmixColumn_eq, unmixed_mixed, unmixed_mixed, unmixed_mixed, unmixed_mixed]

/-! ## Rounds -/

/-- A word that is added twice is gone. -/
theorem Word.add_add (v w : Word) : (v.add w).add w = v := by
  simp only [Word.add, xor_right_cancel]

/-- A substituted word is restored. -/
@[simp]
theorem Word.map_unsub_sub (w : Word) : (w.map sub).map unsub = w := by
  simp only [Word.map, unsub_sub]

namespace Block

/-- A block that is added twice is gone. -/
@[simp]
theorem add_add (x y : Block) : (x.add y).add y = x := by
  simp only [add, Word.add_add]

/-- What undoes each column undoes the block. -/
theorem map_map {f g : Word → Word} (h : ∀ w, f (g w) = w) (x : Block) : (x.map g).map f = x := by
  simp only [map, h]

end Block

/-- Rotated rows are rotated back. -/
@[simp]
theorem unshiftRows_shiftRows (x : Block) : unshiftRows (shiftRows x) = x := rfl

/-- The last round is taken back. -/
theorem unlastRound_lastRound (key x : Block) : unlastRound key (lastRound key x) = x := by
  rw [unlastRound, lastRound, Block.add_add, unshiftRows_shiftRows,
    Block.map_map Word.map_unsub_sub]

/-- A round is taken back. -/
theorem unround_round (key x : Block) : unround key (round key x) = x := by
  rw [unround, round, Block.add_add, Block.map_map unmixColumn_mixColumn, unshiftRows_shiftRows,
    Block.map_map Word.map_unsub_sub]

/-- Rounds are taken back from the last to the first. -/
theorem unrounds_rounds (keys : List Block) (x : Block) : unrounds keys (rounds keys x) = x := by
  induction keys generalizing x with
  | nil => rfl
  | cons key more ih =>
    rw [rounds.eq_def, unrounds.eq_def]
    cases more with
    | nil => exact unlastRound_lastRound key x
    | cons next more =>
      exact (congrArg (unround key) (ih (round key x))).trans (unround_round key x)

/-- An encrypted block is decrypted with the same keys. -/
theorem decryptBlock_encryptBlock (keys : List Block) (x : Block) :
    decryptBlock keys (encryptBlock keys x) = x := by
  cases keys with
  | nil => rfl
  | cons key more => rw [encryptBlock, decryptBlock, unrounds_rounds, Block.add_add]

/-- Chained blocks are decrypted behind the same block. -/
theorem chainDecrypt_chainEncrypt (keys : List Block) (before : Block) (xs : List Block) :
    chainDecrypt keys before (chainEncrypt keys before xs) = xs := by
  induction xs generalizing before with
  | nil => rfl
  | cons x xs ih =>
    rw [chainEncrypt, chainDecrypt, decryptBlock_encryptBlock, Block.add_add, ih]

/-! ## Bytes -/

/-- The bytes of blocks. -/
def bytesOf (xs : List Block) : List UInt8 := (xs.map Block.toList).flatten

/-- The blocks of the bytes of blocks. -/
@[simp]
theorem blocksOf_bytesOf (xs : List Block) : blocksOf (bytesOf xs) = xs := by
  induction xs with
  | nil => rfl
  | cons x xs ih => exact congrArg (x :: ·) ih

/-- A block has sixteen bytes. -/
theorem length_bytesOf (xs : List Block) : (bytesOf xs).length = blockSize * xs.length := by
  induction xs with
  | nil => rfl
  | cons x xs ih =>
    have hcons : (bytesOf (x :: xs)).length = blockSize + (bytesOf xs).length :=
      List.length_append
    rw [hcons, ih, List.length_cons, Nat.mul_succ, Nat.add_comm]

/-- Sixteen bytes are a block. -/
theorem exists_block {bytes : List UInt8} (h : bytes.length = blockSize) :
    ∃ x : Block, x.toList = bytes :=
  match bytes, h with
  | [a₀, b₀, c₀, d₀, a₁, b₁, c₁, d₁, a₂, b₂, c₂, d₂, a₃, b₃, c₃, d₃], _ =>
    ⟨⟨⟨a₀, b₀, c₀, d₀⟩, ⟨a₁, b₁, c₁, d₁⟩, ⟨a₂, b₂, c₂, d₂⟩, ⟨a₃, b₃, c₃, d₃⟩⟩, rfl⟩

/-- Bytes whose number is a multiple of sixteen are blocks. -/
theorem exists_bytesOf {n : Nat} {bytes : List UInt8} (h : bytes.length = blockSize * n) :
    ∃ xs, bytesOf xs = bytes := by
  induction n generalizing bytes with
  | zero => exact ⟨[], (List.length_eq_zero_iff.mp h).symm⟩
  | succ n ih =>
    rw [Nat.mul_succ] at h
    have hfirst : (bytes.take blockSize).length = blockSize := by simp [h]
    have hrest : (bytes.drop blockSize).length = blockSize * n := by simp [h]
    obtain ⟨x, hx⟩ := exists_block hfirst
    obtain ⟨xs, hxs⟩ := ih hrest
    refine ⟨x :: xs, ?_⟩
    calc bytesOf (x :: xs) = x.toList ++ bytesOf xs := rfl
      _ = bytes := by rw [hx, hxs, List.take_append_drop]

/-! ## Padding -/

/-- The length of a padded plaintext. -/
theorem length_pad (bytes : List UInt8) :
    (pad bytes).length = blockSize * (bytes.length / blockSize + 1) := by
  simp only [pad, blockSize, List.length_append, List.length_replicate]
  omega

/-- The padding is taken away again. -/
theorem unpad?_pad (bytes : List UInt8) : unpad? (pad bytes) = some bytes := by
  obtain ⟨missing, hmissing⟩ : ∃ m, blockSize - bytes.length % blockSize = m + 1 :=
    ⟨blockSize - bytes.length % blockSize - 1, by unfold blockSize; omega⟩
  have hle : missing + 1 ≤ blockSize := hmissing ▸ Nat.sub_le _ _
  have hlast : (pad bytes).getLast? = some (UInt8.ofNat (missing + 1)) := by
    simp [pad, hmissing, List.getLast?_append, List.getLast?_replicate]
  have hcount : (UInt8.ofNat (missing + 1)).toNat = missing + 1 := by
    rw [UInt8.toNat_ofNat', Nat.mod_eq_of_lt]
    unfold blockSize at hle
    omega
  have hlength : (pad bytes).length - (missing + 1) = bytes.length := by
    simp [pad, hmissing]
  have hdrop : (pad bytes).drop bytes.length =
      List.replicate (missing + 1) (UInt8.ofNat (missing + 1)) := by
    simp [pad, hmissing]
  have htake : (pad bytes).take bytes.length = bytes := by
    simp [pad]
  rw [unpad?, hlast]
  dsimp only
  rw [hcount, hlength, hdrop, htake, if_pos]
  refine ⟨Nat.succ_pos _, hle, ?_, ?_⟩
  · simp [pad, hmissing]
  · simp

/-! ## Plaintexts -/

/-- The length of a chain. -/
theorem length_chainEncrypt (keys : List Block) (before : Block) (xs : List Block) :
    (chainEncrypt keys before xs).length = xs.length := by
  induction xs generalizing before with
  | nil => rfl
  | cons x xs ih => rw [chainEncrypt, List.length_cons, ih, List.length_cons]

/-- A ciphertext is the bytes of the chain over the blocks of the padded plaintext. -/
theorem exists_blocks (plain : List UInt8) :
    ∃ xs, bytesOf xs = pad plain ∧ xs.length = plain.length / blockSize + 1 := by
  obtain ⟨xs, hxs⟩ := exists_bytesOf (length_pad plain)
  refine ⟨xs, hxs, ?_⟩
  have hlength := length_pad plain
  rw [← hxs, length_bytesOf] at hlength
  exact Nat.eq_of_mul_eq_mul_left (by decide) hlength

/-- The length of a ciphertext. -/
theorem length_encrypt (key iv plain : List UInt8) :
    (encrypt key iv plain).length = blockSize * (plain.length / blockSize + 1) := by
  obtain ⟨xs, hxs, hlength⟩ := exists_blocks plain
  rw [← hlength, ← length_chainEncrypt (roundKeys key) (firstBlock iv) xs, ← length_bytesOf,
    encrypt, ← hxs, blocksOf_bytesOf, bytesOf]

/-- A plaintext is found again, whatever the key and the initial vector are. -/
theorem decrypt?_encrypt (key iv plain : List UInt8) :
    decrypt? key iv (encrypt key iv plain) = some plain := by
  obtain ⟨xs, hxs, -⟩ := exists_blocks plain
  have hcipher : encrypt key iv plain =
      bytesOf (chainEncrypt (roundKeys key) (firstBlock iv) xs) := by
    rw [encrypt, ← hxs, blocksOf_bytesOf, bytesOf]
  have hwhole : (encrypt key iv plain).length % blockSize = 0 := by
    rw [length_encrypt, Nat.mul_mod_right]
  rw [decrypt?, if_pos hwhole, hcipher, blocksOf_bytesOf, chainDecrypt_chainEncrypt]
  exact (congrArg unpad? hxs).trans (unpad?_pad plain)

/-- There is no plaintext without blocks, nor where a block is not whole. -/
theorem decrypt?_eq_none {cipher : List UInt8} (key iv : List UInt8)
    (h : cipher = [] ∨ cipher.length % blockSize ≠ 0) : decrypt? key iv cipher = none := by
  obtain rfl | h := h
  · rfl
  · exact if_neg h

end Smali.Aes
