import Smali.Archive.Aes

/-!
# Chained encryption with padding

Each block is added to the ciphertext of the block before it, the first one to
the initial vector, and then encrypted. A plaintext is filled up to whole blocks
with as many bytes as are missing, at least one, each holding that number.
-/

namespace Smali.Aes

/-- The bytes of a block. -/
def blockSize : Nat := 16

/-- Encrypts blocks behind a ciphertext block. -/
def chainEncrypt (keys : List Block) : Block → List Block → List Block
  | _, [] => []
  | before, x :: rest =>
    let y := encryptBlock keys (x.add before)
    y :: chainEncrypt keys y rest

/-- Decrypts blocks behind a ciphertext block. -/
def chainDecrypt (keys : List Block) : Block → List Block → List Block
  | _, [] => []
  | before, y :: rest => (decryptBlock keys y).add before :: chainDecrypt keys y rest

/-- A plaintext filled up to whole blocks. -/
def pad (bytes : List UInt8) : List UInt8 :=
  let missing := blockSize - bytes.length % blockSize
  bytes ++ List.replicate missing (UInt8.ofNat missing)

/-- A plaintext without the bytes that fill it up, if they are as they should be. -/
def unpad? (bytes : List UInt8) : Option (List UInt8) :=
  match bytes.getLast? with
  | none => none
  | some last =>
    let n := last.toNat
    if 0 < n ∧ n ≤ blockSize ∧ n ≤ bytes.length ∧
        (bytes.drop (bytes.length - n)).all (· == last) then
      some (bytes.take (bytes.length - n))
    else none

/-- The first block of a list of bytes. -/
def firstBlock (bytes : List UInt8) : Block := (blocksOf bytes).headD default

/-- Encrypts a plaintext of any length. -/
def encrypt (key iv plain : List UInt8) : List UInt8 :=
  ((chainEncrypt (roundKeys key) (firstBlock iv) (blocksOf (pad plain))).map Block.toList).flatten

/-- Decrypts whole blocks and takes the padding away. There is no plaintext if the
blocks are not whole or the padding is not as it should be. -/
def decrypt? (key iv cipher : List UInt8) : Option (List UInt8) :=
  if cipher.length % blockSize = 0 then
    unpad?
      ((chainDecrypt (roundKeys key) (firstBlock iv) (blocksOf cipher)).map Block.toList).flatten
  else none

end Smali.Aes
