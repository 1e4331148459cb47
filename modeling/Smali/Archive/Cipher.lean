import Smali.Archive.Base64
import Smali.Archive.Cbc
import Smali.Archive.KeyTable

/-!
# Archive ciphers

An archive is Base64 text, possibly wrapped. It holds an initial vector of one
block, then the chained ciphertext of the archive.
-/

namespace Smali

/-- A key of an admissible length. -/
structure Cipher where
  /-- The bytes of the key. -/
  key : List UInt8
  /-- Keys have 16, 24 or 32 bytes. -/
  length_key : key.length = 16 ∨ key.length = 24 ∨ key.length = 32

namespace Cipher

/-- The cipher of a key. -/
def ofKey (key : List UInt8) : Except Fault Cipher :=
  if h : key.length = 16 ∨ key.length = 24 ∨ key.length = 32 then .ok ⟨key, h⟩
  else
    .error (.plain .decrypt
      ("invalid key length " ++ Text.decimal key.length ++ ", expected 16, 24 or 32 bytes"))

/-- The bytes of Base64 text; blanks in it do not count. -/
def decodeBase64 (t : Text) : Except Fault (List UInt8) :=
  match Base64.decode? (t.filter (!Text.isBlank ·)) with
  | some bytes => .ok bytes
  | none => .error (.plain .decrypt "invalid base64")

/-- The cipher of a key in Base64. -/
def ofBase64 (t : Text) : Except Fault Cipher := do ofKey (← decodeBase64 t)

/-- The cipher for a version. -/
def forVersion (table : KeyTable) (version : Text) : Except Fault Cipher := do
  ofBase64 (← table.get version).encodedKey

/-- The length of the key in bits. -/
def keyBits (c : Cipher) : Nat := c.key.length * 8

/-- The name of a cipher, which does not give its key away. -/
def label (c : Cipher) : Text := "EsaCipher(aes-" ++ Text.decimal c.keyBits ++ ")"

/-- Decrypts an initial vector with the ciphertext behind it. -/
def decryptBytes (c : Cipher) (data : List UInt8) : Except Fault (List UInt8) :=
  if data.length < Aes.blockSize then
    .error (.plain .decrypt
      ("payload of " ++ Text.decimal data.length ++ " bytes is shorter than the IV"))
  else
    match Aes.decrypt? c.key (data.take Aes.blockSize) (data.drop Aes.blockSize) with
    | some plain => .ok plain
    | none => .error (.plain .decrypt "bad padding, wrong key or corrupt payload")

/-- Decrypts an archive. -/
def decrypt (c : Cipher) (t : Text) : Except Fault (List UInt8) := do
  c.decryptBytes (← decodeBase64 t)

end Cipher

end Smali
