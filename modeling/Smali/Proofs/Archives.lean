import Smali.Archive.Cipher
import Smali.Proofs.Base64Texts
import Smali.Proofs.BlockCipher

/-!
# Archives

The Base64 text of an archive may be wrapped: blanks anywhere in it change nothing. Behind the
initial vector of one block stands the ciphertext, which holds at least one block, since a plaintext
is always padded. So every plaintext is found again, with a key of any admissible length, and what
has fewer than two blocks, or a block that is not whole, is refused.
-/

namespace Smali

/-! ## Blanks -/

/-- A text, and the same text with blanks put anywhere into it. -/
inductive Text.Wrapped : Text → Text → Prop
  /-- Nothing is left. -/
  | nil : Wrapped [] []
  /-- The next character of the text. -/
  | keep {t wrapped : Text} (c : Char) (rest : Wrapped t wrapped) : Wrapped (c :: t) (c :: wrapped)
  /-- A blank that was put in. -/
  | blank {t wrapped : Text} {c : Char} (isBlank : Text.isBlank c = true)
      (rest : Wrapped t wrapped) : Wrapped t (c :: wrapped)

namespace Text.Wrapped

variable {t wrapped : Text}

/-- No blanks need be put in. -/
theorem refl (t : Text) : Wrapped t t := by
  induction t with
  | nil => exact .nil
  | cons c t ih => exact .keep c ih

/-- A blank put in at one place. -/
theorem insert {c : Char} (hc : Text.isBlank c = true) (front back : Text) :
    Wrapped (front ++ back) (front ++ c :: back) := by
  induction front with
  | nil => exact .blank hc (refl back)
  | cons d front ih => exact .keep d ih

/-- Without its blanks a wrapped text is what was wrapped. -/
theorem filter_eq (h : Wrapped t wrapped) (ht : ∀ c ∈ t, Text.isBlank c = false) :
    wrapped.filter (!Text.isBlank ·) = t := by
  induction h with
  | nil => rfl
  | keep c rest ih =>
    obtain ⟨hc, ht⟩ := List.forall_mem_cons.mp ht
    rw [List.filter_cons_of_pos (by rw [hc]; rfl), ih ht]
  | blank hc rest ih => rw [List.filter_cons_of_neg (by rw [hc]; decide), ih ht]

end Text.Wrapped

namespace Cipher

/-- Wrapped Base64 text is decoded like the text itself. -/
theorem decodeBase64_of_wrapped {data : List UInt8} {archive : Text}
    (h : Text.Wrapped (Base64.encode data) archive) : decodeBase64 archive = .ok data := by
  rw [decodeBase64, h.filter_eq fun _ => Base64.isBlank_of_mem_encode, Base64.decode?_encode]

/-- A cipher with a key of an admissible length. -/
theorem exists_ofKey {key : List UInt8}
    (h : key.length = 16 ∨ key.length = 24 ∨ key.length = 32) :
    ∃ c, ofKey key = .ok c ∧ c.key = key :=
  ⟨⟨key, h⟩, dif_pos h, rfl⟩

/-- An initial vector with a ciphertext behind it. -/
theorem decryptBytes_encrypt (c : Cipher) {iv : List UInt8} (hiv : iv.length = Aes.blockSize)
    (plain : List UInt8) : c.decryptBytes (iv ++ Aes.encrypt c.key iv plain) = .ok plain := by
  have hlong : ¬(iv ++ Aes.encrypt c.key iv plain).length < Aes.blockSize := by
    rw [List.length_append, hiv, Nat.not_lt]
    exact Nat.le_add_right _ _
  rw [decryptBytes, if_neg hlong, List.take_left' hiv, List.drop_left' hiv, Aes.decrypt?_encrypt]

/-- Bytes that are no initial vector with whole blocks behind it. -/
theorem exists_fault_of_ragged (c : Cipher) {data : List UInt8}
    (h : data.length < 32 ∨ data.length % 16 ≠ 0) :
    ∃ details, c.decryptBytes data = .error (.plain .decrypt details) := by
  unfold decryptBytes
  split
  · exact ⟨_, rfl⟩
  · rename_i hlong
    have hcipher : data.drop Aes.blockSize = [] ∨
        (data.drop Aes.blockSize).length % Aes.blockSize ≠ 0 := by
      rw [← List.length_eq_zero_iff, List.length_drop]
      unfold Aes.blockSize at hlong ⊢
      omega
    rw [Aes.decrypt?_eq_none _ _ hcipher]
    exact ⟨_, rfl⟩

/-- With every key of an admissible length an archive is decrypted to the plaintext it was made of,
however its Base64 text is wrapped. Base64 text of fewer than 32 bytes, or of bytes whose number is
no multiple of 16, is refused. -/
theorem archives_decrypt {key : List UInt8}
    (hkey : key.length = 16 ∨ key.length = 24 ∨ key.length = 32) :
    ∃ c, ofKey key = .ok c ∧
      (∀ iv plain archive, iv.length = 16 →
        Text.Wrapped (Base64.encode (iv ++ Aes.encrypt key iv plain)) archive →
          c.decrypt archive = .ok plain) ∧
      ∀ text data archive, Base64.decode? text = some data →
        (data.length < 32 ∨ data.length % 16 ≠ 0) → Text.Wrapped text archive →
          ∃ fault, c.decrypt archive = .error fault ∧ fault.kind = .decrypt := by
  obtain ⟨c, hc, rfl⟩ := exists_ofKey hkey
  refine ⟨c, hc, fun iv plain archive hiv harchive => ?_,
    fun text data archive htext hdata harchive => ?_⟩
  · rw [decrypt, decodeBase64_of_wrapped harchive]
    exact c.decryptBytes_encrypt hiv plain
  · obtain rfl := Base64.decode?_eq_some_iff.mp htext
    obtain ⟨details, hdetails⟩ := c.exists_fault_of_ragged hdata
    refine ⟨.plain .decrypt details, ?_, rfl⟩
    rw [decrypt, decodeBase64_of_wrapped harchive]
    exact hdetails

/-- A plaintext of three bytes with a key of 24 bytes, its text broken into two lines, and three
bytes that are no archive. -/
theorem archives_decrypt_short :
    let key : List UInt8 := List.replicate 24 7
    let iv : List UInt8 := List.replicate 16 1
    let text := Base64.encode (iv ++ Aes.encrypt key iv [80, 75, 3])
    ∃ c, ofKey key = .ok c ∧
      c.decrypt (text.take 20 ++ '\n' :: text.drop 20) = .ok [80, 75, 3] ∧
      ∃ fault, c.decrypt "AA\nAA".toList = .error fault ∧ fault.kind = .decrypt := by
  intro key iv text
  have hkey : key.length = 16 ∨ key.length = 24 ∨ key.length = 32 := .inr (.inl (by decide))
  obtain ⟨c, hc, hplain, hragged⟩ := archives_decrypt hkey
  have hwrapped : Text.Wrapped text (text.take 20 ++ '\n' :: text.drop 20) := by
    have hinsert := Text.Wrapped.insert (c := '\n') (by decide) (text.take 20) (text.drop 20)
    rwa [List.take_append_drop] at hinsert
  exact ⟨c, hc, hplain iv [80, 75, 3] _ (by decide) hwrapped,
    hragged "AAAA" [0, 0, 0] _ (by decide) (.inl (by decide))
      (.insert (c := '\n') (by decide) ['A', 'A'] ['A', 'A'])⟩

end Cipher

end Smali
