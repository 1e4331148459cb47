import Mathlib.Data.List.Iterate
import Mathlib.Data.Nat.Bitwise
import Mathlib.Dynamics.PeriodicPts.Defs
import Smali.Archive.Aes

/-!
# The field of bytes

Doubling a byte is additive, and a product only adds doubled bytes, so a product is additive in its
first factor, and a factor of three may be taken out of it. All bytes but zero are powers of three,
and the power 255 is one again. So to take the power 254 twice changes no byte: the exponent is one
more than a multiple of 255. This makes the table of restored bytes undo the table of substitutes.
-/

namespace Smali.Aes

/-! ## Products -/

/-- A statement about all bytes holds if it holds of each. -/
theorem forall_byte {P : UInt8 → Prop} (h : ∀ n < 256, P (UInt8.ofNat n)) (x : UInt8) : P x := by
  have hx := h x.toNat x.toNat_lt
  rwa [UInt8.ofNat_toNat] at hx

/-- The highest bit comes back at the places of the polynomial. -/
theorem double_eq (x : UInt8) :
    double x = x <<< 1 ^^^ (x >>> 7 ^^^ x >>> 7 <<< 1 ^^^ x >>> 7 <<< 3 ^^^ x >>> 7 <<< 4) := by
  revert x
  exact forall_byte (by decide +kernel)

/-- Doubling is additive. -/
theorem double_xor (x y : UInt8) : double (x ^^^ y) = double x ^^^ double y := by
  simp only [double_eq, UInt8.shiftLeft_xor, UInt8.shiftRight_xor]
  ac_rfl

/-- A product is additive in its first factor. -/
theorem mulBits_xor (n : Nat) (x x' y : UInt8) :
    mulBits n (x ^^^ x') y = mulBits n x y ^^^ mulBits n x' y := by
  induction n generalizing x x' y with
  | zero => exact UInt8.xor_zero.symm
  | succ n ih =>
    rw [mulBits, mulBits, mulBits, double_xor, ih]
    split
    · ac_rfl
    · rw [UInt8.zero_xor, UInt8.zero_xor, UInt8.zero_xor]

/-- A product of a doubled byte is doubled. -/
theorem mulBits_double (n : Nat) (x y : UInt8) :
    mulBits n (double x) y = double (mulBits n x y) := by
  induction n generalizing x y with
  | zero => exact (by decide : double 0 = 0).symm
  | succ n ih =>
    rw [mulBits, mulBits, double_xor, ih]
    split
    · rfl
    · exact congrArg (· ^^^ _) (by decide : double 0 = 0).symm

/-- A product with zero. -/
theorem zero_mul (y : UInt8) : mul 0 y = 0 := by
  have h := mulBits_xor 8 0 0 y
  rwa [UInt8.xor_self, UInt8.xor_self] at h

/-- A product with one. -/
theorem one_mul (y : UInt8) : mul 1 y = y := by
  revert y
  exact forall_byte (by decide +kernel)

/-! ## Powers of three -/

/-- Three times a byte. -/
def triple (x : UInt8) : UInt8 := x ^^^ double x

/-- A product of a tripled byte is tripled. -/
theorem mul_triple (x y : UInt8) : mul (triple x) y = triple (mul x y) := by
  unfold triple mul
  rw [mulBits_xor, mulBits_double]

/-- A product with a power of three triples over and over. -/
theorem mul_iterate_triple (m : Nat) (y : UInt8) : mul (triple^[m] 1) y = triple^[m] y := by
  induction m with
  | zero => exact one_mul y
  | succ m ih => rw [Function.iterate_succ_apply', Function.iterate_succ_apply', mul_triple, ih]

/-- A power of a power of three. -/
theorem power_iterate_triple (m n : Nat) : power (triple^[m] 1) n = triple^[m * n] 1 := by
  induction n with
  | zero => rfl
  | succ n ih => rw [power, ih, mul_iterate_triple, ← Function.iterate_add_apply, Nat.mul_succ,
      Nat.add_comm]

/-- The powers of three start again after 255. -/
theorem isPeriodicPt_triple : Function.IsPeriodicPt triple 255 1 := by
  change triple^[255] 1 = 1
  decide +kernel

/-- Bytes, as the bits of a number that are set. -/
def bitsOf (xs : List UInt8) : Nat := xs.foldr (fun x bits => 2 ^ x.toNat ||| bits) 0

/-- The bit of a byte is set if and only if the byte is one of the bytes. -/
theorem testBit_bitsOf (xs : List UInt8) (x : UInt8) :
    (bitsOf xs).testBit x.toNat = true ↔ x ∈ xs := by
  induction xs with
  | nil => simp [bitsOf]
  | cons y xs ih =>
    rw [bitsOf] at ih ⊢
    rw [List.foldr_cons, Nat.testBit_or, Bool.or_eq_true, ih, Nat.testBit_two_pow,
      decide_eq_true_iff, List.mem_cons, UInt8.toNat_inj, eq_comm]

/-- Zero and the powers of three are all bytes. -/
theorem bitsOf_iterate_triple : bitsOf (0 :: List.iterate triple 1 255) = 2 ^ 256 - 1 := by
  decide +kernel

/-- A byte that is not zero is a power of three. -/
theorem exists_iterate_triple {x : UInt8} (hx : x ≠ 0) : ∃ m, triple^[m] 1 = x := by
  have hbit : (bitsOf (0 :: List.iterate triple 1 255)).testBit x.toNat = true := by
    rw [bitsOf_iterate_triple, Nat.testBit_two_pow_sub_one, decide_eq_true_iff]
    exact x.toNat_lt
  obtain h | h := List.mem_cons.mp ((testBit_bitsOf _ x).mp hbit)
  · exact absurd h hx
  · obtain ⟨m, -, hm⟩ := List.mem_iterate.mp h
    exact ⟨m, hm.symm⟩

/-! ## Substitutes -/

/-- The power 254 undoes itself. -/
theorem power_power (x : UInt8) : power (power x 254) 254 = x := by
  by_cases hx : x = 0
  · have hzero : power 0 254 = 0 := zero_mul _
    rw [hx, hzero, hzero]
  · obtain ⟨m, rfl⟩ := exists_iterate_triple hx
    have hexponent : m * 254 * 254 % 255 = m % 255 := by omega
    rw [power_iterate_triple, power_iterate_triple, ← isPeriodicPt_triple.iterate_mod_apply,
      hexponent, isPeriodicPt_triple.iterate_mod_apply]

/-- The affine map of the substitutes is undone. -/
theorem affine_inverse (y : UInt8) :
    let z := y ^^^ rotate y 1 ^^^ rotate y 2 ^^^ rotate y 3 ^^^ rotate y 4 ^^^ 0x63
    rotate z 1 ^^^ rotate z 3 ^^^ rotate z 6 ^^^ 0x05 = y := by
  revert y
  exact forall_byte (by decide +kernel)

/-- The byte with the substitute of a byte. -/
theorem restore_substitute (x : UInt8) : restore (substitute x) = x :=
  (congrArg (power · 254) (affine_inverse (power x 254))).trans (power_power x)

/-- The table of substitutes. -/
theorem sub_eq (x : UInt8) : sub x = substitute x := by
  have hx : x.toNat < 256 := x.toNat_lt
  simp [sub, substitutes, hx]

/-- The table of restored bytes. -/
theorem unsub_eq (x : UInt8) : unsub x = restore x := by
  have hx : x.toNat < 256 := x.toNat_lt
  simp [unsub, restored, hx]

/-- The tables undo each other. -/
@[simp]
theorem unsub_sub (x : UInt8) : unsub (sub x) = x := by
  rw [sub_eq, unsub_eq, restore_substitute]

end Smali.Aes
