import Mathlib.Algebra.Polynomial.Degree.SmallDegree
import Mathlib.Algebra.Polynomial.Div
import Mathlib.Data.Fin.VecNotation
import Mathlib.Tactic.LinearCombination
import SimpleVpn.GaloisField

/-!
# FIPS-197

The cipher, its inverse and the key expansion of the standard, in the standard's
own terms: the S-box by inversion in the field and an affine map, `ShiftRows` on a
state of rows and columns, `MixColumns` by multiplying polynomials modulo
`x⁴ + 1`. This is the reference a byte-level implementation is compared with, and it names
none.

Inversion and the products of polynomials do not compute. `sbox_eq`, `mixColumn_eq`
and their inverses say what they come to on bytes.
-/

namespace Fips197

open GaloisByte GF Polynomial

/-! ## The standard -/

/-- Four bytes. -/
abbrev Word : Type := Fin 4 → UInt8

/-- Four rows of four bytes: entry `s r c` is in row `r` and column `c`. -/
abbrev State : Type := Fin 4 → Fin 4 → UInt8

/-- Column `c` of a state. -/
def column (s : State) (c : Fin 4) : Word := fun r => s r c

/-- The state in sixteen bytes, column by column. -/
def ofBytes (v : List UInt8) : State := fun r c => v.getD (4 * c.val + r.val) 0

/-- The bytes of a state, column by column. -/
def toBytes (s : State) : List UInt8 := (List.finRange 4).flatMap fun c => List.ofFn (column s c)

/-- Bit `i` of a byte; the index is taken modulo 8. -/
def bitOf (b : UInt8) (i : Fin 8) : Bool := b.toNat.testBit i

/-- The affine map of the S-box: bit `i` of the result is the sum of the bits
`i`, `i + 4`, `i + 5`, `i + 6` and `i + 7` and of bit `i` of `{63}`. -/
def affine (b : UInt8) : UInt8 :=
  UInt8.ofNat (Nat.ofBits fun i : Fin 8 =>
    bitOf b i ^^ bitOf b (i + 4) ^^ bitOf b (i + 5) ^^ bitOf b (i + 6) ^^ bitOf b (i + 7) ^^
      bitOf 0x63 i)

/-- The S-box: the inverse in the field, zero for zero, then the affine map. -/
noncomputable def sbox (b : UInt8) : UInt8 :=
  affine (byteEquiv.symm (Ring.inverse (byteEquiv b)))

/-- `SubBytes`. -/
noncomputable def subBytes (s : State) : State := fun r c => sbox (s r c)

/-- `ShiftRows`: row `r` is rotated to the left by `r`. -/
def shiftRows (s : State) : State := fun r c => s r (c + r)

/-- A word as a polynomial over the field: byte `i` is the coefficient of `xⁱ`. -/
noncomputable def wordPoly (w : Word) : GF[X] :=
  C (ofByte (w 3)) * X ^ 3 + C (ofByte (w 2)) * X ^ 2 + C (ofByte (w 1)) * X + C (ofByte (w 0))

/-- The polynomial `{03}x³ + {01}x² + {01}x + {02}`. -/
noncomputable def mixPoly : GF[X] :=
  C (ofByte 3) * X ^ 3 + C (ofByte 1) * X ^ 2 + C (ofByte 1) * X + C (ofByte 2)

/-- A column multiplied by `mixPoly` modulo `x⁴ + 1`. -/
noncomputable def mixColumn (w : Word) : Word := fun r =>
  byteEquiv.symm (((mixPoly * wordPoly w) %ₘ (X ^ 4 + 1)).coeff r)

/-- `MixColumns`. -/
noncomputable def mixColumns (s : State) : State := fun r c => mixColumn (column s c) r

/-- `AddRoundKey`. -/
def addRoundKey (k s : State) : State := fun r c => s r c ^^^ k r c

/-- The state after the initial key addition and `n` full rounds. -/
noncomputable def rounds (w : ℕ → State) (s : State) : ℕ → State
  | 0 => addRoundKey (w 0) s
  | n + 1 => addRoundKey (w (n + 1)) (mixColumns (shiftRows (subBytes (rounds w s n))))

/-- `Cipher` with `nr` rounds. -/
noncomputable def cipher (nr : ℕ) (w : ℕ → State) (s : State) : State :=
  addRoundKey (w nr) (shiftRows (subBytes (rounds w s (nr - 1))))

/-- `Cipher` on sixteen bytes, with the key schedule as a byte vector. -/
noncomputable def cipherBytes (nr : ℕ) (schedule state : List UInt8) : List UInt8 :=
  toBytes (cipher nr (fun r => ofBytes (schedule.drop (16 * r))) (ofBytes state))

/-- The inverse of the affine map: bit `i` of the result is the sum of the bits
`i + 2`, `i + 5` and `i + 7` and of bit `i` of `{05}`. -/
def invAffine (b : UInt8) : UInt8 :=
  UInt8.ofNat (Nat.ofBits fun i : Fin 8 =>
    bitOf b (i + 2) ^^ bitOf b (i + 5) ^^ bitOf b (i + 7) ^^ bitOf 0x05 i)

/-- The inverse S-box: the inverse affine map, then the inverse in the field, zero
for zero. -/
noncomputable def invSbox (b : UInt8) : UInt8 :=
  byteEquiv.symm (Ring.inverse (byteEquiv (invAffine b)))

/-- `InvSubBytes`. -/
noncomputable def invSubBytes (s : State) : State := fun r c => invSbox (s r c)

/-- `InvShiftRows`: row `r` is rotated to the right by `r`. -/
def invShiftRows (s : State) : State := fun r c => s r (c - r)

/-- The polynomial `{0b}x³ + {0d}x² + {09}x + {0e}`. -/
noncomputable def invMixPoly : GF[X] :=
  C (ofByte 0x0b) * X ^ 3 + C (ofByte 0x0d) * X ^ 2 + C (ofByte 0x09) * X + C (ofByte 0x0e)

/-- A column multiplied by `invMixPoly` modulo `x⁴ + 1`. -/
noncomputable def invMixColumn (w : Word) : Word := fun r =>
  byteEquiv.symm (((invMixPoly * wordPoly w) %ₘ (X ^ 4 + 1)).coeff r)

/-- `InvMixColumns`. -/
noncomputable def invMixColumns (s : State) : State := fun r c => invMixColumn (column s c) r

/-- The state after the first key addition of `InvCipher` with `nr` rounds and `n`
full rounds, in which the round keys count down. -/
noncomputable def invRounds (nr : ℕ) (w : ℕ → State) (s : State) : ℕ → State
  | 0 => addRoundKey (w nr) s
  | n + 1 => invMixColumns
      (addRoundKey (w (nr - (n + 1))) (invSubBytes (invShiftRows (invRounds nr w s n))))

/-- `InvCipher` with `nr` rounds. -/
noncomputable def invCipher (nr : ℕ) (w : ℕ → State) (s : State) : State :=
  addRoundKey (w 0) (invSubBytes (invShiftRows (invRounds nr w s (nr - 1))))

/-- `InvCipher` on sixteen bytes, with the key schedule as a byte vector. -/
noncomputable def invCipherBytes (nr : ℕ) (schedule state : List UInt8) : List UInt8 :=
  toBytes (invCipher nr (fun r => ofBytes (schedule.drop (16 * r))) (ofBytes state))

/-- The words of a byte vector. -/
def words (v : List UInt8) (i : ℕ) : Word := fun r => v.getD (4 * i + r.val) 0

/-- The sum of two words. -/
def xorWord (a b : Word) : Word := fun r => a r ^^^ b r

/-- `RotWord`. -/
def rotWord (w : Word) : Word := fun r => w (r + 1)

/-- `SubWord`. -/
noncomputable def subWord (w : Word) : Word := fun r => sbox (w r)

/-- `Rcon[j]`: the power `j - 1` of `x`, and three zeros. -/
noncomputable def rcon (j : ℕ) : Word := ![byteEquiv.symm (root ^ (j - 1)), 0, 0, 0]

/-- `temp` of `KeyExpansion`, from the word before. -/
noncomputable def temp (nk i : ℕ) (w : Word) : Word :=
  if i % nk = 0 then xorWord (subWord (rotWord w)) (rcon (i / nk))
  else if 6 < nk ∧ i % nk = 4 then subWord w
  else w

/-- `w` is the key schedule of the `nk` words of `key`, for `nr` rounds. -/
structure IsKeyExpansion (nk nr : ℕ) (key w : ℕ → Word) : Prop where
  /-- it starts with the key -/
  first : ∀ i, i < nk → w i = key i
  /-- each later word is the word `nk` places before it plus `temp` -/
  next : ∀ i, nk ≤ i → i < 4 * (nr + 1) → w i = xorWord (w (i - nk)) (temp nk i (w (i - 1)))

/-! ## On bytes -/

theorem sbox_eq (b : UInt8) : sbox b = affine (inv b) := by
  rw [sbox, byteEquiv_apply, ← ofByte_inv, byteEquiv_symm_ofByte]

theorem invSbox_eq (b : UInt8) : invSbox b = inv (invAffine b) := by
  rw [invSbox, byteEquiv_apply, ← ofByte_inv, byteEquiv_symm_ofByte]

/-- The product of two words modulo `x⁴ + 1`, byte by byte. -/
def mulWord (a b : Word) : Word := ![
  mul (a 0) (b 0) ^^^ mul (a 3) (b 1) ^^^ mul (a 2) (b 2) ^^^ mul (a 1) (b 3),
  mul (a 1) (b 0) ^^^ mul (a 0) (b 1) ^^^ mul (a 3) (b 2) ^^^ mul (a 2) (b 3),
  mul (a 2) (b 0) ^^^ mul (a 1) (b 1) ^^^ mul (a 0) (b 2) ^^^ mul (a 3) (b 3),
  mul (a 3) (b 0) ^^^ mul (a 2) (b 1) ^^^ mul (a 1) (b 2) ^^^ mul (a 0) (b 3)]

theorem coeff_wordPoly (w : Word) (r : Fin 4) : (wordPoly w).coeff r = ofByte (w r) := by
  fin_cases r <;> simp [wordPoly, coeff_X, coeff_C]

theorem monic_modulus : (X ^ 4 + 1 : GF[X]).Monic := monic_X_pow_add_C 1 (by decide)

/-- Multiplication modulo `x⁴ + 1` wraps the coefficients around; the sum that
wraps and the one taken away agree because `2 = 0`. -/
theorem wordPoly_mul_mod (a b : Word) :
    (wordPoly a * wordPoly b) %ₘ (X ^ 4 + 1) = wordPoly (mulWord a b) := by
  let α : Fin 4 → GF[X] := fun i => C (ofByte (a i))
  let β : Fin 4 → GF[X] := fun i => C (ofByte (b i))
  let q : GF[X] := α 3 * β 3 * X ^ 2 + (α 3 * β 2 + α 2 * β 3) * X +
    (α 3 * β 1 + α 2 * β 2 + α 1 * β 3)
  have htwo : (2 : GF[X]) = 0 := CharTwo.two_eq_zero
  have hdeg : (wordPoly (mulWord a b)).degree < (X ^ 4 + 1 : GF[X]).degree := by
    have h4 : (X ^ 4 + 1 : GF[X]).degree = 4 := degree_X_pow_add_C (by decide) 1
    rw [h4]
    exact degree_cubic_lt
  refine (div_modByMonic_unique q _ monic_modulus ⟨?_, hdeg⟩).2
  simp only [wordPoly, mulWord, Matrix.cons_val_zero, Matrix.cons_val_one, Matrix.cons_val,
    ofByte_xor, ofByte_mul, C_add, C_mul]
  linear_combination q * htwo

theorem mixColumn_eq (w : Word) : mixColumn w = mulWord ![2, 1, 1, 3] w := by
  have hpoly : mixPoly = wordPoly ![2, 1, 1, 3] := rfl
  funext r
  rw [mixColumn, hpoly, wordPoly_mul_mod, coeff_wordPoly, byteEquiv_symm_ofByte]

theorem invMixColumn_eq (w : Word) : invMixColumn w = mulWord ![14, 9, 13, 11] w := by
  have hpoly : invMixPoly = wordPoly ![14, 9, 13, 11] := rfl
  funext r
  rw [invMixColumn, hpoly, wordPoly_mul_mod, coeff_wordPoly, byteEquiv_symm_ofByte]

theorem rcon_succ (j : ℕ) : rcon (j + 1) = ![xtime^[j] 1, 0, 0, 0] := by
  rw [rcon, Nat.add_sub_cancel, ← ofByte_iterate_xtime, byteEquiv_symm_ofByte]

end Fips197
