import Mathlib.RingTheory.AdjoinRoot
import Mathlib.Algebra.CharP.Two
import Mathlib.Algebra.CharP.Algebra
import Mathlib.Algebra.Field.ZMod
import Mathlib.Tactic.ComputeDegree
import SimpleVpn.GaloisByte

/-!
# The field of 256 elements

The polynomials over the two-element field modulo `x⁸ + x⁴ + x³ + x + 1`, as
Mathlib's quotient, and the bytes as its elements. Nothing here names a
particular program.

`ofByte` reads a byte as the class of the polynomial whose coefficients are its
bits. It takes `^^^` to addition and `mul` to multiplication, and it is
bijective (`byteEquiv`). That every element but zero has an inverse is read off
the bytes, where it is a finite check; with it the quotient is a field
(`isField`), and the modulus needs no proof of irreducibility.
-/

namespace GaloisByte

open Polynomial

/-- `x⁸ + x⁴ + x³ + x + 1` over the field of two elements. -/
noncomputable def modulus : (ZMod 2)[X] := X ^ 8 + X ^ 4 + X ^ 3 + X + 1

theorem natDegree_modulus : modulus.natDegree = 8 := by
  rw [modulus]
  compute_degree!

/-- The field of 256 elements. -/
abbrev GF : Type := AdjoinRoot modulus

namespace GF

instance : Nontrivial GF := AdjoinRoot.nontrivial modulus fun h => by
  have hdeg := natDegree_modulus
  rw [natDegree, h] at hdeg
  cases hdeg

instance : CharP GF 2 := charP_of_injective_algebraMap (algebraMap (ZMod 2) GF).injective 2

/-- The class of `x`. -/
noncomputable abbrev root : GF := AdjoinRoot.root modulus

theorem root_pow_eight : root ^ 8 = root ^ 4 + root ^ 3 + root + 1 := by
  have h : root ^ 8 + (root ^ 4 + root ^ 3 + root + 1) = 0 := by
    calc root ^ 8 + (root ^ 4 + root ^ 3 + root + 1)
        = AdjoinRoot.mk modulus (X ^ 8 + X ^ 4 + X ^ 3 + X + 1) := by
          simp only [map_add, map_pow, map_one, AdjoinRoot.mk_X, add_assoc]
      _ = 0 := AdjoinRoot.mk_self
  exact CharTwo.add_eq_zero.mp h

/-! ## Bytes as elements -/

/-- The class of the polynomial of the low `n` bits: bit `i` is the coefficient
of `xⁱ`. -/
noncomputable def ofBits (n : ℕ) (b : UInt8) : GF :=
  ∑ i ∈ Finset.range n, if b.toNat.testBit i then root ^ i else 0

/-- The element a byte stands for. -/
noncomputable def ofByte (b : UInt8) : GF := ofBits 8 b

@[simp] theorem ofByte_zero : ofByte 0 = 0 := by simp [ofByte, ofBits]

theorem ofByte_xor (a b : UInt8) : ofByte (a ^^^ b) = ofByte a + ofByte b := by
  rw [ofByte, ofByte, ofByte, ofBits, ofBits, ofBits, ← Finset.sum_add_distrib]
  refine Finset.sum_congr rfl fun i _ => ?_
  rw [UInt8.toNat_xor, Nat.testBit_xor]
  cases a.toNat.testBit i <;> cases b.toNat.testBit i <;> simp [CharTwo.add_self_eq_zero]

/-- `ofByte` as an additive map. -/
noncomputable def ofByteHom : GByte →+ GF where
  toFun b := ofByte b.val
  map_zero' := ofByte_zero
  map_add' a b := ofByte_xor a.val b.val

theorem ofByte_bit {i : ℕ} (hi : i < 8) : ofByte (bit i).val = root ^ i := by
  have hval : (bit i).val.toNat = 2 ^ i :=
    UInt8.toNat_ofNat_of_lt' (Nat.pow_lt_pow_right (by decide) hi)
  rw [ofByte, ofBits, hval, Finset.sum_eq_single i]
  · rw [if_pos (Nat.testBit_two_pow_self)]
  · intro j _ hne
    rw [Nat.testBit_two_pow_of_ne hne.symm]
    rfl
  · exact fun h => absurd (Finset.mem_range.mpr hi) h

@[simp] theorem ofByte_one : ofByte 1 = 1 := ofByte_bit (i := 0) (by decide)

/-- `xtime` multiplies by `x`. -/
theorem ofByte_xtime (b : UInt8) : ofByte (xtime b) = root * ofByte b := by
  have hhom : ofByteHom.comp (GByte.mulHom 2) = (AddMonoidHom.mulLeft root).comp ofByteHom := by
    apply hom_ext_bits
    intro i
    have hshift : ∀ i : Fin 8, mul 2 (bit i).val =
        if i.val < 7 then (bit (i.val + 1)).val
        else (bit 4).val ^^^ (bit 3).val ^^^ (bit 1).val ^^^ (bit 0).val := by decide
    change ofByte (mul 2 (bit i).val) = root * ofByte (bit i).val
    rw [hshift, ofByte_bit i.isLt, ← pow_succ']
    split
    · exact ofByte_bit (by omega)
    · have h7 : i.val = 7 := by omega
      rw [h7, root_pow_eight]
      simp [ofByte_xor, ofByte_bit]
  have h := DFunLike.congr_fun hhom ⟨b⟩
  rwa [AddMonoidHom.comp_apply, GByte.mulHom_apply, mul_two] at h

/-- The powers of `x`, from doublings of `1`. -/
theorem ofByte_iterate_xtime (j : ℕ) : ofByte (xtime^[j] 1) = root ^ j := by
  induction j with
  | zero => exact ofByte_one
  | succ j ih => rw [Function.iterate_succ_apply', ofByte_xtime, ih, pow_succ']

/-- The lowest bit, and the rest shifted down. -/
theorem ofBits_succ (n : ℕ) (a : UInt8) :
    ofBits (n + 1) a = ofByte (a &&& 1) + root * ofBits n (a >>> 1) := by
  have hlow : ofByte (a &&& 1) = if a.toNat.testBit 0 then root ^ 0 else 0 := by
    have hval : (a &&& 1).toNat = a.toNat % 2 := by
      rw [UInt8.toNat_and]
      exact Nat.and_one_is_mod a.toNat
    rw [Nat.testBit_zero, ← hval]
    rcases and_one_cases a with h | h
    · rw [h, ofByte_zero]
      rfl
    · rw [h, ofByte_one, pow_zero]
      rfl
  have hshift : ∀ i, (a >>> 1).toNat.testBit i = a.toNat.testBit (i + 1) := by
    intro i
    rw [UInt8.toNat_shiftRight, Nat.testBit_shiftRight, Nat.add_comm]
    rfl
  rw [ofBits, Finset.sum_range_succ', ← hlow, add_comm, ofBits, Finset.mul_sum]
  congr 1
  refine Finset.sum_congr rfl fun i _ => ?_
  rw [hshift, mul_ite, MulZeroClass.mul_zero, ← pow_succ']

theorem ofByte_mulBits (n : ℕ) : ∀ a b : UInt8,
    ofByte (mulBits n a b) = ofBits n a * ofByte b := by
  induction n with
  | zero =>
    intro a b
    rw [mulBits, ofByte_zero, ofBits, Finset.range_zero, Finset.sum_empty, zero_mul]
  | succ n ih =>
    intro a b
    have hbit : ofByte ((a &&& 1) * b) = ofByte (a &&& 1) * ofByte b := by
      rcases and_one_cases a with h | h <;> simp [h]
    rw [mulBits, ofByte_xor, hbit, ih, ofByte_xtime, ofBits_succ]
    ring

/-- `mul` is the product of the field. -/
theorem ofByte_mul (a b : UInt8) : ofByte (mul a b) = ofByte a * ofByte b := ofByte_mulBits 8 a b

/-! ## Inverses -/

set_option maxRecDepth 4000 in
/-- The inverses of the bytes, in order; zero stands for itself. -/
def invTable : List UInt8 := [
  0x00, 0x01, 0x8d, 0xf6, 0xcb, 0x52, 0x7b, 0xd1, 0xe8, 0x4f, 0x29, 0xc0, 0xb0, 0xe1, 0xe5, 0xc7,
  0x74, 0xb4, 0xaa, 0x4b, 0x99, 0x2b, 0x60, 0x5f, 0x58, 0x3f, 0xfd, 0xcc, 0xff, 0x40, 0xee, 0xb2,
  0x3a, 0x6e, 0x5a, 0xf1, 0x55, 0x4d, 0xa8, 0xc9, 0xc1, 0x0a, 0x98, 0x15, 0x30, 0x44, 0xa2, 0xc2,
  0x2c, 0x45, 0x92, 0x6c, 0xf3, 0x39, 0x66, 0x42, 0xf2, 0x35, 0x20, 0x6f, 0x77, 0xbb, 0x59, 0x19,
  0x1d, 0xfe, 0x37, 0x67, 0x2d, 0x31, 0xf5, 0x69, 0xa7, 0x64, 0xab, 0x13, 0x54, 0x25, 0xe9, 0x09,
  0xed, 0x5c, 0x05, 0xca, 0x4c, 0x24, 0x87, 0xbf, 0x18, 0x3e, 0x22, 0xf0, 0x51, 0xec, 0x61, 0x17,
  0x16, 0x5e, 0xaf, 0xd3, 0x49, 0xa6, 0x36, 0x43, 0xf4, 0x47, 0x91, 0xdf, 0x33, 0x93, 0x21, 0x3b,
  0x79, 0xb7, 0x97, 0x85, 0x10, 0xb5, 0xba, 0x3c, 0xb6, 0x70, 0xd0, 0x06, 0xa1, 0xfa, 0x81, 0x82,
  0x83, 0x7e, 0x7f, 0x80, 0x96, 0x73, 0xbe, 0x56, 0x9b, 0x9e, 0x95, 0xd9, 0xf7, 0x02, 0xb9, 0xa4,
  0xde, 0x6a, 0x32, 0x6d, 0xd8, 0x8a, 0x84, 0x72, 0x2a, 0x14, 0x9f, 0x88, 0xf9, 0xdc, 0x89, 0x9a,
  0xfb, 0x7c, 0x2e, 0xc3, 0x8f, 0xb8, 0x65, 0x48, 0x26, 0xc8, 0x12, 0x4a, 0xce, 0xe7, 0xd2, 0x62,
  0x0c, 0xe0, 0x1f, 0xef, 0x11, 0x75, 0x78, 0x71, 0xa5, 0x8e, 0x76, 0x3d, 0xbd, 0xbc, 0x86, 0x57,
  0x0b, 0x28, 0x2f, 0xa3, 0xda, 0xd4, 0xe4, 0x0f, 0xa9, 0x27, 0x53, 0x04, 0x1b, 0xfc, 0xac, 0xe6,
  0x7a, 0x07, 0xae, 0x63, 0xc5, 0xdb, 0xe2, 0xea, 0x94, 0x8b, 0xc4, 0xd5, 0x9d, 0xf8, 0x90, 0x6b,
  0xb1, 0x0d, 0xd6, 0xeb, 0xc6, 0x0e, 0xcf, 0xad, 0x08, 0x4e, 0xd7, 0xe3, 0x5d, 0x50, 0x1e, 0xb3,
  0x5b, 0x23, 0x38, 0x34, 0x68, 0x46, 0x03, 0x8c, 0xdd, 0x9c, 0x7d, 0xa0, 0xcd, 0x1a, 0x41, 0x1c]

/-- The inverse of a byte; the inverse of zero is zero. -/
def inv (b : UInt8) : UInt8 := invTable.getD b.toNat 0

/-- Each byte but zero times its entry is `1`. -/
theorem zipWith_mul_invTable :
    List.zipWith mul ((List.range 256).map UInt8.ofNat) invTable = 0 :: List.replicate 255 1 := by
  decide +kernel

theorem mul_inv {b : UInt8} (hb : b ≠ 0) : mul b (inv b) = 1 := by
  have hlt : b.toNat < 256 := b.toNat_lt
  have hlen : 256 ≤ invTable.length := by
    have hl := congrArg List.length zipWith_mul_invTable
    rw [List.length_zipWith, List.length_map, List.length_range, List.length_cons,
      List.length_replicate] at hl
    exact min_eq_left_iff.mp hl
  obtain ⟨k, hk⟩ : ∃ k, b.toNat = k + 1 :=
    Nat.exists_eq_succ_of_ne_zero fun h => hb (UInt8.toNat_inj.mp h)
  have hone : (0 :: List.replicate 255 (1 : UInt8))[b.toNat]? = some 1 := by
    rw [hk, List.getElem?_cons_succ, List.getElem?_replicate_of_lt (by omega)]
  have hentry : ((List.range 256).map UInt8.ofNat)[b.toNat]? = some b := by
    rw [List.getElem?_map, List.getElem?_range hlt, Option.map_some, UInt8.ofNat_toNat]
  have hinv : invTable[b.toNat]? = some (inv b) := by
    have hidx : b.toNat < invTable.length := hlt.trans_le hlen
    rw [inv, List.getD_eq_getElem?_getD, List.getElem?_eq_getElem hidx, Option.getD_some]
  rw [← zipWith_mul_invTable, List.getElem?_zipWith, hentry, hinv] at hone
  exact Option.some.inj hone

theorem ofByte_mul_inv {b : UInt8} (hb : b ≠ 0) : ofByte b * ofByte (inv b) = 1 := by
  rw [← ofByte_mul, mul_inv hb, ofByte_one]

theorem ofByte_injective : Function.Injective ofByte := by
  intro a b h
  have hzero : ofByte (a ^^^ b) = 0 := by rw [ofByte_xor, h, CharTwo.add_self_eq_zero]
  by_contra hne
  have hxor : a ^^^ b ≠ 0 := fun hx => hne (UInt8.xor_eq_zero_iff.mp hx)
  have hone := ofByte_mul_inv hxor
  rw [hzero, zero_mul] at hone
  exact zero_ne_one hone

/-- Every polynomial reduces to a byte: constants do, and adding and multiplying
by `x` stay among bytes. -/
theorem ofByte_surjective : Function.Surjective ofByte := by
  intro y
  induction y using AdjoinRoot.induction_on with
  | ih p =>
    induction p using Polynomial.induction_on with
    | C a =>
      have ha : a = 0 ∨ a = 1 := by
        revert a
        decide
      rcases ha with rfl | rfl
      · exact ⟨0, by rw [ofByte_zero, map_zero, map_zero]⟩
      · exact ⟨1, by rw [ofByte_one, map_one, map_one]⟩
    | add p q hp hq =>
      obtain ⟨a, ha⟩ := hp
      obtain ⟨b, hb⟩ := hq
      exact ⟨a ^^^ b, by rw [ofByte_xor, ha, hb, map_add]⟩
    | monomial n a ih =>
      obtain ⟨b, hb⟩ := ih
      refine ⟨xtime b, ?_⟩
      rw [ofByte_xtime, hb, pow_succ, ← mul_assoc, map_mul _ (C a * X ^ n), AdjoinRoot.mk_X,
        mul_comm]

/-- The bytes as the elements of the field. -/
noncomputable def byteEquiv : UInt8 ≃ GF :=
  Equiv.ofBijective ofByte ⟨ofByte_injective, ofByte_surjective⟩

@[simp] theorem byteEquiv_apply (b : UInt8) : byteEquiv b = ofByte b := rfl

@[simp] theorem byteEquiv_symm_ofByte (b : UInt8) : byteEquiv.symm (ofByte b) = b :=
  byteEquiv.symm_apply_apply b

/-- Every element but zero has an inverse. -/
theorem isField : IsField GF where
  exists_pair_ne := exists_pair_ne GF
  mul_comm := mul_comm
  mul_inv_cancel {y} hy := by
    obtain ⟨b, rfl⟩ := ofByte_surjective y
    have hb : b ≠ 0 := fun h => hy (by rw [h, ofByte_zero])
    exact ⟨ofByte (inv b), ofByte_mul_inv hb⟩

theorem isUnit {y : GF} (hy : y ≠ 0) : IsUnit y := by
  obtain ⟨z, hz⟩ := isField.mul_inv_cancel hy
  exact .of_mul_eq_one z hz

/-- `inv` is the inverse of the field, with zero for zero. -/
theorem ofByte_inv (b : UInt8) : ofByte (inv b) = Ring.inverse (ofByte b) := by
  rcases eq_or_ne b 0 with rfl | hb
  · have hzero : inv 0 = 0 := rfl
    rw [hzero, ofByte_zero, Ring.inverse_zero]
  · have hne : ofByte b ≠ 0 := fun h => hb (ofByte_injective (h.trans ofByte_zero.symm))
    rw [← Ring.inverse_mul_cancel_left (ofByte b) (ofByte (inv b)) (isUnit hne),
      ofByte_mul_inv hb, mul_one]

end GF

end GaloisByte
