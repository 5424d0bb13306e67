import Mathlib.Algebra.BigOperators.Fin
import Mathlib.Algebra.BigOperators.Group.Finset.Lemmas
import Mathlib.Algebra.Group.Hom.Defs

/-!
# Bytes as polynomials over the two-element field

Arithmetic on bytes read as polynomials of degree below 8 over the field of two
elements, modulo `x⁸ + x⁴ + x³ + x + 1`: addition is `^^^`, multiplication by
`x` is `xtime`, and `mul` is the shift-and-add product. Nothing here names a
particular program.

`GByte` is the additive monoid of these polynomials, so that sums of products
are `Finset` sums, and `linear_left_inv` is the one fact about matrices that a
linear layer needs: if the product of two matrices of additive maps is the
identity entry by entry, the second undoes the first.
-/

namespace GaloisByte

/-- To prove something of every byte, prove it of the 256 literals. -/
theorem forall_byte {p : UInt8 → Prop} (h : ∀ n : Fin 256, p (UInt8.ofNat n)) (b : UInt8) :
    p b := by
  have hb := h ⟨b.toNat, b.toNat_lt⟩
  rwa [UInt8.ofNat_toNat] at hb

/-- Multiplication by `x`: shift, and reduce if a bit fell out. -/
def xtime (b : UInt8) : UInt8 := (b <<< 1) ^^^ ((b >>> 7) * 0x1b)

/-- The product by the low `n` bits of `a`. -/
def mulBits : ℕ → UInt8 → UInt8 → UInt8
  | 0, _, _ => 0
  | n + 1, a, b => ((a &&& (1 : UInt8)) * b) ^^^ mulBits n (a >>> 1) (xtime b)

/-- The product of two bytes. -/
def mul (a b : UInt8) : UInt8 := mulBits 8 a b

/-- A single bit is `0` or `1`. -/
theorem and_one_cases (a : UInt8) : a &&& 1 = 0 ∨ a &&& 1 = 1 := by
  have hval : (a &&& 1).toNat = a.toNat % 2 := by
    rw [UInt8.toNat_and]
    exact Nat.and_one_is_mod a.toNat
  rcases Nat.mod_two_eq_zero_or_one a.toNat with h | h
  · exact Or.inl (UInt8.toNat_inj.mp (hval.trans h))
  · exact Or.inr (UInt8.toNat_inj.mp (hval.trans h))

theorem shiftRight_seven_cases (a : UInt8) : a >>> 7 = 0 ∨ a >>> 7 = 1 := by
  have hval : (a >>> 7).toNat = a.toNat / 128 := by
    rw [UInt8.toNat_shiftRight]
    exact Nat.shiftRight_eq_div_pow a.toNat 7
  have hcases : a.toNat / 128 = 0 ∨ a.toNat / 128 = 1 := by
    have hlt := a.toNat_lt
    omega
  rcases hcases with h | h
  · exact Or.inl (UInt8.toNat_inj.mp (hval.trans h))
  · exact Or.inr (UInt8.toNat_inj.mp (hval.trans h))

/-- Multiplying by a bit is additive. -/
theorem bit_mul_xor {a : UInt8} (ha : a = 0 ∨ a = 1) (b c : UInt8) :
    a * (b ^^^ c) = (a * b) ^^^ (a * c) := by
  rcases ha with rfl | rfl <;> simp

theorem xor_bit_mul {a b : UInt8} (ha : a = 0 ∨ a = 1) (hb : b = 0 ∨ b = 1) (c : UInt8) :
    (a ^^^ b) * c = (a * c) ^^^ (b * c) := by
  rcases ha with rfl | rfl <;> rcases hb with rfl | rfl <;> simp

/-- Multiplication by `x` is additive. -/
theorem xtime_xor (a b : UInt8) : xtime (a ^^^ b) = xtime a ^^^ xtime b := by
  have hshift : (a ^^^ b) >>> 7 = (a >>> 7) ^^^ (b >>> 7) := UInt8.shiftRight_xor
  have hleft : (a ^^^ b) <<< 1 = (a <<< 1) ^^^ (b <<< 1) := UInt8.shiftLeft_xor
  rw [xtime, xtime, xtime, hshift, hleft,
    xor_bit_mul (shiftRight_seven_cases a) (shiftRight_seven_cases b)]
  ac_rfl

theorem mulBits_xor (n : ℕ) : ∀ a b c : UInt8,
    mulBits n a (b ^^^ c) = mulBits n a b ^^^ mulBits n a c := by
  induction n with
  | zero =>
    intro a b c
    simp [mulBits]
  | succ n ih =>
    intro a b c
    rw [mulBits, mulBits, mulBits, bit_mul_xor (and_one_cases a), xtime_xor, ih]
    ac_rfl

/-- The product is additive in its second factor. -/
theorem mul_xor (a b c : UInt8) : mul a (b ^^^ c) = mul a b ^^^ mul a c := mulBits_xor 8 a b c

theorem mul_zero (a : UInt8) : mul a 0 = 0 := by
  have h := mul_xor a 0 0
  simpa using h

/-! ## Products by small constants -/

theorem mulBits_of_zero {a : UInt8} (h : a = 0) (n : ℕ) : ∀ b, mulBits n a b = 0 := by
  subst h
  induction n with
  | zero =>
    intro b
    rfl
  | succ n ih =>
    intro b
    have hand : (0 : UInt8) &&& 1 = 0 := by decide
    have hshift : (0 : UInt8) >>> 1 = 0 := by decide
    rw [mulBits, hand, hshift, ih, UInt8.zero_mul, UInt8.xor_zero]

theorem mulBits_of_even {a : UInt8} (h : a &&& 1 = 0) (n : ℕ) (b : UInt8) :
    mulBits (n + 1) a b = mulBits n (a >>> 1) (xtime b) := by
  rw [mulBits, h, UInt8.zero_mul, UInt8.zero_xor]

theorem mulBits_of_odd {a : UInt8} (h : a &&& 1 = 1) (n : ℕ) (b : UInt8) :
    mulBits (n + 1) a b = b ^^^ mulBits n (a >>> 1) (xtime b) := by
  rw [mulBits, h, UInt8.one_mul]

theorem mul_one_left (x : UInt8) : mul 1 x = x := by
  simp (disch := decide) only [mul, mulBits_of_odd, mulBits_of_zero, UInt8.xor_zero]

theorem mul_two (x : UInt8) : mul 2 x = xtime x := by
  simp (disch := decide) only [mul, mulBits_of_even, mulBits_of_odd, mulBits_of_zero,
    UInt8.xor_zero]

theorem mul_three (x : UInt8) : mul 3 x = xtime x ^^^ x := by
  simp (disch := decide) only [mul, mulBits_of_odd, mulBits_of_zero, UInt8.xor_zero]
  exact UInt8.xor_comm x (xtime x)

/-- The products by `9`, `11`, `13` and `14`, from three doublings. -/
theorem mul_nine_eleven_thirteen_fourteen (x : UInt8) :
    mul 9 x = xtime (xtime (xtime x)) ^^^ x ∧
    mul 11 x = xtime (xtime (xtime x)) ^^^ x ^^^ xtime x ∧
    mul 13 x = xtime (xtime (xtime x)) ^^^ x ^^^ xtime (xtime x) ∧
    mul 14 x = xtime (xtime (xtime x)) ^^^ xtime x ^^^ xtime (xtime x) := by
  simp (disch := decide) only [mul, mulBits_of_odd, mulBits_of_even, mulBits_of_zero,
    UInt8.xor_zero]
  refine ⟨?_, ?_, ?_, ?_⟩ <;> ac_rfl

/-! ## The additive monoid -/

/-- A byte whose addition is `^^^`. -/
@[ext]
structure GByte : Type where
  /-- the byte -/
  val : UInt8
  deriving DecidableEq

namespace GByte

instance : Zero GByte := ⟨⟨0⟩⟩

instance : Add GByte := ⟨fun a b => ⟨a.val ^^^ b.val⟩⟩

@[simp] theorem val_zero : (0 : GByte).val = 0 := rfl

@[simp] theorem val_add (a b : GByte) : (a + b).val = a.val ^^^ b.val := rfl

instance : AddCommMonoid GByte where
  add_assoc a b c := GByte.ext (UInt8.xor_assoc a.val b.val c.val)
  zero_add _ := GByte.ext UInt8.zero_xor
  add_zero _ := GByte.ext UInt8.xor_zero
  add_comm a b := GByte.ext (UInt8.xor_comm a.val b.val)
  nsmul := nsmulRec

/-- Multiplication by a fixed byte, as an additive map. -/
def mulHom (a : UInt8) : GByte →+ GByte where
  toFun b := ⟨mul a b.val⟩
  map_zero' := GByte.ext (mul_zero a)
  map_add' b c := GByte.ext (mul_xor a b.val c.val)

@[simp] theorem mulHom_apply (a : UInt8) (b : GByte) : mulHom a b = ⟨mul a b.val⟩ := rfl

end GByte

/-- The byte with bit `i` set. -/
def bit (i : ℕ) : GByte := ⟨UInt8.ofNat (2 ^ i)⟩

/-- Every byte is the sum of its bits. -/
theorem eq_sum_bits (b : GByte) : b = ∑ i : Fin 8, if b.val.toNat.testBit i then bit i else 0 := by
  obtain ⟨b⟩ := b
  revert b
  exact forall_byte (by decide +kernel)

/-- Additive maps that agree on the eight single bits are equal. -/
theorem hom_ext_bits {M : Type*} [AddCommMonoid M] {f g : GByte →+ M}
    (h : ∀ i : Fin 8, f (bit i) = g (bit i)) : f = g := by
  refine AddMonoidHom.ext fun b => ?_
  rw [eq_sum_bits b, map_sum, map_sum]
  refine Finset.sum_congr rfl fun i _ => ?_
  split
  · exact h i
  · rw [map_zero, map_zero]

/-- **Left inverse of a linear layer.** For matrices `A` and `B` of additive
maps, if the entries of `B A` are the identity's, then `B` undoes `A`. -/
theorem linear_left_inv {G ι : Type*} [AddCommMonoid G] [Fintype ι] [DecidableEq ι]
    (A B : ι → ι → G →+ G)
    (h : ∀ i k, ∑ j, (B i j).comp (A j k) = if i = k then AddMonoidHom.id G else 0)
    (v : ι → G) (i : ι) :
    ∑ j, B i j (∑ k, A j k (v k)) = v i := by
  have hentry : ∀ k x, ∑ j, B i j (A j k x) = if i = k then x else 0 := by
    intro k x
    have hx := DFunLike.congr_fun (h i k) x
    rw [AddMonoidHom.finsetSum_apply] at hx
    refine hx.trans ?_
    split <;> rfl
  calc ∑ j, B i j (∑ k, A j k (v k))
      = ∑ j, ∑ k, B i j (A j k (v k)) := by simp only [map_sum]
    _ = ∑ k, ∑ j, B i j (A j k (v k)) := Finset.sum_comm
    _ = ∑ k, if i = k then v k else 0 := Finset.sum_congr rfl fun k _ => hentry k (v k)
    _ = v i := by simp

end GaloisByte
