import SimpleVpn.Aes
import SimpleVpn.BlockCipher
import SimpleVpn.GaloisByte
import Mathlib.Data.Fin.VecNotation
import Mathlib.Data.Finite.Prod
import Mathlib.Data.Fintype.Card
import Mathlib.Logic.Equiv.Basic

/-!
# The block cipher as a permutation of 16-byte blocks

A state vector of 16 bytes is `List.ofFn s` for a `Block` `s`. Each block
function of the class maps such a vector to `List.ofFn` of a permutation of
blocks applied to `s`, without a fault:

* `subBytes` is `subPerm`, `shiftRows` is `shiftPerm`, `mixColumns` is
  `mixPerm`, `addRoundKey` is `xorPerm` by a round key;
* `encryptionState` is `Layers.cipher` of these layers, and `decryptionState`,
  which runs the inverse layers in the opposite order, is its inverse.

So the code's decryption inverts its encryption under every vector of round
keys, because a permutation's inverse does.
-/

namespace SimpleVpn

open Exec BlockCipher GaloisByte

/-- Sixteen bytes, column by column: byte `4 c + r` is row `r` of column `c`. -/
abbrev Block : Type := Fin 16 → UInt8

/-- Every vector of 16 bytes holds a block. -/
theorem exists_block {v : Bytes} (h : v.length = 16) : ∃ s : Block, v = List.ofFn s := by
  refine ⟨fun i => v.get ⟨i.val, by omega⟩, ?_⟩
  apply List.ext_getElem (h.trans List.length_ofFn.symm)
  intro i h₁ h₂
  rw [List.getElem_ofFn, List.get_eq_getElem]

namespace AES

/-! ## Checked accesses to a block -/

theorem load_ofFn (s : Block) {i : ℕ} (hi : i < 16) : load (List.ofFn s) i = .ok (s ⟨i, hi⟩) := by
  rw [load_ok (by rwa [List.length_ofFn]), List.getElem_ofFn]

theorem set_ofFn (s : Block) {i : ℕ} (hi : i < 16) (x : UInt8) :
    (List.ofFn s).set i x = List.ofFn (Function.update s ⟨i, hi⟩ x) := by
  apply List.ext_getElem (by simp only [List.length_set, List.length_ofFn])
  intro j h₁ h₂
  simp only [List.getElem_set, List.getElem_ofFn, Function.update_apply, Fin.ext_iff, eq_comm]

theorem xorAssign_eq {v : Bytes} {i : ℕ} {x : UInt8} (h : v[i]? = some x) (e : ℕ) :
    xorAssign v i e = .ok (v.set i (x ^^^ UInt8.ofNat e)) := by
  obtain ⟨hlt, -⟩ := List.getElem?_eq_some_iff.mp h
  simp only [xorAssign, load_eq_of_getElem? h, ok_bind, store_ok hlt, UInt8.ofNat_xor,
    UInt8.ofNat_toNat]

/-- `^=` after `^=` on the same entry. -/
theorem xorAssign_set {v : Bytes} {i : ℕ} (h : i < v.length) (z : UInt8) (e : ℕ) :
    xorAssign (v.set i z) i e = .ok (v.set i (z ^^^ UInt8.ofNat e)) := by
  rw [xorAssign_eq (List.getElem?_set_self h), List.set_set]

/-! ## Adding a block -/

theorem xor_xor_self (a b : UInt8) : a ^^^ b ^^^ b = a := by
  rw [UInt8.xor_assoc, UInt8.xor_self, UInt8.xor_zero]

/-- Addition of the block `k`. -/
def xorPerm (k : Block) : Equiv.Perm Block where
  toFun s i := s i ^^^ k i
  invFun s i := s i ^^^ k i
  left_inv s := funext fun i => xor_xor_self (s i) (k i)
  right_inv s := funext fun i => xor_xor_self (s i) (k i)

@[simp] theorem xorPerm_apply (k s : Block) (i : Fin 16) : xorPerm k s i = s i ^^^ k i := rfl

/-- The round key of round `r` in a vector of round keys. -/
def roundKeyBlock (roundKey : Bytes) (r : ℕ) : Block :=
  fun i => roundKey.getD (Nstate * r + i.val) 0

theorem addRoundKey_eq {roundKey : Bytes} {r : ℕ} (h : 16 * r + 16 ≤ roundKey.length) (s : Block) :
    addRoundKey (List.ofFn s) roundKey r =
      .ok (List.ofFn (xorPerm (roundKeyBlock roundKey r) s)) := by
  refine forUp_update s (fun i x => x ^^^ roundKeyBlock roundKey r i) (by decide) ?_
  intro i v hi
  have hlt : 16 * r + i.val < roundKey.length := by omega
  rw [load_ok hlt, ok_bind, xorAssign_eq hi]
  simp [roundKeyBlock, hlt]

theorem xorIv_eq (iv s : Block) :
    xorIv (List.ofFn s) (List.ofFn iv) = .ok (List.ofFn (xorPerm iv s)) := by
  refine forUp_update s (fun i x => x ^^^ iv i) (by decide) ?_
  intro i v hi
  rw [load_ofFn iv i.isLt, ok_bind, xorAssign_eq hi, UInt8.ofNat_toNat]

/-! ## Substitution -/

/-- The entry of `sbox_` for a byte. -/
def sub (b : UInt8) : UInt8 := sbox.getD b.toNat 0

/-- The entry of `inv_sbox_` for a byte. -/
def invSub (b : UInt8) : UInt8 := invSbox.getD b.toNat 0

/-- Mapping each table over the other gives the bytes in order. -/
theorem map_invSub_sbox : sbox.map invSub = (List.range 256).map UInt8.ofNat := by decide +kernel

theorem map_sub_invSbox : invSbox.map sub = (List.range 256).map UInt8.ofNat := by decide +kernel

section table

variable {table : Bytes} {f : UInt8 → UInt8}

theorem length_table (h : table.map f = (List.range 256).map UInt8.ofNat) :
    table.length = 256 := by
  have hl := congrArg List.length h
  rwa [List.length_map, List.length_map, List.length_range] at hl

/-- If mapping `f` over a table gives the bytes in order, then `f` undoes the table. -/
theorem getD_left_inv (h : table.map f = (List.range 256).map UInt8.ofNat) (b : UInt8) :
    f (table.getD b.toNat 0) = b := by
  have hlen : b.toNat < table.length := (length_table h).symm ▸ b.toNat_lt
  have hb : (table.map f)[b.toNat]? = some b := by
    rw [h, List.getElem?_map, List.getElem?_range b.toNat_lt, Option.map_some, UInt8.ofNat_toNat]
  rw [List.getElem?_map, List.getElem?_eq_getElem hlen] at hb
  rw [List.getD_eq_getElem _ _ hlen]
  exact Option.some.inj hb

end table

theorem length_sbox : sbox.length = 256 := length_table map_invSub_sbox

theorem length_invSbox : invSbox.length = 256 := length_table map_sub_invSbox

theorem mappingSBox_eq (b : UInt8) : mappingSBox b = .ok (sub b) := by
  have hlt : b.toNat < sbox.length := length_sbox.symm ▸ b.toNat_lt
  exact load_getD hlt 0

theorem mappingInvSBox_eq (b : UInt8) : mappingInvSBox b = .ok (invSub b) := by
  have hlt : b.toNat < invSbox.length := length_invSbox.symm ▸ b.toNat_lt
  exact load_getD hlt 0

theorem invSub_sub (b : UInt8) : invSub (sub b) = b := getD_left_inv map_invSub_sbox b

theorem sub_invSub (b : UInt8) : sub (invSub b) = b := getD_left_inv map_sub_invSbox b

/-- The substitution table as a permutation of the bytes. -/
def sboxPerm : Equiv.Perm UInt8 where
  toFun := sub
  invFun := invSub
  left_inv := invSub_sub
  right_inv := sub_invSub

/-- Substitution of every byte. -/
def subPerm : Equiv.Perm Block := (Equiv.refl (Fin 16)).arrowCongr sboxPerm

theorem subBytes_eq (s : Block) : subBytes (List.ofFn s) = .ok (List.ofFn (subPerm s)) := by
  refine forUp_update s (fun _ x => sub x) (by decide) ?_
  intro i v hi
  obtain ⟨hlt, -⟩ := List.getElem?_eq_some_iff.mp hi
  rw [load_eq_of_getElem? hi, ok_bind, mappingSBox_eq, ok_bind, store_ok hlt]

theorem invSubBytes_eq (s : Block) :
    invSubBytes (List.ofFn s) = .ok (List.ofFn (subPerm.symm s)) := by
  refine forUp_update s (fun _ x => invSub x) (by decide) ?_
  intro i v hi
  obtain ⟨hlt, -⟩ := List.getElem?_eq_some_iff.mp hi
  rw [load_eq_of_getElem? hi, ok_bind, mappingInvSBox_eq, ok_bind, store_ok hlt]

/-! ## Transposition -/

/-- Where `ShiftRows` takes byte `i` from: the same row `i % 4`, that many
columns to the right. -/
def shiftIndex : Equiv.Perm (Fin 16) where
  toFun i := i + 4 * (i % 4)
  invFun i := i - 4 * (i % 4)
  left_inv := by decide
  right_inv := by decide

/-- Rotation of row `r` by `r` to the left. -/
def shiftPerm : Equiv.Perm Block := shiftIndex.symm.arrowCongr (Equiv.refl UInt8)

theorem shiftRows_list (a b c d e f g h i j k l m n o p : UInt8) :
    shiftRows [a, b, c, d, e, f, g, h, i, j, k, l, m, n, o, p] =
      .ok [a, f, k, p, e, j, o, d, i, n, c, h, m, b, g, l] := by
  simp [shiftRows, load, store]

theorem invShiftRows_list (a b c d e f g h i j k l m n o p : UInt8) :
    invShiftRows [a, b, c, d, e, f, g, h, i, j, k, l, m, n, o, p] =
      .ok [a, n, k, h, e, b, o, l, i, f, c, p, m, j, g, d] := by
  simp [invShiftRows, load, store]

theorem shiftRows_eq (s : Block) : shiftRows (List.ofFn s) = .ok (List.ofFn (shiftPerm s)) :=
  shiftRows_list (s 0) (s 1) (s 2) (s 3) (s 4) (s 5) (s 6) (s 7) (s 8) (s 9) (s 10) (s 11) (s 12)
    (s 13) (s 14) (s 15)

theorem invShiftRows_eq (s : Block) :
    invShiftRows (List.ofFn s) = .ok (List.ofFn (shiftPerm.symm s)) :=
  invShiftRows_list (s 0) (s 1) (s 2) (s 3) (s 4) (s 5) (s 6) (s 7) (s 8) (s 9) (s 10) (s 11)
    (s 12) (s 13) (s 14) (s 15)

/-! ## Mixing -/

/-- The row of byte `q`. -/
def row (q : Fin 16) : Fin 4 := ⟨q.val % 4, by omega⟩

/-- The column of byte `q`. -/
def col (q : Fin 16) : Fin 4 := ⟨q.val / 4, by omega⟩

/-- The byte in row `r` of column `c`. -/
def cell (c r : Fin 4) : Fin 16 := ⟨c.val * 4 + r.val, by omega⟩

theorem row_cell (c r : Fin 4) : row (cell c r) = r := by
  simp only [row, cell, Fin.ext_iff]
  omega

theorem col_cell (c r : Fin 4) : col (cell c r) = c := by
  simp only [col, cell, Fin.ext_iff]
  omega

theorem cell_col_row (q : Fin 16) : cell (col q) (row q) = q := by
  simp only [col, row, cell, Fin.ext_iff]
  omega

/-- Every column multiplied by the matrix `M`. -/
def mixWith (M : Fin 4 → Fin 4 → UInt8) (s : Block) : Block := fun q =>
  (∑ r, GByte.mulHom (M (row q) r) ⟨s (cell (col q) r)⟩ : GByte).val

/-- The matrix of `MixColumns`. -/
def mixMatrix : Fin 4 → Fin 4 → UInt8 :=
  ![![2, 3, 1, 1], ![1, 2, 3, 1], ![1, 1, 2, 3], ![3, 1, 1, 2]]

/-- The matrix of `InvMixColumns`. -/
def invMixMatrix : Fin 4 → Fin 4 → UInt8 :=
  ![![14, 11, 13, 9], ![9, 14, 11, 13], ![13, 9, 14, 11], ![11, 13, 9, 14]]

/-- Matrices whose product is the identity give inverse column maps. -/
theorem mixWith_left_inv {M N : Fin 4 → Fin 4 → UInt8}
    (h : ∀ i k, ∑ j, (GByte.mulHom (N i j)).comp (GByte.mulHom (M j k)) =
      if i = k then AddMonoidHom.id GByte else 0)
    (s : Block) : mixWith N (mixWith M s) = s := by
  funext q
  have hcol := linear_left_inv (fun j k => GByte.mulHom (M j k)) (fun i j => GByte.mulHom (N i j))
    h (fun r => ⟨s (cell (col q) r)⟩) (row q)
  rw [cell_col_row] at hcol
  simpa only [mixWith, row_cell, col_cell] using congrArg GByte.val hcol

theorem invMixMatrix_mul_mixMatrix (i k : Fin 4) :
    ∑ j, (GByte.mulHom (invMixMatrix i j)).comp (GByte.mulHom (mixMatrix j k)) =
      if i = k then AddMonoidHom.id GByte else 0 := by
  apply hom_ext_bits
  revert i k
  decide +kernel

theorem mixWith_invMixMatrix_mixMatrix :
    Function.LeftInverse (mixWith invMixMatrix) (mixWith mixMatrix) :=
  mixWith_left_inv invMixMatrix_mul_mixMatrix

/-- There are finitely many blocks, so the inverse is one on both sides. -/
theorem mixWith_mixMatrix_invMixMatrix :
    Function.RightInverse (mixWith invMixMatrix) (mixWith mixMatrix) := by
  have hbyte : Finite UInt8 := Finite.of_injective UInt8.toFin fun _ _ h => UInt8.toFin_inj.mp h
  have hinj := mixWith_invMixMatrix_mixMatrix.injective
  exact mixWith_invMixMatrix_mixMatrix.rightInverse_of_surjective
    (Finite.injective_iff_surjective.mp hinj)

/-- Mixing of every column. -/
def mixPerm : Equiv.Perm Block where
  toFun := mixWith mixMatrix
  invFun := mixWith invMixMatrix
  left_inv := mixWith_invMixMatrix_mixMatrix
  right_inv := mixWith_mixMatrix_invMixMatrix

theorem mixPerm_apply (s : Block) : mixPerm s = mixWith mixMatrix s := rfl

theorem mixPerm_symm_apply (s : Block) : mixPerm.symm s = mixWith invMixMatrix s := rfl

/-- The macro `multiply`, once its result is narrowed to a byte. -/
theorem ofNat_multiply (a : ℕ) : UInt8.ofNat (multiply a) = xtime (UInt8.ofNat a) := by
  have hbit : a >>> 7 &&& 1 = (UInt8.ofNat a >>> 7).toNat := by
    rw [UInt8.toNat_shiftRight, UInt8.toNat_ofNat', Nat.and_one_is_mod, Nat.shiftRight_eq_div_pow,
      Nat.shiftRight_eq_div_pow]
    simp
    omega
  rw [multiply, xtime, hbit, UInt8.ofNat_xor, UInt8.ofNat_mul, UInt8.ofNat_toNat,
    UInt8.ofNat_shiftLeft _ _ (by decide)]
  rfl

/-- `temp` on the way: entries before `p` have their final value, the rest are zero. -/
def mixedBelow (M : Fin 4 → Fin 4 → UInt8) (s : Block) (p : ℕ) : Block :=
  fun q => if q.val < p then mixWith M s q else 0

theorem mixedBelow_end (M : Fin 4 → Fin 4 → UInt8) (s : Block) :
    mixedBelow M s (4 * 4) = mixWith M s :=
  funext fun q => if_pos q.isLt

theorem update_mixedBelow (M : Fin 4 → Fin 4 → UInt8) (s : Block) (q : Fin 16) :
    Function.update (mixedBelow M s q.val) q (mixWith M s q) = mixedBelow M s (q.val + 1) := by
  funext q'
  rcases eq_or_ne q' q with rfl | hne
  · rw [Function.update_self, mixedBelow, if_pos (Nat.lt_succ_self _)]
  · have hval : q'.val ≠ q.val := fun h => hne (Fin.ext h)
    rw [Function.update_of_ne hne, mixedBelow, mixedBelow]
    simp only [Nat.lt_succ_iff_lt_or_eq, hval, or_false]

/-- An entry of a mixed block, as the loop adds it up. -/
theorem mixWith_cell (M : Fin 4 → Fin 4 → UInt8) (s : Block) (c r : Fin 4) :
    mixWith M s (cell c r) = 0 ^^^ mul (M r 0) (s (cell c 0)) ^^^ mul (M r 1) (s (cell c 1)) ^^^
      mul (M r 2) (s (cell c 2)) ^^^ mul (M r 3) (s (cell c 3)) := by
  rw [mixWith, row_cell, col_cell, Fin.sum_univ_four, UInt8.zero_xor]
  rfl

/-- The triple loop of `MixColumns` and its inverse: entry `(c, r)` of `temp`
collects the products of row `r` of the matrix with column `c` of the state. -/
theorem columnLoop (s : Block) (M : Fin 4 → Fin 4 → UInt8) {body : ℕ → ℕ → ℕ → Bytes → Exec Bytes}
    (hbody : ∀ (c r k : Fin 4) (v : Bytes) (y : UInt8), v[(cell c r).val]? = some y →
      body c r (r.val * 4 + k.val) v =
        .ok (v.set (cell c r).val (y ^^^ mul (M r k) (s (cell c k))))) :
    forUp 8 0 Bsize (List.replicate Nstate 0) (fun i t => forUp 8 0 Ncol t fun j t =>
      forUp 8 (j * 4) (j * 4 + 4) t (body i j)) = .ok (List.ofFn (mixWith M s)) := by
  have hstart : List.replicate 16 0 = List.ofFn (mixedBelow M s (0 * 4)) := rfl
  rw [hstart, ← mixedBelow_end]
  refine forUp_eq (fun i => List.ofFn (mixedBelow M s (i * 4))) (by decide) (by decide) ?_
  intro i _ (hi : i < 4)
  rw [Nat.succ_mul]
  refine forUp_eq (fun j => List.ofFn (mixedBelow M s (i * 4 + j))) (by decide) (by decide) ?_
  intro j _ (hj : j < 4)
  -- the innermost loop rewrites the one entry `cell c r`
  let c : Fin 4 := ⟨i, hi⟩
  let r : Fin 4 := ⟨j, hj⟩
  have hzero : (List.ofFn (mixedBelow M s (cell c r).val))[(cell c r).val]? = some 0 := by
    rw [List.getElem?_ofFn, dif_pos (cell c r).isLt, mixedBelow, if_neg (lt_irrefl _)]
  have hacc : forUp 8 (j * 4) (j * 4 + 4) (List.ofFn (mixedBelow M s (cell c r).val)) (body i j) =
      .ok ((List.ofFn (mixedBelow M s (cell c r).val)).set (cell c r).val
        (mixWith M s (cell c r))) := by
    rw [mixWith_cell]
    refine forUp_accumulate
      (fun k y => y ^^^ mul (M r (Fin.ofNat 4 k)) (s (cell c (Fin.ofNat 4 k)))) (by omega) hzero ?_
    intro k u y hk hu
    have hk' : Fin.ofNat 4 k = ⟨k, hk⟩ := Fin.ext (Nat.mod_eq_of_lt hk)
    rw [hk']
    exact hbody c r ⟨k, hk⟩ u y hu
  rw [set_ofFn _ (cell c r).isLt, update_mixedBelow] at hacc
  exact hacc

/-- Copying one vector of 16 bytes over another. -/
theorem copyLoop (s t : Block) :
    forUp 8 0 Nstate (List.ofFn s) (fun i state => do store state i (← load (List.ofFn t) i)) =
      .ok (List.ofFn t) := by
  refine forUp_update s (fun i _ => t i) (by decide) ?_
  intro i v hi
  obtain ⟨hlt, -⟩ := List.getElem?_eq_some_iff.mp hi
  rw [load_ofFn t i.isLt, ok_bind, store_ok hlt]

theorem load_cell (s : Block) (c r k : Fin 4) :
    load (List.ofFn s) (c.val * 4 + (r.val * 4 + k.val) % 4) = .ok (s (cell c k)) := by
  have hidx : c.val * 4 + (r.val * 4 + k.val) % 4 = (cell c k).val := by
    simp only [cell]
    omega
  rw [hidx, load_ofFn s (cell c k).isLt]

theorem load_mixFixed (r k : Fin 4) : load mixFixed (r.val * 4 + k.val) = .ok (mixMatrix r k) := by
  revert r k
  decide

theorem load_invMixFixed (r k : Fin 4) :
    load invMixFixed (r.val * 4 + k.val) = .ok (invMixMatrix r k) := by
  revert r k
  decide

theorem mixMatrix_cases (r k : Fin 4) :
    mixMatrix r k = 1 ∨ mixMatrix r k = 2 ∨ mixMatrix r k = 3 := by
  revert r k
  decide

theorem invMixMatrix_cases (r k : Fin 4) : invMixMatrix r k = 9 ∨ invMixMatrix r k = 11 ∨
    invMixMatrix r k = 13 ∨ invMixMatrix r k = 14 := by
  revert r k
  decide

theorem mixColumns_eq (s : Block) : mixColumns (List.ofFn s) = .ok (List.ofFn (mixPerm s)) := by
  unfold mixColumns
  rw [columnLoop s mixMatrix, ok_bind, copyLoop, mixPerm_apply]
  intro c r k v y hv
  have hlt : (cell c r).val < v.length := (List.getElem?_eq_some_iff.mp hv).1
  have hentry : c.val * Ncol + r.val = (cell c r).val := rfl
  simp only [load_cell, load_mixFixed, ok_bind, hentry, xorAssign_eq hv, xorAssign_set hlt,
    ofNat_multiply, UInt8.ofNat_toNat, pure_eq_ok]
  rcases mixMatrix_cases r k with h | h | h <;> rw [h]
  · rw [if_pos rfl, mul_one_left]
  · rw [if_neg (by decide), if_neg (by decide), mul_two]
  · rw [if_neg (by decide), if_pos rfl, mul_three, UInt8.xor_assoc]

theorem invMixColumns_eq (s : Block) :
    invMixColumns (List.ofFn s) = .ok (List.ofFn (mixPerm.symm s)) := by
  unfold invMixColumns
  rw [columnLoop s invMixMatrix, ok_bind, copyLoop, mixPerm_symm_apply]
  intro c r k v y hv
  have hlt : (cell c r).val < v.length := (List.getElem?_eq_some_iff.mp hv).1
  have hentry : c.val * Ncol + r.val = (cell c r).val := rfl
  obtain ⟨h9, h11, h13, h14⟩ := mul_nine_eleven_thirteen_fourteen (s (cell c k))
  simp only [load_cell, load_invMixFixed, ok_bind, hentry, xorAssign_eq hv, xorAssign_set hlt,
    ofNat_multiply, UInt8.ofNat_toNat, pure_eq_ok]
  rcases invMixMatrix_cases r k with h | h | h | h <;> rw [h]
  · simp [h9, UInt8.xor_assoc]
  · simp [h11, UInt8.xor_assoc]
  · simp [h13, UInt8.xor_assoc]
  · simp [h14, UInt8.xor_assoc]

/-! ## The cipher -/

/-- The layers of the cipher under a vector of round keys. -/
def layers (roundKey : Bytes) : Layers Block where
  sub := subPerm
  shift := shiftPerm
  mix := mixPerm
  add r := xorPerm (roundKeyBlock roundKey r)

/-- The block cipher with `nround` rounds under a vector of round keys. -/
def blockPerm (nround : ℕ) (roundKey : Bytes) : Equiv.Perm Block :=
  (layers roundKey).cipher (nround - 1)

/-- A key has at least four words. -/
theorem four_le_nkey (aes : AES) : 4 ≤ aes.nkey := by
  rcases aes.nkey_mem with h | h | h <;> omega

/-- The constructor leaves at least one round. -/
theorem nround_pos (aes : AES) : 1 ≤ aes.nround := by
  rw [aes.nround_eq]
  omega

theorem nround_le (aes : AES) : aes.nround ≤ 14 := by
  rw [aes.nround_eq]
  rcases aes.nkey_mem with h | h | h <;> omega

variable {aes : AES} {roundKey : Bytes}

/-- There is a round key for every round. -/
theorem addRoundKey_layers (hlen : roundKey.length = 16 * (aes.nround + 1)) {r : ℕ}
    (hr : r ≤ aes.nround) (t : Block) :
    addRoundKey (List.ofFn t) roundKey r = .ok (List.ofFn ((layers roundKey).add r t)) :=
  addRoundKey_eq (by omega) t

/-- `_encryption` computes the block cipher. -/
theorem encryptionState_eq (hlen : roundKey.length = 16 * (aes.nround + 1)) (s : Block) :
    encryptionState aes (List.ofFn s) roundKey =
      .ok (List.ofFn (blockPerm aes.nround roundKey s)) := by
  have hpos := nround_pos aes
  have hle := nround_le aes
  let L := layers roundKey
  have hloop : forUp 8 1 aes.nround (List.ofFn (L.rounds (1 - 1) s)) (fun i state => do
      let state ← subBytes state
      let state ← shiftRows state
      let state ← mixColumns state
      addRoundKey state roundKey i) = .ok (List.ofFn (L.rounds (aes.nround - 1) s)) := by
    refine forUp_eq (fun i => List.ofFn (L.rounds (i - 1) s)) hpos (by omega) ?_
    intro i hi hin
    obtain ⟨n, rfl⟩ : ∃ n, i = n + 1 := ⟨i - 1, by omega⟩
    simp only [subBytes_eq, shiftRows_eq, mixColumns_eq, ok_bind, Nat.add_sub_cancel,
      L.rounds_succ_apply, addRoundKey_layers hlen (Nat.le_of_lt hin)]
    rfl
  rw [encryptionState, addRoundKey_layers hlen (Nat.zero_le _), ok_bind]
  refine (congrArg (· >>= _) hloop).trans ?_
  simp only [ok_bind, subBytes_eq, shiftRows_eq, addRoundKey_layers hlen (le_refl _)]
  rw [blockPerm, Layers.cipher_apply, Nat.sub_add_cancel hpos]
  rfl

/-- Adding a round key twice. -/
theorem layers_add_add (roundKey : Bytes) (r : ℕ) (s : Block) :
    (layers roundKey).add r ((layers roundKey).add r s) = s :=
  (xorPerm (roundKeyBlock roundKey r)).left_inv s

/-- Counting down from `n` in a `uint8_t`. -/
theorem wrapSub_counter {n k : ℕ} (hn : n < 256) (hk : k < n) :
    decide (0 < n - k) = true ∧ wrapSub 8 (n - k) 1 = n - (k + 1) := by
  refine ⟨decide_eq_true (by omega), ?_⟩
  rw [wrapSub]
  omega

theorem invShiftRows_layers (t : Block) :
    invShiftRows (List.ofFn ((layers roundKey).shift t)) = .ok (List.ofFn t) := by
  have h := invShiftRows_eq (shiftPerm t)
  rwa [Equiv.symm_apply_apply] at h

theorem invSubBytes_layers (t : Block) :
    invSubBytes (List.ofFn ((layers roundKey).sub t)) = .ok (List.ofFn t) := by
  have h := invSubBytes_eq (subPerm t)
  rwa [Equiv.symm_apply_apply] at h

theorem invMixColumns_layers (t : Block) :
    invMixColumns (List.ofFn ((layers roundKey).mix t)) = .ok (List.ofFn t) := by
  have h := invMixColumns_eq (mixPerm t)
  rwa [Equiv.symm_apply_apply] at h

/-- `_decryption` undoes the block cipher. Entering the loop body with counter
`i`, the state is the one encryption had before mixing in round `i + 1`. -/
theorem decryptionState_blockPerm (hlen : roundKey.length = 16 * (aes.nround + 1)) (s : Block) :
    decryptionState aes (List.ofFn (blockPerm aes.nround roundKey s)) roundKey =
      .ok (List.ofFn s) := by
  have hpos := nround_pos aes
  have hle := nround_le aes
  let L := layers roundKey
  let m := aes.nround - 1
  have hloop : loop (fun i => decide (0 < i)) (fun i => wrapSub 8 i 1)
      (fun i state => do
        let state ← invShiftRows state
        let state ← invSubBytes state
        let state ← addRoundKey state roundKey i
        let state ← invMixColumns state
        return Flow.next state)
      (2 ^ 8 + 1) (m - 0) (List.ofFn (L.shift (L.sub (L.rounds (m - 0) s)))) =
      .ok (List.ofFn (L.shift (L.sub (L.rounds (m - m) s)))) := by
    refine loop_eq (fun k => m - k) (fun k => List.ofFn (L.shift (L.sub (L.rounds (m - k) s))))
      (by omega) (fun k hk => wrapSub_counter (by omega) hk) (decide_eq_false (by omega)) ?_
    intro k hk
    obtain ⟨i, hi⟩ : ∃ i, m - k = i + 1 := ⟨m - k - 1, by omega⟩
    have hi' : m - (k + 1) = i := by omega
    simp only [L, hi, hi', invShiftRows_layers, invSubBytes_layers, ok_bind,
      Layers.rounds_succ_apply, addRoundKey_layers hlen (by omega : i + 1 ≤ aes.nround),
      layers_add_add, invMixColumns_layers, pure_eq_ok]
  have hstart : wrapSub 8 aes.nround 1 = m - 0 := by
    rw [wrapSub]
    omega
  rw [blockPerm, Layers.cipher_apply, Nat.sub_add_cancel hpos, decryptionState,
    addRoundKey_layers hlen (le_refl _), ok_bind, layers_add_add, hstart]
  refine (congrArg (· >>= _) hloop).trans ?_
  simp only [L, ok_bind, invShiftRows_layers, invSubBytes_layers, Nat.sub_self,
    Layers.rounds_zero_apply, addRoundKey_layers hlen (Nat.zero_le _), layers_add_add]

/-- `_decryption` computes the inverse of the block cipher. -/
theorem decryptionState_eq (hlen : roundKey.length = 16 * (aes.nround + 1)) (s : Block) :
    decryptionState aes (List.ofFn s) roundKey =
      .ok (List.ofFn ((blockPerm aes.nround roundKey).symm s)) := by
  have h := decryptionState_blockPerm hlen ((blockPerm aes.nround roundKey).symm s)
  rwa [Equiv.apply_symm_apply] at h

end AES

end SimpleVpn
