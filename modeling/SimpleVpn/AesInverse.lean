import SimpleVpn.AesFips

/-!
# The inverse cipher of FIPS-197

`_decryption` computes `InvCipher`. The standard defines it by inverse layers of
their own: an inverse affine map before the inversion in the field, rows rotated
to the right, a second polynomial for the columns, and round keys that count
down. The code has a second table for the first and a second matrix for the third.
Layer by layer they agree, and with the layers the rounds (`toState_invRounds`).
-/

namespace SimpleVpn

open Exec BlockCipher GaloisByte

namespace AES

/-! ## The inverse layers -/

/-- The inverse table, entry by entry. -/
theorem map_inv_invAffine : ((List.range 256).map UInt8.ofNat).map
    (fun b => GF.inv (Fips197.invAffine b)) = invSbox := by decide +kernel

/-- The inverse table is the inverse S-box of the standard. -/
theorem invSub_eq_invSbox (b : UInt8) : invSub b = Fips197.invSbox b := by
  have hentry : invSbox[b.toNat]? = some (Fips197.invSbox b) := by
    rw [← map_inv_invAffine, List.getElem?_map, List.getElem?_map, List.getElem?_range b.toNat_lt,
      Option.map_some, Option.map_some, UInt8.ofNat_toNat, Fips197.invSbox_eq]
  rw [invSub, List.getD_eq_getElem?_getD, hentry, Option.getD_some]

theorem toState_subPerm_symm (s : Block) :
    toState (subPerm.symm s) = Fips197.invSubBytes (toState s) :=
  funext fun r => funext fun c => invSub_eq_invSbox (s (cell c r))

theorem toState_shiftPerm_symm (s : Block) :
    toState (shiftPerm.symm s) = Fips197.invShiftRows (toState s) := by
  have hindex : ∀ r c : Fin 4, shiftIndex.symm (cell c r) = cell (c - r) r := by decide
  exact funext fun r => funext fun c => congrArg s (hindex r c)

theorem toState_mixPerm_symm (s : Block) :
    toState (mixPerm.symm s) = Fips197.invMixColumns (toState s) := by
  funext r c
  rw [toState, mixPerm_symm_apply, mixWith_cell, UInt8.zero_xor, Fips197.invMixColumns,
    Fips197.invMixColumn_eq]
  fin_cases r <;> rfl

/-! ## Decryption -/

section invCipher

variable (roundKey : Bytes)

/-- Adding a round key is its own inverse. -/
theorem toState_add_symm (r : ℕ) (s : Block) : toState (((layers roundKey).add r).symm s) =
    Fips197.addRoundKey (roundKeys roundKey r) (toState s) := toState_add roundKey r s

/-- Round by round, from the last one down. -/
theorem toState_invRounds (n : ℕ) (s : Block) (k : ℕ) :
    toState ((layers roundKey).invRounds n k s) =
      Fips197.invRounds (n + 1) (roundKeys roundKey) (toState s) k := by
  induction k with
  | zero => exact toState_add_symm roundKey (n + 1) s
  | succ k ih =>
    rw [Layers.invRounds_succ_apply, Fips197.invRounds, ← ih, Nat.add_sub_add_right,
      ← toState_shiftPerm_symm, ← toState_subPerm_symm, ← toState_add_symm,
      ← toState_mixPerm_symm]
    rfl

theorem toState_blockPerm_symm {nround : ℕ} (hpos : 1 ≤ nround) (s : Block) :
    toState ((blockPerm nround roundKey).symm s) =
      Fips197.invCipher nround (roundKeys roundKey) (toState s) := by
  obtain ⟨n, rfl⟩ : ∃ n, nround = n + 1 := ⟨nround - 1, by omega⟩
  rw [blockPerm, Nat.add_sub_cancel, Layers.cipher_symm_apply, toState_add_symm, Fips197.invCipher,
    Nat.add_sub_cancel, ← toState_invRounds, ← toState_shiftPerm_symm, ← toState_subPerm_symm]
  rfl

end invCipher

/-- **`_decryption` is the inverse cipher of FIPS-197**, for every key size, every
vector of round keys and every state. -/
theorem decryptionState_fips (aes : AES) {state roundKey : Bytes} (hstate : state.length = 16)
    (hkey : roundKey.length = 16 * (aes.nround + 1)) :
    decryptionState aes state roundKey =
      .ok (Fips197.invCipherBytes aes.nround roundKey state) := by
  obtain ⟨s, rfl⟩ := exists_block hstate
  rw [decryptionState_eq hkey, Fips197.invCipherBytes, ofBytes_ofFn, ← toBytes_toState,
    toState_blockPerm_symm roundKey (nround_pos aes)]
  rfl

theorem decryptionState_fips_counting :
    decryptionState aes128 (countingBytes 16) (countingBytes 176) =
      .ok (Fips197.invCipherBytes 10 (countingBytes 176) (countingBytes 16)) :=
  decryptionState_fips aes128 (length_countingBytes 16) (length_countingBytes 176)

end AES

end SimpleVpn
