import SimpleVpn.AesMode
import SimpleVpn.Fips197

/-!
# The code against FIPS-197

The block functions of the class and its key expansion compute what the standard
defines. The reference in `Fips197` inverts in the field of 256 elements and
multiplies polynomials; the code looks bytes up in tables, moves them with
assignments written out by hand and shifts. Layer by layer they agree on the
rows and columns of a block (`toState`), so the ciphers agree.
-/

namespace SimpleVpn

open Exec BlockCipher GaloisByte

namespace AES

/-! ## Rows and columns -/

/-- The rows and columns of a block. -/
def toState (s : Block) : Fips197.State := fun r c => s (cell c r)

theorem toBytes_toState (s : Block) : Fips197.toBytes (toState s) = List.ofFn s := rfl

theorem four_mul_add (c r : Fin 4) : 4 * c.val + r.val = (cell c r).val := by
  rw [Nat.mul_comm]
  rfl

theorem ofBytes_ofFn (s : Block) : Fips197.ofBytes (List.ofFn s) = toState s := by
  funext r c
  have hlt : (cell c r).val < (List.ofFn s).length := by
    rw [List.length_ofFn]
    exact (cell c r).isLt
  rw [Fips197.ofBytes, four_mul_add, List.getD_eq_getElem _ _ hlt, List.getElem_ofFn]
  rfl

/-- The round key of round `r` starts at byte `16 * r`. -/
theorem toState_roundKeyBlock (roundKey : Bytes) (r : ℕ) :
    toState (roundKeyBlock roundKey r) = Fips197.ofBytes (roundKey.drop (16 * r)) := by
  funext i c
  rw [toState, roundKeyBlock, Fips197.ofBytes, four_mul_add, List.getD_eq_getElem?_getD,
    List.getD_eq_getElem?_getD, List.getElem?_drop]

/-! ## The layers -/

/-- The table, entry by entry. -/
theorem map_affine_invTable : GF.invTable.map Fips197.affine = sbox := by decide +kernel

/-- The table is the S-box of the standard. -/
theorem sub_eq_sbox (b : UInt8) : sub b = Fips197.sbox b := by
  have hlt : b.toNat < GF.invTable.length := by
    have hlen := congrArg List.length map_affine_invTable
    rw [List.length_map, length_sbox] at hlen
    exact hlen ▸ b.toNat_lt
  have hentry : (GF.invTable.map Fips197.affine)[b.toNat]? = some (Fips197.sbox b) := by
    rw [List.getElem?_map, List.getElem?_eq_getElem hlt, Option.map_some, Fips197.sbox_eq, GF.inv,
      List.getD_eq_getElem _ _ hlt]
  rw [map_affine_invTable] at hentry
  rw [sub, List.getD_eq_getElem?_getD, hentry, Option.getD_some]

theorem toState_subPerm (s : Block) : toState (subPerm s) = Fips197.subBytes (toState s) :=
  funext fun r => funext fun c => sub_eq_sbox (s (cell c r))

theorem toState_shiftPerm (s : Block) : toState (shiftPerm s) = Fips197.shiftRows (toState s) := by
  have hindex : ∀ r c : Fin 4, shiftIndex (cell c r) = cell (c + r) r := by decide
  exact funext fun r => funext fun c => congrArg s (hindex r c)

theorem toState_mixPerm (s : Block) : toState (mixPerm s) = Fips197.mixColumns (toState s) := by
  funext r c
  rw [toState, mixPerm_apply, mixWith_cell, UInt8.zero_xor, Fips197.mixColumns,
    Fips197.mixColumn_eq]
  fin_cases r <;> rfl

theorem toState_xorPerm (k s : Block) :
    toState (xorPerm k s) = Fips197.addRoundKey (toState k) (toState s) := rfl

/-! ## Encryption -/

section cipher

variable (roundKey : Bytes)

/-- The round keys of a vector. -/
def roundKeys (r : ℕ) : Fips197.State := Fips197.ofBytes (roundKey.drop (16 * r))

theorem toState_add (r : ℕ) (s : Block) : toState ((layers roundKey).add r s) =
    Fips197.addRoundKey (roundKeys roundKey r) (toState s) := by
  rw [roundKeys, ← toState_roundKeyBlock]
  exact toState_xorPerm (roundKeyBlock roundKey r) s

/-- Round by round, the code's cipher is the standard's. -/
theorem toState_rounds (s : Block) (n : ℕ) :
    toState ((layers roundKey).rounds n s) = Fips197.rounds (roundKeys roundKey) (toState s) n := by
  induction n with
  | zero => exact toState_add roundKey 0 s
  | succ n ih =>
    rw [Layers.rounds_succ_apply, toState_add, Fips197.rounds, ← ih, ← toState_subPerm,
      ← toState_shiftPerm, ← toState_mixPerm]
    rfl

theorem toState_blockPerm {nround : ℕ} (hpos : 1 ≤ nround) (s : Block) :
    toState (blockPerm nround roundKey s) =
      Fips197.cipher nround (roundKeys roundKey) (toState s) := by
  rw [blockPerm, Layers.cipher_apply, toState_add, Nat.sub_add_cancel hpos, Fips197.cipher,
    ← toState_rounds, ← toState_subPerm, ← toState_shiftPerm]
  rfl

end cipher

/-- **`_encryption` is the cipher of FIPS-197**, for every key size, every vector
of round keys and every state. -/
theorem encryptionState_fips (aes : AES) {state roundKey : Bytes} (hstate : state.length = 16)
    (hkey : roundKey.length = 16 * (aes.nround + 1)) :
    encryptionState aes state roundKey =
      .ok (Fips197.cipherBytes aes.nround roundKey state) := by
  obtain ⟨s, rfl⟩ := exists_block hstate
  rw [encryptionState_eq hkey, Fips197.cipherBytes, ofBytes_ofFn, ← toBytes_toState,
    toState_blockPerm roundKey (nround_pos aes)]
  rfl

/-- The bytes 0, 1, 2 and so on. -/
def countingBytes (n : ℕ) : Bytes := (List.range n).map UInt8.ofNat

theorem length_countingBytes (n : ℕ) : (countingBytes n).length = n := by
  rw [countingBytes, List.length_map, List.length_range]

theorem encryptionState_fips_counting :
    encryptionState aes128 (countingBytes 16) (countingBytes 176) =
      .ok (Fips197.cipherBytes 10 (countingBytes 176) (countingBytes 16)) :=
  encryptionState_fips aes128 (length_countingBytes 16) (length_countingBytes 176)

/-! ## Decryption -/

/-- **`_decryption` and `_encryption` are mutually inverse**, for every key size,
every vector of round keys and every state. -/
theorem decryptionState_encryptionState (aes : AES) {state roundKey : Bytes}
    (hstate : state.length = 16) (hkey : roundKey.length = 16 * (aes.nround + 1)) :
    (do
      let c ← encryptionState aes state roundKey
      decryptionState aes c roundKey) = .ok state ∧
    (do
      let p ← decryptionState aes state roundKey
      encryptionState aes p roundKey) = .ok state := by
  obtain ⟨s, rfl⟩ := exists_block hstate
  refine ⟨?_, ?_⟩
  · rw [encryptionState_eq hkey, ok_bind, decryptionState_eq hkey, Equiv.symm_apply_apply]
  · rw [decryptionState_eq hkey, ok_bind, encryptionState_eq hkey, Equiv.apply_symm_apply]

theorem decryptionState_encryptionState_counting :
    (do
      let c ← encryptionState aes128 (countingBytes 16) (countingBytes 176)
      decryptionState aes128 c (countingBytes 176)) = .ok (countingBytes 16) ∧
    (do
      let p ← decryptionState aes128 (countingBytes 16) (countingBytes 176)
      encryptionState aes128 p (countingBytes 176)) = .ok (countingBytes 16) :=
  decryptionState_encryptionState aes128 (length_countingBytes 16) (length_countingBytes 176)

/-! ## Key expansion -/

/-- The bytes of a word. -/
def toWord (w : Word) : Fips197.Word := ![w.b0, w.b1, w.b2, w.b3]

theorem words_eq_wordAt (v : Bytes) (k : ℕ) : Fips197.words v k = toWord (wordAt v k) := by
  funext r
  rw [Fips197.words, Nat.mul_comm]
  fin_cases r <;> rfl

theorem toWord_addWord (v w : Word) :
    toWord (addWord v w) = Fips197.xorWord (toWord v) (toWord w) := by
  funext r
  fin_cases r <;> rfl

theorem toWord_sub (a b c d : UInt8) :
    toWord ⟨sub a, sub b, sub c, sub d⟩ = Fips197.subWord ![a, b, c, d] := by
  funext r
  fin_cases r <;> exact sub_eq_sbox _

/-- The table of round constants holds the powers of `x`. -/
theorem rcon_eq {j : ℕ} (h0 : 0 < j) (hj : j < rcon.length) :
    Fips197.rcon j = toWord ⟨rcon.getD j 0, 0, 0, 0⟩ := by
  obtain ⟨k, rfl⟩ : ∃ k, j = k + 1 := ⟨j - 1, by omega⟩
  have hpow : ∀ k : Fin 10, xtime^[k] 1 = rcon.getD (k.val + 1) 0 := by decide
  have hk : k < 10 := Nat.lt_of_succ_lt_succ hj
  rw [Fips197.rcon_succ, hpow ⟨k, hk⟩]
  rfl

section expansion

variable {aes : AES} {i : ℕ}

/-- What the code adds to a word is `temp` of the standard. -/
theorem toWord_scheduleCore (hni : aes.nkey ≤ i) (hi : i < 4 * (aes.nround + 1)) (w : Word) :
    toWord (scheduleCore aes.nkey i w) = Fips197.temp aes.nkey i (toWord w) := by
  have hnk := four_le_nkey aes
  rw [scheduleCore, Fips197.temp]
  by_cases h0 : i % aes.nkey = 0
  · have hpos : 0 < i / aes.nkey := Nat.div_pos hni (by omega)
    rw [if_pos h0, if_pos h0, rcon_eq hpos (rcon_index_lt hi)]
    have hsum : (⟨sub w.b1 ^^^ rcon.getD (i / aes.nkey) 0, sub w.b2, sub w.b3, sub w.b0⟩ : Word) =
        addWord ⟨sub w.b1, sub w.b2, sub w.b3, sub w.b0⟩ ⟨rcon.getD (i / aes.nkey) 0, 0, 0, 0⟩ := by
      simp only [addWord, UInt8.xor_zero]
    have hrot : Fips197.rotWord (toWord w) = ![w.b1, w.b2, w.b3, w.b0] := by
      funext r
      fin_cases r <;> rfl
    rw [hsum, toWord_addWord, toWord_sub, hrot]
  · have h8 : (aes.nkey = 8 ∧ i % aes.nkey = 4) ↔ (6 < aes.nkey ∧ i % aes.nkey = 4) := by
      rcases aes.nkey_mem with h | h | h <;> omega
    rw [if_neg h0, if_neg h0]
    by_cases h4 : aes.nkey = 8 ∧ i % aes.nkey = 4
    · rw [if_pos h4, if_pos (h8.mp h4), toWord_sub]
      rfl
    · rw [if_neg h4, if_neg (mt h8.mpr h4)]

/-- The indices that iteration `i` of the second loop of `_expandKey` holds in
`uint8_t`s do not wrap, and everything it indexes is there. -/
structure IndicesExact (aes : AES) (i : ℕ) : Prop where
  /-- the loop index -/
  index : wrap 8 i = i
  /-- the loop index, incremented -/
  index_succ : wrap 8 (i + 1) = i + 1
  /-- the offset of the word before -/
  i_1 : offset1 i = (i - 1) * 4
  /-- the offset of the word `Nkey_` places before -/
  i_4 : offset4 aes i = (i - aes.nkey) * 4
  /-- the bytes read and written are among the round keys -/
  in_range : (i - 1) * 4 + 3 < 16 * (aes.nround + 1) ∧
    (i - aes.nkey) * 4 + 3 < 16 * (aes.nround + 1) ∧ i * 4 + 3 < 16 * (aes.nround + 1)
  /-- the round constant is in the table -/
  rcon_in_range : i / aes.nkey < rcon.length

theorem indicesExact (hni : aes.nkey ≤ i) (hi : i < 4 * (aes.nround + 1)) : IndicesExact aes i := by
  have hle := nround_le aes
  have hnk := four_le_nkey aes
  refine ⟨?_, ?_, offset1_eq hi, offset4_eq hi, ⟨?_, ?_, ?_⟩, rcon_index_lt hi⟩
  · exact wrap_of_lt (by omega)
  · exact wrap_of_lt (by omega)
  · omega
  · omega
  · omega

end expansion

/-- **`_expandKey` is the key expansion of FIPS-197**, for every key size and
every cipher key, and no index it computes wraps or leaves its range. -/
theorem expandKey_fips (aes : AES) {cipherKey : Bytes} (hkey : cipherKey.length = 4 * aes.nkey) :
    (∃ roundKey, expandKey aes cipherKey = .ok roundKey ∧
      roundKey.length = 16 * (aes.nround + 1) ∧
      Fips197.IsKeyExpansion aes.nkey aes.nround (Fips197.words cipherKey)
        (Fips197.words roundKey)) ∧
    ∀ i, aes.nkey ≤ i → i < 4 * (aes.nround + 1) → IndicesExact aes i := by
  obtain ⟨roundKey, hrun, hlen, hwords⟩ := expandKey_eq hkey
  refine ⟨⟨roundKey, hrun, hlen, ?_, ?_⟩, fun i hni hi => indicesExact hni hi⟩
  · intro i hi
    have hr := aes.nround_eq
    rw [words_eq_wordAt, words_eq_wordAt, hwords i (by omega), schedule_of_lt _ hi]
  · intro i hni hi
    have hnk := four_le_nkey aes
    rw [words_eq_wordAt, words_eq_wordAt, words_eq_wordAt, hwords i hi, hwords _ (by omega),
      hwords _ (by omega), schedule_of_le _ (by omega) hni, toWord_addWord,
      toWord_scheduleCore hni hi]

theorem expandKey_fips_counting :
    (∃ roundKey, expandKey aes128 (countingBytes 16) = .ok roundKey ∧ roundKey.length = 176 ∧
      Fips197.IsKeyExpansion 4 10 (Fips197.words (countingBytes 16)) (Fips197.words roundKey)) ∧
    IndicesExact aes128 43 := by
  obtain ⟨hrun, hindices⟩ := expandKey_fips aes128 (length_countingBytes 16)
  exact ⟨hrun, hindices 43 (by decide) (by decide)⟩

end AES

end SimpleVpn
