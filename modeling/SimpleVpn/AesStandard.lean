import SimpleVpn.AesPatterns
import SimpleVpn.AesSchedule

/-!
# The public calls against the standard

`encryption` and `decryption` from the outside: hex in, hex out, and between them
the cipher of FIPS-197 under the key schedule of FIPS-197. Group by group, the
cipher text is the standard's cipher of the padded window, to which CBC mode adds
the group before it (`encryption_fips`). `decryption` finds the states of which
that holds (`decryption_fips`).
-/

namespace SimpleVpn

open Exec Padding BlockCipher

namespace AES

/-- The round keys of a cipher key given in hex, by the standard. -/
structure StandardSchedule (aes : AES) (cipherKey : Str) (roundKey : Bytes) : Prop where
  /-- one round key more than rounds -/
  size : roundKey.length = 16 * (aes.nround + 1)
  /-- the words are those of `KeyExpansion` -/
  expands : Fips197.IsKeyExpansion aes.nkey aes.nround (Fips197.words (unhex cipherKey))
    (Fips197.words roundKey)

/-- What a mode enciphers for a block: the block itself, or its sum with the
cipher block before it. -/
def masked (mode : MODE) (previous block : Bytes) : Bytes :=
  match mode with
  | .ECB => block
  | .CBC => List.zipWith (· ^^^ ·) block previous

variable {aes : AES} {cipherKey : Str}

/-- The code's key schedule is the standard's. -/
theorem standardSchedule (hkey : ValidKey aes cipherKey) :
    StandardSchedule aes cipherKey (scheduleBytes aes (unhex cipherKey)) := by
  have hsize : (unhex cipherKey).length = 4 * aes.nkey := by
    rw [length_unhex, hkey.size]
    omega
  obtain ⟨hrun, hlen⟩ := expandKey_schedule hsize
  obtain ⟨roundKey, hrun', -, hwords⟩ := expandKey_eq hsize
  obtain rfl := Except.ok.inj (hrun.symm.trans hrun')
  have hr := aes.nround_eq
  have hnk := four_le_nkey aes
  refine ⟨hlen, fun i hi => ?_, fun i hni hi => ?_⟩
  · rw [words_eq_wordAt, words_eq_wordAt, hwords i (by omega), schedule_of_lt _ hi]
  · simp only [words_eq_wordAt]
    rw [hwords i hi, hwords _ (by omega), hwords _ (by omega), schedule_of_le _ (by omega) hni,
      toWord_addWord, toWord_scheduleCore hni hi]

/-- One block, masked and enciphered. -/
theorem cipher_fips (aes : AES) (cipherKey : Str) (u p : Block) :
    List.ofFn (aes.cipher cipherKey (mask aes.mode u p)) =
      Fips197.cipherBytes aes.nround (scheduleBytes aes (unhex cipherKey))
        (masked aes.mode (List.ofFn u) (List.ofFn p)) := by
  have hmask : masked aes.mode (List.ofFn u) (List.ofFn p) = List.ofFn (mask aes.mode u p) := by
    cases aes.mode with
    | ECB => rfl
    | CBC => exact zipWith_xor_ofFn p u
  rw [hmask, Fips197.cipherBytes, ofBytes_ofFn, AES.cipher, ← toBytes_toState,
    toState_blockPerm _ (nround_pos aes)]
  rfl

/-- Group `i` of the cipher text of the blocks `ps`. -/
theorem group_fips {c : Str} {n : ℕ} (hlen : c.length = 32 * n) {ps : List Block}
    (hcs : groupBlocks c n =
      encryptFrom (aes.cipher cipherKey) (mask aes.mode) (ivBlock aes) ps)
    {i : ℕ} {p : Block} (hp : ps[i]? = some p) :
    unhex (window 32 c i) =
      Fips197.cipherBytes aes.nround (scheduleBytes aes (unhex cipherKey))
        (masked aes.mode (previous aes c i) (List.ofFn p)) := by
  obtain ⟨hlt, rfl⟩ := List.getElem?_eq_some_iff.mp hp
  have hcount : ps.length = n := by
    rw [← length_groupBlocks c n, hcs, length_encryptFrom]
  have hi : i < n := hcount ▸ hlt
  have hgroup := getElem?_encryptFrom (aes.cipher cipherKey) (mask aes.mode) ps (ivBlock aes)
    (ivBlock aes) i hlt
  rw [← hcs, getElem?_groupBlocks hi, Option.some.injEq] at hgroup
  have hprevious : masked aes.mode (previous aes c i) (List.ofFn ps[i]) =
      masked aes.mode (List.ofFn ((ivBlock aes :: groupBlocks c n).getD i (ivBlock aes)))
        (List.ofFn ps[i]) := by
    cases hmode : aes.mode with
    | ECB => rfl
    | CBC => rw [previous_eq hmode hlen hi (ivBlock aes)]
  rw [hprevious, ← cipher_fips, ← hgroup, ofFn_groupBlock hlen hi]

/-- **`encryption` against the standard**: every group is the cipher of its padded
window under the standard's key schedule. -/
theorem encryption_fips (hkey : ValidKey aes cipherKey) {s : Str} (hs : IsMessage s) :
    ∃ roundKey aes' c, StandardSchedule aes cipherKey roundKey ∧
      aes.encryption s cipherKey = .ok (aes', c) ∧
      c.length = 32 * windowCount 16 (unhex s) ∧
      ∀ i < windowCount 16 (unhex s), unhex (window 32 c i) =
        Fips197.cipherBytes aes.nround roundKey
          (masked aes.mode (previous aes c i) (pad 16 (window 16 (unhex s) i))) := by
  have hlen : (hexStr (blockBytes (cipherBlocks aes cipherKey (unhex s)))).length =
      32 * windowCount 16 (unhex s) := by
    rw [length_hexStr_blockBytes, length_cipherBlocks]
  refine ⟨_, _, _, standardSchedule hkey, encryption_message hkey hs, hlen, fun i hi => ?_⟩
  have hcs := groupBlocks_hexStr (cipherBlocks aes cipherKey (unhex s))
  rw [length_cipherBlocks] at hcs
  rw [← ofFn_plainBlock]
  exact group_fips hlen hcs (getElem?_plainBlocks hi)

/-- One byte, enciphered as fifteen bytes of padding behind it. -/
theorem encryption_fips_byte :
    ∃ roundKey aes' c, StandardSchedule aes128 zeroKey roundKey ∧
      aes128.encryption (str "61") zeroKey = .ok (aes', c) ∧
      unhex (window 32 c 0) =
        Fips197.cipherBytes 10 roundKey (0x61 :: List.replicate 15 15) := by
  obtain ⟨roundKey, aes', c, hschedule, hrun, -, hgroups⟩ := encryption_fips validKey_zeroKey
    isMessage_byte
  exact ⟨roundKey, aes', c, hschedule, hrun, hgroups 0 (by decide)⟩

/-- **`decryption` against the standard**: the standard's cipher takes every state
back to its group. -/
theorem decryption_fips (hkey : ValidKey aes cipherKey) {c : Str} (hhex : IsHex c) {n : ℕ}
    (hn : n ≤ 15) (hlen : c.length = 32 * n) :
    ∃ roundKey aes' states, StandardSchedule aes cipherKey roundKey ∧
      decryptionStates aes c cipherKey = .ok (aes', states) ∧
      aes.decryption c cipherKey = .ok (aes', hexStr (states.flatMap unpad)) ∧
      states.length = n ∧
      ∀ i x, states[i]? = some x → x.length = 16 ∧
        Fips197.cipherBytes aes.nround roundKey (masked aes.mode (previous aes c i) x) =
          unhex (window 32 c i) := by
  obtain ⟨hstates, hrun⟩ := decryption_groups_eq hkey hhex hn hlen
  have hstrip : ∀ ps : List Block, strip ps = (ps.map List.ofFn).flatMap unpad := by
    intro ps
    rw [strip, List.flatMap_map]
  rw [hstrip] at hrun
  refine ⟨_, _, _, standardSchedule hkey, hstates, hrun, ?_, ?_⟩
  · rw [List.length_map, length_decryptFrom, length_groupBlocks]
  · intro i x hx
    rw [List.getElem?_map, Option.map_eq_some_iff] at hx
    obtain ⟨p, hp, rfl⟩ := hx
    refine ⟨List.length_ofFn, (group_fips hlen ?_ hp).symm⟩
    rw [encryptFrom_decryptFrom]

/-- Two groups of zeros. -/
theorem decryption_fips_zeros :
    ∃ roundKey aes' states, StandardSchedule cbc128 zeroKey roundKey ∧
      decryptionStates cbc128 zeros zeroKey = .ok (aes', states) ∧
      states.length = 2 := by
  obtain ⟨roundKey, aes', states, hschedule, hstates, -, hcount, -⟩ :=
    decryption_fips validKey_cbc128 isMessage_zeros.hex (by decide) length_zeros
  exact ⟨roundKey, aes', states, hschedule, hstates, hcount⟩

end AES

end SimpleVpn
