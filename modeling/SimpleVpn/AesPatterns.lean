import SimpleVpn.AesMessages

/-!
# Patterns in a cipher text

What the groups of a cipher text tell about the message. In ECB mode a group
depends on its own window of the message and on nothing else. In CBC mode a changed
window changes every group from there on (`encryption_spreads`), and so does a
changed initialization vector (`encryption_iv_iff`). Equal groups of one cipher text
give away equal windows in ECB mode, and the difference of two windows in CBC
mode (`encryption_repeats`).
-/

namespace SimpleVpn

open Exec Padding BlockCipher

namespace AES

variable {aes : AES} {cipherKey s t : Str}

/-! ## Groups and windows -/

theorem hexStr_take : ∀ (v : Bytes) (k : ℕ), hexStr (v.take k) = (hexStr v).take (2 * k)
  | [], k => by rw [List.take_nil, hexStr_nil, List.take_nil]
  | _ :: _, 0 => rfl
  | b :: v, k + 1 => by
    rw [List.take_succ_cons, hexStr_cons, hexStr_cons, hexStr_take v k]
    rfl

theorem hexStr_drop : ∀ (v : Bytes) (k : ℕ), hexStr (v.drop k) = (hexStr v).drop (2 * k)
  | [], k => by rw [List.drop_nil, hexStr_nil, List.drop_nil]
  | _ :: _, 0 => rfl
  | b :: v, k + 1 => by
    rw [List.drop_succ_cons, hexStr_cons, hexStr_drop v k]
    rfl

/-- A group of digits is a window of bytes. -/
theorem window_hexStr (v : Bytes) (i : ℕ) : window 32 (hexStr v) i = hexStr (window 16 v i) := by
  have hdrop : 32 * i = 2 * (16 * i) := by omega
  rw [window, window, hdrop, hexStr_take, hexStr_drop]

/-- A window of the bytes of blocks is a block. -/
theorem window_blockBytes {cs : List Block} {i : ℕ} {b : Block} (h : cs[i]? = some b) :
    window 16 (blockBytes cs) i = List.ofFn b := by
  obtain ⟨hi, rfl⟩ := List.getElem?_eq_some_iff.mp h
  have hsize : ∀ w ∈ cs.map List.ofFn, w.length = 16 := by
    intro w hw
    obtain ⟨c, -, rfl⟩ := List.mem_map.mp hw
    exact List.length_ofFn
  have hflat := window_flatten (cs.map List.ofFn) hsize i (by rwa [List.length_map])
  rwa [List.getElem_map, ← List.flatMap_def] at hflat

/-- Groups are equal if the blocks are. -/
theorem group_eq_iff {cs ds : List Block} {i j : ℕ} (hi : i < cs.length) (hj : j < ds.length) :
    window 32 (hexStr (blockBytes cs)) i = window 32 (hexStr (blockBytes ds)) j ↔
      cs[i]? = ds[j]? := by
  have hc : cs[i]? = some cs[i] := List.getElem?_eq_getElem hi
  have hd : ds[j]? = some ds[j] := List.getElem?_eq_getElem hj
  rw [window_hexStr, window_hexStr, window_blockBytes hc, window_blockBytes hd, hc, hd,
    Option.some.injEq]
  exact ⟨fun h => List.ofFn_injective (hexStr_injective h), fun h => by rw [h]⟩

/-- The plain block of a window. -/
def plainBlock (m : Bytes) (i : ℕ) : Block := toBlock (pad 16 (window 16 m i))

@[simp] theorem length_plainBlocks (m : Bytes) : (plainBlocks m).length = windowCount 16 m := by
  simp [plainBlocks, windows]

theorem getElem?_plainBlocks {m : Bytes} {i : ℕ} (hi : i < windowCount 16 m) :
    (plainBlocks m)[i]? = some (plainBlock m i) := by
  rw [plainBlocks, windows, List.map_map, List.getElem?_map, List.getElem?_range hi,
    Option.map_some]
  rfl

theorem ofFn_plainBlock (m : Bytes) (i : ℕ) :
    List.ofFn (plainBlock m i) = pad 16 (window 16 m i) :=
  ofFn_toBlock (length_pad (by rw [length_window]; exact Nat.min_le_left _ _))

/-- Windows of one length have different plain blocks if they differ. -/
theorem plainBlock_eq_iff {m m' : Bytes} (hlen : m.length = m'.length) {i : ℕ} :
    plainBlock m i = plainBlock m' i ↔ window 16 m i = window 16 m' i := by
  have hwin : (window 16 m i).length = (window 16 m' i).length := by
    rw [length_window, length_window, hlen]
  refine ⟨fun h => ?_, fun h => by rw [plainBlock, h, plainBlock]⟩
  have hpad := congrArg List.ofFn h
  rw [ofFn_plainBlock, ofFn_plainBlock, pad, pad] at hpad
  exact (List.append_inj hpad hwin).1

theorem getElem?_plainBlocks_iff {m m' : Bytes} (hlen : m.length = m'.length) {i : ℕ} :
    (plainBlocks m)[i]? = (plainBlocks m')[i]? ↔ window 16 m i = window 16 m' i := by
  have hcount : windowCount 16 m = windowCount 16 m' := by rw [windowCount, hlen, windowCount]
  rcases Nat.lt_or_ge i (windowCount 16 m) with hlt | hge
  · rw [getElem?_plainBlocks hlt, getElem?_plainBlocks (hcount ▸ hlt), Option.some.injEq,
      plainBlock_eq_iff hlen]
  · -- past the end there is no block, and the window is empty
    have hpast : ∀ l : Bytes, windowCount 16 l ≤ i → window 16 l i = [] := by
      intro l hl
      rw [windowCount] at hl
      rw [window, List.drop_eq_nil_of_le (by omega), List.take_nil]
    rw [List.getElem?_eq_none (by rwa [length_plainBlocks]),
      List.getElem?_eq_none (by rw [length_plainBlocks]; exact hcount ▸ hge),
      hpast m hge, hpast m' (hcount ▸ hge)]
    exact iff_of_true rfl rfl

@[simp] theorem length_cipherBlocks (aes : AES) (cipherKey : Str) (m : Bytes) :
    (cipherBlocks aes cipherKey m).length = windowCount 16 m := by
  rw [cipherBlocks, length_encryptFrom, length_plainBlocks]

/-- In CBC mode the mask tells chaining values apart. -/
theorem chaining_CBC : Chaining (mask .CBC) := by
  intro p v v' h
  funext i
  have hi : p i ^^^ v i = p i ^^^ v' i := congrFun h i
  exact (UInt8.xor_right_inj _).mp hi

/-! ## One changed window -/

/-- **A changed window spreads.** If two messages of one length differ only in
window `j`, then in CBC mode their cipher texts agree in the groups before group
`j` and in no other, and in ECB mode they differ in group `j` alone. -/
theorem encryption_spreads (hkey : ValidKey aes cipherKey) (hs : IsMessage s) (ht : IsMessage t)
    (hlen : s.length = t.length) {j : ℕ}
    (hsame : ∀ i, i ≠ j → unhex (window 32 s i) = unhex (window 32 t i))
    (hdiff : unhex (window 32 s j) ≠ unhex (window 32 t j)) :
    ∃ aes₁ aes₂ c d, aes.encryption s cipherKey = .ok (aes₁, c) ∧
      aes.encryption t cipherKey = .ok (aes₂, d) ∧
      ∀ i < windowCount 16 (unhex s), window 32 c i = window 32 d i ↔
        i < j ∨ aes.mode = .ECB ∧ i ≠ j := by
  refine ⟨_, _, _, _, encryption_message hkey hs, encryption_message hkey ht, fun i hi => ?_⟩
  have hbytes : (unhex s).length = (unhex t).length := by rw [length_unhex, length_unhex, hlen]
  have hcount : windowCount 16 (unhex s) = windowCount 16 (unhex t) := by
    rw [windowCount, hbytes, windowCount]
  have hother : ∀ k, k ≠ j → (plainBlocks (unhex s))[k]? = (plainBlocks (unhex t))[k]? := by
    intro k hk
    rw [getElem?_plainBlocks_iff hbytes, window_unhex, window_unhex, hsame k hk]
  have hchanged : (plainBlocks (unhex s))[j]? ≠ (plainBlocks (unhex t))[j]? := by
    rwa [Ne, getElem?_plainBlocks_iff hbytes, window_unhex, window_unhex]
  rw [group_eq_iff (by rwa [length_cipherBlocks]) (by rw [length_cipherBlocks, ← hcount]; exact hi),
    cipherBlocks, cipherBlocks]
  cases hmode : aes.mode with
  | ECB =>
    rw [mask_ECB, getElem?_encryptFrom_const_iff]
    refine ⟨fun h => Or.inr ⟨rfl, fun hij => hchanged (hij ▸ h)⟩, ?_⟩
    rintro (hlt | ⟨-, hne⟩)
    · exact hother i (Nat.ne_of_lt hlt)
    · exact hother i hne
  | CBC =>
    refine ⟨fun h => Or.inl (Nat.lt_of_not_le fun hle => ?_), ?_⟩
    · exact chaining_CBC.spreads (by rw [length_plainBlocks, length_plainBlocks, hcount]) hchanged
        hother hle (by rwa [length_plainBlocks]) h
    · rintro (hlt | ⟨hecb, -⟩)
      · exact encryptFrom_congr fun k hk => hother k (Nat.ne_of_lt (hk.trans_lt hlt))
      · cases hecb

/-- Two blocks of zeros, and the same with one digit of the first changed. -/
theorem encryption_spreads_zeros :
    let t := zeros.set 1 '1'.toUInt8
    ∃ aes₁ aes₂ c d, cbc128.encryption zeros zeroKey = .ok (aes₁, c) ∧
      cbc128.encryption t zeroKey = .ok (aes₂, d) ∧ window 32 c 1 ≠ window 32 d 1 := by
  intro t
  have hsame : ∀ i, i ≠ 0 → unhex (window 32 zeros i) = unhex (window 32 t i) := by
    intro i hi
    rw [window, window, List.drop_set_of_lt (by omega)]
  obtain ⟨aes₁, aes₂, c, d, hfirst, hsecond, hspread⟩ := encryption_spreads (t := t)
    validKey_cbc128 isMessage_zeros ⟨by decide, by decide, by decide⟩ rfl hsame (by decide)
  refine ⟨aes₁, aes₂, c, d, hfirst, hsecond, fun h => ?_⟩
  obtain hlt | ⟨hecb, -⟩ := (hspread 1 (by decide)).mp h
  · cases hlt
  · cases hecb

/-! ## A changed initialization vector -/

/-- **A changed vector changes every group.** Two objects in CBC mode that differ
in the initialization vector encipher no window alike. -/
theorem encryption_iv_iff (aes' : AES) (hkey : ValidKey aes cipherKey) (hs : IsMessage s)
    (hmode : aes.mode = .CBC) (halike : Alike aes aes') :
    ∃ aes₁ aes₂ c d, aes.encryption s cipherKey = .ok (aes₁, c) ∧
      aes'.encryption s cipherKey = .ok (aes₂, d) ∧
      ∀ i < windowCount 16 (unhex s), window 32 c i = window 32 d i ↔ getIV aes = getIV aes' := by
  refine ⟨_, _, _, _, encryption_message hkey hs, encryption_message (halike.validKey hkey) hs,
    fun i hi => ?_⟩
  have hiv : getIV aes = getIV aes' ↔ ivBlock aes = ivBlock aes' := by
    refine ⟨fun h => congrArg toBlock h, fun h => ?_⟩
    have hlist := congrArg List.ofFn h
    rwa [ivBlock, ivBlock, ofFn_toBlock (aes.iv_size hmode),
      ofFn_toBlock (aes'.iv_size (halike.mode.trans hmode))] at hlist
  rw [group_eq_iff (by rwa [length_cipherBlocks]) (by rwa [length_cipherBlocks]), cipherBlocks,
    cipherBlocks, halike.cipher, halike.mode, hmode, hiv]
  refine ⟨fun h => ?_, fun h => by rw [h]⟩
  by_contra hne
  exact chaining_CBC.ne hne (by rwa [length_plainBlocks]) h

/-- An object in CBC mode, with an initialization vector of ones. -/
def onesIV : AES :=
  { cbc128 with iv := List.replicate 16 1, iv_size := fun _ => List.length_replicate }

/-- Two vectors, one byte. -/
theorem encryption_iv_iff_ones :
    ∃ aes₁ aes₂ c d, cbc128.encryption (str "61") zeroKey = .ok (aes₁, c) ∧
      onesIV.encryption (str "61") zeroKey = .ok (aes₂, d) ∧ window 32 c 0 ≠ window 32 d 0 := by
  obtain ⟨aes₁, aes₂, c, d, hfirst, hsecond, hiff⟩ := encryption_iv_iff onesIV
    validKey_cbc128 isMessage_byte rfl ⟨rfl, rfl⟩
  exact ⟨aes₁, aes₂, c, d, hfirst, hsecond, fun h => absurd ((hiff 0 (by decide)).mp h) (by decide)⟩

/-- How the states of one cipher text compare, deciphered with two vectors. -/
structure FirstDiffers (iv iv' : Bytes) (states states' : List Bytes) : Prop where
  /-- as many states -/
  size : states.length = states'.length
  /-- the first changes by as much as the vector -/
  first : ∀ x x', states[0]? = some x → states'[0]? = some x' →
    List.zipWith (· ^^^ ·) x x' = List.zipWith (· ^^^ ·) iv iv'
  /-- the others do not change -/
  other : ∀ i, i ≠ 0 → states[i]? = states'[i]?

/-- **A changed vector changes one state.** Two objects in CBC mode that differ in
the initialization vector decipher all groups but the first alike. -/
theorem decryption_iv (aes' : AES) (hkey : ValidKey aes cipherKey) {c : Str} (hhex : IsHex c)
    {n : ℕ} (hn : n ≤ 15) (hlen : c.length = 32 * n) (hmode : aes.mode = .CBC)
    (halike : Alike aes aes') :
    ∃ aes₁ aes₂ states states', decryptionStates aes c cipherKey = .ok (aes₁, states) ∧
      decryptionStates aes' c cipherKey = .ok (aes₂, states') ∧
      FirstDiffers (getIV aes) (getIV aes') states states' := by
  obtain ⟨hfirst, -⟩ := decryption_groups_eq hkey hhex hn hlen
  obtain ⟨hsecond, -⟩ := decryption_groups_eq (halike.validKey hkey) hhex hn hlen
  refine ⟨_, _, _, _, hfirst, hsecond, ?_⟩
  rw [halike.cipher, halike.mode, hmode]
  have hiv : getIV aes = List.ofFn (ivBlock aes) := (ofFn_toBlock (aes.iv_size hmode)).symm
  have hiv' : getIV aes' = List.ofFn (ivBlock aes') :=
    (ofFn_toBlock (aes'.iv_size (halike.mode.trans hmode))).symm
  rw [hiv, hiv']
  cases hcs : groupBlocks c n with
  | nil => exact ⟨rfl, nofun, fun i _ => rfl⟩
  | cons b cs =>
    refine ⟨?_, ?_, ?_⟩
    · rw [List.length_map, List.length_map, length_decryptFrom, length_decryptFrom]
    · intro x x' hx hx'
      obtain rfl := Option.some.inj hx
      obtain rfl := Option.some.inj hx'
      rw [zipWith_xor_ofFn, zipWith_xor_ofFn]
      exact congrArg List.ofFn (funext fun i => xor_xor_cancel _ _ _)
    · intro i hi
      cases i with
      | zero => exact absurd rfl hi
      | succ i => rfl

/-- Two vectors, two groups of zeros. -/
theorem decryption_iv_ones :
    ∃ aes₁ aes₂ states states',
      decryptionStates cbc128 zeros zeroKey = .ok (aes₁, states) ∧
      decryptionStates onesIV zeros zeroKey = .ok (aes₂, states') ∧
      FirstDiffers (List.replicate 16 0) (List.replicate 16 1) states states' := by
  exact decryption_iv onesIV validKey_cbc128 isMessage_zeros.hex (by decide) length_zeros rfl
    ⟨rfl, rfl⟩

/-! ## Equal groups -/

/-- The cipher block before window `i`, read off the cipher text. -/
def previous (aes : AES) (c : Str) : ℕ → Bytes
  | 0 => getIV aes
  | i + 1 => unhex (window 32 c i)

/-- It is the chaining value of block `i`. -/
theorem previous_eq (hmode : aes.mode = .CBC) {c : Str} {n i : ℕ} (hlen : c.length = 32 * n)
    (hi : i < n) (b : Block) :
    previous aes c i = List.ofFn ((ivBlock aes :: groupBlocks c n).getD i b) := by
  cases i with
  | zero => exact (ofFn_toBlock (aes.iv_size hmode)).symm
  | succ i =>
    have hlt : i < n := Nat.lt_of_succ_lt hi
    rw [previous, ← ofFn_groupBlock hlen hlt, List.getD_cons_succ, List.getD_eq_getElem?_getD,
      getElem?_groupBlocks hlt, Option.getD_some]

/-- Differences on both sides. -/
theorem xor_eq_xor_iff (a b u v : UInt8) : a ^^^ u = b ^^^ v ↔ a ^^^ b = u ^^^ v := by
  have hleft : a ^^^ u ^^^ (u ^^^ b) = a ^^^ b := by rw [← UInt8.xor_assoc, xor_xor_self]
  have hright : b ^^^ v ^^^ (u ^^^ b) = u ^^^ v := by
    rw [UInt8.xor_comm b v, UInt8.xor_comm u b, ← UInt8.xor_assoc, xor_xor_self, UInt8.xor_comm]
  rw [← UInt8.xor_left_inj (u ^^^ b), hleft, hright]

theorem xorPerm_eq_iff (p q u v : Block) : xorPerm u p = xorPerm v q ↔
    List.zipWith (· ^^^ ·) (List.ofFn p) (List.ofFn q) =
      List.zipWith (· ^^^ ·) (List.ofFn u) (List.ofFn v) := by
  rw [zipWith_xor_ofFn, zipWith_xor_ofFn, List.ofFn_injective.eq_iff, funext_iff, funext_iff]
  exact forall_congr' fun i => xor_eq_xor_iff (p i) (q i) (u i) (v i)

/-- **Equal groups give windows away.** Two groups of a cipher text are equal, in
ECB mode, exactly if the padded windows are; in CBC mode, exactly if the windows
differ by as much as the cipher blocks before them. -/
theorem encryption_repeats (hkey : ValidKey aes cipherKey) (hs : IsMessage s) :
    ∃ aes' c, aes.encryption s cipherKey = .ok (aes', c) ∧
      ∀ i < windowCount 16 (unhex s), ∀ j < windowCount 16 (unhex s),
        window 32 c i = window 32 c j ↔
          match aes.mode with
          | .ECB => pad 16 (window 16 (unhex s) i) = pad 16 (window 16 (unhex s) j)
          | .CBC => List.zipWith (· ^^^ ·) (pad 16 (window 16 (unhex s) i))
              (pad 16 (window 16 (unhex s) j)) =
            List.zipWith (· ^^^ ·) (previous aes c i) (previous aes c j) := by
  refine ⟨_, _, encryption_message hkey hs, fun i hi j hj => ?_⟩
  rw [group_eq_iff (by rwa [length_cipherBlocks]) (by rwa [length_cipherBlocks])]
  cases hmode : aes.mode with
  | ECB =>
    rw [cipherBlocks, hmode, mask_ECB, getElem?_encryptFrom_const_iff, getElem?_plainBlocks hi,
      getElem?_plainBlocks hj, Option.some.injEq, ← ofFn_plainBlock, ← ofFn_plainBlock]
    exact List.ofFn_injective.eq_iff.symm
  | CBC =>
    have hblock : ∀ k < windowCount 16 (unhex s), ∀ b,
        (cipherBlocks aes cipherKey (unhex s))[k]? = some (aes.cipher cipherKey
          (xorPerm ((ivBlock aes :: cipherBlocks aes cipherKey (unhex s)).getD k b)
            (plainBlock (unhex s) k))) := by
      intro k hk b
      have hlt : k < (plainBlocks (unhex s)).length := by rwa [length_plainBlocks]
      have hplain : (plainBlocks (unhex s))[k] = plainBlock (unhex s) k := by
        rw [← Option.some.injEq, ← List.getElem?_eq_getElem hlt, getElem?_plainBlocks hk]
      rw [cipherBlocks, getElem?_encryptFrom _ _ _ _ b k hlt, hplain, hmode]
      rfl
    rw [hblock i hi (ivBlock aes), hblock j hj (ivBlock aes), Option.some.injEq,
      (aes.cipher cipherKey).injective.eq_iff, xorPerm_eq_iff, ofFn_plainBlock, ofFn_plainBlock,
      previous_eq hmode (length_hexStr_blockBytes _) (by rwa [length_cipherBlocks]) (ivBlock aes),
      previous_eq hmode (length_hexStr_blockBytes _) (by rwa [length_cipherBlocks]) (ivBlock aes),
      groupBlocks_hexStr]

/-- In ECB mode, two windows of zeros. -/
theorem encryption_repeats_zeros :
    ∃ aes' c, aes128.encryption zeros zeroKey = .ok (aes', c) ∧
      window 32 c 0 = window 32 c 1 := by
  obtain ⟨aes', c, hrun, hiff⟩ := encryption_repeats validKey_zeroKey isMessage_zeros
  exact ⟨aes', c, hrun, (hiff 0 (by decide) 1 (by decide)).mpr rfl⟩

end AES

end SimpleVpn
