import Mathlib.Data.Bool.AllAny
import SimpleVpn.AesMode

/-!
# Encryption, and decryption of its result

What the public calls do on well-formed strings: which lengths they survive,
which cipher text `encryption` returns, and what `decryption` makes of it.

`encryption` pads only a short last block, `decryption` strips every block; so
a full block that happens to end like padding loses its end. And a block can be
cut out of a vector only if it ends before byte 255 (`createState_eq`), which
bounds messages to 255 bytes and their cipher texts to 240.
-/

namespace SimpleVpn

open Exec Padding BlockCipher

namespace AES

/-- `encryption`, then `decryption` of its result by an object of the same key
size, mode and initialization vector. `phiv` is the chaining value that object
holds before the call. -/
def roundTrip (aes : AES) (phiv : Bytes) (input cipherKey : Str) : Exec Str := do
  let (_, cipherText) ← aes.encryption input cipherKey
  let (_, plainText) ← { aes with phiv := phiv }.decryption cipherText cipherKey
  return plainText

/-! ## Blocks of a vector and of a cipher text -/

@[simp] theorem length_blockBytes (bs : List Block) : (blockBytes bs).length = 16 * bs.length := by
  induction bs with
  | nil => rfl
  | cons b bs ih =>
    rw [blockBytes, List.flatMap_cons, List.length_append, List.length_ofFn, List.length_cons]
    rw [blockBytes] at ih
    omega

theorem blockBytes_injective : ∀ {bs cs : List Block}, blockBytes bs = blockBytes cs → bs = cs
  | [], [], _ => rfl
  | [], c :: cs, h | c :: cs, [], h => by
    have hlen := congrArg List.length h
    simp only [length_blockBytes, List.length_cons, List.length_nil] at hlen
    omega
  | b :: bs, c :: cs, h => by
    obtain ⟨hhead, htail⟩ := List.append_inj h (by rw [List.length_ofFn, List.length_ofFn])
    rw [List.ofFn_injective hhead, blockBytes_injective htail]

/-- Below 256 bytes, the blocks cut out of a vector are its padded windows. -/
theorem cut_eq_pad_window {m : Bytes} (hm : m.length < 256) (j : ℕ) :
    cut m j = pad 16 (window 16 m j) := by
  have hrest : (m.length - 16 * j) % 256 = m.length - 16 * j := Nat.mod_eq_of_lt (by omega)
  rw [cut, window, copied, hrest]
  congr 1
  rcases Nat.le_total 16 (m.length - 16 * j) with hle | hle
  · rw [Nat.min_eq_left hle]
  · rw [Nat.min_eq_right hle, List.take_of_length_le (by rw [List.length_drop]),
      List.take_of_length_le (by rw [List.length_drop]; exact hle)]

/-- The full blocks cut out of a vector are its first bytes. -/
theorem blockBytes_cuts {m : Bytes} (hm : m.length < 256) {n : ℕ} (hn : 16 * n ≤ m.length) :
    blockBytes (cuts m n) = m.take (16 * n) := by
  rw [← flatten_window_take, blockBytes, cuts, List.flatMap_map, ← List.flatMap_def]
  refine List.flatMap_congr fun j hj => ?_
  have hlt : j < n := List.mem_range.mp hj
  rw [ofFn_toBlock (length_cut m j), cut_eq_pad_window hm, pad_of_length_eq]
  rw [length_window]
  omega

/-- The blocks cut out of a cipher text of at most 15 blocks are its blocks. -/
theorem cuts_blockBytes {cs : List Block} (h : cs.length ≤ 15) :
    cuts (blockBytes cs) cs.length = cs := by
  have hlen : (blockBytes cs).length < 256 := by
    rw [length_blockBytes]
    omega
  apply List.ext_getElem (length_cuts _ _)
  intro j h₁ h₂
  have hwin : window 16 (blockBytes cs) j = List.ofFn cs[j] := by
    have hflat := window_flatten (cs.map List.ofFn)
      (by rintro _ hb; obtain ⟨c, -, rfl⟩ := List.mem_map.mp hb; exact List.length_ofFn) j
      (by rwa [List.length_map])
    rwa [List.getElem_map] at hflat
  simp only [cuts, List.getElem_map, List.getElem_range]
  rw [cut_eq_pad_window hlen, hwin, pad_of_length_eq List.length_ofFn, toBlock_ofFn]

/-- What was encoded is decoded again. -/
theorem decoded_hexStr {v : Bytes} (h : v.length < 2 ^ 31) : decoded (hexStr v) = v := by
  have hlt : (hexStr v).length < 2 ^ 32 := by
    rw [length_hexStr]
    omega
  rw [decoded, wrap_of_lt hlt, List.take_length, decodeHex_of_isHex (isHex_hexStr v), unhex_hexStr]

variable {aes : AES} {cipherKey : Str}

/-- **The round trip**, for any input: the blocks enciphered, each stripped, if
there are at most 15 and all of them can be cut out. -/
theorem roundTrip_eq (hkey : ValidKey aes cipherKey) (phiv : Bytes) (input : Str) :
    roundTrip aes phiv input cipherKey =
      if Splits (decoded input).length (encryptCount input) ∧ encryptCount input ≤ 15 then
        .ok (hexStr (strip (cuts (decoded input) (encryptCount input))))
      else .error .outOfBounds := by
  rw [roundTrip, encryption_eq hkey]
  by_cases hsplit : Splits (decoded input).length (encryptCount input)
  · have hkey' : ValidKey { aes with phiv := phiv } cipherKey := ⟨hkey.size, hkey.hex⟩
    have hle := hsplit.le
    let ps := cuts (decoded input) (encryptCount input)
    let cs := encryptFrom (aes.cipher cipherKey) (mask aes.mode) (ivBlock aes) ps
    have hcs : cs.length = encryptCount input := by simp [cs, ps]
    have hbytes : (blockBytes cs).length = 16 * encryptCount input := by
      rw [length_blockBytes, hcs]
    have hdecoded : decoded (hexStr (blockBytes cs)) = blockBytes cs := decoded_hexStr (by omega)
    have hcount : decryptCount (hexStr (blockBytes cs)) = encryptCount input := by
      simp only [decryptCount, length_hexStr, hbytes, wrap]
      omega
    have hfits : Splits (16 * encryptCount input) (encryptCount input) ↔
        encryptCount input ≤ 15 := by
      rw [splits_iff]
      omega
    simp only [if_pos hsplit, ok_bind]
    rw [decryption_eq hkey', hdecoded, hcount, hbytes]
    by_cases h15 : encryptCount input ≤ 15
    · have hcuts : cuts (blockBytes cs) (encryptCount input) = cs := by
        rw [← hcs]
        exact cuts_blockBytes (hcs.trans_le h15)
      rw [if_pos (hfits.mpr h15), if_pos ⟨hsplit, h15⟩, hcuts, ok_bind]
      exact congrArg (fun bs => Except.ok (hexStr (strip bs))) (decryptFrom_encryptFrom _ _ ps _)
    · rw [if_neg (fun h => h15 (hfits.mp h)), if_neg (fun h => h15 h.2), error_bind]
  · simp only [if_neg hsplit, error_bind]
    rw [if_neg (fun h => hsplit h.1)]

/-! ## Well-formed strings -/

/-- A window, with the padding it seems to have removed if it is a full block. -/
def stripFull (w : Bytes) : Bytes := if w.length = 16 then unpad w else w

theorem stripFull_isPrefixOf (w : Bytes) : stripFull w <+: w := by
  rw [stripFull]
  split
  · exact unpad_isPrefixOf w
  · exact List.prefix_rfl

theorem stripFull_eq_self_iff {w : Bytes} :
    stripFull w = w ↔ (w.length = 16 → ∀ k, ¬PadSuffix w k) := by
  rw [stripFull]
  by_cases h : w.length = 16
  · rw [if_pos h, unpad_eq_self_iff (by omega)]
    exact ⟨fun hk _ => hk, fun hk => hk h⟩
  · rw [if_neg h]
    exact iff_of_true rfl fun h' => absurd h' h

/-- Padding a window and stripping it again. -/
theorem unpad_pad_window (m : Bytes) (j : ℕ) :
    unpad (pad 16 (window 16 m j)) = stripFull (window 16 m j) := by
  have hle : (window 16 m j).length ≤ 16 := by
    rw [length_window]
    exact Nat.min_le_left _ _
  rw [stripFull]
  rcases Nat.lt_or_eq_of_le hle with hlt | heq
  · rw [if_neg (Nat.ne_of_lt hlt), unpad_pad hlt (by decide)]
  · rw [if_pos heq, pad_of_length_eq heq]

theorem strip_cuts {m : Bytes} (hm : m.length < 256) :
    strip (cuts m (windowCount 16 m)) = (windows 16 m).flatMap stripFull := by
  rw [strip, cuts, windows, List.flatMap_map, List.flatMap_map]
  refine List.flatMap_congr fun j _ => ?_
  rw [ofFn_toBlock (length_cut m j), cut_eq_pad_window hm, unpad_pad_window]

theorem length_decoded {input : Str} (hhex : IsHex input) :
    (decoded input).length = wrap 32 input.length / 2 := by
  have hle : wrap 32 input.length ≤ input.length := Nat.mod_le _ _
  rw [decoded, decodeHex_of_isHex (hhex.take _), length_unhex, List.length_take_of_le hle]

/-- A string of fewer than `2 ^ 32` hex digits is decoded whole. -/
theorem decoded_of_lt {input : Str} (hhex : IsHex input) (hlen : input.length < 2 ^ 32) :
    decoded input = unhex input := by
  rw [decoded, wrap_of_lt hlen, List.take_length, decodeHex_of_isHex hhex]

theorem encryptCount_eq_windowCount {input : Str} (heven : input.length % 2 = 0)
    (hlen : input.length < 2 ^ 32) : encryptCount input = windowCount 16 (unhex input) := by
  rw [encryptCount, windowCount, length_unhex, wrap_of_lt (by omega)]
  omega

/-- Which lengths `encryption` survives: up to 255 bytes, and those for which
the 32-bit block count wraps. -/
theorem encryption_survives_iff {input : Str} (hhex : IsHex input) (heven : input.length % 2 = 0) :
    Splits (decoded input).length (encryptCount input) ↔
      input.length / 2 % 2 ^ 36 ≤ 255 ∨ 2 ^ 36 - 15 ≤ input.length / 2 % 2 ^ 36 := by
  rw [length_decoded hhex, splits_iff]
  simp only [encryptCount, wrap]
  omega

/-- Which lengths the round trip survives: up to 240 bytes, and those for which
the 32-bit block count wraps back to at most 15. -/
theorem survives_iff {input : Str} (hhex : IsHex input) (heven : input.length % 2 = 0) :
    Splits (decoded input).length (encryptCount input) ∧ encryptCount input ≤ 15 ↔
      input.length / 2 % 2 ^ 36 ≤ 240 ∨ 2 ^ 36 - 15 ≤ input.length / 2 % 2 ^ 36 := by
  rw [length_decoded hhex, splits_iff]
  simp only [encryptCount, wrap]
  omega

/-- **Messages of up to 240 bytes.** Every full window loses the padding it
seems to have. -/
theorem roundTrip_short (hkey : ValidKey aes cipherKey) (phiv : Bytes) {input : Str}
    (hhex : IsHex input) (heven : input.length % 2 = 0) (hlen : input.length / 2 ≤ 240) :
    roundTrip aes phiv input cipherKey =
      .ok (hexStr ((windows 16 (unhex input)).flatMap stripFull)) := by
  have hlt : input.length < 2 ^ 32 := by omega
  have hfits := (survives_iff hhex heven).mpr (Or.inl (by omega))
  rw [roundTrip_eq hkey, if_pos hfits, decoded_of_lt hhex hlt,
    encryptCount_eq_windowCount heven hlt, strip_cuts (by rw [length_unhex]; omega)]

/-- What a short message comes back as equals the message exactly when no full
window seems padded. -/
theorem stripped_eq_upper_iff {input : Str} (hhex : IsHex input) (heven : input.length % 2 = 0) :
    hexStr ((windows 16 (unhex input)).flatMap stripFull) = upper input ↔
      ∀ w ∈ windows 16 (unhex input), w.length = 16 → ∀ k, ¬PadSuffix w k := by
  have hflat := flatten_windows (by decide : 0 < 16) (unhex input)
  have hpre := flatMap_prefix_eq_flatten stripFull_isPrefixOf (windows 16 (unhex input))
  rw [hflat] at hpre
  rw [← hexStr_unhex hhex heven]
  refine ⟨?_, ?_⟩
  · intro h w hw
    exact stripFull_eq_self_iff.mp (hpre.mp (hexStr_injective h) w hw)
  · intro h
    rw [hpre.mpr fun w hw => stripFull_eq_self_iff.mpr (h w hw)]

theorem length_strip_le (bs : List Block) : (strip bs).length ≤ 16 * bs.length := by
  induction bs with
  | nil => exact Nat.le_refl _
  | cons b bs ih =>
    have hb := (unpad_isPrefixOf (List.ofFn b)).length_le
    rw [List.length_ofFn] at hb
    rw [strip] at ih
    rw [strip, List.flatMap_cons, List.length_append, List.length_cons]
    omega

/-- Whatever survives the round trip is at most 240 bytes. -/
theorem roundTrip_length_le (hkey : ValidKey aes cipherKey) {phiv : Bytes} {input out : Str}
    (h : roundTrip aes phiv input cipherKey = .ok out) :
    ∃ v : Bytes, out = hexStr v ∧ v.length ≤ 240 := by
  rw [roundTrip_eq hkey] at h
  obtain ⟨⟨-, h15⟩, rfl⟩ := ite_eq_ok h
  have hle := length_strip_le (cuts (decoded input) (encryptCount input))
  rw [length_cuts] at hle
  exact ⟨_, rfl, hle.trans (Nat.mul_le_mul_left 16 h15)⟩

/-! ## Encryption as a mode of operation -/

/-- The cipher blocks of a message in the object's mode: one for each window,
which is padded, masked by the cipher block before it (the initialization
vector for the first), and enciphered. -/
def IsModeOf (aes : AES) (cipherKey : Str) (m : Bytes) (cs : List Block) : Prop :=
  cs.length = windowCount 16 m ∧ ∀ j < cs.length, cs[j]? =
    some (aes.cipher cipherKey (mask aes.mode ((ivBlock aes :: cs).getD j (ivBlock aes))
      (toBlock (pad 16 (window 16 m j)))))

/-- Chaining over the padded windows is the mode of operation. -/
theorem isModeOf_encryptFrom (aes : AES) (cipherKey : Str) {m : Bytes} (hm : m.length < 256) :
    IsModeOf aes cipherKey m (encryptFrom (aes.cipher cipherKey) (mask aes.mode) (ivBlock aes)
      (cuts m (windowCount 16 m))) := by
  refine ⟨by rw [length_encryptFrom, length_cuts], fun j hj => ?_⟩
  rw [length_encryptFrom] at hj
  rw [getElem?_encryptFrom _ _ _ _ (ivBlock aes) j hj, ← cut_eq_pad_window hm]
  simp [cuts]

/-- **Where `encryption` refines its mode of operation**: up to 255 bytes. -/
theorem encryption_isModeOf_iff (hkey : ValidKey aes cipherKey) {input : Str}
    (hhex : IsHex input) (heven : input.length % 2 = 0) :
    (∃ aes' cs, aes.encryption input cipherKey = .ok (aes', hexStr (blockBytes cs)) ∧
      IsModeOf aes cipherKey (unhex input) cs) ↔ input.length / 2 ≤ 255 := by
  have hlen : (unhex input).length = input.length / 2 := length_unhex input
  refine ⟨?_, ?_⟩
  · rintro ⟨aes', cs, hrun, hcount, -⟩
    obtain ⟨hsplit, hout⟩ := encryption_ok hkey hrun
    -- the number of groups is the number of windows, so the block count has not wrapped
    have hsize := congrArg List.length (hexStr_injective hout)
    rw [length_blockBytes, length_blockBytes, length_encryptFrom, length_cuts, hcount,
      windowCount, hlen] at hsize
    have hfits := (encryption_survives_iff hhex heven).mp hsplit
    have hle := hsplit.le
    omega
  · intro hn
    have hlt : input.length < 2 ^ 32 := by omega
    have hsplit := (encryption_survives_iff hhex heven).mpr (Or.inl (by omega))
    have hrun := encryption_eq hkey input
    simp only [if_pos hsplit] at hrun
    rw [decoded_of_lt hhex hlt, encryptCount_eq_windowCount heven hlt] at hrun
    exact ⟨_, _, hrun, isModeOf_encryptFrom aes cipherKey (by omega)⟩

/-- A key of 128 zero bits, in hex. -/
def zeroKey : Str := List.replicate 32 '0'.toUInt8

theorem validKey_zeroKey : ValidKey aes128 zeroKey := ⟨by decide, by decide⟩

theorem validKey_cbc128 : ValidKey cbc128 zeroKey := ⟨by decide, by decide⟩

/-- A message of one full block and one byte. -/
def twoBlocks : Str := zeroKey ++ str "6a"

theorem isHex_twoBlocks : IsHex twoBlocks := by decide

theorem encryption_isModeOf_iff_twoBlocks :
    ∃ aes' cs, cbc128.encryption twoBlocks zeroKey = .ok (aes', hexStr (blockBytes cs)) ∧
      IsModeOf cbc128 zeroKey (unhex twoBlocks) cs :=
  (encryption_isModeOf_iff validKey_cbc128 isHex_twoBlocks (by decide)).mpr (by decide)

/-- A message of 256 bytes: its last full block ends at byte 255. -/
theorem encryption_256_faults :
    let input := hexStr (List.replicate 256 0)
    ValidKey aes128 zeroKey ∧ IsHex input ∧ input.length % 2 = 0 ∧
      ¬∃ aes' cs, aes128.encryption input zeroKey = .ok (aes', hexStr (blockBytes cs)) ∧
        IsModeOf aes128 zeroKey (unhex input) cs := by
  intro input
  have hlen : input.length = 2 * 256 := by
    rw [length_hexStr, List.length_replicate]
  have heven : input.length % 2 = 0 := by omega
  have hhex : IsHex input := isHex_hexStr _
  refine ⟨validKey_zeroKey, hhex, heven, ?_⟩
  rintro ⟨aes', cs, hrun, -⟩
  have hfits := (encryption_survives_iff hhex heven).mp (encryption_ok validKey_zeroKey hrun).1
  omega

/-! ## The round trip as a contract -/

/-- **Where the round trip is the identity**, up to letter case: messages of at
most 240 bytes none of whose full windows ends like padding. -/
theorem roundTrip_eq_upper_iff (hkey : ValidKey aes cipherKey) (phiv : Bytes) {input : Str}
    (hhex : IsHex input) (heven : input.length % 2 = 0) :
    roundTrip aes phiv input cipherKey = .ok (upper input) ↔
      input.length / 2 ≤ 240 ∧
        ∀ w ∈ windows 16 (unhex input), w.length = 16 → ∀ k, ¬PadSuffix w k := by
  refine ⟨?_, ?_⟩
  · intro h
    have hlen : input.length / 2 ≤ 240 := by
      obtain ⟨v, hv, hle⟩ := roundTrip_length_le hkey h
      have hlen := congrArg List.length hv
      rw [upper, List.length_map, length_hexStr] at hlen
      omega
    rw [roundTrip_short hkey phiv hhex heven hlen] at h
    exact ⟨hlen, (stripped_eq_upper_iff hhex heven).mp (Except.ok.inj h)⟩
  · rintro ⟨hlen, hpad⟩
    rw [roundTrip_short hkey phiv hhex heven hlen, (stripped_eq_upper_iff hhex heven).mpr hpad]

theorem roundTrip_eq_upper_iff_twoBlocks :
    roundTrip cbc128 [] twoBlocks zeroKey = .ok (zeroKey ++ str "6A") := by
  have hupper : upper twoBlocks = zeroKey ++ str "6A" := by decide
  rw [← hupper]
  refine (roundTrip_eq_upper_iff validKey_cbc128 [] isHex_twoBlocks (by decide)).mpr
    ⟨by decide, fun w hw hfull => ?_⟩
  have hwindows : windows 16 (unhex twoBlocks) = [List.replicate 16 0, [0x6a]] := by decide
  rw [hwindows] at hw
  rcases List.mem_cons.mp hw with rfl | hw
  · exact (unpad_eq_self_iff (by decide)).mp (by decide)
  · obtain rfl := List.mem_singleton.mp hw
    cases hfull

/-- Sixteen bytes, the last of them 1, come back as fifteen. -/
theorem roundTrip_loses_byte :
    let input := hexStr (List.replicate 15 0 ++ [1])
    ValidKey aes128 zeroKey ∧ IsHex input ∧ input.length % 2 = 0 ∧
      roundTrip aes128 [] input zeroKey ≠ .ok (upper input) := by
  refine ⟨validKey_zeroKey, by decide, by decide, ?_⟩
  rw [roundTrip_short validKey_zeroKey [] (by decide) (by decide) (by decide)]
  decide

/-- The lengths for which no access is out of bounds. -/
theorem roundTrip_no_fault_iff (hkey : ValidKey aes cipherKey) (phiv : Bytes) {input : Str}
    (hhex : IsHex input) (heven : input.length % 2 = 0) :
    roundTrip aes phiv input cipherKey ≠ .error .outOfBounds ↔
      input.length / 2 % 2 ^ 36 ≤ 240 ∨ 2 ^ 36 - 15 ≤ input.length / 2 % 2 ^ 36 := by
  rw [← survives_iff hhex heven, roundTrip_eq hkey]
  exact ite_ne_error_iff

/-- **The domain of the round trip.** No access is out of bounds exactly when
the number of bytes, modulo `2 ^ 36`, is at most 240 or at least `2 ^ 36 - 15`;
up to 240 bytes the result is the windows of the message, each full one without
the padding it seems to have. -/
theorem roundTrip_domain (hkey : ValidKey aes cipherKey) (phiv : Bytes) {input : Str}
    (hhex : IsHex input) (heven : input.length % 2 = 0) :
    (roundTrip aes phiv input cipherKey ≠ .error .outOfBounds ↔
      input.length / 2 % 2 ^ 36 ≤ 240 ∨ 2 ^ 36 - 15 ≤ input.length / 2 % 2 ^ 36) ∧
    (input.length / 2 ≤ 240 → ∃ out, roundTrip aes phiv input cipherKey = .ok out ∧
      out = (windows 16 (unhex input)).flatMap (fun w => hexStr (stripFull w)) ∧
      (out = upper input ↔
        ∀ w ∈ windows 16 (unhex input), w.length = 16 → ∀ k, ¬PadSuffix w k)) :=
  ⟨roundTrip_no_fault_iff hkey phiv hhex heven, fun hlen =>
    ⟨_, roundTrip_short hkey phiv hhex heven hlen, List.flatMap_assoc,
      stripped_eq_upper_iff hhex heven⟩⟩

/-- Of two blocks, the first ends like padding. -/
theorem roundTrip_domain_twoBlocks :
    let input := hexStr (List.replicate 15 0 ++ [1, 0x6a])
    roundTrip cbc128 [] input zeroKey ≠ .error .outOfBounds ∧
      roundTrip cbc128 [] input zeroKey = .ok (hexStr (List.replicate 15 0 ++ [0x6a])) := by
  intro input
  have hhex : IsHex input := isHex_hexStr _
  obtain ⟨hfault, hshort⟩ := roundTrip_domain validKey_cbc128 [] hhex (by decide)
  obtain ⟨out, hrun, hout, -⟩ := hshort (by decide)
  refine ⟨hfault.mpr (Or.inl (by decide)), ?_⟩
  rw [hrun, hout]
  decide

/-- A message of `2 ^ 36` bytes: both block counts wrap to 0, and nothing is
accessed at all. -/
theorem roundTrip_wraps :
    let input := List.replicate (2 ^ 37) '0'.toUInt8
    ValidKey aes128 zeroKey ∧ IsHex input ∧ input.length % 2 = 0 ∧
      ¬(roundTrip aes128 [] input zeroKey ≠ .error .outOfBounds ↔ input.length / 2 ≤ 240) := by
  intro input
  have hlen : input.length = 2 ^ 37 := List.length_replicate
  have hhex : IsHex input := by
    intro c hc
    rw [List.eq_of_mem_replicate hc]
    decide
  have heven : input.length % 2 = 0 := hlen ▸ by decide
  refine ⟨validKey_zeroKey, hhex, heven, ?_⟩
  rw [roundTrip_no_fault_iff validKey_zeroKey [] hhex heven, hlen]
  decide

/-! ## The text pipeline -/

/-- Text, through hex, the round trip and back. -/
def textPipeline (aes : AES) (phiv : Bytes) (text cipherKey : Str) : Exec Str := do
  let plainText ← roundTrip aes phiv (convertStrToHexStr text) cipherKey
  convertHexStrToStr plainText

/-- **Printable text** survives the pipeline exactly up to 240 characters. -/
theorem textPipeline_eq_iff (hkey : ValidKey aes cipherKey) (phiv : Bytes) {text : Str}
    (hprint : ∀ c ∈ text, 32 ≤ c ∧ c ≤ 126) :
    textPipeline aes phiv text cipherKey = .ok text ↔ text.length ≤ 240 := by
  have hascii : ∀ c ∈ text, c < 128 := fun c hc =>
    UInt8.lt_of_le_of_lt (hprint c hc).2 (by decide)
  rw [textPipeline, convertStrToHexStr_of_lt hascii]
  refine ⟨?_, ?_⟩
  · intro h
    obtain ⟨plain, hplain, htext⟩ := bind_eq_ok h
    obtain ⟨v, rfl, hle⟩ := roundTrip_length_le hkey hplain
    rw [convertHexStrToStr_hexStr (by omega)] at htext
    rw [← Except.ok.inj htext]
    exact (List.takeWhile_sublist _).length_le.trans hle
  · intro hlen
    have hlen' : (hexStr text).length / 2 = text.length := by
      rw [length_hexStr]
      omega
    -- printable bytes are larger than any padding byte
    have hstrip : (windows 16 text).flatMap stripFull = text := by
      have hflat := flatten_windows (by decide : 0 < 16) text
      conv_rhs => rw [← hflat]
      refine (flatMap_prefix_eq_flatten stripFull_isPrefixOf _).mpr fun w hw => ?_
      refine stripFull_eq_self_iff.mpr fun hfull => not_padSuffix_of_lt fun b hb => ?_
      have hb32 := UInt8.le_iff_toNat_le.mp (hprint b (mem_of_mem_windows hw hb)).1
      rw [hfull]
      exact Nat.lt_of_lt_of_le (by decide) hb32
    have hne : ∀ c ∈ text, c ≠ 0 := by
      rintro c hc rfl
      exact absurd (hprint 0 hc).1 (by decide)
    rw [roundTrip_short hkey phiv (isHex_hexStr text) (by rw [length_hexStr]; omega) (by omega),
      unhex_hexStr, hstrip, ok_bind, convertHexStrToStr_hexStr (by omega),
      List.takeWhile_eq_self_iff.mpr (by simpa using hne)]

theorem textPipeline_eq_iff_short :
    textPipeline aes128 [] (str "VPN") zeroKey = .ok (str "VPN") :=
  (textPipeline_eq_iff validKey_zeroKey [] (List.all_iff_forall_prop.mp rfl)).mpr (by decide)

end AES

end SimpleVpn
