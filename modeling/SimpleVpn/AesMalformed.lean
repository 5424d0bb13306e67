import SimpleVpn.AesRoundTrip

/-!
# Malformed strings

What the public calls do with a key or an input that is not what they expect.
The hex decoder reports a bad digit by an empty vector, and both callers go on
with it: an empty key is read out of bounds by key expansion, an empty input is
padded to a block and enciphered.

`encryption_rejects_iff` and `decryption_rejects_iff` say when a call returns
nothing and accesses nothing out of bounds. Both hold for every input, malformed
or not.
-/

namespace SimpleVpn

open Exec Padding BlockCipher

namespace AES

/-- A call that accesses nothing out of bounds and returns nothing. -/
def Rejects (r : Exec (AES × Str)) : Prop :=
  r ≠ .error .outOfBounds ∧ ∀ aes' out, r = .ok (aes', out) → out = []

theorem rejects_ok {aes' : AES} {out : Str} : Rejects (.ok (aes', out)) ↔ out = [] := by
  refine ⟨?_, ?_⟩
  · rintro ⟨-, h⟩
    exact h aes' out rfl
  · rintro rfl
    exact ⟨nofun, fun _ _ h => (Prod.mk.inj (Except.ok.inj h)).2.symm⟩

theorem not_rejects_error : ¬Rejects (.error .outOfBounds) := fun h => h.1 rfl

/-- A string with a bad digit, in the key or the input, or an input whose length
is not a multiple of `unit`. -/
def Malformed (unit : ℕ) (input cipherKey : Str) : Prop :=
  ¬IsHex cipherKey ∨ ¬IsHex input ∨ input.length % unit ≠ 0

/-- A block of padding and nothing else. -/
def fullPad : Block := fun _ => 16

variable {aes : AES} {cipherKey : Str}

/-! ## Encryption -/

theorem hexStr_eq_nil_iff {v : Bytes} : hexStr v = [] ↔ v = [] :=
  ⟨fun h => hexStr_injective h, fun h => by rw [h, hexStr_nil]⟩

theorem blockBytes_eq_nil_iff {bs : List Block} : blockBytes bs = [] ↔ bs.length = 0 := by
  rw [← List.length_eq_zero_iff, length_blockBytes]
  omega

/-- `encryption` rejects when the key is good and it counts no block. -/
theorem encryption_rejects_iff (hsize : cipherKey.length = aes.nkey * 4 * 2) (input : Str) :
    Rejects (aes.encryption input cipherKey) ↔
      IsHex cipherKey ∧ (input.length + 31) / 32 % 2 ^ 32 = 0 := by
  by_cases hhex : IsHex cipherKey
  · rw [encryption_eq ⟨hsize, hhex⟩]
    have hcount : (input.length + 31) / 32 % 2 ^ 32 = encryptCount input := rfl
    rw [hcount]
    by_cases hsplit : Splits (decoded input).length (encryptCount input)
    · simp only [if_pos hsplit]
      rw [rejects_ok, hexStr_eq_nil_iff, blockBytes_eq_nil_iff, length_encryptFrom, length_cuts]
      exact (and_iff_right hhex).symm
    · simp only [if_neg hsplit]
      refine iff_of_false not_rejects_error fun h => hsplit ?_
      rw [h.2]
      exact fun j hj => absurd hj (Nat.not_lt_zero j)
  · rw [encryption_bad_key hsize hhex]
    exact iff_of_false not_rejects_error fun h => hhex h.1

/-! ## Decryption -/

/-- Nothing is left of a block exactly when it is all padding. -/
theorem unpad_eq_nil_iff {b : Block} : unpad (List.ofFn b) = [] ↔ b = fullPad := by
  have hlen : (List.ofFn b).length = 16 := List.length_ofFn
  refine ⟨?_, ?_⟩
  · intro h
    have hpad : PadSuffix (List.ofFn b) 16 := by
      by_contra hno
      have hlt : ∀ k, PadSuffix (List.ofFn b) k → k < 16 := fun k hk =>
        Nat.lt_of_le_of_ne (hlen ▸ hk.2.1) fun h16 => hno (h16 ▸ hk)
      rw [unpad] at h
      split at h
      · rename_i hk
        have htake := congrArg List.length h
        rw [List.length_take, hlen, List.length_nil] at htake
        have := hlt _ hk
        omega
      · rw [h] at hlen
        cases hlen
    have hall := hpad.2.2
    rw [hlen, Nat.sub_self, List.drop_zero] at hall
    exact List.ofFn_injective (hall.trans (by decide))
  · rintro rfl
    decide

/-- Nothing is left of a list of blocks exactly when all of them are padding. -/
theorem strip_eq_nil_iff {bs : List Block} :
    strip bs = [] ↔ bs = List.replicate bs.length fullPad := by
  rw [strip, List.flatMap_eq_nil_iff, List.eq_replicate_iff]
  simp only [true_and]
  exact forall₂_congr fun b _ => unpad_eq_nil_iff

/-- Deciphering leaves nothing exactly when the cipher blocks encipher padding. -/
theorem strip_decryptFrom_eq_nil_iff (E : Equiv.Perm Block) (mask : Block → Equiv.Perm Block)
    (v : Block) (cs : List Block) :
    strip (decryptFrom E mask v cs) = [] ↔
      cs = encryptFrom E mask v (List.replicate cs.length fullPad) := by
  rw [strip_eq_nil_iff, length_decryptFrom]
  refine ⟨?_, ?_⟩
  · intro h
    rw [← h, encryptFrom_decryptFrom]
  · intro h
    conv_lhs => rw [h]
    rw [decryptFrom_encryptFrom]

/-- The cipher text of `n` blocks of padding, in hex. -/
def paddingCipherText (aes : AES) (cipherKey : Str) (n : ℕ) : Str :=
  hexStr (blockBytes (encryptFrom (aes.cipher cipherKey) (mask aes.mode) (ivBlock aes)
    (List.replicate n fullPad)))

/-- The inputs that `decryption` turns into nothing within bounds. It deciphers
`n` blocks and sees the characters `seen`. There are no blocks; or there is one,
`seen` has a bad digit, and a block of padding is enciphered to itself; or
`seen` begins with the cipher text of `n` blocks of padding. -/
def DecryptsToNothing (aes : AES) (input cipherKey : Str) : Prop :=
  let n := input.length / 32 % 2 ^ 32
  let seen := input.take (input.length % 2 ^ 32)
  n = 0 ∨
  (n = 1 ∧ ¬IsHex seen ∧ paddingCipherText aes cipherKey 1 = hexStr (List.ofFn fullPad)) ∨
  (n ≤ 15 ∧ IsHex seen ∧ upper (seen.take (32 * n)) = paddingCipherText aes cipherKey n)

/-- Blocks decipher to nothing when their hex is the cipher text of padding. -/
theorem eq_paddingBlocks_iff {cs : List Block} {n : ℕ} :
    cs = encryptFrom (aes.cipher cipherKey) (mask aes.mode) (ivBlock aes)
        (List.replicate n fullPad) ↔
      hexStr (blockBytes cs) = paddingCipherText aes cipherKey n :=
  ⟨fun h => by rw [h, paddingCipherText], fun h => blockBytes_injective (hexStr_injective h)⟩

/-- An input with a bad digit is one block of padding. -/
theorem decryptsToNothing_bad {n : ℕ} :
    (Splits 0 n ∧ hexStr (blockBytes (cuts [] n)) = paddingCipherText aes cipherKey n) ↔
      n = 0 ∨ n = 1 ∧ paddingCipherText aes cipherKey 1 = hexStr (List.ofFn fullPad) := by
  have hsplit : Splits 0 n ↔ n ≤ 1 := by
    rw [splits_iff]
    omega
  have hone : hexStr (blockBytes (cuts [] 1)) = hexStr (List.ofFn fullPad) := by decide
  rw [hsplit]
  refine ⟨?_, ?_⟩
  · rintro ⟨hn, h⟩
    rcases Nat.le_one_iff_eq_zero_or_eq_one.mp hn with rfl | rfl
    · exact Or.inl rfl
    · exact Or.inr ⟨rfl, (hone ▸ h).symm⟩
  · rintro (rfl | ⟨rfl, h⟩)
    · exact ⟨Nat.zero_le 1, rfl⟩
    · exact ⟨Nat.le_refl 1, hone.trans h.symm⟩

/-- The full blocks of a short string of digits are its first digits. -/
theorem hexStr_cuts {s : Str} (hhex : IsHex s) {n : ℕ} (hn : 32 * n ≤ s.length)
    (hlen : s.length < 512) : hexStr (blockBytes (cuts (unhex s) n)) = upper (s.take (32 * n)) := by
  have hbytes := length_unhex s
  have heven : (s.take (32 * n)).length % 2 = 0 := by
    rw [List.length_take_of_le hn]
    omega
  have hdouble : 32 * n = 2 * (16 * n) := by omega
  rw [← hexStr_unhex (hhex.take _) heven, hdouble, unhex_take,
    blockBytes_cuts (by omega) (by omega)]

/-- What is decoded of an input splits into the blocks counted if these are at
most 15; then the length has not wrapped below them. -/
theorem splits_decryptCount_iff (input : Str) :
    Splits (wrap 32 input.length / 2) (decryptCount input) ↔ decryptCount input ≤ 15 := by
  rw [splits_iff]
  simp only [decryptCount, wrap]
  omega

theorem decryptCount_few {input : Str} (h : decryptCount input ≤ 15) :
    32 * decryptCount input ≤ wrap 32 input.length ∧ wrap 32 input.length < 512 := by
  simp only [decryptCount, wrap] at *
  omega

/-- An input of good digits is deciphered as long as it has at most 15 blocks. -/
theorem decryptsToNothing_hex {input : Str} (hhex : IsHex (input.take (wrap 32 input.length))) :
    (Splits (unhex (input.take (wrap 32 input.length))).length (decryptCount input) ∧
      hexStr (blockBytes (cuts (unhex (input.take (wrap 32 input.length))) (decryptCount input))) =
        paddingCipherText aes cipherKey (decryptCount input)) ↔
      decryptCount input ≤ 15 ∧
        upper ((input.take (wrap 32 input.length)).take (32 * decryptCount input)) =
          paddingCipherText aes cipherKey (decryptCount input) := by
  have hseen : (input.take (wrap 32 input.length)).length = wrap 32 input.length :=
    List.length_take_of_le (Nat.mod_le _ _)
  rw [length_unhex, hseen, splits_decryptCount_iff]
  refine and_congr_right fun h15 => ?_
  obtain ⟨hfew, hshort⟩ := decryptCount_few h15
  rw [hexStr_cuts hhex (hfew.trans_eq hseen.symm) (hseen.trans_lt hshort)]

/-- `decryption` rejects when the key is good and the input deciphers to nothing. -/
theorem decryption_rejects_iff (hsize : cipherKey.length = aes.nkey * 4 * 2) (input : Str) :
    Rejects (aes.decryption input cipherKey) ↔
      IsHex cipherKey ∧ DecryptsToNothing aes input cipherKey := by
  by_cases hkey : IsHex cipherKey
  · have hrejects : Rejects (aes.decryption input cipherKey) ↔
        Splits (decoded input).length (decryptCount input) ∧
          hexStr (blockBytes (cuts (decoded input) (decryptCount input))) =
            paddingCipherText aes cipherKey (decryptCount input) := by
      rw [decryption_eq ⟨hsize, hkey⟩]
      by_cases hsplit : Splits (decoded input).length (decryptCount input)
      · simp only [if_pos hsplit]
        rw [rejects_ok, hexStr_eq_nil_iff, strip_decryptFrom_eq_nil_iff, length_cuts,
          eq_paddingBlocks_iff]
        exact (and_iff_right hsplit).symm
      · simp only [if_neg hsplit]
        exact iff_of_false not_rejects_error fun h => hsplit h.1
    have hcond : DecryptsToNothing aes input cipherKey ↔ decryptCount input = 0 ∨
        (decryptCount input = 1 ∧ ¬IsHex (input.take (wrap 32 input.length)) ∧
          paddingCipherText aes cipherKey 1 = hexStr (List.ofFn fullPad)) ∨
        (decryptCount input ≤ 15 ∧ IsHex (input.take (wrap 32 input.length)) ∧
          upper ((input.take (wrap 32 input.length)).take (32 * decryptCount input)) =
            paddingCipherText aes cipherKey (decryptCount input)) := Iff.rfl
    rw [hrejects, and_iff_right hkey, hcond]
    by_cases hseen : IsHex (input.take (wrap 32 input.length))
    · rw [decoded, decodeHex_of_isHex hseen, decryptsToNothing_hex hseen]
      refine ⟨?_, ?_⟩
      · rintro ⟨h15, h⟩
        exact Or.inr (Or.inr ⟨h15, hseen, h⟩)
      · rintro (h0 | ⟨-, hbad, -⟩ | ⟨h15, -, h⟩)
        · rw [h0]
          exact ⟨by decide, rfl⟩
        · exact absurd hseen hbad
        · exact ⟨h15, h⟩
    · rw [decoded, decodeHex_of_not hseen, List.length_nil, decryptsToNothing_bad]
      refine ⟨?_, ?_⟩
      · rintro (h0 | ⟨h1, h⟩)
        · exact Or.inl h0
        · exact Or.inr (Or.inl ⟨h1, hseen, h⟩)
      · rintro (h0 | ⟨h1, -, h⟩ | ⟨-, hgood, -⟩)
        · exact Or.inl h0
        · exact Or.inr ⟨h1, h⟩
        · exact absurd hgood hseen
  · rw [decryption_bad_key hsize hkey]
    exact iff_of_false not_rejects_error fun h => hkey h.1

/-! ## Both calls -/

/-- **Which malformed strings are rejected**, by either call. -/
theorem malformed_rejects_iff (hsize : cipherKey.length = aes.nkey * 4 * 2) (input : Str) :
    (Malformed 2 input cipherKey → (Rejects (aes.encryption input cipherKey) ↔
      IsHex cipherKey ∧ (input.length + 31) / 32 % 2 ^ 32 = 0)) ∧
    (Malformed 32 input cipherKey → (Rejects (aes.decryption input cipherKey) ↔
      IsHex cipherKey ∧ DecryptsToNothing aes input cipherKey)) :=
  ⟨fun _ => encryption_rejects_iff hsize input, fun _ => decryption_rejects_iff hsize input⟩

theorem malformed_rejects_iff_short :
    ¬Rejects (aes128.encryption (str "0G") zeroKey) ∧
      Rejects (aes128.decryption (str "0G") zeroKey) := by
  obtain ⟨henc, hdec⟩ := malformed_rejects_iff validKey_zeroKey.size (str "0G")
  have hbad : ¬IsHex (str "0G") := by decide
  refine ⟨fun h => ?_, (hdec (Or.inr (Or.inl hbad))).mpr ⟨validKey_zeroKey.hex, Or.inl rfl⟩⟩
  exact absurd ((henc (Or.inr (Or.inl hbad))).mp h).2 (by decide)

/-- A bad digit in the input: `encryption` returns a cipher text all the same. -/
theorem encryption_accepts_bad_digit :
    zeroKey.length = aes128.nkey * 4 * 2 ∧ Malformed 2 (str "0G") zeroKey ∧
      ¬Rejects (aes128.encryption (str "0G") zeroKey) := by
  refine ⟨by decide, Or.inr (Or.inl (by decide)), fun h => ?_⟩
  exact absurd ((encryption_rejects_iff validKey_zeroKey.size _).mp h).2 (by decide)

end AES

end SimpleVpn
