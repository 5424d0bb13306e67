import SimpleVpn.Application

/-!
# A header between two parties

What becomes of a header that one party makes under its key and another one
receives under its own. `SendPacket` gives `EncryptInput` one fixed text; here
the text is arbitrary.

`transport` is `EncryptInput`, `Serialize`, `Deserialize` and the check of
`ReceivePacket`, one after the other. `transport_iff` says for which texts this
stays within bounds, and for which the header passes: `Serialize` writes 32
characters whatever the text is, the cipher text of the first block is the first
of the cipher text (`take_encryptFrom`), and the check compares with upper-case
digits after unpadding.
-/

namespace SimpleVpn

open Exec Padding BlockCipher AES

namespace VpnHeader

/-! ## Any header on the wire -/

/-- A field of at least 31 characters is written up to its 32nd byte, which may
be the terminating null. -/
theorem writeField_of_le {s : Str} (h : 31 ≤ s.length) :
    writeField s = .ok ((s ++ [0]).take 32) := by
  have hlen : ((s ++ [0]).take 32).length = 32 := by
    rw [List.length_take, List.length_append, List.length_singleton]
    omega
  refine forUp_collect _ hlen (by decide) fun k u x hx => ?_
  obtain ⟨hk, -⟩ := List.getElem?_eq_some_iff.mp hx
  rw [List.getElem?_take_of_lt (hlen ▸ hk)] at hx
  rw [load_eq_of_getElem? hx]
  rfl

/-- A shorter field is read past its terminating null. -/
theorem writeField_short {s : Str} (h : s.length < 31) :
    writeField s = .error .outOfBounds := by
  have hlen : (s ++ [0]).length = s.length + 1 := List.length_append
  refine forUp_error (fun _ => True) (Nat.zero_le (s.length + 1)) (by omega) (by decide) ?_ ?_
    trivial
  · intro i out _ hi _
    have hi' : i < (s ++ [0]).length := hi.trans_eq hlen.symm
    refine Or.inl ⟨out ++ [(s ++ [0])[i]], ?_, trivial⟩
    rw [load_ok hi', ok_bind, pure_eq_ok]
  · intro out _
    rw [load_error (Nat.le_of_eq hlen), error_bind]

/-- A header made from `text` under `cipherKey`, written, read, and checked under
`cipherKey'`. -/
def transport (text cipherKey cipherKey' : Str) : Exec Bool := do
  let (header, _) ← encryptInput {} text cipherKey
  let buffer ← header.serialize
  let (received, _) ← deserialize buffer
  let decrypted ← received.decryptInput cipherKey'
  return decide (received.sentOrigin = decrypted)

section transport

variable {text cipherKey cipherKey' : Str}

/-- Which texts `encryption` takes: up to 511 characters, all of them digits
unless there is only one block. -/
theorem splits_text_iff (hlen : text.length < 2 ^ 32) :
    Splits (decoded text).length (encryptCount text) ↔
      text.length ≤ 511 ∧ (IsHex text ∨ text.length ≤ 32) := by
  have hcount : encryptCount text = (text.length + 31) / 32 := wrap_of_lt (by omega)
  rw [splits_iff, hcount]
  by_cases hhex : IsHex text
  · rw [decoded_of_lt hhex hlen, length_unhex]
    simp only [hhex, true_or, and_true]
    omega
  · rw [decoded, wrap_of_lt hlen, List.take_length, decodeHex_of_not hhex, List.length_nil]
    simp only [hhex, false_or]
    omega

/-- The first group of a cipher text is the first block, enciphered. -/
theorem take_encryptFrom (E : Equiv.Perm Block) (v : Block) (source : Bytes) {n : ℕ} (hn : 0 < n) :
    (hexStr (blockBytes (encryptFrom E (mask .ECB) v (cuts source n)))).take 32 =
      hexStr (List.ofFn (E (toBlock (cut source 0)))) := by
  obtain ⟨m, rfl⟩ := Nat.exists_eq_succ_of_ne_zero (Nat.ne_of_gt hn)
  have hcuts : ∃ rest, cuts source (m + 1) = toBlock (cut source 0) :: rest := by
    rw [cuts, List.range_succ_eq_map, List.map_cons]
    exact ⟨_, rfl⟩
  obtain ⟨rest, hcuts⟩ := hcuts
  rw [hcuts, encryptFrom, mask_ECB_apply, blockBytes, List.flatMap_cons, hexStr_append,
    List.take_left' (by rw [length_hexStr, List.length_ofFn])]

/-- **What arrives.** The first 32 bytes of the text and its terminating null,
beside the first block of the cipher text, deciphered and stripped. -/
theorem transport_eq (hkey : ValidKey aes128 cipherKey) (hkey' : ValidKey aes128 cipherKey')
    (h31 : 31 ≤ text.length) (hlen : text.length < 2 ^ 32)
    (hsplit : Splits (decoded text).length (encryptCount text)) :
    transport text cipherKey cipherKey' = .ok (decide ((text ++ [0]).take 32 =
      hexStr (unpad (List.ofFn ((aes128.cipher cipherKey').symm
        (aes128.cipher cipherKey (toBlock (cut (decoded text) 0)))))))) := by
  have hpos : 0 < encryptCount text := by
    rw [encryptCount, wrap_of_lt (by omega)]
    omega
  have hmode : aes128.mode = .ECB := rfl
  have hrun := encryption_eq hkey text
  rw [if_pos hsplit, hmode] at hrun
  have hfirst := take_encryptFrom (aes128.cipher cipherKey) (ivBlock aes128) (decoded text) hpos
  obtain ⟨cs, hcs⟩ : ∃ cs, cs = encryptFrom (aes128.cipher cipherKey) (mask .ECB) (ivBlock aes128)
    (cuts (decoded text) (encryptCount text)) := ⟨_, rfl⟩
  obtain ⟨c, hc⟩ : ∃ c, c = aes128.cipher cipherKey (toBlock (cut (decoded text) 0)) := ⟨_, rfl⟩
  obtain ⟨origin, horigin⟩ : ∃ origin, origin = (text ++ [0]).take 32 := ⟨_, rfl⟩
  rw [← hcs, ← hc] at hfirst
  rw [← hcs] at hrun
  have hsize : 32 ≤ (hexStr (blockBytes cs)).length := by
    rw [length_hexStr, length_blockBytes, hcs, length_encryptFrom, length_cuts]
    omega
  have hwf : WellFormed ⟨origin, hexStr (List.ofFn c)⟩ := by
    refine ⟨?_, by rw [length_hexStr, List.length_ofFn]⟩
    rw [horigin, List.length_take, List.length_append, List.length_singleton]
    omega
  have hencrypt : encryptInput {} text cipherKey =
      .ok (⟨text, hexStr (blockBytes cs)⟩, hexStr (blockBytes cs)) := by
    rw [encryptInput, hrun]
    rfl
  have hwrite : serialize ⟨text, hexStr (blockBytes cs)⟩ =
      .ok (origin ++ hexStr (List.ofFn c)) := by
    rw [serialize, writeField_of_le h31, ok_bind, writeField_of_le (Nat.le_of_succ_le hsize),
      List.take_append_of_le_length hsize, hfirst, horigin]
    rfl
  have h64 : 64 ≤ (origin ++ hexStr (List.ofFn c)).length := by
    rw [List.length_append, hwf.origin, hwf.encrypted]
  have hdecrypt := decryptInput_eq hkey' hwf.encrypted
  simp only [fieldBlock_hexStr] at hdecrypt
  simp only [transport, hencrypt, hwrite, deserialize_eq h64, ofBytes_fields hwf, hdecrypt, ok_bind,
    pure_eq_ok, ← horigin, ← hc]

/-- A text that leaves the receiver with what it decrypts. -/
structure Passes (text cipherKey cipherKey' : Str) : Prop where
  /-- it fills a block, and can be encrypted -/
  length : 32 ≤ text.length ∧ text.length ≤ 511
  /-- it is hex, -/
  hex : IsHex text
  /-- in upper case where it is sent -/
  isUpper : ∀ c ∈ text.take 32, IsUpperHexDigit c
  /-- its first block is not taken for a padded one -/
  unpadded : ∀ k, ¬PadSuffix (unhex (text.take 32)) k
  /-- and both keys encipher it to the same block -/
  agree : aes128.cipher cipherKey (toBlock (unhex (text.take 32))) =
    aes128.cipher cipherKey' (toBlock (unhex (text.take 32)))

/-- The first block of a long enough text. -/
theorem cut_decoded_zero (hhex : IsHex text) (h32 : 32 ≤ text.length) (h511 : text.length ≤ 511) :
    cut (decoded text) 0 = unhex (text.take 32) := by
  have hwin : window 16 (unhex text) 0 = unhex (text.take 32) :=
    (unhex_take text 16).symm
  have hfull : (unhex (text.take 32)).length = 16 := by
    rw [length_unhex, List.length_take_of_le h32]
  rw [decoded_of_lt hhex (by omega), cut_eq_pad_window (by rw [length_unhex]; omega), hwin,
    pad_of_length_eq hfull]

/-- What arrives is what is decrypted exactly for the texts that pass. -/
theorem passes_iff (h31 : 31 ≤ text.length) (h511 : text.length ≤ 511)
    (hshort : IsHex text ∨ text.length ≤ 32) :
    (text ++ [0]).take 32 = hexStr (unpad (List.ofFn ((aes128.cipher cipherKey').symm
        (aes128.cipher cipherKey (toBlock (cut (decoded text) 0)))))) ↔
      Passes text cipherKey cipherKey' := by
  have hlen : ((text ++ [0]).take 32).length = 32 := by
    rw [List.length_take, List.length_append, List.length_singleton]
    omega
  rw [eq_hexStr_unpad_iff hlen, Equiv.eq_symm_apply]
  refine ⟨?_, ?_⟩
  · rintro ⟨hupper, hunpadded, hagree⟩
    -- the terminating null is no digit
    have h32 : 32 ≤ text.length := by
      by_contra hlt
      refine absurd (hupper 0 ?_) (by decide)
      rw [List.take_of_length_le (by rw [List.length_append, List.length_singleton]; omega)]
      exact List.mem_append_right _ List.mem_cons_self
    have horigin : (text ++ [0]).take 32 = text.take 32 := List.take_append_of_le_length h32
    rw [horigin] at hupper hunpadded hagree
    have hhex : IsHex text := by
      rcases hshort with hhex | hle
      · exact hhex
      · rw [List.take_of_length_le hle] at hupper
        exact fun c hc => (hupper c hc).isHexDigit
    rw [cut_decoded_zero hhex h32 h511] at hagree
    exact ⟨⟨h32, h511⟩, hhex, hupper, hunpadded, hagree.symm⟩
  · rintro ⟨⟨h32, -⟩, hhex, hupper, hunpadded, hagree⟩
    rw [List.take_append_of_le_length h32, cut_decoded_zero hhex h32 h511]
    exact ⟨hupper, hunpadded, hagree.symm⟩

/-- A call that faults leaves nothing to receive. -/
theorem transport_error (hkey : ValidKey aes128 cipherKey)
    (h : text.length < 31 ∨ ¬Splits (decoded text).length (encryptCount text)) :
    transport text cipherKey cipherKey' = .error .outOfBounds := by
  have hrun := encryption_eq hkey text
  by_cases hsplit : Splits (decoded text).length (encryptCount text)
  · have hshort := h.resolve_right (not_not.mpr hsplit)
    rw [if_pos hsplit] at hrun
    simp only [transport, encryptInput, hrun, ok_bind, pure_eq_ok, serialize,
      writeField_short hshort, error_bind]
  · rw [if_neg hsplit] at hrun
    simp only [transport, encryptInput, hrun, error_bind]

/-- **Any text as a header.** Under two good keys, a text makes its way to the
receiver without an access out of bounds if it has 31 to 511 characters and, if
there is more than one block of it, no bad digit; and it passes the receiver's
check exactly if it is one of `Passes`. -/
theorem transport_iff (hkey : ValidKey aes128 cipherKey) (hkey' : ValidKey aes128 cipherKey')
    (hlen : text.length < 2 ^ 32) :
    (transport text cipherKey cipherKey' ≠ .error .outOfBounds ↔
      31 ≤ text.length ∧ text.length ≤ 511 ∧ (IsHex text ∨ text.length ≤ 32)) ∧
    (transport text cipherKey cipherKey' = .ok true ↔ Passes text cipherKey cipherKey') := by
  have hsplits := splits_text_iff hlen
  by_cases hok : 31 ≤ text.length ∧ text.length ≤ 511 ∧ (IsHex text ∨ text.length ≤ 32)
  · obtain ⟨h31, hfits⟩ := hok
    have hrun := transport_eq hkey hkey' h31 hlen (hsplits.mpr hfits)
    rw [hrun, Except.ok.injEq, decide_eq_true_iff]
    exact ⟨iff_of_true nofun ⟨h31, hfits⟩, passes_iff h31 hfits.1 hfits.2⟩
  · have hrun : transport text cipherKey cipherKey' = .error .outOfBounds := by
      refine transport_error hkey ?_
      rcases Nat.lt_or_ge text.length 31 with hlt | hge
      · exact Or.inl hlt
      · exact Or.inr fun hsplit => hok ⟨hge, hsplits.mp hsplit⟩
    rw [hrun]
    refine ⟨iff_of_false (fun h => h rfl) hok, iff_of_false nofun fun h => hok ?_⟩
    exact ⟨Nat.le_of_succ_le h.length.1, h.length.2, Or.inl h.hex⟩

/-- The text of `SendPacket` passes under one key. -/
theorem passes_plainText : Passes VPNApplication.plainText cipherKey cipherKey := by
  have htake : VPNApplication.plainText.take 32 = VPNApplication.plainText := by decide
  refine ⟨by decide, by decide, ?_, ?_, rfl⟩
  · exact htake.symm ▸ VPNApplication.isUpper_plainText
  · exact htake.symm ▸ VPNApplication.unpadded_plainText

theorem transport_iff_plainText :
    transport VPNApplication.plainText zeroKey zeroKey = .ok true :=
  (transport_iff validKey_zeroKey validKey_zeroKey (by decide)).2.mpr passes_plainText

end transport

end VpnHeader

end SimpleVpn
