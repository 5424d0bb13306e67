import SimpleVpn.AesCalls
import SimpleVpn.AesChaining

/-!
# Encryption and decryption of messages

What the two public calls are as functions on messages: hex digits, two for a
byte, of at most 255 bytes, which is what `encryption` takes
(`encryption_isModeOf_iff`).

`encryption` enciphers the blocks of the padded message (`blockBytes_plainBlocks`).
So it forgets about a message no more than padding does, and enciphering again
what `decryption` returned gives the cipher text back if stripping the blocks lost
no more than padding adds. Both calls go through a message from the front, with
`phiv_` between the blocks; so a message can be cut between two blocks, and its
second part treated by an object whose initialization vector is what `phiv_` held.
-/

namespace SimpleVpn

open Exec Padding BlockCipher

namespace AES

/-- A string that `encryption` takes. -/
structure IsMessage (s : Str) : Prop where
  /-- every character is a hex digit -/
  hex : IsHex s
  /-- two digits for a byte -/
  even : s.length % 2 = 0
  /-- no block ends at byte 255 or later -/
  short : s.length / 2 ≤ 255

/-- The blocks of a padded message. -/
def plainBlocks (m : Bytes) : List Block := (windows 16 m).map fun w => toBlock (pad 16 w)

/-- The cipher blocks of a message. -/
def cipherBlocks (aes : AES) (cipherKey : Str) (m : Bytes) : List Block :=
  encryptFrom (aes.cipher cipherKey) (mask aes.mode) (ivBlock aes) (plainBlocks m)

variable {aes : AES} {cipherKey s t : Str}

theorem isMessage_byte : IsMessage (str "61") := ⟨by decide, by decide, by decide⟩

/-- Two groups of zeros. -/
def zeros : Str := List.replicate 64 '0'.toUInt8

theorem length_zeros : zeros.length = 32 * 2 := List.length_replicate

theorem isMessage_zeros : IsMessage zeros := ⟨by decide, by decide, by decide⟩

/-! ## Blocks -/

theorem cuts_eq_plainBlocks {m : Bytes} (hm : m.length < 256) :
    cuts m (windowCount 16 m) = plainBlocks m := by
  rw [cuts, plainBlocks, windows, List.map_map]
  exact List.map_congr_left fun j _ => congrArg toBlock (cut_eq_pad_window hm j)

/-- The blocks are the padded message. -/
theorem blockBytes_plainBlocks (m : Bytes) : blockBytes (plainBlocks m) = padMessage 16 m := by
  rw [blockBytes, plainBlocks, padMessage, List.flatMap_map]
  refine List.flatMap_congr fun w hw => ofFn_toBlock (length_pad ?_)
  obtain ⟨j, -, rfl⟩ := List.mem_map.mp hw
  rw [length_window]
  exact Nat.min_le_left _ _

/-- **`encryption`** of a message. -/
theorem encryption_message (hkey : ValidKey aes cipherKey) (h : IsMessage s) :
    aes.encryption s cipherKey = .ok
      (savePhiv aes (List.ofFn (chainValue (ivBlock aes) (cipherBlocks aes cipherKey (unhex s)))),
        hexStr (blockBytes (cipherBlocks aes cipherKey (unhex s)))) := by
  have hshort := h.short
  have hlt : s.length < 2 ^ 32 := by omega
  have hsplit := (encryption_survives_iff h.hex h.even).mpr (Or.inl (by omega))
  have hrun := encryption_eq hkey s
  rw [if_pos hsplit, decoded_of_lt h.hex hlt, encryptCount_eq_windowCount h.even hlt,
    cuts_eq_plainBlocks (by rw [length_unhex]; omega)] at hrun
  exact hrun

/-! ## What encryption forgets -/

theorem plainBlocks_eq_iff {m m' : Bytes} :
    plainBlocks m = plainBlocks m' ↔ padMessage 16 m = padMessage 16 m' := by
  rw [← blockBytes_plainBlocks, ← blockBytes_plainBlocks]
  exact ⟨congrArg _, fun h => blockBytes_injective h⟩

/-- **Where two messages have one cipher text**: they are the same up to letter
case, or one of them is the other with its padding written out. -/
theorem encryption_same_iff (hkey : ValidKey aes cipherKey) (hs : IsMessage s)
    (ht : IsMessage t) :
    (∃ aes₁ aes₂ out, aes.encryption s cipherKey = .ok (aes₁, out) ∧
      aes.encryption t cipherKey = .ok (aes₂, out)) ↔
    upper s = upper t ∨ upper s = hexStr (padMessage 16 (unhex t)) ∨
      upper t = hexStr (padMessage 16 (unhex s)) := by
  have hinj : ∀ {v w : Bytes}, hexStr v = hexStr w ↔ v = w :=
    ⟨fun h => hexStr_injective h, congrArg _⟩
  rw [encryption_message hkey hs, encryption_message hkey ht, ← hexStr_unhex hs.hex hs.even,
    ← hexStr_unhex ht.hex ht.even, hinj, hinj, hinj,
    ← padMessage_eq_iff (by decide) (by decide), ← plainBlocks_eq_iff,
    ← encryptFrom_inj (aes.cipher cipherKey) (mask aes.mode)]
  refine ⟨?_, ?_⟩
  · rintro ⟨aes₁, aes₂, out, h, h'⟩
    obtain ⟨-, rfl⟩ := Prod.mk.inj (Except.ok.inj h)
    exact (blockBytes_injective (hexStr_injective (Prod.mk.inj (Except.ok.inj h')).2)).symm
  · intro h
    have hsame : cipherBlocks aes cipherKey (unhex s) = cipherBlocks aes cipherKey (unhex t) := h
    rw [hsame]
    exact ⟨_, _, _, rfl, rfl⟩

/-- A byte, and the same byte with its padding. -/
theorem encryption_same_iff_padded :
    let padded := str "610f0f0f0f0f0f0f0f0f0f0f0f0f0f0f"
    ∃ aes₁ aes₂ out, cbc128.encryption (str "61") zeroKey = .ok (aes₁, out) ∧
      cbc128.encryption padded zeroKey = .ok (aes₂, out) := by
  intro padded
  exact (encryption_same_iff validKey_cbc128 isMessage_byte
    ⟨by decide, by decide, by decide⟩).mpr (Or.inr (Or.inr (by decide)))

/-! ## Enciphering what was deciphered -/

/-- **`decryption`** of at most 15 groups. -/
theorem decryption_groups_eq (hkey : ValidKey aes cipherKey) {c : Str} (hhex : IsHex c) {n : ℕ}
    (hn : n ≤ 15) (hlen : c.length = 32 * n) :
    let ps := decryptFrom (aes.cipher cipherKey) (mask aes.mode) (ivBlock aes) (groupBlocks c n)
    let aes' := savePhiv aes (List.ofFn (chainValue (ivBlock aes) (groupBlocks c n)))
    decryptionStates aes c cipherKey = .ok (aes', ps.map List.ofFn) ∧
      aes.decryption c cipherKey = .ok (aes', hexStr (strip ps)) := by
  have hcount : decryptCount c = n := by
    rw [decryptCount, hlen, Nat.mul_div_cancel_left n (by decide), wrap_of_lt (by omega)]
  have hseen : wrap 32 c.length = 32 * n := by
    rw [hlen, wrap_of_lt (by omega)]
  have hsplit : Splits (decoded c).length (decryptCount c) := by
    rw [length_decoded hhex, splits_decryptCount_iff, hcount]
    exact hn
  have hcuts := cuts_eq_groupBlocks hhex hlen hsplit
  rw [Nat.mod_eq_of_lt (by omega)] at hcuts
  have hstates := decryptionStates_eq hkey c
  have hrun := decryption_eq hkey c
  rw [if_pos hsplit, hcuts] at hstates hrun
  exact ⟨hstates, hrun⟩

/-- The blocks of a string of groups are its bytes. -/
theorem blockBytes_groupBlocks {c : Str} {n : ℕ} (hlen : c.length = 32 * n) :
    blockBytes (groupBlocks c n) = unhex c := by
  have hbytes : (unhex c).length = 16 * n := by
    rw [length_unhex, hlen]
    omega
  have hflat := flatten_window_take 16 (unhex c) n
  rw [← hbytes, List.take_length] at hflat
  rw [← hflat, blockBytes, groupBlocks, List.flatMap_map, ← List.flatMap_def]
  refine List.flatMap_congr fun j hj => ?_
  rw [ofFn_groupBlock hlen (List.mem_range.mp hj), window_unhex]

theorem length_hexStr_blockBytes (cs : List Block) :
    (hexStr (blockBytes cs)).length = 32 * cs.length := by
  rw [length_hexStr, length_blockBytes]
  omega

/-- Blocks are read back from their text. -/
theorem groupBlocks_hexStr (cs : List Block) :
    groupBlocks (hexStr (blockBytes cs)) cs.length = cs := by
  refine blockBytes_injective ?_
  rw [blockBytes_groupBlocks (length_hexStr_blockBytes cs), unhex_hexStr]

/-- What is left of stripped blocks can be enciphered. -/
theorem isMessage_strip {ps : List Block} (hps : ps.length ≤ 15) :
    IsMessage (hexStr (strip ps)) := by
  have hle := length_strip_le ps
  refine ⟨isHex_hexStr _, ?_, ?_⟩
  · rw [length_hexStr, Nat.mul_mod_right]
  · rw [length_hexStr]
    omega

/-- Stripping blocks and padding the rest gives the blocks back if only the last
one is cut, and not down to nothing. -/
theorem plainBlocks_strip_iff (ps : List Block) : plainBlocks (strip ps) = ps ↔
    (∀ p ∈ ps.dropLast, ∀ k, ¬PadSuffix (List.ofFn p) k) ∧ ps.getLast? ≠ some fullPad := by
  have hbytes : plainBlocks (strip ps) = ps ↔ padMessage 16 (strip ps) = blockBytes ps := by
    rw [← blockBytes_plainBlocks]
    exact ⟨congrArg _, fun h => blockBytes_injective h⟩
  rw [hbytes]
  rcases List.eq_nil_or_concat ps with rfl | ⟨init, b, rfl⟩
  · exact iff_of_true rfl ⟨nofun, nofun⟩
  · have hlen : ∀ p : Block, (List.ofFn p).length = 16 := fun p => List.length_ofFn
    have hinit : ∀ w ∈ init.map List.ofFn, w.length = 16 := by
      intro w hw
      obtain ⟨p, -, rfl⟩ := List.mem_map.mp hw
      exact hlen p
    have hiff := padMessage_strip_iff (by decide) (by decide) hinit (hlen b)
    rw [List.flatMap_map, ← List.flatMap_def, List.forall_mem_map] at hiff
    -- a block that is stripped to nothing is padding as long as itself
    have hall : PadSuffix (List.ofFn b) 16 ↔ b = fullPad := by
      rw [← unpad_eq_nil_iff]
      refine ⟨fun h => ?_, fun h => ?_⟩
      · rw [unpad_of_padSuffix h (by rw [hlen b]; decide), hlen b, Nat.sub_self, List.take_zero]
      · rw [unpad_eq_nil_iff.mp h]
        decide
    rw [hall] at hiff
    simp only [List.concat_eq_append, List.dropLast_concat, List.getLast?_concat, strip, blockBytes,
      List.flatMap_append, List.flatMap_singleton, ne_eq, Option.some.injEq]
    exact hiff

/-- **Deciphering and enciphering again.** A cipher text of at most 15 groups
comes back, in upper case, exactly if no state but the last ends like padding
and the last state is not all padding. -/
theorem reencryption_iff (hkey : ValidKey aes cipherKey) {c : Str} (hhex : IsHex c) {n : ℕ}
    (hn : n ≤ 15) (hlen : c.length = 32 * n) :
    ∃ aes₁ aes₂ states p c', decryptionStates aes c cipherKey = .ok (aes₁, states) ∧
      aes.decryption c cipherKey = .ok (aes₁, p) ∧ aes.encryption p cipherKey = .ok (aes₂, c') ∧
      (c' = upper c ↔ (∀ w ∈ states.dropLast, ∀ k, ¬PadSuffix w k) ∧
        states.getLast? ≠ some (List.replicate 16 16)) := by
  obtain ⟨hstates, hrun⟩ := decryption_groups_eq hkey hhex hn hlen
  obtain ⟨ps, hps⟩ : ∃ ps, ps = decryptFrom (aes.cipher cipherKey) (mask aes.mode) (ivBlock aes)
    (groupBlocks c n) := ⟨_, rfl⟩
  rw [← hps] at hstates hrun
  have hcount : ps.length = n := by rw [hps, length_decryptFrom, length_groupBlocks]
  have hencrypt := encryption_message hkey (isMessage_strip (hcount.trans_le hn))
  rw [unhex_hexStr] at hencrypt
  refine ⟨_, _, _, _, _, hstates, hrun, hencrypt, ?_⟩
  -- the blocks themselves come back; what can be lost is lost in stripping them
  have hback : encryptFrom (aes.cipher cipherKey) (mask aes.mode) (ivBlock aes) ps =
      groupBlocks c n := by
    rw [hps, encryptFrom_decryptFrom]
  have hupper : upper c = hexStr (blockBytes (groupBlocks c n)) := by
    rw [blockBytes_groupBlocks hlen, hexStr_unhex hhex (by omega)]
  have hlast : (ps.map List.ofFn).getLast? ≠ some (List.replicate 16 16) ↔
      ps.getLast? ≠ some fullPad := by
    have hfull : List.replicate 16 16 = List.ofFn fullPad := by decide
    rw [List.getLast?_map, hfull, ← Option.map_some,
      (Option.map_injective List.ofFn_injective).ne_iff]
  have hinit : (∀ w ∈ (ps.map List.ofFn).dropLast, ∀ k, ¬PadSuffix w k) ↔
      ∀ p ∈ ps.dropLast, ∀ k, ¬PadSuffix (List.ofFn p) k := by
    rw [← List.map_dropLast, List.forall_mem_map]
  rw [hinit, hlast, ← plainBlocks_strip_iff, hupper, ← hback, cipherBlocks]
  refine ⟨fun h => ?_, fun h => by rw [h]⟩
  exact (encryptFrom_inj _ _).mp (blockBytes_injective (hexStr_injective h))

/-- Two groups of zeros, deciphered and enciphered. -/
theorem reencryption_iff_zeros : ∃ aes₁ aes₂ p c',
    cbc128.decryption zeros zeroKey = .ok (aes₁, p) ∧
      cbc128.encryption p zeroKey = .ok (aes₂, c') := by
  obtain ⟨aes₁, aes₂, states, p, c', -, hdec, henc, -⟩ :=
    reencryption_iff validKey_cbc128 isMessage_zeros.hex (by decide) length_zeros
  exact ⟨aes₁, aes₂, p, c', hdec, henc⟩

/-! ## Messages in parts -/

/-- The cipher depends on the key size alone. -/
theorem Alike.cipher {aes' : AES} (h : Alike aes aes') (cipherKey : Str) :
    aes'.cipher cipherKey = aes.cipher cipherKey := by
  have hround : aes'.nround = aes.nround := by rw [aes.nround_eq, aes'.nround_eq, h.nkey]
  rw [AES.cipher, AES.cipher, scheduleBytes, scheduleBytes, hround, h.nkey]

theorem Alike.symm {aes' : AES} (h : Alike aes aes') : Alike aes' aes :=
  ⟨h.nkey.symm, h.mode.symm⟩

theorem Alike.validKey {aes' : AES} (h : Alike aes aes') (hkey : ValidKey aes cipherKey) :
    ValidKey aes' cipherKey := ⟨by rw [hkey.size, h.nkey], hkey.hex⟩

theorem blockBytes_append (cs ds : List Block) :
    blockBytes (cs ++ ds) = blockBytes cs ++ blockBytes ds := List.flatMap_append

theorem strip_append (ps qs : List Block) : strip (ps ++ qs) = strip ps ++ strip qs :=
  List.flatMap_append

/-- The blocks of a message in two parts, the first of whole blocks. -/
theorem plainBlocks_append {m : Bytes} (hm : m.length % 16 = 0) (m' : Bytes) :
    plainBlocks (m ++ m') = plainBlocks m ++ plainBlocks m' := by
  refine blockBytes_injective ?_
  rw [blockBytes_append, blockBytes_plainBlocks, blockBytes_plainBlocks, blockBytes_plainBlocks,
    padMessage_append (by decide) hm]

/-- What an object is for the second part of a message: itself, with its
initialization vector set to what `phiv_` holds after the first part if it chains. -/
def Resumes (aes aes₁ aes₂ : AES) : Prop :=
  match aes.mode with
  | .ECB => aes₂ = aes
  | .CBC => setIV aes₁.phiv aes = .ok aes₂

/-- There is such an object, and its calls go on from the chaining value. -/
theorem exists_resumes (aes : AES) (v : Block) :
    ∃ aes₂, Resumes aes (savePhiv aes (List.ofFn v)) aes₂ ∧ Alike aes aes₂ ∧
      (aes.mode = .CBC → ivBlock aes₂ = v) := by
  cases hmode : aes.mode with
  | ECB => exact ⟨aes, by rw [Resumes, hmode], .refl aes, nofun⟩
  | CBC =>
    have hlen : (List.ofFn v).length = 16 := List.length_ofFn
    obtain ⟨aes₂, hset, halike, hiv⟩ := setIV_eq hmode hlen
    refine ⟨aes₂, ?_, halike, fun _ => by rw [ivBlock, hiv, toBlock_ofFn]⟩
    rw [Resumes, hmode, savePhiv, if_pos hmode]
    exact hset

/-- ECB mode does not chain. -/
theorem mask_ECB : mask .ECB = fun _ => Equiv.refl Block := rfl

/-- Without chaining the chaining value does not matter. -/
theorem encryptFrom_ivBlock {aes₂ : AES} {v : Block} (halike : Alike aes aes₂)
    (hiv : aes.mode = .CBC → ivBlock aes₂ = v) (ps : List Block) :
    encryptFrom (aes₂.cipher cipherKey) (mask aes₂.mode) (ivBlock aes₂) ps =
      encryptFrom (aes.cipher cipherKey) (mask aes.mode) v ps := by
  rw [halike.cipher, halike.mode]
  cases hmode : aes.mode with
  | ECB => rw [mask_ECB, encryptFrom_const, encryptFrom_const]
  | CBC => rw [hiv hmode]

theorem decryptFrom_ivBlock {aes₂ : AES} {v : Block} (halike : Alike aes aes₂)
    (hiv : aes.mode = .CBC → ivBlock aes₂ = v) (cs : List Block) :
    decryptFrom (aes₂.cipher cipherKey) (mask aes₂.mode) (ivBlock aes₂) cs =
      decryptFrom (aes.cipher cipherKey) (mask aes.mode) v cs := by
  rw [halike.cipher, halike.mode]
  cases hmode : aes.mode with
  | ECB => rw [mask_ECB, decryptFrom_const, decryptFrom_const]
  | CBC => rw [hiv hmode]

theorem savePhiv_phiv (aes : AES) (v : Bytes) :
    (savePhiv aes v).phiv = if aes.mode = .CBC then v else aes.phiv := by
  rw [savePhiv]
  split <;> rfl

/-- After the parts `phiv_` holds what it holds after the whole. -/
theorem resumes_phiv {aes₂ : AES} {cs ds : List Block}
    (hresumes : Resumes aes (savePhiv aes (List.ofFn (chainValue (ivBlock aes) cs))) aes₂)
    (halike : Alike aes aes₂)
    (hiv : aes.mode = .CBC → ivBlock aes₂ = chainValue (ivBlock aes) cs) :
    (savePhiv aes (List.ofFn (chainValue (ivBlock aes) (cs ++ ds)))).phiv =
      (savePhiv aes₂ (List.ofFn (chainValue (ivBlock aes₂) ds))).phiv := by
  rw [savePhiv_phiv, savePhiv_phiv, halike.mode]
  cases hmode : aes.mode with
  | ECB =>
    rw [Resumes, hmode] at hresumes
    rw [if_neg nofun, if_neg nofun, hresumes]
  | CBC => rw [if_pos rfl, if_pos rfl, hiv hmode, chainValue_append]

/-- **Enciphering in parts.** A message can be cut after whole blocks: the cipher
text is that of the first part, and that of the second part by an object that
goes on where the first call ended; and so on with the object it leaves. -/
theorem encryption_in_parts (hkey : ValidKey aes cipherKey) (h : IsMessage (s ++ t))
    (hs : s.length % 32 = 0) :
    ∃ aes₁ out₁ aes₂ aes₃ out₂ aes',
      aes.encryption s cipherKey = .ok (aes₁, out₁) ∧ Resumes aes aes₁ aes₂ ∧
      aes₂.encryption t cipherKey = .ok (aes₃, out₂) ∧
      aes.encryption (s ++ t) cipherKey = .ok (aes', out₁ ++ out₂) ∧ aes'.phiv = aes₃.phiv := by
  obtain ⟨hhex, heven, hshort⟩ := h
  obtain ⟨hhexs, hhext⟩ := isHex_append.mp hhex
  rw [List.length_append] at heven hshort
  have hmess : IsMessage s := ⟨hhexs, by omega, by omega⟩
  have hmest : IsMessage t := ⟨hhext, by omega, by omega⟩
  obtain ⟨cs, hcs⟩ : ∃ cs, cs = cipherBlocks aes cipherKey (unhex s) := ⟨_, rfl⟩
  obtain ⟨aes₂, hresumes, halike, hiv⟩ := exists_resumes aes (chainValue (ivBlock aes) cs)
  have hblocks : cipherBlocks aes cipherKey (unhex (s ++ t)) =
      cs ++ cipherBlocks aes₂ cipherKey (unhex t) := by
    have hbytes : (unhex s).length % 16 = 0 := by
      rw [length_unhex]
      omega
    rw [unhex_append t hmess.even, cipherBlocks, plainBlocks_append hbytes, encryptFrom_append,
      cipherBlocks, encryptFrom_ivBlock halike hiv, hcs, cipherBlocks]
  have hfirst := encryption_message hkey hmess
  have hsecond := encryption_message (halike.validKey hkey) hmest
  have hwhole := encryption_message hkey ⟨hhex, by rwa [List.length_append],
    by rwa [List.length_append]⟩
  rw [← hcs] at hfirst
  rw [hblocks, blockBytes_append, hexStr_append] at hwhole
  exact ⟨_, _, aes₂, _, _, _, hfirst, hresumes, hsecond, hwhole,
    resumes_phiv hresumes halike hiv⟩

/-- A block, and one more byte. -/
theorem encryption_in_parts_block :
    ∃ aes₁ out₁ aes₂ aes₃ out₂ aes',
      cbc128.encryption zeroKey zeroKey = .ok (aes₁, out₁) ∧ setIV aes₁.phiv cbc128 = .ok aes₂ ∧
      aes₂.encryption (str "61") zeroKey = .ok (aes₃, out₂) ∧
      cbc128.encryption (zeroKey ++ str "61") zeroKey = .ok (aes', out₁ ++ out₂) := by
  obtain ⟨aes₁, out₁, aes₂, aes₃, out₂, aes', hfirst, hresumes, hsecond, hwhole, -⟩ :=
    encryption_in_parts (s := zeroKey) (t := str "61") validKey_cbc128
      ⟨by decide, by decide, by decide⟩ (by decide)
  exact ⟨aes₁, out₁, aes₂, aes₃, out₂, aes', hfirst, hresumes, hsecond, hwhole⟩

/-- The groups of a cipher text in two parts. -/
theorem groupBlocks_append {c d : Str} {n m : ℕ} (hc : c.length = 32 * n)
    (hd : d.length = 32 * m) :
    groupBlocks (c ++ d) (n + m) = groupBlocks c n ++ groupBlocks d m := by
  refine blockBytes_injective ?_
  have hlen : (c ++ d).length = 32 * (n + m) := by
    rw [List.length_append]
    omega
  rw [blockBytes_append, blockBytes_groupBlocks hlen, blockBytes_groupBlocks hc,
    blockBytes_groupBlocks hd, unhex_append d (by omega)]

/-- **Deciphering in parts.** A cipher text can be cut between two groups,
whatever its blocks are: the padding is removed block by block. -/
theorem decryption_in_parts (hkey : ValidKey aes cipherKey) {c d : Str} (hhex : IsHex (c ++ d))
    {n m : ℕ} (hc : c.length = 32 * n) (hd : d.length = 32 * m) (hshort : n + m ≤ 15) :
    ∃ aes₁ out₁ aes₂ aes₃ out₂ aes',
      aes.decryption c cipherKey = .ok (aes₁, out₁) ∧ Resumes aes aes₁ aes₂ ∧
      aes₂.decryption d cipherKey = .ok (aes₃, out₂) ∧
      aes.decryption (c ++ d) cipherKey = .ok (aes', out₁ ++ out₂) ∧ aes'.phiv = aes₃.phiv := by
  obtain ⟨hhexc, hhexd⟩ := isHex_append.mp hhex
  have hlen : (c ++ d).length = 32 * (n + m) := by
    rw [List.length_append]
    omega
  obtain ⟨aes₂, hresumes, halike, hiv⟩ :=
    exists_resumes aes (chainValue (ivBlock aes) (groupBlocks c n))
  have hfirst := (decryption_groups_eq hkey hhexc (by omega) hc).2
  have hsecond := (decryption_groups_eq (halike.validKey hkey) hhexd (by omega) hd).2
  have hwhole := (decryption_groups_eq hkey hhex hshort hlen).2
  rw [groupBlocks_append hc hd, decryptFrom_append, strip_append, hexStr_append,
    ← decryptFrom_ivBlock halike hiv] at hwhole
  exact ⟨_, _, aes₂, _, _, _, hfirst, hresumes, hsecond, hwhole,
    resumes_phiv hresumes halike hiv⟩

/-- Two groups of zeros, one after the other. -/
theorem decryption_in_parts_zeros :
    ∃ aes₁ out₁ aes₂ aes₃ out₂ aes',
      cbc128.decryption zeroKey zeroKey = .ok (aes₁, out₁) ∧ setIV aes₁.phiv cbc128 = .ok aes₂ ∧
      aes₂.decryption zeroKey zeroKey = .ok (aes₃, out₂) ∧
      cbc128.decryption (zeroKey ++ zeroKey) zeroKey = .ok (aes', out₁ ++ out₂) := by
  obtain ⟨aes₁, out₁, aes₂, aes₃, out₂, aes', hfirst, hresumes, hsecond, hwhole, -⟩ :=
    decryption_in_parts (c := zeroKey) (d := zeroKey) (n := 1) (m := 1) validKey_cbc128
      (by decide) rfl rfl (by decide)
  exact ⟨aes₁, out₁, aes₂, aes₃, out₂, aes', hfirst, hresumes, hsecond, hwhole⟩

end AES

end SimpleVpn
