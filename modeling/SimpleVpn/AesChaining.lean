import SimpleVpn.AesMalformed

/-!
# The reach of a corrupted cipher block

The states `decryption` computes before it removes the padding, and what a
change in one group of the cipher text does to them.

The loop keeps the cipher block it has read in a temporary, since the state is
deciphered in place, and stores it in `phiv_` for the next block. So a state
depends on two neighbouring groups of the input and on nothing else
(`decryptFrom_confined`), and the second of them is only added to it.
-/

namespace SimpleVpn

open Exec Padding BlockCipher

namespace AES

/-- One iteration of `decryption`, collecting the state in place of its text. -/
def collectState (cipherText roundKey : Bytes) (i : ℕ) :
    AES × List Bytes → Exec (AES × List Bytes)
  | (aes, states) => do
    let (aes, state) ← decryptState cipherText roundKey i aes
    return (aes, states ++ [state])

/-- `decryption`, collecting the states of its iterations in place of their text. -/
def decryptionStates (aes : AES) (input cipherKey : Str) : Exec (AES × List Bytes) := do
  assert (cipherKey.length = aes.nkey * 4 * 2)
  let blockSize := wrap 32 (input.length / (Nstate * 2))
  let cipherText ← convertTypeStrToByteBlock input
  let key ← convertTypeStrToByteBlock cipherKey
  let roundKey ← expandKey aes key
  forUp 32 0 blockSize (savePhiv aes aes.iv, []) (collectState cipherText roundKey)

variable {aes : AES} {cipherKey : Str}

/-! ## The states -/

/-- The loop collects the deciphered blocks. -/
theorem collectLoop_eq {source roundKey : Bytes} (hlen : roundKey.length = 16 * (aes.nround + 1))
    {n : ℕ} (hn : n < 2 ^ 32) (v : Block) :
    forUp 32 0 n (savePhiv aes (List.ofFn v), []) (collectState source roundKey) =
      let cs := cuts source n
      if Splits source.length n then
        .ok (savePhiv aes (List.ofFn (chainValue v cs)),
          (decryptFrom (blockPerm aes.nround roundKey) (mask aes.mode) v cs).map List.ofFn)
      else .error .outOfBounds := by
  simp only [List.map_eq_flatMap, List.flatMap_eq_foldl]
  refine decipherLoop_eq (fun out p => out ++ [List.ofFn p]) hn ?_ ?_ v []
  · intro i v out hi hfit
    rw [collectState, decryptState_eq hlen hi hfit, ok_bind]
    rfl
  · rintro i ⟨a, out⟩ hi hfit
    rw [collectState, decryptState, createState_not_fits hi hfit, error_bind, error_bind]

/-- The states are the deciphered blocks. -/
theorem decryptionStates_eq (hkey : ValidKey aes cipherKey) (input : Str) :
    decryptionStates aes input cipherKey =
      let cs := cuts (decoded input) (decryptCount input)
      if Splits (decoded input).length (decryptCount input) then
        .ok (savePhiv aes (List.ofFn (chainValue (ivBlock aes) cs)),
          (decryptFrom (aes.cipher cipherKey) (mask aes.mode) (ivBlock aes) cs).map List.ofFn)
      else .error .outOfBounds := by
  obtain ⟨hexpand, hlen⟩ := expandKey_valid hkey
  have hcount : decryptCount input < 2 ^ 32 := Nat.mod_lt _ (by decide)
  simp only [decryptionStates, assert_ok hkey.size, ok_bind, convertTypeStrToByteBlock_eq input,
    convertKey_eq hkey.size, decodeHex_of_isHex hkey.hex, hexpand, savePhiv_iv]
  exact collectLoop_eq hlen hcount (ivBlock aes)

/-- The text `decryption` returns is what unpadding leaves of the states. -/
theorem decryption_eq_decryptionStates (hkey : ValidKey aes cipherKey) (input : Str) :
    aes.decryption input cipherKey = (do
      let (aes, states) ← decryptionStates aes input cipherKey
      return (aes, hexStr (states.flatMap unpad))) := by
  rw [decryption_eq hkey, decryptionStates_eq hkey]
  dsimp only
  split
  · rw [ok_bind]
    simp only [strip, List.flatMap_map, pure_eq_ok]
  · rfl

/-- What a call of `decryption` that returns has computed on the way. -/
theorem decryptionStates_of_ok {input out : Str} {aes' : AES}
    (h : aes.decryption input cipherKey = .ok (aes', out)) :
    ∃ states, decryptionStates aes input cipherKey = .ok (aes', states) ∧
      out = hexStr (states.flatMap unpad) := by
  rw [decryption_eq_decryptionStates (validKey_of_decryption h)] at h
  obtain ⟨⟨a, states⟩, hstates, hout⟩ := bind_eq_ok h
  obtain ⟨rfl, rfl⟩ := Prod.mk.inj (Except.ok.inj hout)
  exact ⟨states, hstates, rfl⟩

/-! ## The groups of a cipher text -/

/-- Group `i` of a string of digits encodes block `i` of what it decodes to. -/
theorem window_unhex (s : Str) (i : ℕ) : window 16 (unhex s) i = unhex (window 32 s i) := by
  have hdrop : 32 * i = 2 * (16 * i) := by omega
  rw [window, window, hdrop, ← unhex_drop, ← unhex_take]

/-- The block that group `i` encodes. -/
def groupBlock (input : Str) (i : ℕ) : Block := toBlock (unhex (window 32 input i))

theorem ofFn_groupBlock {input : Str} {n i : ℕ} (hlen : input.length = 32 * n) (hi : i < n) :
    List.ofFn (groupBlock input i) = unhex (window 32 input i) := by
  refine ofFn_toBlock ?_
  rw [length_unhex, length_window]
  omega

/-- The first `n` groups, as blocks. -/
def groupBlocks (input : Str) (n : ℕ) : List Block := (List.range n).map (groupBlock input)

@[simp] theorem length_groupBlocks (input : Str) (n : ℕ) : (groupBlocks input n).length = n := by
  simp [groupBlocks]

theorem getElem?_groupBlocks {input : Str} {n i : ℕ} (hi : i < n) :
    (groupBlocks input n)[i]? = some (groupBlock input i) := by
  rw [groupBlocks, List.getElem?_map, List.getElem?_range hi, Option.map_some]

/-- A cipher text of `n` groups that is deciphered at all is cut into the blocks
they encode; the number of groups is counted modulo `2 ^ 32`. -/
theorem cuts_eq_groupBlocks {input : Str} (hhex : IsHex input) {n : ℕ}
    (hlen : input.length = 32 * n)
    (hsplit : Splits (decoded input).length (decryptCount input)) :
    cuts (decoded input) (decryptCount input) = groupBlocks input (n % 2 ^ 32) := by
  have hcount : decryptCount input = n % 2 ^ 32 := by
    rw [decryptCount, hlen, Nat.mul_div_cancel_left n (by decide), wrap]
  have h15 : n % 2 ^ 32 ≤ 15 := by
    rw [length_decoded hhex, splits_decryptCount_iff, hcount] at hsplit
    exact hsplit
  have hseen : wrap 32 input.length = 32 * (n % 2 ^ 32) := by
    rw [hlen, wrap]
    omega
  have hsize : (decoded input).length = 16 * (n % 2 ^ 32) := by
    rw [length_decoded hhex, hseen]
    omega
  rw [hcount, cuts, groupBlocks]
  refine List.map_congr_left fun i hi => congrArg toBlock ?_
  have hlt : i < n % 2 ^ 32 := List.mem_range.mp hi
  have hfull : (window 16 (decoded input) i).length = 16 := by
    rw [length_window, hsize]
    omega
  rw [cut_eq_pad_window (by omega), pad_of_length_eq hfull, decoded, hseen,
    decodeHex_of_isHex (hhex.take _), window_unhex, window_take 32 input hlt]

/-- A call that returns has deciphered the groups of its input. -/
theorem decryption_groups {input out : Str} {aes' : AES} (hhex : IsHex input) {n : ℕ}
    (hlen : input.length = 32 * n) (h : aes.decryption input cipherKey = .ok (aes', out)) :
    ∃ states, decryptionStates aes input cipherKey = .ok (aes', states) ∧
      out = hexStr (states.flatMap unpad) ∧
      states = (decryptFrom (aes.cipher cipherKey) (mask aes.mode) (ivBlock aes)
        (groupBlocks input (n % 2 ^ 32))).map List.ofFn := by
  have hkey := validKey_of_decryption h
  obtain ⟨hsplit, -⟩ := decryption_ok hkey h
  obtain ⟨states, hstates, hout⟩ := decryptionStates_of_ok h
  refine ⟨states, hstates, hout, ?_⟩
  rw [decryptionStates_eq hkey] at hstates
  obtain ⟨-, heq⟩ := ite_eq_ok hstates
  rw [← cuts_eq_groupBlocks hhex hlen hsplit]
  exact (Prod.mk.inj heq).2.symm

/-! ## Corrupting a group -/

/-- How the states of two cipher texts compare that differ only in group `j`. -/
structure ConfinedTo (mode : MODE) (j : ℕ) (c c' : Str) (states states' : List Bytes) : Prop where
  /-- the states are blocks -/
  size : ∀ s ∈ states ++ states', s.length = 16
  /-- other states do not change -/
  other : ∀ i, i ≠ j → i ≠ j + 1 → states[i]? = states'[i]?
  /-- without chaining, the next one does not change either -/
  next_ECB : mode = .ECB → states[j + 1]? = states'[j + 1]?
  /-- with chaining, it changes by as much as the group did -/
  next_CBC : mode = .CBC → ∀ s s', states[j + 1]? = some s → states'[j + 1]? = some s' →
    List.zipWith (· ^^^ ·) s s' =
      List.zipWith (· ^^^ ·) (unhex (window 32 c j)) (unhex (window 32 c' j))

theorem zipWith_xor_ofFn (a b : Block) :
    List.zipWith (· ^^^ ·) (List.ofFn a) (List.ofFn b) = List.ofFn fun i => a i ^^^ b i := by
  apply List.ext_getElem (by simp)
  intro i h₁ h₂
  rw [List.getElem_zipWith, List.getElem_ofFn, List.getElem_ofFn, List.getElem_ofFn]

/-- Adding two blocks to the same one leaves their difference. -/
theorem xor_xor_cancel (a b d : UInt8) : (d ^^^ a) ^^^ (d ^^^ b) = a ^^^ b := by
  rw [UInt8.xor_comm d a, UInt8.xor_assoc, ← UInt8.xor_assoc d d b, UInt8.xor_self, UInt8.zero_xor]

section groups

variable {c c' : Str} {n j : ℕ}

theorem groupBlock_congr {i : ℕ} (h : window 32 c i = window 32 c' i) :
    groupBlock c i = groupBlock c' i := by
  rw [groupBlock, h, groupBlock]

theorem groupBlocks_congr (hsame : ∀ i, i ≠ j → window 32 c i = window 32 c' i) (m : ℕ) {i : ℕ}
    (hi : i ≠ j) : (groupBlocks c m)[i]? = (groupBlocks c' m)[i]? := by
  rcases Nat.lt_or_ge i m with hlt | hge
  · rw [getElem?_groupBlocks hlt, getElem?_groupBlocks hlt, groupBlock_congr (hsame i hi)]
  · rw [List.getElem?_eq_none (by rwa [length_groupBlocks]),
      List.getElem?_eq_none (by rwa [length_groupBlocks])]

/-- Deciphering the first `m` groups in either mode confines the corruption. -/
theorem confinedTo_groupBlocks (hlen : c.length = 32 * n) (hlen' : c'.length = 32 * n) {m : ℕ}
    (hm : m ≤ n) (hsame : ∀ i, i ≠ j → window 32 c i = window 32 c' i) (E : Equiv.Perm Block)
    (mode : MODE) (v : Block) :
    ConfinedTo mode j c c' ((decryptFrom E (mask mode) v (groupBlocks c m)).map List.ofFn)
      ((decryptFrom E (mask mode) v (groupBlocks c' m)).map List.ofFn) := by
  refine ⟨fun s hs => ?_, fun i hi hi' => ?_, ?_, ?_⟩
  · rw [← List.map_append] at hs
    obtain ⟨b, -, rfl⟩ := List.mem_map.mp hs
    exact List.length_ofFn
  · rw [List.getElem?_map, List.getElem?_map,
      decryptFrom_confined E (mask mode) (fun i hi => groupBlocks_congr hsame m hi) v hi hi']
  · rintro rfl
    have hconst : mask .ECB = fun _ => Equiv.refl Block := rfl
    simp only [hconst, decryptFrom_const, List.getElem?_map,
      groupBlocks_congr hsame m (Nat.succ_ne_self j)]
  · rintro rfl s s' hs hs'
    have hlt : j + 1 < m := by
      obtain ⟨hlt, -⟩ := List.getElem?_eq_some_iff.mp hs
      rwa [List.length_map, length_decryptFrom, length_groupBlocks] at hlt
    have hj : j < m := Nat.lt_of_succ_lt hlt
    rw [List.getElem?_map, getElem?_decryptFrom_succ E (mask .CBC) (getElem?_groupBlocks hj)
      (getElem?_groupBlocks hlt)] at hs hs'
    obtain rfl := Option.some.inj hs
    obtain rfl := Option.some.inj hs'
    rw [← groupBlock_congr (hsame (j + 1) (Nat.succ_ne_self j)),
      ← ofFn_groupBlock hlen (hj.trans_le hm), ← ofFn_groupBlock hlen' (hj.trans_le hm),
      zipWith_xor_ofFn, zipWith_xor_ofFn]
    exact congrArg List.ofFn (funext fun i => xor_xor_cancel _ _ _)

end groups

/-- **A corrupted group is confined.** Two cipher texts of `n` groups that differ
only in group `j`, deciphered under one key by objects that may hold any
chaining value. -/
theorem decryption_confined {c c' out out' : Str} {aes₁ aes₂ : AES} {n j : ℕ} (phiv : Bytes)
    (hhex : IsHex c) (hhex' : IsHex c') (hlen : c.length = 32 * n) (hlen' : c'.length = 32 * n)
    (hsame : ∀ i, i ≠ j → window 32 c i = window 32 c' i)
    (h : aes.decryption c cipherKey = .ok (aes₁, out))
    (h' : { aes with phiv := phiv }.decryption c' cipherKey = .ok (aes₂, out')) :
    ∃ states states', decryptionStates aes c cipherKey = .ok (aes₁, states) ∧
      decryptionStates { aes with phiv := phiv } c' cipherKey = .ok (aes₂, states') ∧
      out = hexStr (states.flatMap unpad) ∧ out' = hexStr (states'.flatMap unpad) ∧
      states.length = n % 2 ^ 32 ∧ states'.length = n % 2 ^ 32 ∧
      ConfinedTo aes.mode j c c' states states' := by
  obtain ⟨states, hstates, hout, heq⟩ := decryption_groups hhex hlen h
  obtain ⟨states', hstates', hout', heq'⟩ := decryption_groups hhex' hlen' h'
  refine ⟨states, states', hstates, hstates', hout, hout', ?_, ?_, ?_⟩
  · rw [heq, List.length_map, length_decryptFrom, length_groupBlocks]
  · rw [heq', List.length_map, length_decryptFrom, length_groupBlocks]
  · rw [heq, heq']
    exact confinedTo_groupBlocks hlen hlen' (Nat.mod_le _ _) hsame _ _ _

/-- Two blocks of zeros, and the same with one digit of the first changed. -/
theorem decryption_confined_zeros :
    let c := List.replicate 64 '0'.toUInt8
    let c' := c.set 1 '1'.toUInt8
    ∃ aes₁ aes₂ states states', decryptionStates cbc128 c zeroKey = .ok (aes₁, states) ∧
      decryptionStates cbc128 c' zeroKey = .ok (aes₂, states') ∧
      ConfinedTo .CBC 0 c c' states states' := by
  intro c c'
  have hsame : ∀ i, i ≠ 0 → window 32 c i = window 32 c' i := by
    intro i hi
    rw [window, window, List.drop_set_of_lt (by omega)]
  obtain ⟨aes₁, out, h⟩ := decryption_returns validKey_cbc128 c (by decide)
  obtain ⟨aes₂, out', h'⟩ := decryption_returns validKey_cbc128 c' (by decide)
  obtain ⟨states, states', hstates, hstates', -, -, -, -, hconf⟩ :=
    decryption_confined (n := 2) [] (by decide) (by decide) rfl rfl hsame h h'
  exact ⟨aes₁, aes₂, states, states', hstates, hstates', hconf⟩

end AES

end SimpleVpn
