import SimpleVpn.AesKey
import SimpleVpn.AesText

/-!
# Block splitting and the modes of operation

The public part of the AES class: the constructor, the initialization vector,
`encryption` and `decryption`, and `_createState`, which cuts one padded block
out of a vector.

`_createState` holds both the number of bytes left and its loop index in a
`uint8_t`. What that does is said once, in `createState_eq`: a block that starts
at or before the end of the vector and ends before byte 255 is cut out, every
other one is an access out of bounds.
-/

namespace SimpleVpn

open Exec Padding BlockCipher

namespace AES

/-! ## The code -/

/-- `this->iv_[i] = x`. -/
def storeIV (aes : AES) (i : ℕ) (x : UInt8) : Exec AES :=
  if i < aes.iv.length then
    .ok { aes with
      iv := aes.iv.set i x
      iv_size := fun h => by rw [List.length_set, aes.iv_size h] }
  else
    .error .outOfBounds

/-- `setIV(seed)`. `rand seed i` is the `i`-th value of `rand()` after
`srand(seed)`. -/
def setIVSeed (rand : ℕ → ℕ → ℕ) (seed : ℕ) (aes : AES) : Exec AES := do
  assert (aes.mode = .CBC)
  forUp 8 0 Nstate aes fun i aes => storeIV aes i (UInt8.ofNat (rand seed i % 256))

/-- `setIV(iv)`. -/
def setIV (iv : Bytes) (aes : AES) : Exec AES := do
  assert (aes.mode = .CBC)
  assert (iv.length = 16)
  forUp 8 0 Nstate aes fun i aes => do storeIV aes i (← load iv i)

/-- `getIV`. -/
def getIV (aes : AES) : Bytes := aes.iv

/-- The constructor, at the time `time`. -/
def new (rand : ℕ → ℕ → ℕ) (time keyBits : ℕ) (mode : MODE) : Exec AES :=
  if h : keyBits = 128 ∨ keyBits = 192 ∨ keyBits = 256 then
    let aes : AES :=
      { nkey := keyBits / 32
        nround := 6 + keyBits / 32
        mode := mode
        iv := if mode = .CBC then List.replicate Nstate 0 else []
        phiv := []
        nkey_mem := by omega
        nround_eq := rfl
        iv_size := fun hm => by rw [if_pos hm, List.length_replicate] }
    if mode = .CBC then setIVSeed rand time aes else .ok aes
  else
    .error .assertion

/-- The object `AES aes128(128, MODE::ECB)`. -/
def aes128 : AES where
  nkey := 4
  nround := 10
  mode := .ECB
  iv := []
  phiv := []
  nkey_mem := Or.inl rfl
  nround_eq := rfl
  iv_size := fun h => by cases h

/-- It is what the constructor returns, whatever the clock and `rand()` give. -/
theorem new_aes128 (rand : ℕ → ℕ → ℕ) (time : ℕ) : new rand time 128 .ECB = .ok aes128 := rfl

/-- An object in CBC mode, with an initialization vector of zeros. -/
def cbc128 : AES where
  nkey := 4
  nround := 10
  mode := .CBC
  iv := List.replicate 16 0
  phiv := []
  nkey_mem := Or.inl rfl
  nround_eq := rfl
  iv_size := fun _ => rfl

/-- `_createState`. The number of bytes left and the loop index are held in
`uint8_t`s, the start and the index into the new state in `uint32_t`s. -/
def createState (block : Bytes) (start : ℕ) : Exec Bytes :=
  let last := min Nstate (wrap 8 (wrapSub 64 block.length start))
  let initVal := if last ≠ Nstate then Nstate - last else 0
  forUp 8 (wrap 8 start) (wrap 32 (start + last))
    (List.replicate Nstate (UInt8.ofNat initVal)) fun i ret => do
      store ret (wrapSub 32 i start) (← load block i)

/-- `if (mode_ == CBC) phiv_ = v`. -/
def savePhiv (aes : AES) (v : Bytes) : AES :=
  if aes.mode = .CBC then { aes with phiv := v } else aes

/-- `if (mode_ == CBC) _xor_iv(state, phiv_)`. -/
def xorPhiv (aes : AES) (state : Bytes) : Exec Bytes :=
  if aes.mode = .CBC then xorIv state aes.phiv else pure state

/-- One iteration of `encryption`. -/
def encryptBlock (plainText roundKey : Bytes) (i : ℕ) : AES × Str → Exec (AES × Str)
  | (aes, cipherText) => do
    let state ← createState plainText (wrap 32 (i * Nstate))
    let state ← xorPhiv aes state
    let state ← encryptionState aes state roundKey
    return (savePhiv aes state, cipherText ++ (← convertTypeByteStateToStr state false))

/-- `encryption`: the object afterwards, and the string returned. -/
def encryption (aes : AES) (input cipherKey : Str) : Exec (AES × Str) := do
  assert (cipherKey.length = aes.nkey * 4 * 2)
  let blockSize := wrap 32 (input.length / (Nstate * 2))
  let blockSize := if input.length % (Nstate * 2) ≠ 0 then wrap 32 (blockSize + 1) else blockSize
  let plainText ← convertTypeStrToByteBlock input
  let key ← convertTypeStrToByteBlock cipherKey
  let roundKey ← expandKey aes key
  forUp 32 0 blockSize (savePhiv aes aes.iv, []) (encryptBlock plainText roundKey)

/-- One iteration of `decryption` up to the conversion of its state: the object
afterwards, and the state. -/
def decryptState (cipherText roundKey : Bytes) (i : ℕ) (aes : AES) : Exec (AES × Bytes) := do
  let tmp ← createState cipherText (wrap 32 (i * Nstate))
  let state ← decryptionState aes tmp roundKey
  let state ← xorPhiv aes state
  return (savePhiv aes tmp, state)

/-- One iteration of `decryption`. -/
def decryptBlock (cipherText roundKey : Bytes) (i : ℕ) : AES × Str → Exec (AES × Str)
  | (aes, plainText) => do
    let tmp ← createState cipherText (wrap 32 (i * Nstate))
    let state ← decryptionState aes tmp roundKey
    let state ← xorPhiv aes state
    return (savePhiv aes tmp, plainText ++ (← convertTypeByteStateToStr state true))

/-- `decryption`: the object afterwards, and the string returned. -/
def decryption (aes : AES) (input cipherKey : Str) : Exec (AES × Str) := do
  assert (cipherKey.length = aes.nkey * 4 * 2)
  let blockSize := wrap 32 (input.length / (Nstate * 2))
  let cipherText ← convertTypeStrToByteBlock input
  let key ← convertTypeStrToByteBlock cipherKey
  let roundKey ← expandKey aes key
  forUp 32 0 blockSize (savePhiv aes aes.iv, []) (decryptBlock cipherText roundKey)

/-! ## Block splitting -/

/-- The number of bytes `_createState` copies, if it copies within bounds. -/
def copied (size j : ℕ) : ℕ := min 16 ((size - 16 * j) % 256)

/-- Block `j` of a vector of `size` bytes can be cut out: it starts at or before
the end, and its last byte comes before byte 255. -/
def Fits (size j : ℕ) : Prop := 16 * j ≤ size ∧ 16 * j + copied size j ≤ 255

instance (size j : ℕ) : Decidable (Fits size j) := inferInstanceAs (Decidable (_ ∧ _))

/-- Block `j`, as `_createState` cuts it out. -/
def cut (block : Bytes) (j : ℕ) : Bytes :=
  pad 16 ((block.drop (16 * j)).take (copied block.length j))

theorem copied_le (size j : ℕ) : copied size j ≤ size - 16 * j :=
  (Nat.min_le_right _ _).trans (Nat.mod_le _ _)

theorem copied_le_sixteen (size j : ℕ) : copied size j ≤ 16 := Nat.min_le_left _ _

/-- The code's count of bytes left agrees with `copied` up to the end of the vector. -/
theorem last_eq_copied {size j : ℕ} (h : 16 * j ≤ size) :
    min Nstate (wrap 8 (wrapSub 64 size (16 * j))) = copied size j := by
  simp only [wrap, wrapSub, copied, Nstate]
  omega

/-- Past the end, the count of bytes left wraps to a full block. -/
theorem last_past_end {size j : ℕ} (hj : j ≤ 15) (h : size < 16 * j) :
    min Nstate (wrap 8 (wrapSub 64 size (16 * j))) = 16 := by
  simp only [wrap, wrapSub, Nstate]
  omega

@[simp] theorem length_cut (block : Bytes) (j : ℕ) : (cut block j).length = 16 :=
  length_pad ((List.length_take_le _ _).trans (copied_le_sixteen _ _))

/-- Copying within bounds. -/
theorem createState_fits {block : Bytes} {j : ℕ} (h : Fits block.length j) :
    createState block (16 * j) = .ok (cut block j) := by
  obtain ⟨hstart, hend⟩ := h
  have hle := copied_le_sixteen block.length j
  have hleft := copied_le block.length j
  have h8 : wrap 8 (16 * j) = 16 * j := wrap_of_lt (by omega)
  have h32 : wrap 32 (16 * j + copied block.length j) = 16 * j + copied block.length j :=
    wrap_of_lt (by omega)
  let xs := (block.drop (16 * j)).take (copied block.length j)
  have hxs : xs.length = copied block.length j :=
    List.length_take_of_le (by rw [List.length_drop]; exact hleft)
  let d := UInt8.ofNat (if xs.length ≠ 16 then 16 - xs.length else 0)
  have hcut : cut block j = xs ++ List.replicate (16 - xs.length) d :=
    pad_eq_append fun hfull => congrArg UInt8.ofNat (if_pos hfull)
  rw [createState, last_eq_copied hstart, h8, h32, hcut, ← hxs]
  refine forUp_fill xs d (hxs.trans_le hle) (by omega) ?_
  intro k u x hx
  obtain ⟨hk, -⟩ := List.getElem?_eq_some_iff.mp hx
  have hxk : block[16 * j + k]? = some x := by
    rw [← List.getElem?_drop, ← hx, List.getElem?_take_of_lt (hxs ▸ hk)]
  have hidx : wrapSub 32 (16 * j + k) (16 * j) = k := by
    rw [wrapSub]
    omega
  rw [load_eq_of_getElem? hxk, ok_bind, hidx]

/-- A block that starts past the end. -/
theorem createState_past_end {block : Bytes} {j : ℕ} (hj : j ≤ 15) (h : block.length < 16 * j) :
    createState block (16 * j) = .error .outOfBounds := by
  have h8 : wrap 8 (16 * j) = 16 * j := wrap_of_lt (by omega)
  have h32 : wrap 32 (16 * j + 16) = 16 * j + 16 := wrap_of_lt (by omega)
  rw [createState, last_past_end hj h, h8, h32]
  refine forUp_fault_first (by omega) ?_
  rw [load_error (Nat.le_of_lt h), error_bind]

/-- The block that ends at byte 255: its loop index wraps to 0 and goes on. -/
theorem createState_wrap {block : Bytes} (h : 240 ≤ block.length)
    (hfull : copied block.length 15 = 16) :
    createState block (16 * 15) = .error .outOfBounds := by
  have hlen : 256 ≤ block.length := by
    simp only [copied] at hfull
    omega
  rw [createState, last_eq_copied h, hfull]
  refine forUp_wrap_error (fun ret => ret.length = 16) (by decide) (by decide) ?_ ?_
    List.length_replicate
  · intro i ret hi hlt hret
    have h240 : 240 ≤ i := hi
    have hidx : wrapSub 32 i (16 * 15) = i - 240 := by
      rw [wrapSub]
      omega
    refine ⟨ret.set (i - 240) block[i], ?_, by rw [List.length_set, hret]⟩
    rw [load_ok (by omega), ok_bind, hidx, store_ok (by omega)]
  · intro ret hret
    have hidx : 16 ≤ wrapSub 32 0 (16 * 15) := by decide
    rw [load_ok (by omega), ok_bind, store_error (hret.trans_le hidx)]

/-- The block that starts at byte 256: its loop index starts at 0. -/
theorem createState_sixteen (block : Bytes) :
    createState block (16 * 16) = .error .outOfBounds := by
  rw [createState]
  refine forUp_fault_first (by simp only [wrap, Nstate]; omega) ?_
  cases hb : load block (wrap 8 (16 * 16)) with
  | error e =>
    rw [load] at hb
    split at hb <;> cases hb
    rfl
  | ok x =>
    have hidx : 16 ≤ wrapSub 32 (wrap 8 (16 * 16)) (16 * 16) := by decide
    rw [ok_bind, store_error (List.length_replicate.trans_le hidx)]

/-- **Block splitting.** For the first seventeen blocks, and a vector of any length. -/
theorem createState_eq (block : Bytes) {j : ℕ} (hj : j ≤ 16) :
    createState block (16 * j) =
      if Fits block.length j then .ok (cut block j) else .error .outOfBounds := by
  by_cases h : Fits block.length j
  · rw [if_pos h, createState_fits h]
  · rw [if_neg h]
    have hle := copied_le_sixteen block.length j
    by_cases hstart : 16 * j ≤ block.length
    · rcases Nat.lt_or_eq_of_le hj with hlt | rfl
      · -- the only block left that fails is the full one at 240
        have h15 : j = 15 ∧ copied block.length j = 16 := by
          have : ¬16 * j + copied block.length j ≤ 255 := fun he => h ⟨hstart, he⟩
          omega
        obtain ⟨rfl, hfull⟩ := h15
        exact createState_wrap hstart hfull
      · exact createState_sixteen block
    · rcases Nat.lt_or_eq_of_le hj with hlt | rfl
      · exact createState_past_end (by omega) (by omega)
      · exact createState_sixteen block

/-- All of the first `n` blocks of a vector of `size` bytes can be cut out. -/
def Splits (size n : ℕ) : Prop := ∀ j < n, Fits size j

instance (size n : ℕ) : Decidable (Splits size n) := inferInstanceAs (Decidable (∀ j < n, _))

/-- There is never a seventeenth block. -/
theorem not_fits_sixteen (size : ℕ) : ¬Fits size 16 := fun h => by
  obtain ⟨-, h⟩ := h
  omega

theorem Splits.le {size n : ℕ} (h : Splits size n) : n ≤ 16 :=
  Nat.le_of_not_lt fun hn => not_fits_sixteen size (h 16 hn)

/-- Among the blocks that cannot be cut out, one is in the first seventeen. -/
theorem exists_not_fits {size n : ℕ} (h : ¬Splits size n) : ∃ j, j < n ∧ j ≤ 16 ∧ ¬Fits size j := by
  simp only [Splits, not_forall] at h
  obtain ⟨j, hj, hfit⟩ := h
  rcases Nat.lt_or_ge 16 j with hlt | hle
  · exact ⟨16, hlt.trans hj, Nat.le_refl _, not_fits_sixteen size⟩
  · exact ⟨j, hj, hle, hfit⟩

/-- Only the last block decides. -/
theorem splits_iff {size n : ℕ} : Splits size n ↔
    n ≤ 16 ∧ 16 * n ≤ size + 16 ∧ (n = 16 → (size - 240) % 256 < 16) := by
  refine ⟨?_, ?_⟩
  · intro h
    refine ⟨h.le, ?_, ?_⟩
    · cases n with
      | zero => exact Nat.zero_le _
      | succ m =>
        have hm := (h m (Nat.lt_succ_self m)).1
        omega
    · rintro rfl
      have h15 := (h 15 (by decide)).2
      simp only [copied] at h15
      omega
  · rintro ⟨hn, hsize, hfull⟩ j hj
    refine ⟨by omega, ?_⟩
    have hle := copied_le_sixteen size j
    rcases Nat.lt_or_ge j 15 with hlt | hge
    · omega
    · obtain ⟨rfl, rfl⟩ : j = 15 ∧ n = 16 := by omega
      have hrest := hfull rfl
      simp only [copied]
      omega

/-! ## The modes of operation -/

/-- The bytes of a vector as a block. -/
def toBlock (v : Bytes) : Block := fun i => v.getD i 0

@[simp] theorem toBlock_ofFn (s : Block) : toBlock (List.ofFn s) = s := by
  funext i
  rw [toBlock, List.getD_eq_getElem _ _ (by rw [List.length_ofFn]; exact i.isLt),
    List.getElem_ofFn]

theorem ofFn_toBlock {v : Bytes} (h : v.length = 16) : List.ofFn (toBlock v) = v := by
  obtain ⟨s, rfl⟩ := exists_block h
  rw [toBlock_ofFn]

/-- The bytes of a list of blocks. -/
def blockBytes (bs : List Block) : Bytes := bs.flatMap List.ofFn

/-- The bytes of a list of blocks, with the padding of each block removed. -/
def strip (bs : List Block) : Bytes := bs.flatMap fun b => unpad (List.ofFn b)

theorem blockBytes_singleton (b : Block) : blockBytes [b] = List.ofFn b := List.append_nil _

theorem strip_singleton (b : Block) : strip [b] = unpad (List.ofFn b) := List.append_nil _

/-- What a mode adds to a block before it is enciphered: nothing, or the
chaining value. -/
def mask : MODE → Block → Equiv.Perm Block
  | .ECB => fun _ => Equiv.refl Block
  | .CBC => xorPerm

/-- The chaining value a call starts from. -/
def ivBlock (aes : AES) : Block := toBlock aes.iv

/-- The first `n` blocks of a vector. -/
def cuts (block : Bytes) (n : ℕ) : List Block := (List.range n).map fun j => toBlock (cut block j)

@[simp] theorem length_cuts (block : Bytes) (n : ℕ) : (cuts block n).length = n := by simp [cuts]

theorem cuts_succ (block : Bytes) (n : ℕ) :
    cuts block (n + 1) = cuts block n ++ [toBlock (cut block n)] := by
  simp [cuts, List.range_succ]

/-- In ECB mode a block is masked by nothing. -/
theorem mask_ECB_apply (v p : Block) : mask .ECB v p = p := rfl

theorem mask_ECB_symm_apply (v p : Block) : (mask .ECB v).symm p = p := rfl

@[simp] theorem savePhiv_mode (aes : AES) (v : Bytes) : (savePhiv aes v).mode = aes.mode := by
  rw [savePhiv]
  split <;> rfl

@[simp] theorem savePhiv_nround (aes : AES) (v : Bytes) : (savePhiv aes v).nround = aes.nround := by
  rw [savePhiv]
  split <;> rfl

@[simp] theorem savePhiv_savePhiv (aes : AES) (v w : Bytes) :
    savePhiv (savePhiv aes v) w = savePhiv aes w := by
  by_cases h : aes.mode = .CBC <;> simp [savePhiv, h]

/-- A call starts from the initialization vector, in ECB mode too, where the
chaining value does not matter. -/
theorem savePhiv_iv (aes : AES) : savePhiv aes aes.iv = savePhiv aes (List.ofFn (ivBlock aes)) := by
  by_cases h : aes.mode = .CBC
  · rw [ivBlock, ofFn_toBlock (aes.iv_size h)]
  · rw [savePhiv, savePhiv, if_neg h, if_neg h]

theorem xorPhiv_eq (aes : AES) (v s : Block) :
    xorPhiv (savePhiv aes (List.ofFn v)) (List.ofFn s) = .ok (List.ofFn (mask aes.mode v s)) := by
  rw [xorPhiv, savePhiv_mode]
  cases hm : aes.mode with
  | ECB => rfl
  | CBC =>
    rw [if_pos rfl, savePhiv, if_pos hm, xorIv_eq]
    rfl

theorem mask_symm (mode : MODE) (v : Block) : (mask mode v).symm = mask mode v := by
  cases mode <;> rfl

section loops

variable {aes : AES} {source roundKey : Bytes}

/-- Where the block of iteration `i` starts. -/
theorem wrap_start {i : ℕ} (hi : i ≤ 16) : wrap 32 (i * Nstate) = 16 * i := by
  simp only [wrap, Nstate]
  omega

/-- The block that iteration `i` works on. -/
theorem createState_toBlock {i : ℕ} (hi : i ≤ 16) (hfit : Fits source.length i) :
    createState source (wrap 32 (i * Nstate)) = .ok (List.ofFn (toBlock (cut source i))) := by
  rw [wrap_start hi, createState_eq source hi, if_pos hfit, ofFn_toBlock (length_cut source i)]

/-- One iteration of `encryption`. -/
theorem encryptBlock_eq (hlen : roundKey.length = 16 * (aes.nround + 1)) {i : ℕ} (hi : i ≤ 16)
    (hfit : Fits source.length i) (v : Block) (out : Str) :
    encryptBlock source roundKey i (savePhiv aes (List.ofFn v), out) =
      let c := blockPerm aes.nround roundKey (mask aes.mode v (toBlock (cut source i)))
      .ok (savePhiv aes (List.ofFn c), out ++ hexStr (List.ofFn c)) := by
  have hround : roundKey.length = 16 * ((savePhiv aes (List.ofFn v)).nround + 1) := by
    rw [savePhiv_nround, hlen]
  have hcipher := encryptionState_eq hround (mask aes.mode v (toBlock (cut source i)))
  rw [savePhiv_nround] at hcipher
  rw [encryptBlock, createState_toBlock hi hfit, ok_bind, xorPhiv_eq, ok_bind, hcipher, ok_bind,
    convertTypeByteStateToStr_eq List.length_ofFn, savePhiv_savePhiv]
  rfl

/-- One iteration of `decryption`, up to the conversion of its state. -/
theorem decryptState_eq (hlen : roundKey.length = 16 * (aes.nround + 1)) {i : ℕ} (hi : i ≤ 16)
    (hfit : Fits source.length i) (v : Block) :
    decryptState source roundKey i (savePhiv aes (List.ofFn v)) =
      let c := toBlock (cut source i)
      let p := (mask aes.mode v).symm ((blockPerm aes.nround roundKey).symm c)
      .ok (savePhiv aes (List.ofFn c), List.ofFn p) := by
  have hround : roundKey.length = 16 * ((savePhiv aes (List.ofFn v)).nround + 1) := by
    rw [savePhiv_nround, hlen]
  have hcipher := decryptionState_eq hround (toBlock (cut source i))
  rw [savePhiv_nround] at hcipher
  rw [decryptState, createState_toBlock hi hfit, ok_bind, hcipher, ok_bind, xorPhiv_eq, ok_bind,
    savePhiv_savePhiv, mask_symm]
  rfl

/-- An iteration converts the state it has computed. -/
theorem decryptBlock_eq_decryptState (i : ℕ) (aes : AES) (plainText : Str) :
    decryptBlock source roundKey i (aes, plainText) = (do
      let (aes, state) ← decryptState source roundKey i aes
      return (aes, plainText ++ (← convertTypeByteStateToStr state true))) := by
  simp only [decryptBlock, decryptState, bind_assoc, pure_bind]

/-- One iteration of `decryption`. -/
theorem decryptBlock_eq (hlen : roundKey.length = 16 * (aes.nround + 1)) {i : ℕ} (hi : i ≤ 16)
    (hfit : Fits source.length i) (v : Block) (out : Str) :
    decryptBlock source roundKey i (savePhiv aes (List.ofFn v), out) =
      let c := toBlock (cut source i)
      let p := (mask aes.mode v).symm ((blockPerm aes.nround roundKey).symm c)
      .ok (savePhiv aes (List.ofFn c), out ++ hexStr (unpad (List.ofFn p))) := by
  rw [decryptBlock_eq_decryptState, decryptState_eq hlen hi hfit, ok_bind]
  dsimp only
  rw [convertTypeByteStateToStr_eq List.length_ofFn]
  rfl

/-- An iteration whose block cannot be cut out ends the call. -/
theorem createState_not_fits {i : ℕ} (hi : i ≤ 16) (hfit : ¬Fits source.length i) :
    createState source (wrap 32 (i * Nstate)) = .error .outOfBounds := by
  rw [wrap_start hi, createState_eq source hi, if_neg hfit]

/-- A loop over the blocks of a vector, one of which cannot be cut out. -/
theorem blockLoop_error {σ : Type} {body : ℕ → AES × σ → Exec (AES × σ)} {n : ℕ} (hn : n < 2 ^ 32)
    (hok : ∀ i (v : Block) out, i ≤ 16 → Fits source.length i → ∃ (v' : Block) (out' : σ),
      body i (savePhiv aes (List.ofFn v), out) = .ok (savePhiv aes (List.ofFn v'), out'))
    (hbad : ∀ i st, i ≤ 16 → ¬Fits source.length i → body i st = .error .outOfBounds)
    (h : ¬Splits source.length n) (v : Block) (out : σ) :
    forUp 32 0 n (savePhiv aes (List.ofFn v), out) body = .error .outOfBounds := by
  obtain ⟨j, hj, hj16, hfit⟩ := exists_not_fits h
  refine forUp_error (fun st => ∃ (v : Block) (out : σ), st = (savePhiv aes (List.ofFn v), out))
    (Nat.zero_le j) hj hn ?_ (fun st _ => hbad j st hj16 hfit) ⟨v, out, rfl⟩
  rintro i _ - hi ⟨v, out, rfl⟩
  by_cases hfit : Fits source.length i
  · obtain ⟨v', out', h'⟩ := hok i v out (by omega) hfit
    exact Or.inl ⟨_, h', v', out', rfl⟩
  · exact Or.inr (hbad i _ (by omega) hfit)

/-- **The loop of `encryption`.** It enciphers the blocks of the vector in the
object's mode, or accesses a vector out of bounds. -/
theorem encryptLoop_eq (hlen : roundKey.length = 16 * (aes.nround + 1)) {n : ℕ} (hn : n < 2 ^ 32)
    (v : Block) :
    forUp 32 0 n (savePhiv aes (List.ofFn v), []) (encryptBlock source roundKey) =
      let cs := encryptFrom (blockPerm aes.nround roundKey) (mask aes.mode) v (cuts source n)
      if Splits source.length n then
        .ok (savePhiv aes (List.ofFn (chainValue v cs)), hexStr (blockBytes cs))
      else .error .outOfBounds := by
  by_cases h : Splits source.length n
  · simp only [if_pos h]
    let cs : ℕ → List Block := fun k =>
      encryptFrom (blockPerm aes.nround roundKey) (mask aes.mode) v (cuts source k)
    refine forUp_eq (fun k => (savePhiv aes (List.ofFn (chainValue v (cs k))),
      hexStr (blockBytes (cs k)))) (Nat.zero_le n) hn ?_
    intro i _ hi
    have hle := h.le
    rw [encryptBlock_eq hlen (by omega) (h i hi)]
    simp only [cs, cuts_succ, encryptFrom_concat, chainValue, List.getLastD_concat, blockBytes,
      List.flatMap_append, List.flatMap_singleton, hexStr_append]
  · simp only [if_neg h]
    refine blockLoop_error hn (fun i v out hi hfit => ⟨_, _, encryptBlock_eq hlen hi hfit v out⟩)
      ?_ h v []
    rintro i ⟨a, out⟩ hi hfit
    rw [encryptBlock, createState_not_fits hi hfit, error_bind]

/-- A loop that deciphers the blocks of a vector in the object's mode and hands
each of them to `emit`. -/
theorem decipherLoop_eq {σ : Type} {body : ℕ → AES × σ → Exec (AES × σ)} (emit : σ → Block → σ)
    {n : ℕ} (hn : n < 2 ^ 32)
    (hok : ∀ i (v : Block) out, i ≤ 16 → Fits source.length i →
      body i (savePhiv aes (List.ofFn v), out) =
        let c := toBlock (cut source i)
        let p := (mask aes.mode v).symm ((blockPerm aes.nround roundKey).symm c)
        .ok (savePhiv aes (List.ofFn c), emit out p))
    (hbad : ∀ i st, i ≤ 16 → ¬Fits source.length i → body i st = .error .outOfBounds)
    (v : Block) (out : σ) :
    forUp 32 0 n (savePhiv aes (List.ofFn v), out) body =
      let cs := cuts source n
      if Splits source.length n then
        .ok (savePhiv aes (List.ofFn (chainValue v cs)),
          (decryptFrom (blockPerm aes.nround roundKey) (mask aes.mode) v cs).foldl emit out)
      else .error .outOfBounds := by
  by_cases h : Splits source.length n
  · simp only [if_pos h]
    refine forUp_eq (fun k => (savePhiv aes (List.ofFn (chainValue v (cuts source k))),
      (decryptFrom (blockPerm aes.nround roundKey) (mask aes.mode) v
        (cuts source k)).foldl emit out)) (Nat.zero_le n) hn ?_
    intro i _ hi
    have hle := h.le
    rw [hok i _ _ (by omega) (h i hi)]
    simp only [cuts_succ, decryptFrom_concat, chainValue, List.getLastD_concat,
      List.foldl_append, List.foldl_cons, List.foldl_nil]
  · simp only [if_neg h]
    exact blockLoop_error hn (fun i v out hi hfit => ⟨_, _, hok i v out hi hfit⟩) hbad h v out

/-- **The loop of `decryption`.** It deciphers the blocks of the vector in the
object's mode and strips each of them, or accesses a vector out of bounds. -/
theorem decryptLoop_eq (hlen : roundKey.length = 16 * (aes.nround + 1)) {n : ℕ} (hn : n < 2 ^ 32)
    (v : Block) :
    forUp 32 0 n (savePhiv aes (List.ofFn v), []) (decryptBlock source roundKey) =
      let cs := cuts source n
      if Splits source.length n then
        .ok (savePhiv aes (List.ofFn (chainValue v cs)),
          hexStr (strip (decryptFrom (blockPerm aes.nround roundKey) (mask aes.mode) v cs)))
      else .error .outOfBounds := by
  have hstrip : ∀ bs : List Block,
      bs.foldl (fun out p => out ++ hexStr (unpad (List.ofFn p))) [] = hexStr (strip bs) := by
    intro bs
    rw [← List.flatMap_eq_foldl, hexStr, strip, List.flatMap_assoc]
    rfl
  simp only [← hstrip]
  refine decipherLoop_eq _ hn (fun i v out hi hfit => decryptBlock_eq hlen hi hfit v out) ?_ v []
  rintro i ⟨a, out⟩ hi hfit
  rw [decryptBlock, createState_not_fits hi hfit, error_bind]

end loops

/-! ## The public calls -/

/-- A cipher key that passes the length assertion and consists of hex digits. -/
structure ValidKey (aes : AES) (cipherKey : Str) : Prop where
  /-- the assertion of `encryption` and `decryption` -/
  size : cipherKey.length = aes.nkey * 4 * 2
  /-- every character is a hex digit -/
  hex : IsHex cipherKey

/-- The block cipher under a cipher key given in hex. -/
def cipher (aes : AES) (cipherKey : Str) : Equiv.Perm Block :=
  blockPerm aes.nround (scheduleBytes aes (unhex cipherKey))

/-- What the calls decode of their input: its first `length mod 2 ^ 32` characters. -/
def decoded (input : Str) : Bytes := decodeHex (input.take (wrap 32 input.length))

/-- The number of blocks `encryption` enciphers. -/
def encryptCount (input : Str) : ℕ := wrap 32 ((input.length + 31) / 32)

/-- The number of blocks `decryption` deciphers. -/
def decryptCount (input : Str) : ℕ := wrap 32 (input.length / 32)

theorem encryptCount_eq (input : Str) :
    (if input.length % (Nstate * 2) ≠ 0 then wrap 32 (wrap 32 (input.length / (Nstate * 2)) + 1)
      else wrap 32 (input.length / (Nstate * 2))) = encryptCount input := by
  simp only [encryptCount, wrap, Nstate]
  split <;> omega

section calls

variable {aes : AES} {cipherKey : Str}

/-- A key of the asserted length is short enough to be decoded whole. -/
theorem convertKey_eq (hsize : cipherKey.length = aes.nkey * 4 * 2) :
    convertTypeStrToByteBlock cipherKey = .ok (decodeHex cipherKey) := by
  apply convertTypeStrToByteBlock_of_lt
  rcases aes.nkey_mem with h | h | h <;> rw [hsize, h] <;> decide

theorem expandKey_valid (hkey : ValidKey aes cipherKey) :
    expandKey aes (unhex cipherKey) = .ok (scheduleBytes aes (unhex cipherKey)) ∧
      (scheduleBytes aes (unhex cipherKey)).length = 16 * (aes.nround + 1) := by
  apply expandKey_schedule
  rw [length_unhex, hkey.size]
  omega

/-- The cipher of a key is what the code expands and runs. -/
theorem cipher_code (hkey : ValidKey aes cipherKey) (s : Block) :
    (do
      let key ← convertTypeStrToByteBlock cipherKey
      let roundKey ← expandKey aes key
      encryptionState aes (List.ofFn s) roundKey) = .ok (List.ofFn (aes.cipher cipherKey s)) := by
  obtain ⟨hexpand, hlen⟩ := expandKey_valid hkey
  rw [convertKey_eq hkey.size, ok_bind, decodeHex_of_isHex hkey.hex, hexpand, ok_bind]
  exact encryptionState_eq hlen s

/-- **`encryption`**, for any input: the blocks of what was decoded, enciphered
in the object's mode. -/
theorem encryption_eq (hkey : ValidKey aes cipherKey) (input : Str) :
    aes.encryption input cipherKey =
      let cs := encryptFrom (aes.cipher cipherKey) (mask aes.mode) (ivBlock aes)
        (cuts (decoded input) (encryptCount input))
      if Splits (decoded input).length (encryptCount input) then
        .ok (savePhiv aes (List.ofFn (chainValue (ivBlock aes) cs)), hexStr (blockBytes cs))
      else .error .outOfBounds := by
  obtain ⟨hexpand, hlen⟩ := expandKey_valid hkey
  have hcount : encryptCount input < 2 ^ 32 := Nat.mod_lt _ (by decide)
  simp only [encryption, assert_ok hkey.size, ok_bind, encryptCount_eq,
    convertTypeStrToByteBlock_eq input, convertKey_eq hkey.size, decodeHex_of_isHex hkey.hex,
    hexpand, savePhiv_iv]
  exact encryptLoop_eq hlen hcount (ivBlock aes)

/-- **`decryption`**, for any input: the blocks of what was decoded, deciphered
in the object's mode and stripped. -/
theorem decryption_eq (hkey : ValidKey aes cipherKey) (input : Str) :
    aes.decryption input cipherKey =
      let cs := cuts (decoded input) (decryptCount input)
      if Splits (decoded input).length (decryptCount input) then
        .ok (savePhiv aes (List.ofFn (chainValue (ivBlock aes) cs)),
          hexStr (strip (decryptFrom (aes.cipher cipherKey) (mask aes.mode) (ivBlock aes) cs)))
      else .error .outOfBounds := by
  obtain ⟨hexpand, hlen⟩ := expandKey_valid hkey
  have hcount : decryptCount input < 2 ^ 32 := Nat.mod_lt _ (by decide)
  simp only [decryption, assert_ok hkey.size, ok_bind, convertTypeStrToByteBlock_eq input,
    convertKey_eq hkey.size, decodeHex_of_isHex hkey.hex, hexpand, savePhiv_iv]
  exact decryptLoop_eq hlen hcount (ivBlock aes)

/-- What a call of `encryption` that returns has done. -/
theorem encryption_ok (hkey : ValidKey aes cipherKey) {input out : Str} {aes' : AES}
    (h : aes.encryption input cipherKey = .ok (aes', out)) :
    Splits (decoded input).length (encryptCount input) ∧
      out = hexStr (blockBytes (encryptFrom (aes.cipher cipherKey) (mask aes.mode) (ivBlock aes)
        (cuts (decoded input) (encryptCount input)))) := by
  rw [encryption_eq hkey] at h
  obtain ⟨hsplit, heq⟩ := ite_eq_ok h
  obtain ⟨-, rfl⟩ := Prod.mk.inj heq
  exact ⟨hsplit, rfl⟩

/-- What a call of `decryption` that returns has done. -/
theorem decryption_ok (hkey : ValidKey aes cipherKey) {input out : Str} {aes' : AES}
    (h : aes.decryption input cipherKey = .ok (aes', out)) :
    Splits (decoded input).length (decryptCount input) ∧
      out = hexStr (strip (decryptFrom (aes.cipher cipherKey) (mask aes.mode) (ivBlock aes)
        (cuts (decoded input) (decryptCount input)))) := by
  rw [decryption_eq hkey] at h
  obtain ⟨hsplit, heq⟩ := ite_eq_ok h
  obtain ⟨-, rfl⟩ := Prod.mk.inj heq
  exact ⟨hsplit, rfl⟩

/-- Whatever splits is enciphered. -/
theorem encryption_returns (hkey : ValidKey aes cipherKey) (input : Str)
    (h : Splits (decoded input).length (encryptCount input)) :
    ∃ aes' out, aes.encryption input cipherKey = .ok (aes', out) := by
  have heq := encryption_eq hkey input
  simp only [if_pos h] at heq
  exact ⟨_, _, heq⟩

/-- Whatever splits is deciphered. -/
theorem decryption_returns (hkey : ValidKey aes cipherKey) (input : Str)
    (h : Splits (decoded input).length (decryptCount input)) :
    ∃ aes' out, aes.decryption input cipherKey = .ok (aes', out) := by
  have heq := decryption_eq hkey input
  simp only [if_pos h] at heq
  exact ⟨_, _, heq⟩

/-- A key with a bad digit decodes to nothing, and key expansion reads it. -/
theorem encryption_bad_key (hsize : cipherKey.length = aes.nkey * 4 * 2) (hbad : ¬IsHex cipherKey)
    (input : Str) : aes.encryption input cipherKey = .error .outOfBounds := by
  simp only [encryption, assert_ok hsize, ok_bind, convertTypeStrToByteBlock_eq input,
    convertKey_eq hsize, decodeHex_of_not hbad, expandKey_nil, error_bind]

theorem decryption_bad_key (hsize : cipherKey.length = aes.nkey * 4 * 2) (hbad : ¬IsHex cipherKey)
    (input : Str) : aes.decryption input cipherKey = .error .outOfBounds := by
  simp only [decryption, assert_ok hsize, ok_bind, convertTypeStrToByteBlock_eq input,
    convertKey_eq hsize, decodeHex_of_not hbad, expandKey_nil, error_bind]

/-- Only a valid key lets a call return. -/
theorem validKey_of_encryption {input : Str} {r : AES × Str}
    (h : aes.encryption input cipherKey = .ok r) : ValidKey aes cipherKey := by
  have hsize : cipherKey.length = aes.nkey * 4 * 2 := assert_of_ok h
  refine ⟨hsize, ?_⟩
  by_contra hbad
  rw [encryption_bad_key hsize hbad] at h
  cases h

theorem validKey_of_decryption {input : Str} {r : AES × Str}
    (h : aes.decryption input cipherKey = .ok r) : ValidKey aes cipherKey := by
  have hsize : cipherKey.length = aes.nkey * 4 * 2 := assert_of_ok h
  refine ⟨hsize, ?_⟩
  by_contra hbad
  rw [decryption_bad_key hsize hbad] at h
  cases h

end calls

end AES

end SimpleVpn
