import SimpleVpn.AesMalformed

/-!
# The VPN header

The class `ns3::VpnHeader`: a pair of strings, the origin and its encryption,
that travels in front of a packet as 32 bytes each. What a receiver can say
about a header is whether decrypting the second field gives the first.

The encrypted field comes from the network and need not be hex. `fieldBlock` is
the block it is deciphered as: its bytes, or a block of padding if it has a bad
digit, since the hex decoder then returns an empty vector.
-/

namespace SimpleVpn

open Exec Padding BlockCipher AES

/-- An object of class `VpnHeader`. -/
structure VpnHeader : Type where
  /-- `m_sentOrigin` -/
  sentOrigin : Str := []
  /-- `m_encrypted` -/
  encrypted : Str := []
  deriving DecidableEq

namespace VpnHeader

/-! ## The code -/

/-- `EncryptInput`: the header afterwards, and the string returned. -/
def encryptInput (_ : VpnHeader) (input cipherKey : Str) : Exec (VpnHeader × Str) := do
  let (_, encrypted) ← aes128.encryption input cipherKey
  return ({ sentOrigin := input, encrypted := encrypted }, encrypted)

/-- `DecryptInput`. -/
def decryptInput (header : VpnHeader) (cipherKey : Str) : Exec Str := do
  let (_, decrypted) ← aes128.decryption header.encrypted cipherKey
  return decrypted

/-- One of the loops of `Serialize`: 32 bytes of `s.c_str()`, which may be read
up to its terminating null. -/
def writeField (s : Str) : Exec Bytes :=
  forUp 32 0 32 [] fun i out => do return out ++ [← load (s ++ [0]) i]

/-- `Serialize`: the bytes written. -/
def serialize (header : VpnHeader) : Exec Bytes := do
  let origin ← writeField header.sentOrigin
  let encrypted ← writeField header.encrypted
  return origin ++ encrypted

/-- `GetSerializedSize`. -/
def getSerializedSize (_ : VpnHeader) : ℕ := 64

/-- One of the loops of `Deserialize`, on a buffer read from `start` on. -/
def readField (buffer : Bytes) (start : ℕ) : Exec Str :=
  forUp 32 0 32 [] fun j ss => do return ss ++ [← load buffer (start + j)]

/-- `Deserialize`: the header read, and the size returned. -/
def deserialize (buffer : Bytes) : Exec (VpnHeader × ℕ) := do
  let sentOrigin ← readField buffer 0
  let encrypted ← readField buffer 32
  return ({ sentOrigin := sentOrigin, encrypted := encrypted }, 64)

/-! ## The wire format -/

theorem writeField_eq {s : Str} (h : s.length = 32) : writeField s = .ok s := by
  refine forUp_collect s h (by decide) fun k u x hx => ?_
  obtain ⟨hk, -⟩ := List.getElem?_eq_some_iff.mp hx
  have hload : (s ++ [0])[k]? = some x := by rw [List.getElem?_append_left hk, hx]
  rw [load_eq_of_getElem? hload]
  rfl

theorem readField_eq {buffer : Bytes} {start : ℕ} (h : start + 32 ≤ buffer.length) :
    readField buffer start = .ok ((buffer.drop start).take 32) := by
  have hlen : ((buffer.drop start).take 32).length = 32 := by
    rw [List.length_take, List.length_drop]
    omega
  refine forUp_collect _ hlen (by decide) fun k u x hx => ?_
  obtain ⟨hk, -⟩ := List.getElem?_eq_some_iff.mp hx
  rw [List.getElem?_take_of_lt (hlen ▸ hk), List.getElem?_drop] at hx
  rw [load_eq_of_getElem? hx]
  rfl

/-- A buffer that ends too early is read out of bounds. -/
theorem readField_short {buffer : Bytes} {start : ℕ} (h : buffer.length < start + 32) :
    readField buffer start = .error .outOfBounds := by
  refine forUp_error (fun _ => True) (Nat.zero_le (buffer.length - start)) (by omega) (by decide)
    ?_ ?_ trivial
  · intro i ss _ hi _
    refine Or.inl ⟨ss ++ [buffer[start + i]], ?_, trivial⟩
    rw [load_ok (by omega), ok_bind, pure_eq_ok]
  · intro ss _
    rw [load_error (by omega), error_bind]

/-- Headers as they travel: both fields of 32 bytes. -/
structure WellFormed (header : VpnHeader) : Prop where
  /-- the size of the first field -/
  origin : header.sentOrigin.length = 32
  /-- the size of the second field -/
  encrypted : header.encrypted.length = 32

/-- A well-formed header is written as its two fields. -/
theorem serialize_eq {header : VpnHeader} (h : header.WellFormed) :
    header.serialize = .ok (header.sentOrigin ++ header.encrypted) := by
  rw [serialize, writeField_eq h.origin, ok_bind, writeField_eq h.encrypted]
  rfl

/-- The header in the first 64 bytes of a buffer. -/
def ofBytes (buffer : Bytes) : VpnHeader where
  sentOrigin := buffer.take 32
  encrypted := (buffer.drop 32).take 32

theorem deserialize_eq {buffer : Bytes} (h : 64 ≤ buffer.length) :
    deserialize buffer = .ok (ofBytes buffer, 64) := by
  rw [deserialize, readField_eq (by omega), ok_bind, readField_eq h]
  rfl

/-- A buffer without a whole header is read out of bounds. -/
theorem deserialize_short {buffer : Bytes} (h : buffer.length < 64) :
    deserialize buffer = .error .outOfBounds := by
  rcases Nat.lt_or_ge buffer.length 32 with hlt | hge
  · rw [deserialize, readField_short (by omega), error_bind]
  · rw [deserialize, readField_eq (by omega), ok_bind, readField_short h, error_bind]

/-- A buffer that has been read holds a whole header. -/
theorem le_of_deserialize {buffer : Bytes} {r : VpnHeader × ℕ} (h : deserialize buffer = .ok r) :
    64 ≤ buffer.length := by
  by_contra hshort
  rw [deserialize_short (Nat.lt_of_not_le hshort)] at h
  cases h

theorem wellFormed_ofBytes {buffer : Bytes} (h : 64 ≤ buffer.length) :
    (ofBytes buffer).WellFormed where
  origin := List.length_take_of_le (by omega)
  encrypted := by
    rw [ofBytes, List.length_take, List.length_drop]
    omega

/-- What follows a header does not matter to it. -/
theorem ofBytes_append {buffer : Bytes} (h : 64 ≤ buffer.length) (rest : Bytes) :
    ofBytes (buffer ++ rest) = ofBytes buffer := by
  have hdrop : 32 ≤ (buffer.drop 32).length := by
    rw [List.length_drop]
    omega
  rw [ofBytes, ofBytes, List.take_append_of_le_length (by omega),
    List.drop_append_of_le_length (by omega), List.take_append_of_le_length hdrop]

/-- A well-formed header is read back from its bytes. -/
theorem ofBytes_fields {header : VpnHeader} (h : header.WellFormed) :
    ofBytes (header.sentOrigin ++ header.encrypted) = header := by
  rw [ofBytes, List.take_left' h.origin, List.drop_left' h.origin, ← h.encrypted, List.take_length]

/-- The fields of 64 bytes are these bytes. -/
theorem fields_ofBytes {buffer : Bytes} (h : buffer.length = 64) :
    (ofBytes buffer).sentOrigin ++ (ofBytes buffer).encrypted = buffer := by
  have hrest : (buffer.drop 32).take 32 = buffer.drop 32 :=
    List.take_of_length_le (by rw [List.length_drop]; omega)
  rw [ofBytes, hrest, List.take_append_drop]

/-! ## The check -/

/-- The block a field of 32 characters is deciphered or enciphered as. -/
def fieldBlock (s : Str) : Block := if IsHex s then toBlock (unhex s) else fullPad

theorem toBlock_cut_decoded {s : Str} (h : s.length = 32) :
    toBlock (cut (decoded s) 0) = fieldBlock s := by
  have hlt : s.length < 2 ^ 32 := by omega
  by_cases hhex : IsHex s
  · have hlen : (unhex s).length = 16 := by rw [length_unhex, h]
    have hwin : window 16 (unhex s) 0 = unhex s := List.take_of_length_le (Nat.le_of_eq hlen)
    rw [fieldBlock, if_pos hhex, decoded_of_lt hhex hlt, cut_eq_pad_window (by omega), hwin,
      pad_of_length_eq hlen]
  · rw [fieldBlock, if_neg hhex, decoded, wrap_of_lt hlt, List.take_length, decodeHex_of_not hhex]
    decide

/-- A field is always one block, and it can always be cut out. -/
theorem splits_one (size : ℕ) : Splits size 1 := by
  rw [splits_iff]
  omega

theorem cuts_field {s : Str} (h : s.length = 32) : cuts (decoded s) 1 = [fieldBlock s] := by
  rw [← toBlock_cut_decoded h]
  rfl

variable {cipherKey : Str}

/-- Encrypting a field: its block, enciphered. -/
theorem encryptInput_eq (hkey : ValidKey aes128 cipherKey) (header : VpnHeader) {s : Str}
    (h : s.length = 32) : header.encryptInput s cipherKey =
      let c := hexStr (List.ofFn (aes128.cipher cipherKey (fieldBlock s)))
      .ok (⟨s, c⟩, c) := by
  have hcount : encryptCount s = 1 := by rw [encryptCount, h]; rfl
  have hmode : aes128.mode = .ECB := rfl
  have hrun := encryption_eq hkey s
  rw [hcount, cuts_field h, if_pos (splits_one _), encryptFrom_singleton, blockBytes_singleton,
    hmode, mask_ECB_apply] at hrun
  rw [encryptInput, hrun, ok_bind]
  rfl

/-- Decrypting a field: its block, deciphered and stripped. -/
theorem decryptInput_eq (hkey : ValidKey aes128 cipherKey) {header : VpnHeader}
    (h : header.encrypted.length = 32) : header.decryptInput cipherKey =
      .ok (hexStr (unpad (List.ofFn
        ((aes128.cipher cipherKey).symm (fieldBlock header.encrypted))))) := by
  have hcount : decryptCount header.encrypted = 1 := by rw [decryptCount, h]; rfl
  have hmode : aes128.mode = .ECB := rfl
  have hrun := decryption_eq hkey header.encrypted
  rw [hcount, cuts_field h, if_pos (splits_one _), decryptFrom_singleton, strip_singleton, hmode,
    mask_ECB_symm_apply] at hrun
  rw [decryptInput, hrun, ok_bind]
  rfl

/-- The receiver's check on a header. -/
def Accepts (header : VpnHeader) (cipherKey : Str) : Prop :=
  header.decryptInput cipherKey = .ok header.sentOrigin

theorem accepts_iff (hkey : ValidKey aes128 cipherKey) {header : VpnHeader}
    (h : header.encrypted.length = 32) : header.Accepts cipherKey ↔
      header.sentOrigin = hexStr (unpad (List.ofFn
        ((aes128.cipher cipherKey).symm (fieldBlock header.encrypted)))) := by
  rw [Accepts, decryptInput_eq hkey h, Except.ok.injEq]
  exact eq_comm

/-- Which 32 characters encode a block that has been stripped: nothing was
stripped, for fewer characters would be left. -/
theorem eq_hexStr_unpad_iff {s : Str} (h : s.length = 32) (q : Block) :
    s = hexStr (unpad (List.ofFn q)) ↔
      (∀ c ∈ s, IsUpperHexDigit c) ∧ (∀ k, ¬PadSuffix (unhex s) k) ∧ toBlock (unhex s) = q := by
  refine ⟨?_, ?_⟩
  · intro hs
    have hfull : unpad (List.ofFn q) = List.ofFn q := by
      refine (unpad_isPrefixOf _).eq_of_length ?_
      have hlen := congrArg List.length hs
      rw [h, length_hexStr] at hlen
      rw [List.length_ofFn]
      omega
    have hbytes : unhex s = List.ofFn q := by rw [hs, unhex_hexStr, hfull]
    refine ⟨hs ▸ isUpperHexDigit_hexStr _, ?_, by rw [hbytes, toBlock_ofFn]⟩
    rw [hbytes]
    exact (unpad_eq_self_iff (by rw [List.length_ofFn]; decide)).mp hfull
  · rintro ⟨hupper, hunpadded, rfl⟩
    have hsize : (unhex s).length = 16 := by rw [length_unhex, h]
    rw [ofFn_toBlock hsize, unpad_of_forall_not hunpadded,
      hexStr_unhex_upper hupper (by rw [h])]

theorem fieldBlock_hexStr (b : Block) : fieldBlock (hexStr (List.ofFn b)) = b := by
  rw [fieldBlock, if_pos (isHex_hexStr _), unhex_hexStr, toBlock_ofFn]

/-- The same check, from the origin to the encrypted field. -/
theorem accepts_iff_cipher (hkey : ValidKey aes128 cipherKey) {header : VpnHeader}
    (h : header.WellFormed) : header.Accepts cipherKey ↔
      (∀ c ∈ header.sentOrigin, IsUpperHexDigit c) ∧
      (∀ k, ¬PadSuffix (unhex header.sentOrigin) k) ∧
      aes128.cipher cipherKey (toBlock (unhex header.sentOrigin)) =
        fieldBlock header.encrypted := by
  rw [accepts_iff hkey h.encrypted, eq_hexStr_unpad_iff h.origin, Equiv.eq_symm_apply]

/-- What acceptance should mean: the encrypted field is hex, and up to letter
case it is what the sender of the origin would have put there. -/
def Genuine (header : VpnHeader) (cipherKey : Str) : Prop :=
  IsHex header.encrypted ∧ header.encrypted.length = 32 ∧
    ∃ header' encrypted, encryptInput {} header.sentOrigin cipherKey = .ok (header', encrypted) ∧
      upper header.encrypted = upper encrypted

/-- A header that passes with a good encrypted field is genuine. -/
theorem genuine_of_accepts (hkey : ValidKey aes128 cipherKey) {header : VpnHeader}
    (h : header.WellFormed) (hhex : IsHex header.encrypted) (hacc : header.Accepts cipherKey) :
    header.Genuine cipherKey := by
  obtain ⟨hupper, -, hcipher⟩ := (accepts_iff_cipher hkey h).mp hacc
  have horigin : fieldBlock header.sentOrigin = toBlock (unhex header.sentOrigin) :=
    if_pos fun c hc => (hupper c hc).isHexDigit
  have hlen : (unhex header.encrypted).length = 16 := by rw [length_unhex, h.encrypted]
  have hback : List.ofFn (fieldBlock header.encrypted) = unhex header.encrypted := by
    rw [fieldBlock, if_pos hhex, ofFn_toBlock hlen]
  refine ⟨hhex, h.encrypted, _, _, encryptInput_eq hkey {} h.origin, ?_⟩
  rw [horigin, hcipher, hback, hexStr_unhex hhex (by rw [h.encrypted]), upper_upper]

/-- What an origin is like for which a field of bad digits passes: since such a
field is taken for a block of padding, the key must encipher the origin to one. -/
structure EnciphersToPadding (cipherKey origin : Str) : Prop where
  /-- the origin is upper-case hex -/
  isUpper : ∀ c ∈ origin, IsUpperHexDigit c
  /-- of bytes that do not end like padding -/
  unpadded : ∀ k, ¬PadSuffix (unhex origin) k
  /-- and that the key enciphers to sixteen bytes 0x10 -/
  cipher : aes128.cipher cipherKey (toBlock (unhex origin)) = fullPad

/-- With a bad digit in its encrypted field, a header passes for such an origin. -/
theorem accepts_iff_of_not_isHex (hkey : ValidKey aes128 cipherKey) {header : VpnHeader}
    (h : header.WellFormed) (hbad : ¬IsHex header.encrypted) :
    header.Accepts cipherKey ↔ EnciphersToPadding cipherKey header.sentOrigin := by
  rw [accepts_iff_cipher hkey h, fieldBlock, if_neg hbad]
  exact ⟨fun ⟨hupper, hunpadded, hcipher⟩ => ⟨hupper, hunpadded, hcipher⟩,
    fun ⟨hupper, hunpadded, hcipher⟩ => ⟨hupper, hunpadded, hcipher⟩⟩

/-- **Where the check is sound.** For 64 bytes from the network, acceptance means
a genuine encryption exactly when the encrypted field is hex or the key does not
encipher the origin to a block of padding. -/
theorem accepts_sound_iff (hkey : ValidKey aes128 cipherKey) {buffer : Bytes}
    (hlen : buffer.length = 64) {header : VpnHeader} {size : ℕ}
    (hread : deserialize buffer = .ok (header, size)) :
    (header.Accepts cipherKey → header.Genuine cipherKey) ↔
      IsHex header.encrypted ∨ ¬EnciphersToPadding cipherKey header.sentOrigin := by
  rw [deserialize_eq (Nat.le_of_eq hlen.symm)] at hread
  have hwf := wellFormed_ofBytes (Nat.le_of_eq hlen.symm)
  rw [(Prod.mk.inj (Except.ok.inj hread)).1] at hwf
  by_cases hhex : IsHex header.encrypted
  · exact iff_of_true (genuine_of_accepts hkey hwf hhex) (Or.inl hhex)
  · have hacc := accepts_iff_of_not_isHex hkey hwf hhex
    refine ⟨fun hsound => Or.inr fun horigin => ?_, ?_⟩
    · exact hhex (hsound (hacc.mpr horigin)).1
    · rintro (h | horigin) haccepts
      · exact absurd h hhex
      · exact absurd (hacc.mp haccepts) horigin

/-- A block under the zero key, from a run of the code. -/
theorem cipher_zeroKey {p q : Block} (hrun : (do
    let roundKey ← expandKey aes128 (List.replicate 16 0)
    encryptionState aes128 (List.ofFn p) roundKey) = .ok (List.ofFn q)) :
    aes128.cipher zeroKey p = q := by
  have hkey : convertTypeStrToByteBlock zeroKey = .ok (List.replicate 16 0) := by
    rw [convertKey_eq validKey_zeroKey.size]
    decide
  have hcode := cipher_code validKey_zeroKey p
  rw [hkey, ok_bind, hrun] at hcode
  exact (List.ofFn_injective (Except.ok.inj hcode)).symm

/-- A header that is accepted, and is genuine: a block of zeros under the zero key. -/
theorem accepts_sound_iff_zeros :
    let header : VpnHeader :=
      { sentOrigin := zeroKey, encrypted := str "66E94BD4EF8A2C3B884CFA59CA342B2E" }
    deserialize (header.sentOrigin ++ header.encrypted) = .ok (header, 64) ∧
      header.Accepts zeroKey ∧ header.Genuine zeroKey := by
  intro header
  have hread : deserialize (header.sentOrigin ++ header.encrypted) = .ok (header, 64) := by decide
  have hwf : header.WellFormed := ⟨by decide, by decide⟩
  have hcipher : aes128.cipher zeroKey (toBlock (unhex header.sentOrigin)) =
      fieldBlock header.encrypted := cipher_zeroKey (by decide +kernel)
  have hacc : header.Accepts zeroKey := by
    refine (accepts_iff_cipher validKey_zeroKey hwf).mpr ⟨?_, ?_, hcipher⟩
    · exact List.forall_mem_replicate.mpr (Or.inr (by decide))
    · exact (unpad_eq_self_iff (by decide)).mp (by decide)
  exact ⟨hread, hacc,
    (accepts_sound_iff validKey_zeroKey (by decide) hread).mpr (Or.inl (by decide)) hacc⟩

/-- The block that the zero key enciphers to a block of padding. -/
def paddingPreimage : Block :=
  ![0x2f, 0x56, 0xe1, 0xb2, 0xdf, 0xfb, 0x4c, 0xa4, 0xc4, 0xa0, 0x33, 0xf9, 0x0d, 0xda, 0xfe, 0xbd]

theorem cipher_paddingPreimage : aes128.cipher zeroKey paddingPreimage = fullPad :=
  cipher_zeroKey (by decide +kernel)

/-- An encrypted field of 32 letters `G` passes the check with a suitable origin. -/
theorem accepts_bad_digits :
    let header : VpnHeader :=
      { sentOrigin := str "2F56E1B2DFFB4CA4C4A033F90DDAFEBD"
        encrypted := List.replicate 32 'G'.toUInt8 }
    deserialize (header.sentOrigin ++ header.encrypted) = .ok (header, 64) ∧
      header.Accepts zeroKey ∧ ¬header.Genuine zeroKey := by
  intro header
  have hwf : header.WellFormed := ⟨by decide, by decide⟩
  have hbad : ¬IsHex header.encrypted := by decide
  have hpadding : EnciphersToPadding zeroKey header.sentOrigin := by
    have hdigits : header.sentOrigin = hexStr (List.ofFn paddingPreimage) := by decide
    refine ⟨hdigits ▸ isUpperHexDigit_hexStr _, ?_, ?_⟩
    · exact (unpad_eq_self_iff (by decide)).mp (by decide)
    · rw [hdigits, unhex_hexStr, toBlock_ofFn, cipher_paddingPreimage]
  exact ⟨by decide, (accepts_iff_of_not_isHex validKey_zeroKey hwf hbad).mpr hpadding,
    fun h => hbad h.1⟩

/-! ## Runs of a header object -/

/-- A call that writes both fields of a header. -/
inductive Op : Type where
  /-- `EncryptInput` -/
  | encryptInput (input cipherKey : Str)
  /-- `Deserialize` -/
  | deserialize (buffer : Bytes)

/-- The header after a call. -/
def Op.run (header : VpnHeader) : Op → Exec VpnHeader
  | .encryptInput input cipherKey => do
    let (header, _) ← header.encryptInput input cipherKey
    return header
  | .deserialize buffer => do
    let (header, _) ← VpnHeader.deserialize buffer
    return header

/-- The header after a sequence of calls. -/
def runOps (header : VpnHeader) : List Op → Exec VpnHeader
  | [] => .ok header
  | op :: ops => do runOps (← op.run header) ops

/-- The arguments that callers give: a plain text of 32 characters and a good
key, or the 64 bytes of a header. -/
def Op.Allowed : Op → Prop
  | .encryptInput input cipherKey => input.length = 32 ∧ ValidKey aes128 cipherKey
  | .deserialize buffer => buffer.length = 64

/-- The loop of `Serialize` stays inside the string: it runs through without the
terminating null. -/
def ReadsInside (s : Str) : Prop :=
  ∃ bytes, forUp 32 0 32 [] (fun i out => do return out ++ [← load s i]) = .ok bytes

theorem readsInside {s : Str} (h : s.length = 32) : ReadsInside s := by
  refine ⟨s, forUp_collect s h (by decide) fun k u x hx => ?_⟩
  rw [load_eq_of_getElem? hx]
  rfl

/-- What a call leaves: both fields have 32 bytes, whatever the header was. -/
theorem Op.run_wellFormed {op : Op} (h : op.Allowed) (header : VpnHeader) :
    ∃ header', op.run header = .ok header' ∧ header'.WellFormed := by
  cases op with
  | encryptInput input cipherKey =>
    obtain ⟨hlen, hkey⟩ := h
    refine ⟨_, by rw [Op.run, encryptInput_eq hkey header hlen]; rfl, hlen, ?_⟩
    rw [length_hexStr, List.length_ofFn]
  | deserialize buffer =>
    have h64 : 64 ≤ buffer.length := Nat.le_of_eq (Eq.symm h)
    exact ⟨_, by rw [Op.run, deserialize_eq h64]; rfl, wellFormed_ofBytes h64⟩

/-- What a run leaves. -/
theorem runOps_wellFormed : ∀ {ops : List Op} {header : VpnHeader}, header.WellFormed →
    (∀ op ∈ ops, op.Allowed) → ∃ header', runOps header ops = .ok header' ∧ header'.WellFormed := by
  intro ops
  induction ops with
  | nil =>
    intro header h _
    exact ⟨header, rfl, h⟩
  | cons op ops ih =>
    intro header _ hall
    obtain ⟨hop, hops⟩ := List.forall_mem_cons.mp hall
    obtain ⟨header₁, hrun, h₁⟩ := Op.run_wellFormed hop header
    obtain ⟨header₂, hruns, h₂⟩ := ih h₁ hops
    exact ⟨header₂, by rw [runOps, hrun, ok_bind, hruns], h₂⟩

/-- **The codec**, over any run that starts with a call: both fields have 32
bytes, they are written as 64 bytes by reads inside the strings, and read back;
and any 64 bytes are read and written back. -/
theorem codec_invariant (op : Op) (ops : List Op) (hall : ∀ o ∈ op :: ops, o.Allowed)
    (start : VpnHeader) :
    (∃ header, runOps start (op :: ops) = .ok header ∧
      header.sentOrigin.length = 32 ∧ header.encrypted.length = 32 ∧
      ReadsInside header.sentOrigin ∧ ReadsInside header.encrypted ∧
      ∃ buffer, header.serialize = .ok buffer ∧ buffer.length = header.getSerializedSize ∧
        deserialize buffer = .ok (header, header.getSerializedSize)) ∧
    ∀ buffer : Bytes, buffer.length = 64 →
      ∃ header size, deserialize buffer = .ok (header, size) ∧ header.serialize = .ok buffer := by
  refine ⟨?_, fun buffer hlen => ?_⟩
  · obtain ⟨hop, hops⟩ := List.forall_mem_cons.mp hall
    obtain ⟨header₁, hrun, h₁⟩ := Op.run_wellFormed hop start
    obtain ⟨header, hruns, h⟩ := runOps_wellFormed h₁ hops
    refine ⟨header, by rw [runOps, hrun, ok_bind, hruns], h.origin, h.encrypted,
      readsInside h.origin, readsInside h.encrypted, _, serialize_eq h, ?_, ?_⟩
    · rw [List.length_append, h.origin, h.encrypted]
      rfl
    · have h64 : 64 ≤ (header.sentOrigin ++ header.encrypted).length := by
        rw [List.length_append, h.origin, h.encrypted]
      rw [deserialize_eq h64, ofBytes_fields h]
      rfl
  · have h64 : 64 ≤ buffer.length := Nat.le_of_eq hlen.symm
    refine ⟨_, _, deserialize_eq h64, ?_⟩
    rw [serialize_eq (wellFormed_ofBytes h64), fields_ofBytes hlen]

theorem codec_invariant_zeros :
    let letters : Bytes := List.replicate 64 'G'.toUInt8
    (∃ header, runOps {} [.deserialize letters, .encryptInput zeroKey zeroKey] = .ok header ∧
      header.sentOrigin.length = 32 ∧ header.encrypted.length = 32 ∧
      ∃ buffer, header.serialize = .ok buffer ∧ deserialize buffer = .ok (header, 64)) ∧
    ∃ header size, deserialize letters = .ok (header, size) ∧ header.serialize = .ok letters := by
  intro letters
  have hletters : letters.length = 64 := List.length_replicate
  have hall : ∀ op ∈ [Op.deserialize letters, .encryptInput zeroKey zeroKey], op.Allowed :=
    List.forall_mem_cons.mpr ⟨hletters,
      List.forall_mem_singleton.mpr ⟨validKey_zeroKey.size, validKey_zeroKey⟩⟩
  obtain ⟨⟨header, hrun, horigin, hencrypted, -, -, buffer, hwrite, -, hread⟩, hany⟩ :=
    codec_invariant (.deserialize letters) [.encryptInput zeroKey zeroKey] hall {}
  exact ⟨⟨header, hrun, horigin, hencrypted, buffer, hwrite, hread⟩, hany letters hletters⟩

/-- **Receiving is safe**, whatever the 64 bytes are. -/
theorem receive_safe (hkey : ValidKey aes128 cipherKey) {buffer : Bytes}
    (hlen : buffer.length = 64) :
    ∃ out, (do
      let (header, _) ← deserialize buffer
      header.decryptInput cipherKey) = .ok out ∧
      (∀ c ∈ out, IsUpperHexDigit c) ∧ out.length % 2 = 0 ∧ out.length ≤ 32 := by
  have h64 : 64 ≤ buffer.length := Nat.le_of_eq hlen.symm
  have hrun := decryptInput_eq hkey (wellFormed_ofBytes h64).encrypted
  refine ⟨_, by rw [deserialize_eq h64, ok_bind]; exact hrun, isUpperHexDigit_hexStr _, ?_, ?_⟩
  · rw [length_hexStr, Nat.mul_mod_right]
  · have hle := (unpad_isPrefixOf (List.ofFn
      ((aes128.cipher cipherKey).symm (fieldBlock (ofBytes buffer).encrypted)))).length_le
    rw [List.length_ofFn] at hle
    rw [length_hexStr]
    omega

theorem receive_safe_letters : ∃ out, (do
      let (header, _) ← deserialize (List.replicate 64 'G'.toUInt8)
      header.decryptInput zeroKey) = .ok out ∧ out.length ≤ 32 := by
  obtain ⟨out, hrun, -, -, hle⟩ := receive_safe validKey_zeroKey
    (List.length_replicate : (List.replicate 64 'G'.toUInt8).length = 64)
  exact ⟨out, hrun, hle⟩

end VpnHeader

end SimpleVpn
