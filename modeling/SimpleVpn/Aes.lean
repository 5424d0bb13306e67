import SimpleVpn.Exec

/-!
# The AES class of `vpn-aes`

The class `ns3::AES`, function by function: the tables, the block functions on
a state vector, key expansion, block splitting with its padding, the hex
conversions, and the public `encryption` and `decryption`.

Vectors are lists read and written through `load` and `store`, strings are
lists of bytes (`char` values as their bit patterns), and every index that the
source narrows is narrowed here: `wrap 8` where it is held in a `uint8_t`,
`wrap 32` where it is held in a `uint32_t`. The `verbose` arguments only print
and are left out.
-/

namespace SimpleVpn

open Exec

/-- `std::vector<byte>`. -/
abbrev Bytes := List UInt8

/-- `std::string`, as the bit patterns of its characters. -/
abbrev Str := List UInt8

/-- The bytes of a string literal. -/
def str (s : String) : Str := s.toList.map Char.toUInt8

/-- `BlockCipherMode`. -/
inductive MODE : Type where
  /-- electronic codebook -/
  | ECB
  /-- cipher block chaining -/
  | CBC
  deriving DecidableEq, Repr

/-- An object of class `AES`. The last three fields are what the constructor
establishes and no method breaks. -/
structure AES : Type where
  /-- `Nkey_`, the number of 32-bit words in the cipher key -/
  nkey : ℕ
  /-- `Nround_`, the number of rounds -/
  nround : ℕ
  /-- `mode_` -/
  mode : MODE
  /-- `iv_`, the initialization vector (empty in ECB mode) -/
  iv : Bytes
  /-- `phiv_`, the chaining value of the call in progress -/
  phiv : Bytes
  /-- the constructor's assertion on `keyBits` -/
  nkey_mem : nkey = 4 ∨ nkey = 6 ∨ nkey = 8
  nround_eq : nround = 6 + nkey
  iv_size : mode = .CBC → iv.length = 16

namespace AES

/-- `Bsize_`, the number of 32-bit words in a state. -/
abbrev Bsize : ℕ := 4

/-- `Ncol_`, the number of columns of the state matrix. -/
abbrev Ncol : ℕ := 4

/-- `Nstate_`, the number of bytes of the state matrix. -/
abbrev Nstate : ℕ := 16

/-! ## Tables -/

set_option maxRecDepth 4000 in
/-- `sbox_`. -/
def sbox : Bytes := [
  0x63, 0x7c, 0x77, 0x7b, 0xf2, 0x6b, 0x6f, 0xc5, 0x30, 0x01, 0x67, 0x2b, 0xfe, 0xd7, 0xab, 0x76,
  0xca, 0x82, 0xc9, 0x7d, 0xfa, 0x59, 0x47, 0xf0, 0xad, 0xd4, 0xa2, 0xaf, 0x9c, 0xa4, 0x72, 0xc0,
  0xb7, 0xfd, 0x93, 0x26, 0x36, 0x3f, 0xf7, 0xcc, 0x34, 0xa5, 0xe5, 0xf1, 0x71, 0xd8, 0x31, 0x15,
  0x04, 0xc7, 0x23, 0xc3, 0x18, 0x96, 0x05, 0x9a, 0x07, 0x12, 0x80, 0xe2, 0xeb, 0x27, 0xb2, 0x75,
  0x09, 0x83, 0x2c, 0x1a, 0x1b, 0x6e, 0x5a, 0xa0, 0x52, 0x3b, 0xd6, 0xb3, 0x29, 0xe3, 0x2f, 0x84,
  0x53, 0xd1, 0x00, 0xed, 0x20, 0xfc, 0xb1, 0x5b, 0x6a, 0xcb, 0xbe, 0x39, 0x4a, 0x4c, 0x58, 0xcf,
  0xd0, 0xef, 0xaa, 0xfb, 0x43, 0x4d, 0x33, 0x85, 0x45, 0xf9, 0x02, 0x7f, 0x50, 0x3c, 0x9f, 0xa8,
  0x51, 0xa3, 0x40, 0x8f, 0x92, 0x9d, 0x38, 0xf5, 0xbc, 0xb6, 0xda, 0x21, 0x10, 0xff, 0xf3, 0xd2,
  0xcd, 0x0c, 0x13, 0xec, 0x5f, 0x97, 0x44, 0x17, 0xc4, 0xa7, 0x7e, 0x3d, 0x64, 0x5d, 0x19, 0x73,
  0x60, 0x81, 0x4f, 0xdc, 0x22, 0x2a, 0x90, 0x88, 0x46, 0xee, 0xb8, 0x14, 0xde, 0x5e, 0x0b, 0xdb,
  0xe0, 0x32, 0x3a, 0x0a, 0x49, 0x06, 0x24, 0x5c, 0xc2, 0xd3, 0xac, 0x62, 0x91, 0x95, 0xe4, 0x79,
  0xe7, 0xc8, 0x37, 0x6d, 0x8d, 0xd5, 0x4e, 0xa9, 0x6c, 0x56, 0xf4, 0xea, 0x65, 0x7a, 0xae, 0x08,
  0xba, 0x78, 0x25, 0x2e, 0x1c, 0xa6, 0xb4, 0xc6, 0xe8, 0xdd, 0x74, 0x1f, 0x4b, 0xbd, 0x8b, 0x8a,
  0x70, 0x3e, 0xb5, 0x66, 0x48, 0x03, 0xf6, 0x0e, 0x61, 0x35, 0x57, 0xb9, 0x86, 0xc1, 0x1d, 0x9e,
  0xe1, 0xf8, 0x98, 0x11, 0x69, 0xd9, 0x8e, 0x94, 0x9b, 0x1e, 0x87, 0xe9, 0xce, 0x55, 0x28, 0xdf,
  0x8c, 0xa1, 0x89, 0x0d, 0xbf, 0xe6, 0x42, 0x68, 0x41, 0x99, 0x2d, 0x0f, 0xb0, 0x54, 0xbb, 0x16]

set_option maxRecDepth 4000 in
/-- `inv_sbox_`. -/
def invSbox : Bytes := [
  0x52, 0x09, 0x6a, 0xd5, 0x30, 0x36, 0xa5, 0x38, 0xbf, 0x40, 0xa3, 0x9e, 0x81, 0xf3, 0xd7, 0xfb,
  0x7c, 0xe3, 0x39, 0x82, 0x9b, 0x2f, 0xff, 0x87, 0x34, 0x8e, 0x43, 0x44, 0xc4, 0xde, 0xe9, 0xcb,
  0x54, 0x7b, 0x94, 0x32, 0xa6, 0xc2, 0x23, 0x3d, 0xee, 0x4c, 0x95, 0x0b, 0x42, 0xfa, 0xc3, 0x4e,
  0x08, 0x2e, 0xa1, 0x66, 0x28, 0xd9, 0x24, 0xb2, 0x76, 0x5b, 0xa2, 0x49, 0x6d, 0x8b, 0xd1, 0x25,
  0x72, 0xf8, 0xf6, 0x64, 0x86, 0x68, 0x98, 0x16, 0xd4, 0xa4, 0x5c, 0xcc, 0x5d, 0x65, 0xb6, 0x92,
  0x6c, 0x70, 0x48, 0x50, 0xfd, 0xed, 0xb9, 0xda, 0x5e, 0x15, 0x46, 0x57, 0xa7, 0x8d, 0x9d, 0x84,
  0x90, 0xd8, 0xab, 0x00, 0x8c, 0xbc, 0xd3, 0x0a, 0xf7, 0xe4, 0x58, 0x05, 0xb8, 0xb3, 0x45, 0x06,
  0xd0, 0x2c, 0x1e, 0x8f, 0xca, 0x3f, 0x0f, 0x02, 0xc1, 0xaf, 0xbd, 0x03, 0x01, 0x13, 0x8a, 0x6b,
  0x3a, 0x91, 0x11, 0x41, 0x4f, 0x67, 0xdc, 0xea, 0x97, 0xf2, 0xcf, 0xce, 0xf0, 0xb4, 0xe6, 0x73,
  0x96, 0xac, 0x74, 0x22, 0xe7, 0xad, 0x35, 0x85, 0xe2, 0xf9, 0x37, 0xe8, 0x1c, 0x75, 0xdf, 0x6e,
  0x47, 0xf1, 0x1a, 0x71, 0x1d, 0x29, 0xc5, 0x89, 0x6f, 0xb7, 0x62, 0x0e, 0xaa, 0x18, 0xbe, 0x1b,
  0xfc, 0x56, 0x3e, 0x4b, 0xc6, 0xd2, 0x79, 0x20, 0x9a, 0xdb, 0xc0, 0xfe, 0x78, 0xcd, 0x5a, 0xf4,
  0x1f, 0xdd, 0xa8, 0x33, 0x88, 0x07, 0xc7, 0x31, 0xb1, 0x12, 0x10, 0x59, 0x27, 0x80, 0xec, 0x5f,
  0x60, 0x51, 0x7f, 0xa9, 0x19, 0xb5, 0x4a, 0x0d, 0x2d, 0xe5, 0x7a, 0x9f, 0x93, 0xc9, 0x9c, 0xef,
  0xa0, 0xe0, 0x3b, 0x4d, 0xae, 0x2a, 0xf5, 0xb0, 0xc8, 0xeb, 0xbb, 0x3c, 0x83, 0x53, 0x99, 0x61,
  0x17, 0x2b, 0x04, 0x7e, 0xba, 0x77, 0xd6, 0x26, 0xe1, 0x69, 0x14, 0x63, 0x55, 0x21, 0x0c, 0x7d]

/-- `rcon_`. -/
def rcon : Bytes := [0xFF, 0x01, 0x02, 0x04, 0x08, 0x10, 0x20, 0x40, 0x80, 0x1b, 0x36]

/-! ## Block functions -/

/-- The macro `multiply(a)`. Its argument and result are `int`s: the shift does
not drop the ninth bit. -/
def multiply (a : ℕ) : ℕ := (a <<< 1) ^^^ (((a >>> 7) &&& 1) * 0x1b)

/-- `v[i] ^= e` for an `int` value `e`: the result is narrowed to a byte. -/
def xorAssign (v : Bytes) (i : ℕ) (e : ℕ) : Exec Bytes := do
  let x ← load v i
  store v i (UInt8.ofNat (x.toNat ^^^ e))

/-- `_mappingSBox`. -/
def mappingSBox (val : UInt8) : Exec UInt8 := load sbox val.toNat

/-- `_mappingInvSBox`. -/
def mappingInvSBox (val : UInt8) : Exec UInt8 := load invSbox val.toNat

/-- `_addRoundKey`. -/
def addRoundKey (state roundKey : Bytes) (round : ℕ) : Exec Bytes :=
  forUp 8 0 Nstate state fun i state => do
    xorAssign state i (← load roundKey (Nstate * round + i)).toNat

/-- `_xor_iv`. -/
def xorIv (state iv : Bytes) : Exec Bytes :=
  forUp 8 0 Nstate state fun i state => do
    xorAssign state i (← load iv i).toNat

/-- `_subBytes`. -/
def subBytes (state : Bytes) : Exec Bytes :=
  forUp 8 0 Nstate state fun i state => do
    store state i (← mappingSBox (← load state i))

/-- `_shiftRows`. -/
def shiftRows (state : Bytes) : Exec Bytes := do
  -- rotate row 1
  let temp ← load state 1
  let state ← store state 1 (← load state 5)
  let state ← store state 5 (← load state 9)
  let state ← store state 9 (← load state 13)
  let state ← store state 13 temp
  -- rotate row 2
  let temp ← load state 2
  let state ← store state 2 (← load state 10)
  let state ← store state 10 temp
  let temp ← load state 6
  let state ← store state 6 (← load state 14)
  let state ← store state 14 temp
  -- rotate row 3
  let temp ← load state 3
  let state ← store state 3 (← load state 15)
  let state ← store state 15 (← load state 11)
  let state ← store state 11 (← load state 7)
  store state 7 temp

/-- `fixed` in `_mixColumns`. -/
def mixFixed : Bytes := [2, 3, 1, 1, 1, 2, 3, 1, 1, 1, 2, 3, 3, 1, 1, 2]

/-- `_mixColumns`. -/
def mixColumns (state : Bytes) : Exec Bytes := do
  let temp ← forUp 8 0 Bsize (List.replicate Nstate 0) fun i temp =>
    forUp 8 0 Ncol temp fun j temp =>
      forUp 8 (j * 4) (j * 4 + 4) temp fun k temp => do
        let x ← load state (i * Ncol + k % 4)
        if (← load mixFixed k) = 1 then
          xorAssign temp (i * Ncol + j) x.toNat
        else
          let temp ← xorAssign temp (i * Ncol + j) (multiply x.toNat)
          if (← load mixFixed k) = 3 then
            xorAssign temp (i * Ncol + j) x.toNat
          else
            pure temp
  forUp 8 0 Nstate state fun i state => do
    store state i (← load temp i)

/-- `_invSubBytes`. -/
def invSubBytes (state : Bytes) : Exec Bytes :=
  forUp 8 0 Nstate state fun i state => do
    store state i (← mappingInvSBox (← load state i))

/-- `_invShiftRows`. -/
def invShiftRows (state : Bytes) : Exec Bytes := do
  -- rotate row 1
  let temp ← load state 1
  let state ← store state 1 (← load state 13)
  let state ← store state 13 (← load state 9)
  let state ← store state 9 (← load state 5)
  let state ← store state 5 temp
  -- rotate row 2
  let temp ← load state 2
  let state ← store state 2 (← load state 10)
  let state ← store state 10 temp
  let temp ← load state 6
  let state ← store state 6 (← load state 14)
  let state ← store state 14 temp
  -- rotate row 3
  let temp ← load state 3
  let state ← store state 3 (← load state 7)
  let state ← store state 7 (← load state 11)
  let state ← store state 11 (← load state 15)
  store state 15 temp

/-- `fixed` in `_invMixColumns`. -/
def invMixFixed : Bytes := [14, 11, 13, 9, 9, 14, 11, 13, 13, 9, 14, 11, 11, 13, 9, 14]

/-- `_invMixColumns`. -/
def invMixColumns (state : Bytes) : Exec Bytes := do
  let temp ← forUp 8 0 Bsize (List.replicate Nstate 0) fun i temp =>
    forUp 8 0 Ncol temp fun j temp =>
      forUp 8 (j * 4) (j * 4 + 4) temp fun k temp => do
        let x ← load state (i * Ncol + k % 4)
        let f ← load invMixFixed k
        let temp ← xorAssign temp (i * Ncol + j) (multiply (multiply (multiply x.toNat)))
        let temp ← if f = 9 ∨ f = 11 ∨ f = 13 then
          xorAssign temp (i * Ncol + j) x.toNat else pure temp
        let temp ← if f = 11 ∨ f = 14 then
          xorAssign temp (i * Ncol + j) (multiply x.toNat) else pure temp
        if f = 13 ∨ f = 14 then
          xorAssign temp (i * Ncol + j) (multiply (multiply x.toNat)) else pure temp
  forUp 8 0 Nstate state fun i state => do
    store state i (← load temp i)

/-- `_encryption`. -/
def encryptionState (aes : AES) (state roundKey : Bytes) : Exec Bytes := do
  let state ← addRoundKey state roundKey 0
  let state ← forUp 8 1 aes.nround state fun i state => do
    let state ← subBytes state
    let state ← shiftRows state
    let state ← mixColumns state
    addRoundKey state roundKey i
  let state ← subBytes state
  let state ← shiftRows state
  addRoundKey state roundKey aes.nround

/-- `_decryption`. The loop counts down in a `uint8_t`. -/
def decryptionState (aes : AES) (state roundKey : Bytes) : Exec Bytes := do
  let state ← addRoundKey state roundKey aes.nround
  let state ← loop (fun i => decide (0 < i)) (fun i => wrapSub 8 i 1)
    (fun i state => do
      let state ← invShiftRows state
      let state ← invSubBytes state
      let state ← addRoundKey state roundKey i
      let state ← invMixColumns state
      return Flow.next state)
    (2 ^ 8 + 1) (wrapSub 8 aes.nround 1) state
  let state ← invShiftRows state
  let state ← invSubBytes state
  addRoundKey state roundKey 0

end AES

end SimpleVpn
