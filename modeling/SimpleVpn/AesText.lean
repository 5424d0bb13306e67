import Mathlib.Data.Bool.AllAny
import Mathlib.Data.List.TakeWhile
import SimpleVpn.Aes
import SimpleVpn.GaloisByte
import SimpleVpn.Padding

/-!
# Hex text

The conversions of the AES class between bytes and strings of hex digits, and
what each of them computes: `unhex` for the decoder, `hexStr` for the encoder,
`unpad` for the scan that strips padding while it encodes.

The decoder reports a character that is not a hex digit by returning an empty
vector, and holds the length of its input in a `uint32_t`: it never sees more
than the first `length mod 2 ^ 32` characters
(`convertTypeStrToByteBlock_eq`).
-/

namespace SimpleVpn

open Exec Padding GaloisByte

/-! ## The code -/

/-- `toupper`, on a `char`. -/
def toupper (c : UInt8) : UInt8 :=
  if 'a'.toUInt8 ≤ c ∧ c ≤ 'z'.toUInt8 then c - 32 else c

/-- The upper-case digit of a value below 16. -/
def hexDigit (d : UInt8) : UInt8 :=
  if d ≤ 9 then '0'.toUInt8 + d else 'A'.toUInt8 + d - 10

/-- What `snprintf(buf, sizeof(buf), "%02X", b)` leaves in `buf`. -/
def snprintf02X (b : UInt8) : Str := [hexDigit (b / 16), hexDigit (b % 16)]

namespace AES

/-- The inner loop of `_convertTypeByteStateToStr`: the first position after
`i` whose byte is not `padding`, or the end of the state. -/
def paddingEnd (state : Bytes) (i : ℕ) (padding : UInt8) : Exec ℕ :=
  loop (fun j => decide (j < Nstate)) (fun j => wrap 32 (j + 1))
    (fun j _ => do
      if (← load state j) ≠ padding then
        return Flow.stop j
      else
        return Flow.next (wrap 32 (j + 1)))
    (2 ^ 32 + 1) (i + 1) (i + 1)

/-- One iteration of `_convertTypeByteStateToStr`. Finding padding makes the
function return what it has written so far. -/
def encodeByte (state : Bytes) (decryption : Bool) (i : ℕ) (ret : Str) : Exec (Flow Str) := do
  let x ← load state i
  let buf := snprintf02X x
  -- check padding value
  if decryption = true ∧ wrapSub 32 Nstate i = x.toNat then
    if (← paddingEnd state i x) = Nstate then
      return Flow.stop ret
    else
      return Flow.next (ret ++ buf)
  else
    return Flow.next (ret ++ buf)

/-- `_convertTypeByteStateToStr`. -/
def convertTypeByteStateToStr (state : Bytes) (decryption : Bool) : Exec Str :=
  loop (fun i => decide (i < Nstate)) (fun i => wrap 32 (i + 1)) (encodeByte state decryption)
    (2 ^ 32 + 1) 0 []

/-- The value of an upper-case hex digit, as the `if` chain of
`_convertTypeStrToByteBlock` finds it. -/
def digitValue (c : UInt8) : Option UInt8 :=
  if '0'.toUInt8 ≤ c ∧ c ≤ '9'.toUInt8 then some (c - '0'.toUInt8)
  else if 'A'.toUInt8 ≤ c ∧ c ≤ 'F'.toUInt8 then some (c - 'A'.toUInt8 + 10)
  else none

/-- One iteration of `_convertTypeStrToByteBlock`, on the locals `block` and
`tmp`. A bad character makes the function return an empty vector. -/
def decodeChar (s : Str) (i : ℕ) : Bytes × UInt8 → Exec (Flow (Bytes × UInt8))
  | (block, tmp) => do
    match digitValue (← load s i) with
    | some d =>
      let tmp := 16 * tmp + d
      if i % 2 = 1 then
        return Flow.next (← store block (i / 2) tmp, 0)
      else
        return Flow.next (block, tmp)
    | none => return Flow.stop ([], tmp)

/-- `_convertTypeStrToByteBlock`. -/
def convertTypeStrToByteBlock (s : Str) : Exec Bytes := do
  let len := wrap 32 s.length
  let (block, _) ← loop (fun i => decide (i < len)) (fun i => wrap 32 (i + 1))
    (decodeChar (s.map toupper)) (2 ^ 32 + 1) 0 (List.replicate (len / 2) 0, 0)
  return block

/-- `_convertCharToStrHex`. `char` is signed: the quotient and the remainder
are those of signed division, narrowed to a `uint8_t`. -/
def convertCharToStrHex (c : UInt8) : Str :=
  [hexDigit (c.toInt8 / 16).toUInt8, hexDigit (c.toInt8 % 16).toUInt8]

/-- `convertStrToHexStr`. -/
def convertStrToHexStr (s : Str) : Str := s.flatMap convertCharToStrHex

/-- The value `convertHexStrToStr` gives a character, digit or not. -/
def digitOrLetter (c : UInt8) : UInt8 :=
  if '0'.toUInt8 ≤ c ∧ c ≤ '9'.toUInt8 then c - '0'.toUInt8 else c - 'A'.toUInt8 + 10

/-- `convertHexStrToStr`. The string may be read up to its terminating null. -/
def convertHexStrToStr (hex : Str) : Exec Str :=
  loop (fun i => decide (i < hex.length)) (fun i => wrap 32 (i + 2))
    (fun i ret => do
      let tmp := digitOrLetter (← load (hex ++ [0]) i) * 16
      let tmp := tmp + digitOrLetter (← load (hex ++ [0]) (wrap 32 (i + 1)))
      if tmp = 0 then
        return Flow.stop ret
      else
        return Flow.next (ret ++ [tmp]))
    (2 ^ 32 + 1) 0 []

end AES

/-! ## Hex digits -/

/-- A hex digit, of either letter case. -/
def IsHexDigit (c : UInt8) : Prop :=
  ('0'.toUInt8 ≤ c ∧ c ≤ '9'.toUInt8) ∨ ('A'.toUInt8 ≤ c ∧ c ≤ 'F'.toUInt8) ∨
    ('a'.toUInt8 ≤ c ∧ c ≤ 'f'.toUInt8)

instance (c : UInt8) : Decidable (IsHexDigit c) := inferInstanceAs (Decidable (_ ∨ _ ∨ _))

/-- An upper-case hex digit. -/
def IsUpperHexDigit (c : UInt8) : Prop :=
  ('0'.toUInt8 ≤ c ∧ c ≤ '9'.toUInt8) ∨ ('A'.toUInt8 ≤ c ∧ c ≤ 'F'.toUInt8)

instance (c : UInt8) : Decidable (IsUpperHexDigit c) := inferInstanceAs (Decidable (_ ∨ _))

/-- The value of a hex digit of either letter case. -/
def hexVal (c : UInt8) : UInt8 :=
  if c ≤ '9'.toUInt8 then c - '0'.toUInt8
  else if c ≤ 'F'.toUInt8 then c - 'A'.toUInt8 + 10
  else c - 'a'.toUInt8 + 10

/-- A string of hex digits. -/
def IsHex (s : Str) : Prop := ∀ c ∈ s, IsHexDigit c

instance (s : Str) : Decidable (IsHex s) := List.decidableBAll IsHexDigit s

/-- The string with its letters in upper case. -/
def upper (s : Str) : Str := s.map toupper

/-- The bytes a string of hex digits encodes, two digits each. -/
def unhex : Str → Bytes
  | a :: b :: s => (16 * hexVal a + hexVal b) :: unhex s
  | _ => []

/-- The upper-case hex digits of a vector, two for each byte. -/
def hexStr (v : Bytes) : Str := v.flatMap snprintf02X

/-- What `toupper` does to any character. -/
theorem toupper_spec : ∀ c, toupper (toupper c) = toupper c ∧
    AES.digitValue (toupper c) = if IsHexDigit c then some (hexVal c) else none :=
  forall_byte (by decide +kernel)

theorem toupper_toupper (c : UInt8) : toupper (toupper c) = toupper c := (toupper_spec c).1

theorem digitValue_toupper (c : UInt8) :
    AES.digitValue (toupper c) = if IsHexDigit c then some (hexVal c) else none :=
  (toupper_spec c).2

/-- The two digits of a byte. -/
theorem digits_spec : ∀ b, IsUpperHexDigit (hexDigit (b / 16)) ∧
    IsUpperHexDigit (hexDigit (b % 16)) ∧
    16 * hexVal (hexDigit (b / 16)) + hexVal (hexDigit (b % 16)) = b :=
  forall_byte (by decide +kernel)

theorem isUpperHexDigit_snprintf02X (b : UInt8) : ∀ c ∈ snprintf02X b, IsUpperHexDigit c := by
  obtain ⟨hhigh, hlow, -⟩ := digits_spec b
  intro c hc
  obtain rfl | rfl : c = _ ∨ c = _ := by simpa [snprintf02X] using hc
  · exact hhigh
  · exact hlow

theorem IsUpperHexDigit.isHexDigit {c : UInt8} (h : IsUpperHexDigit c) : IsHexDigit c :=
  h.imp_right Or.inl

theorem IsUpperHexDigit.lt_a {c : UInt8} (h : IsUpperHexDigit c) : c < 'a'.toUInt8 := by
  rcases h with ⟨-, h⟩ | ⟨-, h⟩
  · exact UInt8.lt_of_le_of_lt h (by decide)
  · exact UInt8.lt_of_le_of_lt h (by decide)

theorem hexVal_snprintf02X (b : UInt8) :
    16 * hexVal (hexDigit (b / 16)) + hexVal (hexDigit (b % 16)) = b :=
  (digits_spec b).2.2

/-- The value of a digit. -/
theorem hexVal_spec : ∀ c, IsHexDigit c → hexVal c < 16 ∧ hexDigit (hexVal c) = toupper c ∧
    hexVal (toupper c) = hexVal c ∧ (hexVal c = 0 → c = '0'.toUInt8) :=
  forall_byte (by decide +kernel)

theorem hexVal_lt (c : UInt8) (h : IsHexDigit c) : hexVal c < 16 := (hexVal_spec c h).1

theorem hexDigit_hexVal (c : UInt8) (h : IsHexDigit c) : hexDigit (hexVal c) = toupper c :=
  (hexVal_spec c h).2.1

theorem hexVal_toupper (c : UInt8) (h : IsHexDigit c) : hexVal (toupper c) = hexVal c :=
  (hexVal_spec c h).2.2.1

theorem eq_zero_digit (c : UInt8) (h : IsHexDigit c) : hexVal c = 0 → c = '0'.toUInt8 :=
  (hexVal_spec c h).2.2.2

/-! ## Hex strings -/

theorem isHex_append {s t : Str} : IsHex (s ++ t) ↔ IsHex s ∧ IsHex t := List.forall_mem_append

theorem IsHex.take {s : Str} (h : IsHex s) (n : ℕ) : IsHex (s.take n) :=
  fun c hc => h c (List.mem_of_mem_take hc)

/-- What is encoded is written in upper case. -/
theorem isUpperHexDigit_hexStr (v : Bytes) : ∀ c ∈ hexStr v, IsUpperHexDigit c := by
  intro c hc
  obtain ⟨b, -, hb⟩ := List.mem_flatMap.mp hc
  exact isUpperHexDigit_snprintf02X b c hb

theorem isHex_hexStr (v : Bytes) : IsHex (hexStr v) := fun c hc =>
  (isUpperHexDigit_hexStr v c hc).isHexDigit

@[simp] theorem hexStr_nil : hexStr [] = [] := rfl

@[simp] theorem hexStr_cons (b : UInt8) (v : Bytes) :
    hexStr (b :: v) = hexDigit (b / 16) :: hexDigit (b % 16) :: hexStr v := rfl

@[simp] theorem hexStr_append (v w : Bytes) : hexStr (v ++ w) = hexStr v ++ hexStr w :=
  List.flatMap_append

@[simp] theorem length_hexStr (v : Bytes) : (hexStr v).length = 2 * v.length := by
  induction v with
  | nil => rfl
  | cons b v ih => simp only [hexStr_cons, List.length_cons, ih, Nat.mul_succ]

@[simp] theorem unhex_nil : unhex [] = [] := rfl

@[simp] theorem unhex_cons_cons (a b : UInt8) (s : Str) :
    unhex (a :: b :: s) = (16 * hexVal a + hexVal b) :: unhex s := rfl

/-- Decoding inverts encoding. -/
@[simp] theorem unhex_hexStr (v : Bytes) : unhex (hexStr v) = v := by
  induction v with
  | nil => rfl
  | cons b v ih => rw [hexStr_cons, unhex_cons_cons, hexVal_snprintf02X, ih]

theorem hexStr_injective {v w : Bytes} (h : hexStr v = hexStr w) : v = w := by
  rw [← unhex_hexStr v, h, unhex_hexStr]

/-- The digits of the byte that two digits encode are the two digits. -/
theorem snprintf02X_hexVal {a b : UInt8} (ha : IsHexDigit a) (hb : IsHexDigit b) :
    snprintf02X (16 * hexVal a + hexVal b) = [toupper a, toupper b] := by
  have hva := UInt8.lt_iff_toNat_lt.mp (hexVal_lt a ha)
  have hvb := UInt8.lt_iff_toNat_lt.mp (hexVal_lt b hb)
  have hdiv : (16 * hexVal a + hexVal b) / 16 = hexVal a := by
    apply UInt8.toNat_inj.mp
    simp only [UInt8.toNat_div, UInt8.toNat_add, UInt8.toNat_mul, UInt8.reduceToNat] at *
    omega
  have hmod : (16 * hexVal a + hexVal b) % 16 = hexVal b := by
    apply UInt8.toNat_inj.mp
    simp only [UInt8.toNat_mod, UInt8.toNat_add, UInt8.toNat_mul, UInt8.reduceToNat] at *
    omega
  rw [snprintf02X, hdiv, hmod, hexDigit_hexVal a ha, hexDigit_hexVal b hb]

@[simp] theorem unhex_singleton (a : UInt8) : unhex [a] = [] := rfl

@[simp] theorem length_unhex : ∀ s, (unhex s).length = s.length / 2
  | [] => rfl
  | [_] => by simp
  | a :: b :: s => by
    rw [unhex_cons_cons, List.length_cons, length_unhex s, List.length_cons, List.length_cons]
    omega

theorem unhex_append : ∀ {s : Str} (t : Str), s.length % 2 = 0 →
    unhex (s ++ t) = unhex s ++ unhex t
  | [], _, _ => rfl
  | [_], _, h => by cases h
  | a :: b :: s, t, h => by
    have hs : s.length % 2 = 0 := by
      rw [List.length_cons, List.length_cons] at h
      omega
    rw [List.cons_append, List.cons_append, unhex_cons_cons, unhex_cons_cons, unhex_append t hs,
      List.cons_append]

theorem unhex_take : ∀ (s : Str) (k : ℕ), unhex (s.take (2 * k)) = (unhex s).take k
  | [], _ => by simp
  | [_], 0 => rfl
  | [_], k + 1 => by simp [Nat.mul_succ]
  | _ :: _ :: _, 0 => rfl
  | a :: b :: s, k + 1 => by
    rw [Nat.mul_succ, List.take_succ_cons, List.take_succ_cons, unhex_cons_cons, unhex_cons_cons,
      List.take_succ_cons, unhex_take s k]

theorem unhex_drop : ∀ (s : Str) (k : ℕ), unhex (s.drop (2 * k)) = (unhex s).drop k
  | [], _ => by simp
  | [_], 0 => rfl
  | [_], k + 1 => by simp [Nat.mul_succ]
  | _ :: _ :: _, 0 => rfl
  | a :: b :: s, k + 1 => by
    rw [Nat.mul_succ, List.drop_succ_cons, List.drop_succ_cons, unhex_cons_cons,
      List.drop_succ_cons, unhex_drop s k]

/-- Encoding inverts decoding, up to letter case. -/
theorem hexStr_unhex : ∀ {s : Str}, IsHex s → s.length % 2 = 0 → hexStr (unhex s) = upper s
  | [], _, _ => rfl
  | [_], _, h => by cases h
  | a :: b :: s, hs, h => by
    have hlen : s.length % 2 = 0 := by
      rw [List.length_cons, List.length_cons] at h
      omega
    have ha : IsHexDigit a := hs a (by simp)
    have hb : IsHexDigit b := hs b (by simp)
    have hrest : IsHex s := fun c hc => hs c (by simp [hc])
    have hpair : hexStr (unhex (a :: b :: s)) =
        snprintf02X (16 * hexVal a + hexVal b) ++ hexStr (unhex s) := rfl
    rw [hpair, snprintf02X_hexVal ha hb, hexStr_unhex hrest hlen]
    rfl

/-- In upper case, hex is what its bytes encode to. -/
theorem hexStr_unhex_upper {s : Str} (hupper : ∀ c ∈ s, IsUpperHexDigit c)
    (heven : s.length % 2 = 0) : hexStr (unhex s) = s := by
  have hsame : ∀ c ∈ s, toupper c = c := fun c hc =>
    if_neg fun h => absurd h.1 (UInt8.not_le.mpr (hupper c hc).lt_a)
  rw [hexStr_unhex (fun c hc => (hupper c hc).isHexDigit) heven, upper, List.map_congr_left hsame,
    List.map_id']

/-- Decoding does not see letter case. -/
theorem unhex_upper : ∀ {s : Str}, IsHex s → unhex (upper s) = unhex s
  | [], _ => rfl
  | [_], _ => rfl
  | a :: b :: s, hs => by
    have ha : IsHexDigit a := hs a (by simp)
    have hb : IsHexDigit b := hs b (by simp)
    have hrest : IsHex s := fun c hc => hs c (by simp [hc])
    have hcons : upper (a :: b :: s) = toupper a :: toupper b :: upper s := rfl
    rw [hcons, unhex_cons_cons, unhex_cons_cons, hexVal_toupper a ha, hexVal_toupper b hb,
      unhex_upper hrest]

theorem upper_upper (s : Str) : upper (upper s) = upper s := by
  simp [upper, toupper_toupper]

/-- A dangling digit decodes to nothing. -/
theorem unhex_take_even (s : Str) {i : ℕ} (hi : i < s.length) (h : i % 2 = 0) :
    unhex (s.take (i + 1)) = unhex (s.take i) := by
  have hlen : (s.take i).length = i := List.length_take_of_le (Nat.le_of_lt hi)
  rw [List.take_add_one, List.getElem?_eq_getElem hi, Option.toList_some,
    unhex_append _ (by rw [hlen, h]), unhex_singleton, List.append_nil]

/-- The second digit of a pair completes a byte. -/
theorem unhex_take_odd (s : Str) {i : ℕ} {a b : UInt8} (h : i % 2 = 0) (ha : s[i]? = some a)
    (hb : s[i + 1]? = some b) :
    unhex (s.take (i + 2)) = unhex (s.take (i + 1)) ++ [16 * hexVal a + hexVal b] := by
  obtain ⟨hi, -⟩ := List.getElem?_eq_some_iff.mp ha
  have hlen : (s.take i).length = i := List.length_take_of_le (Nat.le_of_lt hi)
  rw [unhex_take_even s hi h, List.take_add_one, List.take_add_one, ha, hb, Option.toList_some,
    Option.toList_some, List.append_assoc, unhex_append _ (by rw [hlen, h])]
  rfl

theorem isHex_take_succ {s : Str} {i : ℕ} {a : UInt8} (h : IsHex (s.take i)) (ha : s[i]? = some a)
    (hd : IsHexDigit a) : IsHex (s.take (i + 1)) := by
  rw [List.take_add_one, ha, Option.toList_some, isHex_append]
  exact ⟨h, List.forall_mem_singleton.mpr hd⟩

/-- What the decoder returns: nothing at all if one character is not a digit. -/
def decodeHex (s : Str) : Bytes := if IsHex s then unhex s else []

theorem decodeHex_of_isHex {s : Str} (h : IsHex s) : decodeHex s = unhex s := if_pos h

theorem decodeHex_of_not {s : Str} (h : ¬IsHex s) : decodeHex s = [] := if_neg h

/-! ## What the conversions compute -/

namespace AES

/-- The inner loop reaches the end of the state exactly when every later byte
is the padding byte. -/
theorem paddingEnd_spec {state : Bytes} (hlen : state.length = 16) {i : ℕ} (hi : i < 16)
    (x : UInt8) : ∃ j, paddingEnd state i x = .ok j ∧
      (j = 16 ↔ ∀ m, i < m → m < 16 → state[m]? = some x) := by
  refine loop_up_spec (fun j t => t = j ∧ ∀ m, i < m → m < j → state[m]? = some x) _
    (by simp only [Nstate]; omega) (by decide) (by simp only [Nstate]; omega) ?_ ?_
    ⟨rfl, fun m h₁ h₂ => by omega⟩
  · rintro _ j hij hj ⟨rfl, hall⟩
    have hlt : j < state.length := by rw [hlen]; exact hj
    have hsome : state[j]? = some state[j] := List.getElem?_eq_getElem hlt
    by_cases hx : state[j] = x
    · refine Or.inl ⟨j + 1, ?_, rfl, fun m h₁ h₂ => ?_⟩
      · have hw : wrap 32 (j + 1) = j + 1 := wrap_of_lt (by omega)
        simp [load_ok hlt, hx, hw]
      · rcases Nat.lt_succ_iff_lt_or_eq.mp h₂ with hm | rfl
        · exact hall m h₁ hm
        · rw [hsome, hx]
    · refine Or.inr ⟨j, by simp [load_ok hlt, hx], fun h => absurd h (Nat.ne_of_lt hj), ?_⟩
      intro h
      have hm := h j (by omega) hj
      rw [hsome, Option.some.injEq] at hm
      exact absurd hm hx
  · rintro _ ⟨rfl, hall⟩
    exact iff_of_true rfl hall

/-- Padding starts at position `i` when the byte there is the number of bytes
left and every later byte equals it. -/
theorem padSuffix_iff_scan {state : Bytes} (hlen : state.length = 16) {i : ℕ} {x : UInt8}
    (hx : state[i]? = some x) : PadSuffix state (16 - i) ↔
      16 - i = x.toNat ∧ ∀ m, i < m → m < 16 → state[m]? = some x := by
  obtain ⟨hi, -⟩ := List.getElem?_eq_some_iff.mp hx
  rw [hlen] at hi
  have hsub : 16 - (16 - i) = i := Nat.sub_sub_self (by omega)
  rw [padSuffix_iff, hlen, hsub]
  refine ⟨?_, ?_⟩
  · rintro ⟨-, -, hall⟩
    have hfirst := hall i (Nat.le_refl i) hi
    rw [hx, Option.some.injEq] at hfirst
    refine ⟨?_, fun m h₁ h₂ => ?_⟩
    · rw [hfirst, UInt8.toNat_ofNat']
      omega
    · rw [hfirst]
      exact hall m (Nat.le_of_lt h₁) h₂
  · rintro ⟨hval, hall⟩
    refine ⟨by omega, by omega, fun m h₁ h₂ => ?_⟩
    rw [hval, UInt8.ofNat_toNat]
    rcases Nat.eq_or_lt_of_le h₁ with rfl | hlt
    · exact hx
    · exact hall m hlt h₂

/-- One iteration of the encoder: it stops at position `i` exactly if padding
starts there, and writes the byte's two digits otherwise. -/
theorem encodeByte_eq {state : Bytes} (hlen : state.length = 16) {i : ℕ} {x : UInt8}
    (hx : state[i]? = some x) (decryption : Bool) (ret : Str) :
    encodeByte state decryption i ret =
      if decryption = true ∧ PadSuffix state (16 - i) then .ok (Flow.stop ret)
      else .ok (Flow.next (ret ++ snprintf02X x)) := by
  obtain ⟨hi, -⟩ := List.getElem?_eq_some_iff.mp hx
  rw [hlen] at hi
  have hw : wrapSub 32 Nstate i = 16 - i := by
    simp only [wrapSub, Nstate]
    omega
  obtain ⟨j, hj, hj16⟩ := paddingEnd_spec hlen hi x
  have hpad := padSuffix_iff_scan hlen hx
  rw [← hj16] at hpad
  rw [encodeByte, load_eq_of_getElem? hx, ok_bind, hw]
  by_cases hd : decryption = true ∧ 16 - i = x.toNat
  · rw [if_pos hd, hj, ok_bind]
    by_cases h16 : j = 16
    · rw [if_pos h16, if_pos ⟨hd.1, hpad.mpr ⟨hd.2, h16⟩⟩, pure_eq_ok]
    · rw [if_neg h16, if_neg (fun h => h16 (hpad.mp h.2).2), pure_eq_ok]
  · rw [if_neg hd, if_neg (fun h => hd ⟨h.1, (hpad.mp h.2).1⟩), pure_eq_ok]

/-- **The encoder.** It writes two digits for each byte; when decrypting it
stops where padding starts. -/
theorem convertTypeByteStateToStr_eq {state : Bytes} (hlen : state.length = 16)
    (decryption : Bool) : convertTypeByteStateToStr state decryption =
      .ok (hexStr (if decryption then unpad state else state)) := by
  obtain ⟨t, ht, rfl⟩ : ∃ t, convertTypeByteStateToStr state decryption = .ok t ∧
      t = hexStr (if decryption then unpad state else state) := by
    refine loop_up_spec (fun i t => t = hexStr (state.take i) ∧
        ∀ m, m < i → ¬(decryption = true ∧ PadSuffix state (16 - m))) _
      (Nat.zero_le _) (by decide) (by decide) ?_ ?_ ⟨rfl, fun m hm => absurd hm (Nat.not_lt_zero m)⟩
    · rintro i _ - hi ⟨rfl, hnone⟩
      have hlt : i < state.length := by rw [hlen]; exact hi
      have hx : state[i]? = some state[i] := List.getElem?_eq_getElem hlt
      have hstep := encodeByte_eq hlen hx decryption (hexStr (state.take i))
      by_cases hpad : decryption = true ∧ PadSuffix state (16 - i)
      · refine Or.inr ⟨_, by rw [hstep, if_pos hpad], ?_⟩
        have hi' : i ≤ 16 := Nat.le_of_lt hi
        rw [if_pos hpad.1, unpad_of_padSuffix hpad.2 (by omega), hlen, Nat.sub_sub_self hi']
      · refine Or.inl ⟨_, by rw [hstep, if_neg hpad], ?_, fun m hm => ?_⟩
        · rw [List.take_add_one, hx, hexStr_append]
          rfl
        · rcases Nat.lt_succ_iff_lt_or_eq.mp hm with hm | rfl
          · exact hnone m hm
          · exact hpad
    · rintro _ ⟨rfl, hnone⟩
      rw [List.take_of_length_le (by simp only [Nstate]; omega)]
      cases decryption with
      | false => rfl
      | true =>
        have hno : ∀ k, ¬PadSuffix state k := by
          intro k hk
          obtain ⟨h₁, h₂, -⟩ := id hk
          rw [hlen] at h₂
          refine hnone (16 - k) (by simp only [Nstate]; omega) ⟨rfl, ?_⟩
          rwa [Nat.sub_sub_self h₂]
        rw [if_pos rfl, unpad_of_forall_not hno]
  exact ht

/-- **The scan from the front is PKCS #7 removal**, which reads the last byte: it
writes what removal leaves, and it stops at no other position. -/
theorem unpaddingScan_eq {state : Bytes} (hlen : state.length = 16) :
    let k := (state.getLastD 0).toNat
    (PadSuffix state k →
      convertTypeByteStateToStr state true = .ok (hexStr (state.take (16 - k)))) ∧
    (¬PadSuffix state k → convertTypeByteStateToStr state true = .ok (hexStr state)) ∧
    ∀ i ret out, i < 16 → encodeByte state true i ret = .ok (Flow.stop out) → i + k = 16 := by
  intro k
  rw [convertTypeByteStateToStr_eq hlen, if_pos rfl]
  refine ⟨fun hpad => ?_, fun hpad => ?_, fun i ret out hi hstop => ?_⟩
  · rw [unpad_of_padSuffix hpad (by omega), hlen]
  · have hself : unpad state = state := if_neg hpad
    rw [hself]
  · have hx : state[i]? = some state[i] := List.getElem?_eq_getElem (hlen.symm ▸ hi)
    have hpad : PadSuffix state (16 - i) := by
      by_contra hno
      rw [encodeByte_eq hlen hx, if_neg fun h => hno h.2] at hstop
      cases hstop
    have hk : k = 16 - i := hpad.getLastD (by omega)
    omega

theorem unpaddingScan_eq_four :
    convertTypeByteStateToStr (List.replicate 12 0 ++ List.replicate 4 4) true =
      .ok (hexStr (List.replicate 12 0)) :=
  (unpaddingScan_eq (by decide : (List.replicate 12 0 ++ List.replicate 4 4).length = 16)).1
    (by decide)

/-- A character that is not a digit ends the decoding with an empty vector. -/
theorem decodeChar_bad {s : Str} {i : ℕ} {c : UInt8} (hc : s[i]? = some c) (hd : ¬IsHexDigit c)
    (block : Bytes) (tmp : UInt8) :
    decodeChar (s.map toupper) i (block, tmp) = .ok (.stop ([], tmp)) := by
  have hload : (s.map toupper)[i]? = some (toupper c) := by rw [List.getElem?_map, hc]; rfl
  rw [decodeChar, load_eq_of_getElem? hload, ok_bind, digitValue_toupper, if_neg hd]
  rfl

/-- The first digit of a pair is kept in `tmp`. -/
theorem decodeChar_even {s : Str} {i : ℕ} {c : UInt8} (hc : s[i]? = some c) (hd : IsHexDigit c)
    (hi : i % 2 = 0) (block : Bytes) (tmp : UInt8) :
    decodeChar (s.map toupper) i (block, tmp) = .ok (.next (block, 16 * tmp + hexVal c)) := by
  have hload : (s.map toupper)[i]? = some (toupper c) := by rw [List.getElem?_map, hc]; rfl
  have hi' : i % 2 ≠ 1 := by omega
  rw [decodeChar, load_eq_of_getElem? hload, ok_bind, digitValue_toupper, if_pos hd]
  simp only [if_neg hi', pure_eq_ok]

/-- The second digit of a pair writes a byte. -/
theorem decodeChar_odd {s : Str} {i : ℕ} {c : UInt8} (hc : s[i]? = some c) (hd : IsHexDigit c)
    (hi : i % 2 = 1) {block : Bytes} (hlt : i / 2 < block.length) (tmp : UInt8) :
    decodeChar (s.map toupper) i (block, tmp) =
      .ok (.next (block.set (i / 2) (16 * tmp + hexVal c), 0)) := by
  have hload : (s.map toupper)[i]? = some (toupper c) := by rw [List.getElem?_map, hc]; rfl
  rw [decodeChar, load_eq_of_getElem? hload, ok_bind, digitValue_toupper, if_pos hd]
  simp only [if_pos hi, store_ok hlt, ok_bind, pure_eq_ok]

/-- What the decoder has after `i` digits: the bytes so far, zeros to the end of
the vector, and the first digit of an unfinished pair. -/
def Decoding (s : Str) (n i : ℕ) (st : Bytes × UInt8) : Prop :=
  IsHex (s.take i) ∧ st.1 = unhex (s.take i) ++ List.replicate (n / 2 - i / 2) 0 ∧
    (i % 2 = 0 → st.2 = 0) ∧ (i % 2 = 1 → ∃ a, s[i - 1]? = some a ∧ st.2 = hexVal a)

theorem decodeChar_step {s : Str} {n i : ℕ} {st : Bytes × UInt8} {c : UInt8}
    (hc : s[i]? = some c) (hd : IsHexDigit c) (hn : n ≤ s.length) (hi : i < n)
    (h : Decoding s n i st) :
    ∃ st', decodeChar (s.map toupper) i st = .ok (.next st') ∧ Decoding s n (i + 1) st' := by
  obtain ⟨block, tmp⟩ := st
  obtain ⟨hhex, hblock, heven, hodd⟩ := h
  simp only at hblock heven hodd
  have hhex' := isHex_take_succ hhex hc hd
  rcases Nat.mod_two_eq_zero_or_one i with h0 | h1
  · refine ⟨_, decodeChar_even hc hd h0 block tmp, hhex', ?_, fun h => by omega, fun _ => ?_⟩
    · have hdiv : (i + 1) / 2 = i / 2 := by omega
      rw [unhex_take_even s (by omega) h0, hdiv]
      exact hblock
    · refine ⟨c, hc, ?_⟩
      rw [heven h0, UInt8.mul_zero, UInt8.zero_add]
  · obtain ⟨a, ha, rfl⟩ := hodd h1
    obtain ⟨j, rfl⟩ : ∃ j, i = j + 1 := ⟨i - 1, by omega⟩
    have hlen : (unhex (s.take (j + 1))).length = (j + 1) / 2 := by
      rw [length_unhex, List.length_take_of_le (by omega)]
    rw [← hlen] at hblock
    have hfill : (unhex (s.take (j + 1))).length < n / 2 := by omega
    have hlt : (j + 1) / 2 < block.length := by
      rw [hblock, List.length_append, List.length_replicate]
      omega
    refine ⟨_, decodeChar_odd hc hd h1 hlt _, hhex', ?_, fun _ => rfl, fun h => by omega⟩
    have htake : unhex (s.take (j + 1 + 1)) =
        unhex (s.take (j + 1)) ++ [16 * hexVal a + hexVal c] :=
      unhex_take_odd s (by omega) ha hc
    have hhalf : (j + 1 + 1) / 2 = (unhex (s.take (j + 1))).length + 1 := by omega
    rw [htake, hblock, ← hlen, hhalf]
    exact set_fill _ hfill 0 _

/-- **The decoder.** It decodes the first `length mod 2 ^ 32` characters. -/
theorem convertTypeStrToByteBlock_eq (s : Str) :
    convertTypeStrToByteBlock s = .ok (decodeHex (s.take (wrap 32 s.length))) := by
  have hle : wrap 32 s.length ≤ s.length := Nat.mod_le _ _
  have hlt : wrap 32 s.length < 2 ^ 32 := Nat.mod_lt _ (by decide)
  obtain ⟨⟨block, tmp⟩, hst, hblock⟩ : ∃ st : Bytes × UInt8,
      loop (fun i => decide (i < wrap 32 s.length)) (fun i => wrap 32 (i + 1))
        (decodeChar (s.map toupper)) (2 ^ 32 + 1) 0 (List.replicate (wrap 32 s.length / 2) 0, 0) =
      .ok st ∧ st.1 = decodeHex (s.take (wrap 32 s.length)) := by
    refine loop_up_spec (Decoding s (wrap 32 s.length)) _ (Nat.zero_le _) hlt (by omega) ?_ ?_
      ⟨fun c hc => by simp at hc, by simp, fun _ => rfl, fun h => by cases h⟩
    · intro i st _ hi h
      have hc : s[i]? = some s[i] := List.getElem?_eq_getElem (by omega)
      by_cases hd : IsHexDigit s[i]
      · exact Or.inl (decodeChar_step hc hd hle hi h)
      · refine Or.inr ⟨_, decodeChar_bad hc hd st.1 st.2, (decodeHex_of_not fun hall => hd ?_).symm⟩
        refine hall _ (List.mem_of_getElem? (?_ : (s.take (wrap 32 s.length))[i]? = some s[i]))
        rw [List.getElem?_take_of_lt hi, hc]
    · rintro st ⟨hhex, hblock, -⟩
      rw [hblock, Nat.sub_self, decodeHex_of_isHex hhex]
      exact List.append_nil _
  rw [convertTypeStrToByteBlock]
  simp only [hst, ok_bind, pure_eq_ok]
  rw [← hblock]

/-- A string shorter than `2 ^ 32` is decoded whole. -/
theorem convertTypeStrToByteBlock_of_lt {s : Str} (h : s.length < 2 ^ 32) :
    convertTypeStrToByteBlock s = .ok (decodeHex s) := by
  rw [convertTypeStrToByteBlock_eq, wrap_of_lt h, List.take_length]

/-! ## Text -/

/-- A character below 128 is written as the byte it is. -/
theorem convertCharToStrHex_of_lt : ∀ c : UInt8, c < 128 → convertCharToStrHex c = snprintf02X c :=
  forall_byte (by decide +kernel)

theorem length_convertStrToHexStr (t : Str) : (convertStrToHexStr t).length = 2 * t.length := by
  induction t with
  | nil => rfl
  | cons c t ih =>
    have hcons : convertStrToHexStr (c :: t) = convertCharToStrHex c ++ convertStrToHexStr t := rfl
    rw [hcons, List.length_append, ih, List.length_cons, Nat.mul_succ, Nat.add_comm]
    rfl

theorem convertStrToHexStr_of_lt {t : Str} (h : ∀ c ∈ t, c < 128) :
    convertStrToHexStr t = hexStr t :=
  List.flatMap_congr fun c hc => convertCharToStrHex_of_lt c (h c hc)

/-- The byte that `convertHexStrToStr` makes of two characters. -/
def pairValue (a b : UInt8) : UInt8 := digitOrLetter a * 16 + digitOrLetter b

/-- The bytes that it makes of a string, two characters each. -/
def pairValues : Str → Bytes
  | a :: b :: s => pairValue a b :: pairValues s
  | _ => []

/-- What `convertHexStrToStr` takes for the value of a digit. In the high place, a
lower-case letter counts like the upper-case one: what is too much is a multiple
of 256. In the low place it counts 32 too much; the last four bits are right. -/
theorem digitOrLetter_spec : ∀ c, IsHexDigit c → digitOrLetter c * 16 = 16 * hexVal c ∧
    (digitOrLetter c = hexVal c ↔ c < 'a'.toUInt8) ∧ digitOrLetter c % 16 = hexVal c :=
  forall_byte (by decide +kernel)

theorem pairValue_eq_iff {a b : UInt8} (ha : IsHexDigit a) (hb : IsHexDigit b) :
    pairValue a b = 16 * hexVal a + hexVal b ↔ b < 'a'.toUInt8 := by
  obtain ⟨hhigh, -, -⟩ := digitOrLetter_spec a ha
  obtain ⟨-, hlow, -⟩ := digitOrLetter_spec b hb
  rw [pairValue, hhigh, UInt8.add_right_inj, hlow]

theorem pairValue_snprintf02X (b : UInt8) :
    pairValue (hexDigit (b / 16)) (hexDigit (b % 16)) = b := by
  obtain ⟨hhigh, hlow, hval⟩ := digits_spec b
  exact ((pairValue_eq_iff hhigh.isHexDigit hlow.isHexDigit).mpr hlow.lt_a).trans hval

@[simp] theorem pairValues_hexStr (v : Bytes) : pairValues (hexStr v) = v := by
  induction v with
  | nil => rfl
  | cons b v ih => rw [hexStr_cons, pairValues, pairValue_snprintf02X, ih]

@[simp] theorem length_pairValues : ∀ s, (pairValues s).length = s.length / 2
  | [] => rfl
  | [_] => by simp [pairValues]
  | a :: b :: s => by
    rw [pairValues, List.length_cons, length_pairValues s, List.length_cons, List.length_cons]
    omega

/-- The bytes, by the positions of their characters. -/
theorem getElem?_pairValues : ∀ {s : Str} {k : ℕ} {a b : UInt8}, s[2 * k]? = some a →
    s[2 * k + 1]? = some b → (pairValues s)[k]? = some (pairValue a b)
  | [], _, _, _, ha, _ => by simp at ha
  | [_], _, _, _, _, hb => by simp at hb
  | c :: d :: s, 0, a, b, ha, hb => by
    obtain rfl : c = a := by simpa using ha
    obtain rfl : d = b := by simpa using hb
    rfl
  | c :: d :: s, k + 1, a, b, ha, hb => by
    rw [pairValues, List.getElem?_cons_succ]
    exact getElem?_pairValues (by simpa [Nat.mul_succ] using ha) (by simpa [Nat.mul_succ] using hb)

/-- The two characters of a pair. -/
theorem exists_pair {s : Str} {i : ℕ} (hi : i + 1 < s.length) :
    ∃ a b, s[i]? = some a ∧ s[i + 1]? = some b :=
  ⟨s[i], s[i + 1], List.getElem?_eq_getElem (by omega), List.getElem?_eq_getElem hi⟩

/-- One iteration of `convertHexStrToStr`. -/
theorem decodePair_eq {hex : Str} {i : ℕ} {a b : UInt8} (ha : hex[i]? = some a)
    (hb : hex[i + 1]? = some b) (hi : i + 1 < 2 ^ 32) (ret : Str) :
    (do
      let tmp := digitOrLetter (← load (hex ++ [0]) i) * 16
      let tmp := tmp + digitOrLetter (← load (hex ++ [0]) (wrap 32 (i + 1)))
      if tmp = 0 then
        return Flow.stop ret
      else
        return Flow.next (ret ++ [tmp])) =
      if pairValue a b = 0 then .ok (Flow.stop ret)
      else (.ok (Flow.next (ret ++ [pairValue a b])) : Exec (Flow Str)) := by
  obtain ⟨ha', -⟩ := List.getElem?_eq_some_iff.mp ha
  obtain ⟨hb', -⟩ := List.getElem?_eq_some_iff.mp hb
  have hload1 : load (hex ++ [0]) i = .ok a :=
    load_eq_of_getElem? (by rw [List.getElem?_append_left ha', ha])
  have hload2 : load (hex ++ [0]) (i + 1) = .ok b :=
    load_eq_of_getElem? (by rw [List.getElem?_append_left hb', hb])
  rw [hload1, ok_bind, wrap_of_lt hi, hload2, ok_bind]
  rfl

/-- **Back to text.** The bytes of the pairs, up to the first that is zero. -/
theorem convertHexStrToStr_eq {s : Str} (heven : s.length % 2 = 0) (hlen : s.length < 2 ^ 32) :
    convertHexStrToStr s = .ok ((pairValues s).takeWhile (· ≠ 0)) := by
  let v := pairValues s
  have hv : v.length = s.length / 2 := length_pairValues s
  obtain ⟨t, ht, rfl⟩ : ∃ t, convertHexStrToStr s = .ok t ∧ t = v.takeWhile (· ≠ 0) := by
    refine loop_spec (fun k => 2 * k) (fun k t => t = v.take k ∧ ∀ b ∈ v.take k, b ≠ 0) _
      (n := v.length) (by omega) (fun k hk => ?_) (decide_eq_false (by omega)) ?_ ?_
      ⟨rfl, fun b hb => by simp at hb⟩
    · exact ⟨decide_eq_true (by omega), wrap_of_lt (by omega)⟩
    · rintro k _ hk ⟨rfl, hne⟩
      obtain ⟨a, b, ha, hb⟩ := exists_pair (by omega : 2 * k + 1 < s.length)
      have hpair : v[k]? = some (pairValue a b) := getElem?_pairValues ha hb
      have hstep := decodePair_eq ha hb (by omega) (v.take k)
      by_cases hz : pairValue a b = 0
      · refine Or.inr ⟨v.take k, hstep.trans (if_pos hz), ?_⟩
        obtain ⟨hk', hget⟩ := List.getElem?_eq_some_iff.mp hpair
        have hsplit : v = v.take k ++ v[k] :: v.drop (k + 1) := by
          rw [← List.drop_eq_getElem_cons hk, List.take_append_drop]
        have hwhile : v.takeWhile (· ≠ 0) = v.take k := by
          conv_lhs => rw [hsplit, List.takeWhile_append_of_pos (by simpa using hne), hget, hz]
          simp
        exact hwhile.symm
      · refine Or.inl ⟨v.take k ++ [pairValue a b], hstep.trans (if_neg hz), ?_, ?_⟩
        · rw [List.take_add_one, hpair, Option.toList_some]
        · rw [List.take_add_one, hpair, Option.toList_some]
          exact List.forall_mem_append.mpr ⟨hne, List.forall_mem_singleton.mpr hz⟩
    · rintro _ ⟨rfl, hne⟩
      rw [List.take_length] at hne ⊢
      exact (List.takeWhile_eq_self_iff.mpr (by simpa using hne)).symm
  exact ht

theorem convertHexStrToStr_hexStr {v : Bytes} (hlen : v.length < 2 ^ 31) :
    convertHexStrToStr (hexStr v) = .ok (v.takeWhile (· ≠ 0)) := by
  have hhex := length_hexStr v
  rw [convertHexStrToStr_eq (by omega) (by omega), pairValues_hexStr]

/-- A string of `2 ^ 32` characters is too long for the `uint32_t` index: without
a zero byte, the loop never ends. -/
theorem convertHexStrToStr_endless {s : Str} (hlen : 2 ^ 32 ≤ s.length)
    (hne : ∀ b ∈ pairValues s, b ≠ 0) : convertHexStrToStr s = .error .endless := by
  refine loop_endless (fun i _ => i % 2 = 0 ∧ i < 2 ^ 32) ?_ _ _ _ ⟨rfl, by decide⟩
  rintro i ret ⟨h2, hi⟩
  obtain ⟨k, rfl⟩ : ∃ k, i = 2 * k := ⟨i / 2, by omega⟩
  obtain ⟨a, b, ha, hb⟩ := exists_pair (by omega : 2 * k + 1 < s.length)
  have hpair : pairValue a b ≠ 0 := hne _ (List.mem_of_getElem? (getElem?_pairValues ha hb))
  have hstep := (decodePair_eq ha hb (by omega) ret).trans (if_neg hpair)
  refine ⟨decide_eq_true (by omega), _, hstep, ?_⟩
  simp only [wrap]
  omega

/-- **Text through hex.** Every character is written as two; text without
negative characters is written in hex digits, and below `2 ^ 31` characters it
is read back up to its first null character. -/
theorem text_lossless (t : Str) :
    (convertStrToHexStr t).length = 2 * t.length ∧
    ((∀ c ∈ t, c < 128) → (∀ d ∈ convertStrToHexStr t, IsUpperHexDigit d) ∧
      (t.length < 2 ^ 31 →
        convertHexStrToStr (convertStrToHexStr t) = .ok (t.takeWhile (· ≠ 0)))) := by
  refine ⟨length_convertStrToHexStr t, fun h => ?_⟩
  rw [convertStrToHexStr_of_lt h]
  exact ⟨isUpperHexDigit_hexStr t, convertHexStrToStr_hexStr⟩

theorem text_lossless_vpn :
    convertHexStrToStr (convertStrToHexStr (str "VPN")) = .ok (str "VPN") := by
  obtain ⟨-, h⟩ := text_lossless (str "VPN")
  exact (h (List.all_iff_forall_prop.mp rfl)).2 (by decide)

/-- A null character ends the text; the character -1 is read back as the
character 6; and `2 ^ 31` characters are never read back. -/
theorem text_lost :
    convertHexStrToStr (convertStrToHexStr [0]) ≠ .ok [0] ∧
    convertHexStrToStr (convertStrToHexStr [0xff]) ≠ .ok [0xff] ∧
    convertHexStrToStr (convertStrToHexStr (List.replicate (2 ^ 31) 0x61)) = .error .endless := by
  refine ⟨?_, ?_, ?_⟩
  · have hhex : convertStrToHexStr [0] = hexStr [0] := by decide
    rw [hhex, convertHexStrToStr_hexStr (by decide)]
    decide
  · have hhex : convertStrToHexStr [0xff] = hexStr [6] := by decide
    rw [hhex, convertHexStrToStr_hexStr (by decide)]
    decide
  · have hchar : ∀ c ∈ List.replicate (2 ^ 31) (0x61 : UInt8), c = 0x61 := fun c hc =>
      List.eq_of_mem_replicate hc
    rw [convertStrToHexStr_of_lt fun c hc => hchar c hc ▸ by decide]
    refine convertHexStrToStr_endless ?_ fun b hb => ?_
    · rw [length_hexStr, List.length_replicate]
      decide
    · rw [pairValues_hexStr] at hb
      exact hchar b hb ▸ by decide

/-! ## The two decoders -/

/-- Only the pair `00` has the value 0. -/
theorem pairValue_ne_zero {a b : UInt8} (ha : IsHexDigit a) (hb : IsHexDigit b)
    (h : ¬(a = '0'.toUInt8 ∧ b = '0'.toUInt8)) : pairValue a b ≠ 0 := by
  obtain ⟨hhigh, -, -⟩ := digitOrLetter_spec a ha
  obtain ⟨-, -, hmod⟩ := digitOrLetter_spec b hb
  intro hzero
  rw [pairValue, hhigh] at hzero
  have hva := UInt8.lt_iff_toNat_lt.mp (hexVal_lt a ha)
  have hsum := congrArg UInt8.toNat hzero
  have hlow := congrArg UInt8.toNat hmod
  simp only [UInt8.toNat_add, UInt8.toNat_mul, UInt8.toNat_mod, UInt8.reduceToNat] at hva hsum hlow
  have hb0 : hexVal b = 0 := UInt8.toNat_inj.mp (by simp only [UInt8.reduceToNat]; omega)
  obtain rfl := eq_zero_digit b hb hb0
  have hdigit : (digitOrLetter '0'.toUInt8).toNat = 0 := rfl
  have ha0 : hexVal a = 0 := UInt8.toNat_inj.mp (by simp only [UInt8.reduceToNat]; omega)
  exact h ⟨eq_zero_digit a ha ha0, rfl⟩

/-- The values of the pairs are the bytes encoded exactly when no low digit is a
lower-case letter. -/
theorem pairValues_eq_unhex_iff : ∀ {s : Str}, IsHex s → (pairValues s = unhex s ↔
    ∀ k c, s[2 * k + 1]? = some c → c < 'a'.toUInt8)
  | [], _ => by simp [pairValues]
  | [_], _ => by simp [pairValues]
  | a :: b :: s, hs => by
    have ha : IsHexDigit a := hs a (by simp)
    have hb : IsHexDigit b := hs b (by simp)
    have hrest : IsHex s := fun c hc => hs c (by simp [hc])
    rw [pairValues, unhex_cons_cons, List.cons.injEq, pairValue_eq_iff ha hb,
      pairValues_eq_unhex_iff hrest]
    refine ⟨?_, fun h => ⟨h 0 b rfl, fun k c hc => h (k + 1) c (by simpa [Nat.mul_succ] using hc)⟩⟩
    rintro ⟨hfirst, hall⟩ k c hc
    cases k with
    | zero =>
      obtain rfl : b = c := by simpa using hc
      exact hfirst
    | succ k => exact hall k c (by simpa [Nat.mul_succ] using hc)

/-- No pair of hex digits but `00` ends the decoding. -/
theorem pairValues_ne_zero : ∀ {s : Str}, IsHex s →
    (∀ k, ¬(s[2 * k]? = some '0'.toUInt8 ∧ s[2 * k + 1]? = some '0'.toUInt8)) →
    ∀ v ∈ pairValues s, v ≠ 0
  | [], _, _ => nofun
  | [_], _, _ => nofun
  | a :: b :: s, hs, h => by
    have ha : IsHexDigit a := hs a (by simp)
    have hb : IsHexDigit b := hs b (by simp)
    have hrest : IsHex s := fun c hc => hs c (by simp [hc])
    refine List.forall_mem_cons.mpr ⟨pairValue_ne_zero ha hb ?_, pairValues_ne_zero hrest ?_⟩
    · rintro ⟨rfl, rfl⟩
      exact h 0 ⟨rfl, rfl⟩
    · intro k hk
      exact h (k + 1) (by simpa [Nat.mul_succ] using hk)

/-- **Where the two decoders agree**, on hex digits without a pair `00`: below
`2 ^ 32` characters, and if no low digit is a lower-case letter. -/
theorem decoders_agree_iff {s : Str} (hhex : IsHex s) (heven : s.length % 2 = 0)
    (hpair : ∀ k, ¬(s[2 * k]? = some '0'.toUInt8 ∧ s[2 * k + 1]? = some '0'.toUInt8)) :
    convertHexStrToStr s = convertTypeStrToByteBlock s ↔
      s.length < 2 ^ 32 ∧ ∀ k c, s[2 * k + 1]? = some c → c < 'a'.toUInt8 := by
  have hne := pairValues_ne_zero hhex hpair
  rcases Nat.lt_or_ge s.length (2 ^ 32) with hlt | hge
  · have hwhile : (pairValues s).takeWhile (· ≠ 0) = pairValues s :=
      List.takeWhile_eq_self_iff.mpr (by simpa using hne)
    rw [convertHexStrToStr_eq heven hlt, hwhile, convertTypeStrToByteBlock_of_lt hlt,
      decodeHex_of_isHex hhex, Except.ok.injEq, pairValues_eq_unhex_iff hhex]
    exact (and_iff_right hlt).symm
  · rw [convertHexStrToStr_endless hge hne, convertTypeStrToByteBlock_eq]
    exact iff_of_false nofun fun h => Nat.not_le_of_lt h.1 hge

theorem decoders_agree_iff_upper :
    convertHexStrToStr (str "aF") = convertTypeStrToByteBlock (str "aF") := by
  refine (decoders_agree_iff (s := str "aF") (by decide) rfl ?_).mpr ⟨by decide, ?_⟩
  · rintro (_ | k) ⟨-, h⟩
    · cases h
    · simp [str] at h
  · rintro (_ | k) c h
    · obtain rfl : 'F'.toUInt8 = c := Option.some.inj h
      decide
    · simp [str] at h

/-- A lower-case low digit: `0a` is the byte 10 for one decoder and 42 for the other. -/
theorem decoders_differ : IsHex (str "0a") ∧ (str "0a").length % 2 = 0 ∧
    (∀ k, ¬((str "0a")[2 * k]? = some '0'.toUInt8 ∧ (str "0a")[2 * k + 1]? = some '0'.toUInt8)) ∧
    convertHexStrToStr (str "0a") ≠ convertTypeStrToByteBlock (str "0a") := by
  refine ⟨by decide, rfl, ?_, ?_⟩
  · rintro (_ | k) ⟨-, h⟩
    · cases h
    · simp [str] at h
  · rw [convertHexStrToStr_eq rfl (by decide), convertTypeStrToByteBlock_of_lt (by decide)]
    decide

end AES

end SimpleVpn
