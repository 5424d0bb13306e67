import SimpleVpn.AesMalformed
import SimpleVpn.AesMessages

/-!
# Outcomes on any input

Which calls return, whatever the strings are: bad digits, odd lengths, lengths
that wrap a 32-bit counter. A sequence of calls on one object returns exactly if
each of its calls would (`calls_return_iff`); the round trip has three outcomes
(`roundTrip_any`); and `convertHexStrToStr` either returns or runs for ever
(`convertHexStrToStr_outcome`).
-/

namespace SimpleVpn

open Exec Padding BlockCipher

namespace AES

variable {aes aes' : AES} {cipherKey : Str}

/-! ## One call -/

/-- The hex decoder accepts the part of the input that its counter reaches. -/
def GoodDigits (input : Str) : Prop := IsHex (input.take (input.length % 2 ^ 32))

instance (input : Str) : Decidable (GoodDigits input) :=
  inferInstanceAs (Decidable (∀ c ∈ _, _))

/-- When a call returns. The block counts are taken modulo `2 ^ 32`, so lengths are
taken modulo `2 ^ 37`; with a bad digit there is nothing to cut blocks out of, and
one block is still made of padding alone. -/
def Call.Returns (aes : AES) : Call → Prop
  | .encryption input cipherKey => ValidKey aes cipherKey ∧
      (input.length % 2 ^ 37 ≤ (if GoodDigits input then 511 else 32) ∨
        2 ^ 37 - 31 ≤ input.length % 2 ^ 37)
  | .decryption input cipherKey => ValidKey aes cipherKey ∧
      input.length % 2 ^ 37 < if GoodDigits input then 512 else 64
  | .setIV iv => aes.mode = .CBC ∧ iv.length = 16

theorem length_decoded_any (input : Str) : (decoded input).length =
    if GoodDigits input then input.length % 2 ^ 32 / 2 else 0 := by
  by_cases hgood : GoodDigits input
  · have hle : input.length % 2 ^ 32 ≤ input.length := Nat.mod_le _ _
    rw [if_pos hgood, decoded, wrap, decodeHex_of_isHex hgood, length_unhex,
      List.length_take_of_le hle]
  · rw [if_neg hgood, decoded, wrap, decodeHex_of_not hgood]
    rfl

theorem splits_encryptCount_any (input : Str) :
    Splits (decoded input).length (encryptCount input) ↔
      input.length % 2 ^ 37 ≤ (if GoodDigits input then 511 else 32) ∨
        2 ^ 37 - 31 ≤ input.length % 2 ^ 37 := by
  rw [length_decoded_any, splits_iff]
  simp only [encryptCount, wrap]
  split <;> omega

theorem splits_decryptCount_any (input : Str) :
    Splits (decoded input).length (decryptCount input) ↔
      input.length % 2 ^ 37 < if GoodDigits input then 512 else 64 := by
  rw [length_decoded_any, splits_iff]
  simp only [decryptCount, wrap]
  split <;> omega

theorem encryption_returns_iff (input cipherKey : Str) :
    (∃ r, aes.encryption input cipherKey = .ok r) ↔
      (Call.encryption input cipherKey).Returns aes := by
  rw [Call.Returns, ← splits_encryptCount_any]
  refine ⟨?_, ?_⟩
  · rintro ⟨⟨aes', out⟩, h⟩
    have hkey := validKey_of_encryption h
    exact ⟨hkey, (encryption_ok hkey h).1⟩
  · rintro ⟨hkey, hsplit⟩
    obtain ⟨aes', out, h⟩ := encryption_returns hkey input hsplit
    exact ⟨_, h⟩

theorem decryption_returns_iff (input cipherKey : Str) :
    (∃ r, aes.decryption input cipherKey = .ok r) ↔
      (Call.decryption input cipherKey).Returns aes := by
  rw [Call.Returns, ← splits_decryptCount_any]
  refine ⟨?_, ?_⟩
  · rintro ⟨⟨aes', out⟩, h⟩
    have hkey := validKey_of_decryption h
    exact ⟨hkey, (decryption_ok hkey h).1⟩
  · rintro ⟨hkey, hsplit⟩
    obtain ⟨aes', out, h⟩ := decryption_returns hkey input hsplit
    exact ⟨_, h⟩

theorem setIV_returns_iff (iv : Bytes) :
    (∃ aes', setIV iv aes = .ok aes') ↔ (Call.setIV iv).Returns aes := by
  refine ⟨?_, ?_⟩
  · rintro ⟨aes', h⟩
    have hmode : aes.mode = .CBC := assert_of_ok h
    rw [setIV, assert_ok hmode, ok_bind] at h
    exact ⟨hmode, assert_of_ok h⟩
  · rintro ⟨hmode, hlen⟩
    obtain ⟨aes', h, -⟩ := setIV_eq hmode hlen
    exact ⟨aes', h⟩

/-- A computation whose result is only renamed returns if the computation does. -/
theorem exists_bind_pure {α β : Type} {x : Exec α} {f : α → β} :
    (∃ r, (x >>= fun a => pure (f a)) = .ok r) ↔ ∃ a, x = .ok a := by
  refine ⟨?_, ?_⟩
  · rintro ⟨r, h⟩
    obtain ⟨a, ha, -⟩ := bind_eq_ok h
    exact ⟨a, ha⟩
  · rintro ⟨a, rfl⟩
    exact ⟨f a, rfl⟩

theorem call_returns_iff (c : Call) : (∃ r, call aes c = .ok r) ↔ c.Returns aes := by
  cases c with
  | encryption input cipherKey => exact exists_bind_pure.trans (encryption_returns_iff _ _)
  | decryption input cipherKey => exact exists_bind_pure.trans (decryption_returns_iff _ _)
  | setIV iv => exact exists_bind_pure.trans (setIV_returns_iff iv)

/-- What decides is what no call changes. -/
theorem Alike.returns_iff (h : Alike aes aes') (c : Call) : c.Returns aes' ↔ c.Returns aes := by
  have hvalid : ∀ key, ValidKey aes' key ↔ ValidKey aes key := fun _ =>
    ⟨h.symm.validKey, h.validKey⟩
  cases c with
  | encryption input cipherKey => rw [Call.Returns, Call.Returns, hvalid]
  | decryption input cipherKey => rw [Call.Returns, Call.Returns, hvalid]
  | setIV iv => rw [Call.Returns, Call.Returns, h.mode]

/-- **A sequence of calls returns exactly if each call would return on the object
as it was at first**: no call makes a later one fail, or return. -/
theorem calls_return_iff (aes : AES) (cs : List Call) :
    (∃ rs, calls aes cs = .ok rs) ↔ ∀ c ∈ cs, c.Returns aes := by
  induction cs generalizing aes with
  | nil => exact iff_of_true ⟨[], rfl⟩ nofun
  | cons c cs ih =>
    rw [List.forall_mem_cons, ← call_returns_iff]
    refine ⟨?_, ?_⟩
    · rintro ⟨rs, h⟩
      obtain ⟨r, hcall, hrest⟩ := bind_eq_ok h
      obtain ⟨rs', hrun, -⟩ := bind_eq_ok hrest
      refine ⟨⟨r, hcall⟩, fun d hd => ?_⟩
      exact ((call_frame hcall).1.returns_iff d).mp ((ih r.1).mp ⟨rs', hrun⟩ d hd)
    · rintro ⟨⟨r, hcall⟩, hcs⟩
      obtain ⟨rs, hrun⟩ := (ih r.1).mpr fun d hd =>
        ((call_frame hcall).1.returns_iff d).mpr (hcs d hd)
      exact ⟨r :: rs, by rw [calls, hcall, ok_bind, hrun, ok_bind, pure_eq_ok]⟩

/-! ## The round trip -/

/-- More blocks than the windows need are padding alone, and strip to nothing. -/
theorem strip_cuts_any {m : Bytes} (hm : m.length < 256) {n : ℕ} (hn : windowCount 16 m ≤ n) :
    strip (cuts m n) = (windows 16 m).flatMap stripFull := by
  induction n, hn using Nat.le_induction with
  | base => exact strip_cuts hm
  | succ n hn ih =>
    have hpast : window 16 m n = [] := by
      rw [windowCount] at hn
      rw [window, List.drop_eq_nil_of_le (by omega), List.take_nil]
    have hnone : unpad (pad 16 (window 16 m n)) = [] := by
      rw [unpad_pad_window, hpast]
      rfl
    rw [cuts_succ, strip, List.flatMap_append, ← strip, ih, List.flatMap_singleton,
      ofFn_toBlock (length_cut m n), cut_eq_pad_window hm, hnone, List.append_nil]

/-- **The round trip of any string**, of good digits or bad ones, odd or even: it
gives the windows of what was decoded, each full one without the padding it seems
to have; nothing, if the block count wraps to zero; or an access out of bounds. -/
theorem roundTrip_any (hkey : ValidKey aes cipherKey) (phiv : Bytes) (input : Str) :
    roundTrip aes phiv input cipherKey =
      if input.length % 2 ^ 37 ≤ (if GoodDigits input then 480 else 32) then
        .ok (hexStr ((windows 16 (decoded input)).flatMap stripFull))
      else if 2 ^ 37 - 31 ≤ input.length % 2 ^ 37 then .ok []
      else .error .outOfBounds := by
  have hlen := length_decoded_any input
  have hsplits := splits_encryptCount_any input
  have hcount : encryptCount input = (input.length + 31) / 32 % 2 ^ 32 := rfl
  rw [roundTrip_eq hkey]
  by_cases hfew : input.length % 2 ^ 37 ≤ if GoodDigits input then 480 else 32
  · -- at most 15 blocks, all of which are read back
    have hok : Splits (decoded input).length (encryptCount input) ∧ encryptCount input ≤ 15 ∧
        (decoded input).length < 256 ∧ windowCount 16 (decoded input) ≤ encryptCount input := by
      rw [hsplits, hcount, windowCount, hlen]
      by_cases hgood : GoodDigits input
      · rw [if_pos hgood] at hfew
        rw [if_pos hgood, if_pos hgood]
        omega
      · rw [if_neg hgood] at hfew
        rw [if_neg hgood, if_neg hgood]
        omega
    obtain ⟨hsplit, h15, hbytes, hwindows⟩ := hok
    rw [if_pos ⟨hsplit, h15⟩, if_pos hfew, strip_cuts_any hbytes hwindows]
  · rw [if_neg hfew]
    by_cases hwraps : 2 ^ 37 - 31 ≤ input.length % 2 ^ 37
    · -- the block count wraps to zero
      have hzero : encryptCount input = 0 := by
        rw [hcount]
        omega
      rw [if_pos hwraps, if_pos ⟨hsplits.mpr (Or.inr hwraps), hzero.trans_le (by decide)⟩, hzero]
      rfl
    · -- one of the two calls is asked for more blocks than it can cut
      rw [if_neg hwraps, if_neg]
      rintro ⟨hsplit, h15⟩
      have hlong := (hsplits.mp hsplit).resolve_right hwraps
      rw [hcount] at h15
      by_cases hgood : GoodDigits input
      · rw [if_pos hgood] at hfew hlong
        omega
      · rw [if_neg hgood] at hfew hlong
        exact hfew hlong

/-- A byte and half of another one; the half is lost. -/
theorem roundTrip_any_odd : roundTrip cbc128 [] (str "616") zeroKey = .ok (str "61") := by
  have hhex : IsHex (str "616") := by decide
  have hgood : GoodDigits (str "616") := hhex.take _
  have hbyte : decoded (str "616") = [0x61] := decoded_of_lt hhex (by decide)
  have hout : hexStr ((windows 16 [0x61]).flatMap stripFull) = str "61" := by decide
  rw [roundTrip_any validKey_cbc128, if_pos hgood, if_pos (by decide), hbyte, hout]

/-! ## Back to text -/

/-- The byte of pair `k`, of a string followed by its terminating null. -/
theorem getElem?_pairs {s : Str} {k : ℕ} (hk : 2 * k < s.length) :
    ∃ a b, (s ++ [0])[2 * k]? = some a ∧ (s ++ [0])[2 * k + 1]? = some b ∧
      (pairValues (s ++ [0]))[k]? = some (pairValue a b) := by
  have hlen : (s ++ [0]).length = s.length + 1 := List.length_append
  obtain ⟨a, b, ha, hb⟩ := exists_pair (s := s ++ [0]) (i := 2 * k) (by omega)
  exact ⟨a, b, ha, hb, getElem?_pairValues ha hb⟩

/-- The body of the loop of `convertHexStrToStr`, at index `i`. -/
def decodePair (hex : Str) (i : ℕ) (ret : Str) : Exec (Flow Str) := do
  let tmp := digitOrLetter (← load (hex ++ [0]) i) * 16
  let tmp := tmp + digitOrLetter (← load (hex ++ [0]) (wrap 32 (i + 1)))
  if tmp = 0 then
    return Flow.stop ret
  else
    return Flow.next (ret ++ [tmp])

/-- One iteration, which may read the terminating null. -/
theorem decodePair_null {hex : Str} {k : ℕ} (hk : 2 * k < hex.length) (hk' : 2 * k + 1 < 2 ^ 32)
    {x : UInt8} (hx : (pairValues (hex ++ [0]))[k]? = some x) (ret : Str) :
    decodePair hex (2 * k) ret = .ok (if x = 0 then .stop ret else .next (ret ++ [x])) := by
  obtain ⟨a, b, ha, hb, hpair⟩ := getElem?_pairs hk
  obtain rfl : pairValue a b = x := Option.some.inj (hpair.symm.trans hx)
  have hsum : digitOrLetter a * 16 + digitOrLetter b = pairValue a b := rfl
  rw [decodePair, load_eq_of_getElem? ha, ok_bind, wrap_of_lt hk', load_eq_of_getElem? hb, ok_bind]
  dsimp only
  rw [hsum]
  split <;> rfl

/-- The bytes up to the first zero. -/
theorem takeWhile_eq_take {v : Bytes} {m : ℕ} (hne : ∀ k < m, v[k]? ≠ some 0)
    (hm : v[m]? = some 0) : v.takeWhile (· ≠ 0) = v.take m := by
  induction v generalizing m with
  | nil => cases hm
  | cons x v ih =>
    cases m with
    | zero =>
      obtain rfl := Option.some.inj hm
      rfl
    | succ m =>
      have hx : x ≠ 0 := fun h => hne 0 (Nat.succ_pos m) (congrArg some h)
      rw [List.takeWhile_cons_of_pos (by simpa using hx), List.take_succ_cons,
        ih (fun k hk => hne (k + 1) (Nat.succ_lt_succ hk)) hm]

section decode

variable {s : Str}

/-- An iteration that does not find a zero: it adds the byte of its pair. -/
theorem decodePair_next {k : ℕ} (hk : 2 * k < s.length) (hk' : 2 * k + 1 < 2 ^ 32)
    (hne : (pairValues (s ++ [0]))[k]? ≠ some 0) (ret : Str) :
    ∃ x, (pairValues (s ++ [0])).take k ++ [x] = (pairValues (s ++ [0])).take (k + 1) ∧
      decodePair s (2 * k) ret = .ok (.next (ret ++ [x])) := by
  obtain ⟨a, b, -, -, hx⟩ := getElem?_pairs hk
  have hx0 : pairValue a b ≠ 0 := fun h => hne (h ▸ hx)
  refine ⟨pairValue a b, ?_, ?_⟩
  · rw [List.take_add_one, hx, Option.toList_some]
  · rw [decodePair_null hk hk' hx, if_neg hx0]

theorem length_pairs (s : Str) : (pairValues (s ++ [0])).length = (s.length + 1) / 2 := by
  rw [length_pairValues, List.length_append, List.length_singleton]

/-- The loop is left at the first zero that the index reaches. -/
theorem convertHexStrToStr_stops {m : ℕ} (hm : (pairValues (s ++ [0]))[m]? = some 0)
    (hlt : m < 2 ^ 31) (hmin : ∀ k < m, (pairValues (s ++ [0]))[k]? ≠ some 0) :
    convertHexStrToStr s = .ok ((pairValues (s ++ [0])).take m) := by
  obtain ⟨hsize, -⟩ := List.getElem?_eq_some_iff.mp hm
  rw [length_pairs] at hsize
  refine loop_break (fun k => 2 * k) (fun k => (pairValues (s ++ [0])).take k) (n := m) (by omega)
    (fun k hk => ?_) (decide_eq_true (by omega)) ?_
  · obtain ⟨x, htake, hstep⟩ := decodePair_next (by omega) (by omega) (hmin k hk)
      ((pairValues (s ++ [0])).take k)
    refine ⟨decide_eq_true (by omega), wrap_of_lt (by omega), ?_⟩
    rw [← htake]
    exact hstep
  · exact decodePair_null (by omega) (by omega) hm _

/-- Without a zero a short string is read to its end. -/
theorem convertHexStrToStr_all (hshort : s.length < 2 ^ 32 - 1)
    (hne : ∀ k < 2 ^ 31, (pairValues (s ++ [0]))[k]? ≠ some 0) :
    convertHexStrToStr s = .ok (pairValues (s ++ [0])) := by
  have hlen := length_pairs s
  have hrun : convertHexStrToStr s =
      .ok ((pairValues (s ++ [0])).take (pairValues (s ++ [0])).length) := by
    refine loop_eq (fun k => 2 * k) (fun k => (pairValues (s ++ [0])).take k) (by omega)
      (fun k hk => ?_) (decide_eq_false (by omega)) (fun k hk => ?_)
    · exact ⟨decide_eq_true (by omega), wrap_of_lt (by omega)⟩
    · obtain ⟨x, htake, hstep⟩ := decodePair_next (by omega) (by omega) (hne k (by omega))
        ((pairValues (s ++ [0])).take k)
      rw [← htake]
      exact hstep
  rw [hrun, List.take_length]

/-- Without a zero the index wraps before a long string ends. -/
theorem convertHexStrToStr_wraps (hlong : 2 ^ 32 - 1 ≤ s.length)
    (hne : ∀ k < 2 ^ 31, (pairValues (s ++ [0]))[k]? ≠ some 0) :
    convertHexStrToStr s = .error .endless := by
  refine loop_endless (fun i _ => i % 2 = 0 ∧ i < 2 ^ 32) ?_ _ _ _ ⟨rfl, by decide⟩
  rintro i ret ⟨heven, hi⟩
  obtain ⟨k, rfl⟩ : ∃ k, i = 2 * k := ⟨i / 2, by omega⟩
  obtain ⟨x, -, hstep⟩ := decodePair_next (by omega) (by omega) (hne k (by omega)) ret
  refine ⟨decide_eq_true (by omega), _, hstep, ?_⟩
  simp only [wrap]
  omega

end decode

/-- **`convertHexStrToStr`** of any string: the bytes of its pairs up to the first
zero, the terminating null completing an odd one. From `2 ^ 32 - 1` characters on
the index wraps, and the loop ends only at a zero that comes before. -/
theorem convertHexStrToStr_outcome (s : Str) :
    convertHexStrToStr s =
      if s.length < 2 ^ 32 - 1 ∨ 0 ∈ (pairValues (s ++ [0])).take (2 ^ 31) then
        .ok ((pairValues (s ++ [0])).takeWhile (· ≠ 0))
      else .error .endless := by
  by_cases hzero : 0 ∈ (pairValues (s ++ [0])).take (2 ^ 31)
  · have hexists : ∃ k, (pairValues (s ++ [0]))[k]? = some (0 : UInt8) ∧ k < 2 ^ 31 := by
      obtain ⟨k, hk⟩ := List.mem_iff_getElem?.mp hzero
      obtain ⟨hlt, -⟩ := List.getElem?_eq_some_iff.mp hk
      rw [List.length_take] at hlt
      rw [List.getElem?_take_of_lt (by omega)] at hk
      exact ⟨k, hk, by omega⟩
    -- the first zero is where the loop is left
    obtain ⟨hm, hlt⟩ := Nat.find_spec hexists
    have hmin : ∀ k < Nat.find hexists, (pairValues (s ++ [0]))[k]? ≠ some 0 := fun k hk h =>
      Nat.find_min hexists hk ⟨h, hk.trans hlt⟩
    rw [if_pos (Or.inr hzero), convertHexStrToStr_stops hm hlt hmin, takeWhile_eq_take hmin hm]
  · have hne : ∀ k < 2 ^ 31, (pairValues (s ++ [0]))[k]? ≠ some 0 := by
      intro k hk h
      refine hzero (List.mem_of_getElem? (i := k) ?_)
      rw [List.getElem?_take_of_lt hk, h]
    by_cases hshort : s.length < 2 ^ 32 - 1
    · have hlen := length_pairs s
      have hall : (pairValues (s ++ [0])).takeWhile (· ≠ 0) = pairValues (s ++ [0]) := by
        rw [List.takeWhile_eq_self_iff]
        intro x hx
        obtain ⟨k, hk⟩ := List.mem_iff_getElem?.mp hx
        obtain ⟨hlt, -⟩ := List.getElem?_eq_some_iff.mp hk
        simpa using fun h : x = 0 => hne k (by omega) (h ▸ hk)
      rw [if_pos (Or.inl hshort), convertHexStrToStr_all hshort hne, hall]
    · rw [if_neg (not_or.mpr ⟨hshort, hzero⟩), convertHexStrToStr_wraps (by omega) hne]

end AES

end SimpleVpn
