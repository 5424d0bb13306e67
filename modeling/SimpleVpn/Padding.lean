import Mathlib.Data.List.Basic

/-!
# Windows of a list and PKCS #7 padding

Two things every block cipher's message format needs, over lists of any
length and any window size. Nothing here names a particular program.

* `window n l j` — the `j`-th window of `n` entries, shorter than `n` only at
  the end of the list; `windowCount n l` is their number, and their
  concatenation is the list (`flatten_windows`).
* `PadSuffix l k` — the last `k` bytes of `l` are all equal to `k`. At most one
  `k` qualifies (`PadSuffix.unique`), because the last byte is `k`; so reading
  the last byte (`unpad`) and searching for a suffix find the same padding.
-/

namespace Padding

variable {α : Type*}

/-! ## Windows -/

/-- The `j`-th window of `n` entries of `l`. -/
def window (n : ℕ) (l : List α) (j : ℕ) : List α := (l.drop (n * j)).take n

/-- The number of windows it takes to cover `l`: its length over `n`, rounded up. -/
def windowCount (n : ℕ) (l : List α) : ℕ := (l.length + (n - 1)) / n

/-- All windows, in order. -/
def windows (n : ℕ) (l : List α) : List (List α) :=
  (List.range (windowCount n l)).map (window n l)

theorem length_window (n : ℕ) (l : List α) (j : ℕ) :
    (window n l j).length = min n (l.length - n * j) := by
  simp [window]

/-- Cutting a list after window `k` leaves the windows before it. -/
theorem window_take (n : ℕ) (l : List α) {j k : ℕ} (h : j < k) :
    window n (l.take (n * k)) j = window n l j := by
  have hle : n ≤ n * k - n * j := by
    have hstep := Nat.mul_le_mul_left n h
    rw [Nat.mul_succ] at hstep
    omega
  rw [window, window, List.drop_take, List.take_take, Nat.min_eq_left hle]

/-- The first `j` windows cover the first `n * j` entries. -/
theorem flatten_window_take (n : ℕ) (l : List α) :
    ∀ j, ((List.range j).map (window n l)).flatten = l.take (n * j) := by
  intro j
  induction j with
  | zero => simp
  | succ j ih =>
    rw [List.range_succ, List.map_append, List.flatten_append, ih, Nat.mul_succ, List.take_add]
    simp [window]

/-- The windows of a list concatenate to it. -/
theorem flatten_windows {n : ℕ} (hn : 0 < n) (l : List α) : (windows n l).flatten = l := by
  rw [windows, flatten_window_take]
  apply List.take_of_length_le
  have h := Nat.lt_mul_div_succ (l.length + (n - 1)) hn
  rw [windowCount]
  rw [Nat.mul_add] at h
  omega

theorem mem_of_mem_windows {n : ℕ} {l w : List α} (hw : w ∈ windows n l) {a : α} (ha : a ∈ w) :
    a ∈ l := by
  obtain ⟨j, -, rfl⟩ := List.mem_map.mp hw
  exact List.mem_of_mem_drop (List.mem_of_mem_take ha)

/-- The windows of a concatenation of blocks of length `n` are the blocks. -/
theorem window_flatten {n : ℕ} :
    ∀ (bs : List (List α)), (∀ b ∈ bs, b.length = n) → ∀ j (hj : j < bs.length),
      window n bs.flatten j = bs[j] := by
  intro bs
  induction bs with
  | nil =>
    intro _ j hj
    simp at hj
  | cons b bs ih =>
    intro hb j hj
    have hbn : b.length = n := hb b (List.mem_cons_self ..)
    cases j with
    | zero => simp [window, ← hbn]
    | succ j =>
      have hrest := ih (fun c hc => hb c (List.mem_cons_of_mem _ hc)) j (by simpa using hj)
      rw [List.getElem_cons_succ, ← hrest, window, window, List.flatten_cons, Nat.mul_succ,
        Nat.add_comm, ← hbn, List.drop_length_add_append]

/-! ## PKCS #7 -/

/-- The last `k` bytes of `l` are all equal to `k`. -/
def PadSuffix (l : List UInt8) (k : ℕ) : Prop :=
  1 ≤ k ∧ k ≤ l.length ∧ l.drop (l.length - k) = List.replicate k (UInt8.ofNat k)

instance (l : List UInt8) (k : ℕ) : Decidable (PadSuffix l k) :=
  inferInstanceAs (Decidable (_ ∧ _ ∧ _))

/-- Fill a short block up to `n` bytes, with bytes equal to the number missing. -/
def pad (n : ℕ) (l : List UInt8) : List UInt8 :=
  l ++ List.replicate (n - l.length) (UInt8.ofNat (n - l.length))

/-- Remove the padding that the last byte announces, if it is there. -/
def unpad (l : List UInt8) : List UInt8 :=
  let k := (l.getLastD 0).toNat
  if PadSuffix l k then l.take (l.length - k) else l

theorem length_pad {n : ℕ} {l : List UInt8} (h : l.length ≤ n) : (pad n l).length = n := by
  simp [pad, h]

/-- A full block is padded with nothing. -/
theorem pad_of_length_eq {n : ℕ} {l : List UInt8} (h : l.length = n) : pad n l = l := by
  simp [pad, h]

/-- For a full block the fill byte does not matter. -/
theorem pad_eq_append {n : ℕ} {l : List UInt8} {d : UInt8}
    (hd : l.length ≠ n → d = UInt8.ofNat (n - l.length)) :
    pad n l = l ++ List.replicate (n - l.length) d := by
  by_cases hfull : l.length = n
  · rw [pad, hfull, Nat.sub_self]
    rfl
  · rw [pad, hd hfull]

/-- Padding, entry by entry. -/
theorem padSuffix_iff {l : List UInt8} {k : ℕ} : PadSuffix l k ↔ 1 ≤ k ∧ k ≤ l.length ∧
    ∀ m, l.length - k ≤ m → m < l.length → l[m]? = some (UInt8.ofNat k) := by
  refine and_congr_right fun _ => and_congr_right fun hk => ?_
  refine ⟨?_, ?_⟩
  · intro hd m h₁ h₂
    have hm : (l.drop (l.length - k))[m - (l.length - k)]? = l[m]? := by
      rw [List.getElem?_drop, Nat.add_sub_cancel' h₁]
    rw [← hm, hd, List.getElem?_replicate_of_lt (by omega)]
  · intro h
    refine List.eq_replicate_iff.mpr ⟨by rw [List.length_drop]; omega, fun b hb => ?_⟩
    obtain ⟨m, hm, rfl⟩ := List.mem_iff_getElem.mp hb
    rw [List.length_drop] at hm
    have hb := h (l.length - k + m) (by omega) (by omega)
    rw [List.getElem_drop]
    rwa [List.getElem?_eq_getElem, Option.some.injEq] at hb

/-- Padding is announced by the last byte. -/
theorem PadSuffix.getLastD {l : List UInt8} {k : ℕ} (h : PadSuffix l k) (hl : l.length < 256) :
    (l.getLastD 0).toNat = k := by
  obtain ⟨h1, hk, hd⟩ := h
  obtain ⟨m, rfl⟩ : ∃ m, k = m + 1 := ⟨k - 1, by omega⟩
  have hsplit : l =
      l.take (l.length - (m + 1)) ++ List.replicate (m + 1) (UInt8.ofNat (m + 1)) := by
    rw [← hd, List.take_append_drop]
  rw [hsplit, List.replicate_succ', ← List.append_assoc, List.getLastD_concat]
  simp
  omega

theorem unpad_of_padSuffix {l : List UInt8} {k : ℕ} (h : PadSuffix l k) (hl : l.length < 256) :
    unpad l = l.take (l.length - k) := by
  have hk := h.getLastD hl
  rw [unpad, hk, if_pos h]

theorem unpad_of_forall_not {l : List UInt8} (h : ∀ k, ¬ PadSuffix l k) : unpad l = l :=
  if_neg (h _)

/-- Nothing is removed exactly when no suffix is padding. -/
theorem unpad_eq_self_iff {l : List UInt8} (hl : l.length < 256) :
    unpad l = l ↔ ∀ k, ¬ PadSuffix l k := by
  refine ⟨?_, ?_⟩
  · intro h k hk
    have hlen := congrArg List.length h
    rw [unpad_of_padSuffix hk hl, List.length_take] at hlen
    obtain ⟨h1, h2, -⟩ := hk
    omega
  · exact unpad_of_forall_not

/-- Only the end of a list is ever removed. -/
theorem unpad_isPrefixOf (l : List UInt8) : unpad l <+: l := by
  by_cases h : PadSuffix l (l.getLastD 0).toNat
  · rw [unpad, if_pos h]
    exact List.take_prefix _ _
  · have hself : unpad l = l := if_neg h
    exact ⟨[], by rw [hself, List.append_nil]⟩

/-- A padded short block ends in its padding. -/
theorem padSuffix_pad {n : ℕ} {l : List UInt8} (h : l.length < n) :
    PadSuffix (pad n l) (n - l.length) := by
  refine ⟨by omega, by rw [length_pad (by omega)]; omega, ?_⟩
  rw [length_pad (by omega), Nat.sub_sub_self (by omega), pad, List.drop_left]

/-- Padding a short block and removing the padding gives the block back. -/
theorem unpad_pad {n : ℕ} {l : List UInt8} (h : l.length < n) (hn : n < 256) :
    unpad (pad n l) = l := by
  rw [unpad_of_padSuffix (padSuffix_pad h) (by rw [length_pad (by omega)]; exact hn),
    length_pad (by omega), Nat.sub_sub_self (by omega), pad, List.take_left]

/-- Bytes that are all larger than the list is long cannot be padding. -/
theorem not_padSuffix_of_lt {l : List UInt8} (h : ∀ b ∈ l, l.length < b.toNat) (k : ℕ) :
    ¬ PadSuffix l k := by
  rintro ⟨h1, hk, hd⟩
  have hmem : UInt8.ofNat k ∈ l := by
    refine List.mem_of_mem_drop (i := l.length - k) ?_
    rw [hd]
    exact List.mem_replicate.mpr ⟨by omega, rfl⟩
  have hlt := h _ hmem
  have hle : (UInt8.ofNat k).toNat ≤ k := by
    rw [UInt8.toNat_ofNat']
    exact Nat.mod_le _ _
  omega

/-- Cutting windows back to prefixes makes a message no longer. -/
theorem length_flatMap_prefix_le {f : List α → List α} (hf : ∀ w, f w <+: w)
    (ws : List (List α)) : (ws.flatMap f).length ≤ ws.flatten.length := by
  induction ws with
  | nil => exact Nat.le_refl _
  | cons w ws ih =>
    rw [List.flatMap_cons, List.flatten_cons, List.length_append, List.length_append]
    exact Nat.add_le_add (hf w).length_le ih

/-- A message whose windows are cut back to prefixes is unchanged exactly when
no window is. -/
theorem flatMap_prefix_eq_flatten {f : List α → List α} (hf : ∀ w, f w <+: w) :
    ∀ ws : List (List α), ws.flatMap f = ws.flatten ↔ ∀ w ∈ ws, f w = w := by
  intro ws
  induction ws with
  | nil => simp
  | cons w ws ih =>
    rw [List.flatMap_cons, List.flatten_cons, List.forall_mem_cons, ← ih]
    refine ⟨?_, ?_⟩
    · intro h
      have hw : f w = w := by
        have htotal := congrArg List.length h
        rw [List.length_append, List.length_append] at htotal
        have hle := length_flatMap_prefix_le hf ws
        exact (hf w).eq_of_length (by have := (hf w).length_le; omega)
      refine ⟨hw, ?_⟩
      rw [hw] at h
      exact List.append_cancel_left h
    · rintro ⟨hw, hws⟩
      rw [hw, hws]

/-! ## Messages -/

/-- Fill every window of a message; only the last one can be short. -/
def padMessage (n : ℕ) (l : List UInt8) : List UInt8 := (windows n l).flatMap (pad n)

/-- Full windows are not filled. -/
theorem flatMap_pad_window {n : ℕ} (l : List UInt8) {q : ℕ} (hq : n * q ≤ l.length) :
    ((List.range q).map (window n l)).flatMap (pad n) = l.take (n * q) := by
  rw [← flatten_window_take, List.flatMap_map, ← List.flatMap_def]
  refine List.flatMap_congr fun j hj => pad_of_length_eq ?_
  have hstep := Nat.mul_le_mul_left n (List.mem_range.mp hj)
  rw [Nat.mul_succ] at hstep
  rw [length_window]
  omega

/-- **A padded message** is the message and, unless it is a multiple of `n` bytes
long, the padding of its last window. -/
theorem padMessage_eq {n : ℕ} (hn : 0 < n) (l : List UInt8) :
    padMessage n l = l ++ List.replicate ((n - l.length % n) % n)
      (UInt8.ofNat ((n - l.length % n) % n)) := by
  have hlt := Nat.mod_lt l.length hn
  have hdiv := Nat.div_add_mod l.length n
  have hfull := flatMap_pad_window l (Nat.mul_div_le l.length n)
  rw [padMessage, windows, windowCount]
  rcases Nat.eq_zero_or_pos (l.length % n) with hzero | hpos
  · have hcount : (l.length + (n - 1)) / n = l.length / n :=
      Nat.div_eq_of_lt_le (by rw [Nat.mul_comm]; omega)
        (by rw [Nat.succ_mul, Nat.mul_comm]; omega)
    have hlen : n * (l.length / n) = l.length := by omega
    rw [hcount, hfull, hlen, List.take_length, hzero, Nat.sub_zero, Nat.mod_self]
    exact (List.append_nil l).symm
  · have hcount : (l.length + (n - 1)) / n = l.length / n + 1 :=
      Nat.div_eq_of_lt_le (by rw [Nat.succ_mul, Nat.mul_comm]; omega)
        (by rw [Nat.succ_mul, Nat.succ_mul, Nat.mul_comm]; omega)
    have hrest : (l.drop (n * (l.length / n))).length = l.length % n := by
      rw [List.length_drop]
      omega
    have hlast : window n l (l.length / n) = l.drop (n * (l.length / n)) :=
      List.take_of_length_le (by omega)
    have hfill : (n - l.length % n) % n = n - l.length % n := Nat.mod_eq_of_lt (by omega)
    rw [hcount, List.range_succ, List.map_append, List.flatMap_append, hfull, List.map_singleton,
      List.flatMap_singleton, hlast, pad, hrest, hfill, ← List.append_assoc, List.take_append_drop]

/-- Whole windows need no padding. -/
theorem padMessage_of_mod_eq_zero {n : ℕ} (hn : 0 < n) {l : List UInt8} (h : l.length % n = 0) :
    padMessage n l = l := by
  rw [padMessage_eq hn, h, Nat.sub_zero, Nat.mod_self]
  exact List.append_nil l

/-- Padding adds nothing between the parts of a message, if the first one is of
whole windows. -/
theorem padMessage_append {n : ℕ} (hn : 0 < n) {l : List UInt8} (h : l.length % n = 0)
    (l' : List UInt8) : padMessage n (l ++ l') = padMessage n l ++ padMessage n l' := by
  have hmod : (l ++ l').length % n = l'.length % n := by
    rw [List.length_append, Nat.add_mod, h, Nat.zero_add, Nat.mod_mod]
  rw [padMessage_of_mod_eq_zero hn h, padMessage_eq hn, padMessage_eq hn, hmod, List.append_assoc]

theorem length_padMessage_mod {n : ℕ} (hn : 0 < n) (l : List UInt8) :
    (padMessage n l).length % n = 0 := by
  have hlt := Nat.mod_lt l.length hn
  have hdiv := Nat.div_add_mod l.length n
  rcases Nat.eq_zero_or_pos (l.length % n) with hzero | hpos
  · rwa [padMessage_of_mod_eq_zero hn hzero]
  · have hfill : (n - l.length % n) % n = n - l.length % n := Nat.mod_eq_of_lt (by omega)
    have hlen : l.length + (n - l.length % n) = n * (l.length / n + 1) := by
      rw [Nat.mul_succ]
      omega
    rw [padMessage_eq hn, hfill, List.length_append, List.length_replicate, hlen,
      Nat.mul_mod_right]

theorem getLastD_append_replicate {l : List α} {k : ℕ} (hk : 0 < k) (x d : α) :
    (l ++ List.replicate k x).getLastD d = x := by
  obtain ⟨m, rfl⟩ := Nat.exists_eq_succ_of_ne_zero (Nat.ne_of_gt hk)
  rw [List.replicate_succ', ← List.append_assoc, List.getLastD_concat]

/-- Where two messages become the same by padding: one of them is the other,
padded. -/
theorem padMessage_eq_iff {n : ℕ} (hn : 0 < n) (hn' : n < 256) {l l' : List UInt8} :
    padMessage n l = padMessage n l' ↔ l = l' ∨ l = padMessage n l' ∨ l' = padMessage n l := by
  refine ⟨?_, ?_⟩
  · intro h
    have heq := h
    rw [padMessage_eq hn l, padMessage_eq hn l'] at heq
    have hk := Nat.mod_lt (n - l.length % n) hn
    have hk' := Nat.mod_lt (n - l'.length % n) hn
    generalize hfill : (n - l.length % n) % n = k at heq hk
    generalize hfill' : (n - l'.length % n) % n = k' at heq hk'
    rcases Nat.eq_zero_or_pos k with rfl | hpos
    · refine Or.inr (Or.inl ?_)
      rw [← h, padMessage_eq hn, hfill]
      exact (List.append_nil l).symm
    rcases Nat.eq_zero_or_pos k' with rfl | hpos'
    · refine Or.inr (Or.inr ?_)
      rw [h, padMessage_eq hn, hfill']
      exact (List.append_nil l').symm
    · -- both end in their padding, whose last byte is its length
      have hlast := congrArg (fun v => (List.getLastD v 0).toNat) heq
      simp only [getLastD_append_replicate hpos, getLastD_append_replicate hpos',
        UInt8.toNat_ofNat'] at hlast
      obtain rfl : k = k' := by omega
      exact Or.inl (List.append_cancel_right heq)
  · rintro (rfl | h | h)
    · rfl
    · rw [h, padMessage_of_mod_eq_zero hn (length_padMessage_mod hn l')]
    · rw [h, padMessage_of_mod_eq_zero hn (length_padMessage_mod hn l)]

theorem length_flatten_of_forall {n : ℕ} {ws : List (List α)} (h : ∀ w ∈ ws, w.length = n) :
    ws.flatten.length = n * ws.length := by
  induction ws with
  | nil => rfl
  | cons w ws ih =>
    obtain ⟨hw, hws⟩ := List.forall_mem_cons.mp h
    rw [List.flatten_cons, List.length_append, hw, ih hws, List.length_cons, Nat.mul_succ,
      Nat.add_comm]

/-- What the last block loses is what padding adds: if stripping every block and
padding the rest gives the blocks back, then at the end. -/
theorem length_unpad_of_padMessage {n : ℕ} (hn : 0 < n) (hn' : n < 256)
    {init : List (List UInt8)} {b : List UInt8} (hinit : ∀ w ∈ init, w.length = n)
    (hb : b.length = n)
    (h : padMessage n (init.flatMap unpad ++ unpad b) = init.flatten ++ b) :
    (init.flatMap unpad).length = init.flatten.length ∧ ¬PadSuffix b n := by
  have hf := length_flatten_of_forall hinit
  have hle := length_flatMap_prefix_le unpad_isPrefixOf init
  have hu := (unpad_isPrefixOf b).length_le
  rw [padMessage_eq hn] at h
  obtain ⟨k, hk⟩ : ∃ k, k = (n - (init.flatMap unpad ++ unpad b).length % n) % n := ⟨_, rfl⟩
  have hkn : k < n := hk ▸ Nat.mod_lt _ hn
  rw [← hk] at h
  have hlen := congrArg List.length h
  simp only [List.length_append, List.length_replicate] at hlen
  rcases Nat.eq_zero_or_pos k with hzero | hpos
  · -- nothing was added, so nothing was lost
    have hself : unpad b = b := (unpad_isPrefixOf b).eq_of_length (by omega)
    exact ⟨by omega, (unpad_eq_self_iff (by omega)).mp hself n⟩
  · have hdrop := congrArg (List.drop (init.flatMap unpad ++ unpad b).length) h
    have hstart : (init.flatMap unpad ++ unpad b).length = init.flatten.length + (n - k) := by
      rw [List.length_append]
      omega
    rw [List.drop_left, hstart, List.drop_length_add_append, ← hb] at hdrop
    have hpad : PadSuffix b k := ⟨hpos, by omega, hdrop.symm⟩
    have hlost := congrArg List.length (unpad_of_padSuffix hpad (by omega))
    rw [List.length_take] at hlost
    refine ⟨by omega, fun hall => ?_⟩
    have hsame := (hpad.getLastD (by omega)).symm.trans (hall.getLastD (by omega))
    omega

/-- **Stripping every block and padding the rest** gives the blocks back exactly
if no block but the last ends like padding, and the last is not all padding. -/
theorem padMessage_strip_iff {n : ℕ} (hn : 0 < n) (hn' : n < 256) {init : List (List UInt8)}
    {b : List UInt8} (hinit : ∀ w ∈ init, w.length = n) (hb : b.length = n) :
    padMessage n (init.flatMap unpad ++ unpad b) = init.flatten ++ b ↔
      (∀ w ∈ init, ∀ k, ¬PadSuffix w k) ∧ ¬PadSuffix b n := by
  have hself : init.flatMap unpad = init.flatten ↔ ∀ w ∈ init, ∀ k, ¬PadSuffix w k := by
    rw [flatMap_prefix_eq_flatten unpad_isPrefixOf]
    exact forall₂_congr fun w hw => unpad_eq_self_iff (hinit w hw ▸ hn')
  have hf := length_flatten_of_forall hinit
  rw [← hself]
  refine ⟨?_, ?_⟩
  · intro h
    obtain ⟨hlen, hlast⟩ := length_unpad_of_padMessage hn hn' hinit hb h
    rw [padMessage_eq hn, List.append_assoc] at h
    exact ⟨(List.append_inj h hlen).1, hlast⟩
  · rintro ⟨hsame, hlast⟩
    rw [hsame]
    by_cases hpad : ∃ k, PadSuffix b k
    · obtain ⟨k, hk⟩ := hpad
      have hkn : k < n := Nat.lt_of_le_of_ne (hb ▸ hk.2.1) fun h => hlast (h ▸ hk)
      have hk1 := hk.1
      have hu := unpad_of_padSuffix hk (hb ▸ hn')
      have hlen : (unpad b).length = n - k := by
        rw [hu, List.length_take]
        omega
      have hmod : (init.flatten ++ unpad b).length % n = n - k := by
        rw [List.length_append, hf, hlen, Nat.mul_add_mod, Nat.mod_eq_of_lt (by omega)]
      rw [padMessage_eq hn, hmod, Nat.sub_sub_self (Nat.le_of_lt hkn), Nat.mod_eq_of_lt hkn,
        List.append_assoc, hu, ← hk.2.2, List.take_append_drop]
    · have hu := unpad_of_forall_not (not_exists.mp hpad)
      have hmod : (init.flatten ++ b).length % n = 0 := by
        rw [List.length_append, hf, hb, ← Nat.mul_succ, Nat.mul_mod_right]
      rw [hu, padMessage_of_mod_eq_zero hn hmod]

end Padding
