import SimpleVpn.AesCipher

/-!
# Key expansion

`expandKey` fills a vector of `nround + 1` round keys word by word: the first
`nkey` words are the cipher key, each later one is the word `nkey` places
before it plus a transformed copy of the word just before it. The loop holds
its byte offsets in `uint8_t`s; for every key size they stay below 256, so the
loop computes the recurrence `schedule` (`expandKey_eq`). A cipher key that is
empty, which is how the hex decoder reports a bad digit, is read out of bounds
(`expandKey_nil`).
-/

namespace SimpleVpn

open Exec

/-- Four bytes of a key schedule. -/
structure Word : Type where
  b0 : UInt8
  b1 : UInt8
  b2 : UInt8
  b3 : UInt8
  deriving DecidableEq

namespace AES

/-! ## The code -/

/-- The block of `_expandKey` under `i % Nkey_ == 0`. -/
def rotSubRcon (aes : AES) (i : ℕ) (w : Word) : Exec Word := do
  -- rotate, substitute, add the round constant
  let w0 ← mappingSBox w.b1
  let w1 ← mappingSBox w.b2
  let w2 ← mappingSBox w.b3
  let w3 ← mappingSBox w.b0
  return ⟨w0 ^^^ (← load rcon (i / aes.nkey)), w1, w2, w3⟩

/-- The block of `_expandKey` under `i % Nkey_ == 4`, for 256-bit keys. -/
def subWord (w : Word) : Exec Word := do
  let w0 ← mappingSBox w.b0
  let w1 ← mappingSBox w.b1
  let w2 ← mappingSBox w.b2
  let w3 ← mappingSBox w.b3
  return ⟨w0, w1, w2, w3⟩

/-- What `_expandKey` does to the copy `Wi_1` of the previous word. -/
def transformWord (aes : AES) (i : ℕ) (w : Word) : Exec Word := do
  let w ← if i % aes.nkey = 0 then rotSubRcon aes i w else pure w
  if aes.nkey = 8 ∧ i % aes.nkey = 4 then subWord w else pure w

/-- The first loop of `_expandKey`: copy word `i` of the cipher key. -/
def copyKeyWord (cipherKey : Bytes) (i : ℕ) (roundKey : Bytes) : Exec Bytes := do
  let roundKey ← store roundKey (i * Ncol + 0) (← load cipherKey (i * Ncol + 0))
  let roundKey ← store roundKey (i * Ncol + 1) (← load cipherKey (i * Ncol + 1))
  let roundKey ← store roundKey (i * Ncol + 2) (← load cipherKey (i * Ncol + 2))
  store roundKey (i * Ncol + 3) (← load cipherKey (i * Ncol + 3))

/-- `i_1`: the byte offset of word `i - 1`, in a `uint8_t`. -/
def offset1 (i : ℕ) : ℕ := wrap 8 ((i - 1) * 4)

/-- `i_4`: the byte offset of word `i - Nkey_`, in a `uint8_t`. -/
def offset4 (aes : AES) (i : ℕ) : ℕ := wrap 8 ((i - aes.nkey) * 4)

/-- The second loop of `_expandKey`: compute word `i`. -/
def expandKeyWord (aes : AES) (i : ℕ) (roundKey : Bytes) : Exec Bytes := do
  let i_1 := offset1 i
  let w0 ← load roundKey (i_1 + 0)
  let w1 ← load roundKey (i_1 + 1)
  let w2 ← load roundKey (i_1 + 2)
  let w3 ← load roundKey (i_1 + 3)
  let w ← transformWord aes i ⟨w0, w1, w2, w3⟩
  let i_4 := offset4 aes i
  let roundKey ← store roundKey (i * Ncol + 0) ((← load roundKey (i_4 + 0)) ^^^ w.b0)
  let roundKey ← store roundKey (i * Ncol + 1) ((← load roundKey (i_4 + 1)) ^^^ w.b1)
  let roundKey ← store roundKey (i * Ncol + 2) ((← load roundKey (i_4 + 2)) ^^^ w.b2)
  store roundKey (i * Ncol + 3) ((← load roundKey (i_4 + 3)) ^^^ w.b3)

/-- `_expandKey`. -/
def expandKey (aes : AES) (cipherKey : Bytes) : Exec Bytes := do
  let roundKey ← forUp 8 0 aes.nkey (List.replicate (Nstate * (aes.nround + 1)) 0)
    (copyKeyWord cipherKey)
  forUp 8 aes.nkey (Ncol * (aes.nround + 1)) roundKey (expandKeyWord aes)

/-! ## The recurrence -/

/-- Word `k` of a vector. -/
def wordAt (v : Bytes) (k : ℕ) : Word :=
  ⟨v.getD (k * 4 + 0) 0, v.getD (k * 4 + 1) 0, v.getD (k * 4 + 2) 0, v.getD (k * 4 + 3) 0⟩

/-- The vector with word `k` overwritten. -/
def setWord (v : Bytes) (k : ℕ) (w : Word) : Bytes :=
  (((v.set (k * 4 + 0) w.b0).set (k * 4 + 1) w.b1).set (k * 4 + 2) w.b2).set (k * 4 + 3) w.b3

/-- Sum of two words. -/
def addWord (v w : Word) : Word :=
  ⟨v.b0 ^^^ w.b0, v.b1 ^^^ w.b1, v.b2 ^^^ w.b2, v.b3 ^^^ w.b3⟩

/-- What is added to the word `nkey` places back, from the word just before. -/
def scheduleCore (nkey i : ℕ) (w : Word) : Word :=
  if i % nkey = 0 then
    ⟨sub w.b1 ^^^ rcon.getD (i / nkey) 0, sub w.b2, sub w.b3, sub w.b0⟩
  else if nkey = 8 ∧ i % nkey = 4 then
    ⟨sub w.b0, sub w.b1, sub w.b2, sub w.b3⟩
  else w

/-- The key schedule as a recurrence on words, from the words of the cipher key. -/
def schedule (nkey : ℕ) (key : ℕ → Word) (i : ℕ) : Word :=
  if i < nkey ∨ nkey = 0 then key i
  else addWord (schedule nkey key (i - nkey))
    (scheduleCore nkey i (schedule nkey key (i - 1)))
termination_by i
decreasing_by all_goals omega

theorem schedule_of_lt {nkey i : ℕ} (key : ℕ → Word) (h : i < nkey) :
    schedule nkey key i = key i := by
  rw [schedule, if_pos (Or.inl h)]

theorem schedule_of_le {nkey i : ℕ} (key : ℕ → Word) (h0 : 0 < nkey) (h : nkey ≤ i) :
    schedule nkey key i = addWord (schedule nkey key (i - nkey))
      (scheduleCore nkey i (schedule nkey key (i - 1))) := by
  rw [schedule, if_neg (by omega)]

@[simp] theorem length_setWord (v : Bytes) (k : ℕ) (w : Word) :
    (setWord v k w).length = v.length := by
  simp [setWord]

theorem wordAt_setWord_self {v : Bytes} {k : ℕ} (h : k * 4 + 3 < v.length) (w : Word) :
    wordAt (setWord v k w) k = w := by
  simp [wordAt, setWord, List.getD, h, show k * 4 < v.length by omega,
    show k * 4 + 1 < v.length by omega, show k * 4 + 2 < v.length by omega]

theorem wordAt_setWord_ne {v : Bytes} {k j : ℕ} (h : j ≠ k) (w : Word) :
    wordAt (setWord v k w) j = wordAt v j := by
  simp (disch := omega) only [wordAt, setWord, List.getD, List.getElem?_set_ne]

/-! ## The code computes the recurrence -/

variable {aes : AES}

/-- The round-constant index stays inside the 11-entry table. -/
theorem rcon_index_lt {i : ℕ} (hi : i < 4 * (aes.nround + 1)) : i / aes.nkey < rcon.length := by
  have hr := aes.nround_eq
  have hlen : rcon.length = 11 := rfl
  rw [hlen]
  rcases aes.nkey_mem with h | h | h <;> rw [h] at hr ⊢ <;> omega

theorem rotSubRcon_eq {i : ℕ} (hi : i < 4 * (aes.nround + 1)) (w : Word) :
    rotSubRcon aes i w =
      .ok ⟨sub w.b1 ^^^ rcon.getD (i / aes.nkey) 0, sub w.b2, sub w.b3, sub w.b0⟩ := by
  simp only [rotSubRcon, mappingSBox_eq, ok_bind, load_getD (rcon_index_lt hi) 0, pure_eq_ok]

theorem subWord_eq (w : Word) :
    subWord w = .ok ⟨sub w.b0, sub w.b1, sub w.b2, sub w.b3⟩ := by
  simp only [subWord, mappingSBox_eq, ok_bind, pure_eq_ok]

theorem transformWord_eq {i : ℕ} (hi : i < 4 * (aes.nround + 1)) (w : Word) :
    transformWord aes i w = .ok (scheduleCore aes.nkey i w) := by
  rw [transformWord, scheduleCore]
  by_cases h0 : i % aes.nkey = 0
  · have h4 : ¬(aes.nkey = 8 ∧ i % aes.nkey = 4) := by omega
    simp only [if_pos h0, if_neg h4, rotSubRcon_eq hi, ok_bind, pure_eq_ok]
  · by_cases h4 : aes.nkey = 8 ∧ i % aes.nkey = 4
    · simp only [if_neg h0, if_pos h4, subWord_eq, ok_bind, pure_eq_ok]
    · simp only [if_neg h0, if_neg h4, ok_bind, pure_eq_ok]

theorem copyKeyWord_eq {cipherKey roundKey : Bytes} {i : ℕ} (hr : i * 4 + 3 < roundKey.length)
    (hk : i * 4 + 3 < cipherKey.length) :
    copyKeyWord cipherKey i roundKey = .ok (setWord roundKey i (wordAt cipherKey i)) := by
  have hload : ∀ c, c ≤ 3 → load cipherKey (i * 4 + c) =
      .ok (cipherKey.getD (i * 4 + c) 0) := fun c hc => load_getD (by omega) 0
  have hstore : ∀ (v : Bytes) c x, v.length = roundKey.length → c ≤ 3 →
      store v (i * 4 + c) x = .ok (v.set (i * 4 + c) x) := fun v c x hv hc => store_ok (by omega) x
  simp (disch := simp) only [copyKeyWord, Ncol, hload, hstore, ok_bind]
  rfl

theorem offset1_eq {i : ℕ} (hi : i < 4 * (aes.nround + 1)) : offset1 i = (i - 1) * 4 := by
  have hle := nround_le aes
  exact wrap_of_lt (by omega)

theorem offset4_eq {i : ℕ} (hi : i < 4 * (aes.nround + 1)) :
    offset4 aes i = (i - aes.nkey) * 4 := by
  have hle := nround_le aes
  exact wrap_of_lt (by omega)

/-- One step of the expansion: no `uint8_t` offset wraps, and the word written
is the sum the recurrence asks for. -/
theorem expandKeyWord_eq {roundKey : Bytes} {i : ℕ} (hlen : roundKey.length = 16 * (aes.nround + 1))
    (hni : aes.nkey ≤ i) (hi : i < 4 * (aes.nround + 1)) :
    expandKeyWord aes i roundKey = .ok (setWord roundKey i
      (addWord (wordAt roundKey (i - aes.nkey))
        (scheduleCore aes.nkey i (wordAt roundKey (i - 1))))) := by
  have hle := nround_le aes
  have hnk := four_le_nkey aes
  have hload1 : ∀ c, c ≤ 3 → load roundKey ((i - 1) * 4 + c) =
      .ok (roundKey.getD ((i - 1) * 4 + c) 0) := fun c hc => load_getD (by omega) 0
  have hload4 : ∀ c, c ≤ 3 → load roundKey ((i - aes.nkey) * 4 + c) =
      .ok (roundKey.getD ((i - aes.nkey) * 4 + c) 0) := fun c hc => load_getD (by omega) 0
  -- the word written lies after the word read, so a store does not change a later load
  have hskip : ∀ (v : Bytes) c d x, c ≤ 3 → d ≤ 3 →
      load (v.set (i * 4 + c) x) ((i - aes.nkey) * 4 + d) = load v ((i - aes.nkey) * 4 + d) :=
    fun v c d x hc hd => load_set_ne (by omega) x
  have hstore : ∀ (v : Bytes) c x, v.length = roundKey.length → c ≤ 3 →
      store v (i * 4 + c) x = .ok (v.set (i * 4 + c) x) := fun v c x hv hc => store_ok (by omega) x
  have hcore : transformWord aes i
      ⟨roundKey.getD ((i - 1) * 4 + 0) 0, roundKey.getD ((i - 1) * 4 + 1) 0,
        roundKey.getD ((i - 1) * 4 + 2) 0, roundKey.getD ((i - 1) * 4 + 3) 0⟩ =
      .ok (scheduleCore aes.nkey i (wordAt roundKey (i - 1))) := transformWord_eq hi _
  simp (disch := simp) only [expandKeyWord, Ncol, offset1_eq hi, offset4_eq hi, hload1, ok_bind,
    hcore, hload4, hskip, hstore]
  rfl

/-- **Key expansion.** For a cipher key of `4 * nkey` bytes it returns
`16 * (nround + 1)` bytes whose words follow the recurrence. -/
theorem expandKey_eq {cipherKey : Bytes} (hkey : cipherKey.length = 4 * aes.nkey) :
    ∃ roundKey, expandKey aes cipherKey = .ok roundKey ∧
      roundKey.length = 16 * (aes.nround + 1) ∧
      ∀ k, k < 4 * (aes.nround + 1) →
        wordAt roundKey k = schedule aes.nkey (wordAt cipherKey) k := by
  have hle := nround_le aes
  have hr := aes.nround_eq
  have hnk := four_le_nkey aes
  -- after word `i`, the words before it are those of the schedule
  let P : ℕ → Bytes → Prop := fun i v => v.length = 16 * (aes.nround + 1) ∧
    ∀ k, k < i → wordAt v k = schedule aes.nkey (wordAt cipherKey) k
  have hset : ∀ i v, P i v → i < 4 * (aes.nround + 1) → ∀ w,
      w = schedule aes.nkey (wordAt cipherKey) i → P (i + 1) (setWord v i w) := by
    rintro i v ⟨hlen, hv⟩ hi w rfl
    refine ⟨by rw [length_setWord, hlen], fun k hk => ?_⟩
    rcases Nat.lt_succ_iff_lt_or_eq.mp hk with hlt | rfl
    · rw [wordAt_setWord_ne (by omega), hv k hlt]
    · exact wordAt_setWord_self (by omega) _
  obtain ⟨v, hv, hPv⟩ : ∃ v, forUp 8 0 aes.nkey (List.replicate (Nstate * (aes.nround + 1)) 0)
      (copyKeyWord cipherKey) = .ok v ∧ P aes.nkey v := by
    refine forUp_inv P (Nat.zero_le _) (by omega) ?_ ⟨List.length_replicate, fun k hk => by omega⟩
    intro i t _ hi hPt
    exact ⟨_, copyKeyWord_eq (by have := hPt.1; omega) (by omega),
      hset i t hPt (by omega) _ (schedule_of_lt _ hi).symm⟩
  obtain ⟨u, hu, hPu⟩ : ∃ u, forUp 8 aes.nkey (Ncol * (aes.nround + 1)) v (expandKeyWord aes) =
      .ok u ∧ P (Ncol * (aes.nround + 1)) u := by
    refine forUp_inv P (by simp only [Ncol]; omega) (by simp only [Ncol]; omega) ?_ hPv
    intro i t hni hi hPt
    refine ⟨_, expandKeyWord_eq hPt.1 hni hi, hset i t hPt hi _ ?_⟩
    rw [schedule_of_le _ (by omega) hni, hPt.2 _ (by omega), hPt.2 _ (by omega)]
  refine ⟨u, ?_, hPu⟩
  rw [expandKey, hv, ok_bind, hu]

/-- The bytes of a word. -/
def wordBytes (w : Word) : Bytes := [w.b0, w.b1, w.b2, w.b3]

/-- A vector is its words, one after the other. -/
theorem flatMap_wordAt : ∀ {m : ℕ} {v : Bytes}, v.length = 4 * m →
    (List.range m).flatMap (fun k => wordBytes (wordAt v k)) = v := by
  intro m
  induction m with
  | zero =>
    intro v hv
    exact (List.eq_nil_of_length_eq_zero hv).symm
  | succ m ih =>
    intro v hv
    match v, hv with
    | a :: b :: c :: d :: v, hv =>
      have hv' : v.length = 4 * m := by
        simp only [List.length_cons] at hv
        omega
      have htail : ∀ k, wordAt (a :: b :: c :: d :: v) (k + 1) = wordAt v k := by
        intro k
        have h4 : (k + 1) * 4 = k * 4 + 4 := Nat.succ_mul k 4
        rw [wordAt, h4]
        rfl
      rw [List.range_succ_eq_map, List.flatMap_cons, List.flatMap_map]
      simp only [htail]
      rw [ih hv']
      rfl

/-- The key schedule of a cipher key as a vector. -/
def scheduleBytes (aes : AES) (cipherKey : Bytes) : Bytes :=
  (List.range (4 * (aes.nround + 1))).flatMap fun k =>
    wordBytes (schedule aes.nkey (wordAt cipherKey) k)

/-- Key expansion returns the key schedule. -/
theorem expandKey_schedule {cipherKey : Bytes} (hkey : cipherKey.length = 4 * aes.nkey) :
    expandKey aes cipherKey = .ok (scheduleBytes aes cipherKey) ∧
      (scheduleBytes aes cipherKey).length = 16 * (aes.nround + 1) := by
  obtain ⟨roundKey, hrun, hlen, hwords⟩ := expandKey_eq hkey
  have heq : scheduleBytes aes cipherKey = roundKey := by
    rw [← flatMap_wordAt (v := roundKey) (m := 4 * (aes.nround + 1)) (by omega)]
    refine List.flatMap_congr fun k hk => ?_
    rw [hwords k (List.mem_range.mp hk)]
  rw [heq]
  exact ⟨hrun, hlen⟩

/-- An empty cipher key is read out of bounds. -/
theorem expandKey_nil : expandKey aes [] = .error .outOfBounds := by
  have hnk : 0 < aes.nkey := Nat.lt_of_lt_of_le (by decide) (four_le_nkey aes)
  have hfirst : copyKeyWord [] 0 (List.replicate (Nstate * (aes.nround + 1)) 0) =
      .error .outOfBounds := by
    rw [copyKeyWord, load_error (Nat.zero_le _), error_bind]
  rw [expandKey, forUp_fault_first hnk hfirst, error_bind]

end AES

end SimpleVpn
