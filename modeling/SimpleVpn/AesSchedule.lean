import SimpleVpn.AesFips

/-!
# Round keys and the cipher key

What the round keys tell about the cipher key. The recurrence of `_expandKey`
adds a word to the one `nkey` places before it, so it can be run backwards: any
`nkey` words in a row, wherever they are, determine the cipher key
(`expandKey_window_iff`). For a key of 128 bits that is any one round key.
-/

namespace SimpleVpn

open Exec BlockCipher

namespace AES

variable {aes : AES}

/-! ## The recurrence, backwards -/

theorem addWord_right_injective (w : Word) : Function.Injective fun v => addWord v w := by
  rintro ⟨a, b, c, d⟩ ⟨a', b', c', d'⟩ h
  simpa [addWord] using h

/-- The key schedule recurs. -/
theorem recurs_schedule {nkey : ℕ} (hpos : 0 < nkey) (bound : ℕ) (key : ℕ → Word) :
    Recurs nkey bound (fun i u v => addWord v (scheduleCore nkey i u)) (schedule nkey key) :=
  fun _ hle _ => schedule_of_le key hpos hle

/-- Word `j` of a window of words. -/
theorem wordAt_window (v : Bytes) (i : ℕ) {n j : ℕ} (hj : j < n) :
    wordAt ((v.drop (4 * i)).take (4 * n)) j = wordAt v (i + j) := by
  have hget : ∀ c, c < 4 → ((v.drop (4 * i)).take (4 * n)).getD (j * 4 + c) 0 =
      v.getD ((i + j) * 4 + c) 0 := by
    intro c hc
    have hsum : 4 * i + (j * 4 + c) = (i + j) * 4 + c := by omega
    rw [List.getD_eq_getElem?_getD, List.getElem?_take_of_lt (by omega), List.getElem?_drop, hsum,
      List.getD_eq_getElem?_getD]
  rw [wordAt, hget 0 (by decide), hget 1 (by decide), hget 2 (by decide), hget 3 (by decide),
    wordAt]

/-- Vectors with the same words are the same. -/
theorem eq_of_wordAt {v v' : Bytes} {m : ℕ} (hv : v.length = 4 * m) (hv' : v'.length = 4 * m)
    (h : ∀ k < m, wordAt v k = wordAt v' k) : v = v' := by
  rw [← flatMap_wordAt hv, ← flatMap_wordAt hv']
  exact List.flatMap_congr fun k hk => congrArg wordBytes (h k (List.mem_range.mp hk))

/-- **`nkey` words of the round keys determine the cipher key**, wherever they are
in the vector that `_expandKey` returns. -/
theorem expandKey_window_iff (aes : AES) {key key' : Bytes} (hkey : key.length = 4 * aes.nkey)
    (hkey' : key'.length = 4 * aes.nkey) :
    ∃ roundKey roundKey', expandKey aes key = .ok roundKey ∧
      expandKey aes key' = .ok roundKey' ∧
      ∀ i, i + aes.nkey ≤ 4 * (aes.nround + 1) →
        ((roundKey.drop (4 * i)).take (4 * aes.nkey) =
          (roundKey'.drop (4 * i)).take (4 * aes.nkey) ↔ key = key') := by
  obtain ⟨roundKey, hrun, hlen, hwords⟩ := expandKey_eq hkey
  obtain ⟨roundKey', hrun', hlen', hwords'⟩ := expandKey_eq hkey'
  have hnk := four_le_nkey aes
  refine ⟨roundKey, roundKey', hrun, hrun', fun i hi => ⟨fun hsame => ?_, ?_⟩⟩
  · -- from the window backwards to the first words, which are the key
    have hwindow : ∀ j, i ≤ j → j < i + aes.nkey →
        schedule aes.nkey (wordAt key) j = schedule aes.nkey (wordAt key') j := by
      intro j hj hlt
      obtain ⟨k, rfl⟩ := Nat.exists_eq_add_of_le hj
      have hk : k < aes.nkey := by omega
      rw [← hwords _ (by omega), ← hwords' _ (by omega), ← wordAt_window roundKey i hk, hsame,
        wordAt_window roundKey' i hk]
    have hback := (recurs_schedule (by omega) _ (wordAt key)).back
      (recurs_schedule (by omega) _ (wordAt key')) (by omega)
      (fun _ _ => addWord_right_injective _) hi hwindow
    refine eq_of_wordAt hkey hkey' fun k hk => ?_
    have h := hback k (by omega)
    rwa [schedule_of_lt _ hk, schedule_of_lt _ hk] at h
  · rintro rfl
    rw [hrun] at hrun'
    rw [Except.ok.inj hrun']

/-- The last round keys of two keys of 128 bits that differ in one byte. -/
theorem expandKey_window_iff_last :
    ∃ roundKey roundKey', expandKey aes128 (List.replicate 16 0) = .ok roundKey ∧
      expandKey aes128 (1 :: List.replicate 15 0) = .ok roundKey' ∧
      (roundKey.drop 160).take 16 ≠ (roundKey'.drop 160).take 16 := by
  have hzeros : (List.replicate 16 0 : Bytes).length = 4 * aes128.nkey := rfl
  have hone : (1 :: List.replicate 15 0 : Bytes).length = 4 * aes128.nkey := rfl
  obtain ⟨roundKey, roundKey', hrun, hrun', hiff⟩ := expandKey_window_iff aes128 hzeros hone
  exact ⟨roundKey, roundKey', hrun, hrun', fun h => absurd ((hiff 40 (by decide)).mp h) (by decide)⟩

end AES

end SimpleVpn
