import Mathlib.Data.Nat.Notation
import Mathlib.Logic.Equiv.Defs

/-!
# Block ciphers and chaining modes as permutations

The general theory of what a block cipher computes, over an arbitrary type of
blocks. Nothing here names a particular program.

* `Layers` — the layers of an iterated cipher; `Layers.cipher` alternates them
  for a number of rounds, the last round without its mixing layer. It is a
  permutation because every layer is one, and its inverse takes the layers back
  in the other order (`Layers.cipher_symm_apply`).
* `encryptFrom` / `decryptFrom` — a chaining mode: each block is masked by a
  permutation that depends on the previous cipher block before it is enciphered.
  Masking by nothing is ECB, by adding the previous cipher block is CBC.
* `Chaining` — masks that tell chaining values apart; with them a changed block
  changes everything from there on (`Chaining.spreads`).
* `Recurs` — the recurrence of a key schedule, which can be run backwards
  (`Recurs.back`).
-/

namespace BlockCipher

variable {B : Type*}

/-! ## Iterated ciphers -/

/-- The layers of an iterated cipher. -/
structure Layers (B : Type*) where
  /-- substitution -/
  sub : Equiv.Perm B
  /-- transposition -/
  shift : Equiv.Perm B
  /-- mixing -/
  mix : Equiv.Perm B
  /-- the addition of the round key of a round -/
  add : ℕ → Equiv.Perm B

namespace Layers

variable (L : Layers B)

/-- The state after the initial key addition and `n` full rounds. -/
def rounds : ℕ → Equiv.Perm B
  | 0 => L.add 0
  | n + 1 => (rounds n).trans (L.sub.trans (L.shift.trans (L.mix.trans (L.add (n + 1)))))

/-- The cipher: `n` full rounds, then a last round without mixing. -/
def cipher (n : ℕ) : Equiv.Perm B :=
  (L.rounds n).trans (L.sub.trans (L.shift.trans (L.add (n + 1))))

theorem rounds_zero_apply (s : B) : L.rounds 0 s = L.add 0 s := rfl

theorem rounds_succ_apply (n : ℕ) (s : B) :
    L.rounds (n + 1) s = L.add (n + 1) (L.mix (L.shift (L.sub (L.rounds n s)))) := rfl

theorem cipher_apply (n : ℕ) (s : B) :
    L.cipher n s = L.add (n + 1) (L.shift (L.sub (L.rounds n s))) := rfl

/-- Deciphering, from the last round key down: the state after the last key
addition is taken back, and `k` of the `n` full rounds. -/
def invRounds (n : ℕ) : ℕ → Equiv.Perm B
  | 0 => (L.add (n + 1)).symm
  | k + 1 => (invRounds n k).trans
      (L.shift.symm.trans (L.sub.symm.trans ((L.add (n - k)).symm.trans L.mix.symm)))

theorem invRounds_zero_apply (n : ℕ) (s : B) : L.invRounds n 0 s = (L.add (n + 1)).symm s := rfl

theorem invRounds_succ_apply (n k : ℕ) (s : B) : L.invRounds n (k + 1) s =
    L.mix.symm ((L.add (n - k)).symm (L.sub.symm (L.shift.symm (L.invRounds n k s)))) := rfl

/-- After `k` rounds of deciphering the state is the one that enciphering had
before the key addition, or the mixing, of round `n - k + 1`. -/
theorem invRounds_cipher {n k : ℕ} (hk : k ≤ n) (s : B) :
    L.invRounds n k (L.cipher n s) = L.shift (L.sub (L.rounds (n - k) s)) := by
  induction k with
  | zero => rw [invRounds_zero_apply, cipher_apply, Equiv.symm_apply_apply, Nat.sub_zero]
  | succ k ih =>
    -- the layers of round `n - k` cancel, from the outside in
    have hround : n - k = n - (k + 1) + 1 := by omega
    rw [invRounds_succ_apply, ih (by omega), Equiv.symm_apply_apply, Equiv.symm_apply_apply, hround,
      rounds_succ_apply, Equiv.symm_apply_apply, Equiv.symm_apply_apply]

/-- The inverse cipher, layer by layer. -/
theorem cipher_symm_apply (n : ℕ) (s : B) : (L.cipher n).symm s =
    (L.add 0).symm (L.sub.symm (L.shift.symm (L.invRounds n n s))) := by
  obtain ⟨p, rfl⟩ := (L.cipher n).surjective s
  rw [invRounds_cipher L (Nat.le_refl n), Nat.sub_self, rounds_zero_apply, Equiv.symm_apply_apply,
    Equiv.symm_apply_apply, Equiv.symm_apply_apply, Equiv.symm_apply_apply]

end Layers

/-! ## Chaining modes -/

variable (E : Equiv.Perm B) (mask : B → Equiv.Perm B)

/-- Encipher a list of blocks, starting from the chaining value `v`. -/
def encryptFrom : B → List B → List B
  | _, [] => []
  | v, p :: ps => E (mask v p) :: encryptFrom (E (mask v p)) ps

/-- Decipher a list of blocks, starting from the chaining value `v`. -/
def decryptFrom : B → List B → List B
  | _, [] => []
  | v, c :: cs => (mask v).symm (E.symm c) :: decryptFrom c cs

theorem encryptFrom_singleton (v p : B) : encryptFrom E mask v [p] = [E (mask v p)] := rfl

theorem decryptFrom_singleton (v c : B) :
    decryptFrom E mask v [c] = [(mask v).symm (E.symm c)] := rfl

@[simp] theorem length_encryptFrom (ps : List B) :
    ∀ v, (encryptFrom E mask v ps).length = ps.length := by
  induction ps with
  | nil => intro v; rfl
  | cons p ps ih => intro v; simp [encryptFrom, ih]

@[simp] theorem length_decryptFrom (cs : List B) :
    ∀ v, (decryptFrom E mask v cs).length = cs.length := by
  induction cs with
  | nil => intro v; rfl
  | cons c cs ih => intro v; simp [decryptFrom, ih]

/-- Deciphering inverts enciphering. -/
theorem decryptFrom_encryptFrom (ps : List B) :
    ∀ v, decryptFrom E mask v (encryptFrom E mask v ps) = ps := by
  induction ps with
  | nil => intro v; rfl
  | cons p ps ih => intro v; simp [encryptFrom, decryptFrom, ih]

/-- Enciphering inverts deciphering. -/
theorem encryptFrom_decryptFrom (cs : List B) :
    ∀ v, encryptFrom E mask v (decryptFrom E mask v cs) = cs := by
  induction cs with
  | nil => intro v; rfl
  | cons c cs ih => intro v; simp [encryptFrom, decryptFrom, ih]

/-- The chaining value after the cipher blocks `cs`. -/
def chainValue (v : B) (cs : List B) : B := cs.getLastD v

/-- One more block, at the end: the block is masked by the chaining value so far. -/
theorem encryptFrom_concat (ps : List B) (p : B) :
    ∀ v, encryptFrom E mask v (ps ++ [p]) = encryptFrom E mask v ps ++
      [E (mask (chainValue v (encryptFrom E mask v ps)) p)] := by
  induction ps with
  | nil => intro v; rfl
  | cons q ps ih =>
    intro v
    simp only [List.cons_append, encryptFrom, ih, chainValue]
    cases encryptFrom E mask (E (mask v q)) ps <;> rfl

theorem decryptFrom_concat (cs : List B) (c : B) :
    ∀ v, decryptFrom E mask v (cs ++ [c]) = decryptFrom E mask v cs ++
      [(mask (chainValue v cs)).symm (E.symm c)] := by
  induction cs with
  | nil => intro v; rfl
  | cons d cs ih =>
    intro v
    simp only [List.cons_append, decryptFrom, ih, chainValue]
    cases cs <;> rfl

/-- The `j`-th cipher block: the `j`-th plain block, masked by the cipher block
before it (by `v` for the first), enciphered. The default `w` is never used. -/
theorem getElem?_encryptFrom (ps : List B) :
    ∀ v w j (_ : j < ps.length), (encryptFrom E mask v ps)[j]? =
      some (E (mask ((v :: encryptFrom E mask v ps).getD j w) ps[j])) := by
  induction ps with
  | nil => intro v w j hj; cases hj
  | cons p ps ih =>
    intro v w j hj
    cases j with
    | zero => rfl
    | succ j =>
      simp only [encryptFrom, List.getElem?_cons_succ, List.getElem_cons_succ,
        List.getD_cons_succ, ih _ w j (Nat.lt_of_succ_lt_succ hj)]

/-- Deciphering looks at two neighbouring cipher blocks at a time. -/
theorem decryptFrom_eq_zipWith (cs : List B) :
    ∀ v, decryptFrom E mask v cs =
      List.zipWith (fun u c => (mask u).symm (E.symm c)) (v :: cs) cs := by
  induction cs with
  | nil => intro v; rfl
  | cons c cs ih => intro v; rw [decryptFrom, ih, List.zipWith_cons_cons]

/-- **A corrupted cipher block is confined.** Cipher texts that differ only in
block `j` decipher to the same blocks, `j` and `j + 1` apart. -/
theorem decryptFrom_confined {cs cs' : List B} {j : ℕ} (h : ∀ i, i ≠ j → cs[i]? = cs'[i]?) (v : B)
    {i : ℕ} (hi : i ≠ j) (hi' : i ≠ j + 1) :
    (decryptFrom E mask v cs)[i]? = (decryptFrom E mask v cs')[i]? := by
  have hprev : (v :: cs)[i]? = (v :: cs')[i]? := by
    cases i with
    | zero => rfl
    | succ i => exact h i fun hij => hi' (congrArg (· + 1) hij)
  rw [decryptFrom_eq_zipWith, decryptFrom_eq_zipWith, List.getElem?_zipWith,
    List.getElem?_zipWith, hprev, h i hi]

/-- Block `j + 1` is deciphered and unmasked with cipher block `j`. -/
theorem getElem?_decryptFrom_succ {cs : List B} {j : ℕ} {u c : B} (hu : cs[j]? = some u)
    (hc : cs[j + 1]? = some c) (v : B) :
    (decryptFrom E mask v cs)[j + 1]? = some ((mask u).symm (E.symm c)) := by
  rw [decryptFrom_eq_zipWith, List.getElem?_zipWith, List.getElem?_cons_succ, hu, hc]

/-- Without chaining, blocks are deciphered one by one. -/
theorem decryptFrom_const (D : Equiv.Perm B) (cs : List B) :
    ∀ v, decryptFrom E (fun _ => D) v cs = cs.map fun c => D.symm (E.symm c) := by
  induction cs with
  | nil => intro v; rfl
  | cons c cs ih => intro v; rw [decryptFrom, ih, List.map_cons]

/-! ## Messages in parts, and how differences spread -/

/-- The chaining value goes on from that of the first part. -/
theorem chainValue_append (v : B) (cs ds : List B) :
    chainValue v (cs ++ ds) = chainValue (chainValue v cs) ds := by
  rcases List.eq_nil_or_concat ds with rfl | ⟨ds, d, rfl⟩
  · rw [List.append_nil]
    rfl
  · rw [List.concat_eq_append, ← List.append_assoc, chainValue, chainValue, List.getLastD_concat,
      List.getLastD_concat]

/-- A message in two parts: the second goes on from the chaining value that the
first one leaves. -/
theorem encryptFrom_append (ps qs : List B) :
    ∀ v, encryptFrom E mask v (ps ++ qs) = encryptFrom E mask v ps ++
      encryptFrom E mask (chainValue v (encryptFrom E mask v ps)) qs := by
  induction ps with
  | nil => intro v; rfl
  | cons p ps ih =>
    intro v
    rw [List.cons_append, encryptFrom, ih, encryptFrom, List.cons_append, chainValue, chainValue,
      List.getLastD_cons]

theorem decryptFrom_append (cs ds : List B) :
    ∀ v, decryptFrom E mask v (cs ++ ds) = decryptFrom E mask v cs ++
      decryptFrom E mask (chainValue v cs) ds := by
  induction cs with
  | nil => intro v; rfl
  | cons c cs ih =>
    intro v
    rw [List.cons_append, decryptFrom, ih, decryptFrom, List.cons_append, chainValue, chainValue,
      List.getLastD_cons]

theorem encryptFrom_inj {v : B} {ps ps' : List B} :
    encryptFrom E mask v ps = encryptFrom E mask v ps' ↔ ps = ps' := by
  refine ⟨?_, congrArg _⟩
  intro h
  rw [← decryptFrom_encryptFrom E mask ps v, h, decryptFrom_encryptFrom]

/-- Without chaining, blocks are enciphered one by one. -/
theorem encryptFrom_const (D : Equiv.Perm B) (ps : List B) :
    ∀ v, encryptFrom E (fun _ => D) v ps = ps.map fun p => E (D p) := by
  induction ps with
  | nil => intro v; rfl
  | cons p ps ih => intro v; rw [encryptFrom, ih, List.map_cons]

theorem getElem?_encryptFrom_const_iff (D : Equiv.Perm B) {ps ps' : List B} {v v' : B} {i j : ℕ} :
    (encryptFrom E (fun _ => D) v ps)[i]? = (encryptFrom E (fun _ => D) v' ps')[j]? ↔
      ps[i]? = ps'[j]? := by
  have hinj : Function.Injective fun p => E (D p) := E.injective.comp D.injective
  rw [encryptFrom_const, encryptFrom_const, List.getElem?_map, List.getElem?_map,
    (Option.map_injective hinj).eq_iff]

/-- A mask that hides nothing about the chaining value. -/
def Chaining (mask : B → Equiv.Perm B) : Prop := ∀ p, Function.Injective fun v => mask v p

variable {E mask}

/-- From different chaining values, every cipher block differs. -/
theorem Chaining.ne (hmask : Chaining mask) {ps : List B} : ∀ {v v' : B} {i : ℕ}, v ≠ v' →
    i < ps.length → (encryptFrom E mask v ps)[i]? ≠ (encryptFrom E mask v' ps)[i]? := by
  induction ps with
  | nil => exact fun _ hi => absurd hi (Nat.not_lt_zero _)
  | cons p ps ih =>
    intro v v' i hv hi
    have hfirst : E (mask v p) ≠ E (mask v' p) := fun h => hv (hmask p (E.injective h))
    cases i with
    | zero => exact fun h => hfirst (Option.some.inj h)
    | succ i => exact ih hfirst (Nat.lt_of_succ_lt_succ hi)

/-- Cipher blocks depend on the plain blocks up to their place. -/
theorem encryptFrom_congr {ps ps' : List B} : ∀ {v : B} {i : ℕ}, (∀ k ≤ i, ps[k]? = ps'[k]?) →
    (encryptFrom E mask v ps)[i]? = (encryptFrom E mask v ps')[i]? := by
  induction ps generalizing ps' with
  | nil =>
    intro v i h
    cases ps' with
    | nil => rfl
    | cons p' ps' => exact absurd (h 0 (Nat.zero_le i)) nofun
  | cons p ps ih =>
    intro v i h
    cases ps' with
    | nil => exact absurd (h 0 (Nat.zero_le i)) nofun
    | cons p' ps' =>
      obtain rfl := Option.some.inj (h 0 (Nat.zero_le i))
      cases i with
      | zero => rfl
      | succ i => exact ih fun k hk => h (k + 1) (Nat.succ_le_succ hk)

/-- **A changed block spreads.** If messages of one length differ in block `j`
alone, then with chaining their cipher texts differ from block `j` on. -/
theorem Chaining.spreads (hmask : Chaining mask) {ps ps' : List B} :
    ∀ {v : B} {j i : ℕ}, ps.length = ps'.length → ps[j]? ≠ ps'[j]? →
      (∀ k, k ≠ j → ps[k]? = ps'[k]?) → j ≤ i → i < ps.length →
      (encryptFrom E mask v ps)[i]? ≠ (encryptFrom E mask v ps')[i]? := by
  induction ps generalizing ps' with
  | nil => exact fun _ _ _ _ hi => absurd hi (Nat.not_lt_zero _)
  | cons p ps ih =>
    intro v j i hlen hj hsame hji hi
    cases ps' with
    | nil => cases hlen
    | cons p' ps' =>
      cases j with
      | zero =>
        obtain rfl : ps = ps' := List.ext_getElem? fun k => hsame (k + 1) (Nat.succ_ne_zero k)
        have hfirst : E (mask v p) ≠ E (mask v p') := fun h =>
          hj (congrArg some ((mask v).injective (E.injective h)))
        cases i with
        | zero => exact fun h => hfirst (Option.some.inj h)
        | succ i => exact hmask.ne hfirst (Nat.lt_of_succ_lt_succ hi)
      | succ j =>
        obtain rfl := Option.some.inj (hsame 0 (Nat.succ_ne_zero j).symm)
        cases i with
        | zero => exact absurd hji (Nat.not_succ_le_zero j)
        | succ i =>
          exact ih (Nat.succ.inj hlen) hj (fun k hk => hsame (k + 1) fun h => hk (Nat.succ.inj h))
            (Nat.le_of_succ_le_succ hji) (Nat.lt_of_succ_lt_succ hi)

/-! ## Key schedules -/

/-- Below `bound`, each term of `w` after the first `n` comes from the term just
before it and the term `n` places before it. -/
def Recurs (n bound : ℕ) (f : ℕ → B → B → B) (w : ℕ → B) : Prop :=
  ∀ i, n ≤ i → i < bound → w i = f i (w (i - 1)) (w (i - n))

/-- **A schedule runs backwards.** Sequences that recur alike and agree on `n`
terms in a row agree before them, if a step loses nothing of the term `n` places
before. -/
theorem Recurs.back {n bound : ℕ} {f : ℕ → B → B → B} {w w' : ℕ → B} (hw : Recurs n bound f w)
    (hw' : Recurs n bound f w') (hn : 2 ≤ n) (hf : ∀ i u, Function.Injective (f i u)) {i : ℕ}
    (hi : i + n ≤ bound) (hsame : ∀ j, i ≤ j → j < i + n → w j = w' j) :
    ∀ j < i + n, w j = w' j := by
  induction i with
  | zero => exact fun j hj => hsame j (Nat.zero_le j) hj
  | succ i ih =>
    have hprev : w (i + n - 1) = w' (i + n - 1) := hsame _ (by omega) (by omega)
    have hnext : w (i + n) = w' (i + n) := hsame _ (by omega) (by omega)
    have hfirst : w i = w' i := by
      rw [hw _ (Nat.le_add_left n i) (by omega), hw' _ (Nat.le_add_left n i) (by omega),
        Nat.add_sub_cancel, hprev] at hnext
      exact hf _ _ hnext
    have hwindow : ∀ j, i ≤ j → j < i + n → w j = w' j := by
      intro j hj hlt
      rcases Nat.lt_or_eq_of_le hj with hlt' | rfl
      · exact hsame j hlt' (by omega)
      · exact hfirst
    intro j hj
    rcases Nat.lt_or_ge j (i + n) with hlt | hge
    · exact ih (by omega) hwindow j hlt
    · exact hsame j (by omega) hj

end BlockCipher
