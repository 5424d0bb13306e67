import SimpleVpn.AesRoundTrip

/-!
# Sequences of calls on one object

`encryption` and `decryption` share the member `phiv_`, and leave different
values in it. In CBC mode both overwrite it with `iv_` before they read it, so a
result depends on the key size, the mode and the initialization vector of the
object alone (`encryption_congr`, `decryption_congr`); and only `setIV` writes
`iv_`. By induction on the calls, an object that has been used returns what a
fresh one returns.
-/

namespace SimpleVpn

open Exec Padding BlockCipher

namespace AES

/-- A call of a public method. -/
inductive Call : Type where
  /-- `encryption(input, cipherKey)` -/
  | encryption (input cipherKey : Str)
  /-- `decryption(input, cipherKey)` -/
  | decryption (input cipherKey : Str)
  /-- `setIV(iv)` -/
  | setIV (iv : Bytes)

/-- One call: the object afterwards, and the string returned if there is one. -/
def call (aes : AES) : Call → Exec (AES × Option Str)
  | .encryption input cipherKey => do
    let (aes, out) ← aes.encryption input cipherKey
    return (aes, some out)
  | .decryption input cipherKey => do
    let (aes, out) ← aes.decryption input cipherKey
    return (aes, some out)
  | .setIV iv => do
    return (← setIV iv aes, none)

/-- A sequence of calls: the object after each of them, and what it returned. -/
def calls (aes : AES) : List Call → Exec (List (AES × Option Str))
  | [] => .ok []
  | c :: cs => do
    let r ← call aes c
    return r :: (← calls r.1 cs)

/-- A fresh object of a key size, with a given initialization vector. -/
def fresh (rand : ℕ → ℕ → ℕ) (time nkey : ℕ) (iv : Bytes) : Exec AES := do
  setIV iv (← new rand time (32 * nkey) .CBC)

/-- The initialization vector last set, after a call. -/
def Call.nextIV (iv : Bytes) : Call → Bytes
  | .setIV iv' => iv'
  | .encryption _ _ => iv
  | .decryption _ _ => iv

/-- The initialization vector last set, after a sequence of calls. -/
def lastIV (iv : Bytes) (cs : List Call) : Bytes := cs.foldl Call.nextIV iv

variable {aes aes' : AES}

/-! ## Setting the initialization vector -/

/-- What no method changes: the key size and the mode. -/
structure Alike (aes aes' : AES) : Prop where
  nkey : aes'.nkey = aes.nkey
  mode : aes'.mode = aes.mode

theorem Alike.refl (aes : AES) : Alike aes aes := ⟨rfl, rfl⟩

/-- A loop that stores the sixteen bytes of `xs` in `iv_`. -/
theorem storeLoop_eq (hmode : aes.mode = .CBC) {xs : Bytes} (hxs : xs.length = 16)
    {body : ℕ → AES → Exec AES} (hbody : ∀ i x a, xs[i]? = some x → body i a = storeIV a i x) :
    ∃ aes', forUp 8 0 Nstate aes body = .ok aes' ∧ Alike aes aes' ∧ aes'.iv = xs := by
  let P : ℕ → AES → Prop := fun i a => Alike aes a ∧ ∀ k, k < i → a.iv[k]? = xs[k]?
  have hloop : ∃ aes', forUp 8 0 Nstate aes body = .ok aes' ∧ P Nstate aes' := by
    refine forUp_inv P (by decide) (by decide) ?_
      ⟨.refl aes, fun k hk => absurd hk (Nat.not_lt_zero k)⟩
    rintro i a - (hi : i < 16) ⟨⟨hnkey, hm⟩, hiv⟩
    have hlen : i < a.iv.length := by rwa [a.iv_size (hm.trans hmode)]
    have hx : xs[i]? = some xs[i] := List.getElem?_eq_getElem (hxs.symm ▸ hi)
    rw [hbody i _ a hx, storeIV, if_pos hlen]
    refine ⟨_, rfl, ⟨hnkey, hm⟩, fun k hk => ?_⟩
    rcases Nat.lt_or_eq_of_le (Nat.le_of_lt_succ hk) with hlt | rfl
    · rw [List.getElem?_set_ne (Nat.ne_of_gt hlt), hiv k hlt]
    · rw [List.getElem?_set_self hlen, hx]
  obtain ⟨aes', hrun, halike, hiv⟩ := hloop
  refine ⟨aes', hrun, halike, List.ext_getElem? fun k => ?_⟩
  have hlen : aes'.iv.length = 16 := aes'.iv_size (halike.mode.trans hmode)
  rcases Nat.lt_or_ge k 16 with hlt | hge
  · exact hiv k hlt
  · rw [List.getElem?_eq_none (hlen.trans_le hge), List.getElem?_eq_none (hxs.trans_le hge)]

theorem setIV_eq (hmode : aes.mode = .CBC) {iv : Bytes} (hlen : iv.length = 16) :
    ∃ aes', setIV iv aes = .ok aes' ∧ Alike aes aes' ∧ aes'.iv = iv := by
  rw [setIV, assert_ok hmode, assert_ok hlen, ok_bind, ok_bind]
  refine storeLoop_eq hmode hlen fun i x a hx => ?_
  rw [load_eq_of_getElem? hx, ok_bind]

theorem setIVSeed_eq (rand : ℕ → ℕ → ℕ) (seed : ℕ) (hmode : aes.mode = .CBC) :
    ∃ aes', setIVSeed rand seed aes = .ok aes' ∧ Alike aes aes' := by
  let xs : Bytes := List.ofFn fun i : Fin 16 => UInt8.ofNat (rand seed i % 256)
  have hxs : xs.length = 16 := List.length_ofFn
  have hbody : ∀ i x a, xs[i]? = some x →
      storeIV a i (UInt8.ofNat (rand seed i % 256)) = storeIV a i x := by
    intro i x a hx
    obtain ⟨hlt, rfl⟩ := List.getElem?_eq_some_iff.mp hx
    exact congrArg (storeIV a i) (List.getElem_ofFn hlt).symm
  obtain ⟨aes', hrun, halike, -⟩ := storeLoop_eq hmode hxs hbody
  exact ⟨aes', by rw [setIVSeed, assert_ok hmode, ok_bind, hrun], halike⟩

/-- The constructor returns an object of the asked key size, in CBC mode. -/
theorem new_CBC (rand : ℕ → ℕ → ℕ) (time : ℕ) {nkey : ℕ} (hnkey : nkey = 4 ∨ nkey = 6 ∨ nkey = 8) :
    ∃ aes', new rand time (32 * nkey) .CBC = .ok aes' ∧ aes'.nkey = nkey ∧ aes'.mode = .CBC := by
  have hbits : 32 * nkey = 128 ∨ 32 * nkey = 192 ∨ 32 * nkey = 256 := by omega
  have hseed : ∀ a : AES, a.nkey = nkey → a.mode = .CBC →
      ∃ aes', setIVSeed rand time a = .ok aes' ∧ aes'.nkey = nkey ∧ aes'.mode = .CBC := by
    intro a ha hmode
    obtain ⟨aes', hrun, halike⟩ := setIVSeed_eq rand time hmode
    exact ⟨aes', hrun, halike.nkey.trans ha, halike.mode.trans hmode⟩
  rw [new, dif_pos hbits, if_pos rfl]
  exact hseed _ (Nat.mul_div_cancel_left nkey (by decide)) rfl

/-- What a call of `setIV` that returns has done. -/
theorem setIV_ok {iv : Bytes} (h : setIV iv aes = .ok aes') : Alike aes aes' ∧ aes'.iv = iv := by
  have hmode : aes.mode = .CBC := assert_of_ok h
  rw [setIV, assert_ok hmode, ok_bind] at h
  have hlen : iv.length = 16 := assert_of_ok h
  obtain ⟨a, hrun, hspec⟩ := setIV_eq hmode hlen
  rw [setIV, assert_ok hmode, ok_bind, h] at hrun
  obtain rfl := Except.ok.inj hrun
  exact hspec

/-- A fresh object exists for every initialization vector. -/
theorem fresh_eq (rand : ℕ → ℕ → ℕ) (time : ℕ) {nkey : ℕ} (hnkey : nkey = 4 ∨ nkey = 6 ∨ nkey = 8)
    {iv : Bytes} (hlen : iv.length = 16) :
    ∃ aes', fresh rand time nkey iv = .ok aes' ∧ aes'.nkey = nkey ∧ aes'.mode = .CBC ∧
      aes'.iv = iv := by
  obtain ⟨aes₀, hnew, hnkey₀, hmode⟩ := new_CBC rand time hnkey
  obtain ⟨aes', hset, halike, hiv⟩ := setIV_eq hmode hlen
  refine ⟨aes', ?_, halike.nkey.trans hnkey₀, halike.mode.trans hmode, hiv⟩
  rw [fresh, hnew, ok_bind, hset]

/-! ## What a call depends on -/

/-- Objects that agree on key size, mode and initialization vector differ in the
chaining value alone. -/
theorem eq_withPhiv (halike : Alike aes aes') (hiv : aes'.iv = aes.iv) :
    aes' = { aes with phiv := aes'.phiv } := by
  obtain ⟨hnkey, hmode⟩ := halike
  have hnround : aes'.nround = aes.nround := by rw [aes.nround_eq, aes'.nround_eq, hnkey]
  cases aes
  cases aes'
  simp only at hnkey hmode hiv hnround
  subst hnkey hmode hiv hnround
  rfl

theorem encryption_congr (hmode : aes.mode = .CBC) (halike : Alike aes aes')
    (hiv : aes'.iv = aes.iv) (input cipherKey : Str) :
    aes'.encryption input cipherKey = aes.encryption input cipherKey := by
  rw [eq_withPhiv halike hiv]
  simp only [encryption, savePhiv, hmode, if_true]
  rfl

theorem decryption_congr (hmode : aes.mode = .CBC) (halike : Alike aes aes')
    (hiv : aes'.iv = aes.iv) (input cipherKey : Str) :
    aes'.decryption input cipherKey = aes.decryption input cipherKey := by
  rw [eq_withPhiv halike hiv]
  simp only [decryption, savePhiv, hmode, if_true]
  rfl

/-- A saved chaining value changes nothing else. -/
theorem alike_savePhiv (aes : AES) (v : Bytes) :
    Alike aes (savePhiv aes v) ∧ (savePhiv aes v).iv = aes.iv := by
  rw [savePhiv]
  split <;> exact ⟨⟨rfl, rfl⟩, rfl⟩

theorem encryption_frame {input cipherKey out : Str}
    (h : aes.encryption input cipherKey = .ok (aes', out)) : Alike aes aes' ∧ aes'.iv = aes.iv := by
  rw [encryption_eq (validKey_of_encryption h)] at h
  obtain ⟨-, heq⟩ := ite_eq_ok h
  obtain ⟨rfl, -⟩ := Prod.mk.inj heq
  exact alike_savePhiv aes _

theorem decryption_frame {input cipherKey out : Str}
    (h : aes.decryption input cipherKey = .ok (aes', out)) : Alike aes aes' ∧ aes'.iv = aes.iv := by
  rw [decryption_eq (validKey_of_decryption h)] at h
  obtain ⟨-, heq⟩ := ite_eq_ok h
  obtain ⟨rfl, -⟩ := Prod.mk.inj heq
  exact alike_savePhiv aes _

/-! ## Sequences of calls -/

section calls

variable {out : Option Str} {c : Call}

/-- A call keeps the key size and the mode, and only `setIV` changes the
initialization vector. -/
theorem call_frame (h : call aes c = .ok (aes', out)) :
    Alike aes aes' ∧ aes'.iv = c.nextIV aes.iv := by
  cases c with
  | encryption input cipherKey =>
    obtain ⟨⟨a, s⟩, hrun, hout⟩ := bind_eq_ok h
    obtain ⟨rfl, -⟩ := Prod.mk.inj (Except.ok.inj hout)
    exact encryption_frame hrun
  | decryption input cipherKey =>
    obtain ⟨⟨a, s⟩, hrun, hout⟩ := bind_eq_ok h
    obtain ⟨rfl, -⟩ := Prod.mk.inj (Except.ok.inj hout)
    exact decryption_frame hrun
  | setIV iv =>
    obtain ⟨a, hrun, hout⟩ := bind_eq_ok h
    obtain ⟨rfl, -⟩ := Prod.mk.inj (Except.ok.inj hout)
    exact setIV_ok hrun

/-- A fresh object with the same initialization vector returns the same. -/
theorem call_fresh (rand : ℕ → ℕ → ℕ) (time : ℕ) (hmode : aes.mode = .CBC)
    (h : call aes c = .ok (aes', out)) :
    ∃ aes₀ aes₀', fresh rand time aes.nkey aes.iv = .ok aes₀ ∧ call aes₀ c = .ok (aes₀', out) := by
  obtain ⟨aes₀, hfresh, hnkey, hmode₀, hiv⟩ :=
    fresh_eq rand time aes.nkey_mem (aes.iv_size hmode)
  have halike : Alike aes aes₀ := ⟨hnkey, hmode₀.trans hmode.symm⟩
  cases c with
  | encryption input cipherKey =>
    refine ⟨aes₀, aes', hfresh, ?_⟩
    rwa [call, encryption_congr hmode halike hiv]
  | decryption input cipherKey =>
    refine ⟨aes₀, aes', hfresh, ?_⟩
    rwa [call, decryption_congr hmode halike hiv]
  | setIV iv =>
    obtain ⟨a, hrun, hout⟩ := bind_eq_ok h
    obtain ⟨-, rfl⟩ := Prod.mk.inj (Except.ok.inj hout)
    obtain ⟨ha, rfl⟩ := setIV_ok hrun
    obtain ⟨aes₀', hset, -⟩ := setIV_eq hmode₀ (a.iv_size (ha.mode.trans hmode))
    exact ⟨aes₀, aes₀', hfresh, by rw [call, hset, ok_bind, pure_eq_ok]⟩

end calls

/-- **Calls do not influence each other.** In a sequence of calls on an object
in CBC mode, after each of them `getIV` is the vector last set, and each returns
what a fresh object with that vector returns. The induction is on the calls; what
it carries about the object is its key size, its mode and its `iv_`, and nothing
about `phiv_`. -/
theorem calls_independent (rand : ℕ → ℕ → ℕ) (time : ℕ) {cs : List Call}
    {rs : List (AES × Option Str)} (hmode : aes.mode = .CBC) (hrun : calls aes cs = .ok rs) :
    rs.length = cs.length ∧
    ∀ i c aes' out, cs[i]? = some c → rs[i]? = some (aes', out) →
      getIV aes' = lastIV (getIV aes) (cs.take (i + 1)) ∧
      ∃ aes₀ aes₀', fresh rand time aes.nkey (lastIV (getIV aes) (cs.take i)) = .ok aes₀ ∧
        call aes₀ c = .ok (aes₀', out) := by
  induction cs generalizing aes rs with
  | nil =>
    obtain rfl := Except.ok.inj hrun
    exact ⟨rfl, nofun⟩
  | cons c cs ih =>
    obtain ⟨⟨aes₁, out₁⟩, hcall, hrest⟩ := bind_eq_ok hrun
    obtain ⟨rs', hrun', hrs⟩ := bind_eq_ok hrest
    obtain rfl := Except.ok.inj hrs
    obtain ⟨halike, hiv⟩ := call_frame hcall
    obtain ⟨hlen, hspec⟩ := ih (halike.mode.trans hmode) hrun'
    refine ⟨congrArg (· + 1) hlen, ?_⟩
    intro i d aes' out hc hr
    cases i with
    | zero =>
      obtain rfl := Option.some.inj hc
      obtain ⟨rfl, rfl⟩ := Prod.mk.inj (Option.some.inj hr)
      exact ⟨hiv, call_fresh rand time hmode hcall⟩
    | succ i =>
      have h := hspec i d aes' out hc hr
      have hget : getIV aes₁ = c.nextIV (getIV aes) := hiv
      rw [hget, halike.nkey] at h
      exact h

/-- Enciphering twice: the second result does not depend on the first call. -/
theorem calls_independent_twice :
    ∃ aes₁ out aes₀ aes₀', cbc128.encryption (str "61") zeroKey = .ok (aes₁, out) ∧
      calls cbc128 (List.replicate 2 (.encryption (str "61") zeroKey)) =
        .ok (List.replicate 2 (aes₁, some out)) ∧
      fresh (fun _ i => i) 0 4 (List.replicate 16 0) = .ok aes₀ ∧
      call aes₀ (.encryption (str "61") zeroKey) = .ok (aes₀', some out) := by
  have hsplit : Splits (decoded (str "61")).length (encryptCount (str "61")) := by decide
  obtain ⟨aes₁, out, hfirst⟩ := encryption_returns validKey_cbc128 (str "61") hsplit
  obtain ⟨halike, hiv⟩ := encryption_frame hfirst
  have hsecond := (encryption_congr rfl halike hiv (str "61") zeroKey).trans hfirst
  have hrun : calls cbc128 (List.replicate 2 (.encryption (str "61") zeroKey)) =
      .ok (List.replicate 2 (aes₁, some out)) := by
    simp only [List.replicate, calls, call, hfirst, hsecond, ok_bind, pure_eq_ok]
  obtain ⟨-, hspec⟩ := calls_independent (fun _ i => i) 0 rfl hrun
  obtain ⟨-, aes₀, aes₀', hfresh, hcall⟩ := hspec 1 _ _ _ rfl rfl
  exact ⟨aes₁, out, aes₀, aes₀', hfirst, hrun, hfresh, hcall⟩

end AES

end SimpleVpn
