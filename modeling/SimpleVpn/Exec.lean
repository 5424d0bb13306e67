import Mathlib.Algebra.Group.Nat.Defs
import Mathlib.Data.List.GetD
import Mathlib.Data.List.OfFn

/-!
# Checked execution: faults, vectors, counted loops

The layer every program model below is written in. Nothing here names a
particular program.

* `Exec α` — a computation that returns an `α` or stops with a `Fault`. A read
  or write outside a vector is a fault, never a default value, so "no
  out-of-bounds access" is the statement that a run is `.ok`.
* `loop` — a counted loop over a counter of any type. The counter's successor
  is a parameter, so a counter of fixed width wraps as the machine's does, and
  a loop whose counter never leaves the range runs out of fuel.
* `forUp w a b body` — `for (uintW_t i = a; i < b; i++) body`.

The rules a proof uses: `loop_spec` (an invariant indexed by the iteration, and
what an early exit establishes), `loop_inv` (no early exit), `loop_eq` (the
state after `k` iterations is known exactly), `loop_error` (some iteration
faults), and `loop_endless` (no iteration is the last one).
-/

namespace Exec

/-- What stops a run. -/
inductive Fault : Type where
  /-- a vector or array was indexed outside its bounds -/
  | outOfBounds
  /-- an `assert` failed -/
  | assertion
  /-- a loop ran out of fuel -/
  | endless
  deriving DecidableEq, Repr

end Exec

/-- A computation that may fault. -/
abbrev Exec (α : Type) : Type := Except Exec.Fault α

namespace Exec

variable {α σ ι : Type}

/-- The value of a fixed-width unsigned integer: `n` reduced modulo `2 ^ w`. -/
def wrap (w n : ℕ) : ℕ := n % 2 ^ w

theorem wrap_of_lt {w n : ℕ} (h : n < 2 ^ w) : wrap w n = n := Nat.mod_eq_of_lt h

/-- Unsigned subtraction at width `w`. -/
def wrapSub (w a b : ℕ) : ℕ := (a + 2 ^ w - b) % 2 ^ w

/-! ## Checked vectors -/

/-- Read `v[i]`. -/
def load (v : List α) (i : ℕ) : Exec α :=
  match v[i]? with
  | some x => .ok x
  | none => .error .outOfBounds

/-- Write `v[i] = x`. -/
def store (v : List α) (i : ℕ) (x : α) : Exec (List α) :=
  if i < v.length then .ok (v.set i x) else .error .outOfBounds

/-- `assert(p)`. -/
def assert (p : Prop) [Decidable p] : Exec Unit :=
  if p then .ok () else .error .assertion

@[simp] theorem ok_bind {β : Type} (x : α) (f : α → Exec β) :
    ((Except.ok x : Exec α) >>= f) = f x := rfl

@[simp] theorem error_bind {β : Type} (e : Fault) (f : α → Exec β) :
    ((Except.error e : Exec α) >>= f) = .error e := rfl

@[simp] theorem pure_eq_ok (x : α) : (pure x : Exec α) = .ok x := rfl

theorem load_ok {v : List α} {i : ℕ} (h : i < v.length) : load v i = .ok v[i] := by
  simp [load, h]

theorem load_getD {v : List α} {i : ℕ} (h : i < v.length) (d : α) :
    load v i = .ok (v.getD i d) := by
  rw [load_ok h, List.getD_eq_getElem _ _ h]

theorem load_set_ne {v : List α} {i j : ℕ} (h : i ≠ j) (x : α) :
    load (v.set i x) j = load v j := by
  rw [load, load, List.getElem?_set_ne h]

theorem load_eq_of_getElem? {v : List α} {i : ℕ} {x : α} (h : v[i]? = some x) :
    load v i = .ok x := by
  simp [load, h]

theorem load_error {v : List α} {i : ℕ} (h : v.length ≤ i) :
    load v i = .error .outOfBounds := by
  simp [load, h]

theorem store_ok {v : List α} {i : ℕ} (h : i < v.length) (x : α) :
    store v i x = .ok (v.set i x) := if_pos h

theorem store_error {v : List α} {i : ℕ} (h : v.length ≤ i) (x : α) :
    store v i x = .error .outOfBounds := if_neg (by omega)

theorem assert_ok {p : Prop} [Decidable p] (h : p) : assert p = .ok () := if_pos h

/-- What goes on after an assertion has passed it. -/
theorem assert_of_ok {β : Type} {p : Prop} [Decidable p] {f : Unit → Exec β} {y : β}
    (h : assert p >>= f = .ok y) : p := by
  by_contra hp
  rw [assert, if_neg hp, error_bind] at h
  cases h

/-- Peel a computation apart: a bind that succeeds did so through a first result. -/
theorem bind_eq_ok {β : Type} {m : Exec α} {f : α → Exec β} {y : β}
    (h : (m >>= f) = .ok y) : ∃ x, m = .ok x ∧ f x = .ok y := by
  cases m with
  | error e => cases h
  | ok x => exact ⟨x, rfl, h⟩

/-- A checked result that is there has passed its check. -/
theorem ite_eq_ok {p : Prop} [Decidable p] {x y : α} {e : Fault}
    (h : (if p then .ok x else .error e : Exec α) = .ok y) : p ∧ x = y := by
  by_cases hp : p
  · rw [if_pos hp] at h
    exact ⟨hp, Except.ok.inj h⟩
  · rw [if_neg hp] at h
    cases h

/-- A checked result faults exactly when its check fails. -/
theorem ite_ne_error_iff {p : Prop} [Decidable p] {x : α} {e : Fault} :
    (if p then .ok x else .error e : Exec α) ≠ .error e ↔ p := by
  by_cases hp : p
  · rw [if_pos hp]
    exact iff_of_true nofun hp
  · rw [if_neg hp]
    exact iff_of_false (fun h => h rfl) hp

/-! ## Counted loops -/

/-- How one iteration ends: go on with a state, or leave the loop (`break`, or
an early `return` of the loop's state). -/
inductive Flow (σ : Type) : Type where
  /-- go on to the next iteration -/
  | next : σ → Flow σ
  /-- leave the loop -/
  | stop : σ → Flow σ

/-- `for (i = i₀; cond(i); i = succ(i)) body`. -/
def loop (cond : ι → Bool) (succ : ι → ι) (body : ι → σ → Exec (Flow σ)) :
    ℕ → ι → σ → Exec σ
  | 0, _, _ => .error .endless
  | fuel + 1, i, s =>
    if cond i then do
      match ← body i s with
      | .next s' => loop cond succ body fuel (succ i) s'
      | .stop s' => .ok s'
    else .ok s

section rules

variable {cond : ι → Bool} {succ : ι → ι} {body : ι → σ → Exec (Flow σ)}

theorem loop_done {fuel : ℕ} {i : ι} {s : σ} (hc : cond i = false) :
    loop cond succ body (fuel + 1) i s = .ok s := by
  rw [loop, hc]
  rfl

theorem loop_next {fuel : ℕ} {i : ι} {s s' : σ} (hc : cond i = true)
    (hb : body i s = .ok (.next s')) :
    loop cond succ body (fuel + 1) i s = loop cond succ body fuel (succ i) s' := by
  rw [loop, if_pos hc, hb]
  rfl

theorem loop_stop {fuel : ℕ} {i : ι} {s s' : σ} (hc : cond i = true)
    (hb : body i s = .ok (.stop s')) :
    loop cond succ body (fuel + 1) i s = .ok s' := by
  rw [loop, if_pos hc, hb]
  rfl

theorem loop_fault {fuel : ℕ} {i : ι} {s : σ} {e : Fault} (hc : cond i = true)
    (hb : body i s = .error e) :
    loop cond succ body (fuel + 1) i s = .error e := by
  rw [loop, if_pos hc, hb]
  rfl

/-- **The loop rule.** The loop visits `c 0, …, c (n - 1)` and its condition
fails at `c n`. Each iteration takes `P k` to `P (k + 1)`, or leaves the loop in
a state that satisfies `Q`; and `P n` gives `Q`. Stated from iteration `k` on. -/
theorem loop_spec_from (c : ℕ → ι) (P : ℕ → σ → Prop) (Q : σ → Prop) :
    ∀ (n fuel k : ℕ) (s : σ), n < fuel →
      (∀ j, k ≤ j → j < k + n → cond (c j) = true ∧ succ (c j) = c (j + 1)) →
      cond (c (k + n)) = false →
      (∀ j t, k ≤ j → j < k + n → P j t → (∃ t', body (c j) t = .ok (.next t') ∧ P (j + 1) t') ∨
        ∃ t', body (c j) t = .ok (.stop t') ∧ Q t') →
      (∀ t, P (k + n) t → Q t) → P k s →
      ∃ t, loop cond succ body fuel (c k) s = .ok t ∧ Q t := by
  intro n
  induction n with
  | zero =>
    intro fuel k s hf _ hend _ hQ hP
    obtain ⟨fuel, rfl⟩ : ∃ m, fuel = m + 1 := ⟨fuel - 1, by omega⟩
    exact ⟨s, loop_done hend, hQ s hP⟩
  | succ n ih =>
    intro fuel k s hf hc hend hb hQ hP
    obtain ⟨fuel, rfl⟩ : ∃ m, fuel = m + 1 := ⟨fuel - 1, by omega⟩
    obtain ⟨hck, hsk⟩ := hc k (le_refl k) (by omega)
    have hidx : k + 1 + n = k + (n + 1) := by omega
    rcases hb k s (le_refl k) (by omega) hP with ⟨s', hs', hP'⟩ | ⟨t, ht, hQt⟩
    · rw [loop_next hck hs', hsk]
      exact ih fuel (k + 1) s' (by omega) (fun j h₁ h₂ => hc j (by omega) (by omega))
        (hidx ▸ hend) (fun j t h₁ h₂ => hb j t (by omega) (by omega)) (hidx ▸ hQ) hP'
    · exact ⟨t, loop_stop hck ht, hQt⟩

/-- The loop rule, from the start of the loop. -/
theorem loop_spec (c : ℕ → ι) (P : ℕ → σ → Prop) (Q : σ → Prop) {n fuel : ℕ} {s : σ}
    (hfuel : n < fuel) (hc : ∀ k, k < n → cond (c k) = true ∧ succ (c k) = c (k + 1))
    (hend : cond (c n) = false)
    (hb : ∀ k t, k < n → P k t → (∃ t', body (c k) t = .ok (.next t') ∧ P (k + 1) t') ∨
      ∃ t', body (c k) t = .ok (.stop t') ∧ Q t')
    (hQ : ∀ t, P n t → Q t) (hP : P 0 s) :
    ∃ t, loop cond succ body fuel (c 0) s = .ok t ∧ Q t :=
  loop_spec_from c P Q n fuel 0 s hfuel (fun j _ hj => hc j (by omega)) (by rwa [Nat.zero_add])
    (fun j t _ hj => hb j t (by omega)) (by rwa [Nat.zero_add]) hP

/-- **The invariant rule**, for a loop that is never left early. -/
theorem loop_inv (c : ℕ → ι) (P : ℕ → σ → Prop) {n fuel : ℕ} {s : σ} (hfuel : n < fuel)
    (hc : ∀ k, k < n → cond (c k) = true ∧ succ (c k) = c (k + 1)) (hend : cond (c n) = false)
    (hb : ∀ k t, k < n → P k t → ∃ t', body (c k) t = .ok (.next t') ∧ P (k + 1) t')
    (hP : P 0 s) :
    ∃ t, loop cond succ body fuel (c 0) s = .ok t ∧ P n t :=
  loop_spec c P (P n) hfuel hc hend (fun k t hk ht => Or.inl (hb k t hk ht)) (fun _ ht => ht) hP

/-- The invariant rule when the state after `k` iterations is known: it is `g k`. -/
theorem loop_eq (c : ℕ → ι) (g : ℕ → σ) {n fuel : ℕ} (hfuel : n < fuel)
    (hc : ∀ k, k < n → cond (c k) = true ∧ succ (c k) = c (k + 1)) (hend : cond (c n) = false)
    (hb : ∀ k, k < n → body (c k) (g k) = .ok (.next (g (k + 1)))) :
    loop cond succ body fuel (c 0) (g 0) = .ok (g n) := by
  obtain ⟨t, ht, rfl⟩ := loop_inv c (fun k t => t = g k) hfuel hc hend
    (by rintro k _ hk rfl; exact ⟨_, hb k hk, rfl⟩) rfl
  exact ht

/-- **The fault rule.** Every iteration before the `n`-th either keeps the
invariant or faults with `e`, and the `n`-th faults with `e` from any state that
satisfies it: then the loop faults with `e`. -/
theorem loop_error (c : ℕ → ι) (I : σ → Prop) {e : Fault} :
    ∀ (n fuel k : ℕ) (s : σ), n < fuel →
      (∀ j, k ≤ j → j < k + n → cond (c j) = true ∧ succ (c j) = c (j + 1)) →
      cond (c (k + n)) = true →
      (∀ j t, k ≤ j → j < k + n → I t →
        (∃ t', body (c j) t = .ok (.next t') ∧ I t') ∨ body (c j) t = .error e) →
      (∀ t, I t → body (c (k + n)) t = .error e) → I s →
      loop cond succ body fuel (c k) s = .error e := by
  intro n
  induction n with
  | zero =>
    intro fuel k s hf _ hcn _ he hI
    obtain ⟨fuel, rfl⟩ : ∃ m, fuel = m + 1 := ⟨fuel - 1, by omega⟩
    exact loop_fault hcn (he s hI)
  | succ n ih =>
    intro fuel k s hf hc hcn hb he hI
    obtain ⟨fuel, rfl⟩ : ∃ m, fuel = m + 1 := ⟨fuel - 1, by omega⟩
    obtain ⟨hck, hsk⟩ := hc k (le_refl k) (by omega)
    rcases hb k s (le_refl k) (by omega) hI with ⟨s', hs', hI'⟩ | hfault
    · rw [loop_next hck hs', hsk]
      have hidx : k + 1 + n = k + (n + 1) := by omega
      exact ih fuel (k + 1) s' (by omega) (fun j h₁ h₂ => hc j (by omega) (by omega))
        (hidx ▸ hcn) (fun j t h₁ h₂ => hb j t (by omega) (by omega)) (hidx ▸ he) hI'
    · exact loop_fault hck hfault

/-- **The break rule.** The state on reaching iteration `k` is `g k`, and the
`n`-th iteration leaves the loop. Stated from iteration `k` on. -/
theorem loop_break_from (c : ℕ → ι) (g : ℕ → σ) {t : σ} :
    ∀ (n fuel k : ℕ), n < fuel →
      (∀ j, k ≤ j → j < k + n → cond (c j) = true ∧ succ (c j) = c (j + 1) ∧
        body (c j) (g j) = .ok (.next (g (j + 1)))) →
      cond (c (k + n)) = true → body (c (k + n)) (g (k + n)) = .ok (.stop t) →
      loop cond succ body fuel (c k) (g k) = .ok t := by
  intro n
  induction n with
  | zero =>
    intro fuel k hf _ hcn hb
    obtain ⟨fuel, rfl⟩ : ∃ m, fuel = m + 1 := ⟨fuel - 1, by omega⟩
    exact loop_stop hcn hb
  | succ n ih =>
    intro fuel k hf hc hcn hb
    obtain ⟨fuel, rfl⟩ : ∃ m, fuel = m + 1 := ⟨fuel - 1, by omega⟩
    obtain ⟨hck, hsk, hbk⟩ := hc k (le_refl k) (by omega)
    have hidx : k + 1 + n = k + (n + 1) := by omega
    rw [loop_next hck hbk, hsk]
    exact ih fuel (k + 1) (by omega) (fun j h₁ h₂ => hc j (by omega) (by omega)) (hidx ▸ hcn)
      (hidx ▸ hb)

/-- The break rule, from the start of the loop. -/
theorem loop_break (c : ℕ → ι) (g : ℕ → σ) {n fuel : ℕ} {t : σ} (hfuel : n < fuel)
    (hc : ∀ k, k < n → cond (c k) = true ∧ succ (c k) = c (k + 1) ∧
      body (c k) (g k) = .ok (.next (g (k + 1))))
    (hcn : cond (c n) = true) (hb : body (c n) (g n) = .ok (.stop t)) :
    loop cond succ body fuel (c 0) (g 0) = .ok t :=
  loop_break_from c g n fuel 0 hfuel (fun j _ hj => hc j (by omega)) (by rwa [Nat.zero_add])
    (by rwa [Nat.zero_add])

/-- **The divergence rule.** If the condition holds in every state of an
invariant and the body keeps it, no amount of fuel is enough. -/
theorem loop_endless (I : ι → σ → Prop)
    (hstep : ∀ i s, I i s →
      cond i = true ∧ ∃ s', body i s = .ok (.next s') ∧ I (succ i) s') :
    ∀ (fuel : ℕ) (i : ι) (s : σ), I i s → loop cond succ body fuel i s = .error .endless := by
  intro fuel
  induction fuel with
  | zero =>
    intro i s _
    rfl
  | succ fuel ih =>
    intro i s hI
    obtain ⟨hc, s', hs', hI'⟩ := hstep i s hI
    rw [loop_next hc hs']
    exact ih (succ i) s' hI'

end rules

/-! ## Loops over a fixed-width counter -/

/-- `for (uintW_t i = a; i < b; i++) body`. With `2 ^ w + 1` units of fuel, a
loop that runs out of it has gone through every value of its counter. -/
def forUp (w a b : ℕ) (s : σ) (body : ℕ → σ → Exec σ) : Exec σ :=
  loop (fun i => decide (i < b)) (fun i => wrap w (i + 1))
    (fun i t => Flow.next <$> body i t) (2 ^ w + 1) a s

section forUp

variable {w a b : ℕ} {body : ℕ → σ → Exec σ}

/-- Below `2 ^ w` the counter of `forUp` goes through `a, a + 1, …` unwrapped. -/
theorem forUp_counter (hb : b < 2 ^ w) {k : ℕ} (hk : a + k < b) :
    decide (a + k < b) = true ∧ wrap w (a + k + 1) = a + (k + 1) :=
  ⟨decide_eq_true hk, by rw [wrap_of_lt (by omega), Nat.add_assoc]⟩

/-- The loop rule for a counter that goes up by one, with the invariant indexed
by the counter. -/
theorem loop_up_spec {body : ℕ → σ → Exec (Flow σ)} (P : ℕ → σ → Prop) (Q : σ → Prop)
    {fuel : ℕ} {s : σ} (hab : a ≤ b) (hb : b < 2 ^ w) (hfuel : b - a < fuel)
    (hstep : ∀ i t, a ≤ i → i < b → P i t → (∃ t', body i t = .ok (.next t') ∧ P (i + 1) t') ∨
      ∃ t', body i t = .ok (.stop t') ∧ Q t')
    (hQ : ∀ t, P b t → Q t) (hP : P a s) :
    ∃ t, loop (fun i => decide (i < b)) (fun i => wrap w (i + 1)) body fuel a s = .ok t ∧ Q t := by
  have hend : a + (b - a) = b := Nat.add_sub_cancel' hab
  exact loop_spec (fun k => a + k) (fun k => P (a + k)) Q hfuel
    (fun k hk => forUp_counter hb (by omega)) (decide_eq_false (by omega))
    (fun k t hk => hstep (a + k) t (by omega) (by omega)) (fun t ht => hQ t (hend ▸ ht)) hP

/-- The invariant rule for `forUp`. -/
theorem forUp_inv (P : ℕ → σ → Prop) {s : σ} (hab : a ≤ b) (hb : b < 2 ^ w)
    (hstep : ∀ i t, a ≤ i → i < b → P i t → ∃ t', body i t = .ok t' ∧ P (i + 1) t')
    (hP : P a s) : ∃ t, forUp w a b s body = .ok t ∧ P b t := by
  refine loop_up_spec P (P b) hab hb (by omega) ?_ (fun _ ht => ht) hP
  intro i t hai hib ht
  obtain ⟨t', ht', hP'⟩ := hstep i t hai hib ht
  exact Or.inl ⟨t', by rw [ht']; rfl, hP'⟩

/-- `forUp` when the state on reaching each counter value is known. -/
theorem forUp_eq (g : ℕ → σ) (hab : a ≤ b) (hb : b < 2 ^ w)
    (hstep : ∀ i, a ≤ i → i < b → body i (g i) = .ok (g (i + 1))) :
    forUp w a b (g a) body = .ok (g b) := by
  obtain ⟨t, ht, rfl⟩ := forUp_inv (fun i t => t = g i) hab hb
    (by rintro i _ h₁ h₂ rfl; exact ⟨_, hstep i h₁ h₂, rfl⟩) rfl
  exact ht

/-- The fault rule for `forUp`: iteration `n` faults from every state that
satisfies the invariant, and earlier ones keep it or fault in the same way. -/
theorem forUp_error (I : σ → Prop) {e : Fault} {s : σ} {n : ℕ} (han : a ≤ n) (hnb : n < b)
    (hb : b < 2 ^ w)
    (hstep : ∀ i t, a ≤ i → i < n → I t → (∃ t', body i t = .ok t' ∧ I t') ∨ body i t = .error e)
    (hn : ∀ t, I t → body n t = .error e) (hI : I s) :
    forUp w a b s body = .error e := by
  have hidx : a + (0 + (n - a)) = n := by omega
  refine loop_error (fun k => a + k) I (n - a) (2 ^ w + 1) 0 s (by omega)
    (fun j _ hj => forUp_counter hb (by omega)) (decide_eq_true (by omega)) ?_ ?_ hI
  · intro j t _ hj ht
    rcases hstep (a + j) t (by omega) (by omega) ht with ⟨t', ht', hI'⟩ | he
    · exact Or.inl ⟨t', by rw [ht']; rfl, hI'⟩
    · exact Or.inr (by rw [he]; rfl)
  · intro t ht
    rw [hidx, hn t ht]
    rfl

/-- A loop whose bound its counter cannot reach: after `2 ^ w - 1` the counter
is 0 again, and the body faults there. -/
theorem forUp_wrap_error (I : σ → Prop) {e : Fault} {s : σ} (ha : a < 2 ^ w) (hb : 2 ^ w ≤ b)
    (hstep : ∀ i t, a ≤ i → i < 2 ^ w → I t → ∃ t', body i t = .ok t' ∧ I t')
    (hzero : ∀ t, I t → body 0 t = .error e) (hI : I s) :
    forUp w a b s body = .error e := by
  have hcounter : ∀ k, a + k < 2 ^ w → wrap w (a + k) = a + k := fun k hk => wrap_of_lt hk
  have hwrap : wrap w (a + (0 + (2 ^ w - a))) = 0 := by
    rw [Nat.zero_add, Nat.add_sub_cancel' (Nat.le_of_lt ha), wrap, Nat.mod_self]
  have hloop : loop (fun i => decide (i < b)) (fun i => wrap w (i + 1))
      (fun i t => Flow.next <$> body i t) (2 ^ w + 1) (wrap w (a + 0)) s = .error e := by
    refine loop_error (fun k => wrap w (a + k)) I (2 ^ w - a) _ 0 s (by omega) ?_ ?_ ?_ ?_ hI
    · intro k _ hk
      refine ⟨decide_eq_true ((Nat.mod_lt _ (Nat.two_pow_pos w)).trans_le hb), ?_⟩
      simp only [wrap, Nat.mod_add_mod, Nat.add_assoc]
    · exact decide_eq_true ((Nat.mod_lt _ (Nat.two_pow_pos w)).trans_le hb)
    · intro k t _ hk ht
      obtain ⟨t', ht', hI'⟩ := hstep (a + k) t (by omega) (by omega) ht
      rw [hcounter k (by omega)]
      exact Or.inl ⟨t', by rw [ht']; rfl, hI'⟩
    · intro t ht
      rw [hwrap, hzero t ht]
      rfl
  rwa [hcounter 0 ha] at hloop

/-- A loop that faults in its first iteration. -/
theorem forUp_fault_first {e : Fault} {s : σ} (hab : a < b) (he : body a s = .error e) :
    forUp w a b s body = .error e := by
  have hbody : Flow.next <$> body a s = .error e := by rw [he]; rfl
  exact loop_fault (decide_eq_true hab) hbody

/-- **Accumulation.** A loop of `n` iterations that each rewrite entry `p` from
its old value leaves the value folded over the iterations there. -/
theorem forUp_accumulate {n p : ℕ} {v : List α} {x : α} {body : ℕ → List α → Exec (List α)}
    (step : ℕ → α → α) (hw : a + n < 2 ^ w) (hp : v[p]? = some x)
    (hbody : ∀ k u y, k < n → u[p]? = some y → body (a + k) u = .ok (u.set p (step k y))) :
    forUp w a (a + n) v body = .ok (v.set p (Nat.rec x step n)) := by
  obtain ⟨hlt, hx⟩ := List.getElem?_eq_some_iff.mp hp
  have hstart : v.set p (Nat.rec x step (a - a)) = v := by
    rw [Nat.sub_self]
    exact hx ▸ List.set_getElem_self hlt
  have hloop : forUp w a (a + n) (v.set p (Nat.rec x step (a - a))) body =
      .ok (v.set p (Nat.rec x step (a + n - a))) := by
    refine forUp_eq (fun i => v.set p (Nat.rec x step (i - a))) (Nat.le_add_right a n) hw ?_
    intro i hai hi
    obtain ⟨k, rfl⟩ : ∃ k, i = a + k := ⟨i - a, by omega⟩
    rw [hbody k _ _ (by omega) (List.getElem?_set_self hlt), List.set_set,
      Nat.add_sub_cancel_left, Nat.add_assoc, Nat.add_sub_cancel_left]
  rwa [hstart, Nat.add_sub_cancel_left] at hloop

/-- Writing the next entry of a vector that is filled from the front. -/
theorem set_fill (xs : List α) {n : ℕ} (h : xs.length < n) (d x : α) :
    (xs ++ List.replicate (n - xs.length) d).set xs.length x =
      xs ++ [x] ++ List.replicate (n - (xs.length + 1)) d := by
  have hrest : n - xs.length = (n - (xs.length + 1)) + 1 := by omega
  rw [List.set_append_right _ _ (Nat.le_refl _), Nat.sub_self, hrest, List.replicate_succ,
    List.set_cons_zero, List.append_assoc]
  rfl

/-- **Filling.** A loop that writes the entries of `xs` to the front of a vector
of `n` equal entries. -/
theorem forUp_fill (xs : List α) {n : ℕ} (d : α) {body : ℕ → List α → Exec (List α)}
    (hn : xs.length ≤ n) (hw : a + xs.length < 2 ^ w)
    (hbody : ∀ k u x, xs[k]? = some x → body (a + k) u = store u k x) :
    forUp w a (a + xs.length) (List.replicate n d) body =
      .ok (xs ++ List.replicate (n - xs.length) d) := by
  let g : ℕ → List α := fun i => xs.take (i - a) ++ List.replicate (n - (i - a)) d
  have hstart : List.replicate n d = g a := by simp [g]
  have hend : g (a + xs.length) = xs ++ List.replicate (n - xs.length) d := by simp [g]
  rw [hstart, ← hend]
  refine forUp_eq g (Nat.le_add_right _ _) hw ?_
  intro i hai hi
  obtain ⟨k, rfl⟩ : ∃ k, i = a + k := ⟨i - a, by omega⟩
  have hk : k < xs.length := by omega
  have hx : xs[k]? = some xs[k] := List.getElem?_eq_getElem hk
  have hlen : (xs.take k).length = k := List.length_take_of_le (Nat.le_of_lt hk)
  have hset := set_fill (xs.take k) (n := n) (by omega) d xs[k]
  rw [hlen] at hset
  simp only [g, Nat.add_assoc a k 1, Nat.add_sub_cancel_left]
  rw [hbody k _ _ hx, store_ok (by rw [List.length_append, List.length_replicate]; omega), hset,
    List.take_add_one, hx, Option.toList_some]

/-- **Collecting.** A loop that appends the entries of `xs` one by one. -/
theorem forUp_collect (xs : List α) {n : ℕ} {body : ℕ → List α → Exec (List α)}
    (hn : xs.length = n) (hw : n < 2 ^ w)
    (hbody : ∀ k u x, xs[k]? = some x → body k u = .ok (u ++ [x])) :
    forUp w 0 n [] body = .ok xs := by
  have hloop : forUp w 0 n (xs.take 0) body = .ok (xs.take n) := by
    refine forUp_eq (fun i => xs.take i) (Nat.zero_le _) hw fun i _ hi => ?_
    have hx : xs[i]? = some xs[i] := List.getElem?_eq_getElem (hn ▸ hi)
    rw [hbody i _ _ hx, List.take_add_one, hx, Option.toList_some]
  rwa [List.take_zero, ← hn, List.take_length, hn] at hloop

/-- **In-place update.** A loop over all `n` entries of a vector that rewrites
entry `i` from its old value leaves the vector of the new values. -/
theorem forUp_update {n : ℕ} (f : Fin n → α) (h : Fin n → α → α)
    {body : ℕ → List α → Exec (List α)} (hw : n < 2 ^ w)
    (hbody : ∀ (i : Fin n) (v : List α), v[i.val]? = some (f i) →
      body i v = .ok (v.set i (h i (f i)))) :
    forUp w 0 n (List.ofFn f) body = .ok (List.ofFn fun i => h i (f i)) := by
  have hstart : (List.ofFn fun i : Fin n => if i.val < 0 then h i (f i) else f i) =
      List.ofFn f := by
    simp
  have hend : (List.ofFn fun i : Fin n => if i.val < n then h i (f i) else f i) =
      List.ofFn fun i => h i (f i) := by
    simp
  rw [← hstart, ← hend]
  refine forUp_eq (fun k => List.ofFn fun i : Fin n => if i.val < k then h i (f i) else f i)
    (Nat.zero_le n) hw ?_
  intro i _ hi
  rw [hbody ⟨i, hi⟩ _ (by simp [hi])]
  congr 1
  apply List.ext_getElem (by simp)
  intro j hj _
  simp only [List.getElem_set, List.getElem_ofFn]
  by_cases hij : i = j
  · subst hij
    simp
  · rw [if_neg hij]
    simp [show (j < i + 1) = (j < i) by simp; omega]

end forUp

end Exec
