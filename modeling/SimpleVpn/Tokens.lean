import Mathlib.Algebra.BigOperators.Group.Multiset.Basic
import Mathlib.Logic.Relation
import SimpleVpn.Transition

/-!
# Tokens that go their own ways

A bag of tokens of which each moves by itself: a move shows an event and leaves
nothing, or one smaller token. Nothing here names a particular program.

Tokens do not meet, so the order in which they move does not matter. What a token
has still to show, and what it leaves behind, is settled from the start
(`outcome`), and no move of any token changes the sum over the bag (`Trace.total`).
So all runs to the end show the same events and leave the same bag
(`Trace.settled`), and what one token has to show is among them
(`Trace.mem_of_outcome`).
-/

namespace Transition

/-- What a token does next: an event, and the token it leaves, if any. A token
that does nothing is stuck. -/
structure Tokens (T E : Type*) where
  next : T → Option (E × Option T)
  size : T → ℕ
  next_lt : ∀ {t : T} {e : E} {t' : T}, next t = some (e, some t') → size t' < size t

namespace Tokens

variable {T E : Type*} (K : Tokens T E)

/-- The moves of a bag of tokens. -/
def bag (start : Multiset T) : System (Multiset T) E where
  init := start
  step b o b' := ∃ t e left rest, K.next t = some (e, left) ∧ b = t ::ₘ rest ∧ o = some e ∧
    b' = (left.toList : Multiset T) + rest

/-- What a token shows until it is stuck or gone, and what it leaves. -/
def outcome (t : T) : Multiset E × Multiset T :=
  match h : K.next t with
  | none => (0, {t})
  | some (e, none) => ({e}, 0)
  | some (e, some t') => ({e}, 0) + outcome t'
termination_by K.size t
decreasing_by exact K.next_lt h

/-- What the tokens of a bag show and leave. -/
def total (b : Multiset T) : Multiset E × Multiset T := (b.map K.outcome).sum

variable {K} {t : T} {e : E} {left : Option T} {b start : Multiset T} {es : List E}

theorem outcome_stuck (h : K.next t = none) : K.outcome t = (0, {t}) := by
  rw [outcome]
  split
  · rfl
  · cases h.symm.trans ‹_›
  · cases h.symm.trans ‹_›

theorem outcome_next (h : K.next t = some (e, left)) :
    K.outcome t = ({e}, 0) + K.total (left.toList : Multiset T) := by
  rw [outcome]
  split
  · cases h.symm.trans ‹_›
  · cases h.symm.trans ‹_›
    exact (add_zero _).symm
  · cases h.symm.trans ‹_›
    rw [total, Option.toList_some, Multiset.coe_singleton, Multiset.map_singleton,
      Multiset.sum_singleton]

theorem total_cons (t : T) (b : Multiset T) : K.total (t ::ₘ b) = K.outcome t + K.total b := by
  rw [total, Multiset.map_cons, Multiset.sum_cons]
  rfl

theorem total_add (b b' : Multiset T) : K.total (b + b') = K.total b + K.total b' := by
  rw [total, Multiset.map_add, Multiset.sum_add]
  rfl

/-- Tokens that are stuck stay. -/
theorem total_stuck (h : ∀ t ∈ b, K.next t = none) : K.total b = (0, b) := by
  induction b using Multiset.induction_on with
  | empty => rfl
  | cons t b ih =>
    obtain ⟨ht, hb⟩ := Multiset.forall_mem_cons.mp h
    rw [total_cons, outcome_stuck ht, ih hb]
    rfl

/-- What the token that some moves leave shows next, the first token shows. -/
theorem mem_outcome {t' : T}
    (hmoves : Relation.ReflTransGen (fun t t' => ∃ e, K.next t = some (e, some t')) t t')
    (h : K.next t' = some (e, left)) : e ∈ (K.outcome t).1 := by
  induction hmoves using Relation.ReflTransGen.head_induction_on with
  | refl =>
    rw [outcome_next h]
    exact Multiset.mem_add.mpr (Or.inl (Multiset.mem_singleton_self e))
  | @head t u hmove _ ih =>
    obtain ⟨e', hnext⟩ := hmove
    have hone : K.total ((some u).toList : Multiset T) = K.outcome u :=
      (total_cons u 0).trans (add_zero _)
    rw [outcome_next hnext, hone]
    exact Multiset.mem_add.mpr (Or.inr ih)

/-- One move: what it shows, and what the tokens then show and leave. -/
theorem total_move (h : K.next t = some (e, left)) (rest : Multiset T) :
    K.total (t ::ₘ rest) = ({e}, 0) + K.total ((left.toList : Multiset T) + rest) := by
  rw [total_cons, outcome_next h, add_assoc, ← total_add]

/-- **No move changes the outcome**: what has been shown, with what the bag has
still to show and will leave. -/
theorem Trace.total (h : (K.bag start).Trace es b) :
    ((es : Multiset E), 0) + K.total b = K.total start := by
  refine h.inv (fun es b => ((es : Multiset E), 0) + K.total b = K.total start) (zero_add _) ?_
  rintro es b o b' ih ⟨t, e, left, rest, hnext, rfl, rfl, rfl⟩
  have hes : (((es ++ [e] : List E) : Multiset E), (0 : Multiset T)) =
      ((es : Multiset E), 0) + (({e} : Multiset E), 0) := by
    rw [Prod.mk_add_mk, add_zero, ← Multiset.coe_add, Multiset.coe_singleton]
  rw [Option.toList_some, hes, add_assoc, ← total_move hnext]
  exact ih

/-- **The outcome of a bag.** All runs that end with nothing left to move show
the same events, each as often, and leave the same tokens. -/
theorem Trace.settled {es' : List E} {b' : Multiset T} (h : (K.bag start).Trace es b)
    (h' : (K.bag start).Trace es' b') (hb : ∀ t ∈ b, K.next t = none)
    (hb' : ∀ t ∈ b', K.next t = none) : es.Perm es' ∧ b = b' := by
  -- both are what the bag had to show and leave at first
  have heq := (Trace.total h).trans (Trace.total h').symm
  rw [total_stuck hb, total_stuck hb'] at heq
  obtain ⟨hevents, hleft⟩ := Prod.mk.inj heq
  rw [add_zero, add_zero] at hevents
  rw [zero_add, zero_add] at hleft
  exact ⟨Multiset.coe_eq_coe.mp hevents, hleft⟩

/-- In a run to the end, every token of the bag has shown what it had to show. -/
theorem Trace.mem_of_outcome (h : (K.bag start).Trace es b) (hb : ∀ t ∈ b, K.next t = none)
    (ht : t ∈ start) (he : e ∈ (K.outcome t).1) : e ∈ es := by
  obtain ⟨rest, rfl⟩ := Multiset.exists_cons_of_mem ht
  have heq := congrArg Prod.fst (Trace.total h)
  rw [total_stuck hb, total_cons] at heq
  have hevents : (es : Multiset E) + 0 = (K.outcome t).1 + (K.total rest).1 := heq
  rw [← Multiset.mem_coe, ← add_zero (es : Multiset E), hevents]
  exact Multiset.mem_add.mpr (Or.inl he)

end Tokens

end Transition
