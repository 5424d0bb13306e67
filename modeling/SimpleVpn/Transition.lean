import Mathlib.Algebra.BigOperators.Group.List.Basic
import Mathlib.Algebra.Order.Monoid.Defs

/-!
# Transition systems that show events

A system moves from state to state; a step shows an event or is silent. Nothing
here names a particular program.

* `System.Trace es s` — some run from the initial state ends in `s` and shows
  the events `es`.
* `Trace.inv` — what holds at the start and is kept by every step holds along
  every run; it may speak about the events shown so far.
* `Trace.append` — a run goes on with a run from where it has ended.
* `Trace.balance` — double entry: if each step changes a quantity by what its
  event brings in and takes out, then so does a run; `Trace.budget` is the same
  for bounds.
* `Trace.complete` — where every step makes some number smaller, every run can be
  continued until nothing is possible.
* `Simulation` — every run of one system can be matched, event for event, by a
  run of another (`Simulation.trace`).
-/

namespace Transition

/-- Where a system starts, and what a step can do. A step shows an event, or
`none`. -/
structure System (S E : Type*) where
  /-- the state in which runs start -/
  init : S
  /-- one step, with what it shows -/
  step : S → Option E → S → Prop

variable {S S' E : Type*}

namespace System

/-- A run: the events it shows, in order, and the state it ends in. -/
inductive Trace (T : System S E) : List E → S → Prop
  /-- no step -/
  | nil : T.Trace [] T.init
  /-- one more step -/
  | tail {es : List E} {s s' : S} {o : Option E} (h : T.Trace es s) (hstep : T.step s o s') :
      T.Trace (es ++ o.toList) s'

variable {T : System S E} {es : List E} {s : S}

/-- One more step that shows an event. -/
theorem Trace.emit (h : T.Trace es s) {e : E} {s' : S} (hstep : T.step s (some e) s') :
    T.Trace (es ++ [e]) s' := h.tail hstep

/-- A run goes on with the steps of another system from where it has ended, if
they are steps of its own. -/
theorem Trace.append {U : System S E} (h : T.Trace es s) (hinit : U.init = s)
    (hsub : ∀ s o s', U.step s o s' → T.step s o s') {es' : List E} {s' : S}
    (h' : U.Trace es' s') : T.Trace (es ++ es') s' := by
  induction h' with
  | nil => rwa [List.append_nil, hinit]
  | tail _ hs ih =>
    rw [← List.append_assoc]
    exact ih.tail (hsub _ _ _ hs)

/-- **The invariant rule**, for a property of the state and the events so far. -/
theorem Trace.inv (P : List E → S → Prop) (hinit : P [] T.init)
    (hstep : ∀ es s o s', P es s → T.step s o s' → P (es ++ o.toList) s') (h : T.Trace es s) :
    P es s := by
  induction h with
  | nil => exact hinit
  | tail _ hs ih => exact hstep _ _ _ _ ih hs

/-- A run that has shown an event has taken a step that shows it, after the
events before it. -/
theorem Trace.step_of_prefix {es' : List E} {e : E} (h : T.Trace es s)
    (hpre : es' ++ [e] <+: es) : ∃ u u', T.Trace es' u ∧ T.step u (some e) u' := by
  induction h with
  | nil => exact absurd (List.prefix_nil.mp hpre) (List.append_ne_nil_of_right_ne_nil _ nofun)
  | @tail fs u u' o hrun hs ih =>
    cases o with
    | none => exact ih (by rwa [Option.toList_none, List.append_nil] at hpre)
    | some f =>
      rcases List.prefix_concat_iff.mp hpre with heq | hpre
      · obtain ⟨rfl, hlast⟩ := List.append_inj' heq rfl
        obtain ⟨rfl, -⟩ := List.cons.inj hlast
        exact ⟨u, u', hrun, hs⟩
      · exact ih hpre

/-- The sum of what the events of a list bring. -/
def total {M : Type*} [AddCommMonoid M] (g : E → M) (es : List E) : M := (es.map g).sum

theorem total_append {M : Type*} [AddCommMonoid M] (g : E → M) (es fs : List E) :
    total g (es ++ fs) = total g es + total g fs := by
  rw [total, List.map_append, List.sum_append]
  rfl

theorem total_singleton {M : Type*} [AddCommMonoid M] (g : E → M) (e : E) : total g [e] = g e := by
  rw [total, List.map_singleton, List.sum_singleton]

/-- **The rule of double entry.** A quantity that is zero at the start, and that
every step changes by what its event brings in and takes out, is at any time
what has come in, less what has gone out. -/
theorem Trace.balance {M : Type*} [AddCommMonoid M] (amount : S → M) (inn out : E → M)
    (hinit : amount T.init = 0)
    (hstep : ∀ s o s', T.step s o s' →
      amount s' + total out o.toList = amount s + total inn o.toList) (h : T.Trace es s) :
    amount s + total out es = total inn es := by
  induction h with
  | nil => exact hinit ▸ add_zero _
  | @tail es s s' o _ hs ih =>
    calc amount s' + total out (es ++ o.toList)
        = (amount s' + total out o.toList) + total out es := by
          rw [total_append, add_comm (total out es), add_assoc]
      _ = (amount s + total out es) + total inn o.toList := by
          rw [hstep s o s' hs, add_right_comm]
      _ = total inn (es ++ o.toList) := by
          rw [ih, total_append]

/-- **The budget rule.** A quantity that is zero at the start, and that every
step raises by no more than its event brings in, less what it uses up, is never
more than what has come in, less what has been used up. -/
theorem Trace.budget {M : Type*} [AddCommMonoid M] [PartialOrder M] [IsOrderedAddMonoid M]
    (amount : S → M) (inn out : E → M) (hinit : amount T.init = 0)
    (hstep : ∀ s o s', T.step s o s' →
      amount s' + total out o.toList ≤ amount s + total inn o.toList) (h : T.Trace es s) :
    amount s + total out es ≤ total inn es := by
  induction h with
  | nil => exact le_of_eq (hinit ▸ add_zero _)
  | @tail es s s' o _ hs ih =>
    calc amount s' + total out (es ++ o.toList)
        = (amount s' + total out o.toList) + total out es := by
          rw [total_append, add_comm (total out es), add_assoc]
      _ ≤ (amount s + total inn o.toList) + total out es :=
          add_le_add_left (hstep s o s' hs) _
      _ = (amount s + total out es) + total inn o.toList := add_right_comm _ _ _
      _ ≤ total inn es + total inn o.toList := add_le_add_left ih _
      _ = total inn (es ++ o.toList) := (total_append _ _ _).symm

/-- No step is possible. -/
def Stuck (T : System S E) (s : S) : Prop := ∀ o s', ¬T.step s o s'

/-- **Runs come to an end** where every step makes some number smaller: each can
be continued until no step is possible. -/
theorem Trace.complete (measure : S → ℕ)
    (hstep : ∀ s o s', T.step s o s' → measure s' < measure s) (h : T.Trace es s) :
    ∃ es' s', T.Trace (es ++ es') s' ∧ T.Stuck s' := by
  induction hn : measure s using Nat.strong_induction_on generalizing es s with
  | _ n ih =>
    by_cases hstuck : T.Stuck s
    · exact ⟨[], s, by rwa [List.append_nil], hstuck⟩
    · obtain ⟨o, s₁, hs⟩ : ∃ o s₁, T.step s o s₁ := by
        simpa only [Stuck, not_forall, not_not] using hstuck
      obtain ⟨es', s', hrun, hend⟩ := ih _ (hn ▸ hstep _ _ _ hs) (h.tail hs) rfl
      exact ⟨o.toList ++ es', s', by rwa [← List.append_assoc], hend⟩

end System

/-- A relation along which `A` can follow every step of `C`: with a step that
shows the same, or by standing still if the step is silent. -/
structure Simulation (C : System S E) (A : System S' E) (R : S → S' → Prop) : Prop where
  init : R C.init A.init
  step : ∀ {s a o s'}, R s a → C.step s o s' →
    (∃ a', A.step a o a' ∧ R s' a') ∨ (o = none ∧ R s' a)

/-- **Simulation**: every run of `C` shows what some run of `A` shows. -/
theorem Simulation.trace {C : System S E} {A : System S' E} {R : S → S' → Prop}
    (hsim : Simulation C A R) {es : List E} {s : S} (h : C.Trace es s) :
    ∃ a, A.Trace es a ∧ R s a := by
  induction h with
  | nil => exact ⟨_, .nil, hsim.init⟩
  | tail _ hs ih =>
    obtain ⟨a, hrun, hrel⟩ := ih
    rcases hsim.step hrel hs with ⟨a', ha, hrel'⟩ | ⟨rfl, hrel'⟩
    · exact ⟨a', hrun.tail ha, hrel'⟩
    · exact ⟨a, by rwa [Option.toList_none, List.append_nil], hrel'⟩

end Transition
