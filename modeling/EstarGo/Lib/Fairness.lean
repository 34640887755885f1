import EstarGo.Lib.Machine
import Mathlib.Logic.Function.Iterate
import Mathlib.Order.Basic
import Mathlib.Tactic.Choose

/-!
# Fair behaviours

A run is finite, so it cannot say that something happens at some time.  A
behaviour is an infinite run of a machine.  It is *fair* to a label if the label
is taken again and again while it is enabled throughout: the scheduler may take
its time, but it does not pass over a step that stays possible.

## Main results

* `Behaviour.invariant`: what holds initially and survives each step holds
  throughout.
* `Behaviour.taken_of_fair`: the rule of weak fairness.
* `exists_lasso`: a run and a cycle at its end make a behaviour.

## Design notes

**Weak fairness** is asked for label by label.  It promises nothing to a step
that is enabled again and again but disabled in between, as the locking of a
mutex would be; where a locked section is one step, it is enabled whenever its
thread is at it, and weak fairness is what a scheduler gives to a thread that
can run.

**Lassos** are how a theorem about behaviours is tried on one: a behaviour is a
function on the naturals, which no evaluation reaches the end of, and a cycle is
a list.
-/

namespace Verif

universe u v

namespace Machine

variable {σ : Type u} {ℓ : Type v} {M : Machine σ ℓ}

/-- An infinite run: the states it passes, and the label of each of its
steps. -/
structure Behaviour (M : Machine σ ℓ) where
  state : ℕ → σ
  label : ℕ → ℓ
  step : ∀ k, M.step (state k) (label k) = some (state (k + 1))

namespace Behaviour

variable (b : M.Behaviour)

/-- A label that stays enabled is taken.  From no point on is it enabled for
ever and never taken. -/
def Fair (l : ℓ) : Prop :=
  ∀ k, (∀ m, k ≤ m → M.step (b.state m) l ≠ none) → ∃ m, k ≤ m ∧ b.label m = l

variable {b}

/-- What each step keeps holds from some time on, if it holds at that time. -/
theorem invariant {I : σ → Prop}
    (preserved : ∀ {s t : σ} {l : ℓ}, I s → M.step s l = some t → I t) {k m : ℕ} (hkm : k ≤ m)
    (start : I (b.state k)) : I (b.state m) := by
  induction hkm with
  | refl => exact start
  | step _ ih => exact preserved ih (b.step _)

/-- **The rule of weak fairness.**  A label that is enabled in each state of a
property, where every other step keeps the property, is taken in a state of the
property. -/
theorem taken_of_fair {P : σ → Prop} {l : ℓ} (fair : b.Fair l)
    (enabled : ∀ {s : σ}, P s → M.step s l ≠ none)
    (stable : ∀ {s t : σ} {l' : ℓ}, P s → M.step s l' = some t → l' ≠ l → P t) {k : ℕ}
    (start : P (b.state k)) : ∃ m, k ≤ m ∧ P (b.state m) ∧ b.label m = l := by
  by_contra never
  have stays : ∀ m, k ≤ m → P (b.state m) := by
    intro m hm
    induction hm with
    | refl => exact start
    | @step m hm ih =>
        refine stable ih (b.step m) fun taken => never ⟨m, hm, ih, taken⟩
  obtain ⟨m, hm, taken⟩ := fair k fun m hm => enabled (stays m hm)
  exact never ⟨m, hm, stays m hm, taken⟩

/-- What is disabled again and again is treated fairly. -/
theorem fair_of_disabled {l : ℓ} (disabled : ∀ k, ∃ m, k ≤ m ∧ M.step (b.state m) l = none) :
    b.Fair l := by
  intro k enabled
  obtain ⟨m, hm, none⟩ := disabled k
  exact absurd none (enabled m hm)

end Behaviour

/-- **Lassos.**  A run to a state, and a cycle from there back to it, make a
behaviour that comes to that state again and again; a guard that both meet, each
step of it meets. -/
theorem exists_lasso {G : σ → ℓ → Prop} {s t : σ} {ls cycle : List ℓ}
    (run : M.exec s ls = some t) (cyclic : M.exec t cycle = some t) (moves : cycle ≠ [])
    (hrun : M.Guarded G s ls) (hcycle : M.Guarded G t cycle) :
    ∃ b : M.Behaviour, b.state 0 = s ∧ (∀ k, G (b.state k) (b.label k)) ∧
      ∀ k, ∃ m, k ≤ m ∧ b.state m = t := by
  -- a state on the way, and the labels from there to the next visit of `t`
  let OnTheWay := { x : σ × List ℓ // x.2 ≠ [] ∧ M.exec x.1 x.2 = some t ∧ M.Guarded G x.1 x.2 }
  have goes (x : OnTheWay) : ∃ (y : OnTheWay) (l : ℓ), M.step x.1.1 l = some y.1.1 ∧
      G x.1.1 l ∧ (y.1.1 = t ∨ y.1.2.length < x.1.2.length) := by
    obtain ⟨⟨r, labels⟩, some, rest, guarded⟩ := x
    cases labels with
    | nil => exact absurd rfl some
    | cons l labels =>
        obtain ⟨q, hq, rest⟩ := M.exec_cons_eq_some rest
        obtain ⟨here, guarded⟩ := (M.guarded_cons hq).mp guarded
        cases labels with
        | nil =>
            obtain rfl := Option.some.inj rest
            exact ⟨⟨(q, cycle), moves, cyclic, hcycle⟩, l, hq, here, .inl rfl⟩
        | cons l' labels =>
            exact ⟨⟨(q, l' :: labels), List.cons_ne_nil _ _, rest, guarded⟩, l, hq, here,
              .inr (Nat.lt_succ_self _)⟩
  choose next label steps meets nearer using goes
  obtain ⟨first, hfirst⟩ : ∃ x : OnTheWay, x.1.1 = s := by
    cases ls with
    | nil =>
        obtain rfl := Option.some.inj run
        exact ⟨⟨(s, cycle), moves, cyclic, hcycle⟩, rfl⟩
    | cons l ls => exact ⟨⟨(s, l :: ls), List.cons_ne_nil _ _, run, hrun⟩, rfl⟩
  have later (k : ℕ) : next^[k + 1] first = next (next^[k] first) :=
    Function.iterate_succ_apply' next k first
  refine ⟨⟨fun k => (next^[k] first).1.1, fun k => label (next^[k] first), fun k => ?_⟩, hfirst,
    fun k => meets _, fun k => ?_⟩
  · rw [steps, later]
  · -- the next visit comes nearer with each step
    induction distance : (next^[k] first).1.2.length using Nat.strongRecOn
      generalizing k with
    | ind d ih =>
        rcases nearer (next^[k] first) with here | less
        · refine ⟨k + 1, Nat.le_succ k, ?_⟩
          exact (congrArg (fun x : OnTheWay => x.1.1) (later k)).trans here
        · rw [← later, distance] at less
          obtain ⟨m, hm, visit⟩ := ih _ less (k + 1) rfl
          exact ⟨m, Nat.le_of_succ_le hm, visit⟩

end Machine

end Verif
