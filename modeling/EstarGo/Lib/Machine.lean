import Mathlib.Data.Nat.Notation
import Mathlib.Logic.Basic

/-!
# Machines, runs and invariants

A `Machine` is a partial step function on labelled choices: `step s l` is the
state after the choice `l`, or `none` where `l` is not enabled at `s`.  A run is
the list of its labels, executed by `exec`; so a concrete run is evaluated, and
a statement about every run quantifies over lists.

An environment that is only promised to behave well on some steps is a *guard*
`G : σ → ℓ → Prop`, a condition on the state before a step and on its label.
`Guarded G s ls` says that every step of the run meets it.

## Main results

* `exec_append`: runs compose.
* `invariant`: what holds initially and survives every guarded step holds after
  every guarded run.
* `invariant_of_step`: the same for runs under no guard.
* `holds_iff_harmless`: what each step keeps exactly when its label is harmless.
* `holds_iff_guarded`: what each step keeps exactly when it meets a guard.
* `counts`: what each step raises by one counts the steps.
* `cost_le`: what a potential pays for costs no more than the potential.

## Design notes

**Determinism.**  A label decides the state after it.  What is left open, which
thread moves or what a server answers, is part of the label, so that
nondeterminism is a quantifier over labels and a run can be evaluated by
`decide`.

**Guards are not part of the machine.**  A promise of the environment restricts
the runs a theorem is about, never the steps the machine can take.  So the same
machine has theorems under different promises, and one that shows what happens
where a promise is broken.

**Guards look back only.**  A guard sees the state before a step, not the one
after it or the rest of the run; a condition on what is still to come has to be
put as one on the steps that would break it.
-/

namespace Verif

universe u v

/-- A partial step function on labelled choices.  The label says all that the
state leaves open, so a step has at most one outcome. -/
structure Machine (σ : Type u) (ℓ : Type v) where
  step : σ → ℓ → Option σ

namespace Machine

variable {σ : Type u} {ℓ : Type v} (M : Machine σ ℓ)

/-- Run a list of choices; `none` when one of them is not enabled.  A run that
is stuck before its end is no run, and says nothing. -/
def exec : σ → List ℓ → Option σ
  | s, [] => some s
  | s, l :: ls => (M.step s l).bind fun t => exec t ls

@[simp] theorem exec_nil (s : σ) : M.exec s [] = some s := rfl

theorem exec_cons (s : σ) (l : ℓ) (ls : List ℓ) :
    M.exec s (l :: ls) = (M.step s l).bind fun t => M.exec t ls := rfl

/-- The first step of a run, and the run that is left.  Every induction over a
run that goes forward begins here. -/
theorem exec_cons_eq_some {s t : σ} {l : ℓ} {ls : List ℓ}
    (h : M.exec s (l :: ls) = some t) :
    ∃ r, M.step s l = some r ∧ M.exec r ls = some t := by
  rwa [exec_cons, Option.bind_eq_some_iff] at h

/-- Runs compose: a run along two lists is a run along the first and then one
along the second. -/
theorem exec_append (s : σ) (ls ms : List ℓ) :
    M.exec s (ls ++ ms) = (M.exec s ls).bind fun t => M.exec t ms := by
  induction ls generalizing s with
  | nil => rfl
  | cons l ls ih =>
      rw [List.cons_append, exec_cons, exec_cons]
      cases M.step s l with
      | none => rfl
      | some t => exact ih t

/-- Every step of the run from `s` along the choices meets the guard `G`.  A
step that is not enabled ends the condition with itself: what would follow is
not asked for. -/
def Guarded (G : σ → ℓ → Prop) : σ → List ℓ → Prop
  | _, [] => True
  | s, l :: ls => G s l ∧ ∀ t ∈ M.step s l, Guarded G t ls

@[simp] theorem guarded_nil (G : σ → ℓ → Prop) (s : σ) : M.Guarded G s [] := trivial

/-- The guard of a run is the guard of its first step and of the rest, from the
state after that step. -/
theorem guarded_cons {G : σ → ℓ → Prop} {s t : σ} {l : ℓ} {ls : List ℓ}
    (hst : M.step s l = some t) :
    M.Guarded G s (l :: ls) ↔ G s l ∧ M.Guarded G t ls := by
  simp [Guarded, hst]

instance decidableGuarded (G : σ → ℓ → Prop) [∀ s l, Decidable (G s l)] :
    ∀ (s : σ) (ls : List ℓ), Decidable (M.Guarded G s ls)
  | _, [] => .isTrue trivial
  | s, l :: ls =>
      match h : M.step s l with
      | none => decidable_of_iff (G s l) (by simp [Guarded, h])
      | some t =>
          have := decidableGuarded G t ls
          decidable_of_iff (G s l ∧ M.Guarded G t ls) (by simp [Guarded, h])

/-- A guard that every step meets restricts nothing: a theorem under such a
guard is one about all runs. -/
theorem guarded_of_forall {G : σ → ℓ → Prop} (hG : ∀ s l, G s l) (s : σ)
    (ls : List ℓ) : M.Guarded G s ls := by
  induction ls generalizing s with
  | nil => trivial
  | cons l ls ih => exact ⟨hG s l, fun t _ => ih t⟩

/-- A guard on labels alone is a condition on the members of the list, wherever
the run goes. -/
theorem guarded_of_forall_mem {G : ℓ → Prop} {ls : List ℓ} (hG : ∀ l ∈ ls, G l) (s : σ) :
    M.Guarded (fun _ => G) s ls := by
  induction ls generalizing s with
  | nil => trivial
  | cons l ls ih =>
      obtain ⟨hl, hls⟩ := List.forall_mem_cons.mp hG
      exact ⟨hl, fun t _ => ih hls t⟩

/-- Two guards that a run meets are one guard, so that promises that are stated
apart can be used together. -/
theorem Guarded.and {G G' : σ → ℓ → Prop} {s : σ} {ls : List ℓ} (h : M.Guarded G s ls)
    (h' : M.Guarded G' s ls) : M.Guarded (fun s l => G s l ∧ G' s l) s ls := by
  induction ls generalizing s with
  | nil => trivial
  | cons l ls ih => exact ⟨⟨h.1, h'.1⟩, fun t ht => ih (h.2 t ht) (h'.2 t ht)⟩

/-- **The invariant rule.**  What a guarded step preserves, a guarded run
preserves.  The guard is given to the preservation of each step, where the state
before it is known to satisfy the invariant. -/
theorem invariant {G : σ → ℓ → Prop} {I : σ → Prop}
    (preserved : ∀ {s t : σ} {l : ℓ}, I s → G s l → M.step s l = some t → I t)
    {s t : σ} {ls : List ℓ} (start : I s) (guarded : M.Guarded G s ls)
    (run : M.exec s ls = some t) : I t := by
  induction ls generalizing s with
  | nil =>
      cases run
      exact start
  | cons l ls ih =>
      obtain ⟨r, hr, rest⟩ := M.exec_cons_eq_some run
      obtain ⟨hl, hls⟩ := (M.guarded_cons hr).mp guarded
      exact ih (preserved start hl hr) hls rest

/-- A guard that implies another, at the states of an invariant.  With it a
theorem under a weak guard is used under one that is stronger only where the
invariant holds. -/
theorem guarded_of_guarded {G G' : σ → ℓ → Prop} {I : σ → Prop}
    (preserved : ∀ {s t : σ} {l : ℓ}, I s → M.step s l = some t → I t)
    (implies : ∀ {s : σ} {l : ℓ}, I s → G s l → G' s l)
    {s : σ} {ls : List ℓ} (start : I s) (guarded : M.Guarded G s ls) : M.Guarded G' s ls := by
  induction ls generalizing s with
  | nil => trivial
  | cons l ls ih =>
      exact ⟨implies start guarded.1, fun t ht => ih (preserved start ht) (guarded.2 t ht)⟩

/-- **The record rule.**  A property that each step keeps exactly when its label
is harmless holds after a run exactly when it held before and every label was
harmless.  The property may not come back once it is lost, which is what the
equivalence at each step says. -/
theorem holds_iff_harmless {G : σ → ℓ → Prop} {I P : σ → Prop} {harmless : ℓ → Prop}
    (preserved : ∀ {s t : σ} {l : ℓ}, I s → G s l → M.step s l = some t → I t)
    (kept : ∀ {s t : σ} {l : ℓ}, I s → G s l → M.step s l = some t →
      (P t ↔ P s ∧ harmless l))
    {s t : σ} {ls : List ℓ} (start : I s) (guarded : M.Guarded G s ls)
    (run : M.exec s ls = some t) : P t ↔ P s ∧ ∀ l ∈ ls, harmless l := by
  induction ls generalizing s with
  | nil =>
      cases run
      simp
  | cons l ls ih =>
      obtain ⟨r, hr, rest⟩ := M.exec_cons_eq_some run
      obtain ⟨hl, hls⟩ := (M.guarded_cons hr).mp guarded
      rw [ih (preserved start hl hr) hls rest, kept start hl hr, List.forall_mem_cons,
        and_assoc]

/-- **The guard rule.**  A property that each step keeps exactly when it meets a
guard holds after a run exactly when it held before and every step met the
guard. -/
theorem holds_iff_guarded {G : σ → ℓ → Prop} {I P : σ → Prop}
    (preserved : ∀ {s t : σ} {l : ℓ}, I s → M.step s l = some t → I t)
    (kept : ∀ {s t : σ} {l : ℓ}, I s → M.step s l = some t → (P t ↔ P s ∧ G s l))
    {s t : σ} {ls : List ℓ} (start : I s) (run : M.exec s ls = some t) :
    P t ↔ P s ∧ M.Guarded G s ls := by
  induction ls generalizing s with
  | nil =>
      cases run
      simp
  | cons l ls ih =>
      obtain ⟨r, hr, rest⟩ := M.exec_cons_eq_some run
      rw [ih (preserved start hr) rest, kept start hr, M.guarded_cons hr, and_assoc]

/-- **The counting rule.**  What each guarded step raises by one counts the
steps.  The invariant is carried along, since a step may count only where it
holds. -/
theorem counts {G : σ → ℓ → Prop} {I : σ → Prop} {f : σ → ℕ}
    (preserved : ∀ {s t : σ} {l : ℓ}, I s → G s l → M.step s l = some t →
      I t ∧ f t = f s + 1)
    {s t : σ} {ls : List ℓ} (start : I s) (guarded : M.Guarded G s ls)
    (run : M.exec s ls = some t) : I t ∧ f t = f s + ls.length := by
  induction ls generalizing s with
  | nil =>
      cases run
      exact ⟨start, rfl⟩
  | cons l ls ih =>
      obtain ⟨r, hr, rest⟩ := M.exec_cons_eq_some run
      obtain ⟨hl, hls⟩ := (M.guarded_cons hr).mp guarded
      obtain ⟨kept, counted⟩ := preserved start hl hr
      obtain ⟨kept', counted'⟩ := ih kept hls rest
      refine ⟨kept', ?_⟩
      rw [counted', counted, List.length_cons, Nat.add_assoc, Nat.add_comm 1]

/-- What the steps of a run cost, added up as far as they are enabled.  The
price of a step may depend on the state it is taken at. -/
def cost (price : σ → ℓ → ℕ) : σ → List ℓ → ℕ
  | _, [] => 0
  | s, l :: ls => (M.step s l).elim 0 fun t => price s l + cost price t ls

/-- **The potential rule.**  Where each step is paid for by a potential, a run
costs no more than the potential at its start, however long it is.  A step that
costs nothing may lower the potential, and no step raises it. -/
theorem cost_le {price : σ → ℓ → ℕ} {potential : σ → ℕ} {I : σ → Prop}
    (paid : ∀ {s t : σ} {l : ℓ}, I s → M.step s l = some t →
      I t ∧ potential t + price s l ≤ potential s)
    {s : σ} {ls : List ℓ} (start : I s) : M.cost price s ls ≤ potential s := by
  induction ls generalizing s with
  | nil => exact Nat.zero_le _
  | cons l ls ih =>
      rw [cost]
      cases h : M.step s l with
      | none => exact Nat.zero_le _
      | some t =>
          obtain ⟨kept, spent⟩ := paid start h
          have rest := ih kept
          simp only [Option.elim_some]
          omega

/-- The invariant rule for runs under no guard. -/
theorem invariant_of_step {I : σ → Prop}
    (preserved : ∀ {s t : σ} {l : ℓ}, I s → M.step s l = some t → I t)
    {s t : σ} {ls : List ℓ} (start : I s) (run : M.exec s ls = some t) : I t :=
  M.invariant (G := fun _ _ => True) (fun hs _ => preserved hs) start
    (M.guarded_of_forall (fun _ _ => trivial) s ls) run

end Machine

end Verif
