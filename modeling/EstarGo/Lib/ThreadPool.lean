import EstarGo.Lib.Machine
import Mathlib.Algebra.Order.BigOperators.Group.Multiset
import Mathlib.Algebra.Order.Group.Multiset
import Mathlib.Algebra.BigOperators.Ring.Finset
import Mathlib.Algebra.Order.Ring.Nat
import Mathlib.Data.Int.Cast.Lemmas

/-!
# Thread pools over a shared state

A `Program` says what one atomic step of a thread does: from the shared state,
the thread's control point `pc` and a choice, the new shared state, the control
point the thread goes on from and the threads it starts.  `Program.machine`
interleaves the threads of a `Pool` arbitrarily; its labels name the thread that
moves.

Whatever a pool conserves is a *balance*: a quantity `g` of the shared state
plus a sum over the threads of what each holds, `total f`.  The rule
`total_balance` reduces the preservation of a balance to the moving thread
alone, with the rest of the pool an opaque summand `ctx`; the rule
`forall_threads` does the same for a property of each thread.

## Main results

* `Program.step_cases`: one thread moved, and the others are as they were.
* `Pool.total_balance`: the rule for what a pool conserves.
* `Pool.total_le_add`: the rule for what grows by no more than a mover adds.
* `Pool.forall_threads`: the rule for a property of each thread.

## Design notes

**A thread never leaves the pool.**  One that has ended is at a control point
from which no choice is enabled, so the number of a thread names it for the
whole run, and threads that are started are put at the end.

**Sums, not cases.**  A balance may be in any commutative monoid: naturals
count, integers settle debts, and multisets say *which* things are held.  A
proof about a program with many control points then has one summand for each,
and no case split over the pairs of threads.
-/

namespace Verif

universe u v w

/-- Threads running over one shared state.  A thread is no more than its control
point; its locals are the fields of that point. -/
structure Pool (σ : Type u) (π : Type v) where
  shared : σ
  threads : List π

/-- One atomic step of one thread: `none` where the choice is not enabled.  The
result is the shared state, where the thread goes on, and the threads it
starts. -/
abbrev Program (σ : Type u) (π : Type v) (α : Type w) :=
  σ → π → α → Option (σ × π × List π)

variable {σ : Type u} {π : Type v} {α : Type w}

/-- Arbitrary interleaving of the threads of a pool.  No thread is preferred,
and none has to move: a run may leave any of them where it is. -/
def Program.machine (P : Program σ π α) : Machine (Pool σ π) (ℕ × α) where
  step s l := s.threads[l.1]?.bind fun pc =>
    (P s.shared pc l.2).map fun r => ⟨r.1, s.threads.set l.1 r.2.1 ++ r.2.2⟩

namespace Program

variable {P : Program σ π α} {s t : Pool σ π} {l : ℕ × α}

/-- What a step of the pool is: one thread moved and the others are as they
were.  The list of threads is split at the mover, so that sums and conditions
over it split the same way. -/
theorem step_cases (h : P.machine.step s l = some t) :
    ∃ pre pc post a sh pc' new,
      s.threads = pre ++ pc :: post ∧ s.threads[l.1]? = some pc ∧ l.2 = a ∧
        P s.shared pc a = some (sh, pc', new) ∧
          t = ⟨sh, pre ++ pc' :: (post ++ new)⟩ := by
  obtain ⟨pc, hpc, h⟩ := Option.bind_eq_some_iff.mp h
  obtain ⟨⟨sh, pc', new⟩, hstep, rfl⟩ := Option.map_eq_some_iff.mp h
  obtain ⟨hlt, hget⟩ := List.getElem?_eq_some_iff.mp hpc
  refine ⟨s.threads.take l.1, pc, s.threads.drop (l.1 + 1), l.2, sh, pc', new, ?_, hpc, rfl,
    hstep, ?_⟩
  · rw [← hget, List.getElem_cons_drop, List.take_append_drop]
  · simp [List.set_eq_take_append_cons_drop, hlt]

end Program

namespace Pool

variable {M : Type*}

/-- What the threads hold together.  The values may be numbers, or multisets of
the things held. -/
def total [AddCommMonoid M] (f : π → M) (s : Pool σ π) : M := (s.threads.map f).sum

section Total

variable [AddCommMonoid M] {P : Program σ π α} {s t : Pool σ π} {l : ℕ × α}

/-- What is held under two headings is held under both together. -/
theorem total_add (f g : π → M) (s : Pool σ π) :
    total (fun pc => f pc + g pc) s = total f s + total g s := by
  simp [total, List.sum_map_add]

/-- **The balance rule.**  A balance `g + total f = c` survives a step once the
moving thread preserves it against an arbitrary rest `ctx` of the pool.  The
rest is the same before and after, so nothing has to be known of it. -/
theorem total_balance (g c : σ → M) (f : π → M)
    (moved : ∀ pc a sh pc' new ctx, s.threads[l.1]? = some pc → l.2 = a →
      P s.shared pc a = some (sh, pc', new) →
      g s.shared + (f pc + ctx) = c s.shared →
      g sh + (f pc' + (new.map f).sum + ctx) = c sh)
    (h : P.machine.step s l = some t)
    (balanced : g s.shared + total f s = c s.shared) :
    g t.shared + total f t = c t.shared := by
  obtain ⟨pre, pc, post, a, sh, pc', new, hthreads, hpc, ha, hstep, rfl⟩ := P.step_cases h
  have before : total f s = f pc + ((pre.map f).sum + (post.map f).sum) := by
    simp only [total, hthreads, List.map_append, List.map_cons, List.sum_append,
      List.sum_cons]
    exact add_left_comm _ _ _
  have after : total f (⟨sh, pre ++ pc' :: (post ++ new)⟩ : Pool σ π) =
      f pc' + (new.map f).sum + ((pre.map f).sum + (post.map f).sum) := by
    simp only [total, List.map_append, List.map_cons, List.sum_append, List.sum_cons]
    ac_rfl
  rw [before] at balanced
  rw [after]
  exact moved pc a sh pc' new _ hpc ha hstep balanced

/-- What the threads hold grows by no more than what the moving thread adds.
Where only some steps add anything, the bound is kept by all others. -/
theorem total_le_add (f : π → ℕ) (more : π → α → ℕ)
    (moved : ∀ pc a sh pc' new, P s.shared pc a = some (sh, pc', new) →
      f pc' + (new.map f).sum ≤ f pc + more pc a)
    (h : P.machine.step s l = some t) :
    ∃ pc, s.threads[l.1]? = some pc ∧ total f t ≤ total f s + more pc l.2 := by
  obtain ⟨pre, pc, post, a, sh, pc', new, hthreads, hpc, rfl, hstep, rfl⟩ := P.step_cases h
  refine ⟨pc, hpc, ?_⟩
  have := moved pc l.2 sh pc' new hstep
  simp only [total, hthreads, List.map_append, List.map_cons, List.sum_append, List.sum_cons]
  omega

end Total

/-- A total of naturals, taken in the integers. -/
theorem total_natCast (f : π → ℕ) (s : Pool σ π) :
    total (fun pc => (f pc : ℤ)) s = ((total f s : ℕ) : ℤ) := by
  simp [total, Nat.cast_list_sum, List.map_map, Function.comp_def]

/-- What one thread holds is part of the total, so a thread that holds something
shows that the total is not zero. -/
theorem le_total (f : π → ℕ) {s : Pool σ π} {pc : π} (h : pc ∈ s.threads) :
    f pc ≤ total f s :=
  List.single_le_sum (fun _ _ => Nat.zero_le _) _ (List.mem_map_of_mem h)

/-- What a thread and one of the others hold is part of the total.  The others
are given by their places, so the two may be at the same control point. -/
theorem add_le_total_of_append (f : π → ℕ) {s : Pool σ π} {pre post : List π} {pc qc : π}
    (hthreads : s.threads = pre ++ pc :: post) (hqc : qc ∈ pre ++ post) :
    f pc + f qc ≤ total f s := by
  have held : f qc ≤ ((pre ++ post).map f).sum :=
    List.single_le_sum (fun _ _ => Nat.zero_le _) _ (List.mem_map_of_mem hqc)
  simp only [List.map_append, List.sum_append] at held
  simp only [total, hthreads, List.map_append, List.map_cons, List.sum_append, List.sum_cons]
  omega

/-- What two threads hold is part of the total, where they are at different
control points.  Where the total is one, at most one of them holds anything. -/
theorem add_le_total (f : π → ℕ) {s : Pool σ π} {pc qc : π} (hpc : pc ∈ s.threads)
    (hqc : qc ∈ s.threads) (ne : pc ≠ qc) : f pc + f qc ≤ total f s := by
  obtain ⟨pre, post, hthreads⟩ := List.mem_iff_append.mp hpc
  have hqc : qc ∈ pre ++ post := by
    rw [hthreads] at hqc
    simpa [ne.symm] using hqc
  exact add_le_total_of_append f hthreads hqc

/-- The threads hold nothing together exactly when none holds anything. -/
theorem total_eq_zero_iff (f : π → ℕ) {s : Pool σ π} :
    total f s = 0 ↔ ∀ pc ∈ s.threads, f pc = 0 := by
  simp [total, List.sum_eq_zero_iff]

/-- What each thread holds bounds what they hold together. -/
theorem total_le_total {f g : π → ℕ} {s : Pool σ π} (h : ∀ pc ∈ s.threads, f pc ≤ g pc) :
    total f s ≤ total g s :=
  List.sum_le_sum h

/-- A member of the threads' total is held by some thread. -/
theorem mem_total {β : Type*} {f : π → Multiset β} {s : Pool σ π} {b : β} :
    b ∈ total f s ↔ ∃ pc ∈ s.threads, b ∈ f pc := by
  unfold total
  induction s.threads with
  | nil => simp
  | cons pc rest ih => simp [ih]

/-- When the threads' holdings are disjoint, a member is held by one thread.
That a total has no duplicates thus says that nothing is held twice, by two
threads or by one. -/
theorem eq_of_mem_of_nodup {β : Type*} {f : π → Multiset β} {s : Pool σ π}
    (nodup : (total f s).Nodup) {pc qc : π} (hpc : pc ∈ s.threads)
    (hqc : qc ∈ s.threads) {b : β} (hb : b ∈ f pc) (hb' : b ∈ f qc) : pc = qc := by
  obtain ⟨sh, threads⟩ := s
  unfold total at nodup
  induction threads with
  | nil => cases hpc
  | cons rc rest ih =>
      simp only [List.map_cons, List.sum_cons] at nodup hpc hqc
      obtain ⟨-, hrest, hdisj⟩ := Multiset.nodup_add.mp nodup
      have disjoint {qc : π} (hqc : qc ∈ rest) (hrc : b ∈ f rc) : b ∉ f qc := by
        intro hb
        refine Multiset.disjoint_left.mp hdisj hrc ?_
        exact (mem_total (s := (⟨sh, rest⟩ : Pool σ π))).mpr ⟨qc, hqc, hb⟩
      rcases List.mem_cons.mp hpc with rfl | hpc' <;>
        rcases List.mem_cons.mp hqc with rfl | hqc'
      · rfl
      · exact absurd hb' (disjoint hqc' hb)
      · exact absurd hb (disjoint hpc' hb')
      · exact ih hrest hpc' hqc'

/-- **The rule for a property of each thread.**  The moving thread and the
threads it starts have it, and the others keep it as the shared state changes.
The property may speak of the shared state, which is why the others have to be
asked at all. -/
theorem forall_threads {P : Program σ π α} {s t : Pool σ π} {l : ℕ × α}
    (good : σ → π → Prop)
    (moved : ∀ pc a sh pc' new, s.threads[l.1]? = some pc → l.2 = a →
      P s.shared pc a = some (sh, pc', new) → good s.shared pc →
      (good sh pc' ∧ ∀ q ∈ new, good sh q) ∧
        ∀ q ∈ s.threads, good s.shared q → good sh q)
    (h : P.machine.step s l = some t)
    (all : ∀ pc ∈ s.threads, good s.shared pc) :
    ∀ pc ∈ t.threads, good t.shared pc := by
  obtain ⟨pre, pc, post, a, sh, pc', new, hthreads, hpc, ha, hstep, rfl⟩ := P.step_cases h
  obtain ⟨⟨hpc', hnew⟩, hframe⟩ :=
    moved pc a sh pc' new hpc ha hstep (all pc (List.mem_of_getElem? hpc))
  intro q hq
  have hq : q ∈ pre ∨ q = pc' ∨ q ∈ post ∨ q ∈ new := by simpa using hq
  rcases hq with hq | rfl | hq | hq
  · have hq : q ∈ s.threads := by simp [hthreads, hq]
    exact hframe q hq (all q hq)
  · exact hpc'
  · have hq : q ∈ s.threads := by simp [hthreads, hq]
    exact hframe q hq (all q hq)
  · exact hnew q hq

end Pool

end Verif
