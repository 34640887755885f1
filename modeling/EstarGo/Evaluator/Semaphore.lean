import Mathlib.Data.Nat.Notation

/-!
# The counting semaphore

`Semaphore` of `Utils.h`.  Every operation runs under the semaphore's own mutex,
so one operation is one step here; `wait` is `none` while the count is `0`,
where the source sleeps on its condition variable.

## Main results

* `wait_eq_some`: what a wait takes.

## Design notes

**The condition variable.**  Where a sleeping thread is woken or forgotten is a
matter of `Waiters`, which has the monitor's own steps and shows that each of
them is one of these operations or none.
-/

namespace EstarGo

/-- `class Semaphore`, by its count.  The mutex makes each operation one step,
and what the condition variable does is told elsewhere. -/
structure Semaphore where
  count : ℕ
  deriving DecidableEq, Repr

namespace Semaphore

/-- `Semaphore::notify(add)`: adds to the count. -/
def notify (sem : Semaphore) (add : ℕ) : Semaphore := ⟨sem.count + add⟩

/-- `Semaphore::wait(max)`: takes up to `max` permits and returns how many it
took. -/
def wait (sem : Semaphore) (max : ℕ) : Option (Semaphore × ℕ) :=
  if sem.count = 0 then none
  else if max > sem.count then some (⟨0⟩, sem.count)
  else some (⟨sem.count - max⟩, max)

/-- `Semaphore::get()`: reads the count, under the mutex, too. -/
def get (sem : Semaphore) : ℕ := sem.count

@[simp] theorem notify_count (sem : Semaphore) (add : ℕ) :
    (sem.notify add).count = sem.count + add := rfl

/-- Only an empty semaphore makes its caller wait. -/
@[simp] theorem wait_eq_none {sem : Semaphore} {max : ℕ} :
    sem.wait max = none ↔ sem.count = 0 := by
  unfold wait
  split
  · simpa
  · split <;> simpa

/-- The permits a wait returns are gone from the count, and there is at least
one of them when the caller asks for one. -/
theorem wait_eq_some {sem sem' : Semaphore} {max taken : ℕ}
    (h : sem.wait max = some (sem', taken)) :
    sem'.count + taken = sem.count ∧ taken ≤ max ∧ (0 < max → 0 < taken) := by
  unfold wait at h
  split at h
  · cases h
  · split at h <;> cases h <;> simp only <;> omega

/-- The default `wait()` takes exactly one permit. -/
theorem wait_one_eq_some {sem sem' : Semaphore} {taken : ℕ}
    (h : sem.wait 1 = some (sem', taken)) : sem'.count + 1 = sem.count ∧ taken = 1 := by
  have := wait_eq_some h
  omega

end Semaphore

end EstarGo
