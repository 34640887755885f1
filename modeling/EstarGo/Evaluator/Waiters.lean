import EstarGo.Evaluator.Semaphore
import EstarGo.Lib.Monitor
import Mathlib.Data.PNat.Basic

/-!
# The waiters of a semaphore

`Semaphore` with its mutex and its condition variable.  `notify(add)` adds its
permits and signals once, `wait(max)` takes up to `max` of them, and a waiter
that is woken tests the count again.  So a `notify` of several permits may wake
a waiter that takes fewer, and leave the others asleep.

## Main definitions

* `monitor` — the steps of `wait` and `notify`.
* `Lost` — permits are left, a waiter sleeps, and no thread is about to change
  that.
* `Covered` — a `notify` that leaves no more permits than the woken waiters can
  take.
* `operations` — the operations of a run, in the order of their locked sections.

## Main results

* `atomic_of_run`: a run has the effect of its operations, one step each.
* `no_lost_wakeup`: no permit is lost, and no wake-up where each `notify` is
  covered.
* `lost_of_uncovered`: after a `notify` that is not covered a wake-up can be
  lost.

## Design notes

**Two views of one class.**  The client uses the semaphore as if each operation
were one step, and `atomic_of_run` is what allows it: whatever the sleepers do,
the counts and the permits are those of the operations in the order of their
locked sections.  What the operations do not show is who sleeps on beside a
permit, and that is the other result.

**The condition variable.**  `notify_one` wakes some sleeper, whichever the run
names, and none where nobody sleeps.  A sleeper may also wake by itself.
-/

namespace EstarGo.Waiters

open Verif

/-! ## The steps

The locked sections, and what lies between them. -/

/-- The count, and two records: the permits that the waits have returned, and
the notified ones.  The source keeps neither of the records. -/
structure Permits where
  count : ℤ
  returned : ℤ
  notified : ℤ
  deriving DecidableEq, Repr

/-- Control points of a thread that uses the semaphore. -/
inductive Pc where
  | outside
  /-- `wait(max)`, before its locked section. -/
  | entering (max : ℕ+)
  /-- In `cv.wait`, asleep and then woken. -/
  | sleeping (max : ℕ+)
  | woken (max : ℕ+)
  /-- `notify(add)`, before its locked section. -/
  | notifying (add : ℕ+)
  deriving DecidableEq

/-- A thread calls an operation, or goes on in it. -/
inductive Choice where
  | wait (max : ℕ+)
  | notify (add : ℕ+)
  | go
  deriving DecidableEq

namespace Permits

variable (sh : Permits)

/-- `wait(max)`, past its loop: it takes what is there, up to `max`. -/
def take (max : ℕ+) : Permits :=
  if (max : ℤ) > sh.count then { sh with count := 0, returned := sh.returned + sh.count }
  else { sh with count := sh.count - (max : ℤ), returned := sh.returned + (max : ℤ) }

/-- `wait(max)`, from the test of its loop on: it sleeps, or takes its permits.
`cv.wait` gives up the mutex and sleeps in one step. -/
def test (max : ℕ+) : Effect Permits Pc :=
  if sh.count = 0 then ⟨sh, .sleeping max, .silent, []⟩
  else ⟨sh.take max, .outside, .silent, []⟩

/-- `notify(add)`, under the mutex. -/
def notify (add : ℕ+) : Permits :=
  { sh with count := sh.count + (add : ℤ), notified := sh.notified + (add : ℤ) }

end Permits

namespace Pc

/-- The thread is asleep. -/
def isSleeping : Pc → Bool
  | sleeping _ => true
  | _ => false

/-- `notify_one` makes the thread runnable. -/
def wake : Pc → Pc
  | sleeping max => woken max
  | pc => pc

/-- The thread is inside `wait` or `notify` and not asleep. -/
def isRunnable : Pc → Bool
  | entering _ => true
  | woken _ => true
  | notifying _ => true
  | outside => false
  | sleeping _ => false

/-- What a control point adds to the sleepers. -/
def asleep : Pc → ℕ
  | sleeping _ => 1
  | _ => 0

/-- What a thread about to test the count can take. -/
def demand : Pc → ℕ
  | entering max => max
  | woken max => max
  | _ => 0

/-- What a sleeping thread can take once it is woken. -/
def asked : Pc → ℕ
  | sleeping max => max
  | _ => 0

/-- What a thread about to notify adds. -/
def added : Pc → ℕ
  | notifying add => add
  | _ => 0

end Pc

/-- `class Semaphore`, with a thread in each of its calls.  `notify_one` is
called under the mutex, so the notification and its signal are one step. -/
def monitor : Monitor Permits Pc Choice where
  asleep := Pc.isSleeping
  wake := Pc.wake
  program
    | sh, .outside, .wait max => some ⟨sh, .entering max, .silent, []⟩
    | sh, .outside, .notify add => some ⟨sh, .notifying add, .silent, []⟩
    | sh, .entering max, .go => some (sh.test max)
    | sh, .woken max, .go => some (sh.test max)
    | sh, .notifying add, .go => some ⟨sh.notify add, .outside, .notifyOne, []⟩
    | _, _, _ => none

/-- A new semaphore, and threads that have not used it. -/
def start (threads : ℕ) (count : ℤ) : Pool Permits Pc :=
  ⟨⟨count, 0, 0⟩, List.replicate threads .outside⟩

/-- Permits are left, a waiter sleeps, and no thread is runnable inside an
operation.  Unless another call of `notify` or a spurious wake-up comes, the
waiter sleeps for ever beside the permits. -/
def Lost (s : Pool Permits Pc) : Prop :=
  0 < s.shared.count ∧ (∃ pc ∈ s.threads, pc.isSleeping = true) ∧
    ∀ pc ∈ s.threads, pc.isRunnable = false

/-- How many threads sleep. -/
def sleepers (s : Pool Permits Pc) : ℕ := s.total Pc.asleep

/-- What the threads about to test the count can take together. -/
def demand (s : Pool Permits Pc) : ℕ := s.total Pc.demand

/-- A `notify` that wakes one of several sleepers leaves no more permits than
that one and the threads about to test the count can take. -/
def Covered (s : Pool Permits Pc) : Turn Choice → Prop
  | .move i _ (some j) =>
      sleepers s ≤ 1 ∨ s.shared.count + ((s.threads[i]?.map Pc.added).getD 0 : ℕ) ≤
        (demand s + (s.threads[j]?.map Pc.asked).getD 0 : ℕ)
  | .move _ _ none => True
  | .spurious _ => True

instance : ∀ (s : Pool Permits Pc) (l : Turn Choice), Decidable (Covered s l)
  | _, .move _ _ (some _) => inferInstanceAs (Decidable (_ ∨ _))
  | _, .move _ _ none => .isTrue trivial
  | _, .spurious _ => .isTrue trivial

instance (s : Pool Permits Pc) : Decidable (Lost s) := inferInstanceAs (Decidable (_ ∧ _ ∧ _))

/-! ## What a step does

The inversion of the monitor's steps. -/

variable {s t : Pool Permits Pc} {pc : Pc}

/-- A sleeper is in a `wait`. -/
theorem exists_of_isSleeping (h : pc.isSleeping = true) : ∃ max, pc = .sleeping max := by
  cases pc with
  | sleeping max => exact ⟨max, rfl⟩
  | _ => cases h

/-- The thread is about to test the count. -/
def Pc.Tests (pc : Pc) (max : ℕ+) : Prop := pc = entering max ∨ pc = woken max

/-- The steps: two calls, the test of a wait with its two ends, a notification
with and without a sleeper to wake, and a sleeper that wakes by itself. -/
inductive Steps (s : Pool Permits Pc) : Turn Choice → Pool Permits Pc → Prop where
  | callWait {i : ℕ} (max : ℕ+) (at_pc : s.threads[i]? = some .outside) :
      Steps s (.move i (.wait max) none) ⟨s.shared, s.threads.set i (.entering max)⟩
  | callNotify {i : ℕ} (add : ℕ+) (at_pc : s.threads[i]? = some .outside) :
      Steps s (.move i (.notify add) none) ⟨s.shared, s.threads.set i (.notifying add)⟩
  | sleep {i : ℕ} {pc : Pc} (max : ℕ+) (at_pc : s.threads[i]? = some pc) (tests : pc.Tests max)
      (empty : s.shared.count = 0) :
      Steps s (.move i .go none) ⟨s.shared, s.threads.set i (.sleeping max)⟩
  | take {i : ℕ} {pc : Pc} (max : ℕ+) (at_pc : s.threads[i]? = some pc) (tests : pc.Tests max)
      (nonempty : s.shared.count ≠ 0) :
      Steps s (.move i .go none) ⟨s.shared.take max, s.threads.set i .outside⟩
  | unheard {i : ℕ} (add : ℕ+) (at_pc : s.threads[i]? = some (.notifying add))
      (awake : ∀ pc ∈ s.threads.set i .outside, pc.isSleeping = false) :
      Steps s (.move i .go none) ⟨s.shared.notify add, s.threads.set i .outside⟩
  | notify {i j : ℕ} (add max : ℕ+) (at_pc : s.threads[i]? = some (.notifying add))
      (sleeper : s.threads[j]? = some (.sleeping max))
      (sleeper_set : (s.threads.set i .outside)[j]? = some (.sleeping max)) :
      Steps s (.move i .go (some j))
        ⟨s.shared.notify add, (s.threads.set i .outside).set j (.woken max)⟩
  | spurious {j : ℕ} (max : ℕ+) (sleeper : s.threads[j]? = some (.sleeping max)) :
      Steps s (.spurious j) ⟨s.shared, s.threads.set j (.woken max)⟩

theorem eq_of_delivered_silent {threads threads' : List Pc} {woken : Option ℕ}
    (h : monitor.Delivered threads .silent woken threads') : woken = none ∧ threads' = threads := by
  cases h
  exact ⟨rfl, rfl⟩

/-- Testing the count is going to sleep or taking permits. -/
theorem steps_of_test {i : ℕ} {max : ℕ+} {woken : Option ℕ} {threads : List Pc}
    (at_pc : s.threads[i]? = some pc) (tests : pc.Tests max)
    (delivered : monitor.Delivered (s.threads.set i (s.shared.test max).pc)
      (s.shared.test max).signal woken threads) :
    Steps s (.move i .go woken)
      ⟨(s.shared.test max).shared, threads ++ (s.shared.test max).started⟩ := by
  unfold Permits.test at *
  split at delivered
  · next empty =>
      obtain ⟨rfl, rfl⟩ := eq_of_delivered_silent delivered
      rw [if_pos empty, List.append_nil]
      exact .sleep max at_pc tests empty
  · next nonempty =>
      obtain ⟨rfl, rfl⟩ := eq_of_delivered_silent delivered
      rw [if_neg nonempty, List.append_nil]
      exact .take max at_pc tests nonempty

/-- A woken thread is not the one that notifies. -/
theorem sleeper_of_set {threads : List Pc} {i j : ℕ} {max : ℕ+}
    (h : (threads.set i .outside)[j]? = some (.sleeping max)) :
    threads[j]? = some (.sleeping max) := by
  rw [List.getElem?_set] at h
  split at h
  · split at h <;> cases h
  · exact h

/-- Every step of the monitor is one of them. -/
theorem steps_of_step {l : Turn Choice} (h : monitor.machine.step s l = some t) :
    Steps s l t := by
  cases l with
  | spurious j =>
      obtain ⟨pc, hpc, sleeping, rfl⟩ := Monitor.step_spurious h
      obtain ⟨max, rfl⟩ := exists_of_isSleeping sleeping
      exact .spurious max hpc
  | move i a woken =>
      obtain ⟨pc, e, threads, hpc, he, delivered, rfl⟩ := Monitor.step_move h
      cases pc with
      | outside =>
          cases a with
          | wait max =>
              obtain rfl := Option.some.inj he
              obtain ⟨rfl, rfl⟩ := eq_of_delivered_silent delivered
              rw [List.append_nil]
              exact .callWait max hpc
          | notify add =>
              obtain rfl := Option.some.inj he
              obtain ⟨rfl, rfl⟩ := eq_of_delivered_silent delivered
              rw [List.append_nil]
              exact .callNotify add hpc
          | go => cases he
      | sleeping max => cases a <;> cases he
      | entering max =>
          cases a with
          | go =>
              obtain rfl := Option.some.inj he
              exact steps_of_test hpc (.inl rfl) delivered
          | _ => cases he
      | woken max =>
          cases a with
          | go =>
              obtain rfl := Option.some.inj he
              exact steps_of_test hpc (.inr rfl) delivered
          | _ => cases he
      | notifying add =>
          cases a with
          | go =>
              obtain rfl := Option.some.inj he
              rw [List.append_nil]
              cases delivered with
              | unheard awake => exact .unheard add hpc awake
              | one sleeper asleep =>
                  obtain ⟨max, rfl⟩ := exists_of_isSleeping asleep
                  exact .notify add max hpc (sleeper_of_set sleeper) sleeper
          | _ => cases he

/-! ## Sleepers and permits

Two sums over the threads. -/

/-- A step of one thread changes the number of sleepers by that thread's
part. -/
theorem sleepers_set {i : ℕ} (h : s.threads[i]? = some pc) (sh : Permits) (pc' : Pc) :
    sleepers ⟨sh, s.threads.set i pc'⟩ + pc.asleep = sleepers s + pc'.asleep :=
  sum_map_set Pc.asleep h pc'

theorem demand_set {i : ℕ} (h : s.threads[i]? = some pc) (sh : Permits) (pc' : Pc) :
    demand ⟨sh, s.threads.set i pc'⟩ + pc.demand = demand s + pc'.demand :=
  sum_map_set Pc.demand h pc'

/-- A sleeper that wakes is one of the threads that can take permits. -/
theorem wake_set {j : ℕ} {max : ℕ+} (h : s.threads[j]? = some (.sleeping max)) (sh : Permits) :
    sleepers ⟨sh, s.threads.set j (.woken max)⟩ + 1 = sleepers s ∧
      demand ⟨sh, s.threads.set j (.woken max)⟩ = demand s + max :=
  ⟨sleepers_set h sh (.woken max), demand_set h sh (.woken max)⟩

/-- Such a thread is awake, and can take what it asks for. -/
theorem Pc.Tests.counts {max : ℕ+} (h : pc.Tests max) :
    pc.asleep = 0 ∧ pc.demand = max := by
  rcases h with rfl | rfl <;> exact ⟨rfl, rfl⟩

/-- A thread that has taken its permits asks for no more. -/
theorem take_set {i : ℕ} {max : ℕ+} (at_pc : s.threads[i]? = some pc) (tests : pc.Tests max)
    (sh : Permits) :
    sleepers ⟨sh, s.threads.set i .outside⟩ = sleepers s ∧
      demand ⟨sh, s.threads.set i .outside⟩ + max = demand s := by
  obtain ⟨awake, demanded⟩ := tests.counts
  have same := sleepers_set at_pc sh .outside
  have less := demand_set at_pc sh .outside
  rw [awake] at same
  rw [demanded] at less
  exact ⟨same, less⟩

/-- A notification makes one sleeper a thread that can take permits. -/
theorem notify_set {i j : ℕ} {add max : ℕ+} (at_pc : s.threads[i]? = some (.notifying add))
    (sleeper : (s.threads.set i .outside)[j]? = some (.sleeping max)) (sh : Permits) :
    sleepers ⟨sh, (s.threads.set i .outside).set j (.woken max)⟩ + 1 = sleepers s ∧
      demand ⟨sh, (s.threads.set i .outside).set j (.woken max)⟩ = demand s + max := by
  have same : sleepers ⟨sh, s.threads.set i .outside⟩ = sleepers s :=
    sleepers_set at_pc sh .outside
  have same' : demand ⟨sh, s.threads.set i .outside⟩ = demand s := demand_set at_pc sh .outside
  have woken := wake_set (s := ⟨sh, s.threads.set i .outside⟩) sleeper sh
  rwa [same, same'] at woken

/-- There are sleepers where somebody sleeps. -/
theorem sleepers_pos_iff : 0 < sleepers s ↔ ∃ pc ∈ s.threads, pc.isSleeping = true := by
  have one (pc : Pc) : pc.asleep = 0 ↔ ¬ pc.isSleeping = true := by
    cases pc <;> simp [Pc.asleep, Pc.isSleeping]
  rw [Nat.pos_iff_ne_zero, ne_eq, sleepers, Pool.total_eq_zero_iff]
  simp [one]

/-- `wait` returns no more than is left, and leaves the rest. -/
theorem count_take (sh : Permits) (max : ℕ+) :
    (sh.take max).returned + (sh.take max).count = sh.returned + sh.count ∧
      (sh.take max).notified = sh.notified ∧
        ((sh.take max).count = 0 ∨ (sh.take max).count = sh.count - (max : ℤ)) := by
  unfold Permits.take
  split
  · exact ⟨by simp, rfl, .inl rfl⟩
  · exact ⟨by simp only; omega, rfl, .inr rfl⟩

/-! ## Runs whose notifications are covered

The invariant behind the second half of `no_lost_wakeup`. -/

/-- While a waiter sleeps, the threads about to test the count can take what is
left.  This is the invariant that a covered notification keeps, and it excludes
a lost wake-up at once. -/
def Balanced (s : Pool Permits Pc) : Prop := 0 < sleepers s → s.shared.count ≤ (demand s : ℤ)

/-- A balanced state has lost nothing: with a sleeper and a permit, some thread
is about to test the count. -/
theorem not_lost_of_balanced (hs : Balanced s) : ¬ Lost s := by
  rintro ⟨left, asleep, idle⟩
  have none_tests : demand s = 0 := by
    refine (Pool.total_eq_zero_iff Pc.demand).mpr fun pc mem => ?_
    have notRunnable := idle pc mem
    cases pc <;> first | rfl | cases notRunnable
  have := hs (sleepers_pos_iff.mpr asleep)
  omega

/-- Each covered step keeps the balance. -/
theorem balanced_step {l : Turn Choice} (hs : Balanced s) (covered : Covered s l)
    (h : monitor.machine.step s l = some t) : Balanced t := by
  intro asleep
  cases steps_of_step h with
  | callWait max at_pc =>
      have same := sleepers_set at_pc s.shared (.entering max)
      have more := demand_set at_pc s.shared (.entering max)
      simp only [Pc.asleep, Pc.demand] at same more
      have := hs (by omega)
      simp only
      omega
  | callNotify add at_pc =>
      have same := sleepers_set at_pc s.shared (.notifying add)
      have same' := demand_set at_pc s.shared (.notifying add)
      simp only [Pc.asleep, Pc.demand] at same same'
      have := hs (by omega)
      simp only
      omega
  | sleep max at_pc tests empty =>
      simp only [empty]
      omega
  | take max at_pc tests nonempty =>
      obtain ⟨same, less⟩ := take_set at_pc tests (s.shared.take max)
      have := hs (by omega)
      obtain ⟨-, -, left⟩ := count_take s.shared max
      simp only
      omega
  | unheard add at_pc awake =>
      obtain ⟨pc, mem, sleeping⟩ := sleepers_pos_iff.mp asleep
      rw [awake pc mem] at sleeping
      cases sleeping
  | notify add max at_pc sleeper sleeper_set =>
      obtain ⟨fewer, more⟩ := notify_set at_pc sleeper_set (s.shared.notify add)
      rw [Covered, at_pc, sleeper] at covered
      simp only [Option.map_some, Option.getD_some, Pc.added, Pc.asked] at covered
      simp only [Permits.notify] at *
      omega
  | spurious max sleeper =>
      obtain ⟨fewer, more⟩ := wake_set sleeper s.shared
      have := hs (by omega)
      simp only
      omega

/-! ## The permits

Each is counted once, and so is each operation. -/

/-- The permits returned and the ones left are the ones there were and the ones
notified. -/
theorem conserved_step {l : Turn Choice} {c : ℤ}
    (hs : s.shared.returned + s.shared.count = c + s.shared.notified)
    (h : monitor.machine.step s l = some t) :
    t.shared.returned + t.shared.count = c + t.shared.notified := by
  have notified (add : ℕ+) : (s.shared.notify add).returned + (s.shared.notify add).count =
      c + (s.shared.notify add).notified := by
    simp only [Permits.notify]
    omega
  cases steps_of_step h with
  | take max at_pc tests nonempty =>
      obtain ⟨kept, same, -⟩ := count_take s.shared max
      rw [kept, same]
      exact hs
  | unheard add at_pc awake => exact notified add
  | notify add max at_pc sleeper sleeper_set => exact notified add
  | _ => exact hs

/-- An operation of the atomic semaphore. -/
inductive Operation where
  | notify (add : ℕ)
  | wait (max : ℕ)
  deriving DecidableEq, Repr

/-- The atomic semaphore, and the permits it has returned, as a machine whose
actions are the operations.  A `wait` is enabled where there is a permit. -/
def atomic : Machine (Semaphore × ℕ) Operation where
  step x
    | .notify add => some (x.1.notify add, x.2)
    | .wait max => (x.1.wait max).map fun r => (r.1, x.2 + r.2)

/-- The semaphores have the same count and have returned the same. -/
def Agrees (s : Pool Permits Pc) (x : Semaphore × ℕ) : Prop :=
  s.shared.count = (x.1.count : ℤ) ∧ s.shared.returned = (x.2 : ℤ)

/-- The operation that a thread at this control point goes through in its locked
section, if it does: a `wait` that finds no permit goes to sleep instead. -/
def Pc.operation (count : ℤ) : Pc → Option Operation
  | entering max | woken max => if count = 0 then none else some (.wait max)
  | notifying add => some (.notify add)
  | outside | sleeping _ => none

/-- The operation of a step. -/
def operation (s : Pool Permits Pc) : Turn Choice → Option Operation
  | .move i .go _ => s.threads[i]?.bind (Pc.operation s.shared.count)
  | _ => none

/-- The operations of a run, in the order of their locked sections.  A wait that
goes to sleep is no operation yet; it becomes one when it takes its permits. -/
def operations : Pool Permits Pc → List (Turn Choice) → List Operation
  | _, [] => []
  | s, l :: ls =>
      (operation s l).toList ++ (monitor.machine.step s l).elim [] fun t => operations t ls

/-- A thread that tests the count does a `wait`, or goes to sleep. -/
theorem Pc.Tests.operation {max : ℕ+} (tests : pc.Tests max) (count : ℤ) :
    pc.operation count = if count = 0 then none else some (.wait max) := by
  rcases tests with rfl | rfl <;> rfl

/-- Taking permits is a `wait` of the atomic semaphore. -/
theorem refines_take {x : Semaphore × ℕ} (hs : Agrees s x) (max : ℕ+)
    (nonempty : s.shared.count ≠ 0) (threads : List Pc) :
    ∃ y, atomic.exec x [.wait max] = some y ∧ Agrees ⟨s.shared.take max, threads⟩ y := by
  obtain ⟨count, returned⟩ := hs
  have left : x.1.count ≠ 0 := by omega
  by_cases more : (max : ℕ) > x.1.count
  · refine ⟨(⟨0⟩, x.2 + x.1.count), ?_, ?_⟩
    · simp [Machine.exec, atomic, Semaphore.wait, left, more]
    · rw [Agrees, Permits.take, if_pos (by omega)]
      refine ⟨rfl, ?_⟩
      simp only [count, returned]
      omega
  · refine ⟨(⟨x.1.count - max⟩, x.2 + max), ?_, ?_⟩
    · simp [Machine.exec, atomic, Semaphore.wait, left, more]
    · rw [Agrees, Permits.take, if_neg (by omega)]
      simp only [count, returned]
      omega

/-- A step has the effect of its operation on the atomic semaphore, or none. -/
theorem refines_step {l : Turn Choice} {x : Semaphore × ℕ} (hs : Agrees s x)
    (h : monitor.machine.step s l = some t) :
    ∃ y, atomic.exec x (operation s l).toList = some y ∧ Agrees t y := by
  have notified (add : ℕ+) (threads : List Pc) :
      ∃ y, atomic.exec x [.notify add] = some y ∧ Agrees ⟨s.shared.notify add, threads⟩ y := by
    refine ⟨_, rfl, ?_, hs.2⟩
    simp [Permits.notify, hs.1]
  cases steps_of_step h with
  | sleep max at_pc tests empty =>
      rw [operation, at_pc, Option.bind_some, tests.operation, if_pos empty]
      exact ⟨x, rfl, hs⟩
  | take max at_pc tests nonempty =>
      rw [operation, at_pc, Option.bind_some, tests.operation, if_neg nonempty]
      exact refines_take hs max nonempty _
  | unheard add at_pc awake =>
      rw [operation, at_pc]
      exact notified add _
  | notify add max at_pc sleeper sleeper_set =>
      rw [operation, at_pc]
      exact notified add _
  | callWait | callNotify | spurious => exact ⟨x, rfl, hs⟩

/-- So has a run the effect of its operations, by induction on its steps. -/
theorem refines_run {run : List (Turn Choice)} {x : Semaphore × ℕ} (hs : Agrees s x)
    (h : monitor.machine.exec s run = some t) :
    ∃ y, atomic.exec x (operations s run) = some y ∧ Agrees t y := by
  induction run generalizing s x with
  | nil =>
      cases h
      exact ⟨x, rfl, hs⟩
  | cons l run ih =>
      obtain ⟨r, hr, rest⟩ := Machine.exec_cons_eq_some _ h
      obtain ⟨y, hy, agrees⟩ := refines_step hs hr
      obtain ⟨z, hz, agrees'⟩ := ih agrees rest
      refine ⟨z, ?_, agrees'⟩
      rw [operations, hr, Option.elim_some, Machine.exec_append, hy]
      exact hz

/-- **The semaphore is atomic.**  In every run of any number of threads, `wait`
and `notify` have the effect of the operations that take one step each, in the
order of their locked sections: done one after the other on the atomic semaphore
they are all enabled, and they leave its count and have returned its permits.
What each call returned is the difference between a run and the one a step
shorter. -/
theorem atomic_of_run {threads count : ℕ} {run : List (Turn Choice)}
    (h : monitor.machine.exec (start threads count) run = some s) :
    ∃ sem returned, atomic.exec (⟨count⟩, 0) (operations (start threads count) run) =
        some (sem, returned) ∧
      s.shared.count = sem.count ∧ s.shared.returned = returned := by
  obtain ⟨y, hy, agrees⟩ := refines_run (x := (⟨count⟩, 0)) ⟨rfl, rfl⟩ h
  exact ⟨y.1, y.2, hy, agrees⟩

/-- A `wait(2)` that sleeps, is notified of one permit and takes it. -/
def wokenOnce : List (Turn Choice) :=
  [.move 0 (.wait 2) none, .move 0 .go none, .move 1 (.notify 1) none, .move 1 .go (some 0),
    .move 0 .go none]

/-- The `wait` that slept comes after the `notify`, although it was called
before it: its operation is the locked section in which it takes the permit. -/
theorem atomic_of_run_woken : ∃ s sem returned,
    monitor.machine.exec (start 2 (0 : ℕ)) wokenOnce = some s ∧
      operations (start 2 (0 : ℕ)) wokenOnce = [.notify 1, .wait 2] ∧
      atomic.exec (⟨0⟩, 0) (operations (start 2 (0 : ℕ)) wokenOnce) = some (sem, returned) ∧
      s.shared.count = sem.count ∧ s.shared.returned = returned := by
  obtain ⟨s, run⟩ := Option.isSome_iff_exists.mp
    (by decide : (monitor.machine.exec (start 2 (0 : ℕ)) wokenOnce).isSome)
  obtain ⟨sem, returned, atomically⟩ := atomic_of_run run
  exact ⟨s, sem, returned, run, by decide, atomically⟩

/-! ## Runs with a notification that is not covered

Such a run can go on so that a wake-up is lost. -/

/-- Where no thread is about to notify, the ones that run are about to test the
count. -/
theorem exists_of_tests (quiet : ∀ pc ∈ s.threads, pc.added = 0)
    (runnable : ∃ pc ∈ s.threads, pc.isRunnable = true) :
    ∃ (i : ℕ) (pc : Pc) (max : ℕ+), s.threads[i]? = some pc ∧ pc.Tests max := by
  obtain ⟨pc, mem, runs⟩ := runnable
  obtain ⟨i, hi⟩ := List.mem_iff_getElem?.mp mem
  cases pc with
  | entering max => exact ⟨i, _, max, hi, .inl rfl⟩
  | woken max => exact ⟨i, _, max, hi, .inr rfl⟩
  | notifying add => exact absurd (quiet _ mem) add.ne_zero
  | outside => cases runs
  | sleeping max => cases runs

/-- A thread that tests a count above what all of them can take gets what it can
take. -/
theorem step_take {i : ℕ} {max : ℕ+} (at_pc : s.threads[i]? = some pc) (tests : pc.Tests max)
    (more : (demand s : ℤ) < s.shared.count) :
    monitor.machine.step s (.move i .go none) =
      some ⟨s.shared.take max, s.threads.set i .outside⟩ := by
  have nonempty : s.shared.count ≠ 0 := by omega
  have program : monitor.program s.shared pc .go =
      some ⟨s.shared.take max, .outside, .silent, []⟩ := by
    rcases tests with rfl | rfl <;> exact congrArg some (if_neg nonempty)
  change (s.threads[i]?.bind fun pc => (monitor.program s.shared pc .go).bind _) = _
  rw [at_pc, Option.bind_some, program]
  simp [Monitor.deliver]

/-- With more permits than the waiters that run can take, no `notify` to come,
and a sleeper, those waiters run to their ends and a wake-up is lost. -/
theorem lost_of_demand_lt (quiet : ∀ pc ∈ s.threads, pc.added = 0) (asleep : 0 < sleepers s)
    (more : (demand s : ℤ) < s.shared.count) :
    ∃ rest u, monitor.machine.exec s rest = some u ∧ Lost u := by
  induction hd : demand s using Nat.strong_induction_on generalizing s with
  | _ d ih =>
      by_cases runnable : ∃ pc ∈ s.threads, pc.isRunnable = true
      · obtain ⟨i, pc, max, at_pc, tests⟩ := exists_of_tests quiet runnable
        obtain ⟨same, less⟩ := take_set at_pc tests (s.shared.take max)
        have left : (s.shared.take max).count = s.shared.count - (max : ℤ) := by
          rw [Permits.take, if_neg (by omega)]
        have positive := max.pos
        have quiet' : ∀ pc ∈ s.threads.set i .outside, pc.added = 0 := forall_mem_set quiet rfl
        -- with the thread that takes them, as many permits go as the demand falls
        obtain ⟨rest, u, hrest, lost⟩ := ih _ (by omega)
          (s := ⟨s.shared.take max, s.threads.set i .outside⟩) quiet' (by omega)
          (by simp only [left]; omega) rfl
        refine ⟨.move i .go none :: rest, u, ?_, lost⟩
        rw [Machine.exec_cons, step_take at_pc tests more]
        exact hrest
      · refine ⟨[], s, rfl, by omega, sleepers_pos_iff.mp asleep, fun pc mem => ?_⟩
        cases runs : pc.isRunnable with
        | false => rfl
        | true => exact absurd ⟨pc, mem, runs⟩ runnable

/-- After a `notify` that is not covered, with no other to come, a wake-up can
be lost. -/
theorem lost_of_uncovered {l : Turn Choice} (h : monitor.machine.step s l = some t)
    (uncovered : ¬ Covered s l) (quiet : ∀ pc ∈ t.threads, pc.added = 0) :
    ∃ rest u, monitor.machine.exec t rest = some u ∧ Lost u := by
  cases steps_of_step h with
  | notify add max at_pc sleeper sleeper_set =>
      obtain ⟨fewer, more⟩ := notify_set at_pc sleeper_set (s.shared.notify add)
      rw [Covered, at_pc, sleeper] at uncovered
      simp only [Option.map_some, Option.getD_some, Pc.added, Pc.asked, not_or, not_le]
        at uncovered
      simp only [Permits.notify] at *
      exact lost_of_demand_lt quiet (by omega) (by simp only; omega)
  | _ => exact absurd trivial uncovered

/-! ## The semaphore

Both halves, and the semaphores that are notified of one permit at a time. -/

theorem balanced_start (threads : ℕ) (count : ℤ) : Balanced (start threads count) := by
  intro asleep
  obtain ⟨pc, mem, sleeping⟩ := sleepers_pos_iff.mp asleep
  rw [List.eq_of_mem_replicate mem] at sleeping
  cases sleeping

/-- A call of `notify` is for one permit. -/
def NotifiesOne : Turn Choice → Prop
  | .move _ (.notify add) _ => add = 1
  | _ => True

/-- What threads are about to add stays one permit each. -/
theorem added_step {l : Turn Choice} (one : NotifiesOne l)
    (hs : ∀ pc ∈ s.threads, pc.added ≤ 1) (h : monitor.machine.step s l = some t) :
    ∀ pc ∈ t.threads, pc.added ≤ 1 := by
  cases steps_of_step h with
  | callNotify add at_pc =>
      obtain rfl : add = 1 := one
      exact forall_mem_set hs le_rfl
  | notify => exact forall_mem_set (forall_mem_set hs zero_le_one) zero_le_one
  | _ => exact forall_mem_set hs zero_le_one

/-- One permit is covered by the waiter that its notification wakes. -/
theorem covered_of_one {l : Turn Choice} (hs : Balanced s)
    (one : ∀ pc ∈ s.threads, pc.added ≤ 1) (h : monitor.machine.step s l = some t) :
    Covered s l := by
  cases steps_of_step h with
  | notify add max at_pc sleeper sleeper_set =>
      have added := one _ (List.mem_of_getElem? at_pc)
      have positive := max.pos
      rw [Covered, at_pc, sleeper]
      simp only [Option.map_some, Option.getD_some, Pc.asked]
      rcases Nat.lt_or_ge 1 (sleepers s) with several | few
      · have := hs (by omega)
        exact .inr (by omega)
      · exact .inl few
  | _ => trivial

/-- The semaphores that are notified of one permit at a time lose no wake-up. -/
theorem not_lost_of_notifiesOne {threads : ℕ} {count : ℤ} {run : List (Turn Choice)}
    (ones : ∀ l ∈ run, NotifiesOne l)
    (h : monitor.machine.exec (start threads count) run = some s) : ¬ Lost s := by
  have start_added : ∀ pc ∈ (start threads count).threads, pc.added ≤ 1 := by
    intro pc mem
    rw [List.eq_of_mem_replicate mem]
    exact zero_le_one
  refine not_lost_of_balanced (monitor.machine.invariant
    (I := fun s => Balanced s ∧ ∀ pc ∈ s.threads, pc.added ≤ 1) ?_
    ⟨balanced_start threads count, start_added⟩
    (monitor.machine.guarded_of_forall_mem ones _) h).1
  rintro s t l ⟨balanced, added⟩ one step
  exact ⟨balanced_step balanced (covered_of_one balanced added step) step,
    added_step one added step⟩

/-- **Permits and wake-ups.**  In every run of any number of threads, the
permits returned and the count add up to the initial count and the permits
notified.  No wake-up is lost where each `notify` is covered, in particular
where each is for one permit; and one can be lost after one that is not covered,
unless another `notify` is to come. -/
theorem no_lost_wakeup (threads : ℕ) (count : ℤ) (run : List (Turn Choice))
    (s : Pool Permits Pc) (h : monitor.machine.exec (start threads count) run = some s) :
    s.shared.returned + s.shared.count = count + s.shared.notified ∧
      (monitor.machine.Guarded Covered (start threads count) run → ¬ Lost s) ∧
        ((∀ l ∈ run, NotifiesOne l) → ¬ Lost s) ∧
        ∀ l t, monitor.machine.step s l = some t → ¬ Covered s l →
          (∀ pc ∈ t.threads, pc.added = 0) →
            ∃ rest u, monitor.machine.exec t rest = some u ∧ Lost u := by
  refine ⟨?_, fun covered => ?_, fun ones => not_lost_of_notifiesOne ones h,
    fun l t step uncovered quiet => lost_of_uncovered step uncovered quiet⟩
  · exact monitor.machine.invariant (fun hs _ step => conserved_step hs step) (by simp [start])
      (monitor.machine.guarded_of_forall (fun _ _ => trivial) _ run) h
  · exact not_lost_of_balanced (monitor.machine.invariant balanced_step
      (balanced_start threads count) covered h)

/-- Two waiters sleep. -/
def twoAsleep : List (Turn Choice) :=
  [.move 0 (.wait 1) none, .move 0 .go none, .move 1 (.wait 1) none, .move 1 .go none]

/-- Two notifications of one permit wake both. -/
def notifiedOnceEach : List (Turn Choice) :=
  twoAsleep ++ [.move 2 (.notify 1) none, .move 2 .go (some 1), .move 2 (.notify 1) none,
    .move 2 .go (some 0), .move 0 .go none, .move 1 .go none]

/-- After two notifications of one permit no wake-up is lost, and after one of
two permits one can be. -/
theorem no_lost_wakeup_once :
    (∃ s, monitor.machine.exec (start 3 0) notifiedOnceEach = some s ∧ s.shared = ⟨0, 2, 2⟩ ∧
      ¬ Lost s) ∧
    ∃ s t, monitor.machine.exec (start 3 0) (twoAsleep ++ [.move 2 (.notify 2) none]) = some s ∧
      monitor.machine.step s (.move 2 .go (some 1)) = some t ∧
        ∃ rest u, monitor.machine.exec t rest = some u ∧ Lost u := by
  constructor
  · refine ⟨_, rfl, by decide, ?_⟩
    exact (no_lost_wakeup 3 0 notifiedOnceEach _ rfl).2.1 (by decide)
  · refine ⟨_, _, rfl, rfl, ?_⟩
    exact (no_lost_wakeup 3 0 (twoAsleep ++ [.move 2 (.notify 2) none]) _ rfl).2.2.2
      (.move 2 .go (some 1)) _ rfl (by decide) (by decide)

/-- One notification of two permits wakes the second waiter, which takes one:
the first sleeps on beside the other permit. -/
def notifiedTwoAtOnce : List (Turn Choice) :=
  twoAsleep ++ [.move 2 (.notify 2) none, .move 2 .go (some 1), .move 1 .go none]

/-- A permit is left, and the first waiter sleeps on.  The second one was woken
and took a single permit, and there is no call under way that would wake
another. -/
theorem wakeup_lost_of_two_permits :
    ∃ s, monitor.machine.exec (start 3 0) notifiedTwoAtOnce = some s ∧ Lost s :=
  ⟨_, rfl, by decide⟩

end EstarGo.Waiters
