import EstarGo.Lib.ThreadPool

/-!
# Monitors

Threads over a shared state with one mutex and one condition variable.  A locked
section is one step of its thread.  A step that ends in a wait leaves its thread
asleep; a step that notifies makes one sleeper runnable, or all of them, and a
woken thread goes on at the test of its loop. `notify_one` with several sleepers
wakes any of them, and a sleeper may wake without being notified.

## Main definitions

* `Monitor` — the steps of a thread, which of its control points are sleeps, and
  where a woken thread goes on.
* `Monitor.machine` — all interleavings, all choices of the thread to wake.

## Main results

* `Monitor.step_move`, `Monitor.step_spurious`: what a step is.
* `Monitor.forall_threads`: the rule for a property of each thread.
* `Monitor.getElem?_step`: a thread that is awake goes on only by its own steps.
* `sum_map_set`: a sum over the threads when one of them moves.

## Design notes

**The mutex is not in the state.**  Between two locked sections nobody holds it,
and inside one nobody else can see the state, so a section is a step and the
mutex has nothing to say.  What is lost is the order in which threads queue for
it, which no condition variable promises.

**Signals reach sleepers only.**  A signal with nobody asleep is forgotten, as
the standard has it; `deliver` refuses to leave it unheard while some thread
sleeps, so a wake-up is lost only where the program loses it.

**Wake-ups for nothing.**  A sleeper may wake at any time (`Turn.spurious`).
Safety has to survive that, and liveness may not count on it.
-/

namespace Verif

universe u v w

/-- What a step does to the condition variable.  No step of the programs below
notifies twice. -/
inductive Signal where
  | silent
  | notifyOne
  | notifyAll
  deriving DecidableEq, Repr

/-- What a step of a thread leaves: the shared state, where the thread goes on,
what it signals, and the threads it starts. -/
structure Effect (σ : Type u) (π : Type v) where
  shared : σ
  pc : π
  signal : Signal
  started : List π

/-- Threads that share a condition variable.  `asleep` tells the control points
inside a wait, and `wake` where such a thread goes on when it is woken. -/
structure Monitor (σ : Type u) (π : Type v) (α : Type w) where
  asleep : π → Bool
  wake : π → π
  program : σ → π → α → Option (Effect σ π)

/-- A thread moves, and wakes the one chosen if it notifies one; or a sleeper
wakes by itself. -/
inductive Turn (α : Type w) where
  | move (i : ℕ) (a : α) (woken : Option ℕ)
  | spurious (j : ℕ)
  deriving DecidableEq, Repr

namespace Monitor

variable {σ : Type u} {π : Type v} {α : Type w} (M : Monitor σ π α)

/-- The threads after a sleeper has been woken; `none` where the thread is not
asleep. -/
def wakeAt (threads : List π) (j : ℕ) : Option (List π) :=
  threads[j]?.bind fun pc => if M.asleep pc then some (threads.set j (M.wake pc)) else none

/-- A woken thread, or one that was not asleep. -/
def rouse (pc : π) : π := if M.asleep pc then M.wake pc else pc

/-- The threads after a signal: `notify_one` is lost only where no thread
sleeps.  Which of several sleepers it wakes is left to the label. -/
def deliver (threads : List π) : Signal → Option ℕ → Option (List π)
  | .silent, none => some threads
  | .notifyOne, none => if threads.any M.asleep then none else some threads
  | .notifyOne, some j => M.wakeAt threads j
  | .notifyAll, none => some (threads.map M.rouse)
  | .silent, some _ => none
  | .notifyAll, some _ => none

/-- All interleavings.  The signal is delivered after its thread has moved on
and before the threads it starts are there, so a thread cannot wake itself. -/
def machine : Machine (Pool σ π) (Turn α) where
  step s
    | .move i a woken =>
        s.threads[i]?.bind fun pc => (M.program s.shared pc a).bind fun e =>
          (M.deliver (s.threads.set i e.pc) e.signal woken).map fun threads =>
            ⟨e.shared, threads ++ e.started⟩
    | .spurious j => (M.wakeAt s.threads j).map fun threads => ⟨s.shared, threads⟩

/-! ## What a step is -/

variable {M}

/-- A thread that has been woken was asleep, and is where a woken thread goes
on. -/
theorem wakeAt_eq_some {threads threads' : List π} {j : ℕ}
    (h : M.wakeAt threads j = some threads') :
    ∃ pc, threads[j]? = some pc ∧ M.asleep pc = true ∧ threads' = threads.set j (M.wake pc) := by
  obtain ⟨pc, hpc, h⟩ := Option.bind_eq_some_iff.mp h
  cases asleep : M.asleep pc with
  | false => simp [asleep] at h
  | true =>
      simp only [asleep, if_true, Option.some.injEq] at h
      exact ⟨pc, hpc, asleep, h.symm⟩

/-- How a signal reaches the threads, one case for each way. -/
inductive Delivered (M : Monitor σ π α) (threads : List π) :
    Signal → Option ℕ → List π → Prop where
  | silent : Delivered M threads .silent none threads
  | unheard (awake : ∀ pc ∈ threads, M.asleep pc = false) :
      Delivered M threads .notifyOne none threads
  | one {j : ℕ} {pc : π} (sleeper : threads[j]? = some pc) (asleep : M.asleep pc = true) :
      Delivered M threads .notifyOne (some j) (threads.set j (M.wake pc))
  | all : Delivered M threads .notifyAll none (threads.map M.rouse)

/-- The function and the relation are the same; proofs split on the relation. -/
theorem delivered_of_deliver {threads threads' : List π} {signal : Signal} {woken : Option ℕ}
    (h : M.deliver threads signal woken = some threads') :
    M.Delivered threads signal woken threads' := by
  cases signal with
  | silent =>
      cases woken with
      | none =>
          obtain rfl := Option.some.inj h
          exact .silent
      | some j => cases h
  | notifyOne =>
      cases woken with
      | none =>
          simp only [deliver] at h
          split at h
          · cases h
          · next noSleeper =>
              obtain rfl := Option.some.inj h
              exact .unheard (by simpa using noSleeper)
      | some j =>
          obtain ⟨pc, sleeper, asleep, rfl⟩ := wakeAt_eq_some h
          exact .one sleeper asleep
  | notifyAll =>
      cases woken with
      | none =>
          obtain rfl := Option.some.inj h
          exact .all
      | some j => cases h

/-- A thread takes a step, and its signal is delivered to the others. -/
theorem step_move {s t : Pool σ π} {i : ℕ} {a : α} {woken : Option ℕ}
    (h : M.machine.step s (.move i a woken) = some t) :
    ∃ pc e threads, s.threads[i]? = some pc ∧ M.program s.shared pc a = some e ∧
      M.Delivered (s.threads.set i e.pc) e.signal woken threads ∧
        t = ⟨e.shared, threads ++ e.started⟩ := by
  obtain ⟨pc, hpc, h⟩ := Option.bind_eq_some_iff.mp h
  obtain ⟨e, he, h⟩ := Option.bind_eq_some_iff.mp h
  obtain ⟨threads, hthreads, rfl⟩ := Option.map_eq_some_iff.mp h
  exact ⟨pc, e, threads, hpc, he, delivered_of_deliver hthreads, rfl⟩

/-- A sleeper wakes by itself. -/
theorem step_spurious {s t : Pool σ π} {j : ℕ} (h : M.machine.step s (.spurious j) = some t) :
    ∃ pc, s.threads[j]? = some pc ∧ M.asleep pc = true ∧
      t = ⟨s.shared, s.threads.set j (M.wake pc)⟩ := by
  obtain ⟨threads, hthreads, rfl⟩ := Option.map_eq_some_iff.mp h
  obtain ⟨pc, hpc, asleep, rfl⟩ := wakeAt_eq_some hthreads
  exact ⟨pc, hpc, asleep, rfl⟩

end Monitor

/-- What all threads have, they have after one of them moves to a point that has
it. -/
theorem forall_mem_set {π : Type v} {P : π → Prop} {threads : List π} {i : ℕ} {pc' : π}
    (all : ∀ pc ∈ threads, P pc) (moved : P pc') : ∀ pc ∈ threads.set i pc', P pc := by
  intro pc mem
  rcases List.mem_or_eq_of_mem_set mem with mem | rfl
  · exact all pc mem
  · exact moved

namespace Monitor

variable {σ : Type u} {π : Type v} {α : Type w} {M : Monitor σ π α}

/-- **The rule for a property of each thread.**  The moving thread and the
threads it starts have it, the others keep it as the shared state changes, and a
sleeper keeps it as it wakes, whoever has woken it. -/
theorem forall_threads {s t : Pool σ π} {l : Turn α} (good : σ → π → Prop)
    (moved : ∀ pc a e, pc ∈ s.threads → M.program s.shared pc a = some e → good s.shared pc →
      (good e.shared e.pc ∧ ∀ q ∈ e.started, good e.shared q) ∧
        ∀ q ∈ s.threads, good s.shared q → good e.shared q)
    (woken : ∀ sh pc, M.asleep pc = true → good sh pc → good sh (M.wake pc))
    (h : M.machine.step s l = some t) (all : ∀ pc ∈ s.threads, good s.shared pc) :
    ∀ pc ∈ t.threads, good t.shared pc := by
  cases l with
  | spurious j =>
      obtain ⟨pc, hpc, asleep, rfl⟩ := step_spurious h
      exact forall_mem_set all (woken _ pc asleep (all pc (List.mem_of_getElem? hpc)))
  | move i a signalled =>
      obtain ⟨pc, e, threads, hpc, he, delivered, rfl⟩ := step_move h
      have mem := List.mem_of_getElem? hpc
      obtain ⟨⟨mover, new⟩, frame⟩ := moved pc a e mem he (all pc mem)
      have moves : ∀ pc ∈ s.threads.set i e.pc, good e.shared pc :=
        forall_mem_set (fun q hq => frame q hq (all q hq)) mover
      have reached : ∀ pc ∈ threads, good e.shared pc := by
        generalize e.signal = signal at delivered
        cases delivered with
        | silent => exact moves
        | unheard => exact moves
        | one sleeper asleep =>
            exact forall_mem_set moves
              (woken _ _ asleep (moves _ (List.mem_of_getElem? sleeper)))
        | all =>
            intro q hq
            obtain ⟨r, hr, rfl⟩ := List.mem_map.mp hq
            unfold rouse
            split
            · next asleep => exact woken _ r asleep (moves r hr)
            · exact moves r hr
      intro q hq
      rcases List.mem_append.mp hq with hq | hq
      · exact reached q hq
      · exact new q hq

/-- A signal leaves a thread alone that is awake: it goes on from where it
was. -/
theorem getElem?_delivered {threads threads' : List π} {signal : Signal} {signalled : Option ℕ}
    {i : ℕ} {pc : π} (delivered : M.Delivered threads signal signalled threads')
    (hpc : threads[i]? = some pc) (awake : M.asleep pc = false) : threads'[i]? = some pc := by
  cases delivered with
  | silent => exact hpc
  | unheard => exact hpc
  | @one j qc sleeper asleep =>
      have other : j ≠ i := by
        rintro rfl
        obtain rfl := Option.some.inj (hpc.symm.trans sleeper)
        rw [awake] at asleep
        cases asleep
      rw [List.getElem?_set_ne other]
      exact hpc
  | all =>
      rw [List.getElem?_map, hpc, Option.map_some, rouse, awake]
      rfl

/-- A thread that is awake goes on only by its own steps.  What is known of the
point it is at thus stays known until it moves. -/
theorem getElem?_step {s t : Pool σ π} {l : Turn α} {i : ℕ} {pc : π}
    (h : M.machine.step s l = some t) (hpc : s.threads[i]? = some pc)
    (awake : M.asleep pc = false) : (∃ a woken, l = .move i a woken) ∨ t.threads[i]? = some pc := by
  cases l with
  | spurious j =>
      obtain ⟨qc, hqc, asleep, rfl⟩ := step_spurious h
      have other : j ≠ i := by
        rintro rfl
        obtain rfl := Option.some.inj (hpc.symm.trans hqc)
        rw [awake] at asleep
        cases asleep
      exact .inr ((List.getElem?_set_ne other).trans hpc)
  | move j a signalled =>
      obtain ⟨qc, e, threads, hqc, he, delivered, rfl⟩ := step_move h
      by_cases same : j = i
      · exact .inl ⟨a, signalled, by rw [same]⟩
      · have kept := getElem?_delivered delivered
          ((List.getElem?_set_ne same).trans hpc) awake
        exact .inr ((List.getElem?_append_left (List.getElem?_eq_some_iff.mp kept).1).trans kept)

end Monitor

/-- A thread that does not move stays, where it is known by its control
point. -/
theorem mem_set_of_ne {π : Type v} {threads : List π} {i : ℕ} {pc q : π} (mem : q ∈ threads)
    (at_pc : threads[i]? = some pc) (ne : pc ≠ q) (pc' : π) : q ∈ threads.set i pc' := by
  obtain ⟨j, hj⟩ := List.mem_iff_getElem?.mp mem
  have other : i ≠ j := by
    rintro rfl
    exact ne (Option.some.inj (at_pc.symm.trans hj))
  refine List.mem_iff_getElem?.mpr ⟨j, ?_⟩
  rw [List.getElem?_set_ne other, hj]

/-! ## Sums over the threads -/

section Sums

variable {π : Type v} {M : Type*} [AddCommMonoid M]

/-- One thread moves: the sum loses what it held and gains what it holds.  The
sides are arranged so that nothing is subtracted. -/
theorem sum_map_set (f : π → M) {threads : List π} {i : ℕ} {pc : π}
    (h : threads[i]? = some pc) (pc' : π) :
    ((threads.set i pc').map f).sum + f pc = (threads.map f).sum + f pc' := by
  induction threads generalizing i with
  | nil => cases h
  | cons q rest ih =>
      cases i with
      | zero =>
          obtain rfl := Option.some.inj h
          simp only [List.set_cons_zero, List.map_cons, List.sum_cons]
          ac_rfl
      | succ i =>
          simp only [List.set_cons_succ, List.map_cons, List.sum_cons, add_assoc]
          rw [ih h]

end Sums

end Verif
