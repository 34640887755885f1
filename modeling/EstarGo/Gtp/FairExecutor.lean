import EstarGo.Gtp.Executor
import EstarGo.Lib.Fairness

/-!
# The executor under a fair scheduler

Callers may commit forever, and a sleeper may wake again and again for nothing.
Where each thread that can go on does so at some time, in particular each task
returns, every task that is committed is dequeued.

## Main definitions

* `Pc.isReady` — a thread that has a next statement, and no choice.
* `FairRun` — a behaviour in which each thread that can go on does so at some
  time.

## Main results

* `dequeues`: while there is a task in the queue, another is dequeued at some
  time.
* `dequeued_of_fair`: the task committed at a position is dequeued at this
  position.

## Design notes

**By contradiction.**  Suppose that no task is dequeued from some time on,
although there is one.  Then no worker comes to the queue, so none is awake, and
none is to be started; a worker sleeps, and the commit that pushed the task is
about to notify it.  The fair scheduler lets it.

**What fairness is asked for.**  Only the next statements of threads are fair.
Calls and wake-ups for nothing come when they come.
-/

namespace EstarGo.Executor

open Verif

variable {T : Type} {s t : Pool (Shared T) (Pc T)} {pc : Pc T}

/-! ## The threads that can go on

A thread that is ready stays so until it goes on. -/

/-- The thread has a next statement, and no choice.  It can make its step
whatever the others do, and none of them can take it away. -/
def Pc.isReady : Pc T → Bool
  | .construct _ => true
  | .destruct => true
  | .push _ => true
  | .notify => true
  | .check _ => true
  | .getTask _ => true
  | .woken _ => true
  | .run _ => true
  | .owner => false
  | .gone => false
  | .caller => false
  | .asleep _ => false
  | .left _ => false

/-- Such a thread can go on. -/
theorem enabled_of_isReady {i : ℕ} (hi : s.threads[i]? = some pc) (ready : pc.isReady = true) :
    (monitor T).machine.step s (.move i .go none) ≠ none := by
  have next : ∃ e, (monitor T).program s.shared pc .go = some e := by
    cases pc with
    | construct starting => cases starting <;> exact ⟨_, rfl⟩
    | _ => first | exact ⟨_, rfl⟩ | cases ready
  obtain ⟨e, he⟩ := next
  exact step_ne_none hi he

theorem go_of_fires {sh sh' : Shared T} {pc' : Pc T} {a : Choice T} (ready : pc.isReady = true)
    (h : Fires sh pc a sh' pc') : a = .go := by
  cases h with
  | destroy => cases ready
  | refuse => cases ready
  | accept => cases ready
  | stop => cases ready
  | _ => rfl

/-- A thread that can go on stays where it is until it does. -/
theorem stays_of_isReady {i : ℕ} {l : Turn (Choice T)} (hi : s.threads[i]? = some pc)
    (ready : pc.isReady = true) (h : (monitor T).machine.step s l = some t)
    (other : l ≠ .move i .go none) : t.threads[i]? = some pc := by
  have awake : (monitor T).asleep pc = false := by
    cases pc <;> first | rfl | cases ready
  rcases Monitor.getElem?_step h hi awake with ⟨a, woken, rfl⟩ | kept
  · cases steps_of_step h with
    | fires at_pc fires =>
        obtain rfl := Option.some.inj (hi.symm.trans at_pc)
        obtain rfl := go_of_fires ready fires
        exact absurd rfl other
    | startWorker => exact absurd rfl other
    | notifyAll => exact absurd rfl other
  · exact kept

/-! ## What a next statement does

The steps that the argument needs, from where the thread stands. -/

/-- The step of a thread that neither starts nor wakes another. -/
theorem fires_of_go {i : ℕ} (h : (monitor T).machine.step s (.move i .go none) = some t)
    (hi : s.threads[i]? = some pc) (alone : ∀ left, pc ≠ .construct (left + 1))
    (quiet : pc ≠ .notify) :
    ∃ sh' pc', Fires s.shared pc .go sh' pc' ∧ t.shared = sh' ∧ t.threads[i]? = some pc' := by
  cases steps_of_step h with
  | @fires _ _ pc' _ sh' at_pc fires =>
      obtain rfl := Option.some.inj (hi.symm.trans at_pc)
      exact ⟨sh', pc', fires, rfl, by
        rw [List.getElem?_set_self (List.getElem?_eq_some_iff.mp hi).1]⟩
  | startWorker at_pc => exact absurd (Option.some.inj (hi.symm.trans at_pc)) (alone _)
  | notifyAll at_pc => exact absurd (Option.some.inj (hi.symm.trans at_pc)) quiet

/-- The constructor starts a worker at its test. -/
theorem mem_of_startWorker {i left : ℕ}
    (h : (monitor T).machine.step s (.move i .go none) = some t)
    (hi : s.threads[i]? = some (.construct (left + 1))) : .check left ∈ t.threads := by
  cases steps_of_step h with
  | fires at_pc fires =>
      obtain rfl := Option.some.inj (hi.symm.trans at_pc)
      cases fires with
      | sleep worker waits => rcases waits with waits | waits <;> cases waits
      | dequeue worker waits => rcases waits with waits | waits <;> cases waits
  | startWorker at_pc =>
      cases hi.symm.trans at_pc
      exact List.mem_append_right _ (List.mem_singleton_self _)
  | notifyAll at_pc => cases hi.symm.trans at_pc

/-- After a notification no worker is asleep. -/
theorem awake_of_notify {i : ℕ} (h : (monitor T).machine.step s (.move i .go none) = some t)
    (hi : s.threads[i]? = some .notify) : ∀ pc ∈ t.threads, pc.isAsleep = false := by
  cases steps_of_step h with
  | fires at_pc fires =>
      obtain rfl := Option.some.inj (hi.symm.trans at_pc)
      cases fires with
      | sleep worker waits => rcases waits with waits | waits <;> cases waits
      | dequeue worker waits => rcases waits with waits | waits <;> cases waits
  | startWorker at_pc => cases hi.symm.trans at_pc
  | notifyAll at_pc =>
      intro pc mem
      obtain ⟨qc, -, rfl⟩ := List.mem_map.mp mem
      cases qc <;> rfl

/-! ## The tasks only move on

Both records are extended at their ends. -/

theorem dequeued_step {l : Turn (Choice T)} (h : (monitor T).machine.step s l = some t) :
    s.shared.dequeued <+: t.shared.dequeued := by
  cases steps_of_step h with
  | fires at_pc fires =>
      cases fires with
      | dequeue worker waits front => exact List.prefix_append _ _
      | _ => exact List.prefix_rfl
  | _ => exact List.prefix_rfl

theorem committed_step {l : Turn (Choice T)} (h : (monitor T).machine.step s l = some t) :
    s.shared.committed <+: t.shared.committed := by
  cases steps_of_step h with
  | fires at_pc fires =>
      cases fires with
      | push task => exact List.prefix_append _ _
      | _ => exact List.prefix_rfl
  | _ => exact List.prefix_rfl

/-! ## Fair behaviours

Infinite ones, of any number of calls. -/

/-- A behaviour in which no worker leaves and the executor is not destroyed, and
in which each thread that can go on does so at some time.  Callers are not made
to call anything. -/
structure FairRun (crew : ℕ) (b : (monitor T).machine.Behaviour) : Prop where
  sound : ∀ k, Sound crew (b.state k)
  stays : ∀ k, (b.state k).shared.leftEarly = false
  alive : ∀ k, (b.state k).shared.destroyed = false
  fair : ∀ i, b.Fair (.move i .go none)

namespace FairRun

variable {crew : ℕ} {b : (monitor T).machine.Behaviour} (run : FairRun crew b)

include run

/-- A thread that can go on does so, from where it is. -/
theorem goes {i k : ℕ} (hi : (b.state k).threads[i]? = some pc) (ready : pc.isReady = true) :
    ∃ m, k ≤ m ∧ (b.state m).threads[i]? = some pc ∧ b.label m = .move i .go none :=
  Machine.Behaviour.taken_of_fair (P := fun s => s.threads[i]? = some pc) (run.fair i)
    (fun hs => enabled_of_isReady hs ready)
    (fun hs h other => stays_of_isReady hs ready h other) hi

/-- A worker that tests `exit` stays. -/
theorem getTask_of_check {i k worker : ℕ}
    (hi : (b.state k).threads[i]? = some (.check worker)) :
    ∃ m, k ≤ m ∧ (b.state m).threads[i]? = some (.getTask worker) := by
  obtain ⟨m, hm, hi, label⟩ := run.goes hi rfl
  obtain ⟨sh', pc', fires, shared, moved⟩ := fires_of_go (label ▸ b.step m) hi nofun nofun
  refine ⟨m + 1, by omega, ?_⟩
  cases fires with
  | stay worker exit => exact moved
  | leave worker exit =>
      have early := run.stays (m + 1)
      rw [shared, run.alive m, Bool.not_false, Bool.or_true] at early
      cases early
  | sleep worker waits => rcases waits with waits | waits <;> cases waits
  | dequeue worker waits => rcases waits with waits | waits <;> cases waits

omit run in
/-- Over a behaviour, the dequeued tasks only grow. -/
theorem dequeued_grows {k m : ℕ} (hkm : k ≤ m) :
    (b.state k).shared.dequeued <+: (b.state m).shared.dequeued :=
  Machine.Behaviour.invariant (I := fun s => (b.state k).shared.dequeued <+: s.shared.dequeued)
    (fun hs h => hs.trans (dequeued_step h)) hkm List.prefix_rfl

omit run in
theorem committed_grows {k m : ℕ} (hkm : k ≤ m) :
    (b.state k).shared.committed <+: (b.state m).shared.committed :=
  Machine.Behaviour.invariant (I := fun s => (b.state k).shared.committed <+: s.shared.committed)
    (fun hs h => hs.trans (committed_step h)) hkm List.prefix_rfl

/-- The tasks dequeued and those in the queue are as many as those committed. -/
theorem length_committed (k : ℕ) :
    (b.state k).shared.dequeued.length + (b.state k).shared.taskQueue.length =
      (b.state k).shared.committed.length := by
  rw [← (run.sound k).inOrder, List.length_append, List.length_map]

/-! ## The queue is not stuck

Suppose that from some time on, with a task in the queue, none is dequeued. -/

section Stuck

variable {k : ℕ} (nonempty : (b.state k).shared.taskQueue ≠ [])
  (stuck : ∀ m, k ≤ m → (b.state m).shared.dequeued.length ≤ (b.state k).shared.dequeued.length)

include nonempty stuck

/-- The queue stays as it is, or gets longer. -/
theorem nonempty_of_stuck {m : ℕ} (hm : k ≤ m) : (b.state m).shared.taskQueue ≠ [] := by
  have more := (committed_grows (b := b) hm).length_le
  have before := run.length_committed k
  have after := run.length_committed m
  have positive := List.length_pos_iff.mpr nonempty
  have := stuck m hm
  exact List.length_pos_iff.mp (by omega)

/-- No worker is in `get_task`: it would dequeue a task. -/
theorem not_waits_of_stuck {i m worker : ℕ} (hm : k ≤ m)
    (hi : (b.state m).threads[i]? = some pc) : ¬ pc.Waits worker := by
  intro waits
  have ready : pc.isReady = true := by rcases waits with rfl | rfl <;> rfl
  obtain ⟨n, hn, hi, label⟩ := run.goes hi ready
  obtain ⟨sh', pc', fires, shared, -⟩ := fires_of_go (label ▸ b.step n) hi
    (by rcases waits with rfl | rfl <;> exact nofun)
    (by rcases waits with rfl | rfl <;> exact nofun)
  have same := stuck (n + 1) (by omega)
  have before := (dequeued_grows (b := b) (k := k) (m := n) (by omega)).length_le
  have task := run.nonempty_of_stuck nonempty stuck (m := n) (by omega)
  rw [shared] at same
  cases fires with
  | sleep _ _ empty => exact task empty
  | dequeue _ _ front =>
      rw [List.length_append, List.length_singleton] at same
      omega
  | _ => rcases waits with waits | waits <;> cases waits

/-- No worker is at its test or in a task: it would come to `get_task`. -/
theorem not_awake_of_stuck {i m worker : ℕ} (hm : k ≤ m)
    (hi : (b.state m).threads[i]? = some pc) : pc ≠ .check worker ∧ pc ≠ .run worker := by
  have tests {m : ℕ} (hm : k ≤ m) : (b.state m).threads[i]? ≠ some (.check worker) := by
    intro hi
    obtain ⟨n, hn, hi⟩ := run.getTask_of_check hi
    exact run.not_waits_of_stuck nonempty stuck (hm.trans hn) hi (.inl rfl)
  constructor
  · rintro rfl
    exact tests hm hi
  · rintro rfl
    obtain ⟨n, hn, hi, label⟩ := run.goes hi rfl
    obtain ⟨sh', pc', fires, -, moved⟩ := fires_of_go (label ▸ b.step n) hi nofun nofun
    cases fires with
    | finish => exact tests (by omega) moved
    | sleep worker waits => rcases waits with waits | waits <;> cases waits
    | dequeue worker waits => rcases waits with waits | waits <;> cases waits

/-- There is a sleeper: no worker is awake, and none is to be started. -/
theorem sleeper_of_stuck (positive : 0 < crew) {m : ℕ} (hm : k ≤ m) :
    ∃ pc ∈ (b.state m).threads, pc.isAsleep = true := by
  by_contra none_sleeps
  have idle : (b.state m).total Pc.crew = 0 := by
    refine (Pool.total_eq_zero_iff Pc.crew).mpr fun pc mem => ?_
    obtain ⟨i, hi⟩ := List.mem_iff_getElem?.mp mem
    cases pc with
    | construct starting =>
        cases starting with
        | zero => rfl
        | succ left =>
            obtain ⟨n, hn, hi, label⟩ := run.goes hi rfl
            obtain ⟨j, hj⟩ :=
              List.mem_iff_getElem?.mp (mem_of_startWorker (label ▸ b.step n) hi)
            exact absurd rfl (run.not_awake_of_stuck nonempty stuck (by omega) hj).1
    | check worker => exact absurd rfl (run.not_awake_of_stuck nonempty stuck hm hi).1
    | run worker => exact absurd rfl (run.not_awake_of_stuck nonempty stuck hm hi).2
    | getTask worker =>
        have waits : Pc.Waits (.getTask worker : Pc T) worker := .inl rfl
        exact absurd waits (run.not_waits_of_stuck nonempty stuck hm hi)
    | woken worker =>
        have waits : Pc.Waits (.woken worker : Pc T) worker := .inr rfl
        exact absurd waits (run.not_waits_of_stuck nonempty stuck hm hi)
    | asleep worker => exact absurd ⟨_, mem, rfl⟩ none_sleeps
    | left worker => cases (run.sound m).noneLeft _ mem (run.stays m) (run.alive m)
    | _ => rfl
  have := (run.sound m).total
  omega

/-- The sleeper is notified, and then there is none. -/
theorem not_stuck (positive : 0 < crew) : False := by
  have sleeper := run.sleeper_of_stuck nonempty stuck positive le_rfl
  -- the commit that has pushed the task notifies the sleepers
  obtain ⟨i, hi⟩ := List.mem_iff_getElem?.mp ((run.sound k).heard sleeper nonempty)
  obtain ⟨m, hm, hi, label⟩ := run.goes hi rfl
  have awake := awake_of_notify (label ▸ b.step m) hi
  obtain ⟨pc, mem, asleep⟩ :=
    run.sleeper_of_stuck nonempty stuck positive (m := m + 1) (by omega)
  rw [awake pc mem] at asleep
  cases asleep

end Stuck

/-- While there is a task in the queue, another is dequeued at some time.  If a
worker is awake it comes to its test; if all are asleep, there is a notification
to come, which wakes them. -/
theorem dequeues (positive : 0 < crew) {k : ℕ} (nonempty : (b.state k).shared.taskQueue ≠ []) :
    ∃ m, k ≤ m ∧
      (b.state k).shared.dequeued.length < (b.state m).shared.dequeued.length := by
  by_contra never
  refine run.not_stuck nonempty (fun m hm => ?_) positive
  by_contra more
  exact never ⟨m, hm, Nat.lt_of_not_le more⟩

/-- As many tasks as were committed are dequeued at some time. -/
theorem reaches (positive : 0 < crew) {k p : ℕ}
    (committed : p < (b.state k).shared.committed.length) :
    ∃ m, k ≤ m ∧ p < (b.state m).shared.dequeued.length := by
  induction hd : p + 1 - (b.state k).shared.dequeued.length using Nat.strong_induction_on
    generalizing k with
  | _ d ih =>
      rcases Nat.lt_or_ge p (b.state k).shared.dequeued.length with done | waiting
      · exact ⟨k, le_rfl, done⟩
      · have tasks := run.length_committed k
        have nonempty : (b.state k).shared.taskQueue ≠ [] :=
          List.length_pos_iff.mp (by omega)
        obtain ⟨m, hm, more⟩ := run.dequeues positive nonempty
        have later := (committed_grows (b := b) hm).length_le
        obtain ⟨n, hn, done⟩ := ih _ (by omega) (k := m) (by omega) rfl
        exact ⟨n, hm.trans hn, done⟩

end FairRun

/-- **Every task is dequeued.**  In every behaviour of an executor that is not
destroyed, in which no worker finds `exit` true before it is assigned and each
thread that can go on does so at some time, the task committed at a position is
dequeued at this position, by a worker. -/
theorem dequeued_of_fair {exit : Bool} {size callers : ℕ} {b : (monitor T).machine.Behaviour}
    (start : b.state 0 = start T exit size callers)
    (initialised : ∀ k, Initialised (b.state k) (b.label k))
    (alive : ∀ k, (b.state k).shared.destroyed = false)
    (fair : ∀ i, b.Fair (.move i .go none)) {k p : ℕ} {task : T}
    (committed : (b.state k).shared.committed[p]? = some task) :
    ∃ m worker, worker < workers size ∧
      (b.state m).shared.dequeued[p]? = some (worker, task) := by
  have sound (k : ℕ) : Sound (workers size) (b.state k) :=
    Machine.Behaviour.invariant sound_step (Nat.zero_le k) (start ▸ sound_start exit size callers)
  have stays (k : ℕ) : (b.state k).shared.leftEarly = false := by
    induction k with
    | zero =>
        rw [start]
        rfl
    | succ k ih =>
        exact (stays_step_iff (sound k).assigned (b.step k)).mpr ⟨ih, initialised k⟩
  have run : FairRun (workers size) b := ⟨sound, stays, alive, fair⟩
  obtain ⟨inside, -⟩ := List.getElem?_eq_some_iff.mp committed
  obtain ⟨m, hm, done⟩ := run.reaches (workers_pos size) inside
  obtain ⟨d, hd⟩ : ∃ d, (b.state m).shared.dequeued[p]? = some d :=
    ⟨_, List.getElem?_eq_getElem done⟩
  refine ⟨m, d.1, (sound m).numbered.dequeued d (List.mem_of_getElem? hd), hd.trans ?_⟩
  -- the tasks dequeued are the first of those committed, and these are still the first ones
  have here : (b.state m).shared.committed[p]? = some d.2 := by
    rw [← (sound m).inOrder, List.getElem?_append_left (by simpa using done), List.getElem?_map,
      hd, Option.map_some]
  have there : (b.state m).shared.committed[p]? = some task := by
    obtain ⟨rest, later⟩ := FairRun.committed_grows (b := b) hm
    rw [← later, List.getElem?_append_left inside]
    exact committed
  obtain rfl : d.2 = task := Option.some.inj (here.symm.trans there)
  rfl

/-- One worker, which sleeps until a task is committed, runs it, and sleeps
again. -/
def runOnce : List (Turn (Choice ℕ)) :=
  [.move 0 .go none, .move 0 .go none, .move 2 .go none, .move 2 .go none,
    .move 1 (.commit 7) none, .move 1 .go none, .move 1 .go none] ++
    List.replicate 4 (.move 2 .go none)

/-- Then the sleeper wakes again and again for nothing, since an infinite
behaviour has to do something for ever.  The one task was dequeued by the one
worker. -/
theorem dequeued_of_fair_once : ∃ b : (monitor ℕ).machine.Behaviour,
    b.state 0 = start ℕ true 1 1 ∧ (∀ i, b.Fair (.move i .go none)) ∧
      ∃ m worker, worker < 1 ∧ (b.state m).shared.dequeued[0]? = some (worker, 7) := by
  obtain ⟨s, run, committed, asleep, again, cycle⟩ : ∃ s,
      (monitor ℕ).machine.exec (start ℕ true 1 1) runOnce = some s ∧
        s.shared.committed = [7] ∧ s.threads = [.owner, .caller, .asleep 0] ∧
        (monitor ℕ).machine.exec s [.spurious 2, .move 2 .go none] = some s ∧
        (monitor ℕ).machine.Guarded (fun s l => Initialised s l ∧ s.shared.destroyed = false) s
          [.spurious 2, .move 2 .go none] :=
    ⟨_, rfl, rfl, rfl, rfl, by decide⟩
  have stuck (i : ℕ) : (monitor ℕ).machine.step s (.move i .go none) = none := by
    change (s.threads[i]?.bind _) = none
    rw [asleep]
    rcases i with _ | _ | _ | i <;> rfl
  obtain ⟨b, hstart, guarded, visits⟩ := Machine.exists_lasso
    (G := fun s l => Initialised s l ∧ s.shared.destroyed = false) run again
    (List.cons_ne_nil _ _) (by decide) cycle
  have fair (i : ℕ) : b.Fair (.move i .go none) := by
    refine Machine.Behaviour.fair_of_disabled fun k => ?_
    obtain ⟨m, hm, visit⟩ := visits k
    refine ⟨m, hm, ?_⟩
    rw [visit]
    exact stuck i
  obtain ⟨k, -, visit⟩ := visits 0
  have first : (b.state k).shared.committed[0]? = some 7 := by
    rw [visit, committed]
    rfl
  obtain ⟨m, worker, below, dequeued⟩ := dequeued_of_fair hstart (fun k => (guarded k).1)
    (fun k => (guarded k).2) fair first
  exact ⟨b, hstart, fair, m, worker, below, dequeued⟩

end EstarGo.Executor
