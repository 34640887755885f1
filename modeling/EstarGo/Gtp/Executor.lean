import EstarGo.Lib.Monitor

/-!
# The executor

`Executor` runs the rollouts.  Its constructor starts the workers one by one and
assigns `exit` only then, so that a worker may test `exit` before; until the
assignment `exit` holds whatever was in memory.  `commit` pushes a task in a
locked section and notifies all workers outside of it; a worker waits in
`get_task` until the queue is not empty.

## Main definitions

* `monitor` — the steps of the owner, the callers and the workers.
* `RunsAll` — what the executor is for.
* `Initialised` — a worker does not find `exit` true before it is assigned.
* `work` — how many steps are left before each thread waits.

## Main results

* `steps_of_step`: what a step is.
* `runs_all_iff_initialised`: the runs of an executor that runs everything once.
* `task_never_run`: a run in which a task is not run.

## Design notes

**Three kinds of threads.**  The owner constructs and destroys the executor; the
callers use it once it is constructed; the workers run tasks.  The members
outlive the destructor here, as far as the workers it detaches use them.

**What was in memory** is a parameter.  With `exit` false there, nothing can go
wrong, and with `exit` true only a worker that is faster than its constructor is
lost.

**Running every task.**  No state says that a task will be run.  `RunsAll` says
that it is dequeued once, that no worker sleeps beside it for good, and that the
threads, left to themselves, come to an end only when all tasks are dequeued.
`FairExecutor` has the rest.
-/

namespace EstarGo.Executor

open Verif

/-! ## The steps

The three kinds of threads, and what they share. -/

/-- The members, and records: whether the constructor and the destructor have
assigned `exit`, the tasks pushed, the tasks popped with their workers, and
whether a worker has left its loop before the destructor has run. -/
structure Shared (T : Type) where
  exit : Bool
  stop : Bool
  taskQueue : List T
  assigned : Bool
  destroyed : Bool
  committed : List T
  dequeued : List (ℕ × T)
  leftEarly : Bool
  deriving DecidableEq, Repr

/-- Control points. -/
inductive Pc (T : Type) where
  /-- The owner in the constructor, with workers left to start; then before
  `exit = false`. -/
  | construct (left : ℕ)
  | owner
  /-- The owner in the destructor, past its loop, and after it. -/
  | destruct
  | gone
  /-- A caller outside `commit`; before its locked section; before
  `notify_all`. -/
  | caller
  | push (task : T)
  | notify
  /-- A worker at the test of `schedule`; in `get_task`, before its locked
  section, asleep and woken; in a task; after its loop. -/
  | check (worker : ℕ)
  | getTask (worker : ℕ)
  | asleep (worker : ℕ)
  | woken (worker : ℕ)
  | run (worker : ℕ)
  | left (worker : ℕ)
  deriving DecidableEq, Repr

/-- The next statement, or a call. -/
inductive Choice (T : Type) where
  | go
  | commit (task : T)
  | shutdown
  | restart
  | destroy
  deriving DecidableEq, Repr

variable {T : Type}

namespace Shared

variable (sh : Shared T)

/-- `commit`, before its locked section: it throws once the executor is shut
down, and looks at `stop` without the lock.  So a task may be pushed after
another thread has shut the executor down. -/
def commit (task : T) : Pc T := if sh.stop then .caller else .push task

/-- The locked section of `commit`. -/
def emplace (task : T) : Shared T :=
  { sh with taskQueue := sh.taskQueue ++ [task], committed := sh.committed ++ [task] }

/-- The test of `schedule`, which every worker makes before each task.  It reads
`exit`, which the constructor assigns only after it has started the workers. -/
def schedule (worker : ℕ) : Effect (Shared T) (Pc T) :=
  if sh.exit then
    ⟨{ sh with leftEarly := sh.leftEarly || !sh.destroyed }, .left worker, .silent, []⟩
  else ⟨sh, .getTask worker, .silent, []⟩

/-- The locked section of `get_task`, from the test of its wait on: the worker
sleeps, or takes the oldest task.  It does not look at `exit`, so a worker that
sleeps when the executor is destroyed sleeps on. -/
def getTask (worker : ℕ) : Effect (Shared T) (Pc T) :=
  match sh.taskQueue with
  | [] => ⟨sh, .asleep worker, .silent, []⟩
  | task :: rest =>
      ⟨{ sh with taskQueue := rest, dequeued := sh.dequeued ++ [(worker, task)] },
        .run worker, .silent, []⟩

/-- The callers have an executor to use. -/
def usable : Bool := sh.assigned && !sh.destroyed

end Shared

/-- The worker is asleep. -/
def Pc.isAsleep : Pc T → Bool
  | .asleep _ => true
  | _ => false

/-- `notify_all` makes the worker runnable. -/
def Pc.wake : Pc T → Pc T
  | .asleep worker => .woken worker
  | pc => pc

/-- `class Executor`, with one owner, its workers, and the callers that use
it. -/
def monitor (T : Type) : Monitor (Shared T) (Pc T) (Choice T) where
  asleep := Pc.isAsleep
  wake := Pc.wake
  program
    -- the constructor and the destructor
    | sh, .construct (left + 1), .go => some ⟨sh, .construct left, .silent, [.check left]⟩
    | sh, .construct 0, .go =>
        some ⟨{ sh with exit := false, assigned := true }, .owner, .silent, []⟩
    | sh, .owner, .destroy => some ⟨sh, .destruct, .silent, []⟩
    | sh, .destruct, .go =>
        some ⟨{ sh with exit := true, destroyed := true }, .gone, .silent, []⟩
    -- the callers
    | sh, .caller, .commit task =>
        if sh.usable then some ⟨sh, sh.commit task, .silent, []⟩ else none
    | sh, .caller, .shutdown =>
        if sh.usable then some ⟨{ sh with stop := true }, .caller, .silent, []⟩ else none
    | sh, .caller, .restart =>
        if sh.usable then some ⟨{ sh with stop := false }, .caller, .silent, []⟩ else none
    | sh, .push task, .go => some ⟨sh.emplace task, .notify, .silent, []⟩
    | sh, .notify, .go => some ⟨sh, .caller, .notifyAll, []⟩
    -- the workers
    | sh, .check worker, .go => some (sh.schedule worker)
    | sh, .getTask worker, .go => some (sh.getTask worker)
    | sh, .woken worker, .go => some (sh.getTask worker)
    | sh, .run worker, .go => some ⟨sh, .check worker, .silent, []⟩
    | _, _, _ => none

/-- The workers the constructor starts, one at least. -/
def workers (size : ℕ) : ℕ := if size < 1 then 1 else size

/-- Before the constructor, with what `exit` holds in memory; and callers. -/
def start (T : Type) (exit : Bool) (size callers : ℕ) : Pool (Shared T) (Pc T) where
  shared :=
    { exit := exit
      stop := false
      taskQueue := []
      assigned := false
      destroyed := false
      committed := []
      dequeued := []
      leftEarly := false }
  threads := .construct (workers size) :: List.replicate callers .caller

/-! ## What an executor is for

The property and the condition, both on states of a run. -/

/-- The worker is at the test of `schedule`. -/
def Pc.isCheck : Pc T → Bool
  | .check _ => true
  | _ => false

/-- A worker that tests `exit` before it is assigned does not find it true.
What the memory holds there before the constructor has assigned it is not under
its control. -/
def Initialised (s : Pool (Shared T) (Pc T)) : Turn (Choice T) → Prop
  | .move i _ _ => (s.threads[i]?.any Pc.isCheck) = true →
      s.shared.assigned = true ∨ s.shared.exit = false
  | .spurious _ => True

instance : ∀ (s : Pool (Shared T) (Pc T)) (l : Turn (Choice T)), Decidable (Initialised s l)
  | s, .move i _ _ => inferInstanceAs (Decidable ((s.threads[i]?.any Pc.isCheck) = true → _))
  | _, .spurious _ => .isTrue trivial

/-- A thread goes on with its next statement, of its own. -/
def IsGo : Turn (Choice T) → Prop
  | .move _ a _ => a = .go
  | .spurious _ => False

/-- How many steps a thread has left, up to the next wait, test or call; a
notification is as many more as there may be sleepers.  The sum over the threads
goes down with every step, so the workers come to rest. -/
def Pc.work (crew : ℕ) : Pc T → ℕ
  | .construct starting => 3 * starting + 1
  | .owner => 0
  | .destruct => 1
  | .gone => 0
  | .caller => 0
  | .push _ => crew + 6
  | .notify => crew + 1
  | .check _ => 2
  | .getTask _ => 1
  | .asleep _ => 0
  | .woken _ => 1
  | .run _ => 3
  | .left _ => 0

/-- How many steps are left before each thread waits for a task or a call. -/
def work (crew : ℕ) (s : Pool (Shared T) (Pc T)) : ℕ :=
  4 * s.shared.taskQueue.length + s.total (Pc.work crew)

/-- The executor has run and will run each task once.  The parts speak of the
past, in the order of the queue, and of the future, in the sleepers and in the
steps that are left. -/
structure RunsAll (crew : ℕ) (s : Pool (Shared T) (Pc T)) : Prop where
  /-- The tasks committed have been dequeued in their order, each by one worker,
  up to those in the queue. -/
  inOrder : s.shared.dequeued.map Prod.snd ++ s.shared.taskQueue = s.shared.committed ∧
    ∀ d ∈ s.shared.dequeued, d.1 < crew
  /-- A worker sleeps beside a task only until a commit that has pushed notifies
  it. -/
  awake : (∃ pc ∈ s.threads, pc.isAsleep = true) → s.shared.taskQueue ≠ [] →
    .notify ∈ s.threads
  /-- No worker has left before the destructor has run. -/
  stays : s.shared.leftEarly = false
  /-- Before the destructor has run, the threads go on until every task has been
  dequeued. -/
  drained : (∀ l, IsGo l → (monitor T).machine.step s l = none) → s.shared.destroyed = false →
    s.shared.dequeued.map Prod.snd = s.shared.committed
  /-- And they go on for so many steps at most, unless there is another call. -/
  bounded : ∀ rest t, (∀ l ∈ rest, IsGo l) → (monitor T).machine.exec s rest = some t →
    rest.length + work crew t ≤ work crew s

/-! ## What a step is

The inversion of the monitor's steps. -/

variable {s t : Pool (Shared T) (Pc T)} {sh sh' : Shared T} {pc pc' : Pc T} {a : Choice T}

/-- A worker that tests whether there is a task. -/
def Pc.Waits (pc : Pc T) (worker : ℕ) : Prop := pc = getTask worker ∨ pc = woken worker

/-- The steps of a thread that neither starts nor wakes another, by their
control points.  With the two kinds of steps that do, they are all the steps
there are. -/
inductive Fires (sh : Shared T) : Pc T → Choice T → Shared T → Pc T → Prop where
  | assign : Fires sh (.construct 0) .go { sh with exit := false, assigned := true } .owner
  | destroy : Fires sh .owner .destroy sh .destruct
  | destruct : Fires sh .destruct .go { sh with exit := true, destroyed := true } .gone
  | refuse (task : T) (usable : sh.usable = true) : Fires sh .caller (.commit task) sh .caller
  | accept (task : T) (usable : sh.usable = true) :
      Fires sh .caller (.commit task) sh (.push task)
  | stop {a : Choice T} (stop : Bool) (call : a ≠ .go) :
      Fires sh .caller a { sh with stop := stop } .caller
  | push (task : T) : Fires sh (.push task) .go (sh.emplace task) .notify
  | leave (worker : ℕ) (exit : sh.exit = true) :
      Fires sh (.check worker) .go { sh with leftEarly := sh.leftEarly || !sh.destroyed }
        (.left worker)
  | stay (worker : ℕ) (exit : sh.exit = false) :
      Fires sh (.check worker) .go sh (.getTask worker)
  | sleep {pc : Pc T} (worker : ℕ) (waits : pc.Waits worker) (empty : sh.taskQueue = []) :
      Fires sh pc .go sh (.asleep worker)
  | dequeue {pc : Pc T} {task : T} {rest : List T} (worker : ℕ) (waits : pc.Waits worker)
      (front : sh.taskQueue = task :: rest) :
      Fires sh pc .go
        { sh with taskQueue := rest, dequeued := sh.dequeued ++ [(worker, task)] }
        (.run worker)
  | finish (worker : ℕ) : Fires sh (.run worker) .go sh (.check worker)

/-- The steps: those of one thread, a worker that is started, a notification of
all, and a sleeper that wakes by itself. -/
inductive Steps (s : Pool (Shared T) (Pc T)) :
    Turn (Choice T) → Pool (Shared T) (Pc T) → Prop where
  | fires {i : ℕ} {pc pc' : Pc T} {a : Choice T} {sh' : Shared T}
      (at_pc : s.threads[i]? = some pc) (fires : Fires s.shared pc a sh' pc') :
      Steps s (.move i a none) ⟨sh', s.threads.set i pc'⟩
  | startWorker {i left : ℕ} (at_pc : s.threads[i]? = some (.construct (left + 1))) :
      Steps s (.move i .go none) ⟨s.shared, s.threads.set i (.construct left) ++ [.check left]⟩
  | notifyAll {i : ℕ} (at_pc : s.threads[i]? = some .notify) :
      Steps s (.move i .go none) ⟨s.shared, (s.threads.set i .caller).map (monitor T).rouse⟩
  | spurious {j worker : ℕ} (sleeper : s.threads[j]? = some (.asleep worker)) :
      Steps s (.spurious j) ⟨s.shared, s.threads.set j (.woken worker)⟩

/-- Testing the queue is going to sleep or taking a task. -/
theorem fires_getTask {worker : ℕ} (waits : pc.Waits worker) :
    (sh.getTask worker).signal = .silent ∧ (sh.getTask worker).started = [] ∧
      Fires sh pc .go (sh.getTask worker).shared (sh.getTask worker).pc := by
  unfold Shared.getTask
  split
  · next empty => exact ⟨rfl, rfl, .sleep worker waits empty⟩
  · next task rest front => exact ⟨rfl, rfl, .dequeue worker waits front⟩

/-- Testing `exit` is leaving or going on. -/
theorem fires_schedule (worker : ℕ) :
    (sh.schedule worker).signal = .silent ∧ (sh.schedule worker).started = [] ∧
      Fires sh (.check worker) .go (sh.schedule worker).shared (sh.schedule worker).pc := by
  unfold Shared.schedule
  split
  · next exit => exact ⟨rfl, rfl, .leave worker exit⟩
  · next stays => exact ⟨rfl, rfl, .stay worker (by simpa using stays)⟩

/-- The steps of a caller outside `commit`. -/
theorem fires_caller {e : Effect (Shared T) (Pc T)}
    (h : (monitor T).program sh .caller a = some e) :
    e.signal = .silent ∧ e.started = [] ∧ Fires sh .caller a e.shared e.pc := by
  cases a with
  | go => cases h
  | destroy => cases h
  | commit task =>
      obtain ⟨usable, h⟩ := Option.ite_none_right_eq_some.mp h
      obtain rfl := Option.some.inj h
      refine ⟨rfl, rfl, ?_⟩
      change Fires sh .caller (.commit task) sh (sh.commit task)
      unfold Shared.commit
      split
      · exact .refuse task usable
      · exact .accept task usable
  | shutdown =>
      obtain ⟨-, h⟩ := Option.ite_none_right_eq_some.mp h
      obtain rfl := Option.some.inj h
      exact ⟨rfl, rfl, .stop true nofun⟩
  | restart =>
      obtain ⟨-, h⟩ := Option.ite_none_right_eq_some.mp h
      obtain rfl := Option.some.inj h
      exact ⟨rfl, rfl, .stop false nofun⟩

/-- What the program of a thread does. -/
theorem program_cases {e : Effect (Shared T) (Pc T)}
    (h : (monitor T).program sh pc a = some e) :
    (e.signal = .silent ∧ e.started = [] ∧ Fires sh pc a e.shared e.pc) ∨
      (∃ left, pc = .construct (left + 1) ∧ a = .go ∧
        e = ⟨sh, .construct left, .silent, [.check left]⟩) ∨
      (pc = .notify ∧ a = .go ∧ e = ⟨sh, .caller, .notifyAll, []⟩) := by
  cases pc with
  | caller => exact .inl (fires_caller h)
  | construct left =>
      cases a with
      | go =>
          cases left with
          | zero =>
              obtain rfl := Option.some.inj h
              exact .inl ⟨rfl, rfl, .assign⟩
          | succ left =>
              obtain rfl := Option.some.inj h
              exact .inr (.inl ⟨left, rfl, rfl, rfl⟩)
      | _ => cases left <;> cases h
  | owner =>
      cases a with
      | destroy =>
          obtain rfl := Option.some.inj h
          exact .inl ⟨rfl, rfl, .destroy⟩
      | _ => cases h
  | destruct =>
      cases a with
      | go =>
          obtain rfl := Option.some.inj h
          exact .inl ⟨rfl, rfl, .destruct⟩
      | _ => cases h
  | push task =>
      cases a with
      | go =>
          obtain rfl := Option.some.inj h
          exact .inl ⟨rfl, rfl, .push task⟩
      | _ => cases h
  | notify =>
      cases a with
      | go =>
          obtain rfl := Option.some.inj h
          exact .inr (.inr ⟨rfl, rfl, rfl⟩)
      | _ => cases h
  | check worker =>
      cases a with
      | go =>
          obtain rfl := Option.some.inj h
          exact .inl (fires_schedule worker)
      | _ => cases h
  | getTask worker =>
      cases a with
      | go =>
          obtain rfl := Option.some.inj h
          exact .inl (fires_getTask (.inl rfl))
      | _ => cases h
  | woken worker =>
      cases a with
      | go =>
          obtain rfl := Option.some.inj h
          exact .inl (fires_getTask (.inr rfl))
      | _ => cases h
  | run worker =>
      cases a with
      | go =>
          obtain rfl := Option.some.inj h
          exact .inl ⟨rfl, rfl, .finish worker⟩
      | _ => cases h
  | gone => cases a <;> cases h
  | asleep worker => cases a <;> cases h
  | left worker => cases a <;> cases h

theorem exists_of_isAsleep (h : pc.isAsleep = true) : ∃ worker, pc = .asleep worker := by
  cases pc with
  | asleep worker => exact ⟨worker, rfl⟩
  | _ => cases h

/-- Every step is one of these. -/
theorem steps_of_step {l : Turn (Choice T)} (h : (monitor T).machine.step s l = some t) :
    Steps s l t := by
  cases l with
  | spurious j =>
      obtain ⟨pc, hpc, asleep, rfl⟩ := Monitor.step_spurious h
      obtain ⟨worker, rfl⟩ := exists_of_isAsleep asleep
      exact .spurious hpc
  | move i a woken =>
      obtain ⟨pc, e, threads, hpc, he, delivered, rfl⟩ := Monitor.step_move h
      rcases program_cases he with ⟨quiet, alone, fires⟩ | ⟨left, rfl, rfl, rfl⟩ | ⟨rfl, rfl, rfl⟩
      · rw [quiet] at delivered
        cases delivered
        rw [alone, List.append_nil]
        exact .fires hpc fires
      · cases delivered
        exact .startWorker hpc
      · cases delivered
        rw [List.append_nil]
        exact .notifyAll hpc

/-- **The rule for a property of each thread**, by the steps of a thread. -/
theorem forall_threads {l : Turn (Choice T)} (good : Shared T → Pc T → Prop)
    (fires : ∀ {pc a sh' pc'}, pc ∈ s.threads → Fires s.shared pc a sh' pc' → good s.shared pc →
      good sh' pc' ∧ ∀ q, good s.shared q → good sh' q)
    (starts : ∀ {sh left}, good sh (.construct (left + 1)) →
      good sh (.construct left) ∧ good sh (.check left))
    (returns : ∀ sh, good sh .caller)
    (wakes : ∀ {sh worker}, good sh (.asleep worker) → good sh (.woken worker))
    (h : (monitor T).machine.step s l = some t) (all : ∀ pc ∈ s.threads, good s.shared pc) :
    ∀ pc ∈ t.threads, good t.shared pc := by
  refine Monitor.forall_threads good ?_ ?_ h all
  · intro pc a e mem he here
    rcases program_cases he with ⟨-, alone, fire⟩ | ⟨left, rfl, -, rfl⟩ | ⟨-, -, rfl⟩
    · obtain ⟨moved, frame⟩ := fires mem fire here
      rw [alone]
      exact ⟨⟨moved, nofun⟩, fun q _ => frame q⟩
    · obtain ⟨rest, started⟩ := starts here
      refine ⟨⟨rest, fun q hq => ?_⟩, fun _ _ => id⟩
      rw [List.mem_singleton.mp hq]
      exact started
    · exact ⟨⟨returns _, nofun⟩, fun _ _ => id⟩
  · intro sh pc asleep here
    obtain ⟨worker, rfl⟩ := exists_of_isAsleep asleep
    exact wakes here

/-! ## What every run keeps

The flag and the order of the tasks. -/

/-- The owner is past the constructor. -/
def Pc.isBuilt : Pc T → Bool
  | .owner => true
  | .destruct => true
  | _ => false

/-- The owner is past the constructor only once `exit` is assigned. -/
def Built (sh : Shared T) (pc : Pc T) : Prop := pc.isBuilt = true → sh.assigned = true

/-- A step keeps the owner where it may be. -/
theorem built_step {l : Turn (Choice T)} (h : (monitor T).machine.step s l = some t)
    (all : ∀ pc ∈ s.threads, Built s.shared pc) : ∀ pc ∈ t.threads, Built t.shared pc := by
  refine forall_threads Built ?_ ?_ ?_ ?_ h all
  · intro pc a sh' pc' mem fires here
    cases fires with
    | assign => exact ⟨fun _ => rfl, fun _ _ _ => rfl⟩
    | destroy => exact ⟨fun _ => here rfl, fun _ => id⟩
    | destruct => exact ⟨fun _ => here rfl, fun _ => id⟩
    | _ => exact ⟨nofun, fun _ => id⟩
  · exact fun _ => ⟨nofun, nofun⟩
  · exact fun _ => nofun
  · exact fun _ => nofun

/-- `exit` is false between its two assignments. -/
structure Assigned (s : Pool (Shared T) (Pc T)) : Prop where
  exit : s.shared.assigned = true → s.shared.destroyed = false → s.shared.exit = false
  order : s.shared.destroyed = true → s.shared.assigned = true
  built : ∀ pc ∈ s.threads, Built s.shared pc

/-- A step keeps `exit` false until the destructor has run. -/
theorem assigned_step {l : Turn (Choice T)} (hs : Assigned s)
    (h : (monitor T).machine.step s l = some t) : Assigned t := by
  have built := built_step h hs.built
  cases steps_of_step h with
  | fires at_pc fires =>
      have here := hs.built _ (List.mem_of_getElem? at_pc)
      cases fires with
      | assign => exact ⟨fun _ _ => rfl, fun _ => rfl, built⟩
      | destruct => exact ⟨nofun, fun _ => here rfl, built⟩
      | _ => exact ⟨hs.exit, hs.order, built⟩
  | _ => exact ⟨hs.exit, hs.order, built⟩

/-- The tasks leave the queue in the order in which they were pushed. -/
def InOrder (sh : Shared T) : Prop :=
  sh.dequeued.map Prod.snd ++ sh.taskQueue = sh.committed

/-- A step keeps the order of the tasks. -/
theorem inOrder_step {l : Turn (Choice T)} (hs : InOrder s.shared)
    (h : (monitor T).machine.step s l = some t) : InOrder t.shared := by
  cases steps_of_step h with
  | fires at_pc fires =>
      cases fires with
      | push task =>
          exact (List.append_assoc _ _ _).symm.trans (congrArg (· ++ [task]) hs)
      | dequeue worker waits front =>
          rw [InOrder, ← hs, front]
          simp
      | _ => exact hs
  | _ => exact hs

/-! ## The workers

Their number never changes. -/

/-- The workers a thread is or has yet to start. -/
def Pc.crew : Pc T → ℕ
  | .construct starting => starting
  | .owner => 0
  | .destruct => 0
  | .gone => 0
  | .caller => 0
  | .push _ => 0
  | .notify => 0
  | .check _ => 1
  | .getTask _ => 1
  | .asleep _ => 1
  | .woken _ => 1
  | .run _ => 1
  | .left _ => 1

/-- A woken worker is a worker. -/
theorem crew_rouse (pc : Pc T) : ((monitor T).rouse pc).crew = pc.crew := by
  cases pc <;> rfl

/-- A thread stays what it is. -/
theorem crew_fires (h : Fires sh pc a sh' pc') : pc'.crew = pc.crew := by
  cases h with
  | sleep worker waits => rcases waits with rfl | rfl <;> rfl
  | dequeue worker waits => rcases waits with rfl | rfl <;> rfl
  | _ => rfl

theorem crew_step {l : Turn (Choice T)} (h : (monitor T).machine.step s l = some t) :
    t.total Pc.crew = s.total Pc.crew := by
  cases steps_of_step h with
  | @fires i pc pc' a sh' at_pc fires =>
      have moved := sum_map_set Pc.crew at_pc pc'
      rw [crew_fires fires] at moved
      exact Nat.add_right_cancel moved
  | @startWorker i left at_pc =>
      have moved := sum_map_set Pc.crew at_pc (.construct left)
      simp only [Pc.crew] at moved
      simp only [Pool.total, List.map_append, List.sum_append, List.map_cons, List.map_nil,
        List.sum_singleton, Pc.crew]
      omega
  | notifyAll at_pc =>
      have moved := sum_map_set Pc.crew at_pc .caller
      simp only [Pool.total, List.map_map, Function.comp_def, crew_rouse]
      exact moved
  | @spurious j worker sleeper =>
      exact Nat.add_right_cancel (sum_map_set Pc.crew sleeper (.woken worker))

/-- The numbers of the workers are below the size of the crew. -/
def Pc.Below (crew : ℕ) : Pc T → Prop
  | .construct starting => starting ≤ crew
  | .check worker => worker < crew
  | .getTask worker => worker < crew
  | .asleep worker => worker < crew
  | .woken worker => worker < crew
  | .run worker => worker < crew
  | .left worker => worker < crew
  | _ => True

/-- Whoever tests the queue is a worker. -/
theorem Pc.Waits.below {crew worker : ℕ} (h : pc.Waits worker) (below : pc.Below crew) :
    worker < crew := by
  rcases h with rfl | rfl <;> exact below

/-- A step keeps the numbers of the workers. -/
theorem below_step {crew : ℕ} {l : Turn (Choice T)} (h : (monitor T).machine.step s l = some t)
    (all : ∀ pc ∈ s.threads, pc.Below crew) : ∀ pc ∈ t.threads, pc.Below crew := by
  refine forall_threads (fun _ pc => pc.Below crew) ?_ ?_ ?_ ?_ h all
  · intro pc a sh' pc' mem fires here
    refine ⟨?_, fun _ => id⟩
    cases fires with
    | sleep worker waits => exact waits.below here
    | dequeue worker waits => exact waits.below here
    | leave worker => exact here
    | stay worker => exact here
    | finish worker => exact here
    | _ => trivial
  · exact fun {sh left} here => ⟨Nat.le_of_succ_le here, here⟩
  · exact fun _ => trivial
  · exact id

/-- Tasks are dequeued by workers. -/
structure Numbered (crew : ℕ) (s : Pool (Shared T) (Pc T)) : Prop where
  threads : ∀ pc ∈ s.threads, pc.Below crew
  dequeued : ∀ d ∈ s.shared.dequeued, d.1 < crew

theorem numbered_step {crew : ℕ} {l : Turn (Choice T)} (hs : Numbered crew s)
    (h : (monitor T).machine.step s l = some t) : Numbered crew t := by
  refine ⟨below_step h hs.threads, ?_⟩
  cases steps_of_step h with
  | fires at_pc fires =>
      cases fires with
      | dequeue worker waits front =>
          intro d mem
          rcases List.mem_append.mp mem with mem | mem
          · exact hs.dequeued d mem
          · rw [List.mem_singleton.mp mem]
            exact waits.below (hs.threads _ (List.mem_of_getElem? at_pc))
      | _ => exact hs.dequeued
  | _ => exact hs.dequeued

/-! ## The sleepers

A notification comes after the push, so a sleeper may be beside a task for a
while. -/

/-- A worker sleeps beside a task only until a commit that has pushed notifies
it.  The notification is for all sleepers, so one is enough for any number of
tasks. -/
def Heard (s : Pool (Shared T) (Pc T)) : Prop :=
  (∃ pc ∈ s.threads, pc.isAsleep = true) → s.shared.taskQueue ≠ [] → .notify ∈ s.threads

/-- A sleeper after a thread has moved on awake was one before. -/
theorem asleep_of_set {threads : List (Pc T)} {i : ℕ} (awake : pc'.isAsleep = false)
    (h : ∃ pc ∈ threads.set i pc', pc.isAsleep = true) :
    ∃ pc ∈ threads, pc.isAsleep = true := by
  obtain ⟨pc, mem, asleep⟩ := h
  rcases List.mem_or_eq_of_mem_set mem with mem | rfl
  · exact ⟨pc, mem, asleep⟩
  · rw [awake] at asleep
    cases asleep

/-- A step keeps it: whoever pushes is about to notify, and a notification
leaves no sleeper. -/
theorem heard_step {l : Turn (Choice T)} (hs : Heard s)
    (h : (monitor T).machine.step s l = some t) : Heard t := by
  intro asleep nonempty
  cases steps_of_step h with
  | @fires i pc pc' a sh' at_pc fires =>
      have stays (awake : pc'.isAsleep = false) (before : s.shared.taskQueue ≠ [])
          (other : pc ≠ .notify) : .notify ∈ s.threads.set i pc' :=
        mem_set_of_ne (hs (asleep_of_set awake asleep) before) at_pc other pc'
      cases fires with
      | push task => exact List.mem_set (List.getElem?_eq_some_iff.mp at_pc).1 _
      | sleep worker waits empty => exact absurd empty nonempty
      | dequeue worker waits front =>
          exact stays rfl (by simp [front]) (by rcases waits with rfl | rfl <;> exact nofun)
      | _ => exact stays rfl nonempty nofun
  | @startWorker i left at_pc =>
      obtain ⟨pc, mem, asleep⟩ := asleep
      rcases List.mem_append.mp mem with mem | mem
      · exact List.mem_append_left _
          (mem_set_of_ne (hs (asleep_of_set rfl ⟨pc, mem, asleep⟩) nonempty) at_pc nofun _)
      · rw [List.mem_singleton.mp mem] at asleep
        cases asleep
  | notifyAll at_pc =>
      obtain ⟨pc, mem, asleep⟩ := asleep
      obtain ⟨qc, -, rfl⟩ := List.mem_map.mp mem
      cases qc <;> cases asleep
  | spurious sleeper =>
      exact mem_set_of_ne (hs (asleep_of_set rfl asleep) nonempty) sleeper nofun _

/-! ## The workers that leave

They leave early exactly where the condition fails. -/

/-- The worker has left its loop. -/
def Pc.isLeft : Pc T → Bool
  | .left _ => true
  | _ => false

/-- Before the destructor has run, a worker that has left its loop has left it
early, and this is noted at the moment it does. -/
def NoneLeft (sh : Shared T) (pc : Pc T) : Prop :=
  sh.leftEarly = false → sh.destroyed = false → pc.isLeft = false

/-- A worker that leaves is noted. -/
theorem noneLeft_step {l : Turn (Choice T)} (h : (monitor T).machine.step s l = some t)
    (all : ∀ pc ∈ s.threads, NoneLeft s.shared pc) : ∀ pc ∈ t.threads, NoneLeft t.shared pc := by
  refine forall_threads NoneLeft ?_ ?_ ?_ ?_ h all
  · intro pc a sh' pc' mem fires here
    cases fires with
    | destruct => exact ⟨fun _ => nofun, fun _ _ _ => nofun⟩
    | leave worker exit =>
        have early (sh : Shared T) (now : (sh.leftEarly || !sh.destroyed) = false) :
            sh.destroyed = true := by
          rw [Bool.or_eq_false_iff, Bool.not_eq_false'] at now
          exact now.2
        exact ⟨fun now alive => absurd (early _ now) (by rw [alive]; decide),
          fun q _ now alive => absurd (early _ now) (by rw [alive]; decide)⟩
    | _ => exact ⟨fun _ _ => rfl, fun _ => id⟩
  · exact fun _ => ⟨fun _ _ => rfl, fun _ _ => rfl⟩
  · exact fun _ _ _ => rfl
  · exact fun _ _ _ => rfl

/-- A step keeps the workers in their loops exactly if it does not test an
`exit` that is true and not assigned.  After the assignment and before the
destructor, `exit` is false. -/
theorem stays_step_iff {l : Turn (Choice T)} (hs : Assigned s)
    (h : (monitor T).machine.step s l = some t) :
    t.shared.leftEarly = false ↔ s.shared.leftEarly = false ∧ Initialised s l := by
  have quiet {i : ℕ} {pc : Pc T} {woken : Option ℕ} {a : Choice T}
      (at_pc : s.threads[i]? = some pc) (other : pc.isCheck = false) :
      Initialised s (.move i a woken) := by
    simp [Initialised, at_pc, other]
  cases steps_of_step h with
  | @fires i pc pc' a sh' at_pc fires =>
      cases fires with
      | leave worker exit =>
          have early : Initialised s (.move i .go none) ↔ s.shared.assigned = true := by
            simp [Initialised, at_pc, Pc.isCheck, exit]
          rw [early]
          change (s.shared.leftEarly || !s.shared.destroyed) = false ↔ _
          rw [Bool.or_eq_false_iff, Bool.not_eq_false']
          refine and_congr_right fun _ => ⟨hs.order, fun assigned => ?_⟩
          cases alive : s.shared.destroyed with
          | true => rfl
          | false => exact absurd (hs.exit assigned alive) (by simp [exit])
      | stay worker exit =>
          exact (and_iff_left (by simp [Initialised, exit])).symm
      | sleep worker waits =>
          exact (and_iff_left (quiet at_pc (by rcases waits with rfl | rfl <;> rfl))).symm
      | dequeue worker waits =>
          exact (and_iff_left (quiet at_pc (by rcases waits with rfl | rfl <;> rfl))).symm
      | _ => exact (and_iff_left (quiet at_pc rfl)).symm
  | startWorker at_pc => exact (and_iff_left (quiet at_pc rfl)).symm
  | notifyAll at_pc => exact (and_iff_left (quiet at_pc rfl)).symm
  | spurious sleeper => exact (and_iff_left trivial).symm

/-! ## The threads go on until they wait

A measure that every step takes away from. -/

/-- A step of a thread takes away from its work, with what it does to the
queue. -/
theorem work_fires (crew : ℕ) (h : Fires sh pc .go sh' pc') :
    4 * sh'.taskQueue.length + pc'.work crew + 1 ≤ 4 * sh.taskQueue.length + pc.work crew := by
  cases h with
  | assign => exact Nat.le_refl _
  | destruct => exact Nat.le_refl _
  | stop stop call => exact absurd rfl call
  | push task =>
      simp only [Shared.emplace, List.length_append, List.length_singleton, Pc.work]
      omega
  | leave worker exit => simp [Pc.work]
  | stay worker exit => simp [Pc.work]
  | sleep worker waits => rcases waits with rfl | rfl <;> simp [Pc.work]
  | dequeue worker waits front =>
      rw [front]
      rcases waits with rfl | rfl <;> simp only [List.length_cons, Pc.work] <;> omega
  | finish worker => simp [Pc.work]

/-- A notification wakes no more than the crew. -/
theorem work_rouse (crew : ℕ) (threads : List (Pc T)) :
    ((threads.map (monitor T).rouse).map (Pc.work crew)).sum ≤
      (threads.map (Pc.work crew)).sum + (threads.map Pc.crew).sum := by
  rw [← List.sum_map_add, List.map_map]
  refine List.sum_le_sum fun pc _ => ?_
  cases pc <;> simp [Monitor.rouse, monitor, Pc.isAsleep, Pc.wake, Pc.work, Pc.crew]

/-- A thread that goes on has one step less to take. -/
theorem work_step {crew : ℕ} {l : Turn (Choice T)} (hs : s.total Pc.crew = crew) (go : IsGo l)
    (h : (monitor T).machine.step s l = some t) : work crew t + 1 ≤ work crew s := by
  cases steps_of_step h with
  | @fires i pc pc' a sh' at_pc fires =>
      obtain rfl : a = .go := go
      have less := work_fires crew fires
      have moved := sum_map_set (Pc.work crew) at_pc pc'
      simp only [work, Pool.total]
      omega
  | @startWorker i left at_pc =>
      have moved := sum_map_set (Pc.work crew) at_pc (.construct left)
      simp only [Pc.work] at moved
      simp only [work, Pool.total, List.map_append, List.sum_append, List.map_cons,
        List.map_nil, List.sum_singleton, Pc.work]
      omega
  | @notifyAll i at_pc =>
      have moved := sum_map_set (Pc.work crew) at_pc .caller
      have same := sum_map_set Pc.crew at_pc .caller
      have woken := work_rouse crew (s.threads.set i .caller)
      simp only [Pc.work, Pc.crew] at moved same
      simp only [work, Pool.total] at *
      omega
  | spurious => cases go

/-- So a run in which threads go on is no longer than their work. -/
theorem work_run {crew : ℕ} {rest : List (Turn (Choice T))} (hs : s.total Pc.crew = crew)
    (go : ∀ l ∈ rest, IsGo l) (h : (monitor T).machine.exec s rest = some t) :
    rest.length + work crew t ≤ work crew s := by
  induction rest generalizing s with
  | nil =>
      cases h
      simp
  | cons l rest ih =>
      obtain ⟨r, hr, run⟩ := Machine.exec_cons_eq_some _ h
      obtain ⟨hl, hrest⟩ := List.forall_mem_cons.mp go
      have less := work_step hs hl hr
      have := ih ((crew_step hr).trans hs) hrest run
      rw [List.length_cons]
      omega

/-- A thread that has a next statement can go on. -/
theorem step_ne_none {i : ℕ} {e : Effect (Shared T) (Pc T)} (hi : s.threads[i]? = some pc)
    (he : (monitor T).program s.shared pc .go = some e) :
    (monitor T).machine.step s (.move i .go none) ≠ none := by
  intro h
  change (s.threads[i]?.bind fun pc => ((monitor T).program s.shared pc .go).bind _) = _ at h
  rw [hi, Option.bind_some, he, Option.bind_some, Option.map_eq_none_iff] at h
  rcases program_cases he with ⟨quiet, -, -⟩ | ⟨left, -, -, rfl⟩ | ⟨-, -, rfl⟩
  · rw [quiet] at h
    cases h
  · cases h
  · cases h

/-- Where no thread can go on, none has a next statement. -/
theorem program_eq_none (stuck : ∀ l, IsGo l → (monitor T).machine.step s l = none)
    (mem : pc ∈ s.threads) : (monitor T).program s.shared pc .go = none := by
  obtain ⟨i, hi⟩ := List.mem_iff_getElem?.mp mem
  cases he : (monitor T).program s.shared pc .go with
  | none => rfl
  | some e => exact absurd (stuck (.move i .go none) rfl) (step_ne_none hi he)

/-- Where no thread can go on and none has left, the queue is empty. -/
theorem drained_of_stuck {crew : ℕ} (positive : 0 < crew) (hcrew : s.total Pc.crew = crew)
    (heard : Heard s) (noneLeft : ∀ pc ∈ s.threads, pc.isLeft = false)
    (stuck : ∀ l, IsGo l → (monitor T).machine.step s l = none) : s.shared.taskQueue = [] := by
  by_contra nonempty
  -- each worker sleeps
  have sleeper : ∃ pc ∈ s.threads, pc.isAsleep = true := by
    by_contra none_sleeps
    have idle : s.total Pc.crew = 0 := by
      refine (Pool.total_eq_zero_iff Pc.crew).mpr fun pc mem => ?_
      have waits := program_eq_none stuck mem
      have stays := noneLeft pc mem
      cases pc with
      | construct starting => cases starting <;> cases waits
      | asleep worker => exact absurd ⟨_, mem, rfl⟩ none_sleeps
      | left worker => cases stays
      | _ => first | rfl | cases waits
    omega
  cases program_eq_none stuck (heard sleeper nonempty)

/-! ## The executor

The invariants together, and both directions. -/

/-- What every run keeps.  None of it depends on what the memory holds at the
start. -/
structure Sound (crew : ℕ) (s : Pool (Shared T) (Pc T)) : Prop where
  assigned : Assigned s
  inOrder : InOrder s.shared
  total : s.total Pc.crew = crew
  numbered : Numbered crew s
  heard : Heard s
  noneLeft : ∀ pc ∈ s.threads, NoneLeft s.shared pc

/-- Each step keeps all of it. -/
theorem sound_step {crew : ℕ} {l : Turn (Choice T)} (hs : Sound crew s)
    (h : (monitor T).machine.step s l = some t) : Sound crew t where
  assigned := assigned_step hs.assigned h
  inOrder := inOrder_step hs.inOrder h
  total := (crew_step h).trans hs.total
  numbered := numbered_step hs.numbered h
  heard := heard_step hs.heard h
  noneLeft := noneLeft_step h hs.noneLeft

theorem workers_pos (size : ℕ) : 0 < workers size := by
  unfold workers
  split <;> omega

/-- At the start nothing has been committed. -/
theorem sound_start (exit : Bool) (size callers : ℕ) :
    Sound (workers size) (start T exit size callers) := by
  have threads {P : Pc T → Prop} (owner : P (.construct (workers size))) (caller : P .caller) :
      ∀ pc ∈ (start T exit size callers).threads, P pc := by
    intro pc mem
    rcases List.mem_cons.mp mem with rfl | mem
    · exact owner
    · rw [List.eq_of_mem_replicate mem]
      exact caller
  refine ⟨⟨nofun, nofun, threads nofun nofun⟩, rfl, ?_, ⟨threads le_rfl trivial, nofun⟩, ?_, ?_⟩
  · simp [start, Pool.total, Pc.crew]
  · rintro ⟨pc, mem, asleep⟩
    rw [threads (P := fun pc => pc.isAsleep = false) rfl rfl pc mem] at asleep
    cases asleep
  · exact threads (fun _ _ => rfl) fun _ _ => rfl

/-- **The executor runs every task once**, and keeps its workers until it is
destroyed, in the runs in which no worker tests an `exit` that is true and not
assigned, and in no others. -/
theorem runs_all_iff_initialised (exit : Bool) (size callers : ℕ) (run : List (Turn (Choice T)))
    (s : Pool (Shared T) (Pc T))
    (h : (monitor T).machine.exec (start T exit size callers) run = some s) :
    RunsAll (workers size) s ↔
      (monitor T).machine.Guarded Initialised (start T exit size callers) run := by
  have sound : Sound (workers size) s :=
    (monitor T).machine.invariant_of_step sound_step (sound_start exit size callers) h
  have stays : s.shared.leftEarly = false ↔
      (monitor T).machine.Guarded Initialised (start T exit size callers) run :=
    ((monitor T).machine.holds_iff_guarded sound_step
      (fun hs step => stays_step_iff hs.assigned step) (sound_start exit size callers) h).trans
      (and_iff_right rfl)
  refine ⟨fun all => stays.mp all.stays, fun initialised => ?_⟩
  have early := stays.mpr initialised
  exact
    { inOrder := ⟨sound.inOrder, sound.numbered.dequeued⟩
      awake := sound.heard
      stays := early
      drained := fun stuck alive => by
        have empty := drained_of_stuck (workers_pos size) sound.total sound.heard
          (fun pc mem => sound.noneLeft pc mem early alive) stuck
        rw [← sound.inOrder, empty, List.append_nil]
      bounded := fun _ _ go run => work_run sound.total go run }

/-- Two workers and two callers, with `exit` false from the start: the first
task is run by the second worker, which slept, and the second by the first
worker. -/
def twoTasks : List (Turn (Choice ℕ)) :=
  [.move 0 .go none, .move 3 .go none, .move 3 .go none, .move 0 .go none, .move 0 .go none,
    .move 1 (.commit 7) none, .move 2 (.commit 8) none, .move 1 .go none, .move 1 .go none,
    .move 3 .go none, .move 2 .go none, .move 4 .go none, .move 4 .go none, .move 2 .go none]

/-- Both tasks are dequeued, in the order in which they were pushed. -/
theorem runs_all_two_tasks :
    ∃ s, (monitor ℕ).machine.exec (start ℕ false 2 2) twoTasks = some s ∧
      s.shared.dequeued = [(1, 7), (0, 8)] ∧ RunsAll 2 s := by
  refine ⟨_, rfl, by decide, ?_⟩
  exact (runs_all_iff_initialised false 2 2 twoTasks _ rfl).mpr (by decide)

/-- With `exit` true in memory, the only worker starts before the constructor
has assigned it, and leaves; then a task is committed. -/
def exitFound : List (Turn (Choice ℕ)) :=
  [.move 0 .go none, .move 2 .go none, .move 0 .go none, .move 1 (.commit 7) none,
    .move 1 .go none, .move 1 .go none]

/-- No worker is left, and the task stays in the queue.  `commit` has accepted
it and has notified nobody. -/
theorem task_never_run :
    ∃ s, (monitor ℕ).machine.exec (start ℕ true 1 1) exitFound = some s ∧
      s.shared.committed = [7] ∧ s.shared.dequeued = [] ∧ s.shared.leftEarly = true ∧
        s.threads = [.owner, .caller, .left 0] ∧ ¬ RunsAll 1 s := by
  refine ⟨_, rfl, rfl, rfl, rfl, rfl, fun all => ?_⟩
  cases all.stays

end EstarGo.Executor
