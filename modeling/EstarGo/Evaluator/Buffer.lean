import EstarGo.Evaluator.Client

/-!
# The bounded request buffer

`full_` counts the free slots of `send_queue_` and `empty_` the items no sender
has reserved.  Permits are taken before the locked section and given back after
it, so neither count alone describes the queue; the two balances below add what
the threads hold in between.

## Main definitions

* `SlotsBalanced` — `full_` and the queue, with the slots of producers about to
  push and of senders that have popped but not notified, are `queue_size`.
* `ItemsBalanced` — `empty_`, with the items reserved by senders and those
  pushed but not announced, is the length of the queue; so no reservation
  exceeds the queue.
* `BufferInv` — both, with the order of the items.

## Main results

* `popItems_eq`: what the locked section takes out of the queue.
* `slots_balance`, `items_balance`: each step keeps the balances.
* `send_queue_bounded`: the buffer never underruns or overruns, and it is
  first-in first-out.

## Design notes

**What left the queue** is noted from the two vectors that a sender goes on
with, a request and a callback at a time, and not from the queue.  So the order
is about what is handed on.
-/

namespace EstarGo.Client

open Verif

variable {H V : Type}

/-! ## Popping

The locked section of `ProcessEval`, on a queue that is long enough. -/

/-- The locked section in closed form: it takes the front of the queue, in
order, and fails exactly when the queue is too short. -/
theorem popItems_eq (fetch : ℕ) (queue : List (RequestItem H)) :
    popItems fetch queue =
      if fetch ≤ queue.length then
        some ((queue.take fetch).map (·.history), (queue.take fetch).map (·.callback),
          queue.drop fetch)
      else none := by
  induction fetch generalizing queue with
  | zero => simp [popItems]
  | succ fetch ih =>
      cases queue with
      | nil => simp [popItems]
      | cons item queue =>
          rw [popItems, ih]
          by_cases h : fetch ≤ queue.length <;> simp [h]

/-- It fails only on a queue that is too short. -/
theorem popItems_eq_none {fetch : ℕ} {queue : List (RequestItem H)}
    (h : popItems fetch queue = none) : queue.length < fetch := by
  rw [popItems_eq] at h
  simpa using h

/-- What it takes is the front of the queue, and what it leaves the rest. -/
theorem popItems_eq_some {fetch : ℕ} {queue queue' : List (RequestItem H)}
    {requests : List H} {callbacks : List ℕ}
    (h : popItems fetch queue = some (requests, callbacks, queue')) :
    fetch ≤ queue.length ∧ requests = (queue.take fetch).map (·.history) ∧
      callbacks = (queue.take fetch).map (·.callback) ∧ queue' = queue.drop fetch := by
  rw [popItems_eq] at h
  split at h
  · simp only [Option.some.injEq, Prod.mk.injEq] at h
    obtain ⟨rfl, rfl, rfl⟩ := h
    exact ⟨by assumption, rfl, rfl, rfl⟩
  · cases h

/-- Histories and callbacks, put together again, are the items they came
from. -/
theorem zipWith_mk_map (items : List (RequestItem H)) :
    List.zipWith RequestItem.mk (items.map (·.history)) (items.map (·.callback)) = items := by
  rw [List.zipWith_map]
  induction items with
  | nil => rfl
  | cons item items ih => rw [List.zipWith_cons_cons, ih]

/-- What a sender takes into its two vectors and what it leaves in the queue are
the items that were there, in this order. -/
theorem zipWith_append_of_popItems {fetch : ℕ} {queue queue' : List (RequestItem H)}
    {requests : List H} {callbacks : List ℕ}
    (h : popItems fetch queue = some (requests, callbacks, queue')) :
    List.zipWith .mk requests callbacks ++ queue' = queue := by
  obtain ⟨-, rfl, rfl, rfl⟩ := popItems_eq_some h
  rw [zipWith_mk_map, List.take_append_drop]

/-! ## What threads hold

Counts and items that have left a semaphore or the queue and not yet come to the
other. -/

namespace Pc

/-- A slot taken by `full_->wait()` and not yet filled. -/
def slotsTaken : Pc H V → ℕ
  | evalPush _ _ => 1
  | _ => 0

/-- Slots emptied by a pop and not yet given back by `full_->notify(fetch)`. -/
def slotsPopped : Pc H V → ℕ
  | fetchNotify _ fetch _ _ => fetch
  | _ => 0

/-- Items taken from `empty_` and not yet popped. -/
def itemsReserved : Pc H V → ℕ
  | fetchPop _ fetch => fetch
  | _ => 0

/-- An item pushed and not yet announced by `empty_->notify()`. -/
def itemsUnannounced : Pc H V → ℕ
  | evalNotify _ => 1
  | _ => 0

end Pc

/-- Recording a latency touches nothing but the latency. -/
theorem Shared.record_eq (sh : Shared H V) (cookie : Cookie H) :
    Shared.record sh cookie = { sh with
      recordCount := sh.recordCount + if cookie.dummy then 0 else 1 } := by
  unfold Shared.record
  split <;> simp

variable {cfg : EvalConfig} {s t : Pool (Shared H V) (Pc H V)}
variable {l : ℕ × Choice H V} {ls : List (ℕ × Choice H V)}

/-- Nothing is held at the start. -/
theorem total_start {M : Type*} [AddCommMonoid M] (f : Pc H V → M)
    (hloop : ∀ sender, f (.loop sender) = 0) (hidle : f .idle = 0) :
    Pool.total f (start cfg) = 0 := by
  simp [Pool.total, start, hloop, hidle, Function.comp_def]

/-! ## The two balances

Each is a sum over the threads, so a step is a change of one summand. -/

section Balances

variable [Inhabited H]

/-- The producers about to push and the senders between pop and notify hold the
slots that are neither free nor filled.  All of them together are the slots that
`full_` was made with. -/
def SlotsBalanced (cfg : EvalConfig) (s : Pool (Shared H V) (Pc H V)) : Prop :=
  s.shared.full.count + s.shared.sendQueue.length +
    Pool.total (fun pc => pc.slotsTaken + pc.slotsPopped) s = cfg.queueSize

/-- The senders with a reservation and the producers about to announce account
for the items `empty_` does not count.  An item may thus be popped by a sender
before its own announcement. -/
def ItemsBalanced (s : Pool (Shared H V) (Pc H V)) : Prop :=
  s.shared.empty.count +
    Pool.total (fun pc => pc.itemsReserved + pc.itemsUnannounced) s =
      s.shared.sendQueue.length

omit [Inhabited H] in
/-- At the start all slots are free. -/
theorem slotsBalanced_start : SlotsBalanced cfg (start cfg : Pool (Shared H V) (Pc H V)) := by
  rw [SlotsBalanced, total_start _ (fun _ => rfl) rfl]
  rfl

omit [Inhabited H] in
theorem itemsBalanced_start : ItemsBalanced (start cfg : Pool (Shared H V) (Pc H V)) := by
  rw [ItemsBalanced, total_start _ (fun _ => rfl) rfl]
  rfl

/-- **Slots.**  Each step moves a slot between `full_`, the queue and the
threads. -/
theorem slots_balance (h : (machine cfg).step s l = some t) (hs : SlotsBalanced cfg s) :
    SlotsBalanced cfg t := by
  refine Pool.total_balance (fun sh : Shared H V => sh.full.count + sh.sendQueue.length)
    (fun _ => cfg.queueSize) (fun pc : Pc H V => pc.slotsTaken + pc.slotsPopped) ?_ h hs
  intro pc choice sh pc' new ctx _ _ hstep
  cases fires_of_program hstep with
  | takeSlot | push | freeSlotsAsyn | freeSlotsSync =>
      simp [Pc.slotsTaken, Pc.slotsPopped]; omega
  | pushed resume => cases resume <;> simp [Resume.pc, Pc.slotsTaken, Pc.slotsPopped]
  | pop sender fetch requests callbacks queue popped =>
      obtain ⟨hle, -, -, rfl⟩ := popItems_eq_some popped
      simp [Pc.slotsTaken, Pc.slotsPopped]
      omega
  | record => simp [Pc.slotsTaken, Pc.slotsPopped, Shared.record_eq]
  | _ => simp [Pc.slotsTaken, Pc.slotsPopped]

/-- **Items.**  Each step moves an item between `empty_` and the threads, or
changes the queue along with them. -/
theorem items_balance (h : (machine cfg).step s l = some t) (hs : ItemsBalanced s) :
    ItemsBalanced t := by
  refine Pool.total_balance (fun sh : Shared H V => sh.empty.count)
    (fun sh => sh.sendQueue.length)
    (fun pc : Pc H V => pc.itemsReserved + pc.itemsUnannounced)
    ?_ h hs
  intro pc choice sh pc' new ctx _ _ hstep
  cases fires_of_program hstep with
  | push | reserve => simp [Pc.itemsReserved, Pc.itemsUnannounced]; omega
  | pushed resume =>
      cases resume <;> simp [Resume.pc, Pc.itemsReserved, Pc.itemsUnannounced] <;> omega
  | popEmpty sender fetch none =>
      have := popItems_eq_none none
      simp [Pc.itemsReserved, Pc.itemsUnannounced]
      omega
  | pop sender fetch requests callbacks queue popped =>
      obtain ⟨hle, -, -, rfl⟩ := popItems_eq_some popped
      simp [Pc.itemsReserved, Pc.itemsUnannounced]
      omega
  | record => simp [Pc.itemsReserved, Pc.itemsUnannounced, Shared.record_eq]
  | _ => simp [Pc.itemsReserved, Pc.itemsUnannounced]

omit [Inhabited H] in
/-- A sender's reservation never exceeds the queue. -/
theorem reserved_le_length (hs : ItemsBalanced s) {sender fetch : ℕ}
    (hpc : .fetchPop sender fetch ∈ s.threads) : fetch ≤ s.shared.sendQueue.length := by
  have held : fetch ≤ Pool.total (fun pc => pc.itemsReserved + pc.itemsUnannounced) s :=
    Pool.le_total (fun pc : Pc H V => pc.itemsReserved + pc.itemsUnannounced) hpc
  unfold ItemsBalanced at hs
  omega

/-- What entered the queue is what left it and what is in it, in this order. -/
theorem fifo_step (h : (machine cfg).step s l = some t)
    (hs : s.shared.entered = s.shared.left ++ s.shared.sendQueue) :
    t.shared.entered = t.shared.left ++ t.shared.sendQueue := by
  obtain ⟨pre, pc, post, choice, sh, pc', new, -, -, -, hstep, rfl⟩ := Program.step_cases h
  cases fires_of_program hstep with
  | push => simp [hs]
  | pop sender fetch requests callbacks queue popped =>
      simp only [hs, List.append_assoc, zipWith_append_of_popItems popped]
  | record => simpa [Shared.record_eq] using hs
  | _ => exact hs

/-- The front of an empty queue is not read. -/
theorem no_emptyQueue_step (h : (machine cfg).step s l = some t) (hitems : ItemsBalanced s)
    (hs : Fault.emptyQueue ∉ s.shared.faults) : Fault.emptyQueue ∉ t.shared.faults := by
  obtain ⟨pre, pc, post, choice, sh, pc', new, hthreads, -, -, hstep, rfl⟩ :=
    Program.step_cases h
  have hpc : pc ∈ s.threads := by simp [hthreads]
  cases fires_of_program hstep with
  | popEmpty sender fetch none =>
      have := popItems_eq_none none
      have := reserved_le_length hitems hpc
      omega
  | shortSync | shortReply | shortResend => simpa using hs
  | record => simpa [Shared.record_eq] using hs
  | _ => exact hs

end Balances

/-! ## Every run

The invariants together. -/

variable [Inhabited H]

/-- What holds of the buffer in every reachable state.  The bound on the queue
follows from the first part, and the order of the items is the third. -/
structure BufferInv (cfg : EvalConfig) (s : Pool (Shared H V) (Pc H V)) : Prop where
  slots : SlotsBalanced cfg s
  items : ItemsBalanced s
  fifo : s.shared.entered = s.shared.left ++ s.shared.sendQueue
  noUnderrun : Fault.emptyQueue ∉ s.shared.faults

omit [Inhabited H] in
theorem bufferInv_start : BufferInv cfg (start cfg : Pool (Shared H V) (Pc H V)) :=
  ⟨slotsBalanced_start, itemsBalanced_start, rfl, by simp [start, Shared.start]⟩

theorem bufferInv_step (hs : BufferInv cfg s) (h : (machine cfg).step s l = some t) :
    BufferInv cfg t :=
  ⟨slots_balance h hs.slots, items_balance h hs.items, fifo_step h hs.fifo,
    no_emptyQueue_step h hs.items hs.noUnderrun⟩

/-- Every run keeps it, with any settings and any number of threads. -/
theorem bufferInv_run (run : (machine cfg).exec (start cfg) ls = some s) :
    BufferInv cfg s :=
  (machine cfg).invariant_of_step bufferInv_step bufferInv_start run

/-- **The buffer is bounded and first-in first-out.**  In every state of every
run, for any settings and any number of threads: no sender has read the front of
an empty queue, the queue holds at most `queue_size` items, what left it is what
entered it first, and the slots are conserved. -/
theorem send_queue_bounded (cfg : EvalConfig) (ls : List (ℕ × Choice H V))
    (s : Pool (Shared H V) (Pc H V))
    (run : (machine cfg).exec (start cfg) ls = some s) :
    Fault.emptyQueue ∉ s.shared.faults ∧
      s.shared.sendQueue.length ≤ cfg.queueSize ∧
      s.shared.entered = s.shared.left ++ s.shared.sendQueue ∧
      s.shared.full.count + s.shared.sendQueue.length + Pool.total Pc.slotsTaken s +
        Pool.total Pc.slotsPopped s = cfg.queueSize := by
  have inv := bufferInv_run run
  have slots := inv.slots
  rw [SlotsBalanced, Pool.total_add] at slots
  exact ⟨inv.noUnderrun, by omega, inv.fifo, by omega⟩

/-- One request in the queue, which is then full: with `queue_size` 1 there is
no free slot left, and nothing has been handed out. -/
theorem send_queue_bounded_one_push :
    ∃ s, (machine (H := ℕ) (V := ℕ) smallConfig).exec (start smallConfig)
        [(1, .enter), (1, .evaluate 7), (1, .go), (1, .go)] = some s ∧
      s.shared.sendQueue.length ≤ 1 := by
  obtain ⟨s, run⟩ := Option.isSome_iff_exists.mp (by decide :
    ((machine (H := ℕ) (V := ℕ) smallConfig).exec (start smallConfig)
      [(1, .enter), (1, .evaluate 7), (1, .go), (1, .go)]).isSome)
  exact ⟨s, run, (send_queue_bounded smallConfig _ s run).2.1⟩

end EstarGo.Client
