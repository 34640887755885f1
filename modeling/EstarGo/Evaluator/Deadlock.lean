import EstarGo.Evaluator.Conservation

/-!
# The circular wait of the client

`failure_cb` takes queue slots through `EvalByHistory` before it gives its send
permit back, so a slot can wait for a sender and that sender for the permit.
The cycle needs every permit of every sender in such a handler.

## Main definitions

* `Blocked`, `Deadlock` — a thread waiting on a semaphore at 0, and a state in
  which all wait while a request is unanswered.
* `Slack` — some sender has a permit that no failure handler holds.
* `Live` — the promises of a run.

## Main results

* `no_deadlock_of_slack`: with `FailureSlack`, the client has no deadlock.
* `deadlock_after_failure`: without it, it can run into one, and nothing moves
  any more.

## Design notes

**From the blocked sender to the queue.**  With slack some sender has a permit
that is with nobody else, so it waits for items, and `empty_` is 0.  Then the
queue is empty by the balance of items, `full_` has a slot by that of slots, and
no callback is left anywhere but in a queue or a batch.
-/

namespace EstarGo.Client

open Verif

variable {H V : Type}

/-! ## Deadlock

What it is for a thread to wait. -/

/-- A thread that waits on a semaphore whose count is 0 or polls for
`pending_ == 0`, or that has nothing to do.  A batch in flight is not blocked,
since the server or the transport will end it. -/
def Blocked (cfg : EvalConfig) (sh : Shared H V) : Pc H V → Prop
  | .idle => True
  | .barrier _ => 0 < sh.pending
  | .evalWait _ _ => sh.full.count = 0
  | .loop sender => cfg.useAsynRequest = true ∧ (sh.remainCanSend sender).count = 0
  | .fetchWait _ => sh.empty.count = 0
  | .finished => True
  | .crashed => True
  | _ => False

instance (cfg : EvalConfig) (sh : Shared H V) (pc : Pc H V) :
    Decidable (Blocked cfg sh pc) := by
  cases pc <;> simp only [Blocked] <;> infer_instance

/-- A request is unanswered and every thread is blocked; so no batch is in
flight.  An idle client is blocked as well, but nothing is waiting there. -/
def Deadlock (cfg : EvalConfig) (s : Pool (Shared H V) (Pc H V)) : Prop :=
  (∃ c < s.shared.created.length, c ∉ answered s) ∧
    ∀ pc ∈ s.threads, Blocked cfg s.shared pc

/-- What a run is promised at each step: replies for the callbacks, no throw,
and slack among the failures. -/
def Live (cfg : EvalConfig) (s : Pool (Shared H V) (Pc H V)) (l : ℕ × Choice H V) : Prop :=
  EnoughReplies s l ∧ l.2 ≠ .throw ∧ FailureSlack cfg s l

instance [DecidableEq H] [DecidableEq V] (cfg : EvalConfig)
    (s : Pool (Shared H V) (Pc H V)) (l : ℕ × Choice H V) : Decidable (Live cfg s l) :=
  inferInstanceAs (Decidable (_ ∧ _ ∧ _))

section Runs

variable [Inhabited H] {cfg : EvalConfig} {s t : Pool (Shared H V) (Pc H V)}
variable {l : ℕ × Choice H V} {ls : List (ℕ × Choice H V)}

/-- Nothing moves in a deadlock: a step is a poll, or the start of another
search. -/
theorem eq_of_step_of_deadlock (batch : 0 < cfg.batchSize) (hs : Deadlock cfg s)
    (h : (machine cfg).step s l = some t) (enter : l.2 ≠ .enter) : t = s := by
  obtain ⟨pre, pc, post, choice, sh, pc', new, hthreads, -, hchoice, hstep, rfl⟩ :=
    Program.step_cases h
  have blocked := hs.2 pc (by simp [hthreads])
  obtain ⟨sh, threads⟩ := s
  simp only at hthreads
  subst hthreads
  cases fires_of_program hstep with
  | enter => exact absurd hchoice enter
  | poll => simp
  | leave rid done =>
      have pending : 0 < sh.pending := blocked
      have done : sh.pending ≤ 0 := done
      omega
  | takeSlot item resume full slot =>
      have noSlot : sh.full.count = 0 := blocked
      have slot : full.count + 1 = sh.full.count := slot
      omega
  | permit sender sem _ taken =>
      have noPermit : (sh.remainCanSend sender).count = 0 := blocked.2
      have taken : sem.count + 1 = (sh.remainCanSend sender).count := taken
      omega
  | noPermit sender sync => simp [Blocked, sync] at blocked
  | reserve sender empty fetch reserved _ some =>
      have noItem : sh.empty.count = 0 := blocked
      have reserved : empty.count + fetch = sh.empty.count := reserved
      have := some batch
      omega
  | _ => simp [Blocked] at blocked

/-! ## Slack

Which permits are with failure handlers, and which steps put them there. -/

/-- Some sender has a permit that no failure handler holds.  Such a permit is in
its semaphore, with its sender or with a batch, and whoever has it can go on. -/
def Slack (cfg : EvalConfig) (s : Pool (Shared H V) (Pc H V)) : Prop :=
  ∃ sender < cfg.serverSendThread, Pool.total (Pc.failing sender) s < cfg.asynOnceSend

/-- The permit a step moves into a failure handler. -/
def Pc.fails (sender : ℕ) : Pc H V → Choice H V → ℕ
  | inFlight cookie, .fail => if cookie.dummy = false ∧ cookie.sender = sender then 1 else 0
  | _, _ => 0

/-- Only the failure of a real batch starts a failure handler. -/
theorem failing_step (sender : ℕ) (h : (machine cfg).step s l = some t) :
    ∃ pc, s.threads[l.1]? = some pc ∧
      Pool.total (Pc.failing sender) t ≤
        Pool.total (Pc.failing sender) s + pc.fails sender l.2 := by
  refine Pool.total_le_add (Pc.failing sender) (Pc.fails sender) ?_ h
  intro pc choice sh pc' new hstep
  cases fires_of_program hstep with
  | takeSlot _ resume | push _ resume => cases resume <;> simp [Pc.failing]
  | pushed resume => cases resume <;> simp [Pc.failing, Resume.pc]
  | fail cookie => simp [Pc.failing, Pc.fails]
  | failBatch cookie real => simp [Pc.failing, real]
  | _ => simp [Pc.failing]

omit [Inhabited H] in
/-- At the start all permits are in their semaphores. -/
theorem slack_start (send : 0 < cfg.asynOnceSend) (senders : 0 < cfg.serverSendThread) :
    Slack cfg (start cfg : Pool (Shared H V) (Pc H V)) := by
  refine ⟨0, senders, ?_⟩
  rw [total_start _ (fun _ => rfl) rfl]
  exact send

/-- Each step keeps the slack, where its failure leaves some. -/
theorem slack_step (slack : FailureSlack cfg s l) (h : (machine cfg).step s l = some t)
    (hs : Slack cfg s) : Slack cfg t := by
  by_cases real : ∃ cookie, s.threads[l.1]? = some (.inFlight cookie) ∧ l.2 = .fail ∧
      cookie.dummy = false
  · obtain ⟨cookie, hpc, hfail, real⟩ := real
    obtain ⟨sender, hsender, hlt⟩ : ∃ sender < cfg.serverSendThread,
        Pool.total (Pc.failing sender) s + (if cookie.sender = sender then 1 else 0) <
          cfg.asynOnceSend := by
      simpa only [FailureSlack, hpc, hfail, real, true_imp_iff] using slack
    obtain ⟨pc, hpc', hle⟩ := failing_step sender h
    obtain rfl : .inFlight cookie = pc := Option.some.inj (hpc.symm.trans hpc')
    simp only [Pc.fails, hfail, real, true_and] at hle
    exact ⟨sender, hsender, by omega⟩
  · obtain ⟨sender, hsender, hlt⟩ := hs
    obtain ⟨pc, hpc, hle⟩ := failing_step sender h
    have none : pc.fails sender l.2 = 0 := by
      unfold Pc.fails
      split
      · rename_i cookie hfail
        have dummy : ¬cookie.dummy = false := fun dummy => real ⟨cookie, hpc, hfail, dummy⟩
        simp [dummy]
      · rfl
    exact ⟨sender, hsender, by omega⟩

/-! ## No deadlock

What follows from all threads being blocked. -/

/-- The laws behind the absence of deadlock.  Where no permit has leaked and one
is outside of the failure handlers, following that permit leads to a thread that
is not blocked. -/
structure LiveInv (cfg : EvalConfig) (s : Pool (Shared H V) (Pc H V)) : Prop where
  drop : DropInv cfg s
  noLeak : s.shared.leaked = []
  slack : Slack cfg s

/-- Each step keeps the laws, where it keeps its promises. -/
theorem liveInv_step (hs : LiveInv cfg s) (live : Live cfg s l)
    (h : (machine cfg).step s l = some t) : LiveInv cfg t :=
  ⟨dropInv_step hs.drop live.1 h,
    (leaked_eq_nil_step hs.drop h).mpr ⟨hs.noLeak, live.2.1⟩, slack_step live.2.2 h hs.slack⟩

omit [Inhabited H] in
/-- They hold at the start, with a permit for at least one sender. -/
theorem liveInv_start (send : 0 < cfg.asynOnceSend) (senders : 0 < cfg.serverSendThread) :
    LiveInv cfg (start cfg : Pool (Shared H V) (Pc H V)) :=
  ⟨dropInv_start, rfl, slack_start send senders⟩

omit [Inhabited H] in
/-- A blocked sender that has a permit waits for items. -/
theorem fetchWait_of_blocked (hs : LiveInv cfg s)
    (blocked : ∀ pc ∈ s.threads, Blocked cfg s.shared pc) :
    ∃ sender, .fetchWait sender ∈ s.threads := by
  by_contra none
  have none : ∀ sender, .fetchWait sender ∉ s.threads := not_exists.mp none
  obtain ⟨sender, hsender, hlt⟩ := hs.slack
  -- the sender with slack is there, and waits for a permit
  obtain ⟨pc, hpc, hsend⟩ : ∃ pc ∈ s.threads, Pc.isSender sender pc ≠ 0 := by
    by_contra absent
    push Not at absent
    have := (Pool.total_eq_zero_iff (Pc.isSender sender)).mpr absent
    rw [hs.drop.present sender, if_pos hsender] at this
    omega
  have loop : Blocked cfg s.shared (.loop sender : Pc H V) := by
    have := blocked pc hpc
    cases pc with
    | loop sender' =>
        obtain rfl : sender' = sender := by simpa [Pc.isSender] using hsend
        exact this
    | fetchWait sender' => exact absurd hpc (none sender')
    | _ => simp [Blocked, Pc.isSender] at this hsend
  -- so all its permits are with blocked failure handlers
  have law := hs.drop.permits loop.1 sender
  rw [PermitsBalanced, loop.2, hs.noLeak] at law
  have held : Pool.total (Pc.permits sender) s ≤ Pool.total (Pc.failing sender) s := by
    refine Pool.total_le_total fun pc hpc => ?_
    have := blocked pc hpc
    cases pc with
    | evalWait item resume => cases resume <;> simp [Pc.permits, Pc.failing]
    | fetchWait sender' => exact absurd hpc (none sender')
    | _ => simp [Blocked, Pc.permits] at this ⊢
  simp at law
  omega

omit [Inhabited H] in
/-- While all threads are blocked, no item is reserved, pushed or popped, so
every request is answered. -/
theorem not_deadlock_of_inv (queue : 0 < cfg.queueSize) (hs : LiveInv cfg s) :
    ¬ Deadlock cfg s := by
  rintro ⟨⟨c, hc, unanswered⟩, blocked⟩
  obtain ⟨sender, hsender⟩ := fetchWait_of_blocked hs blocked
  have noItem : s.shared.empty.count = 0 := blocked _ hsender
  have items := hs.drop.buffer.items
  have slots := hs.drop.buffer.slots
  have noItems : Pool.total (fun pc => pc.itemsReserved + pc.itemsUnannounced) s = 0 := by
    refine (Pool.total_eq_zero_iff _).mpr fun pc hpc => ?_
    have := blocked pc hpc
    cases pc <;> simp [Blocked, Pc.itemsReserved, Pc.itemsUnannounced] at this ⊢
  have noSlots : Pool.total (fun pc => pc.slotsTaken + pc.slotsPopped) s = 0 := by
    refine (Pool.total_eq_zero_iff _).mpr fun pc hpc => ?_
    have := blocked pc hpc
    cases pc <;> simp [Blocked, Pc.slotsTaken, Pc.slotsPopped] at this ⊢
  rw [ItemsBalanced, noItem, noItems] at items
  rw [SlotsBalanced, noSlots] at slots
  have noQueue : s.shared.sendQueue = [] := List.length_eq_zero_iff.mp (by omega)
  -- the queue is empty, so no push waits, and no thread carries a callback
  have mem : c ∈ (queued s + answered s + s.shared.lost) + Pool.total Pc.carried s := by
    rw [hs.drop.callbacks]
    exact Multiset.mem_range.mpr hc
  simp only [queued, noQueue, hs.drop.lost hs.noLeak, List.map_nil, Multiset.coe_nil, zero_add,
    add_zero, Multiset.mem_add, unanswered, false_or, Pool.mem_total] at mem
  obtain ⟨pc, hpc, hcarried⟩ := mem
  have := blocked pc hpc
  cases pc with
  | evalWait item resume =>
      have : s.shared.full.count = 0 := this
      rw [noQueue, List.length_nil] at slots
      omega
  | _ => simp [Blocked, Pc.carried, Pc.entering, Pc.inBatch, Pc.inFailure] at this hcarried

/-- **No deadlock while failures leave slack.**  For any settings and any number
of search threads, in every run in which at each failure some sender keeps a
permit out of the failure handlers, no state has an unanswered request while all
threads are blocked. -/
theorem no_deadlock_of_slack (cfg : EvalConfig) (queue : 0 < cfg.queueSize)
    (send : 0 < cfg.asynOnceSend) (senders : 0 < cfg.serverSendThread)
    (ls : List (ℕ × Choice H V)) (s : Pool (Shared H V) (Pc H V))
    (live : (machine cfg).Guarded (Live cfg) (start cfg) ls)
    (run : (machine cfg).exec (start cfg) ls = some s) : ¬ Deadlock cfg s :=
  not_deadlock_of_inv queue
    ((machine cfg).invariant liveInv_step (liveInv_start send senders) live run)

end Runs

/-! ## The cycle

The smallest settings, one failed batch. -/

/-- One request in flight and another in the queue's only slot when the batch
fails.  The handler has to push its request back, and there is no room. -/
def failureRun : List (ℕ × Choice ℕ ℕ) :=
  [(1, .enter), (1, .evaluate 7), (1, .go), (1, .go), (1, .go),
    (0, .go), (0, .go), (0, .go), (0, .go), (0, .go), (0, .accept),
    (1, .evaluate 8), (1, .go), (1, .go), (1, .go), (1, .finish),
    (2, .fail), (2, .go), (2, .go), (2, .go)]

/-- The handler waits for a slot, the sender for the handler's permit, and the
search thread for both; so nothing moves any more. -/
theorem deadlock_after_failure :
    ∃ s, (machine smallConfig).exec (start smallConfig) failureRun = some s ∧
      (machine smallConfig).Guarded EnoughReplies (start smallConfig) failureRun ∧
      Deadlock smallConfig s ∧
      ∀ l t, (machine smallConfig).step s l = some t → l.2 ≠ .enter → t = s := by
  have seen : ((machine smallConfig).exec (start smallConfig) failureRun).map
      (fun s => (s.shared.created.length, s.shared.invoked,
        decide (∀ pc ∈ s.threads, Blocked smallConfig s.shared pc))) =
        some (2, [], true) := by decide
  obtain ⟨s, run, hs⟩ := Option.map_eq_some_iff.mp seen
  simp only [Prod.mk.injEq, decide_eq_true_eq] at hs
  obtain ⟨created, invoked, blocked⟩ := hs
  have deadlock : Deadlock smallConfig s := ⟨⟨0, by omega, by simp [answered, invoked]⟩, blocked⟩
  exact ⟨s, run, by decide, deadlock, fun _ _ => eq_of_step_of_deadlock (by decide) deadlock⟩

/-- A run without a failure is not deadlocked. -/
theorem no_deadlock_of_slack_answered :
    ∃ s, (machine (H := ℕ) (V := ℕ) smallConfig).exec (start smallConfig) answeredRun =
        some s ∧
      ¬ Deadlock smallConfig s := by
  obtain ⟨s, run⟩ := Option.isSome_iff_exists.mp (by decide :
    ((machine (H := ℕ) (V := ℕ) smallConfig).exec (start smallConfig) answeredRun).isSome)
  exact ⟨s, run, no_deadlock_of_slack smallConfig (by decide) (by decide) (by decide) _ s
    (by decide) run⟩

end EstarGo.Client
