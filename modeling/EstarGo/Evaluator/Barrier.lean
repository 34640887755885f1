import EstarGo.Evaluator.Conservation

/-!
# The barrier at the end of a rollout

`on_server_rollout_loop_over` waits until `get_pending()` is 0 and then lets
`rollout()` return, although callbacks that are still to run refer to its
locals.  `pending_balance` says what the counter counts: everything queued, in a
batch or lost, but not the callbacks of a batch whose `failure_cb` has run its
`pending--` loop and not yet put them back.  So the barrier does its work in the
runs where it is never polled in that window (`BarrierClear`), and there each
callback of a `rollout()` ran before it returned.

## Main definitions

* `Pc.counted` — the callbacks of a thread that `pending_` counts.
* `Pc.active`, `Pc.polled` — the rollout a thread is in, and the one past its
  poll.
* `BarrierHolds` — the callbacks of a rollout past its poll have run.

## Main results

* `pending_balance`, `rollouts_balance`: what the counter and the rollouts add
  up to.
* `barrier_holds_of_clear`: the barrier, outside the window.
* `barrier_missed`: a run in which a callback runs after its rollout has
  returned.

## Design notes

**Past the poll.**  A rollout returns two steps after its poll, so what is kept
of returned rollouts is kept of those past their poll as well.  Once there, a
rollout creates no callbacks, and what has run has run.
-/

namespace EstarGo.Client

open Verif

variable {H V : Type}

namespace Pc

/-- The callbacks of this thread that `pending_` counts.  A batch settles one
callback after the other, each after it was invoked, so for a moment one of them
is counted although it has run. -/
def counted : Pc H V → ℕ
  | fetchNotify _ _ _ callbacks => callbacks.length
  | send _ _ callbacks => callbacks.length
  | sendSync _ _ callbacks => callbacks.length
  | invokeSync _ _ callbacks => callbacks.length
  | settleSync _ _ callbacks => callbacks.length + 1
  | inFlight cookie => cookie.callbackList.length
  | invoke _ _ callbacks => callbacks.length
  | settle _ _ callbacks => callbacks.length + 1
  | unsettle _ remaining => remaining
  | _ => 0

/-- The `rollout()` this search thread is in. -/
def active : Pc H V → Multiset ℕ
  | rollout rid => {rid}
  | barrier rid => {rid}
  | getRecordCount rid => {rid}
  | clear rid _ => {rid}
  | evalWait _ (.rollout rid) => {rid}
  | evalPush _ (.rollout rid) => {rid}
  | evalNotify (.rollout rid) => {rid}
  | _ => 0

/-- The `rollout()` this search thread is in, where its poll has found the
counter down. -/
def polled : Pc H V → Multiset ℕ
  | getRecordCount rid => {rid}
  | clear rid _ => {rid}
  | _ => 0

/-- Such a rollout is one that the thread is in. -/
theorem polled_le_active (pc : Pc H V) : pc.polled ≤ pc.active := by
  cases pc with
  | getRecordCount | clear => exact le_rfl
  | _ => exact Multiset.zero_le _

/-- A carried callback is on its way into the queue, counted or unsettled. -/
theorem card_le_counted (pc : Pc H V) :
    (pc.inBatch + pc.inFailure).card ≤ pc.counted + pc.unsettled := by
  cases pc with
  | evalWait item resume | evalPush item resume | evalNotify resume =>
      cases resume <;> simp [inBatch, inFailure, counted, unsettled]
  | unsettle cookie remaining => simp [inBatch, inFailure, counted, unsettled]; omega
  | _ => simp [inBatch, inFailure, counted, unsettled]

end Pc

section Balances

variable [Inhabited H] {cfg : EvalConfig} {s t : Pool (Shared H V) (Pc H V)}
variable {l : ℕ × Choice H V} {ls : List (ℕ × Choice H V)}

/-- What `pending_` counts: the queue, what the threads carry, and what the
`catch` blocks have dropped, which stays counted for ever. -/
def PendingBalanced (s : Pool (Shared H V) (Pc H V)) : Prop :=
  ((s.shared.sendQueue.length : ℤ) + s.shared.lost.length) +
    Pool.total (fun pc => (pc.counted : ℤ)) s = s.shared.pending

/-- Every call of `rollout()` is active on one thread or has returned.  Calls
have numbers, so the two together are the numbers given out so far. -/
def RolloutsBalanced (s : Pool (Shared H V) (Pc H V)) : Prop :=
  (s.shared.returned.map Prod.fst : Multiset ℕ) + Pool.total Pc.active s =
    Multiset.range s.shared.rollouts

omit [Inhabited H] in
/-- Nothing is pending at the start. -/
theorem pendingBalanced_start : PendingBalanced (start cfg : Pool (Shared H V) (Pc H V)) := by
  rw [PendingBalanced, total_start _ (fun _ => rfl) rfl]
  rfl

omit [Inhabited H] in
theorem rolloutsBalanced_start :
    RolloutsBalanced (start cfg : Pool (Shared H V) (Pc H V)) := by
  rw [RolloutsBalanced, total_start _ (fun _ => rfl) rfl]
  rfl

/-- **Pending.**  Four places change the counter, each along with what it
counts: the push of a request, the two loops that settle callbacks, and the loop
of `failure_cb`. -/
theorem pending_balance (h : (machine cfg).step s l = some t) (hs : PendingBalanced s) :
    PendingBalanced t := by
  refine Pool.total_balance
    (fun sh : Shared H V => (sh.sendQueue.length : ℤ) + sh.lost.length)
    (fun sh => sh.pending) (fun pc : Pc H V => (pc.counted : ℤ)) ?_ h hs
  intro pc choice sh pc' new ctx _ _ hstep balanced
  cases fires_of_program hstep with
  | pushed resume => cases resume <;> simpa [Resume.pc, Pc.counted] using balanced
  | pop sender fetch requests callbacks queue popped =>
      obtain ⟨hle, -, rfl, rfl⟩ := popItems_eq_some popped
      simp [Pc.counted] at balanced ⊢
      omega
  | record => simpa [Shared.record_eq, Pc.counted] using balanced
  | _ => simp [Pc.counted] at balanced ⊢; omega

/-- **Rollouts.**  A search thread is in the rollout it entered until it
leaves. -/
theorem rollouts_balance (h : (machine cfg).step s l = some t) (hs : RolloutsBalanced s) :
    RolloutsBalanced t := by
  refine Pool.total_balance
    (fun sh : Shared H V => (sh.returned.map Prod.fst : Multiset ℕ))
    (fun sh => Multiset.range sh.rollouts) Pc.active ?_ h hs
  intro pc choice sh pc' new ctx _ _ hstep balanced
  cases fires_of_program hstep with
  | enter => simpa [Pc.active, Multiset.range_succ] using balanced
  | takeSlot _ resume | push _ resume => cases resume <;> simpa [Pc.active] using balanced
  | pushed resume => cases resume <;> simpa [Resume.pc, Pc.active] using balanced
  | clear rid =>
      rw [← balanced]
      simp only [Pc.active, List.map_append, List.map_cons, List.map_nil,
        ← Multiset.coe_add, Multiset.coe_singleton, List.sum_nil]
      abel
  | record => simpa [Shared.record_eq, Pc.active] using balanced
  | _ => simpa [Pc.active] using balanced

end Balances

/-! ## The barrier

A rollout past its poll, and the callbacks it has created. -/

/-- Creating a callback leaves the others where they are. -/
theorem eq_or_getElem?_of_append {created : List (Created H)} {entry entry' : Created H}
    {c : ℕ} (h : (created ++ [entry])[c]? = some entry') :
    (c = created.length ∧ entry = entry') ∨ created[c]? = some entry' := by
  rw [List.getElem?_append] at h
  split at h
  · exact .inr h
  · rw [List.getElem?_singleton] at h
    split at h
    · exact .inl ⟨by omega, Option.some.inj h⟩
    · cases h

/-- The calls of `rollout()` whose poll has found the counter down: those that
have returned, and those about to. -/
def past (s : Pool (Shared H V) (Pc H V)) : Multiset ℕ :=
  (s.shared.returned.map Prod.fst : Multiset ℕ) + Pool.total Pc.polled s

/-- Every callback of a `rollout()` whose poll has found the counter down was
invoked, and no thread and no queue holds it any more, so none runs after the
`rollout()` has returned. -/
def BarrierHolds (s : Pool (Shared H V) (Pc H V)) : Prop :=
  ∀ rid ∈ past s, ∀ c history,
    s.shared.created[c]? = some ⟨history, rid⟩ →
      c ∈ answered s ∧ c ∉ queued s ∧ c ∉ Pool.total Pc.carried s

section Runs

variable [Inhabited H] {cfg : EvalConfig} {s t : Pool (Shared H V) (Pc H V)}
variable {l : ℕ × Choice H V} {ls : List (ℕ × Choice H V)}

/-- The laws behind the barrier.  The last of them is the barrier itself for
callbacks that have been answered; the others say where a callback can be that
has not. -/
structure BarrierInv (cfg : EvalConfig) (s : Pool (Shared H V) (Pc H V)) : Prop where
  pairing : PairingInv cfg s
  callbacks : CallbacksBalanced s
  pending : PendingBalanced s
  rollouts : RolloutsBalanced s
  ran : ∀ rid ∈ past s, ∀ c history,
    s.shared.created[c]? = some ⟨history, rid⟩ → c ∈ answered s

omit [Inhabited H] in
/-- The laws hold at the start. -/
theorem barrierInv_start : BarrierInv cfg (start cfg : Pool (Shared H V) (Pc H V)) :=
  ⟨pairingInv_start, callbacksBalanced_start, pendingBalanced_start,
    rolloutsBalanced_start, by simp [start, Shared.start]⟩

omit [Inhabited H] in
/-- The rollouts that returned and those still active are all different. -/
theorem rollouts_nodup (hs : RolloutsBalanced s) :
    ((s.shared.returned.map Prod.fst : Multiset ℕ) + Pool.total Pc.active s).Nodup := by
  rw [hs]
  exact Multiset.nodup_range _

omit [Inhabited H] in
/-- While nothing is unsettled, a counter of 0 leaves callbacks in two places
only: answered, or still with the `Eval` call of their rollout.  The second is
no place for a rollout that is polling. -/
theorem answered_or_entering (hs : BarrierInv cfg s) (done : s.shared.pending ≤ 0)
    (clear : ∀ pc ∈ s.threads, pc.unsettled = 0) {c : ℕ}
    (hc : c < s.shared.created.length) :
    c ∈ answered s ∨ ∃ pc ∈ s.threads, c ∈ pc.entering := by
  have law := hs.pending
  rw [PendingBalanced, Pool.total_natCast] at law
  have counted := (Pool.total_eq_zero_iff Pc.counted).mp (by omega : Pool.total Pc.counted s = 0)
  have noQueue : s.shared.sendQueue = [] := List.length_eq_zero_iff.mp (by omega)
  have noLost : s.shared.lost = [] := List.length_eq_zero_iff.mp (by omega)
  have mem : c ∈ (queued s + answered s + s.shared.lost) + Pool.total Pc.carried s := by
    rw [hs.callbacks]
    exact Multiset.mem_range.mpr hc
  simp only [queued, noQueue, noLost, List.map_nil, Multiset.coe_nil, zero_add, add_zero,
    Multiset.mem_add, Pool.mem_total] at mem
  refine mem.imp_right fun ⟨pc, hpc, hcarried⟩ => ⟨pc, hpc, ?_⟩
  have card := pc.card_le_counted
  rw [counted pc hpc, clear pc hpc] at card
  rwa [Pc.carried, Multiset.card_eq_zero.mp (Nat.le_zero.mp card), add_zero] at hcarried

omit [Inhabited H] in
/-- Invoking a callback leaves the answered ones answered. -/
theorem mem_answered_append {more : List (ℕ × Reply H V)} {c : ℕ}
    (h : t.shared.invoked = s.shared.invoked ++ more) (hc : c ∈ answered s) :
    c ∈ answered t := by
  rw [answered, Multiset.mem_coe] at hc ⊢
  rw [h, List.map_append]
  exact List.mem_append_left _ hc

omit [Inhabited H] in
/-- A callback still entering belongs to a rollout that is still active
there. -/
theorem mem_active_of_entering {pc : Pc H V} (wf : pc.Wf cfg s.shared.created) {c rid : ℕ}
    {history : H} (hc : c ∈ pc.entering)
    (created : s.shared.created[c]? = some ⟨history, rid⟩) : rid ∈ pc.active := by
  cases pc with
  | evalWait item resume | evalPush item resume =>
      cases resume with
      | rollout rid' =>
          obtain rfl : c = item.callback := by simpa [Pc.entering] using hc
          have pushes : s.shared.created[item.callback]? = some ⟨item.history, rid'⟩ := wf.2
          simp_all [Pc.active]
      | failureCb => simp [Pc.entering] at hc
  | _ => simp [Pc.entering] at hc

omit [Inhabited H] in
/-- A rollout that is still active, and not past its poll, is not among those
past theirs. -/
theorem not_past_of_active (hs : RolloutsBalanced s) {pc : Pc H V} (hpc : pc ∈ s.threads)
    {rid : ℕ} (active : rid ∈ pc.active) (before : rid ∉ pc.polled) : rid ∉ past s := by
  obtain ⟨-, nodup, disjoint⟩ := Multiset.nodup_add.mp (rollouts_nodup hs)
  intro mem
  rcases Multiset.mem_add.mp mem with returned | polled
  · exact Multiset.disjoint_left.mp disjoint returned (Pool.mem_total.mpr ⟨pc, hpc, active⟩)
  · obtain ⟨qc, hqc, polled⟩ := Pool.mem_total.mp polled
    have same : qc = pc := Pool.eq_of_mem_of_nodup nodup hqc hpc
      (Multiset.mem_of_le qc.polled_le_active polled) active
    exact before (same ▸ polled)

/-- A `rollout()` gets past its poll by a poll that finds the counter down. -/
theorem past_step (h : (machine cfg).step s l = some t) :
    past t = past s ∨ ∃ rid, s.threads[l.1]? = some (.barrier rid) ∧ l.2 = .go ∧
      s.shared.pending ≤ 0 ∧ t.shared = s.shared ∧ past t = past s + {rid} := by
  obtain ⟨pre, pc, post, choice, sh, pc', new, hthreads, hpc, hchoice, hstep, rfl⟩ :=
    Program.step_cases h
  cases fires_of_program hstep with
  | takeSlot _ resume | push _ resume | pushed resume =>
      cases resume <;> simp [past, Pool.total, hthreads, Pc.polled, Resume.pc]
  | leave rid done =>
      refine .inr ⟨rid, hpc, hchoice, done, rfl, ?_⟩
      simp only [past, Pool.total, hthreads, Pc.polled, List.map_append, List.map_cons,
        List.map_nil, List.sum_append, List.sum_cons, List.sum_nil]
      abel
  | clear rid =>
      refine .inl ?_
      simp only [past, Pool.total, hthreads, Pc.polled, List.map_append, List.map_cons,
        List.map_nil, List.sum_append, List.sum_cons, List.sum_nil, ← Multiset.coe_add,
        Multiset.coe_singleton]
      abel
  | record => simp [past, Pool.total, hthreads, Pc.polled, Shared.record_eq]
  | _ => simp [past, Pool.total, hthreads, Pc.polled]

/-- Of a `rollout()` past its poll no callback is created any more. -/
theorem created_step (hs : RolloutsBalanced s) (h : (machine cfg).step s l = some t) {rid : ℕ}
    (hrid : rid ∈ past s) {c : ℕ} {history : H}
    (hc : t.shared.created[c]? = some ⟨history, rid⟩) :
    s.shared.created[c]? = some ⟨history, rid⟩ := by
  obtain ⟨pre, pc, post, choice, sh, pc', new, hthreads, -, -, hstep, rfl⟩ :=
    Program.step_cases h
  cases fires_of_program hstep with
  | evaluate rid' history' =>
      rcases eq_or_getElem?_of_append hc with ⟨rfl, hnew⟩ | hold
      · obtain rfl : rid' = rid := congrArg Created.rollout hnew
        have hpc : .rollout rid' ∈ s.threads := by simp [hthreads]
        exact absurd hrid (not_past_of_active hs hpc (by simp [Pc.active]) (by simp [Pc.polled]))
      · exact hold
  | record => simpa [Shared.record_eq] using hc
  | _ => exact hc

/-- A callback that was invoked stays invoked. -/
theorem answered_step (h : (machine cfg).step s l = some t) {c : ℕ} (hc : c ∈ answered s) :
    c ∈ answered t := by
  obtain ⟨pre, pc, post, choice, sh, pc', new, -, -, -, hstep, rfl⟩ := Program.step_cases h
  cases fires_of_program hstep with
  | invokeSync | invoke => exact mem_answered_append rfl hc
  | record => simpa [Shared.record_eq, answered] using hc
  | _ => exact hc

/-- Each step keeps them, outside the window. -/
theorem barrierInv_step (hs : BarrierInv cfg s) (clear : BarrierClear s l)
    (h : (machine cfg).step s l = some t) : BarrierInv cfg t := by
  refine ⟨pairingInv_step hs.pairing h, callbacks_balance h hs.pairing hs.callbacks,
    pending_balance h hs.pending, rollouts_balance h hs.rollouts, ?_⟩
  intro rid hrid c history hc
  rcases past_step h with same | ⟨rid', hpc, hgo, done, shared, more⟩
  · rw [same] at hrid
    exact answered_step h (hs.ran rid hrid c history (created_step hs.rollouts h hrid hc))
  · rw [more, Multiset.mem_add, Multiset.mem_singleton] at hrid
    rw [shared] at hc
    rw [answered, shared, ← answered]
    rcases hrid with hrid | rfl
    · exact hs.ran rid hrid c history hc
    · have clear : ∀ pc ∈ s.threads, pc.unsettled = 0 := by
        simp only [BarrierClear, hpc, hgo] at clear
        exact clear done
      rcases answered_or_entering hs done clear (List.getElem?_eq_some_iff.mp hc).1 with
        hanswered | ⟨qc, hqc, hentering⟩
      · exact hanswered
      · -- the one thread in this rollout is at the barrier, so it pushes nothing
        have active := mem_active_of_entering (hs.pairing.threads qc hqc) hentering hc
        have nodup := (Multiset.nodup_add.mp (rollouts_nodup hs.rollouts)).2.1
        have same : qc = .barrier rid :=
          Pool.eq_of_mem_of_nodup nodup hqc (List.mem_of_getElem? hpc) active
            (by simp [Pc.active])
        simp [same, Pc.entering] at hentering

omit [Inhabited H] in
/-- What has run is nowhere else, since each callback is in one place. -/
theorem barrierHolds_of_inv (hs : BarrierInv cfg s) : BarrierHolds s := by
  intro rid hrid c history hc
  have ran := hs.ran rid hrid c history hc
  -- the callback is answered, and it is in one place only
  have once : (queued s + answered s + s.shared.lost + Pool.total Pc.carried s).count c ≤ 1 := by
    rw [hs.callbacks]
    exact Multiset.nodup_iff_count_le_one.mp (Multiset.nodup_range _) c
  have here := Multiset.one_le_count_iff_mem.mpr ran
  simp only [Multiset.count_add] at once
  exact ⟨ran, Multiset.count_eq_zero.mp (by omega), Multiset.count_eq_zero.mp (by omega)⟩

/-- **The barrier, outside the window.**  In every run in which no poll finds
the counter down while a `failure_cb` has yet to put callbacks back, each
callback of a `rollout()` ran before that `rollout()` returned, and none is left
to run after it. -/
theorem barrier_holds_of_clear (cfg : EvalConfig) (ls : List (ℕ × Choice H V))
    (s : Pool (Shared H V) (Pc H V))
    (clear : (machine cfg).Guarded BarrierClear (start cfg) ls)
    (run : (machine cfg).exec (start cfg) ls = some s) : BarrierHolds s :=
  barrierHolds_of_inv ((machine cfg).invariant barrierInv_step barrierInv_start clear run)

end Runs

/-! ## The window

Between the `pending--` loop of a `failure_cb` and its last `EvalByHistory`, the
counter is down though callbacks are to come. -/

/-- The only batch fails, and its search thread polls between the `pending--`
loop and the sending again.  At this moment the counter is zero while the
request waits to be pushed once more. -/
def failedBatchRun : List (ℕ × Choice ℕ ℕ) :=
  [(1, .enter), (1, .evaluate 7), (1, .go), (1, .go), (1, .go), (1, .finish),
    (0, .go), (0, .go), (0, .go), (0, .go), (0, .go), (0, .accept),
    (2, .fail), (2, .go), (1, .go), (1, .go), (1, .go)]

/-- The `rollout()` returned with its callback still to run: `failure_cb` holds
it, and will push it after the search is over. -/
theorem barrier_missed :
    ∃ s, (machine smallConfig).exec (start smallConfig) failedBatchRun = some s ∧
      ¬ BarrierHolds s := by
  have seen : ((machine smallConfig).exec (start smallConfig) failedBatchRun).map
      (fun s => (s.shared.returned, s.shared.created, s.shared.invoked)) =
        some ([(0, 0)], [⟨7, 0⟩], []) := by decide
  obtain ⟨s, run, hs⟩ := Option.map_eq_some_iff.mp seen
  simp only [Prod.mk.injEq] at hs
  obtain ⟨returned, created, invoked⟩ := hs
  refine ⟨s, run, fun h => ?_⟩
  have ran := (h 0 (by simp [past, returned]) 0 7 (by simp [created])).1
  simp [answered, invoked] at ran

/-- The same batch, answered: the search thread leaves after its callback
ran. -/
theorem barrier_holds_of_clear_answered :
    ∃ s, (machine (H := ℕ) (V := ℕ) smallConfig).exec (start smallConfig) answeredRun =
        some s ∧
      BarrierHolds s := by
  obtain ⟨s, run⟩ := Option.isSome_iff_exists.mp (by decide :
    ((machine (H := ℕ) (V := ℕ) smallConfig).exec (start smallConfig) answeredRun).isSome)
  exact ⟨s, run, barrier_holds_of_clear smallConfig _ s (by decide) run⟩

end EstarGo.Client
