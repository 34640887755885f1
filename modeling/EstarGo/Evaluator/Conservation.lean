import EstarGo.Evaluator.Pairing
import Mathlib.Data.Multiset.Range
import Mathlib.Tactic.Abel

/-!
# No lost or duplicated evaluation

A created callback is, at any time, in exactly one of these places: with its
`Eval` call on the way into the queue, in the queue, in an unanswered batch,
with a failed batch that is about to send it again, or answered.
`callbacks_balance` is the conservation law; it has a last summand for the
callbacks that the `catch` block of `AsynRequest` drops.  `permits_balance` is
the law for each sender's `remain_can_send`, with a last summand for the permits
that block keeps.

## Main definitions

* `Pc.entering`, `Pc.inBatch`, `Pc.inFailure` — where a thread carries
  callbacks.
* `Pc.permits` — the permits that a thread will give back.
* `Conserved` — no request is lost or duplicated, and no permit is lost.

## Main results

* `callbacks_balance`, `permits_balance`: the two laws.
* `conserved_iff_no_throw`: the property holds in a state exactly when no
  `begin_evaluate` threw on the way to it.
* `not_conserved_after_throw`: a run in which it does not hold.

## Design notes

**Places are multisets.**  A callback could be in one place twice.  With
multisets the law is one equation between sums, and that each callback is in one
place, once, is read off the right-hand side: the callbacks created so far, each
once.

**Dropped callbacks leave a permit.**  The block that drops a batch also keeps
its permit, so no leak of permits means no loss of callbacks, and the two halves
of the property stand and fall together.
-/

namespace EstarGo.Client

open Verif

variable {H V : Type}

/-! ## Where callbacks are

Control point by control point. -/

namespace Pc

/-- A callback its `rollout()` is passing to `Eval`, which has not pushed it
yet.  A callback that is pushed again by a failed batch is not counted here. -/
def entering : Pc H V → Multiset ℕ
  | evalWait item (.rollout _) => {item.callback}
  | evalPush item (.rollout _) => {item.callback}
  | _ => 0

/-- The unanswered callbacks of a batch a sender assembles, of a batch in
flight, or of a batch whose replies are being handed out.  A callback leaves the
last of these when it is invoked. -/
def inBatch : Pc H V → Multiset ℕ
  | fetchNotify _ _ _ callbacks => callbacks
  | send _ _ callbacks => callbacks
  | sendSync _ _ callbacks => callbacks
  | invokeSync _ _ callbacks => callbacks
  | settleSync _ _ callbacks => callbacks
  | inFlight cookie => cookie.callbackList
  | invoke _ _ callbacks => callbacks
  | settle _ _ callbacks => callbacks
  | _ => 0

/-- The callbacks a `failure_cb` has yet to put back into the queue, the one in
`Eval` among them. -/
def inFailure : Pc H V → Multiset ℕ
  | unsettle cookie _ => cookie.callbackList
  | resend _ _ callbacks => callbacks
  | evalWait item (.failureCb _ _ callbacks) => item.callback ::ₘ callbacks
  | evalPush item (.failureCb _ _ callbacks) => item.callback ::ₘ callbacks
  | evalNotify (.failureCb _ _ callbacks) => callbacks
  | _ => 0

/-- All the callbacks a thread carries. -/
def carried (pc : Pc H V) : Multiset ℕ := pc.entering + (pc.inBatch + pc.inFailure)

/-- A send permit of `sender` that this thread will give back.  In asynchronous
mode it travels with the batch, from the head of the sender's loop to the last
statement of a callback. -/
def permits (sender : ℕ) : Pc H V → ℕ
  | look sender' => if sender' = sender then 1 else 0
  | sendDummy sender' => if sender' = sender then 1 else 0
  | fetchWait sender' => if sender' = sender then 1 else 0
  | fetchPop sender' _ => if sender' = sender then 1 else 0
  | fetchNotify sender' _ _ _ => if sender' = sender then 1 else 0
  | send sender' _ _ => if sender' = sender then 1 else 0
  | inFlight cookie => if cookie.sender = sender then 1 else 0
  | invoke cookie _ _ => if cookie.sender = sender then 1 else 0
  | settle cookie _ _ => if cookie.sender = sender then 1 else 0
  | record cookie => if cookie.sender = sender then 1 else 0
  | unsettle cookie _ => if cookie.sender = sender then 1 else 0
  | resend cookie _ _ => if cookie.sender = sender then 1 else 0
  | evalWait _ (.failureCb cookie _ _) => if cookie.sender = sender then 1 else 0
  | evalPush _ (.failureCb cookie _ _) => if cookie.sender = sender then 1 else 0
  | evalNotify (.failureCb cookie _ _) => if cookie.sender = sender then 1 else 0
  | release sender' => if sender' = sender then 1 else 0
  | _ => 0

end Pc

/-- The callbacks in the queue. -/
def queued (s : Pool (Shared H V) (Pc H V)) : Multiset ℕ :=
  s.shared.sendQueue.map (·.callback)

/-- The callbacks that were invoked. -/
def answered (s : Pool (Shared H V) (Pc H V)) : Multiset ℕ :=
  s.shared.invoked.map (·.1)

/-! ## The balances

Each step takes from one summand what it gives to another. -/

section Balances

variable [Inhabited H] {cfg : EvalConfig} {s t : Pool (Shared H V) (Pc H V)}
variable {l : ℕ × Choice H V} {ls : List (ℕ × Choice H V)}

/-- Every created callback is in exactly one place: in the queue, answered,
dropped by a `catch`, or with one thread.  As multisets the places make up the
numbers given out, so none is missing and none is double. -/
def CallbacksBalanced (s : Pool (Shared H V) (Pc H V)) : Prop :=
  (queued s + answered s + s.shared.lost) + Pool.total Pc.carried s =
    Multiset.range s.shared.created.length

/-- Every permit of a sender is in its semaphore, with a thread or leaked. -/
def PermitsBalanced (cfg : EvalConfig) (sender : ℕ) (s : Pool (Shared H V) (Pc H V)) : Prop :=
  ((s.shared.remainCanSend sender).count + s.shared.leaked.count sender) +
    Pool.total (Pc.permits sender) s = cfg.asynOnceSend

/-- **Callbacks.**  A step moves callbacks from one place to another.  Only
`server_evaluate` adds one, which starts with its own thread. -/
theorem callbacks_balance (h : (machine cfg).step s l = some t) (wf : PairingInv cfg s)
    (hs : CallbacksBalanced s) : CallbacksBalanced t := by
  refine Pool.total_balance (fun sh : Shared H V =>
      ((sh.sendQueue.map (·.callback) : List ℕ) : Multiset ℕ) +
        ((sh.invoked.map (·.1) : List ℕ) : Multiset ℕ) + sh.lost)
    (fun sh => Multiset.range sh.created.length) Pc.carried ?_ h hs
  intro pc choice sh pc' new ctx hpc _ hstep balanced
  have good := wf.threads pc (List.mem_of_getElem? hpc)
  cases fires_of_program hstep with
  | takeSlot item resume =>
      cases resume <;> simpa [Pc.carried, Pc.entering, Pc.inBatch, Pc.inFailure] using balanced
  | push item resume =>
      rw [← balanced]
      cases resume <;>
        simp only [Pc.carried, Pc.entering, Pc.inBatch, Pc.inFailure, List.map_append,
          List.map_cons, List.map_nil, ← Multiset.coe_add, Multiset.coe_singleton,
          ← Multiset.singleton_add, List.sum_nil] <;> abel
  | pushed resume =>
      cases resume <;>
        simpa [Resume.pc, Pc.carried, Pc.entering, Pc.inBatch, Pc.inFailure] using balanced
  | pop sender fetch requests callbacks queue popped =>
      obtain ⟨-, rfl, rfl, rfl⟩ := popItems_eq_some popped
      rw [← balanced]
      conv_rhs => rw [← List.take_append_drop fetch s.shared.sendQueue]
      simp only [Pc.carried, Pc.entering, Pc.inBatch, Pc.inFailure, List.map_append,
          List.map_nil, ← Multiset.coe_add, List.sum_nil]
      abel
  | throw | endSync | shortReply =>
      rw [← balanced]
      simp only [Pc.carried, Pc.entering, Pc.inBatch, Pc.inFailure, List.map_nil,
        ← Multiset.coe_add, List.sum_nil]
      abel
  | invokeSync | invoke =>
      rw [← balanced]
      simp only [Pc.carried, Pc.entering, Pc.inBatch, Pc.inFailure, List.map_append,
        List.map_cons, List.map_nil, ← Multiset.coe_add, ← Multiset.cons_coe,
        ← Multiset.singleton_add, Multiset.coe_nil, List.sum_nil]
      abel
  | record =>
      simpa [Shared.record_eq, Pc.carried, Pc.entering, Pc.inBatch, Pc.inFailure]
        using balanced
  | failDummy cookie dummy =>
      have noCallbacks : cookie.callbackList = [] := by
        simpa [Pc.Wf, Cookie.Wf, dummy] using good
      simpa [Pc.carried, Pc.entering, Pc.inBatch, Pc.inFailure, noCallbacks] using balanced
  | endResend cookie callbacks =>
      obtain rfl : callbacks = [] := List.forall₂_nil_left_iff.mp good.2
      simpa [Pc.carried, Pc.entering, Pc.inBatch, Pc.inFailure] using balanced
  | _ => simpa [Pc.carried, Pc.entering, Pc.inBatch, Pc.inFailure] using balanced

omit [Inhabited H] in
theorem callbacksBalanced_start :
    CallbacksBalanced (start cfg : Pool (Shared H V) (Pc H V)) := by
  rw [CallbacksBalanced, total_start _ (fun _ => rfl) rfl]
  rfl

/-- **Permits.**  In asynchronous mode a permit taken at the head of the loop
goes with the batch, and comes back at the end of its callback. -/
theorem permits_balance (asyn : cfg.useAsynRequest = true) (sender : ℕ)
    (h : (machine cfg).step s l = some t) (wf : PairingInv cfg s) (buffer : BufferInv cfg s)
    (hs : PermitsBalanced cfg sender s) : PermitsBalanced cfg sender t := by
  refine Pool.total_balance (fun sh : Shared H V =>
      (sh.remainCanSend sender).count + sh.leaked.count sender)
    (fun _ => cfg.asynOnceSend) (Pc.permits sender) ?_ h hs
  intro pc choice sh pc' new ctx hpc _ hstep balanced
  have good := wf.threads pc (List.mem_of_getElem? hpc)
  cases fires_of_program hstep with
  | takeSlot _ resume | push _ resume => cases resume <;> simpa [Pc.permits] using balanced
  | pushed resume => cases resume <;> simpa [Pc.permits, Resume.pc] using balanced
  | permit sender' sem _ taken | release sender' =>
      by_cases same : sender' = sender
      · subst same
        simp [Pc.permits] at balanced ⊢
        omega
      · simpa [Pc.permits, same, Function.update_of_ne (Ne.symm same)] using balanced
  | noPermit _ sync | freeSlotsSync _ _ _ _ sync => simp [asyn] at sync
  | throwDummy | throw | shortReply =>
      simp only [Pc.permits, List.count_append, List.count_singleton, List.map_nil,
        List.sum_nil, beq_iff_eq] at balanced ⊢
      omega
  | popEmpty sender' fetch none =>
      have := popItems_eq_none none
      have := reserved_le_length buffer.items (List.mem_of_getElem? hpc)
      omega
  | replySync | endSync | shortSync => simp [Pc.Wf, asyn] at good
  | record cookie => simpa [Pc.permits, Shared.record_eq] using balanced
  | shortResend cookie history requests => exact absurd good.2 (by simp [Paired])
  | _ => simpa [Pc.permits] using balanced

omit [Inhabited H] in
/-- All permits are in their semaphores. -/
theorem permitsBalanced_start (sender : ℕ) :
    PermitsBalanced cfg sender (start cfg : Pool (Shared H V) (Pc H V)) := by
  rw [PermitsBalanced, total_start _ (fun _ => rfl) rfl]
  rfl

end Balances

/-! ## What a throw costs

The dropped callbacks, the kept permits, and whose they are. -/

namespace Pc

/-- The sender thread `sender` itself. -/
def isSender (sender : ℕ) : Pc H V → ℕ
  | loop sender' => if sender' = sender then 1 else 0
  | look sender' => if sender' = sender then 1 else 0
  | sendDummy sender' => if sender' = sender then 1 else 0
  | fetchWait sender' => if sender' = sender then 1 else 0
  | fetchPop sender' _ => if sender' = sender then 1 else 0
  | fetchNotify sender' _ _ _ => if sender' = sender then 1 else 0
  | send sender' _ _ => if sender' = sender then 1 else 0
  | sendSync sender' _ _ => if sender' = sender then 1 else 0
  | invokeSync sender' _ _ => if sender' = sender then 1 else 0
  | settleSync sender' _ _ => if sender' = sender then 1 else 0
  | _ => 0

/-- There are replies for all the callbacks a thread goes through, and for the
loop of `SyncRequest`, which runs over the replies, no others. -/
def Enough : Pc H V → Prop
  | invokeSync _ replies callbacks => replies.length = callbacks.length
  | settleSync _ replies callbacks => replies.length = callbacks.length
  | invoke _ replies callbacks => callbacks.length ≤ replies.length
  | settle _ replies callbacks => callbacks.length ≤ replies.length
  | _ => True

end Pc

section Throws

variable [Inhabited H] {cfg : EvalConfig} {s t : Pool (Shared H V) (Pc H V)}
variable {l : ℕ × Choice H V} {ls : List (ℕ × Choice H V)}

/-- Each sender thread is there, once, wherever it is in its loop.  That a
sender is somewhere means that it will come back to its permits. -/
def SendersPresent (cfg : EvalConfig) (s : Pool (Shared H V) (Pc H V)) : Prop :=
  ∀ sender, Pool.total (Pc.isSender sender) s = if sender < cfg.serverSendThread then 1 else 0

omit [Inhabited H] in
/-- Each sender is at the head of its loop. -/
theorem sendersPresent_start :
    SendersPresent cfg (start cfg : Pool (Shared H V) (Pc H V)) := by
  intro sender
  have count (n : ℕ) : ((List.range n).map fun k => if k = sender then 1 else 0).sum =
      if sender < n then 1 else 0 := by
    induction n with
    | zero => simp
    | succ n ih =>
        rw [List.range_succ, List.map_append, List.sum_append, ih]
        by_cases hlt : sender < n
        · simp [hlt, Nat.lt_succ_of_lt hlt, Nat.ne_of_gt hlt]
        · by_cases heq : n = sender
          · simp [heq]
          · have : ¬ sender < n + 1 := by omega
            simp [hlt, heq, this]
  simpa [Pool.total, start, Pc.isSender, Function.comp_def] using count _

/-- Senders move, and stay senders: no step ends one, as long as no fault
does. -/
theorem sendersPresent_step (h : (machine cfg).step s l = some t) (buffer : BufferInv cfg s)
    (enough : ∀ pc ∈ s.threads, pc.Enough) (hs : SendersPresent cfg s) :
    SendersPresent cfg t := by
  intro sender
  have := Pool.total_balance (fun _ : Shared H V => 0)
    (fun _ => if sender < cfg.serverSendThread then 1 else 0) (Pc.isSender sender) ?_ h
    (by simpa using hs sender)
  · simpa using this
  intro pc choice sh pc' new ctx hpc _ hstep balanced
  cases fires_of_program hstep with
  | pushed resume => cases resume <;> simpa [Pc.isSender, Resume.pc] using balanced
  | popEmpty sender' fetch none =>
      have := popItems_eq_none none
      have := reserved_le_length buffer.items (List.mem_of_getElem? hpc)
      omega
  | shortSync => exact absurd (enough _ (List.mem_of_getElem? hpc)) (by simp [Pc.Enough])
  | _ => simpa [Pc.isSender] using balanced

/-- A server that keeps its promise leaves enough replies at every control
point. -/
theorem enough_step (enough : EnoughReplies s l) (h : (machine cfg).step s l = some t)
    (hs : ∀ pc ∈ s.threads, pc.Enough) : ∀ pc ∈ t.threads, pc.Enough := by
  refine Pool.forall_threads (fun _ pc => Pc.Enough pc) ?_ h hs
  intro pc choice sh pc' new hpc hchoice hstep good
  refine ⟨?_, fun _ _ hq => hq⟩
  cases fires_of_program hstep with
  | pushed resume => cases resume <;> simp [Resume.pc, Pc.Enough]
  | replySync | reply =>
      exact ⟨by simpa [EnoughReplies, Pc.Enough, hpc, hchoice] using enough, by simp⟩
  | invokeSync | invoke => exact ⟨by simpa [Pc.Enough] using good, by simp⟩
  | settleSync | settle => exact ⟨good, by simp⟩
  | _ => simp [Pc.Enough]

/-- The laws every run obeys under a server that keeps its promise, with what
the `catch` blocks drop: callbacks only along with permits of sender threads. -/
structure DropInv (cfg : EvalConfig) (s : Pool (Shared H V) (Pc H V)) : Prop where
  buffer : BufferInv cfg s
  pairing : PairingInv cfg s
  callbacks : CallbacksBalanced s
  permits : cfg.useAsynRequest = true → ∀ sender, PermitsBalanced cfg sender s
  present : SendersPresent cfg s
  enough : ∀ pc ∈ s.threads, pc.Enough
  lost : s.shared.leaked = [] → s.shared.lost = []
  leaked : ∀ sender ∈ s.shared.leaked, sender < cfg.serverSendThread

omit [Inhabited H] in
/-- The laws hold at the start. -/
theorem dropInv_start : DropInv cfg (start cfg : Pool (Shared H V) (Pc H V)) := by
  refine ⟨bufferInv_start, pairingInv_start, callbacksBalanced_start,
    fun _ => permitsBalanced_start, sendersPresent_start, ?_, fun _ => rfl,
    by simp [start, Shared.start]⟩
  intro pc hpc
  simp only [start, List.mem_append, List.mem_map, List.mem_range, List.mem_replicate] at hpc
  obtain ⟨sender, -, rfl⟩ | ⟨-, rfl⟩ := hpc <;> trivial

omit [Inhabited H] in
/-- A sender that moves is one of the sender threads. -/
theorem lt_of_isSender (hs : SendersPresent cfg s) {pc : Pc H V} (hpc : pc ∈ s.threads)
    {sender : ℕ} (h : pc.isSender sender = 1) : sender < cfg.serverSendThread := by
  have := Pool.le_total (Pc.isSender sender) hpc
  rw [hs sender, h] at this
  by_contra hlt
  simp [hlt] at this

/-- Callbacks are dropped only where a permit is kept. -/
theorem lost_step (hs : DropInv cfg s) (h : (machine cfg).step s l = some t) :
    t.shared.leaked = [] → t.shared.lost = [] := by
  obtain ⟨pre, pc, post, choice, sh, pc', new, hthreads, -, -, hstep, rfl⟩ :=
    Program.step_cases h
  have hpc : pc ∈ s.threads := by simp [hthreads]
  have lost := hs.lost
  cases fires_of_program hstep with
  | throwDummy | throw | shortReply => simp
  | endSync sender callbacks =>
      have noCallbacks : callbacks = [] := by simpa [Pc.Enough, eq_comm] using hs.enough _ hpc
      simpa [noCallbacks] using lost
  | record => simpa [Shared.record_eq] using lost
  | _ => exact lost

theorem leaked_step (hs : DropInv cfg s) (h : (machine cfg).step s l = some t) :
    ∀ sender ∈ t.shared.leaked, sender < cfg.serverSendThread := by
  obtain ⟨pre, pc, post, choice, sh, pc', new, hthreads, -, -, hstep, rfl⟩ :=
    Program.step_cases h
  have hpc : pc ∈ s.threads := by simp [hthreads]
  have leaked := hs.leaked
  cases fires_of_program hstep with
  | throwDummy sender | throw sender =>
      simpa [or_imp, forall_and] using
        ⟨leaked, lt_of_isSender hs.present hpc (by simp [Pc.isSender])⟩
  | shortReply => simpa [Pc.Enough] using hs.enough _ hpc
  | record => simpa [Shared.record_eq] using leaked
  | _ => exact leaked

theorem dropInv_step (hs : DropInv cfg s) (enough : EnoughReplies s l)
    (h : (machine cfg).step s l = some t) : DropInv cfg t :=
  ⟨bufferInv_step hs.buffer h, pairingInv_step hs.pairing h,
    callbacks_balance h hs.pairing hs.callbacks,
    fun asyn sender => permits_balance asyn sender h hs.pairing hs.buffer (hs.permits asyn sender),
    sendersPresent_step h hs.buffer hs.enough hs.present, enough_step enough h hs.enough,
    lost_step hs h, leaked_step hs h⟩

/-- A permit leaks exactly where `begin_evaluate` throws. -/
theorem leaked_eq_nil_step (hs : DropInv cfg s) (h : (machine cfg).step s l = some t) :
    t.shared.leaked = [] ↔ s.shared.leaked = [] ∧ l.2 ≠ .throw := by
  obtain ⟨pre, pc, post, choice, sh, pc', new, hthreads, -, hchoice, hstep, rfl⟩ :=
    Program.step_cases h
  have hpc : pc ∈ s.threads := by simp [hthreads]
  rw [hchoice]
  cases fires_of_program hstep with
  | shortReply => simpa [Pc.Enough] using hs.enough _ hpc
  | record => simp [Shared.record_eq]
  | _ => simp

end Throws

/-! ## Every run

From the laws to the property, and back. -/

/-- No request is lost or duplicated and no send permit is lost: a request that
`Eval` has pushed is in exactly one of the queue, an unanswered batch, a failure
handler and the answered ones, a request still in `Eval` is in none of them, no
callback was invoked twice, and each sender's permits are in its semaphore or
with its batches. -/
structure Conserved (cfg : EvalConfig) (s : Pool (Shared H V) (Pc H V)) : Prop where
  places : ∀ c < s.shared.created.length,
    (queued s).count c + (Pool.total Pc.inBatch s).count c +
      (Pool.total Pc.inFailure s).count c + (answered s).count c =
        if c ∈ Pool.total Pc.entering s then 0 else 1
  once : (answered s).Nodup
  permits : ∀ sender < cfg.serverSendThread,
    (s.shared.remainCanSend sender).count + Pool.total (Pc.permits sender) s =
      cfg.asynOnceSend

section Runs

variable [Inhabited H] {cfg : EvalConfig} {s : Pool (Shared H V) (Pc H V)}

omit [Inhabited H] in
/-- The law of callbacks, counted at one callback. -/
theorem count_callbacks (hs : CallbacksBalanced s) (c : ℕ) :
    (queued s).count c + (answered s).count c + s.shared.lost.count c +
      ((Pool.total Pc.entering s).count c + ((Pool.total Pc.inBatch s).count c +
        (Pool.total Pc.inFailure s).count c)) =
      (Multiset.range s.shared.created.length).count c := by
  rw [← hs, show Pc.carried = fun pc : Pc H V => pc.entering + (pc.inBatch + pc.inFailure)
    from rfl, Pool.total_add, Pool.total_add]
  simp

omit [Inhabited H] in
/-- Where nothing leaked, everything is conserved. -/
theorem conserved_of_leaked_eq_nil (asyn : cfg.useAsynRequest = true) (hs : DropInv cfg s)
    (leaked : s.shared.leaked = []) :
    Conserved cfg s := by
  have lost := hs.lost leaked
  have nodup : ∀ c, (Multiset.range s.shared.created.length).count c ≤ 1 :=
    Multiset.nodup_iff_count_le_one.mp (Multiset.nodup_range _)
  refine ⟨fun c hc => ?_, ?_, fun sender _ => ?_⟩
  · have law := count_callbacks hs.callbacks c
    rw [lost, List.count_nil, Multiset.count_eq_one_of_mem (Multiset.nodup_range _)
      (Multiset.mem_range.mpr hc)] at law
    by_cases entering : c ∈ Pool.total Pc.entering s
    · have := Multiset.one_le_count_iff_mem.mpr entering
      rw [if_pos entering]
      omega
    · rw [if_neg entering]
      rw [Multiset.count_eq_zero_of_notMem entering] at law
      omega
  · refine Multiset.nodup_iff_count_le_one.mpr fun c => ?_
    have law := count_callbacks hs.callbacks c
    have := nodup c
    omega
  · have law := hs.permits asyn sender
    rw [PermitsBalanced, leaked] at law
    simpa using law

omit [Inhabited H] in
/-- A leaked permit is missing from its sender's account. -/
theorem leaked_eq_nil_of_conserved (asyn : cfg.useAsynRequest = true) (hs : DropInv cfg s)
    (h : Conserved cfg s) : s.shared.leaked = [] := by
  refine List.eq_nil_iff_forall_not_mem.mpr fun sender hsender => ?_
  have law := hs.permits asyn sender
  have kept := h.permits sender (hs.leaked sender hsender)
  have := List.count_pos_iff.mpr hsender
  unfold PermitsBalanced at law
  omega

/-- **No lost or duplicated evaluation, exactly while nothing throws.**  In
asynchronous mode, with a server whose replies cover the callbacks, a run leaves
every request in one place and every permit accounted for if and only if no
`begin_evaluate` threw in it: the `catch` blocks drop the batch and keep its
permit. -/
theorem conserved_iff_no_throw (cfg : EvalConfig) (asyn : cfg.useAsynRequest = true)
    (ls : List (ℕ × Choice H V)) (s : Pool (Shared H V) (Pc H V))
    (enough : (machine cfg).Guarded EnoughReplies (start cfg) ls)
    (run : (machine cfg).exec (start cfg) ls = some s) :
    Conserved cfg s ↔ ∀ l ∈ ls, l.2 ≠ .throw := by
  have inv : DropInv cfg s :=
    (machine cfg).invariant dropInv_step dropInv_start enough run
  have record := (machine cfg).holds_iff_harmless dropInv_step
    (fun hs _ h => leaked_eq_nil_step hs h) dropInv_start enough run
  calc Conserved cfg s ↔ s.shared.leaked = [] :=
        ⟨leaked_eq_nil_of_conserved asyn inv, conserved_of_leaked_eq_nil asyn inv⟩
    _ ↔ ∀ l ∈ ls, l.2 ≠ .throw := by simpa [start, Shared.start] using record

end Runs

/-- A sender whose `begin_evaluate` throws on the only batch. -/
def throwRun : List (ℕ × Choice ℕ ℕ) :=
  [(1, .enter), (1, .evaluate 7), (1, .go), (1, .go), (1, .go),
    (0, .go), (0, .go), (0, .go), (0, .go), (0, .go), (0, .throw)]

/-- The thrown batch is nowhere and its permit is gone: the `catch` block in
`AsynRequest` only logs, so the callback will never run and the sender has one
permit less for good. -/
theorem not_conserved_after_throw :
    ∃ s, (machine smallConfig).exec (start smallConfig) throwRun = some s ∧
      (machine smallConfig).Guarded EnoughReplies (start smallConfig) throwRun ∧
      ¬ Conserved smallConfig s := by
  have seen : ((machine smallConfig).exec (start smallConfig) throwRun).map
      (fun s => ((s.shared.remainCanSend 0).count, s.threads)) =
        some (0, [.loop 0, .rollout 0]) := by decide
  obtain ⟨s, run, hs⟩ := Option.map_eq_some_iff.mp seen
  obtain ⟨count, threads⟩ := Prod.mk.inj hs
  refine ⟨s, run, by decide, fun h => ?_⟩
  have permits := h.permits 0 (by decide)
  simp [count, threads, Pool.total, Pc.permits, smallConfig] at permits

/-- A run without a throw, in which the batch is answered. -/
theorem conserved_iff_no_throw_answered :
    ∃ s, (machine (H := ℕ) (V := ℕ) smallConfig).exec (start smallConfig) answeredRun =
        some s ∧
      (Conserved smallConfig s ↔ ∀ l ∈ answeredRun, l.2 ≠ .throw) := by
  obtain ⟨s, run⟩ := Option.isSome_iff_exists.mp (by decide :
    ((machine (H := ℕ) (V := ℕ) smallConfig).exec (start smallConfig) answeredRun).isSome)
  exact ⟨s, run, conserved_iff_no_throw smallConfig rfl _ s (by decide) run⟩

end EstarGo.Client
