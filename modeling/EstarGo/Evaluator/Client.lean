import EstarGo.Evaluator.Semaphore
import EstarGo.Lib.ThreadPool
import Mathlib.Logic.Function.Basic

/-!
# The evaluator client

`PolicyAndValueEvaluatorClient` with its two callers: the search threads, whose
`rollout()` pushes requests through `Eval` and polls `get_pending()` at its end,
and the transport threads of the remote evaluator, which run `evaluate_cb` or
`failure_cb` on the cookie of a batch.

Each semaphore operation, each locked section, each change of `pending_` and
each invoked callback is one step of one thread; `Client.program` gives that
step and `Client.machine` interleaves the threads arbitrarily.  A batch in
flight is a thread too: it is started by `begin_evaluate` and becomes the
transport thread that handles the answer.

## Main definitions

* `Shared` — the client's members and the records the statements read.
* `Pc` — the control points of `rollout`, `Eval`, `ProcessEval`, `evaluate_cb`
  and `failure_cb`.
* `program`, `machine`, `start` — one step, all interleavings, the initial
  state.
* `Fires` — the transitions of `program`, one constructor each.

## Main results

* `fires_of_program`: every step is one of the transitions.

## Design notes

**Callbacks.**  A callback is its number in the order of creation, so `created`
is the registry of callbacks; `server_evaluate` creates one for each request.
The value and the policy of a reply are one abstract `V`, and a reply also names
the history it was computed for.

**The end of a rollout** is three steps: the poll of `get_pending()`, the
reading of the record counts, and their `Clear()`.  A batch can be recorded
between any two of them.  The counts of the latencies of all proxies are one sum
here, which is read in one step and cleared in one; what the source reads proxy
after proxy differs from that only where a batch is recorded in between.

**Left out.**  Which proxy carries a batch and the times in the latency records
play no part.  The shutdown in the destructor is a program of its own, in
`Shutdown`: `eval_terminate` stays 0 here.
-/

namespace EstarGo.Client

open Verif

/-- The settings the client reads from `Config`, and the number of search
threads.  Nothing is assumed of them here; what a result needs is among its
hypotheses. -/
structure EvalConfig where
  queueSize : ℕ
  batchSize : ℕ
  asynOnceSend : ℕ
  serverSendThread : ℕ
  useAsynRequest : Bool
  searchThreads : ℕ
  deriving DecidableEq, Repr

/-- `RequestItem`: a history and the callback registered with it, as
`send_queue_` holds them. -/
structure RequestItem (H : Type) where
  history : H
  callback : ℕ
  deriving DecidableEq, Repr

/-- An element of the server's `ReplyBatch`: the value and policy, and the
history for which the server computed them. -/
structure Reply (H V : Type) where
  result : V
  computedFor : H
  deriving DecidableEq, Repr

/-- `PolicyAndValueCookie`, with the request batch captured by its failed
callback.  A dummy cookie has the empty failed callback of
`AsyncRequestDummyData`. -/
structure Cookie (H : Type) where
  sender : ℕ
  dummy : Bool
  requestCache : List H
  callbackList : List ℕ
  deriving DecidableEq, Repr

/-- A call of `server_evaluate`: the history of the request, and the `rollout()`
that made it.  The list of these calls is a record, and its indices are the
callbacks. -/
structure Created (H : Type) where
  history : H
  rollout : ℕ
  deriving DecidableEq, Repr

/-- Undefined behaviour the code would run into.  A thread that does so stops at
`crashed`, and the fault is noted. -/
inductive Fault where
  /-- `send_queue_.front()` on an empty queue. -/
  | emptyQueue
  /-- `rep_batch[i]` beyond the reply. -/
  | shortReply
  /-- `callbacks[i]` or `callback_cache[i]` beyond the callbacks. -/
  | shortCallbacks
  deriving DecidableEq, Repr

/-- The members shared by all threads, then records of what happened. -/
structure Shared (H V : Type) where
  full : Semaphore
  empty : Semaphore
  /-- Each sender's own `remain_can_send`. -/
  remainCanSend : ℕ → Semaphore
  sendQueue : List (RequestItem H)
  pending : ℤ
  /-- `get_record_count()` over all `request_latencys_`. -/
  recordCount : ℕ
  /-- The callbacks created so far, in order. -/
  created : List (Created H)
  /-- How many calls of `rollout()` have begun. -/
  rollouts : ℕ
  /-- The calls of `rollout()` that returned, with their `server_eval_cnt`. -/
  returned : List (ℕ × ℕ)
  /-- The callbacks invoked, with the reply each was given. -/
  invoked : List (ℕ × Reply H V)
  /-- The items pushed; and those that senders took into their two vectors, put
  together again from a request and its callback.  Both in order. -/
  entered : List (RequestItem H)
  left : List (RequestItem H)
  /-- Callbacks no one holds any more, though they were not invoked. -/
  lost : List ℕ
  /-- Senders of batches no one holds any more, though their permit was not
  returned. -/
  leaked : List ℕ
  faults : List Fault

/-- Where `Eval` returns to.  It is called from a rollout and from the failed
callback of a batch, and its three steps are the same in both. -/
inductive Resume (H : Type) where
  /-- `server_evaluate`, in the loop of a `rollout()`. -/
  | rollout (rid : ℕ)
  /-- The failed callback, with the requests it has yet to send again. -/
  | failureCb (cookie : Cookie H) (requests : List H) (callbacks : List ℕ)
  deriving DecidableEq, Repr

/-- Control points of the search threads, the senders and the transport
threads. -/
inductive Pc (H V : Type) where
  /-- A search thread outside `rollout()`. -/
  | idle
  /-- In the loop of `rollout()`. -/
  | rollout (rid : ℕ)
  /-- In `on_server_rollout_loop_over`: polling `get_pending()`; past the poll,
  at `get_record_count()`; and at `Clear()`, with the `server_eval_cnt` to
  return. -/
  | barrier (rid : ℕ)
  | getRecordCount (rid : ℕ)
  | clear (rid serverEvalCnt : ℕ)
  /-- `Eval` or `EvalByHistory`: at `full_->wait()`, at the locked section, at
  `empty_->notify()`. -/
  | evalWait (item : RequestItem H) (resume : Resume H)
  | evalPush (item : RequestItem H) (resume : Resume H)
  | evalNotify (resume : Resume H)
  /-- `ProcessEval`, at the head of its loop. -/
  | loop (sender : ℕ)
  /-- Holding a send permit, before `empty_->get()`. -/
  | look (sender : ℕ)
  /-- In `AsyncRequestDummyData`. -/
  | sendDummy (sender : ℕ)
  /-- At `empty_->wait(request_batch_size_)`, at the locked section, at
  `full_->notify(fetch)`. -/
  | fetchWait (sender : ℕ)
  | fetchPop (sender fetch : ℕ)
  | fetchNotify (sender fetch : ℕ) (requests : List H) (callbacks : List ℕ)
  /-- In `AsynRequest`. -/
  | send (sender : ℕ) (requests : List H) (callbacks : List ℕ)
  /-- In `SyncRequest`: waiting for `evaluate`, then in its loop over the
  replies, before a callback and before `pending_--`. -/
  | sendSync (sender : ℕ) (requests : List H) (callbacks : List ℕ)
  | invokeSync (sender : ℕ) (replies : List (Reply H V)) (callbacks : List ℕ)
  | settleSync (sender : ℕ) (replies : List (Reply H V)) (callbacks : List ℕ)
  /-- A batch the server has not answered. -/
  | inFlight (cookie : Cookie H)
  /-- `evaluate_cb`, in its loop over the callbacks: before a callback and
  before `pending--`; then at `Record`. -/
  | invoke (cookie : Cookie H) (replies : List (Reply H V)) (callbacks : List ℕ)
  | settle (cookie : Cookie H) (replies : List (Reply H V)) (callbacks : List ℕ)
  | record (cookie : Cookie H)
  /-- `failure_cb`, with this many `pending--` to come, then in the failed
  callback with these requests to send again. -/
  | unsettle (cookie : Cookie H) (remaining : ℕ)
  | resend (cookie : Cookie H) (requests : List H) (callbacks : List ℕ)
  /-- At `get_remain_can_send()->notify()`, the end of either callback. -/
  | release (sender : ℕ)
  | finished
  | crashed
  deriving DecidableEq, Repr

/-- What a thread or its environment may choose at a step. -/
inductive Choice (H V : Type) where
  /-- The next statement. -/
  | go
  /-- The search thread is given a `rollout()`. -/
  | enter
  /-- The loop of `rollout()` reaches `server_evaluate` with a leaf to
  request. -/
  | evaluate (history : H)
  /-- The loop of `rollout()` ends. -/
  | finish
  /-- `begin_evaluate` accepts the batch. -/
  | accept
  /-- `begin_evaluate` throws. -/
  | throw
  /-- The server answers the batch. -/
  | reply (replies : List (Reply H V))
  /-- The batch fails. -/
  | fail
  deriving DecidableEq, Repr

variable {H V : Type}

/-- Back in the caller of `Eval`. -/
def Resume.pc : Resume H → Pc H V
  | .rollout rid => .rollout rid
  | .failureCb cookie requests callbacks => .resend cookie requests callbacks

/-- The locked section of `ProcessEval`: front and pop `fetch` items into the
two vectors.  `none` when it would read the front of an empty queue, which the
semaphores are there to prevent. -/
def popItems : ℕ → List (RequestItem H) →
    Option (List H × List ℕ × List (RequestItem H))
  | 0, queue => some ([], [], queue)
  | _ + 1, [] => none
  | fetch + 1, item :: queue =>
      (popItems fetch queue).map fun r => (item.history :: r.1, item.callback :: r.2.1, r.2.2)

/-- The four empty strings of a dummy batch, whatever the batch size is. -/
def dummyBatch [Inhabited H] : List H := [default, default, default, default]

/-- `Latency::Record` on the latency the cookie carries; only those of real
batches are counted. -/
def Shared.record (sh : Shared H V) (cookie : Cookie H) : Shared H V :=
  if cookie.dummy then sh else { sh with recordCount := sh.recordCount + 1 }

/-- One step of one thread, which is what the source does between two points at
which another thread could interfere: a semaphore operation, a locked section, a
change of the counter, a callback. -/
def program [Inhabited H] (cfg : EvalConfig) :
    Program (Shared H V) (Pc H V) (Choice H V)
  -- `rollout()` on a search thread
  | sh, .idle, .enter =>
      some ({ sh with rollouts := sh.rollouts + 1 }, .rollout sh.rollouts, [])
  | sh, .rollout rid, .evaluate history =>
      some ({ sh with created := sh.created ++ [⟨history, rid⟩] },
        .evalWait ⟨history, sh.created.length⟩ (.rollout rid), [])
  | sh, .rollout rid, .finish => some (sh, .barrier rid, [])
  | sh, .barrier rid, .go =>
      some (sh, if sh.pending > 0 then .barrier rid else .getRecordCount rid, [])
  | sh, .getRecordCount rid, .go => some (sh, .clear rid (sh.recordCount * 4), [])
  | sh, .clear rid serverEvalCnt, .go =>
      some ({ sh with returned := sh.returned ++ [(rid, serverEvalCnt)]
                      recordCount := 0 }, .idle, [])
  -- `Eval` and `EvalByHistory`
  | sh, .evalWait item resume, .go =>
      (sh.full.wait 1).map fun r => ({ sh with full := r.1 }, .evalPush item resume, [])
  | sh, .evalPush item resume, .go =>
      some ({ sh with pending := sh.pending + 1
                      sendQueue := sh.sendQueue ++ [item]
                      entered := sh.entered ++ [item] }, .evalNotify resume, [])
  | sh, .evalNotify resume, .go =>
      some ({ sh with empty := sh.empty.notify 1 }, Resume.pc resume, [])
  -- `ProcessEval`
  | sh, .loop sender, .go =>
      if cfg.useAsynRequest then
        ((sh.remainCanSend sender).wait 1).map fun r =>
          ({ sh with remainCanSend := Function.update sh.remainCanSend sender r.1 },
            .look sender, [])
      else some (sh, .fetchWait sender, [])
  | sh, .look sender, .go =>
      if sh.empty.get = 0 then some (sh, .sendDummy sender, [])
      else some (sh, .fetchWait sender, [])
  | sh, .sendDummy sender, .accept =>
      some (sh, .loop sender, [.inFlight ⟨sender, true, dummyBatch, []⟩])
  | sh, .sendDummy sender, .throw =>
      some ({ sh with leaked := sh.leaked ++ [sender] }, .loop sender, [])
  | sh, .fetchWait sender, .go =>
      (sh.empty.wait cfg.batchSize).map fun r =>
        ({ sh with empty := r.1 }, .fetchPop sender r.2, [])
  | sh, .fetchPop sender fetch, .go =>
      match popItems fetch sh.sendQueue with
      | none => some ({ sh with faults := sh.faults ++ [.emptyQueue] }, .crashed, [])
      | some (requests, callbacks, queue) =>
          some ({ sh with sendQueue := queue
                          left := sh.left ++ List.zipWith .mk requests callbacks },
            .fetchNotify sender fetch requests callbacks, [])
  | sh, .fetchNotify sender fetch requests callbacks, .go =>
      some ({ sh with full := sh.full.notify fetch },
        if cfg.useAsynRequest then .send sender requests callbacks
        else .sendSync sender requests callbacks, [])
  | sh, .send sender requests callbacks, .accept =>
      some (sh, .loop sender, [.inFlight ⟨sender, false, requests, callbacks⟩])
  -- the `catch` block only prints the exception
  | sh, .send sender _ callbacks, .throw =>
      some ({ sh with leaked := sh.leaked ++ [sender], lost := sh.lost ++ callbacks },
        .loop sender, [])
  | sh, .sendSync sender _ callbacks, .reply replies =>
      some (sh, .invokeSync sender replies callbacks, [])
  | sh, .invokeSync sender replies callbacks, .go =>
      match replies, callbacks with
      | [], _ => some ({ sh with lost := sh.lost ++ callbacks }, .loop sender, [])
      | _ :: _, [] => some ({ sh with faults := sh.faults ++ [.shortCallbacks] }, .crashed, [])
      | reply :: replies, callback :: callbacks =>
          some ({ sh with invoked := sh.invoked ++ [(callback, reply)] },
            .settleSync sender replies callbacks, [])
  | sh, .settleSync sender replies callbacks, .go =>
      some ({ sh with pending := sh.pending - 1 }, .invokeSync sender replies callbacks, [])
  -- `evaluate_cb`
  | sh, .inFlight cookie, .reply replies =>
      some (sh, .invoke cookie replies cookie.callbackList, [])
  | sh, .invoke cookie replies callbacks, .go =>
      match replies, callbacks with
      | _, [] => some (sh, .record cookie, [])
      | [], callback :: callbacks =>
          some ({ sh with faults := sh.faults ++ [.shortReply]
                          leaked := sh.leaked ++ [cookie.sender]
                          lost := sh.lost ++ callback :: callbacks }, .crashed, [])
      | reply :: replies, callback :: callbacks =>
          some ({ sh with invoked := sh.invoked ++ [(callback, reply)] },
            .settle cookie replies callbacks, [])
  | sh, .settle cookie replies callbacks, .go =>
      some ({ sh with pending := sh.pending - 1 }, .invoke cookie replies callbacks, [])
  | sh, .record cookie, .go => some (Shared.record sh cookie, .release cookie.sender, [])
  -- `failure_cb`
  | sh, .inFlight cookie, .fail =>
      some (sh, .unsettle cookie cookie.callbackList.length, [])
  | sh, .unsettle cookie 0, .go =>
      some (sh, if cookie.dummy then .release cookie.sender
        else .resend cookie cookie.requestCache cookie.callbackList, [])
  | sh, .unsettle cookie (remaining + 1), .go =>
      some ({ sh with pending := sh.pending - 1 }, .unsettle cookie remaining, [])
  | sh, .resend cookie requests callbacks, .go =>
      match requests, callbacks with
      | [], _ => some (sh, .release cookie.sender, [])
      | _ :: _, [] => some ({ sh with faults := sh.faults ++ [.shortCallbacks] }, .crashed, [])
      | history :: requests, callback :: callbacks =>
          some (sh, .evalWait ⟨history, callback⟩ (.failureCb cookie requests callbacks), [])
  | sh, .release sender, .go =>
      some ({ sh with remainCanSend := Function.update sh.remainCanSend sender
                        ((sh.remainCanSend sender).notify 1) }, .finished, [])
  | _, _, _ => none

/-- All interleavings of the client's threads, with whatever their environment
chooses. -/
def machine [Inhabited H] (cfg : EvalConfig) :
    Machine (Pool (Shared H V) (Pc H V)) (ℕ × Choice H V) :=
  (program cfg).machine

/-- The members after the constructor: all slots free, all permits there,
nothing queued. -/
def Shared.start (cfg : EvalConfig) : Shared H V where
  full := ⟨cfg.queueSize⟩
  empty := ⟨0⟩
  remainCanSend := fun _ => ⟨cfg.asynOnceSend⟩
  sendQueue := []
  pending := 0
  recordCount := 0
  created := []
  rollouts := 0
  returned := []
  invoked := []
  entered := []
  left := []
  lost := []
  leaked := []
  faults := []

/-- The senders at the head of their loops, the search threads idle.  Transport
threads come and go with the batches. -/
def start (cfg : EvalConfig) : Pool (Shared H V) (Pc H V) where
  shared := Shared.start cfg
  threads := (List.range cfg.serverSendThread).map .loop ++
    List.replicate cfg.searchThreads .idle

/-- The smallest asynchronous client: one slot, batches of one, one permit, one
sender and one search thread. -/
def smallConfig : EvalConfig where
  queueSize := 1
  batchSize := 1
  asynOnceSend := 1
  serverSendThread := 1
  useAsynRequest := true
  searchThreads := 1

/-- One request, sent and answered; then its search thread leaves
`rollout()`. -/
def answeredRun : List (ℕ × Choice ℕ ℕ) :=
  [(1, .enter), (1, .evaluate 7), (1, .go), (1, .go), (1, .go), (1, .finish),
    (0, .go), (0, .go), (0, .go), (0, .go), (0, .go), (0, .accept),
    (2, .reply [⟨5, 7⟩]), (2, .go), (1, .go), (2, .go), (1, .go), (1, .go), (1, .go)]

/-! ## The transitions

The inversion of `program`, from which every invariant is proved. -/

/-- What a step can be, one constructor for each transition, guards included.
All invariants are proved by a case analysis on these, and `program` is not
unfolded again. -/
inductive Fires [Inhabited H] (cfg : EvalConfig) : Shared H V → Pc H V → Choice H V →
    Shared H V → Pc H V → List (Pc H V) → Prop
  | enter (sh) : Fires cfg sh .idle .enter
      { sh with rollouts := sh.rollouts + 1 } (.rollout sh.rollouts) []
  | evaluate (sh rid history) : Fires cfg sh (.rollout rid) (.evaluate history)
      { sh with created := sh.created ++ [⟨history, rid⟩] }
      (.evalWait ⟨history, sh.created.length⟩ (.rollout rid)) []
  | finish (sh rid) : Fires cfg sh (.rollout rid) .finish sh (.barrier rid) []
  | poll (sh rid) (pending : 0 < sh.pending) :
      Fires cfg sh (.barrier rid) .go sh (.barrier rid) []
  | leave (sh rid) (done : sh.pending ≤ 0) :
      Fires cfg sh (.barrier rid) .go sh (.getRecordCount rid) []
  | getRecordCount (sh rid) : Fires cfg sh (.getRecordCount rid) .go sh
      (.clear rid (sh.recordCount * 4)) []
  | clear (sh rid serverEvalCnt) : Fires cfg sh (.clear rid serverEvalCnt) .go
      { sh with returned := sh.returned ++ [(rid, serverEvalCnt)], recordCount := 0 } .idle []
  | takeSlot (sh item resume full) (slot : full.count + 1 = sh.full.count) :
      Fires cfg sh (.evalWait item resume) .go { sh with full := full }
        (.evalPush item resume) []
  | push (sh item resume) : Fires cfg sh (.evalPush item resume) .go
      { sh with pending := sh.pending + 1, sendQueue := sh.sendQueue ++ [item]
                entered := sh.entered ++ [item] } (.evalNotify resume) []
  | pushed (sh resume) : Fires cfg sh (.evalNotify resume) .go
      { sh with empty := sh.empty.notify 1 } (Resume.pc resume) []
  | permit (sh sender sem) (asyn : cfg.useAsynRequest = true)
      (taken : sem.count + 1 = (sh.remainCanSend sender).count) :
      Fires cfg sh (.loop sender) .go
        { sh with remainCanSend := Function.update sh.remainCanSend sender sem }
        (.look sender) []
  | noPermit (sh sender) (sync : cfg.useAsynRequest = false) :
      Fires cfg sh (.loop sender) .go sh (.fetchWait sender) []
  | lookEmpty (sh sender) (none : sh.empty.count = 0) :
      Fires cfg sh (.look sender) .go sh (.sendDummy sender) []
  | lookSome (sh sender) (some : sh.empty.count ≠ 0) :
      Fires cfg sh (.look sender) .go sh (.fetchWait sender) []
  | acceptDummy (sh sender) : Fires cfg sh (.sendDummy sender) .accept sh (.loop sender)
      [.inFlight ⟨sender, true, dummyBatch, []⟩]
  | throwDummy (sh sender) : Fires cfg sh (.sendDummy sender) .throw
      { sh with leaked := sh.leaked ++ [sender] } (.loop sender) []
  | reserve (sh sender empty fetch) (reserved : empty.count + fetch = sh.empty.count)
      (bound : fetch ≤ cfg.batchSize) (some : 0 < cfg.batchSize → 0 < fetch) :
      Fires cfg sh (.fetchWait sender) .go { sh with empty := empty }
        (.fetchPop sender fetch) []
  | popEmpty (sh sender fetch) (none : popItems fetch sh.sendQueue = none) :
      Fires cfg sh (.fetchPop sender fetch) .go
        { sh with faults := sh.faults ++ [.emptyQueue] } .crashed []
  | pop (sh sender fetch requests callbacks queue)
      (popped : popItems fetch sh.sendQueue = some (requests, callbacks, queue)) :
      Fires cfg sh (.fetchPop sender fetch) .go
        { sh with sendQueue := queue, left := sh.left ++ List.zipWith .mk requests callbacks }
        (.fetchNotify sender fetch requests callbacks) []
  | freeSlotsAsyn (sh sender fetch requests callbacks) (asyn : cfg.useAsynRequest = true) :
      Fires cfg sh (.fetchNotify sender fetch requests callbacks) .go
        { sh with full := sh.full.notify fetch } (.send sender requests callbacks) []
  | freeSlotsSync (sh sender fetch requests callbacks) (sync : cfg.useAsynRequest = false) :
      Fires cfg sh (.fetchNotify sender fetch requests callbacks) .go
        { sh with full := sh.full.notify fetch } (.sendSync sender requests callbacks) []
  | accept (sh sender requests callbacks) :
      Fires cfg sh (.send sender requests callbacks) .accept sh (.loop sender)
        [.inFlight ⟨sender, false, requests, callbacks⟩]
  | throw (sh sender requests callbacks) :
      Fires cfg sh (.send sender requests callbacks) .throw
        { sh with leaked := sh.leaked ++ [sender], lost := sh.lost ++ callbacks }
        (.loop sender) []
  | replySync (sh sender requests callbacks replies) :
      Fires cfg sh (.sendSync sender requests callbacks) (.reply replies) sh
        (.invokeSync sender replies callbacks) []
  | endSync (sh sender callbacks) : Fires cfg sh (.invokeSync sender [] callbacks) .go
      { sh with lost := sh.lost ++ callbacks } (.loop sender) []
  | shortSync (sh sender reply replies) :
      Fires cfg sh (.invokeSync sender (reply :: replies) []) .go
        { sh with faults := sh.faults ++ [.shortCallbacks] } .crashed []
  | invokeSync (sh sender reply replies callback callbacks) :
      Fires cfg sh (.invokeSync sender (reply :: replies) (callback :: callbacks)) .go
        { sh with invoked := sh.invoked ++ [(callback, reply)] }
        (.settleSync sender replies callbacks) []
  | settleSync (sh sender replies callbacks) :
      Fires cfg sh (.settleSync sender replies callbacks) .go
        { sh with pending := sh.pending - 1 } (.invokeSync sender replies callbacks) []
  | reply (sh cookie replies) : Fires cfg sh (.inFlight cookie) (.reply replies) sh
      (.invoke cookie replies cookie.callbackList) []
  | endReply (sh cookie replies) : Fires cfg sh (.invoke cookie replies []) .go sh
      (.record cookie) []
  | shortReply (sh cookie callback callbacks) :
      Fires cfg sh (.invoke cookie [] (callback :: callbacks)) .go
        { sh with faults := sh.faults ++ [.shortReply], leaked := sh.leaked ++ [cookie.sender]
                  lost := sh.lost ++ callback :: callbacks } .crashed []
  | invoke (sh cookie reply replies callback callbacks) :
      Fires cfg sh (.invoke cookie (reply :: replies) (callback :: callbacks)) .go
        { sh with invoked := sh.invoked ++ [(callback, reply)] }
        (.settle cookie replies callbacks) []
  | settle (sh cookie replies callbacks) :
      Fires cfg sh (.settle cookie replies callbacks) .go
        { sh with pending := sh.pending - 1 } (.invoke cookie replies callbacks) []
  | record (sh cookie) : Fires cfg sh (.record cookie) .go (Shared.record sh cookie)
      (.release cookie.sender) []
  | fail (sh cookie) : Fires cfg sh (.inFlight cookie) .fail sh
      (.unsettle cookie cookie.callbackList.length) []
  | failDummy (sh cookie) (dummy : cookie.dummy = true) :
      Fires cfg sh (.unsettle cookie 0) .go sh (.release cookie.sender) []
  | failBatch (sh cookie) (real : cookie.dummy = false) :
      Fires cfg sh (.unsettle cookie 0) .go sh
        (.resend cookie cookie.requestCache cookie.callbackList) []
  | unsettle (sh cookie remaining) : Fires cfg sh (.unsettle cookie (remaining + 1)) .go
      { sh with pending := sh.pending - 1 } (.unsettle cookie remaining) []
  | endResend (sh cookie callbacks) : Fires cfg sh (.resend cookie [] callbacks) .go sh
      (.release cookie.sender) []
  | shortResend (sh cookie history requests) :
      Fires cfg sh (.resend cookie (history :: requests) []) .go
        { sh with faults := sh.faults ++ [.shortCallbacks] } .crashed []
  | resend (sh cookie history requests callback callbacks) :
      Fires cfg sh (.resend cookie (history :: requests) (callback :: callbacks)) .go sh
        (.evalWait ⟨history, callback⟩ (.failureCb cookie requests callbacks)) []
  | release (sh sender) : Fires cfg sh (.release sender) .go
      { sh with remainCanSend := Function.update sh.remainCanSend sender
                  ((sh.remainCanSend sender).notify 1) } .finished []

/-- Every step of `program` is one of the transitions. -/
theorem fires_of_program [Inhabited H] {cfg : EvalConfig} {sh sh' : Shared H V}
    {pc pc' : Pc H V} {choice : Choice H V} {new : List (Pc H V)}
    (h : program cfg sh pc choice = some (sh', pc', new)) :
    Fires cfg sh pc choice sh' pc' new := by
  unfold program at h
  split at h
  -- the transitions without a branch
  all_goals try (cases h; constructor)
  case h_4 =>
    cases h
    split
    · exact .poll _ _ (by assumption)
    · exact .leave _ _ (by omega)
  case h_7 =>
    obtain ⟨⟨full, taken⟩, hwait, h⟩ := Option.map_eq_some_iff.mp h
    cases h
    exact .takeSlot _ _ _ _ (Semaphore.wait_one_eq_some hwait).1
  case h_10 =>
    split at h
    · obtain ⟨⟨sem, taken⟩, hwait, h⟩ := Option.map_eq_some_iff.mp h
      cases h
      exact .permit _ _ _ (by assumption) (Semaphore.wait_one_eq_some hwait).1
    · cases h
      exact .noPermit _ _ (by simpa using ‹¬cfg.useAsynRequest = true›)
  case h_11 =>
    split at h <;> cases h
    · exact .lookEmpty _ _ (by assumption)
    · exact .lookSome _ _ (by assumption)
  case h_14 =>
    obtain ⟨⟨empty, fetch⟩, hwait, h⟩ := Option.map_eq_some_iff.mp h
    cases h
    obtain ⟨taken, bound, some⟩ := Semaphore.wait_eq_some hwait
    exact .reserve _ _ _ _ taken bound some
  case h_15 =>
    split at h <;> cases h
    · exact .popEmpty _ _ _ (by assumption)
    · exact .pop _ _ _ _ _ _ (by assumption)
  case h_16 =>
    cases h
    split
    · exact .freeSlotsAsyn _ _ _ _ _ (by assumption)
    · exact .freeSlotsSync _ _ _ _ _ (by simpa using ‹¬cfg.useAsynRequest = true›)
  case h_20 =>
    split at h <;> cases h <;> constructor
  case h_23 =>
    split at h <;> cases h <;> constructor
  case h_27 =>
    cases h
    split
    · exact .failDummy _ _ (by assumption)
    · exact .failBatch _ _ (by simpa using ‹¬_ = true›)
  case h_29 =>
    split at h <;> cases h <;> constructor
  case h_31 => cases h

end EstarGo.Client
