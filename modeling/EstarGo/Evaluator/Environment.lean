import EstarGo.Evaluator.Client

/-!
# What the client is promised

Statements about the client are about runs, and a run is promised something at
each step: by the server, which answers batches, and by the order of the steps.
A promise is a predicate on the state before a step and the step.

## Main definitions

* `RepliesInOrder`, `EnoughReplies` — what the server's replies look like.
* `BarrierClear` — no poll while a `failure_cb` has callbacks to put back.
* `FailureSlack` — a failure leaves some sender a permit.
* `FullBatch`, `RecordsDone` — real batches of four, recorded before a poll ends
  the search.
* `Counted` — all that a count of evaluations needs.

## Design notes

**Promises at a step.**  A promise names the thread that moves by its control
point, and says nothing of any other step.  So a run that never comes to such a
step keeps it for free, and a run that is cut off keeps what it kept before.

**Two kinds.**  What the server promises is documented behaviour of code that is
not here.  The conditions on the order of steps are not promised by anybody:
they are what goes wrong where the results about the client fail.
-/

namespace EstarGo.Client

open Verif

variable {H V : Type}

/-! ## The server

What the remote evaluator answers. -/

/-- The server's promise at a step: the replies of a batch come in the order of
its request strings, one for each.  Nothing in the protocol marks a reply with
its request, so the client has to rely on the order. -/
def RepliesInOrder (s : Pool (Shared H V) (Pc H V)) (l : ℕ × Choice H V) : Prop :=
  match s.threads[l.1]?, l.2 with
  | some (.inFlight cookie), .reply replies =>
      replies.map (·.computedFor) = cookie.requestCache
  | some (.sendSync _ requests _), .reply replies => replies.map (·.computedFor) = requests
  | _, _ => True

instance [DecidableEq H] (s : Pool (Shared H V) (Pc H V)) (l : ℕ × Choice H V) :
    Decidable (RepliesInOrder s l) := by
  unfold RepliesInOrder
  split <;> infer_instance

/-- The server's promise at a step: a reply has a result for each callback, and
to `evaluate` no others.  The asynchronous path goes through the callbacks, the
synchronous one through the replies. -/
def EnoughReplies (s : Pool (Shared H V) (Pc H V)) (l : ℕ × Choice H V) : Prop :=
  match s.threads[l.1]?, l.2 with
  | some (.inFlight cookie), .reply replies => cookie.callbackList.length ≤ replies.length
  | some (.sendSync _ _ callbacks), .reply replies => replies.length = callbacks.length
  | _, _ => True

instance (s : Pool (Shared H V) (Pc H V)) (l : ℕ × Choice H V) :
    Decidable (EnoughReplies s l) := by
  unfold EnoughReplies
  split <;> infer_instance

/-! ## The order of the steps

Conditions on the interleaving, at the step that would break a result. -/

/-- The callbacks a `failure_cb` has taken off `pending_` and not yet put back.
During this time they are counted nowhere, though each of them is still to be
answered. -/
def Pc.unsettled : Pc H V → ℕ
  | unsettle cookie remaining => cookie.callbackList.length - remaining
  | resend _ _ callbacks => callbacks.length
  | evalWait _ (.failureCb _ _ callbacks) => callbacks.length + 1
  | evalPush _ (.failureCb _ _ callbacks) => callbacks.length + 1
  | evalNotify (.failureCb _ _ callbacks) => callbacks.length
  | _ => 0

/-- The condition on a poll that finds the counter down: no `failure_cb` is
between its `pending--` loop and the end of its sending again. -/
def BarrierClear (s : Pool (Shared H V) (Pc H V)) (l : ℕ × Choice H V) : Prop :=
  match s.threads[l.1]?, l.2 with
  | some (.barrier _), .go =>
      s.shared.pending ≤ 0 → ∀ pc ∈ s.threads, pc.unsettled = 0
  | _, _ => True

instance (s : Pool (Shared H V) (Pc H V)) (l : ℕ × Choice H V) :
    Decidable (BarrierClear s l) := by
  unfold BarrierClear
  split <;> infer_instance

/-- The permit of `sender` that a running `failure_cb` of a real batch holds. -/
def Pc.failing (sender : ℕ) : Pc H V → ℕ
  | unsettle cookie _ => if cookie.dummy = false ∧ cookie.sender = sender then 1 else 0
  | resend cookie _ _ => if cookie.sender = sender then 1 else 0
  | evalWait _ (.failureCb cookie _ _) => if cookie.sender = sender then 1 else 0
  | evalPush _ (.failureCb cookie _ _) => if cookie.sender = sender then 1 else 0
  | evalNotify (.failureCb cookie _ _) => if cookie.sender = sender then 1 else 0
  | _ => 0

/-- The condition on a failure: with the batch that fails, some sender still has
a permit that no failure handler holds.  A failed dummy batch needs none, for
its handler pushes nothing. -/
def FailureSlack (cfg : EvalConfig) (s : Pool (Shared H V) (Pc H V))
    (l : ℕ × Choice H V) : Prop :=
  match s.threads[l.1]?, l.2 with
  | some (.inFlight cookie), .fail =>
      cookie.dummy = false → ∃ sender < cfg.serverSendThread,
        Pool.total (Pc.failing sender) s + (if cookie.sender = sender then 1 else 0) <
          cfg.asynOnceSend
  | _, _ => True

instance (cfg : EvalConfig) (s : Pool (Shared H V) (Pc H V)) (l : ℕ × Choice H V) :
    Decidable (FailureSlack cfg s l) := by
  unfold FailureSlack
  split <;> infer_instance

/-! ## The batches that are counted

Three conditions for one number, and the server's promise. -/

/-- The condition on an answer: the real batch carries four requests. -/
def FullBatch (s : Pool (Shared H V) (Pc H V)) (l : ℕ × Choice H V) : Prop :=
  match s.threads[l.1]?, l.2 with
  | some (.inFlight cookie), .reply _ => cookie.dummy = false → cookie.callbackList.length = 4
  | _, _ => True

instance (s : Pool (Shared H V) (Pc H V)) (l : ℕ × Choice H V) : Decidable (FullBatch s l) := by
  unfold FullBatch
  split <;> infer_instance

/-- An `evaluate_cb` of a real batch between its last `pending--` and its
`Record`.  To the poll the batch is done, to the record count it is not. -/
def Pc.unrecorded : Pc H V → Bool
  | invoke cookie _ [] => !cookie.dummy
  | record cookie => !cookie.dummy
  | _ => false

/-- The condition on a poll that finds the counter down: every answered batch is
recorded. -/
def RecordsDone (s : Pool (Shared H V) (Pc H V)) (l : ℕ × Choice H V) : Prop :=
  match s.threads[l.1]?, l.2 with
  | some (.barrier _), .go =>
      s.shared.pending ≤ 0 → ∀ pc ∈ s.threads, pc.unrecorded = false
  | _, _ => True

instance (s : Pool (Shared H V) (Pc H V)) (l : ℕ × Choice H V) :
    Decidable (RecordsDone s l) := by
  unfold RecordsDone
  split <;> infer_instance

/-- The conditions of a count, with the promise that an answer has a result for
each callback.  A batch is recorded as four evaluations, so it must be one of
four; and no batch may be recorded late or between the poll and the clearing. -/
def Counted (s : Pool (Shared H V) (Pc H V)) (l : ℕ × Choice H V) : Prop :=
  EnoughReplies s l ∧ FullBatch s l ∧ BarrierClear s l ∧ RecordsDone s l

instance (s : Pool (Shared H V) (Pc H V)) (l : ℕ × Choice H V) : Decidable (Counted s l) :=
  inferInstanceAs (Decidable (_ ∧ _))

end EstarGo.Client
