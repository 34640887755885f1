import EstarGo.Evaluator.Buffer
import EstarGo.Evaluator.Environment

/-!
# Requests stay paired with their callbacks

A fetch separates the histories of a batch from their callbacks, and a failed
batch pairs them again by index.  `Pc.Wf` says, control point by control point,
that the two vectors a thread carries run in parallel and that each callback was
registered for the history at its index; `pairingInv_step` keeps it.

## Main definitions

* `Registered`, `Paired` — a callback was created for a history; two vectors run
  in parallel.
* `Pc.Wf` — what a thread carries is in order.
* `Pc.InOrder` — the replies a thread goes through answer its callbacks.

## Main results

* `pairingInv_step`: each step keeps the pairs.
* `replies_reach_their_leaf`: what each invoked callback was given.

## Design notes

**Two invariants.**  The pairs are kept whatever the server does.  With the
server answering in the order of the requests, `Pc.InOrder` carries the pairing
on to the replies, from the answer to the last callback of its batch.

**The registry only grows.**  Every predicate here is of the callbacks created
so far, and more of them disturb nothing.
-/

namespace EstarGo.Client

open Verif

variable {H V : Type}

/-! ## Registration

Callbacks and the histories they were created for. -/

/-- The callback was created together with this history, for some rollout.
Registrations are only ever added, so this is kept by every step. -/
def Registered (created : List (Created H)) (history : H) (callback : ℕ) : Prop :=
  ∃ rid, created[callback]? = some ⟨history, rid⟩

/-- The two vectors of a batch run in parallel: what stands at one index of both
is a history and the callback that was created with it. -/
def Paired (created : List (Created H)) (requests : List H) (callbacks : List ℕ) : Prop :=
  List.Forall₂ (Registered created) requests callbacks

/-- A created callback keeps its registration as more are created. -/
theorem getElem?_created_append {created : List (Created H)} {callback : ℕ}
    {entry : Created H} (more : List (Created H)) (h : created[callback]? = some entry) :
    (created ++ more)[callback]? = some entry := by
  rw [List.getElem?_append_left (List.getElem?_eq_some_iff.mp h).1, h]

theorem Registered.append {created : List (Created H)} {history : H} {callback : ℕ}
    (more : List (Created H)) (h : Registered created history callback) :
    Registered (created ++ more) history callback :=
  h.imp fun _ hcreated => getElem?_created_append more hcreated

theorem Paired.append {created : List (Created H)} {requests : List H}
    {callbacks : List ℕ} (more : List (Created H)) (h : Paired created requests callbacks) :
    Paired (created ++ more) requests callbacks :=
  h.imp fun _ _ hreg => hreg.append more

/-- Popping registered items yields paired vectors. -/
theorem paired_of_items {created : List (Created H)} {items : List (RequestItem H)}
    (h : ∀ item ∈ items, Registered created item.history item.callback) :
    Paired created (items.map (·.history)) (items.map (·.callback)) := by
  unfold Paired
  rw [List.forall₂_map_left_iff, List.forall₂_map_right_iff, List.forall₂_same]
  exact h

/-! ## Well-formed control points

What a thread carries is described where it stands. -/

/-- A dummy cookie has no callbacks; any other pairs its request vector with
them. -/
def Cookie.Wf (created : List (Created H)) (cookie : Cookie H) : Prop :=
  if cookie.dummy then cookie.callbackList = []
  else Paired created cookie.requestCache cookie.callbackList

/-- `Eval` returns to the `rollout()` that created the callback, or to a failed
callback that still has paired vectors to send. -/
def Resume.Wf (created : List (Created H)) : Resume H → Prop
  | .rollout _ => True
  | .failureCb cookie requests callbacks =>
      cookie.dummy = false ∧ Paired created requests callbacks

/-- The item `Eval` is pushing is the one its caller created. -/
def Resume.Pushes (created : List (Created H)) (item : RequestItem H) : Resume H → Prop
  | .rollout rid => created[item.callback]? = some ⟨item.history, rid⟩
  | .failureCb _ _ _ => Registered created item.history item.callback

/-- What a thread carries is in order. -/
def Pc.Wf (cfg : EvalConfig) (created : List (Created H)) : Pc H V → Prop
  | .evalWait item resume => resume.Wf created ∧ resume.Pushes created item
  | .evalPush item resume => resume.Wf created ∧ resume.Pushes created item
  | .evalNotify resume => resume.Wf created
  | .fetchNotify _ fetch requests callbacks =>
      Paired created requests callbacks ∧ callbacks.length = fetch
  | .send _ requests callbacks => Paired created requests callbacks
  | .sendSync _ requests callbacks =>
      cfg.useAsynRequest = false ∧ Paired created requests callbacks
  | .invokeSync _ _ _ => cfg.useAsynRequest = false
  | .settleSync _ _ _ => cfg.useAsynRequest = false
  | .inFlight cookie => cookie.Wf created
  | .unsettle cookie _ => cookie.Wf created
  | .resend cookie requests callbacks =>
      cookie.dummy = false ∧ Paired created requests callbacks
  | _ => True

/-- Whoever pushes it, the item's callback is registered for the item's
history. -/
theorem Resume.Pushes.registered {created : List (Created H)} {item : RequestItem H}
    {resume : Resume H} (h : resume.Pushes created item) :
    Registered created item.history item.callback := by
  cases resume with
  | rollout rid => exact ⟨rid, h⟩
  | failureCb => exact h

/-- Creating a callback disturbs nobody that `Eval` returns to. -/
theorem Resume.Wf.append {created : List (Created H)} {resume : Resume H}
    (more : List (Created H)) (h : resume.Wf created) : resume.Wf (created ++ more) := by
  cases resume with
  | rollout => trivial
  | failureCb => exact ⟨h.1, h.2.append more⟩

theorem Resume.Pushes.append {created : List (Created H)} {item : RequestItem H}
    {resume : Resume H} (more : List (Created H)) (h : resume.Pushes created item) :
    resume.Pushes (created ++ more) item := by
  cases resume with
  | rollout => exact getElem?_created_append more h
  | failureCb => exact Registered.append more h

theorem Cookie.Wf.append {created : List (Created H)} {cookie : Cookie H}
    (more : List (Created H)) (h : cookie.Wf created) : cookie.Wf (created ++ more) := by
  cases dummy : cookie.dummy with
  | true => simpa [Cookie.Wf, dummy] using h
  | false => simpa [Cookie.Wf, dummy] using Paired.append more (by simpa [Cookie.Wf, dummy] using h)

/-- Creating a callback disturbs no thread. -/
theorem Pc.Wf.append {cfg : EvalConfig} {created : List (Created H)} {pc : Pc H V}
    (more : List (Created H)) (h : pc.Wf cfg created) : pc.Wf cfg (created ++ more) := by
  cases pc with
  | evalWait | evalPush => exact ⟨h.1.append more, h.2.append more⟩
  | evalNotify => exact Resume.Wf.append more h
  | fetchNotify => exact ⟨h.1.append more, h.2⟩
  | send => exact Paired.append more h
  | sendSync | resend => exact ⟨h.1, h.2.append more⟩
  | inFlight | unsettle => exact Cookie.Wf.append more h
  | _ => exact h

theorem Fires.created_append [Inhabited H] {cfg : EvalConfig} {sh sh' : Shared H V}
    {pc pc' : Pc H V} {choice : Choice H V} {new : List (Pc H V)}
    (h : Fires cfg sh pc choice sh' pc' new) : ∃ more, sh'.created = sh.created ++ more := by
  cases h with
  | evaluate => exact ⟨_, rfl⟩
  | record => exact ⟨[], by simp [Shared.record_eq]⟩
  | _ => exact ⟨[], by simp⟩

/-! ## Invariance

The queue and all threads. -/

section Invariance

variable [Inhabited H] {cfg : EvalConfig} {s t : Pool (Shared H V) (Pc H V)}
variable {l : ℕ × Choice H V} {ls : List (ℕ × Choice H V)}

/-- Everything in the queue is registered, and every thread is well formed.
Nothing is asked of the server for this. -/
structure PairingInv (cfg : EvalConfig) (s : Pool (Shared H V) (Pc H V)) : Prop where
  queued : ∀ item ∈ s.shared.sendQueue,
    Registered s.shared.created item.history item.callback
  threads : ∀ pc ∈ s.threads, pc.Wf cfg s.shared.created

/-- The moving thread and the threads it starts stay well formed. -/
theorem wf_moved {sh sh' : Shared H V} {pc pc' : Pc H V} {choice : Choice H V}
    {new : List (Pc H V)} (h : Fires cfg sh pc choice sh' pc' new)
    (queued : ∀ item ∈ sh.sendQueue, Registered sh.created item.history item.callback)
    (hpc : pc.Wf cfg sh.created) :
    pc'.Wf cfg sh'.created ∧ ∀ q ∈ new, q.Wf cfg sh'.created := by
  cases h with
  | evaluate rid history => simp [Pc.Wf, Resume.Wf, Resume.Pushes]
  | takeSlot | invokeSync | settleSync | fail | unsettle => exact ⟨hpc, by simp⟩
  | push item resume | freeSlotsAsyn | replySync => exact ⟨hpc.1, by simp⟩
  | pushed resume =>
      cases resume with
      | rollout => simp [Resume.pc, Pc.Wf]
      | failureCb => exact ⟨hpc, by simp⟩
  | acceptDummy => simp [Pc.Wf, Cookie.Wf]
  | pop sender fetch requests callbacks queue popped =>
      obtain ⟨hle, rfl, rfl, rfl⟩ := popItems_eq_some popped
      have taken : Paired sh.created ((sh.sendQueue.take fetch).map (·.history))
          ((sh.sendQueue.take fetch).map (·.callback)) :=
        paired_of_items fun item hitem => queued item (List.mem_of_mem_take hitem)
      exact ⟨⟨taken, by simpa using hle⟩, by simp⟩
  | freeSlotsSync sender fetch requests callbacks sync => exact ⟨⟨sync, hpc.1⟩, by simp⟩
  | accept => exact ⟨trivial, by simpa [Cookie.Wf, Pc.Wf] using hpc⟩
  | failBatch cookie real => exact ⟨⟨real, by simpa [Pc.Wf, Cookie.Wf, real] using hpc⟩, by simp⟩
  | resend cookie history requests callback callbacks =>
      obtain ⟨real, paired⟩ := hpc
      obtain ⟨head, tail⟩ := List.forall₂_cons.mp paired
      exact ⟨⟨⟨real, tail⟩, head⟩, by simp⟩
  | _ => simp [Pc.Wf]

/-- Each step keeps the pairs: the thread that moves by its transition, the
others since the registry only grows. -/
theorem pairingInv_step (hs : PairingInv cfg s) (h : (machine cfg).step s l = some t) :
    PairingInv cfg t := by
  constructor
  · obtain ⟨pre, pc, post, choice, sh, pc', new, hthreads, -, -, hstep, rfl⟩ :=
      Program.step_cases h
    have hpc := hs.threads pc (by simp [hthreads])
    have queued := hs.queued
    cases fires_of_program hstep with
    | evaluate rid history =>
        exact fun item hitem => (queued item hitem).append _
    | push item resume =>
        intro other hother
        rcases List.mem_append.mp hother with hother | hother
        · exact queued other hother
        · rw [List.mem_singleton.mp hother]
          exact hpc.2.registered
    | pop sender fetch requests callbacks queue popped =>
        obtain ⟨-, -, -, rfl⟩ := popItems_eq_some popped
        exact fun item hitem => queued item (List.mem_of_mem_drop hitem)
    | record => simpa [Shared.record_eq] using queued
    | _ => exact queued
  · refine Pool.forall_threads (fun sh pc => Pc.Wf cfg sh.created pc) ?_ h hs.threads
    intro pc choice sh pc' new _ _ hstep hpc
    have fires := fires_of_program hstep
    refine ⟨wf_moved fires hs.queued hpc, fun q _ hq => ?_⟩
    obtain ⟨more, hmore⟩ := fires.created_append
    rw [hmore]
    exact hq.append more

omit [Inhabited H] in
/-- At the start nobody carries anything. -/
theorem pairingInv_start : PairingInv cfg (start cfg : Pool (Shared H V) (Pc H V)) := by
  refine ⟨by simp [start, Shared.start], ?_⟩
  intro pc hpc
  simp only [start, List.mem_append, List.mem_map, List.mem_range, List.mem_replicate] at hpc
  obtain ⟨sender, -, rfl⟩ | ⟨-, rfl⟩ := hpc <;> trivial

end Invariance

/-! ## The server's replies

From an answer in order to each callback of the batch. -/

/-- The replies at hand answer the callbacks at hand, index by index. -/
def Answers (created : List (Created H)) : List (Reply H V) → List ℕ → Prop
  | _, [] => True
  | [], _ :: _ => False
  | reply :: replies, callback :: callbacks =>
      Registered created reply.computedFor callback ∧ Answers created replies callbacks

/-- No callbacks are left to answer. -/
@[simp] theorem answers_nil (created : List (Created H)) (replies : List (Reply H V)) :
    Answers created replies [] := by cases replies <;> trivial

theorem Answers.append {created : List (Created H)} (more : List (Created H)) :
    ∀ {replies : List (Reply H V)} {callbacks : List ℕ},
      Answers created replies callbacks → Answers (created ++ more) replies callbacks
  | _, [], _ => answers_nil _ _
  | _ :: _, _ :: _, h => ⟨h.1.append more, h.2.append more⟩

/-- Replies in the order of paired requests answer the callbacks. -/
theorem Paired.answers {created : List (Created H)} {requests : List H}
    {callbacks : List ℕ} (h : Paired created requests callbacks)
    {replies : List (Reply H V)} (inOrder : replies.map (·.computedFor) = requests) :
    Answers created replies callbacks := by
  induction h generalizing replies with
  | nil => exact answers_nil _ _
  | cons head _ ih =>
      cases replies with
      | nil => simp at inOrder
      | cons reply replies =>
          obtain ⟨rfl, rest⟩ := List.cons_eq_cons.mp inOrder
          exact ⟨head, ih rest⟩

/-- The replies a thread goes through answer the callbacks it goes through. -/
def Pc.InOrder (created : List (Created H)) : Pc H V → Prop
  | .invokeSync _ replies callbacks => Answers created replies callbacks
  | .settleSync _ replies callbacks => Answers created replies callbacks
  | .invoke _ replies callbacks => Answers created replies callbacks
  | .settle _ replies callbacks => Answers created replies callbacks
  | _ => True

section Replies

variable [Inhabited H] {cfg : EvalConfig} {s t : Pool (Shared H V) (Pc H V)}
variable {l : ℕ × Choice H V} {ls : List (ℕ × Choice H V)}

/-- Replies are in order, and so was everything invoked.  The first holds
because the server keeps its promise when it answers, and a thread takes replies
and callbacks off the two lists together. -/
structure ReplyInv (cfg : EvalConfig) (s : Pool (Shared H V) (Pc H V)) : Prop where
  pairing : PairingInv cfg s
  threads : ∀ pc ∈ s.threads, pc.InOrder s.shared.created
  invoked : ∀ p ∈ s.shared.invoked, Registered s.shared.created p.2.computedFor p.1

omit [Inhabited H] in
theorem Pc.InOrder.append {created : List (Created H)} {pc : Pc H V}
    (more : List (Created H)) (h : pc.InOrder created) : pc.InOrder (created ++ more) := by
  cases pc with
  | invokeSync | settleSync | invoke | settle => exact Answers.append more h
  | _ => exact h

/-- The moving thread keeps its replies in order. -/
theorem inOrder_moved {sh sh' : Shared H V} {pc pc' : Pc H V} {choice : Choice H V}
    {new : List (Pc H V)} (h : Fires cfg sh pc choice sh' pc' new)
    (wf : pc.Wf cfg sh.created) (hpc : pc.InOrder sh.created)
    (asyn : ∀ cookie replies, pc = .inFlight cookie → choice = .reply replies →
      replies.map (·.computedFor) = cookie.requestCache)
    (sync : ∀ sender requests callbacks replies, pc = .sendSync sender requests callbacks →
      choice = .reply replies → replies.map (·.computedFor) = requests) :
    pc'.InOrder sh'.created ∧ ∀ q ∈ new, q.InOrder sh'.created := by
  cases h with
  | pushed resume => cases resume <;> simp [Resume.pc, Pc.InOrder]
  | replySync sender requests callbacks replies =>
      exact ⟨wf.2.answers (sync _ _ _ _ rfl rfl), by simp⟩
  | invokeSync | invoke => exact ⟨hpc.2, by simp⟩
  | settleSync | settle => exact ⟨hpc, by simp⟩
  | reply cookie replies =>
      refine ⟨?_, by simp⟩
      have inOrder := asyn cookie replies rfl rfl
      cases dummy : cookie.dummy with
      | true =>
          have noCallbacks : cookie.callbackList = [] := by
            simpa [Pc.Wf, Cookie.Wf, dummy] using wf
          simp [Pc.InOrder, noCallbacks]
      | false =>
          have paired : Paired sh.created cookie.requestCache cookie.callbackList := by
            simpa [Pc.Wf, Cookie.Wf, dummy] using wf
          exact paired.answers inOrder
  | _ => simp [Pc.InOrder]

/-- Each step keeps the replies in order, where the server answers in order. -/
theorem replyInv_step (hs : ReplyInv cfg s) (inOrder : RepliesInOrder s l)
    (h : (machine cfg).step s l = some t) : ReplyInv cfg t := by
  refine ⟨pairingInv_step hs.pairing h, ?_, ?_⟩
  · refine Pool.forall_threads (fun sh pc => Pc.InOrder sh.created pc) ?_ h hs.threads
    intro pc choice sh pc' new hpc hchoice hstep good
    have fires := fires_of_program hstep
    refine ⟨inOrder_moved fires (hs.pairing.threads pc (List.mem_of_getElem? hpc)) good ?_ ?_,
      fun q _ hq => ?_⟩
    · rintro cookie replies rfl rfl
      simpa [RepliesInOrder, hpc, hchoice] using inOrder
    · rintro sender requests callbacks replies rfl rfl
      simpa [RepliesInOrder, hpc, hchoice] using inOrder
    · obtain ⟨more, hmore⟩ := fires.created_append
      rw [hmore]
      exact hq.append more
  · obtain ⟨pre, pc, post, choice, sh, pc', new, hthreads, -, -, hstep, rfl⟩ :=
      Program.step_cases h
    have hpc := hs.threads pc (by simp [hthreads])
    have invoked := hs.invoked
    cases fires_of_program hstep with
    | evaluate => exact fun p hp => (invoked p hp).append _
    | invokeSync sender reply replies callback callbacks =>
        intro p hp
        rcases List.mem_append.mp hp with hp | hp
        · exact invoked p hp
        · rw [List.mem_singleton.mp hp]
          exact hpc.1
    | invoke cookie reply replies callback callbacks =>
        intro p hp
        rcases List.mem_append.mp hp with hp | hp
        · exact invoked p hp
        · rw [List.mem_singleton.mp hp]
          exact hpc.1
    | record => simpa [Shared.record_eq] using invoked
    | _ => exact invoked

omit [Inhabited H] in
/-- At the start there are no replies. -/
theorem replyInv_start : ReplyInv cfg (start cfg : Pool (Shared H V) (Pc H V)) := by
  refine ⟨pairingInv_start, ?_, by simp [start, Shared.start]⟩
  intro pc hpc
  simp only [start, List.mem_append, List.mem_map, List.mem_range, List.mem_replicate] at hpc
  obtain ⟨sender, -, rfl⟩ | ⟨-, rfl⟩ := hpc <;> trivial

/-- A request whose batch fails once: `failure_cb` puts it back and the sender
sends it again. -/
def sentAgainRun : List (ℕ × Choice ℕ ℕ) :=
  [(1, .enter), (1, .evaluate 7), (1, .go), (1, .go), (1, .go),
    (0, .go), (0, .go), (0, .go), (0, .go), (0, .go), (0, .accept),
    (2, .fail), (2, .go), (2, .go), (2, .go), (2, .go), (2, .go), (2, .go), (2, .go), (2, .go),
    (0, .go), (0, .go), (0, .go), (0, .go), (0, .go), (0, .accept),
    (3, .reply [⟨5, 7⟩]), (3, .go), (3, .go)]

/-- **Replies reach the leaf that asked.**  In every run of a server that
answers in the order of the requests, each callback that was invoked was created
together with the history its value and policy were computed for, whatever was
fetched, failed and sent again in between. -/
theorem replies_reach_their_leaf (cfg : EvalConfig) (ls : List (ℕ × Choice H V))
    (s : Pool (Shared H V) (Pc H V))
    (inOrder : (machine cfg).Guarded RepliesInOrder (start cfg) ls)
    (run : (machine cfg).exec (start cfg) ls = some s) :
    ∀ p ∈ s.shared.invoked, ∃ rid, s.shared.created[p.1]? = some ⟨p.2.computedFor, rid⟩ :=
  ((machine cfg).invariant replyInv_step replyInv_start inOrder run).invoked

/-- A batch that failed, was sent again and was answered: its callback gets the
result for its own history, though it has gone through the queue twice. -/
theorem replies_reach_their_leaf_sent_again :
    ∃ s, (machine (H := ℕ) (V := ℕ) smallConfig).exec (start smallConfig) sentAgainRun =
        some s ∧
      ∀ p ∈ s.shared.invoked, ∃ rid, s.shared.created[p.1]? = some ⟨p.2.computedFor, rid⟩ := by
  obtain ⟨s, run⟩ := Option.isSome_iff_exists.mp (by decide :
    ((machine (H := ℕ) (V := ℕ) smallConfig).exec (start smallConfig) sentAgainRun).isSome)
  exact ⟨s, run, replies_reach_their_leaf smallConfig _ s (by decide) run⟩

end Replies

end EstarGo.Client
