import EstarGo.Evaluator.Conservation
import EstarGo.Lib.Projection

/-!
# The shutdown of the client

The destructor of `PolicyAndValueEvaluatorClient` calls `Stop`: it sets
`eval_terminate`, pushes requests of its own until one stays in the queue, and
joins the senders.  A sender looks at `eval_terminate` at the head of its loop;
past the loop it waits until all its permits are back and deletes its
`remain_can_send`, to which the cookie of every batch has a pointer.  Then the
destructor deletes `full_` and `empty_`, which a failed callback uses.

## Main definitions

* `program`, `machine`, `start` — the client's program with these control
  points.
* `seen` — the client within.
* `Pc.Reaches` — the control points from which a thread reaches a sender's
  semaphore.
* `sends` — the batches that a sender hands to the server.

## Main results

* `closing_step`: a step is a step of the client, or the client does not see it.
* `unused_of_ended`: nothing reaches the semaphore of a sender that has ended.
* `stopped_of_run`: what is left of the client when `Stop` has joined the
  senders.
* `batches_after_stop`: how much is sent once `eval_terminate` is set.

## Design notes

**The client within.**  To whoever does not see the new control points, a run is
a run of the client, so the client's laws hold on, and they say what the
deletions rest on: a permit that is with nobody is in its semaphore.

**The owner.**  The thread that destroys the client is one thread more, idle
until then.  Its `Stop` has a number among the calls of `rollout()`, and the
no-op callbacks of its requests have theirs among the created ones.

**Left out.**  The loop that empties the queue at the end of `Stop` and the
deletions after it are left out: the statements are about the state before them.
-/

namespace EstarGo.Closing

open Verif Client

variable {H V : Type}

/-- The client's members, `eval_terminate`, and the senders whose threads have
ended and have deleted their semaphore.  A deleted semaphore keeps its count
here, and what is proved is that nobody looks at it. -/
structure Shared (H V : Type) where
  client : Client.Shared H V
  evalTerminate : Bool
  ended : List ℕ

/-- Control points: those of the client, those of a sender outside of its loop,
and those of `Stop`. -/
inductive Pc (H V : Type) where
  /-- In the client; for a sender, inside its loop. -/
  | client (pc : Client.Pc H V)
  /-- `ProcessEval`: at `while (!eval_terminate)`, at
  `while (remain_can_send->get() < once_total_send)`, and at its end. -/
  | top (sender : ℕ)
  | drain (sender : ℕ)
  | ended (sender : ℕ)
  /-- The thread that will destroy the client. -/
  | owner
  /-- `Stop`: at `while (send_queue_.size() <= 0)`, in its `Eval`, and with this
  many senders joined. -/
  | refill (rid : ℕ)
  | refilling (pc : Client.Pc H V)
  | join (rid joined : ℕ)
  deriving DecidableEq

/-- Where a thread of the client goes on from: a sender looks at
`eval_terminate` first. -/
def Pc.ofClient : Client.Pc H V → Pc H V
  | .loop sender => .top sender
  | pc => .client pc

/-- Where `Stop` goes on from within its `Eval`. -/
def Pc.ofEval : Client.Pc H V → Pc H V
  | .rollout rid => .refill rid
  | pc => .refilling pc

/-- One step of one thread.  A sender that comes back to the head of its loop
looks at `eval_terminate` first; inside of the loop, and for all other threads,
a step is one of the client's. -/
def program [Inhabited H] (cfg : EvalConfig) : Program (Shared H V) (Pc H V) (Choice H V)
  | sh, .client pc, choice =>
      (Client.program cfg sh.client pc choice).map fun r =>
        ({ sh with client := r.1 }, .ofClient r.2.1, r.2.2.map .client)
  -- `ProcessEval`
  | sh, .top sender, .go =>
      some (sh, if sh.evalTerminate then .drain sender else .client (.loop sender), [])
  | sh, .drain sender, .go =>
      if (sh.client.remainCanSend sender).get < cfg.asynOnceSend then some (sh, .drain sender, [])
      else some ({ sh with ended := sh.ended ++ [sender] }, .ended sender, [])
  -- `Stop`
  | sh, .owner, .enter =>
      some ({ sh with client := { sh.client with rollouts := sh.client.rollouts + 1 }
                      evalTerminate := true }, .refill sh.client.rollouts, [])
  | sh, .refill rid, .go =>
      if sh.client.sendQueue.length ≤ 0 then
        some ({ sh with client := { sh.client with
                  created := sh.client.created ++ [⟨default, rid⟩] } },
          .refilling (.evalWait ⟨default, sh.client.created.length⟩ (.rollout rid)), [])
      else some (sh, .join rid 0, [])
  | sh, .refilling pc, .go =>
      (Client.program cfg sh.client pc .go).map fun r =>
        ({ sh with client := r.1 }, .ofEval r.2.1, r.2.2.map .client)
  | sh, .join rid joined, .go =>
      if joined < cfg.serverSendThread ∧ joined ∈ sh.ended then
        some (sh, .join rid (joined + 1), [])
      else none
  | _, _, _ => none

/-- All interleavings. -/
def machine [Inhabited H] (cfg : EvalConfig) :
    Machine (Pool (Shared H V) (Pc H V)) (ℕ × Choice H V) :=
  (program cfg).machine

/-- The client after its constructor. -/
def start (cfg : EvalConfig) : Pool (Shared H V) (Pc H V) where
  shared := ⟨Client.Shared.start cfg, false, []⟩
  threads := (List.range cfg.serverSendThread).map .top ++
    (List.replicate cfg.searchThreads (.client .idle) ++ [.owner])

/-! ## The transitions

The inversion of `program`. -/

/-- What a step can be, guards included. -/
inductive Closes [Inhabited H] (cfg : EvalConfig) : Shared H V → Pc H V → Choice H V →
    Shared H V → Pc H V → List (Pc H V) → Prop
  | client (sh pc choice client pc' new)
      (moves : Client.program cfg sh.client pc choice = some (client, pc', new)) :
      Closes cfg sh (.client pc) choice { sh with client := client } (.ofClient pc')
        (new.map .client)
  | again (sh sender) (goesOn : sh.evalTerminate = false) :
      Closes cfg sh (.top sender) .go sh (.client (.loop sender)) []
  | leave (sh sender) (done : sh.evalTerminate = true) :
      Closes cfg sh (.top sender) .go sh (.drain sender) []
  | missing (sh sender) (few : (sh.client.remainCanSend sender).count < cfg.asynOnceSend) :
      Closes cfg sh (.drain sender) .go sh (.drain sender) []
  | finish (sh sender) (all : cfg.asynOnceSend ≤ (sh.client.remainCanSend sender).count) :
      Closes cfg sh (.drain sender) .go { sh with ended := sh.ended ++ [sender] }
        (.ended sender) []
  | stop (sh) : Closes cfg sh .owner .enter
      { sh with client := { sh.client with rollouts := sh.client.rollouts + 1 }
                evalTerminate := true } (.refill sh.client.rollouts) []
  | refill (sh rid) : Closes cfg sh (.refill rid) .go
      { sh with client := { sh.client with created := sh.client.created ++ [⟨default, rid⟩] } }
      (.refilling (.evalWait ⟨default, sh.client.created.length⟩ (.rollout rid))) []
  | filled (sh rid) : Closes cfg sh (.refill rid) .go sh (.join rid 0) []
  | eval (sh pc client pc' new)
      (moves : Client.program cfg sh.client pc .go = some (client, pc', new)) :
      Closes cfg sh (.refilling pc) .go { sh with client := client } (.ofEval pc')
        (new.map .client)
  | join (sh rid joined) (done : joined ∈ sh.ended) :
      Closes cfg sh (.join rid joined) .go sh (.join rid (joined + 1)) []

/-- Every step is one of them. -/
theorem closes_of_program [Inhabited H] {cfg : EvalConfig} {sh sh' : Shared H V}
    {pc pc' : Pc H V} {choice : Choice H V} {new : List (Pc H V)}
    (h : program cfg sh pc choice = some (sh', pc', new)) :
    Closes cfg sh pc choice sh' pc' new := by
  unfold program at h
  split at h
  · obtain ⟨⟨client, qc, qs⟩, moves, h⟩ := Option.map_eq_some_iff.mp h
    cases h
    exact .client _ _ _ _ _ _ moves
  · cases h
    split
    · exact .leave _ _ (by assumption)
    · exact .again _ _ (by simpa using ‹¬sh.evalTerminate = true›)
  · split at h <;> cases h
    · exact .missing _ _ (by assumption)
    · exact .finish _ _ (Nat.le_of_not_lt (by assumption))
  · cases h
    exact .stop _
  · split at h <;> cases h
    · exact .refill _ _
    · exact .filled _ _
  · obtain ⟨⟨client, qc, qs⟩, moves, h⟩ := Option.map_eq_some_iff.mp h
    cases h
    exact .eval _ _ _ _ _ moves
  · split at h <;> cases h
    exact .join _ _ _ (by tauto)
  · cases h

/-! ## As seen from the client

Forgetting the new control points. -/

/-- A control point as the client has it.  A sender past its loop seems to stand
at the head of it, and `Stop` seems to be one more `rollout()`. -/
def Pc.seen : Pc H V → Client.Pc H V
  | .client pc | .refilling pc => pc
  | .top sender | .drain sender | .ended sender => .loop sender
  | .owner => .idle
  | .refill rid | .join rid _ => .rollout rid

/-- What goes on in the client is seen as it is. -/
@[simp] theorem Pc.seen_ofClient (pc : Client.Pc H V) : (Pc.ofClient pc).seen = pc := by
  cases pc <;> rfl

@[simp] theorem Pc.seen_ofEval (pc : Client.Pc H V) : (Pc.ofEval pc).seen = pc := by
  cases pc <;> rfl

/-- The client within. -/
def seen (s : Pool (Shared H V) (Pc H V)) : Pool (Client.Shared H V) (Client.Pc H V) :=
  s.map Shared.client Pc.seen

/-- Only the sender itself takes from its semaphore. -/
theorem count_le_of_step [Inhabited H] {cfg : EvalConfig}
    {s t : Pool (Client.Shared H V) (Client.Pc H V)} {l : ℕ × Choice H V} {sender : ℕ}
    (h : (Client.machine cfg).step s l = some t)
    (other : s.threads[l.1]? ≠ some (.loop sender)) :
    (s.shared.remainCanSend sender).count ≤ (t.shared.remainCanSend sender).count := by
  obtain ⟨pre, pc, post, choice, sh, pc', new, -, hpc, -, hstep, rfl⟩ := Program.step_cases h
  cases fires_of_program hstep with
  | permit sender' sem =>
      have ne : sender ≠ sender' := by
        rintro rfl
        exact other hpc
      simp only [Function.update_of_ne ne, le_refl]
  | release sender' =>
      by_cases same : sender = sender'
      · subst same
        simp only [Function.update_self, Semaphore.notify_count]
        exact Nat.le_add_right _ 1
      · simp only [Function.update_of_ne same, le_refl]
  | record => simp [Client.Shared.record_eq]
  | _ => exact le_rfl

section Runs

variable [Inhabited H] {cfg : EvalConfig} {s t : Pool (Shared H V) (Pc H V)}
variable {l : ℕ × Choice H V}

/-- **A step is a step of the client, or the client does not see it.**  So the
laws of the client, which each of its steps keeps, need no second proof here. -/
theorem closing_step (h : (machine cfg).step s l = some t) :
    seen t = seen s ∨ ∃ pc choice, s.threads[l.1]? = some pc ∧
      (choice = l.2 ∨ ∃ history, choice = .evaluate history) ∧
      (Client.machine cfg).step (seen s) (l.1, choice) = some (seen t) := by
  refine Program.map_step Shared.client Pc.seen
    (fun _ a b => b = a ∨ ∃ history, b = .evaluate history) ?_ h
  intro sh pc choice sh' pc' new hstep
  have same (new : List (Client.Pc H V)) : (new.map Pc.client).map Pc.seen = new := by
    rw [List.map_map]
    exact List.map_id new
  cases closes_of_program hstep with
  | client pc choice client pc' new moves =>
      refine .inr ⟨_, .inl rfl, ?_⟩
      rw [Pc.seen_ofClient, same]
      exact moves
  | eval pc client pc' new moves =>
      refine .inr ⟨_, .inl rfl, ?_⟩
      rw [Pc.seen_ofEval, same]
      exact moves
  | again | leave | missing | finish | filled | join => exact .inl ⟨rfl, rfl, rfl⟩
  | stop => exact .inr ⟨_, .inl rfl, rfl⟩
  | refill => exact .inr ⟨_, .inr ⟨default, rfl⟩, rfl⟩

/-! ## The invariant

The client's laws, and where the permits of ended senders are. -/

/-- The settings of the client within, where the owner is one more search
thread.  No other setting is touched. -/
def withOwner (cfg : EvalConfig) : EvalConfig :=
  { cfg with searchThreads := cfg.searchThreads + 1 }

omit [Inhabited H] in
/-- The client within starts as a client does. -/
theorem seen_start :
    seen (start cfg : Pool (Shared H V) (Pc H V)) = Client.start (withOwner cfg) := by
  simp only [seen, Pool.map, start, Client.start, List.map_append, List.map_map,
    List.map_replicate, List.map_cons, List.map_nil, withOwner, List.replicate_succ']
  rfl

/-- The server's promise at a step. -/
def EnoughReplies (s : Pool (Shared H V) (Pc H V)) (l : ℕ × Choice H V) : Prop :=
  Client.EnoughReplies (seen s) l

omit [Inhabited H] in
instance : Decidable (EnoughReplies s l) := inferInstanceAs (Decidable (Client.EnoughReplies _ _))

/-- In the `Eval` of a `rollout()` or of `Stop`. -/
def InEval : Client.Pc H V → Prop
  | .evalWait _ (.rollout _) | .evalPush _ (.rollout _) | .evalNotify (.rollout _) => True
  | _ => False

/-- What a control point of the shutdown rests on: `Stop` is in an `Eval`, or it
has joined the senders below a number, and these have ended. -/
def Pc.Good (sh : Shared H V) : Pc H V → Prop
  | .refilling pc => InEval pc
  | .join _ joined => ∀ sender < joined, sender ∈ sh.ended
  | _ => True

/-- The laws of the client, and that the semaphore of a sender that has ended,
or was never there, is full. -/
structure ClosingInv (cfg : EvalConfig) (s : Pool (Shared H V) (Pc H V)) : Prop where
  drop : DropInv (withOwner cfg) (seen s)
  good : ∀ pc ∈ s.threads, pc.Good s.shared
  gone : ∀ sender ∈ s.shared.ended, .ended sender ∈ s.threads
  returned : ∀ sender, sender ∈ s.shared.ended ∨ cfg.serverSendThread ≤ sender →
    cfg.asynOnceSend ≤ (s.shared.client.remainCanSend sender).count

/-- The client's laws hold on, step by step. -/
theorem dropInv_closing (hs : DropInv (withOwner cfg) (seen s)) (enough : EnoughReplies s l)
    (h : (machine cfg).step s l = some t) : DropInv (withOwner cfg) (seen t) := by
  rcases closing_step h with same | ⟨pc, choice, -, rfl | ⟨history, rfl⟩, hstep⟩
  · rwa [same]
  · exact dropInv_step hs enough hstep
  · refine dropInv_step hs ?_ hstep
    unfold Client.EnoughReplies
    split <;> trivial

/-- A thread that is over stays. -/
theorem ended_mem_of_step (h : (machine cfg).step s l = some t) {sender : ℕ}
    (hs : .ended sender ∈ s.threads) : .ended sender ∈ t.threads := by
  obtain ⟨pre, pc, post, choice, sh, pc', new, hthreads, -, -, hstep, rfl⟩ :=
    Program.step_cases h
  rw [hthreads, List.mem_append, List.mem_cons] at hs
  rcases hs with hs | rfl | hs
  · simp [hs]
  · cases closes_of_program hstep
  · simp [hs]

/-- A sender ends with all its permits in its semaphore. -/
theorem ended_of_step (h : (machine cfg).step s l = some t) {sender : ℕ}
    (hs : sender ∈ t.shared.ended) : sender ∈ s.shared.ended ∨
      (.ended sender ∈ t.threads ∧ seen t = seen s ∧
        cfg.asynOnceSend ≤ (s.shared.client.remainCanSend sender).count) := by
  have view := closing_step h
  obtain ⟨pre, pc, post, choice, sh, pc', new, hthreads, -, -, hstep, rfl⟩ :=
    Program.step_cases h
  cases closes_of_program hstep with
  | finish sender' all =>
      rcases List.mem_append.mp hs with hs | hs
      · exact .inl hs
      · obtain rfl := List.mem_singleton.mp hs
        refine .inr ⟨by simp, ?_, all⟩
        obtain ⟨sh, threads⟩ := s
        simp only at hthreads
        subst hthreads
        simp [seen, Pool.map, Pc.seen]
  | _ => exact .inl hs

omit [Inhabited H] in
/-- More senders that have ended do no harm. -/
theorem Pc.Good.mono {sh sh' : Shared H V} {pc : Pc H V} (more : sh.ended ⊆ sh'.ended)
    (h : pc.Good sh) : pc.Good sh' := by
  cases pc with
  | join _ joined => exact fun sender hsender => more (h sender hsender)
  | _ => exact h

omit [Inhabited H] in
/-- Whoever goes on in the client rests on nothing. -/
theorem good_ofClient (sh : Shared H V) (pc : Client.Pc H V) : (Pc.ofClient pc).Good sh := by
  cases pc <;> trivial

/-- The `Eval` of `Stop` goes through its three stages. -/
theorem good_ofEval {csh csh' : Client.Shared H V} {pc pc' : Client.Pc H V}
    {new : List (Client.Pc H V)} (sh : Shared H V) (inEval : InEval pc)
    (h : Client.program cfg csh pc .go = some (csh', pc', new)) : (Pc.ofEval pc').Good sh := by
  cases fires_of_program h with
  | takeSlot item resume | push item resume =>
      cases resume with
      | rollout rid => trivial
      | failureCb => exact inEval.elim
  | pushed resume =>
      cases resume with
      | rollout rid => trivial
      | failureCb => exact inEval.elim
  | _ => exact inEval.elim

/-- Each step keeps what the control points rest on. -/
theorem good_step (hs : ∀ pc ∈ s.threads, pc.Good s.shared)
    (h : (machine cfg).step s l = some t) : ∀ pc ∈ t.threads, pc.Good t.shared := by
  refine Pool.forall_threads (fun sh pc => Pc.Good sh pc) ?_ h hs
  intro pc choice sh pc' new hpc hchoice hstep good
  cases closes_of_program hstep with
  | client pc choice client pc' new moves =>
      refine ⟨⟨good_ofClient _ _, ?_⟩, fun _ _ => id⟩
      exact List.forall_mem_map.mpr fun _ _ => trivial
  | eval pc client pc' new moves =>
      refine ⟨⟨good_ofEval _ good moves, ?_⟩, fun _ _ => id⟩
      exact List.forall_mem_map.mpr fun _ _ => trivial
  | finish sender =>
      refine ⟨⟨trivial, by simp⟩, fun _ _ => Pc.Good.mono ?_⟩
      exact List.subset_append_left _ _
  | filled rid => exact ⟨⟨fun sender hsender => absurd hsender (by omega), by simp⟩, fun _ _ => id⟩
  | join rid joined done =>
      refine ⟨⟨fun sender hsender => ?_, by simp⟩, fun _ _ => id⟩
      rcases Nat.lt_succ_iff_lt_or_eq.mp hsender with earlier | rfl
      · exact good sender earlier
      · exact done
  | _ => exact ⟨⟨trivial, by simp⟩, fun _ _ => id⟩

omit [Inhabited H] in
/-- The thread of a sender that has ended is the only one of this sender. -/
theorem ClosingInv.isSender_eq_zero (hs : ClosingInv cfg s) {sender : ℕ}
    (ended : sender ∈ s.shared.ended) {pc : Pc H V} (hpc : pc ∈ s.threads)
    (ne : pc ≠ .ended sender) : pc.seen.isSender sender = 0 := by
  have two := Pool.add_le_total (fun pc => pc.seen.isSender sender) hpc
    (hs.gone sender ended) ne
  have own : (Pc.ended sender : Pc H V).seen.isSender sender = 1 := if_pos rfl
  have one : Pool.total (fun pc => pc.seen.isSender sender) s ≤ 1 := by
    have present := hs.drop.present sender
    rw [seen, Pool.total_map] at present
    rw [present]
    split <;> omega
  omega

/-- A sender that has ended, or was never there, is not at the head of its
loop. -/
theorem not_loop_of_step (hs : ClosingInv cfg s) (h : (machine cfg).step s l = some t) {sender : ℕ}
    (out : sender ∈ s.shared.ended ∨ cfg.serverSendThread ≤ sender) :
    (seen s).threads[l.1]? ≠ some (.loop sender) := by
  intro loop
  rcases out with ended | none
  · -- its own thread is over, and there is one thread for each sender
    obtain ⟨pre, pc, post, choice, sh, pc', new, hthreads, hpc, -, hstep, rfl⟩ :=
      Program.step_cases h
    have ne : pc ≠ .ended sender := by
      rintro rfl
      cases closes_of_program hstep
    have sends : pc.seen = .loop sender := by
      simpa only [seen, Pool.map, List.getElem?_map, hpc, Option.map_some,
        Option.some.injEq] using loop
    have idle := hs.isSender_eq_zero ended (List.mem_of_getElem? hpc) ne
    simp [sends, Client.Pc.isSender] at idle
  · have lt := lt_of_isSender hs.drop.present (List.mem_of_getElem? loop)
      (show Client.Pc.isSender sender (.loop sender) = 1 by simp [Client.Pc.isSender])
    exact absurd lt (Nat.not_lt_of_ge none)

/-- The permits of a sender that has ended stay in its semaphore. -/
theorem returned_step (hs : ClosingInv cfg s) (h : (machine cfg).step s l = some t) {sender : ℕ}
    (out : sender ∈ t.shared.ended ∨ cfg.serverSendThread ≤ sender) :
    cfg.asynOnceSend ≤ (t.shared.client.remainCanSend sender).count := by
  have cases : (sender ∈ s.shared.ended ∨ cfg.serverSendThread ≤ sender) ∨
      (seen t = seen s ∧ cfg.asynOnceSend ≤ (s.shared.client.remainCanSend sender).count) := by
    rcases out with ended | none
    · exact (ended_of_step h ended).imp Or.inl And.right
    · exact .inl (.inr none)
  have before : cfg.asynOnceSend ≤ ((seen s).shared.remainCanSend sender).count := by
    rcases cases with out | ⟨-, all⟩
    · exact hs.returned sender out
    · exact all
  show _ ≤ ((seen t).shared.remainCanSend sender).count
  rcases cases with out | ⟨same, -⟩
  · rcases closing_step h with same | ⟨-, choice, -, -, hstep⟩
    · rwa [same]
    · exact before.trans (count_le_of_step hstep (not_loop_of_step hs h out))
  · rwa [same]

/-- Each step keeps the laws, where the server keeps its promise. -/
theorem closingInv_step (hs : ClosingInv cfg s) (enough : EnoughReplies s l)
    (h : (machine cfg).step s l = some t) : ClosingInv cfg t where
  drop := dropInv_closing hs.drop enough h
  good := good_step hs.good h
  gone _ hsender := (ended_of_step h hsender).elim
    (fun ended => ended_mem_of_step h (hs.gone _ ended)) And.left
  returned _ out := returned_step hs h out

omit [Inhabited H] in
/-- They hold at the start, when no sender has ended. -/
theorem closingInv_start : ClosingInv cfg (start cfg : Pool (Shared H V) (Pc H V)) where
  drop := by
    rw [seen_start]
    exact dropInv_start
  good := by simp [start, Pc.Good, or_imp, forall_and]
  gone _ hsender := absurd hsender List.not_mem_nil
  returned _ _ := le_rfl

theorem closingInv_run {ls : List (ℕ × Choice H V)}
    (enough : (machine cfg).Guarded EnoughReplies (start cfg) ls)
    (run : (machine cfg).exec (start cfg) ls = some s) : ClosingInv cfg s :=
  (machine cfg).invariant closingInv_step closingInv_start enough run

namespace ClosingInv

omit [Inhabited H] in
/-- No thread has a permit of a sender that has ended, and none is lost. -/
theorem permits_eq_zero (hs : ClosingInv cfg s) (asyn : cfg.useAsynRequest = true) {sender : ℕ}
    (out : sender ∈ s.shared.ended ∨ cfg.serverSendThread ≤ sender) :
    s.shared.client.leaked.count sender = 0 ∧
      ∀ pc ∈ s.threads, pc.seen.permits sender = 0 := by
  have law : (s.shared.client.remainCanSend sender).count + s.shared.client.leaked.count sender +
      Pool.total (Client.Pc.permits sender) (seen s) = cfg.asynOnceSend :=
    hs.drop.permits asyn sender
  have all := hs.returned sender out
  refine ⟨by omega, fun pc hpc => ?_⟩
  have none : Pool.total (Client.Pc.permits sender) (seen s) = 0 := by omega
  exact (Pool.total_eq_zero_iff _).mp none _ (List.mem_map_of_mem hpc)

end ClosingInv

/-! ## The deletions

Who could still use what is deleted. -/

/-- The control points from which a thread reaches the semaphore of a sender:
those of the sender, and those that hold one of its permits. -/
def Pc.Reaches (sender : ℕ) : Pc H V → Prop
  | .client pc => pc.isSender sender ≠ 0 ∨ pc.permits sender ≠ 0
  | .top sender' | .drain sender' => sender' = sender
  | _ => False

/-- **A deleted `remain_can_send` is not used.**  Whatever batches fail, are
sent again or are still to be answered when the client is destroyed: the
semaphore of a sender whose thread has ended holds all the permits of the sender
from then on, and no thread reaches it. -/
theorem unused_of_ended {ls : List (ℕ × Choice H V)} (asyn : cfg.useAsynRequest = true)
    (enough : (machine cfg).Guarded EnoughReplies (start cfg) ls)
    (run : (machine cfg).exec (start cfg) ls = some s) {sender : ℕ}
    (ended : sender ∈ s.shared.ended) :
    (s.shared.client.remainCanSend sender).count = cfg.asynOnceSend ∧
      ∀ pc ∈ s.threads, ¬ pc.Reaches sender := by
  have hs := closingInv_run enough run
  constructor
  · have law : (s.shared.client.remainCanSend sender).count +
        s.shared.client.leaked.count sender + Pool.total (Client.Pc.permits sender) (seen s) =
          cfg.asynOnceSend := hs.drop.permits asyn sender
    have all := hs.returned sender (.inl ended)
    omega
  · intro pc hpc reaches
    have permits := (hs.permits_eq_zero asyn (.inl ended)).2 pc hpc
    cases pc with
    | client pc =>
        have idle := hs.isSender_eq_zero ended hpc (by simp)
        exact reaches.elim (· idle) (· permits)
    | top sender' | drain sender' =>
        have idle := hs.isSender_eq_zero ended hpc (by simp)
        have own : sender' = sender := reaches
        simp [Pc.seen, Client.Pc.isSender, own] at idle
    | _ => exact reaches

/-- The threads that are through with the client, and the search threads and
`Stop`, which use it only through `Eval` and `get_pending()`.  No sender that
goes on and no transport thread is one of them. -/
def Pc.Apart : Pc H V → Prop
  | .top _ | .drain _ => False
  | .refilling pc => InEval pc
  | .client pc =>
      match pc with
      | .idle | .rollout _ | .barrier _ | .getRecordCount _ | .clear .. | .finished | .crashed =>
          True
      | pc => InEval pc
  | _ => True

omit [Inhabited H] in
/-- A thread that is no sender and holds no permit is apart. -/
theorem apart_of_idle {sh : Shared H V} {pc : Pc H V} (good : pc.Good sh)
    (noSender : (∀ sender, pc ≠ .ended sender) → ∀ sender, pc.seen.isSender sender = 0)
    (noPermit : ∀ sender, pc.seen.permits sender = 0) : pc.Apart := by
  cases pc with
  | ended | owner | refill | join => trivial
  | refilling => exact good
  | top sender | drain sender =>
      exact absurd (noSender (by simp) sender) (by simp [Pc.seen, Client.Pc.isSender])
  | client pc =>
      have noSender := noSender (by simp)
      cases pc with
      | idle | rollout | barrier | getRecordCount | clear | finished | crashed => trivial
      | evalWait item resume | evalPush item resume | evalNotify resume =>
          cases resume with
          | rollout => trivial
          | failureCb cookie =>
              exact absurd (noPermit cookie.sender) (by simp [Pc.seen, Client.Pc.permits])
      | inFlight cookie | invoke cookie | settle cookie | record cookie | unsettle cookie
      | resend cookie =>
          exact absurd (noPermit cookie.sender) (by simp [Pc.seen, Client.Pc.permits])
      | release sender => exact absurd (noPermit sender) (by simp [Pc.seen, Client.Pc.permits])
      | loop sender | look sender | sendDummy sender | fetchWait sender | fetchPop sender
      | fetchNotify sender | send sender | sendSync sender | invokeSync sender
      | settleSync sender =>
          exact absurd (noSender sender) (by simp [Pc.seen, Client.Pc.isSender])

omit [Inhabited H] in
/-- What such a thread carries is on its way into the queue. -/
theorem carried_of_apart {pc : Pc H V} (apart : pc.Apart) :
    pc.seen.carried = pc.seen.entering := by
  have inEval {pc : Client.Pc H V} (h : InEval pc) : pc.carried = pc.entering := by
    cases pc with
    | evalWait item resume | evalPush item resume | evalNotify resume =>
        cases resume with
        | rollout => simp [Client.Pc.carried, Client.Pc.inBatch, Client.Pc.inFailure]
        | failureCb => exact h.elim
    | _ => exact h.elim
  cases pc with
  | refilling => exact inEval apart
  | client pc =>
      cases pc with
      | idle | rollout | barrier | getRecordCount | clear | finished | crashed => rfl
      | _ => exact inEval apart
  | top | drain => exact apart.elim
  | _ => rfl

/-- **What `Stop` leaves.**  When `Stop` has joined all senders, no
`begin_evaluate` has thrown: one that throws keeps `Stop` from returning.  No
transport thread will use `full_`, `empty_` or the queue any more.  Each request
ever made has been answered once, or is in the queue that `Stop` throws away, or
is in an `Eval` that has not pushed it yet. -/
theorem stopped_of_run {ls : List (ℕ × Choice H V)} (asyn : cfg.useAsynRequest = true)
    (enough : (machine cfg).Guarded EnoughReplies (start cfg) ls)
    (run : (machine cfg).exec (start cfg) ls = some s) {rid : ℕ}
    (joined : .join rid cfg.serverSendThread ∈ s.threads) :
    s.shared.client.leaked = [] ∧ (∀ pc ∈ s.threads, pc.Apart) ∧
      (s.shared.client.sendQueue.map (·.callback) : Multiset ℕ) +
        (s.shared.client.invoked.map (·.1) : Multiset ℕ) +
        Pool.total (fun pc => pc.seen.entering) s =
          Multiset.range s.shared.client.created.length := by
  have hs := closingInv_run enough run
  have ended : ∀ sender < cfg.serverSendThread, sender ∈ s.shared.ended := hs.good _ joined
  have out (sender : ℕ) : sender ∈ s.shared.ended ∨ cfg.serverSendThread ≤ sender :=
    (Nat.lt_or_ge sender cfg.serverSendThread).imp_left (ended sender)
  have leaked : s.shared.client.leaked = [] := by
    refine List.eq_nil_iff_forall_not_mem.mpr fun sender hsender => ?_
    have none := (hs.permits_eq_zero asyn (out sender)).1
    exact List.count_eq_zero.mp none hsender
  have apart : ∀ pc ∈ s.threads, pc.Apart := by
    intro pc hpc
    refine apart_of_idle (hs.good pc hpc) (fun notEnded sender => ?_)
      fun sender => (hs.permits_eq_zero asyn (out sender)).2 pc hpc
    rcases out sender with ended | absent
    · exact hs.isSender_eq_zero ended hpc (notEnded sender)
    · -- there is no such sender
      have held := Pool.le_total (Client.Pc.isSender sender)
        (show pc.seen ∈ (seen s).threads from List.mem_map_of_mem hpc)
      rw [hs.drop.present sender] at held
      exact Nat.le_zero.mp (held.trans_eq (if_neg (Nat.not_lt_of_ge absent)))
  refine ⟨leaked, apart, ?_⟩
  have callbacks := hs.drop.callbacks
  have lost : (seen s).shared.lost = [] := hs.drop.lost leaked
  have carried : Pool.total Client.Pc.carried (seen s) =
      Pool.total (fun pc => pc.seen.entering) s := by
    rw [seen, Pool.total_map]
    exact congrArg List.sum (List.map_congr_left fun pc hpc => carried_of_apart (apart pc hpc))
  rw [CallbacksBalanced, carried, lost, Multiset.coe_nil, add_zero] at callbacks
  exact callbacks

/-! ## The batches after `eval_terminate`

Each sender is on its way to at most one call, and comes back to the head of its
loop. -/

/-- The sender at a call of `begin_evaluate` or of `evaluate`. -/
def Pc.calling (sender : ℕ) : Pc H V → ℕ
  | .client (.sendDummy sender') | .client (.send sender' ..) | .client (.sendSync sender' ..) =>
      if sender' = sender then 1 else 0
  | _ => 0

/-- Whether a step is a batch of `sender`, real or dummy, handed to the
server. -/
def sends (sender : ℕ) (s : Pool (Shared H V) (Pc H V)) (l : ℕ × Choice H V) : ℕ :=
  (s.threads[l.1]?).elim 0 (Pc.calling sender)

/-- The sender inside its loop, up to that call.  From any of these points it
comes to the call once before it is at the head of its loop again. -/
def Pc.toSend (sender : ℕ) : Pc H V → ℕ
  | .client (.loop sender') | .client (.look sender') | .client (.fetchWait sender')
  | .client (.fetchPop sender' _) | .client (.fetchNotify sender' ..) =>
      if sender' = sender then 1 else 0
  | pc => pc.calling sender

omit [Inhabited H] in
/-- Only a sender is on its way to such a call. -/
theorem toSend_le_isSender (sender : ℕ) (pc : Pc H V) :
    pc.toSend sender ≤ pc.seen.isSender sender := by
  cases pc with
  | client pc => cases pc <;> simp [Pc.toSend, Pc.calling, Pc.seen, Client.Pc.isSender]
  | _ => simp [Pc.toSend, Pc.calling]

theorem isSender_le_step (sender : ℕ) (h : (machine cfg).step s l = some t) :
    Pool.total (Client.Pc.isSender sender) (seen t) ≤
      Pool.total (Client.Pc.isSender sender) (seen s) := by
  rcases closing_step h with same | ⟨pc, choice, -, -, hstep⟩
  · rw [same]
  · refine (Pool.total_le_add (Client.Pc.isSender sender) (fun _ _ => 0) ?_ hstep).choose_spec.2
    intro pc choice sh pc' new hstep
    cases fires_of_program hstep with
    | pushed resume => cases resume <;> simp [Client.Pc.isSender, Resume.pc]
    | _ => simp [Client.Pc.isSender]

/-- `eval_terminate` is never lowered.  Once it is raised, a sender that hands a
batch to the server has no other to send. -/
theorem sends_step (sender : ℕ) (terminate : s.shared.evalTerminate = true)
    (h : (machine cfg).step s l = some t) :
    t.shared.evalTerminate = true ∧
      Pool.total (Pc.toSend sender) t + sends sender s l ≤ Pool.total (Pc.toSend sender) s := by
  obtain ⟨pre, pc, post, choice, sh, pc', new, hthreads, hpc, -, hstep, rfl⟩ :=
    Program.step_cases h
  suffices sh.evalTerminate = true ∧
      pc'.toSend sender + (new.map (Pc.toSend sender)).sum + pc.calling sender ≤
        pc.toSend sender by
    refine ⟨this.1, ?_⟩
    rw [sends, hpc, Option.elim_some]
    simp only [Pool.total, hthreads, List.map_append, List.map_cons, List.sum_append,
      List.sum_cons]
    omega
  cases closes_of_program hstep with
  | client pc choice client pc' new moves =>
      refine ⟨terminate, ?_⟩
      cases fires_of_program moves with
      | takeSlot _ resume | push _ resume | pushed resume =>
          cases resume <;> simp [Pc.ofClient, Resume.pc, Pc.toSend, Pc.calling]
      | _ => simp [Pc.ofClient, Pc.toSend, Pc.calling]
  | eval pc client pc' new moves =>
      refine ⟨terminate, ?_⟩
      cases fires_of_program moves with
      | pushed resume =>
          cases resume <;> simp [Pc.ofEval, Resume.pc, Pc.toSend, Pc.calling]
      | _ => simp [Pc.ofEval, Pc.toSend, Pc.calling]
  | again sender goesOn => simp [terminate] at goesOn
  | stop => exact ⟨rfl, by simp [Pc.toSend, Pc.calling]⟩
  | _ => exact ⟨terminate, by simp [Pc.toSend, Pc.calling]⟩

/-- **Few batches are sent once `eval_terminate` is set.**  From any state in
which `Stop` has set `eval_terminate`, with or without asynchronous requests and
however the run goes on, each sender hands at most one more batch to the server,
dummy batches and calls that throw included; and there are no senders but those
the constructor has started. -/
theorem batches_after_stop {ls : List (ℕ × Choice H V)}
    (run : (machine cfg).exec (start cfg) ls = some s) (terminate : s.shared.evalTerminate = true)
    (ls' : List (ℕ × Choice H V)) (sender : ℕ) :
    (machine cfg).cost (sends sender) s ls' ≤ if sender < cfg.serverSendThread then 1 else 0 := by
  have present : Pool.total (Client.Pc.isSender sender) (seen s) ≤
      if sender < cfg.serverSendThread then 1 else 0 := by
    refine (machine cfg).invariant_of_step
      (I := fun s => Pool.total (Client.Pc.isSender sender) (seen s) ≤
        if sender < cfg.serverSendThread then 1 else 0)
      (fun hs h => (isSender_le_step sender h).trans hs) ?_ run
    rw [seen_start]
    exact (sendersPresent_start sender).le
  calc (machine cfg).cost (sends sender) s ls'
      ≤ Pool.total (Pc.toSend sender) s :=
        (machine cfg).cost_le (I := fun s => s.shared.evalTerminate = true)
          (fun terminate h => sends_step sender terminate h) terminate
    _ ≤ Pool.total (fun pc => pc.seen.isSender sender) s :=
        Pool.total_le_total fun pc _ => toSend_le_isSender sender pc
    _ = Pool.total (Client.Pc.isSender sender) (seen s) := (Pool.total_map _ _ _ s).symm
    _ ≤ _ := present

end Runs

/-! ## A shutdown

One request, sent before `Stop` comes. -/

/-- A request is sent; `Stop` comes, and then the answer. -/
def sentThenStop : List (ℕ × Choice ℕ ℕ) :=
  [(1, .enter), (1, .evaluate 7)] ++ List.replicate 3 (1, .go) ++
    List.replicate 6 (0, .go) ++ [(0, .accept), (2, .enter)]

/-- `Stop` pushes its request, the sender leaves its loop, and the batch is
answered. -/
def stopAndAnswer : List (ℕ × Choice ℕ ℕ) :=
  List.replicate 5 (2, .go) ++ [(0, .go), (0, .go), (3, .reply [⟨5, 7⟩])] ++
    List.replicate 5 (3, .go) ++ [(0, .go), (2, .go)]

/-- The sender has ended, and its permit is back.  The transport thread of the
last batch is through with the semaphore, as its last statement gave the permit
back. -/
theorem unused_of_ended_stopped : ∃ s,
    (machine smallConfig).exec (start smallConfig) (sentThenStop ++ stopAndAnswer) = some s ∧
      s.shared.ended = [0] ∧ (s.shared.client.remainCanSend 0).count = 1 ∧
      ∀ pc ∈ s.threads, ¬ pc.Reaches 0 := by
  have ends : ((machine smallConfig).exec (start smallConfig)
      (sentThenStop ++ stopAndAnswer)).map (fun s => s.shared.ended) = some [0] := by decide
  obtain ⟨s, run, ended⟩ := Option.map_eq_some_iff.mp ends
  exact ⟨s, run, ended, unused_of_ended rfl (by decide) run (by simp [ended])⟩

/-- The owner has joined the sender, and the request of `Stop` is in the
queue. -/
theorem stopped_of_run_answered : ∃ s,
    (machine smallConfig).exec (start smallConfig) (sentThenStop ++ stopAndAnswer) = some s ∧
      s.shared.client.leaked = [] ∧ (∀ pc ∈ s.threads, pc.Apart) ∧
      (s.shared.client.sendQueue.map (·.callback) : Multiset ℕ) +
        (s.shared.client.invoked.map (·.1) : Multiset ℕ) +
        Pool.total (fun pc => pc.seen.entering) s =
          Multiset.range s.shared.client.created.length := by
  have ends : ((machine smallConfig).exec (start smallConfig)
      (sentThenStop ++ stopAndAnswer)).map (fun s => decide (.join 1 1 ∈ s.threads)) =
        some true := by decide
  obtain ⟨s, run, joined⟩ := Option.map_eq_some_iff.mp ends
  exact ⟨s, run, stopped_of_run rfl (by decide) run (of_decide_eq_true joined)⟩

/-- A sender is past its look at `eval_terminate` when `Stop` comes. -/
def stopThenSend : List (ℕ × Choice ℕ ℕ) :=
  List.replicate 5 (2, .go) ++ List.replicate 5 (0, .go) ++ [(0, .accept), (0, .go), (0, .go)]

/-- It sends the request of `Stop`, and no other batch. -/
theorem batches_after_stop_answered : ∃ s,
    (machine smallConfig).exec (start smallConfig) [(0, .go), (2, .enter)] = some s ∧
      (machine smallConfig).cost (sends 0) s stopThenSend = 1 ∧
      ∀ ls' : List (ℕ × Choice ℕ ℕ), (machine smallConfig).cost (sends 0) s ls' ≤ 1 := by
  have ends : ((machine smallConfig).exec (start smallConfig) [(0, .go), (2, .enter)]).map
      (fun s => (s.shared.evalTerminate, (machine smallConfig).cost (sends 0) s stopThenSend)) =
        some (true, 1) := by decide
  obtain ⟨s, run, hs⟩ := Option.map_eq_some_iff.mp ends
  obtain ⟨terminate, one⟩ := Prod.mk.inj hs
  exact ⟨s, run, one, fun ls' => batches_after_stop run terminate ls' 0⟩

end EstarGo.Closing
