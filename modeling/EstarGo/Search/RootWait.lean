import EstarGo.Evaluator.Deadlock
import EstarGo.Lib.Projection
import EstarGo.Search.Drained

/-!
# The wait for the root

Before each iteration `rollout()` waits while the root's request is sent and not
answered.  All search threads may wait so at once, and then only the client and
the server can end it.  As long as some node is awaited, a sender, a transport
thread or a search thread inside `Eval` has a step, under the same slack of
permits that keeps the client from its own circular wait, and with a queue,
permits and senders at all: `queue_size`, `asyn_once_send` and
`server_send_thread` are positive.

## Main definitions

* `Client.resting` — the pool in which all search threads outside `Eval` are
  idle.
* `Joint.Live` — what keeps the client live, at a joint step.

## Main results

* `exists_step_of_unanswered`: a client with an unanswered request has a step.
* `awaited_node_moves`: so has the composition, while a node is awaited.

## Design notes

**Search threads at rest.**  A search thread outside `Eval` holds nothing of the
client's, so it may as well be idle, and the laws of the client carry over to
the pool in which all of them are.  There, no deadlock means that somebody else
moves.

**What it does not say.**  The step is one that the thread and its environment
can take; that the scheduler gives the thread its turn, and that the server
answers what it has been sent, are outside the model.  A search thread inside
`Eval` is one that is about to push the very request the others wait for, or
another; those in the loop of `rollout()` and in the poll behind it are not
needed.
-/

namespace EstarGo

open Verif

/-- A semaphore whose count is not 0 lets a thread pass. -/
theorem Semaphore.exists_wait {sem : Semaphore} (some : sem.count ≠ 0) (max : ℕ) :
    ∃ taken, sem.wait max = Option.some taken := by
  refine Option.ne_none_iff_exists'.mp fun none => ?_
  exact some (Semaphore.wait_eq_none.mp none)

namespace Client

variable {H V : Type}

/-- A search thread that is not in `Eval`, whatever its control point in
`rollout()`.  It may be the one that waits for the node, so its steps are no
help. -/
def Pc.Rests : Pc H V → Prop
  | .idle | .rollout _ | .barrier _ | .getRecordCount _ | .clear .. => True
  | _ => False

/-- A search thread that is not in `Eval`, taken for an idle one.  The laws of
the client do not tell the two apart. -/
def Pc.resting : Pc H V → Pc H V
  | .rollout _ | .barrier _ | .getRecordCount _ | .clear .. => .idle
  | pc => pc

/-- All search threads outside `Eval` at rest. -/
def resting (s : Pool (Shared H V) (Pc H V)) : Pool (Shared H V) (Pc H V) :=
  s.map id Pc.resting

variable {cfg : EvalConfig} {s : Pool (Shared H V) (Pc H V)}

/-- What counts nothing at rest counts the same when all search threads outside
`Eval` are. -/
theorem total_resting {M : Type*} [AddCommMonoid M] {f : Pc H V → M}
    (rollout : ∀ rid, f (.rollout rid) = f .idle) (barrier : ∀ rid, f (.barrier rid) = f .idle)
    (count : ∀ rid, f (.getRecordCount rid) = f .idle)
    (clear : ∀ rid cnt, f (.clear rid cnt) = f .idle) :
    Pool.total f (resting s) = Pool.total f s := by
  rw [resting, Pool.total_map, Pool.total, Pool.total]
  refine congrArg List.sum (List.map_congr_left fun pc _ => ?_)
  cases pc with
  | rollout rid => exact (rollout rid).symm
  | barrier rid => exact (barrier rid).symm
  | getRecordCount rid => exact (count rid).symm
  | clear rid cnt => exact (clear rid cnt).symm
  | _ => rfl

/-- What holds of idle threads holds of those at rest. -/
theorem forall_resting {good : Pc H V → Prop} (idle : good .idle)
    (h : ∀ pc ∈ s.threads, good pc) : ∀ pc ∈ (resting s).threads, good pc := by
  intro pc hpc
  obtain ⟨qc, hqc, rfl⟩ := List.mem_map.mp hpc
  cases qc with
  | rollout | barrier | getRecordCount | clear => exact idle
  | _ => exact h _ hqc

/-- The laws of the client do not look at search threads outside `Eval`. -/
theorem dropInv_resting (hs : DropInv cfg s) : DropInv cfg (resting s) where
  buffer := by
    obtain ⟨slots, items, fifo, faults⟩ := hs.buffer
    refine ⟨?_, ?_, fifo, faults⟩
    · rw [SlotsBalanced, total_resting (fun _ => rfl) (fun _ => rfl) (fun _ => rfl) fun _ _ => rfl]
      exact slots
    · rw [ItemsBalanced, total_resting (fun _ => rfl) (fun _ => rfl) (fun _ => rfl) fun _ _ => rfl]
      exact items
  pairing := ⟨hs.pairing.queued, forall_resting trivial hs.pairing.threads⟩
  callbacks := by
    rw [CallbacksBalanced,
      total_resting (fun _ => rfl) (fun _ => rfl) (fun _ => rfl) fun _ _ => rfl]
    exact hs.callbacks
  permits asyn sender := by
    rw [PermitsBalanced, total_resting (fun _ => rfl) (fun _ => rfl) (fun _ => rfl) fun _ _ => rfl]
    exact hs.permits asyn sender
  present sender := by
    rw [total_resting (fun _ => rfl) (fun _ => rfl) (fun _ => rfl) fun _ _ => rfl]
    exact hs.present sender
  enough := forall_resting trivial hs.enough
  lost := hs.lost
  leaked := hs.leaked

theorem liveInv_resting (hs : LiveInv cfg s) : LiveInv cfg (resting s) := by
  refine ⟨dropInv_resting hs.drop, hs.noLeak, ?_⟩
  obtain ⟨sender, hsender, slack⟩ := hs.slack
  refine ⟨sender, hsender, ?_⟩
  rwa [total_resting (fun _ => rfl) (fun _ => rfl) (fun _ => rfl) fun _ _ => rfl]

/-- A thread that does not wait has a step, for some choice of its
environment. -/
theorem exists_step_of_not_blocked [Inhabited H] {sh : Shared H V} {pc : Pc H V}
    (h : ¬ Blocked cfg sh pc) : ∃ choice r, program cfg sh pc choice = some r := by
  cases pc with
  | idle | finished | crashed => exact absurd trivial h
  | rollout => exact ⟨.finish, _, rfl⟩
  | sendDummy | send => exact ⟨.accept, _, rfl⟩
  | sendSync => exact ⟨.reply [], _, rfl⟩
  | inFlight => exact ⟨.fail, _, rfl⟩
  | getRecordCount | clear | evalPush | evalNotify | fetchNotify | settleSync | settle | record
  | release =>
      exact ⟨.go, _, rfl⟩
  | barrier | look =>
      refine ⟨.go, Option.isSome_iff_exists.mp ?_⟩
      simp only [program]
      split <;> rfl
  | evalWait item resume =>
      obtain ⟨taken, htaken⟩ := Semaphore.exists_wait h 1
      exact ⟨.go, _, congrArg (Option.map _) htaken⟩
  | loop sender =>
      refine ⟨.go, ?_⟩
      cases hasyn : cfg.useAsynRequest with
      | false => exact ⟨_, by simp only [program, hasyn]; rfl⟩
      | true =>
          obtain ⟨taken, htaken⟩ := Semaphore.exists_wait (fun none => h ⟨hasyn, none⟩) 1
          exact ⟨_, by simp only [program, hasyn, if_true, htaken]; rfl⟩
  | fetchWait sender =>
      obtain ⟨taken, htaken⟩ := Semaphore.exists_wait h cfg.batchSize
      exact ⟨.go, _, congrArg (Option.map _) htaken⟩
  | fetchPop sender fetch =>
      refine ⟨.go, Option.isSome_iff_exists.mp ?_⟩
      simp only [program]
      split <;> rfl
  | invokeSync sender replies callbacks =>
      refine ⟨.go, Option.isSome_iff_exists.mp ?_⟩
      cases replies <;> cases callbacks <;> rfl
  | invoke cookie replies callbacks =>
      refine ⟨.go, Option.isSome_iff_exists.mp ?_⟩
      cases replies <;> cases callbacks <;> rfl
  | resend cookie requests callbacks =>
      refine ⟨.go, Option.isSome_iff_exists.mp ?_⟩
      cases requests <;> cases callbacks <;> rfl
  | unsettle cookie remaining =>
      refine ⟨.go, Option.isSome_iff_exists.mp ?_⟩
      cases remaining <;> rfl

/-- **While a request is unanswered, a sender, a transport thread or a search
thread in `Eval` has a step.**  The others are put to rest first, so that the
mover found by the absence of deadlock is none of them. -/
theorem exists_step_of_unanswered [Inhabited H] (queue : 0 < cfg.queueSize) (hs : LiveInv cfg s)
    {c : ℕ} (hc : c < s.shared.created.length) (unanswered : c ∉ answered s) :
    ∃ i pc choice t, s.threads[i]? = some pc ∧ ¬ pc.Rests ∧
      ¬ Blocked cfg s.shared pc ∧ (machine cfg).step s (i, choice) = some t := by
  have live := not_deadlock_of_inv queue (liveInv_resting hs)
  obtain ⟨pc, hpc, moves⟩ : ∃ pc ∈ (resting s).threads, ¬ Blocked cfg s.shared pc := by
    by_contra none
    push Not at none
    exact live ⟨⟨c, hc, unanswered⟩, none⟩
  obtain ⟨qc, hqc, rfl⟩ := List.mem_map.mp hpc
  have same : ¬ qc.Rests ∧ Pc.resting qc = qc := by
    cases qc with
    | idle | rollout | barrier | getRecordCount | clear => exact absurd trivial moves
    | _ => exact ⟨id, rfl⟩
  rw [same.2] at moves
  obtain ⟨choice, r, hr⟩ := exists_step_of_not_blocked moves
  obtain ⟨i, hi⟩ := List.getElem?_of_mem hqc
  refine ⟨i, qc, choice, ⟨r.1, s.threads.set i r.2.1 ++ r.2.2⟩, hi, same.1, moves, ?_⟩
  simp only [machine, Program.machine, hi, Option.bind_some, hr, Option.map_some]

/-- A faithful server gives enough replies. -/
theorem Faithful.enoughReplies {network : Network H V} {l : ℕ × Choice H V}
    (wf : PairingInv cfg s) (h : Faithful network s l) : EnoughReplies s l := by
  unfold EnoughReplies
  split
  · next cookie replies hpc hchoice =>
      have results := h.results hpc rfl hchoice
      have cookieWf : cookie.Wf s.shared.created := wf.threads _ (List.mem_of_getElem? hpc)
      unfold Cookie.Wf at cookieWf
      split at cookieWf
      · simp [cookieWf]
      · exact (cookieWf.length_eq.symm.trans results.length_eq).le
  · next sender requests callbacks replies hpc hchoice =>
      have results := h.results hpc rfl hchoice
      have paired : cfg.useAsynRequest = false ∧ Paired s.shared.created requests callbacks :=
        wf.threads _ (List.mem_of_getElem? hpc)
      exact results.length_eq.symm.trans paired.2.length_eq
  · trivial

/-- Only a search thread in `rollout()` registers a callback. -/
theorem rollout_of_evaluate [Inhabited H] {t : Pool (Shared H V) (Pc H V)} {i : ℕ} {pc : Pc H V}
    {history : H} (hpc : s.threads[i]? = some pc)
    (h : (machine cfg).step s (i, .evaluate history) = some t) : ∃ rid, pc = .rollout rid := by
  obtain ⟨pre, qc, post, choice, sh, pc', new, -, hqc, rfl, hstep, -⟩ := Program.step_cases h
  obtain rfl : pc = qc := Option.some.inj (hpc.symm.trans hqc)
  cases fires_of_program hstep with
  | evaluate rid => exact ⟨rid, rfl⟩

end Client

variable {B K : Type} [Field K] [LinearOrder K] {P : Pachi B} {cfg : Settings K}
variable {ecfg : Client.EvalConfig} {s t : Joint B K}

/-- What keeps the client live, at a joint step: no throw, and slack among the
failures. -/
def Joint.Live (ecfg : Client.EvalConfig) (s : Joint B K) : Joint.Label K → Prop
  | .client l => l.2 ≠ .throw ∧ Client.FailureSlack ecfg s.client l
  | _ => True

instance [DecidableEq K] (ecfg : Client.EvalConfig) (s : Joint B K) :
    DecidablePred (s.Live ecfg)
  | .client l => inferInstanceAs (Decidable (l.2 ≠ .throw ∧ Client.FailureSlack ecfg s.client l))
  | .player _ | .request .. | .callback _ => .isTrue trivial

/-- A live step of a faithful server is a live step of the client. -/
theorem Joint.Live.client {network : Client.Network (List UInt8) (Evaluation K)}
    {l : Joint.Label K} {l' : ℕ × Client.Choice (List UInt8) (Evaluation K)}
    (hs : Linked P cfg ecfg network s) (faithful : s.Faithful network l) (live : s.Live ecfg l)
    (polls : s.Polls l l') : Client.Live ecfg s.client l' := by
  rcases polls with rfl | ⟨history, evaluates⟩ | ⟨go, -⟩
  · exact ⟨Client.Faithful.enoughReplies hs.replies.pairing faithful, live⟩
  all_goals
    obtain ⟨i, choice⟩ := l'
    first | obtain rfl : choice = _ := evaluates | obtain rfl : choice = _ := go
    refine ⟨?_, by simp, ?_⟩
    · unfold Client.EnoughReplies
      split <;> trivial
    · unfold Client.FailureSlack
      split <;> trivial

/-- Each joint step keeps the link and the client's laws together. -/
theorem linked_live_step {network : Client.Network (List UInt8) (Evaluation K)}
    {l : Joint.Label K} (hs : Linked P cfg ecfg network s ∧ Client.LiveInv ecfg s.client)
    (promised : s.Faithful network l ∧ s.Live ecfg l)
    (h : (jointMachine P cfg ecfg).step s l = some t) :
    Linked P cfg ecfg network t ∧ Client.LiveInv ecfg t.client := by
  obtain ⟨linked, hlive⟩ := hs
  refine ⟨linked_step linked promised.1 h, ?_⟩
  rcases (parts_of_step h).2 with same | ⟨l', polls, hl'⟩
  · rw [same]
    exact hlive
  · exact Client.liveInv_step hlive (promised.2.client linked promised.1 polls) hl'

/-- **A search thread that waits for a node does not wait for nothing.**  With a
faithful server, in every joint run in which no request throws and at each
failure some sender keeps a permit out of the failure handlers: as long as the
request of a node is sent and not answered, a sender, a transport thread or a
search thread in `Eval` is not blocked and has a step, also jointly with the
player. -/
theorem awaited_node_moves {network : Client.Network (List UInt8) (Evaluation K)}
    {board : GoBoard B} {ls : List (Joint.Label K)} (queue : 0 < ecfg.queueSize)
    (send : 0 < ecfg.asynOnceSend) (senders : 0 < ecfg.serverSendThread)
    (faithful : (jointMachine P cfg ecfg).Guarded (Joint.Faithful network)
      (Joint.start board ecfg) ls)
    (live : (jointMachine P cfg ecfg).Guarded (Joint.Live ecfg) (Joint.start board ecfg) ls)
    (run : (jointMachine P cfg ecfg).exec (Joint.start board ecfg) ls = some s) {v : ℕ}
    (sent : (s.player.tree.nodes v).rqSent = true)
    (unready : (s.player.tree.nodes v).evalReady = false) :
    ∃ i pc choice client, s.client.threads[i]? = some pc ∧ ¬ pc.Rests ∧
      ¬ Client.Blocked ecfg s.client.shared pc ∧
      (Client.machine ecfg).step s.client (i, choice) = some client ∧
      ∃ l' t, (jointMachine P cfg ecfg).step s l' = some t ∧ t.client = client := by
  obtain ⟨linked, hs⟩ : Linked P cfg ecfg network s ∧ Client.LiveInv ecfg s.client :=
    (jointMachine P cfg ecfg).invariant linked_live_step
      ⟨linked_start board, Client.liveInv_start send senders⟩ (faithful.and _ live) run
  -- the request of the node has a number, and its callback has not run
  obtain ⟨rq, hrq, -⟩ := List.mem_map.mp (linked.wf.pending v sent unready)
  obtain ⟨c, hc⟩ := List.getElem?_of_mem (linked.openings.asked rq hrq)
  have created : c < s.client.shared.created.length := by
    rw [linked.length_created]
    exact (List.getElem?_eq_some_iff.mp hc).1
  obtain ⟨i, pc, choice, client, hpc, other, moves, hstep⟩ :=
    Client.exists_step_of_unanswered queue hs created ((linked.waiting c rq hc).mp hrq)
  refine ⟨i, pc, choice, client, hpc, other, moves, hstep, linked.exists_step hstep ?_⟩
  rintro history rfl
  obtain ⟨rid, rfl⟩ := Client.rollout_of_evaluate hpc hstep
  exact other trivial

/-- The request of the root, just pushed. -/
def awaitedRoot : List (Joint.Label ℚ) :=
  [.client (1, .enter), .player (.select 1 9), .request 1 0] ++
    List.replicate 3 (.client (1, .go))

/-- A sender takes its permit, with the root's request in the queue.  The search
thread that waits for the root could only go on waiting. -/
theorem awaited_node_moves_root : ∃ s : Joint Stones ℚ,
    (s.player.tree.nodes 0).evalReady = false ∧
    ∃ i pc choice client, s.client.threads[i]? = some pc ∧ ¬ pc.Rests ∧
      ¬ Client.Blocked Client.smallConfig s.client.shared pc ∧
      (Client.machine Client.smallConfig).step s.client (i, choice) = some client ∧
      ∃ l' t, (jointMachine pachi shippedSettings Client.smallConfig).step s l' = some t ∧
        t.client = client := by
  have ends : ((jointMachine pachi shippedSettings Client.smallConfig).exec
      (Joint.start (GoBoard.new pachi) Client.smallConfig) awaitedRoot).map
        (fun s => ((s.player.tree.nodes 0).rqSent, (s.player.tree.nodes 0).evalReady)) =
          some (true, false) := by decide +kernel
  obtain ⟨s, run, hs⟩ := Option.map_eq_some_iff.mp ends
  obtain ⟨sent, unready⟩ := Prod.mk.inj hs
  have faithful : (jointMachine pachi shippedSettings Client.smallConfig).Guarded
      (Joint.Faithful evenNetwork) (Joint.start (GoBoard.new pachi) Client.smallConfig)
        awaitedRoot := by decide +kernel
  exact ⟨s, unready, awaited_node_moves (by decide) (by decide) (by decide) faithful
    (by decide +kernel) run sent unready⟩

end EstarGo
