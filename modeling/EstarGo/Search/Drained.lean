import EstarGo.Evaluator.Barrier
import EstarGo.Player.EarlyExit
import EstarGo.Search.Joint

/-!
# After a search

`gen_apply_move` chooses its move when every `rollout()` has returned, and reads
the visits of the root's children.  A `rollout()` that returned too early would
leave it visits to come.  Where no poll of the barrier falls into the window of
a `failure_cb`, none does: the player waits for no reply, and every iteration it
has counted is backed up on each edge above.

## Main definitions

* `Joint.Clear` — no poll of the barrier falls into the window.
* `Searching` — what the return of a search rests on.

## Main results

* `parts_of_step`: a joint step is a step of each component that it moves.
* `drained_of_run`: a player whose rollouts have returned.

## Design notes

**From the barrier to the tree.**  The barrier says that the callbacks of
returned rollouts have run.  With the link that is a request that has its reply,
and with the player's accounts a visit that is counted on every edge above its
leaf.
-/

namespace EstarGo

open Verif

variable {B K : Type} [Field K] [LinearOrder K] {P : Pachi B} {cfg : Settings K}
variable {ecfg : Client.EvalConfig} {s t : Joint B K}

/-- No poll of the barrier falls into the window of a `failure_cb`.  It is the
condition on the client's own runs, asked of the steps that the client takes
alone; a poll is such a step. -/
def Joint.Clear (s : Joint B K) : Joint.Label K → Prop
  | .client l => Client.BarrierClear s.client l
  | _ => True

instance (s : Joint B K) : DecidablePred s.Clear
  | .client l => inferInstanceAs (Decidable (Client.BarrierClear s.client l))
  | .player _ | .request .. | .callback _ => .isTrue trivial

/-- What a joint step is for the client: its own step, or one that is no
poll. -/
def Joint.Polls (s : Joint B K) (l : Joint.Label K)
    (l' : ℕ × Client.Choice (List UInt8) (Evaluation K)) : Prop :=
  l = .client l' ∨ (∃ history, l'.2 = .evaluate history) ∨
    (l'.2 = .go ∧ (s.client.threads[l'.1]?.bind Client.Pc.upNext).isSome)

/-- **The parts of a joint step.**  Each component makes a step of its own or
stays, and where both move the client's part is no poll. -/
theorem parts_of_step {l : Joint.Label K} (h : (jointMachine P cfg ecfg).step s l = some t) :
    (t.player = s.player ∨ ∃ a, s.player.step P cfg a = some t.player) ∧
      (t.client = s.client ∨ ∃ l', s.Polls l l' ∧
        (Client.machine ecfg).step s.client l' = some t.client) := by
  cases l with
  | client l =>
      simp only [jointMachine, Joint.step] at h
      split at h
      · obtain ⟨client, hclient, rfl⟩ := Option.map_eq_some_iff.mp h
        exact ⟨.inl rfl, .inr ⟨l, .inl rfl, hclient⟩⟩
      · cases h
  | player a =>
      obtain ⟨player, hplayer, h⟩ := Option.bind_eq_some_iff.mp h
      split at h
      · cases h
      · cases h
        exact ⟨.inr ⟨a, hplayer⟩, .inl rfl⟩
  | request thread i =>
      obtain ⟨player, hplayer, h⟩ := Option.bind_eq_some_iff.mp h
      obtain ⟨rq, -, h⟩ := Option.bind_eq_some_iff.mp h
      obtain ⟨client, hclient, rfl⟩ := Option.map_eq_some_iff.mp h
      exact ⟨.inr ⟨_, hplayer⟩, .inr ⟨_, .inr (.inl ⟨_, rfl⟩), hclient⟩⟩
  | callback thread =>
      obtain ⟨next, hnext, h⟩ := Option.bind_eq_some_iff.mp h
      obtain ⟨rq, -, h⟩ := Option.bind_eq_some_iff.mp h
      obtain ⟨player, hplayer, h⟩ := Option.bind_eq_some_iff.mp h
      obtain ⟨client, hclient, rfl⟩ := Option.map_eq_some_iff.mp h
      refine ⟨.inr ⟨_, hplayer⟩, .inr ⟨_, .inr (.inr ⟨rfl, ?_⟩), hclient⟩⟩
      rw [hnext]
      rfl

omit [Field K] [LinearOrder K] in
/-- A clear joint step is clear for the client. -/
theorem Joint.Clear.barrierClear {l : Joint.Label K}
    {l' : ℕ × Client.Choice (List UInt8) (Evaluation K)} (clear : s.Clear l)
    (polls : s.Polls l l') : Client.BarrierClear s.client l' := by
  rcases polls with rfl | ⟨history, evaluates⟩ | ⟨-, calls⟩
  · exact clear
  · unfold Client.BarrierClear
    split
    · next go => cases evaluates.symm.trans go
    · trivial
  · unfold Client.BarrierClear
    split
    · next barrier _ => simp [barrier, Client.Pc.upNext] at calls
    · trivial

/-- What the return of a search rests on: the barrier's laws, the player's
accounts, and that a callback belongs to a `rollout()` that has begun. -/
structure Searching (ecfg : Client.EvalConfig) (s : Joint B K) : Prop where
  wf : Structured s.player
  accounts : Accounted s.player
  barrier : Client.BarrierInv ecfg s.client
  begun : ∀ entry ∈ s.client.shared.created, entry.rollout < s.client.shared.rollouts

omit [LinearOrder K] in
/-- A registered callback belongs to the `rollout()` of its thread, which has
begun. -/
theorem rollout_begun_step {client : ClientPool K}
    {l : ℕ × Client.Choice (List UInt8) (Evaluation K)}
    (hs : Searching ecfg s) (h : (Client.machine ecfg).step s.client l = some client) :
    ∀ entry ∈ client.shared.created, entry.rollout < client.shared.rollouts := by
  obtain ⟨pre, pc, post, choice, sh, pc', new, hthreads, -, -, hstep, rfl⟩ :=
    Program.step_cases h
  have begun := hs.begun
  cases Client.fires_of_program hstep with
  | enter => exact fun entry hentry => Nat.lt_succ_of_lt (begun entry hentry)
  | evaluate rid history =>
      intro entry hentry
      rcases List.mem_append.mp hentry with hentry | hentry
      · exact begun entry hentry
      · rw [List.mem_singleton.mp hentry]
        have active : rid ∈ (s.client.shared.returned.map Prod.fst : Multiset ℕ) +
            Pool.total Client.Pc.active s.client := by
          refine Multiset.mem_add.mpr (.inr (Pool.mem_total.mpr ⟨.rollout rid, ?_, ?_⟩))
          · simp [hthreads]
          · simp [Client.Pc.active]
        rw [hs.barrier.rollouts] at active
        exact Multiset.mem_range.mp active
  | record => simpa [Client.Shared.record_eq] using begun
  | _ => exact begun

/-- Each clear joint step keeps it. -/
theorem searching_step {l : Joint.Label K} (hs : Searching ecfg s) (clear : s.Clear l)
    (h : (jointMachine P cfg ecfg).step s l = some t) : Searching ecfg t := by
  obtain ⟨hplayer, hclient⟩ := parts_of_step h
  obtain ⟨wf, accounts⟩ : Structured t.player ∧ Accounted t.player := by
    rcases hplayer with same | ⟨a, ha⟩
    · rw [same]
      exact ⟨hs.wf, hs.accounts⟩
    · exact ⟨structured_step hs.wf ha, accounted_step hs.wf hs.accounts ha⟩
  rcases hclient with same | ⟨l', polls, hl'⟩
  · exact ⟨wf, accounts, same ▸ hs.barrier, same ▸ hs.begun⟩
  · exact ⟨wf, accounts, Client.barrierInv_step hs.barrier (clear.barrierClear polls) hl',
      rollout_begun_step hs hl'⟩

omit [LinearOrder K] in
/-- At the start no rollout has begun. -/
theorem searching_start (board : GoBoard B) :
    Searching ecfg (Joint.start board ecfg : Joint B K) :=
  ⟨structured_start board, accounted_start board, Client.barrierInv_start,
    by simp [Joint.start, Client.start, Client.Shared.start]⟩

/-- **Nothing is to come after a search.**  With a faithful server, in every
joint run in which no poll of the barrier falls into the window of a
`failure_cb`: when each `rollout()` that has begun has returned, or is past its
poll, no request is without its reply, and the edge of each node below the root
has counted every iteration that was counted at or below it. -/
theorem drained_of_run {network : Client.Network (List UInt8) (Evaluation K)}
    {board : GoBoard B} {ls : List (Joint.Label K)}
    (faithful : (jointMachine P cfg ecfg).Guarded (Joint.Faithful network)
      (Joint.start board ecfg) ls)
    (clear : (jointMachine P cfg ecfg).Guarded Joint.Clear (Joint.start board ecfg) ls)
    (run : (jointMachine P cfg ecfg).exec (Joint.start board ecfg) ls = some s)
    (returned : Pool.total Client.Pc.active s.client = Pool.total Client.Pc.polled s.client) :
    s.player.requests = [] ∧ ∀ root, s.player.root = some root →
      ∀ v, Below s.player.tree.father v root →
        s.player.tree.visits v =
          (s.player.counted.filter fun u => reaches s.player.tree.father u u v).length := by
  have linked := linked_run faithful run
  have hs : Searching ecfg s :=
    (jointMachine P cfg ecfg).invariant searching_step (searching_start board) clear run
  have idle : s.player.requests = [] := by
    refine List.eq_nil_iff_forall_not_mem.mpr fun rq hrq => ?_
    obtain ⟨c, hc⟩ := List.getElem?_of_mem (linked.openings.asked rq hrq)
    obtain ⟨entry, created⟩ : ∃ entry, s.client.shared.created[c]? = some entry := by
      have := (List.getElem?_eq_some_iff.mp hc).1
      rw [← linked.length_created] at this
      exact ⟨_, List.getElem?_eq_getElem this⟩
    -- its rollout has begun, and none is before its poll
    have ended : entry.rollout ∈ Client.past s.client := by
      have range := hs.barrier.rollouts
      rw [Client.RolloutsBalanced, returned] at range
      rw [Client.past, range, Multiset.mem_range]
      exact hs.begun entry (List.mem_of_getElem? created)
    exact (linked.waiting c rq hc).mp hrq (hs.barrier.ran _ ended c entry.history created)
  refine ⟨idle, fun root hroot v below => ?_⟩
  have waiting := hs.accounts.countP_waiting_le hs.wf hroot below
  rw [Player.unanswered, idle, List.countP_nil, Nat.le_zero, List.countP_eq_zero] at waiting
  rw [hs.accounts.visits_eq hroot below, Player.passed]
  refine congrArg List.length (List.filter_congr fun u hu => ?_)
  have settled := waiting u hu
  cases reach : reaches s.player.tree.father u u v with
  | false => rfl
  | true => simpa [reach] using settled

/-- The search of `sentAgainSearch`, with a second request, up to the end of its
`rollout()`. -/
def returnedSearch : List (Joint.Label ℚ) :=
  sentAgainSearch ++ .callback 3 :: List.replicate 4 (.client (3, .go)) ++
  [.player (.select 1 8), .request 1 0] ++ List.replicate 3 (.client (1, .go)) ++
  List.replicate 5 (.client (0, .go)) ++
  [.client (0, .accept),
    .client (4, .reply [⟨(1 / 2, [⟨72, 3 / 5⟩, ⟨-1, 2 / 5⟩]), GoBoard.token 72⟩]),
    .callback 4] ++ List.replicate 4 (.client (4, .go)) ++
  [.client (1, .finish), .client (1, .go)]

/-- Two requests, both answered, and the edges have both visits.  One of them
was sent twice, which has counted once. -/
theorem drained_of_run_returned : ∃ s : Joint Stones ℚ, s.player.sent.length = 2 ∧
    s.player.requests = [] ∧ ∀ root, s.player.root = some root →
      ∀ v, Below s.player.tree.father v root →
        s.player.tree.visits v =
          (s.player.counted.filter fun u => reaches s.player.tree.father u u v).length := by
  have ends : ((jointMachine pachi shippedSettings Client.smallConfig).exec
      (Joint.start (GoBoard.new pachi) Client.smallConfig) returnedSearch).map
        (fun s => (s.player.sent.length,
          decide (Pool.total Client.Pc.active s.client = Pool.total Client.Pc.polled s.client))) =
            some (2, true) := by decide +kernel
  obtain ⟨s, run, hs⟩ := Option.map_eq_some_iff.mp ends
  obtain ⟨sent, returned⟩ := Prod.mk.inj hs
  have faithful : (jointMachine pachi shippedSettings Client.smallConfig).Guarded
      (Joint.Faithful evenNetwork) (Joint.start (GoBoard.new pachi) Client.smallConfig)
        returnedSearch := by decide +kernel
  exact ⟨s, sent, drained_of_run faithful (by decide +kernel) run (of_decide_eq_true returned)⟩

end EstarGo
