import EstarGo.Evaluator.Invocations
import EstarGo.Player.InStep
import EstarGo.Player.Openings

/-!
# The search and its evaluator

`MCTSPlayer` and `PolicyAndValueEvaluatorClient` together.  They meet in two
places: the `server_evaluate` of a leaf calls `Eval`, and a transport thread
runs the callback that `server_evaluate` has passed.  A joint step is a step of
one that the other does not see, or one of these two, taken by both at once.

## Main definitions

* `Joint`, `Joint.Label`, `jointMachine` — the two components and their common
  steps.
* `Joint.Faithful` — the server's promise at a joint step.
* `Linked` — what holds the two together.

## Main results

* `linked_step`: a joint step keeps the link.
* `client_never_waits`: the player takes every callback, so the client runs in
  the composition as it does alone.
* `evaluated_of_run`: an opened node has what the network answers for its own
  position.

## Design notes

**Callbacks have numbers.**  The callback captures its leaf and its sign: as the
client's callbacks are numbered by their creation, callback `c` is the one of
the request `sent[c]`, and nothing else has to be passed between the two.

**The grain of a step.**  The player's steps are those of its own machine, in
which a selection, a decision and a callback are one step each.  In the source a
descent and a callback are many accesses to the tree, with no lock in common.

**Faithful is needed** for what the callback is given, and for the callback to
find a reply at all.
-/

namespace EstarGo

open Verif

variable {B K : Type}

/-- A value and a policy, as the evaluator returns them. -/
abbrev Evaluation (K : Type) := K × List (PolicyItem K)

/-- The threads of the client. -/
abbrev ClientPool (K : Type) :=
  Pool (Client.Shared (List UInt8) (Evaluation K)) (Client.Pc (List UInt8) (Evaluation K))

/-- The player and the client, each with its own threads. -/
structure Joint (B K : Type) where
  player : Player B K
  client : ClientPool K

/-- A joint step, by who takes it. -/
inductive Joint.Label (K : Type) where
  /-- A step inside the client. -/
  | client (l : ℕ × Client.Choice (List UInt8) (Evaluation K))
  /-- A step of the player that sends no request and is no reply. -/
  | player (a : Action K)
  /-- `server_evaluate` with a leaf to request, on a search thread. -/
  | request (thread i : ℕ)
  /-- A transport thread runs a callback. -/
  | callback (thread : ℕ)

/-- Whether a step is a reply. -/
def Action.isReply : Action K → Bool
  | .reply .. => true
  | _ => false

section

variable [Field K] [LinearOrder K]

/-- One joint step.  What both take, both must be able to take; a step of one
that the other would have to take part in is not enabled alone. -/
def Joint.step (P : Pachi B) (cfg : Settings K) (ecfg : Client.EvalConfig) (s : Joint B K) :
    Joint.Label K → Option (Joint B K)
  | .client l =>
      if Client.Internal s.client l then
        ((Client.machine ecfg).step s.client l).map fun client => { s with client := client }
      else none
  | .player a =>
      (s.player.step P cfg a).bind fun player =>
        if a.isReply || player.sent.length ≠ s.player.sent.length then none
        else some { s with player := player }
  | .request thread i =>
      (s.player.step P cfg (.decide i)).bind fun player =>
        player.sent[s.player.sent.length]?.bind fun rq =>
          ((Client.machine ecfg).step s.client (thread, .evaluate rq.history)).map fun client =>
            ⟨player, client⟩
  | .callback thread =>
      (s.client.threads[thread]?.bind Client.Pc.upNext).bind fun next =>
        s.player.sent[next.1]?.bind fun rq =>
          (s.player.step P cfg (.reply (s.player.requests.idxOf rq) next.2.result.1
            next.2.result.2)).bind fun player =>
              ((Client.machine ecfg).step s.client (thread, .go)).map fun client =>
                ⟨player, client⟩

/-- All the interleavings of the search threads, the commands and the client's
threads.  A search thread occurs in both components, and its steps in the two
are not tied to each other but for the requests. -/
def jointMachine (P : Pachi B) (cfg : Settings K) (ecfg : Client.EvalConfig) :
    Machine (Joint B K) (Joint.Label K) where
  step s l := s.step P cfg ecfg l

/-- A new player with a new client. -/
def Joint.start (board : GoBoard B) (ecfg : Client.EvalConfig) : Joint B K where
  player := Player.start board
  client := Client.start ecfg

end

/-- The server's promise at a joint step. -/
def Joint.Faithful (network : Client.Network (List UInt8) (Evaluation K)) (s : Joint B K) :
    Joint.Label K → Prop
  | .client l => Client.Faithful network s.client l
  | _ => True

instance (network : Client.Network (List UInt8) (Evaluation K))
    [∀ history v, Decidable (network history v)] (s : Joint B K) :
    DecidablePred (s.Faithful network)
  | .client l => inferInstanceAs (Decidable (Client.Faithful network s.client l))
  | .player _ | .request .. | .callback _ => .isTrue trivial

section Steps

variable [Field K] [LinearOrder K] {P : Pachi B} {cfg : Settings K} {ecfg : Client.EvalConfig}

/-! ## The player's side

Which steps of the player concern the client. -/

/-- What a step of the player does to its requests: nothing, one more, or one
less because of a reply.  The first kind covers commands too. -/
inductive Logs (s : Player B K) (a : Action K) (s' : Player B K) : Prop
  | quiet (noReply : a.isReply = false) (sent : s'.sent = s.sent)
      (requests : s'.requests = s.requests)
  | asks (rq : Request) (noReply : a.isReply = false) (sent : s'.sent = s.sent ++ [rq])
      (requests : s'.requests = s.requests ++ [rq])
  | answers (i : ℕ) (value : K) (policy : List (PolicyItem K)) (rq : Request)
      (reply : a = .reply i value policy) (here : s.requests[i]? = some rq)
      (sent : s'.sent = s.sent) (requests : s'.requests = s.requests.eraseIdx i)

/-- Every step of the player does one of these. -/
theorem logs_of_step {s s' : Player B K} {a : Action K} (h : s.step P cfg a = some s') :
    Logs s a s' := by
  cases moves_of_step h with
  | request i sel hsel flag result terminate sent rq hrq => exact .asks rq rfl rfl rfl
  | reply i rq value policy hrq => exact .answers i value policy rq rfl hrq rfl rfl
  | childRoot _ _ _ _ _ _ _ command | ignored _ command =>
      rcases command with rfl | ⟨pos, rfl⟩
      · exact .quiet rfl rfl rfl
      · exact .quiet rfl rfl rfl
  | _ => exact .quiet rfl rfl rfl

/-- A reply is taken where its request is. -/
theorem step_reply {s : Player B K} {i : ℕ} {rq : Request} (value : K)
    (policy : List (PolicyItem K)) (h : s.requests[i]? = some rq) :
    ∃ s', s.step P cfg (.reply i value policy) = some s' := by
  rw [Player.step, h, Option.map_some]
  exact ⟨_, rfl⟩

/-! ## The link

Kept by each of the four joint steps, with what the client's own invariants
say. -/

/-- What holds player and client together: they agree on the requests and their
histories, the player waits for exactly the callbacks that have not run, and
what is opened was opened with answers of the network. -/
structure Linked (P : Pachi B) (cfg : Settings K) (ecfg : Client.EvalConfig)
    (network : Client.Network (List UInt8) (Evaluation K)) (s : Joint B K) : Prop where
  wf : Structured s.player
  inStep : InStep P s.player
  openings : Openings cfg (fun rq value policy => network rq.history (value, policy)) s.player
  replies : Client.ReplyInv ecfg s.client
  genuine : ∀ pc ∈ s.client.threads, pc.Genuine network
  callbacks : Client.CallbacksBalanced s.client
  registered : s.client.shared.created.map (·.history) = s.player.sent.map (·.history)
  waiting : ∀ c rq, s.player.sent[c]? = some rq →
    (rq ∈ s.player.requests ↔ c ∉ Client.answered s.client)

variable {network : Client.Network (List UInt8) (Evaluation K)} {s t : Joint B K}

/-- At the start nothing was asked. -/
theorem linked_start (board : GoBoard B) :
    Linked P cfg ecfg network (Joint.start board ecfg) where
  wf := structured_start board
  inStep := inStep_start board
  openings := openings_start board
  replies := Client.replyInv_start
  genuine := Client.genuine_start
  callbacks := Client.callbacksBalanced_start
  registered := rfl
  waiting := by simp [Joint.start, Player.start]

namespace Linked

/-- Callback and request have one number. -/
theorem length_created (hs : Linked P cfg ecfg network s) :
    s.client.shared.created.length = s.player.sent.length := by
  simpa using congrArg List.length hs.registered

/-- The request of a callback that is about to run waits for it, and the reply
is an answer of the network to its history. -/
theorem request_of_upNext (hs : Linked P cfg ecfg network s) {thread c : ℕ}
    {reply : Client.Reply (List UInt8) (Evaluation K)}
    (next : s.client.threads[thread]?.bind Client.Pc.upNext = some (c, reply)) :
    ∃ rq, s.player.sent[c]? = some rq ∧ rq ∈ s.player.requests ∧
      network rq.history reply.result := by
  obtain ⟨created, unanswered⟩ := Client.fresh_of_upNext hs.callbacks next
  obtain ⟨⟨rid, registered⟩, answer⟩ := Client.network_of_upNext hs.replies hs.genuine next
  rw [hs.length_created] at created
  have here : s.player.sent[c]? = some s.player.sent[c] := List.getElem?_eq_getElem created
  have history := congrArg (fun l : List (List UInt8) => l[c]?) hs.registered
  simp only [List.getElem?_map, registered, here, Option.map_some, Option.some.injEq] at history
  exact ⟨_, here, (hs.waiting c _ here).mpr unanswered, history ▸ answer⟩

/-- Two numbers of one request are equal. -/
theorem eq_of_getElem? (hs : Linked P cfg ecfg network s) {c d : ℕ} {rq : Request}
    (hc : s.player.sent[c]? = some rq) (hd : s.player.sent[d]? = some rq) : c = d := by
  have nodup := hs.openings.once.of_map
  obtain ⟨hlt, rfl⟩ := List.getElem?_eq_some_iff.mp hc
  obtain ⟨hlt', same⟩ := List.getElem?_eq_some_iff.mp hd
  exact (nodup.getElem_inj_iff.mp same).symm

theorem client_step (hs : Linked P cfg ecfg network s) {client : ClientPool K}
    {l : ℕ × Client.Choice (List UInt8) (Evaluation K)} (internal : Client.Internal s.client l)
    (faithful : Client.Faithful network s.client l)
    (h : (Client.machine ecfg).step s.client l = some client) :
    Linked P cfg ecfg network { s with client := client } := by
  obtain ⟨created, invoked⟩ := Client.records_of_internal internal h
  refine ⟨hs.wf, hs.inStep, hs.openings, Client.replyInv_step hs.replies faithful.repliesInOrder h,
    Client.genuine_step faithful h hs.genuine,
    Client.callbacks_balance h hs.replies.pairing hs.callbacks, ?_, ?_⟩
  · rw [created]
    exact hs.registered
  · rw [Client.answered, invoked]
    exact hs.waiting

/-- A step of the player that the client does not see. -/
theorem player_step (hs : Linked P cfg ecfg network s) {player : Player B K} {a : Action K}
    (noReply : a.isReply = false) (sent : player.sent.length = s.player.sent.length)
    (h : s.player.step P cfg a = some player) :
    Linked P cfg ecfg network { s with player := player } := by
  have openings := openings_step hs.wf hs.openings (by rintro i value policy rfl; cases noReply) h
  refine ⟨structured_step hs.wf h, inStep_step hs.wf hs.inStep h, openings, hs.replies, hs.genuine,
    hs.callbacks, ?_, ?_⟩
  all_goals
    cases logs_of_step h with
    | quiet _ same requests =>
        simp only [same, requests]
        first | exact hs.registered | exact hs.waiting
    | asks rq _ same => simp [same] at sent
    | answers i value policy rq reply => simp [reply, Action.isReply] at noReply

theorem request_step (hs : Linked P cfg ecfg network s) {player : Player B K}
    {client : ClientPool K} {thread i : ℕ} {rq : Request}
    (h : s.player.step P cfg (.decide i) = some player)
    (hrq : player.sent[s.player.sent.length]? = some rq)
    (h' : (Client.machine ecfg).step s.client (thread, .evaluate rq.history) = some client) :
    Linked P cfg ecfg network ⟨player, client⟩ := by
  have faithful : Client.Faithful network s.client (thread, .evaluate rq.history) :=
    Client.faithful_of_replies_eq_none rfl
  obtain ⟨⟨rid, created⟩, invoked⟩ := Client.records_of_evaluate h'
  have openings := openings_step hs.wf hs.openings (by rintro i value policy ⟨⟩) h
  have callbacks := Client.callbacks_balance h' hs.replies.pairing hs.callbacks
  cases logs_of_step h with
  | quiet _ same => simp [same] at hrq
  | answers i value policy rq reply => cases reply
  | asks rq' _ sent requests =>
      obtain rfl : rq = rq' := by simpa [sent, eq_comm] using hrq
      refine ⟨structured_step hs.wf h, inStep_step hs.wf hs.inStep h, openings,
        Client.replyInv_step hs.replies faithful.repliesInOrder h',
        Client.genuine_step faithful h' hs.genuine, callbacks, ?_, ?_⟩
      · rw [created, sent, List.map_append, List.map_append, hs.registered]
        rfl
      · intro c other hother
        have once := openings.once.of_map
        rw [sent] at once hother
        obtain ⟨-, -, new⟩ := List.nodup_append.mp once
        rw [requests, List.mem_append, List.mem_singleton, Client.answered, invoked,
          ← Client.answered]
        rw [List.getElem?_append] at hother
        split at hother
        · -- an older request is not the new one
          have ne : other ≠ rq := new other (List.mem_of_getElem? hother) rq (by simp)
          rw [or_iff_left ne]
          exact hs.waiting c other hother
        · -- and the new one has not run
          obtain ⟨hc, rfl⟩ := List.getElem?_eq_some_iff.mp hother
          refine ⟨fun _ mem => ?_, fun _ => .inr (by simp)⟩
          have old : c ∈ Multiset.range s.client.shared.created.length := by
            rw [← hs.callbacks]
            exact Multiset.mem_add.mpr (.inl (Multiset.mem_add.mpr (.inl
              (Multiset.mem_add.mpr (.inr mem)))))
          rw [Multiset.mem_range, hs.length_created] at old
          omega

/-- A transport thread runs a callback. -/
theorem callback_step (hs : Linked P cfg ecfg network s) {player : Player B K}
    {client : ClientPool K} {thread c : ℕ} {reply : Client.Reply (List UInt8) (Evaluation K)}
    {rq : Request} (next : s.client.threads[thread]?.bind Client.Pc.upNext = some (c, reply))
    (hrq : s.player.sent[c]? = some rq)
    (h : s.player.step P cfg (.reply (s.player.requests.idxOf rq) reply.result.1
      reply.result.2) = some player)
    (h' : (Client.machine ecfg).step s.client (thread, .go) = some client) :
    Linked P cfg ecfg network ⟨player, client⟩ := by
  have faithful : Client.Faithful network s.client (thread, .go) :=
    Client.faithful_of_replies_eq_none rfl
  obtain ⟨created, invoked⟩ := Client.records_of_upNext next h'
  obtain ⟨rq', hrq', mem, answer⟩ := hs.request_of_upNext next
  obtain rfl : rq = rq' := Option.some.inj (hrq.symm.trans hrq')
  have here : s.player.requests[s.player.requests.idxOf rq]? = some rq := by
    rw [List.getElem?_eq_some_iff]
    exact ⟨List.idxOf_lt_length_of_mem mem, List.getElem_idxOf _⟩
  have openings := openings_step hs.wf hs.openings (by
    rintro i value policy ⟨⟩ rq' hrq'
    obtain rfl : rq = rq' := Option.some.inj (here.symm.trans hrq')
    exact answer) h
  cases logs_of_step h with
  | quiet noReply | asks _ noReply => cases noReply
  | answers i value policy rq' hreply here' sent requests =>
      cases hreply
      refine ⟨structured_step hs.wf h, inStep_step hs.wf hs.inStep h, openings,
        Client.replyInv_step hs.replies faithful.repliesInOrder h',
        Client.genuine_step faithful h' hs.genuine,
        Client.callbacks_balance h' hs.replies.pairing hs.callbacks, ?_, ?_⟩
      · rw [created, sent]
        exact hs.registered
      · intro d other hother
        rw [sent] at hother
        have nodup : s.player.requests.Nodup := hs.wf.once.of_map
        have split : d ∈ Client.answered ⟨client.shared, client.threads⟩ ↔
            d ∈ Client.answered s.client ∨ d = c := by
          simp only [Client.answered, Multiset.mem_coe, invoked, List.map_append, List.mem_append,
            List.map_singleton, List.mem_singleton]
        rw [requests, show Client.answered client =
          Client.answered ⟨client.shared, client.threads⟩ from rfl, split, not_or,
          ← hs.waiting d other hother, ← List.erase_eq_eraseIdx_of_idxOf rfl,
          nodup.mem_erase_iff, and_comm]
        refine and_congr_right fun _ => not_congr ?_
        constructor
        · rintro rfl
          exact hs.eq_of_getElem? hother hrq
        · rintro rfl
          exact Option.some.inj (hother.symm.trans hrq)

end Linked

/-- **A joint step keeps the link.**  A request is given the number that its
callback gets, and a callback takes away the request with its number. -/
theorem linked_step {l : Joint.Label K} (hs : Linked P cfg ecfg network s)
    (faithful : s.Faithful network l) (h : (jointMachine P cfg ecfg).step s l = some t) :
    Linked P cfg ecfg network t := by
  cases l with
  | client l =>
      simp only [jointMachine, Joint.step] at h
      split at h
      · rename_i internal
        obtain ⟨client, hclient, rfl⟩ := Option.map_eq_some_iff.mp h
        exact hs.client_step internal faithful hclient
      · cases h
  | player a =>
      obtain ⟨player, hplayer, h⟩ := Option.bind_eq_some_iff.mp h
      split at h
      · cases h
      · rename_i seen
        cases h
        simp only [Bool.or_eq_true, decide_eq_true_eq, not_or, Bool.not_eq_true, not_not] at seen
        exact hs.player_step seen.1 seen.2 hplayer
  | request thread i =>
      obtain ⟨player, hplayer, h⟩ := Option.bind_eq_some_iff.mp h
      obtain ⟨rq, hrq, h⟩ := Option.bind_eq_some_iff.mp h
      obtain ⟨client, hclient, rfl⟩ := Option.map_eq_some_iff.mp h
      exact hs.request_step hplayer hrq hclient
  | callback thread =>
      obtain ⟨⟨c, reply⟩, next, h⟩ := Option.bind_eq_some_iff.mp h
      obtain ⟨rq, hrq, h⟩ := Option.bind_eq_some_iff.mp h
      obtain ⟨player, hplayer, h⟩ := Option.bind_eq_some_iff.mp h
      obtain ⟨client, hclient, rfl⟩ := Option.map_eq_some_iff.mp h
      exact hs.callback_step next hrq hplayer hclient

/-- Every run keeps the link, with a faithful server. -/
theorem linked_run {board : GoBoard B} {ls : List (Joint.Label K)}
    (faithful : (jointMachine P cfg ecfg).Guarded (Joint.Faithful network)
      (Joint.start board ecfg) ls)
    (run : (jointMachine P cfg ecfg).exec (Joint.start board ecfg) ls = some s) :
    Linked P cfg ecfg network s :=
  (jointMachine P cfg ecfg).invariant linked_step (linked_start board) faithful run

/-! ## The composition

What the link means for the two components. -/

/-- A step the client can take alone, other than a new request, is part of a
joint step. -/
theorem Linked.exists_step (hs : Linked P cfg ecfg network s)
    {l : ℕ × Client.Choice (List UInt8) (Evaluation K)} {client : ClientPool K}
    (h : (Client.machine ecfg).step s.client l = some client)
    (quiet : ∀ history, l.2 ≠ .evaluate history) :
    ∃ l' t, (jointMachine P cfg ecfg).step s l' = some t ∧ t.client = client := by
  cases internal : Client.Internal s.client l with
  | true =>
      refine ⟨.client l, { s with client := client }, ?_, rfl⟩
      simp only [jointMachine, Joint.step, internal, if_true, h, Option.map_some]
  | false =>
      obtain ⟨go, c, reply, next⟩ := Client.upNext_of_not_internal internal quiet
      obtain ⟨rq, hrq, mem, -⟩ := hs.request_of_upNext next
      have here : s.player.requests[s.player.requests.idxOf rq]? = some rq := by
        rw [List.getElem?_eq_some_iff]
        exact ⟨List.idxOf_lt_length_of_mem mem, List.getElem_idxOf _⟩
      obtain ⟨player, hplayer⟩ : ∃ player, s.player.step P cfg
          (.reply (s.player.requests.idxOf rq) reply.result.1 reply.result.2) = some player :=
        step_reply reply.result.1 reply.result.2 here
      have hgo : (Client.machine ecfg).step s.client (l.1, .go) = some client := by
        rwa [← go]
      refine ⟨.callback l.1, ⟨player, client⟩, ?_, rfl⟩
      simp only [jointMachine, Joint.step, next, Option.bind_some, hrq, hplayer, hgo,
        Option.map_some]

/-- **The player takes every callback.**  With a faithful server, after any
joint run, each step the client can take alone, other than a new request, it can
take in the composition.  In particular a callback that is about to run finds
its request unanswered.  A request waits exactly until its callback has run. -/
theorem client_never_waits {board : GoBoard B} {ls : List (Joint.Label K)}
    (faithful : (jointMachine P cfg ecfg).Guarded (Joint.Faithful network)
      (Joint.start board ecfg) ls)
    (run : (jointMachine P cfg ecfg).exec (Joint.start board ecfg) ls = some s) :
    (∀ l client, (Client.machine ecfg).step s.client l = some client →
      (∀ history, l.2 ≠ .evaluate history) →
        ∃ l' t, (jointMachine P cfg ecfg).step s l' = some t ∧ t.client = client) ∧
    s.client.shared.created.length = s.player.sent.length ∧
    ∀ c rq, s.player.sent[c]? = some rq →
      (rq ∈ s.player.requests ↔ c ∉ s.client.shared.invoked.map Prod.fst) := by
  have hs := linked_run faithful run
  exact ⟨fun l client h quiet => hs.exists_step h quiet, hs.length_created, hs.waiting⟩

/-- **Every position has its own evaluation.**  Whatever the interleaving of
search threads, senders and transport threads, whatever batches fail and are
sent again: with a faithful server, each opened node was opened by one request;
its value is an answer of the network to the history of that node's position,
seen with the sign of the request, and its children are those of the same
answer's policy.  That there is one request rests on `server_evaluate` looking
at `rq_sent` and setting it in one step, as with one search thread. -/
theorem evaluated_of_run {board : GoBoard B} {ls : List (Joint.Label K)}
    (faithful : (jointMachine P cfg ecfg).Guarded (Joint.Faithful network)
      (Joint.start board ecfg) ls)
    (run : (jointMachine P cfg ecfg).exec (Joint.start board ecfg) ls = some s) {v : ℕ}
    (ready : (s.player.tree.nodes v).evalReady = true) :
    ∃ rq ∈ s.player.sent, (∀ rq' ∈ s.player.sent, rq'.leaf = v ↔ rq' = rq) ∧
      ∃ value policy, network (s.player.ghost v).history (value, policy) ∧
        (s.player.tree.nodes v).valuePred = value * rq.minMax ∧
        s.player.tree.offspring v =
          (keptItems cfg policy).map fun item => some (item.pos, item.prob) := by
  have hs := linked_run faithful run
  obtain ⟨rq, hrq, rfl, value, policy, answer, opened⟩ := hs.openings.opened v ready
  refine ⟨rq, hrq, fun rq' hrq' => ⟨fun leaf => ?_, congrArg Request.leaf⟩, value, policy, ?_,
    opened.value, opened.offspring⟩
  · exact List.inj_on_of_nodup_map hs.openings.once hrq' hrq leaf
  · rw [← (hs.inStep.sent rq hrq).2]
    exact answer

end Steps

/-- A network with one answer for every position: the value one half, and a
policy of a stone and a pass. -/
def evenNetwork : Client.Network (List UInt8) (Evaluation ℚ) :=
  fun _ answer => answer = (1 / 2, [⟨72, 3 / 5⟩, ⟨-1, 2 / 5⟩])

instance (history : List UInt8) (answer : Evaluation ℚ) :
    Decidable (evenNetwork history answer) :=
  inferInstanceAs (Decidable (_ = _))

/-- The first request of a game; its batch fails once and is sent again. -/
def sentAgainSearch : List (Joint.Label ℚ) :=
  [.client (1, .enter), .player (.select 1 9), .request 1 0, .client (1, .go),
    .client (1, .go), .client (1, .go)] ++
  List.replicate 5 (.client (0, .go)) ++ [.client (0, .accept), .client (2, .fail)] ++
  List.replicate 8 (.client (2, .go)) ++ List.replicate 5 (.client (0, .go)) ++
  [.client (0, .accept),
    .client (3, .reply [⟨(1 / 2, [⟨72, 3 / 5⟩, ⟨-1, 2 / 5⟩]), []⟩])]

/-- The callback of the request that was sent again is about to run. -/
theorem client_never_waits_sent_again : ∃ s : Joint Stones ℚ, ∃ client,
    (Client.machine Client.smallConfig).step s.client (3, .go) = some client ∧
      ∃ l t, (jointMachine pachi shippedSettings Client.smallConfig).step s l = some t ∧
        t.client = client := by
  have ends : ((jointMachine pachi shippedSettings Client.smallConfig).exec
      (Joint.start (GoBoard.new pachi) Client.smallConfig) sentAgainSearch).map
        (fun s => ((Client.machine Client.smallConfig).step s.client (3, .go)).isSome) =
          some true := by decide +kernel
  obtain ⟨s, run, hs⟩ := Option.map_eq_some_iff.mp ends
  obtain ⟨client, h⟩ := Option.isSome_iff_exists.mp hs
  have faithful : (jointMachine pachi shippedSettings Client.smallConfig).Guarded
      (Joint.Faithful evenNetwork) (Joint.start (GoBoard.new pachi) Client.smallConfig)
        sentAgainSearch := by decide +kernel
  exact ⟨s, client, h, (client_never_waits faithful run).1 (3, .go) client h (by simp)⟩

/-- The callback has run, and the root is opened: by its one request, with the
network's value, and with the two children that the answer's policy lists. -/
theorem evaluated_of_run_sent_again : ∃ s : Joint Stones ℚ, ∃ rq ∈ s.player.sent,
    (∀ rq' ∈ s.player.sent, rq'.leaf = 0 ↔ rq' = rq) ∧
      ∃ value policy, evenNetwork (s.player.ghost 0).history (value, policy) ∧
        (s.player.tree.nodes 0).valuePred = value * rq.minMax ∧
        s.player.tree.offspring 0 =
          (keptItems shippedSettings policy).map fun item => some (item.pos, item.prob) := by
  have ends : ((jointMachine pachi shippedSettings Client.smallConfig).exec
      (Joint.start (GoBoard.new pachi) Client.smallConfig) (sentAgainSearch ++ [.callback 3])).map
        (fun s => (s.player.tree.nodes 0).evalReady) = some true := by decide +kernel
  obtain ⟨s, run, ready⟩ := Option.map_eq_some_iff.mp ends
  have faithful : (jointMachine pachi shippedSettings Client.smallConfig).Guarded
      (Joint.Faithful evenNetwork) (Joint.start (GoBoard.new pachi) Client.smallConfig)
        (sentAgainSearch ++ [.callback 3]) := by decide +kernel
  exact ⟨s, evaluated_of_run faithful run ready⟩

end EstarGo
