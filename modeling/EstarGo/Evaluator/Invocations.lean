import EstarGo.Evaluator.Conservation

/-!
# The steps another component sees

To its caller the client is what it takes and what it gives back: `Eval`
registers a callback, and a transport thread invokes one with a reply.
`Fires.seen` sorts the transitions by that, and all but these two kinds are
internal.

## Main definitions

* `Pc.upNext` — the callback a thread is about to invoke, and the reply for it.
* `Internal`, `Seen` — what a caller sees of a step.
* `Faithful` — the server's promise for the caller's sake.

## Main results

* `Fires.seen`: each transition is of one of the three kinds.
* `fresh_of_upNext`: what is about to be invoked was created, and not invoked
  before.
* `network_of_upNext`: the reply is an answer of the network to the history of
  the callback.

## Design notes

**The network is a relation.**  A faithful server answers a batch with a result
of the network for each request, in order.  A network may answer the same
history in several ways, and two requests for one history need not get the same
answer.
-/

namespace EstarGo.Client

open Verif

variable {H V : Type}

/-- The callback a thread is about to invoke, and the reply for it. -/
def Pc.upNext : Pc H V → Option (ℕ × Reply H V)
  | .invokeSync _ (reply :: _) (callback :: _) => some (callback, reply)
  | .invoke _ (reply :: _) (callback :: _) => some (callback, reply)
  | _ => none

/-- Whether a step neither registers nor invokes a callback, as can be told
before it is made.  The player has no part in such a step. -/
def Internal (s : Pool (Shared H V) (Pc H V)) (l : ℕ × Choice H V) : Bool :=
  match l.2 with
  | .evaluate _ => false
  | .go => (s.threads[l.1]?.bind Pc.upNext).isNone
  | _ => true

/-- What a caller sees of a step: nothing, a callback that is registered, or one
that is invoked.  No step does two of these. -/
inductive Seen (sh : Shared H V) (pc : Pc H V) (choice : Choice H V) (sh' : Shared H V) : Prop
  | internal (quiet : ∀ history, choice ≠ .evaluate history)
      (calls : choice = .go → pc.upNext = none) (created : sh'.created = sh.created)
      (invoked : sh'.invoked = sh.invoked)
  | registers (rid : ℕ) (history : H) (choice_eq : choice = .evaluate history)
      (created : sh'.created = sh.created ++ [⟨history, rid⟩])
      (invoked : sh'.invoked = sh.invoked)
  | invokes (callback : ℕ) (reply : Reply H V) (choice_eq : choice = .go)
      (next : pc.upNext = some (callback, reply)) (created : sh'.created = sh.created)
      (invoked : sh'.invoked = sh.invoked ++ [(callback, reply)])

/-- Each transition is of one of the three kinds. -/
theorem Fires.seen [Inhabited H] {cfg : EvalConfig} {sh sh' : Shared H V} {pc pc' : Pc H V}
    {choice : Choice H V} {new : List (Pc H V)} (h : Fires cfg sh pc choice sh' pc' new) :
    Seen sh pc choice sh' := by
  cases h with
  | evaluate rid history => exact .registers rid history rfl rfl rfl
  | invokeSync sender reply replies callback callbacks
  | invoke cookie reply replies callback callbacks => exact .invokes callback reply rfl rfl rfl rfl
  | endReply cookie replies =>
      exact .internal (by simp) (fun _ => by cases replies <;> rfl) rfl rfl
  | record =>
      exact .internal (by simp) (fun _ => rfl) (by simp [Shared.record_eq])
        (by simp [Shared.record_eq])
  | _ => exact .internal (by simp) (by simp [Pc.upNext]) rfl rfl

section Pools

variable [Inhabited H] {cfg : EvalConfig} {s t : Pool (Shared H V) (Pc H V)}
variable {l : ℕ × Choice H V}

/-- An internal step changes no record of callbacks. -/
theorem records_of_internal (internal : Internal s l = true) (h : (machine cfg).step s l = some t) :
    t.shared.created = s.shared.created ∧ t.shared.invoked = s.shared.invoked := by
  obtain ⟨pre, pc, post, choice, sh, pc', new, -, hpc, hchoice, hstep, rfl⟩ :=
    Program.step_cases h
  cases (fires_of_program hstep).seen with
  | internal quiet calls created invoked => exact ⟨created, invoked⟩
  | registers rid history choice_eq => simp [Internal, hchoice, choice_eq] at internal
  | invokes callback reply choice_eq next =>
      simp [Internal, hchoice, choice_eq, hpc, next] at internal

theorem records_of_evaluate {thread : ℕ} {history : H}
    (h : (machine cfg).step s (thread, .evaluate history) = some t) :
    (∃ rid, t.shared.created = s.shared.created ++ [⟨history, rid⟩]) ∧
      t.shared.invoked = s.shared.invoked := by
  obtain ⟨pre, pc, post, choice, sh, pc', new, -, -, rfl, hstep, rfl⟩ := Program.step_cases h
  cases (fires_of_program hstep).seen with
  | internal quiet => exact absurd rfl (quiet history)
  | registers rid history' choice_eq created invoked =>
      cases choice_eq
      exact ⟨⟨rid, created⟩, invoked⟩
  | invokes callback reply choice_eq => cases choice_eq

theorem records_of_upNext {thread callback : ℕ} {reply : Reply H V}
    (next : s.threads[thread]?.bind Pc.upNext = some (callback, reply))
    (h : (machine cfg).step s (thread, .go) = some t) :
    t.shared.created = s.shared.created ∧
      t.shared.invoked = s.shared.invoked ++ [(callback, reply)] := by
  obtain ⟨pre, pc, post, choice, sh, pc', new, -, hpc, rfl, hstep, rfl⟩ := Program.step_cases h
  rw [show s.threads[thread]? = some pc from hpc, Option.bind_some] at next
  cases (fires_of_program hstep).seen with
  | internal quiet calls => simp [calls rfl] at next
  | registers rid history choice_eq => cases choice_eq
  | invokes callback' reply' choice_eq next' created invoked =>
      cases next.symm.trans next'
      exact ⟨created, invoked⟩

omit [Inhabited H] in
/-- A step that is not internal registers a callback or invokes one. -/
theorem upNext_of_not_internal (h : Internal s l = false)
    (quiet : ∀ history, l.2 ≠ .evaluate history) :
    l.2 = .go ∧ ∃ callback reply, s.threads[l.1]?.bind Pc.upNext = some (callback, reply) := by
  unfold Internal at h
  split at h
  · exact absurd (by assumption) (quiet _)
  · refine ⟨by assumption, ?_⟩
    rw [Option.isNone_eq_false_iff, Option.isSome_iff_exists] at h
    obtain ⟨⟨callback, reply⟩, next⟩ := h
    exact ⟨callback, reply, next⟩
  · cases h

omit [Inhabited H] in
/-- The callback a thread is about to invoke is one it carries. -/
theorem mem_carried_of_upNext {pc : Pc H V} {callback : ℕ} {reply : Reply H V}
    (next : pc.upNext = some (callback, reply)) : callback ∈ pc.carried := by
  unfold Pc.upNext at next
  split at next <;> cases next <;> simp [Pc.carried, Pc.inBatch]

omit [Inhabited H] in
/-- The callback that is up next was created, and not invoked before, since a
thread carries it and every callback is in one place only. -/
theorem fresh_of_upNext (balanced : CallbacksBalanced s) {thread callback : ℕ}
    {reply : Reply H V} (next : s.threads[thread]?.bind Pc.upNext = some (callback, reply)) :
    callback < s.shared.created.length ∧ callback ∉ answered s := by
  obtain ⟨pc, hpc, next⟩ := Option.bind_eq_some_iff.mp next
  have carried : callback ∈ Pool.total Pc.carried s :=
    Pool.mem_total.mpr ⟨pc, List.mem_of_getElem? hpc, mem_carried_of_upNext next⟩
  have once : (queued s + answered s + s.shared.lost + Pool.total Pc.carried s).count callback ≤
      1 := by
    rw [balanced]
    exact Multiset.nodup_iff_count_le_one.mp (Multiset.nodup_range _) callback
  have here := Multiset.one_le_count_iff_mem.mpr carried
  simp only [Multiset.count_add] at once
  refine ⟨?_, Multiset.count_eq_zero.mp (by omega)⟩
  rw [← Multiset.mem_range, ← balanced]
  exact Multiset.mem_add.mpr (.inr carried)

end Pools

/-! ## A faithful server -/

/-- What the network may answer to a history.  It is a relation, because nothing
is known of how the server comes to its answers. -/
abbrev Network (H V : Type) := H → V → Prop

/-- The results of a batch, one for each request and in their order. -/
def ResultsOf (network : Network H V) (requests : List H) (replies : List (Reply H V)) : Prop :=
  List.Forall₂ (fun history reply => reply.computedFor = history ∧ network history reply.result)
    requests replies

/-- The requests that a reply is for. -/
def Pc.asked : Pc H V → Option (List H)
  | .inFlight cookie => some cookie.requestCache
  | .sendSync _ requests _ => some requests
  | _ => none

/-- The replies of the server, where the choice is an answer. -/
def Choice.replies : Choice H V → Option (List (Reply H V))
  | .reply replies => some replies
  | _ => none

/-- The server's promise at a step. -/
def Faithful (network : Network H V) (s : Pool (Shared H V) (Pc H V)) (l : ℕ × Choice H V) :
    Prop :=
  ∀ requests ∈ s.threads[l.1]?.bind Pc.asked, ∀ replies ∈ l.2.replies,
    ResultsOf network requests replies

section Decidable

variable [DecidableEq H] (network : Network H V) [∀ history v, Decidable (network history v)]

instance (requests : List H) (replies : List (Reply H V)) :
    Decidable (ResultsOf network requests replies) :=
  inferInstanceAs (Decidable (List.Forall₂ _ _ _))

instance (s : Pool (Shared H V) (Pc H V)) (l : ℕ × Choice H V) :
    Decidable (Faithful network s l) :=
  inferInstanceAs (Decidable (∀ requests ∈ s.threads[l.1]?.bind Pc.asked,
    ∀ replies ∈ l.2.replies, ResultsOf network requests replies))

end Decidable

/-- Everything in a reply is an answer of the network to the history it names.
That this is the history of the right request is a matter of pairing. -/
def Genuine (network : Network H V) (replies : List (Reply H V)) : Prop :=
  ∀ reply ∈ replies, network reply.computedFor reply.result

/-- The replies a thread goes through are genuine. -/
def Pc.Genuine (network : Network H V) : Pc H V → Prop
  | .invokeSync _ replies _ => Client.Genuine network replies
  | .settleSync _ replies _ => Client.Genuine network replies
  | .invoke _ replies _ => Client.Genuine network replies
  | .settle _ replies _ => Client.Genuine network replies
  | _ => True

variable {network : Network H V}

/-- Such results are in the order of the requests. -/
theorem ResultsOf.inOrder {requests : List H} {replies : List (Reply H V)}
    (h : ResultsOf network requests replies) : replies.map (·.computedFor) = requests := by
  induction h with
  | nil => rfl
  | cons head _ ih => rw [List.map_cons, head.1, ih]

theorem ResultsOf.genuine {requests : List H} {replies : List (Reply H V)}
    (h : ResultsOf network requests replies) : Genuine network replies := by
  induction h with
  | nil => exact fun _ h => nomatch h
  | cons head _ ih =>
      intro reply hreply
      rcases List.mem_cons.mp hreply with rfl | hreply
      · exact head.1 ▸ head.2
      · exact ih reply hreply

/-- What a faithful server answers to the requests of a thread. -/
theorem Faithful.results {s : Pool (Shared H V) (Pc H V)} {l : ℕ × Choice H V}
    (h : Faithful network s l) {pc : Pc H V} {requests : List H} {replies : List (Reply H V)}
    (hpc : s.threads[l.1]? = some pc) (asked : pc.asked = some requests)
    (hchoice : l.2 = .reply replies) : ResultsOf network requests replies := by
  refine h requests ?_ replies ?_
  · rw [hpc]
    exact asked
  · rw [hchoice]
    rfl

/-- Nothing is promised where the server does not answer. -/
theorem faithful_of_replies_eq_none {s : Pool (Shared H V) (Pc H V)} {l : ℕ × Choice H V}
    (h : l.2.replies = none) : Faithful network s l := by
  intro requests _ replies hreplies
  rw [h] at hreplies
  cases hreplies

/-- A faithful server keeps the promise of order. -/
theorem Faithful.repliesInOrder {s : Pool (Shared H V) (Pc H V)} {l : ℕ × Choice H V}
    (h : Faithful network s l) : RepliesInOrder s l := by
  unfold RepliesInOrder
  split
  · next cookie replies hpc hchoice => exact (h.results hpc rfl hchoice).inOrder
  · next sender requests callbacks replies hpc hchoice =>
      exact (h.results hpc rfl hchoice).inOrder
  · trivial

section Faithful

variable [Inhabited H] {cfg : EvalConfig} {s t : Pool (Shared H V) (Pc H V)}
variable {l : ℕ × Choice H V}

/-- A faithful server leaves only genuine replies with the threads. -/
theorem genuine_step (faithful : Faithful network s l) (h : (machine cfg).step s l = some t)
    (hs : ∀ pc ∈ s.threads, pc.Genuine network) : ∀ pc ∈ t.threads, pc.Genuine network := by
  refine Pool.forall_threads (fun _ pc => Pc.Genuine network pc) ?_ h hs
  intro pc choice sh pc' new hpc hchoice hstep good
  refine ⟨?_, fun _ _ hq => hq⟩
  cases fires_of_program hstep with
  | pushed resume => cases resume <;> simp [Resume.pc, Pc.Genuine]
  | replySync | reply => exact ⟨(faithful.results hpc rfl hchoice).genuine, by simp⟩
  | invokeSync | invoke => exact ⟨fun r hr => good r (List.mem_cons_of_mem _ hr), by simp⟩
  | settleSync | settle => exact ⟨good, by simp⟩
  | _ => simp [Pc.Genuine]

omit [Inhabited H] in
/-- At the start there are no replies. -/
theorem genuine_start : ∀ pc ∈ (start cfg : Pool (Shared H V) (Pc H V)).threads,
    pc.Genuine network := by
  intro pc hpc
  simp only [start, List.mem_append, List.mem_map, List.mem_range, List.mem_replicate] at hpc
  obtain ⟨sender, -, rfl⟩ | ⟨-, rfl⟩ := hpc <;> trivial

omit [Inhabited H] in
/-- The reply for the callback a thread is about to invoke was computed for the
history that the callback was created with, and is an answer of the network to
it. -/
theorem network_of_upNext (hs : ReplyInv cfg s) (genuine : ∀ pc ∈ s.threads, pc.Genuine network)
    {thread callback : ℕ} {reply : Reply H V}
    (next : s.threads[thread]?.bind Pc.upNext = some (callback, reply)) :
    Registered s.shared.created reply.computedFor callback ∧
      network reply.computedFor reply.result := by
  obtain ⟨pc, hpc, next⟩ := Option.bind_eq_some_iff.mp next
  have inOrder := hs.threads pc (List.mem_of_getElem? hpc)
  have good := genuine pc (List.mem_of_getElem? hpc)
  unfold Pc.upNext at next
  split at next
  · cases next
    exact ⟨inOrder.1, good _ List.mem_cons_self⟩
  · cases next
    exact ⟨inOrder.1, good _ List.mem_cons_self⟩
  · cases next

end Faithful

end EstarGo.Client
