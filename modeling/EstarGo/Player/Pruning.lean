import EstarGo.Player.Statistics
import EstarGo.Tree.EarlyBreak

/-!
# What root pruning skips

`mcts_select_path_root` skips a child whose visits cannot reach those of the
most visited child in the rollouts that remain.  But a rollout is counted when
its request is sent, and its visit when the reply is backed up: the threshold
leaves out the requests in flight.

The visits *due* at a node are its visits and the requests in flight at or below
it.  They grow by the counted rollouts that end at or below the node, and by
nothing else.

## Main definitions

* `Player.inFlight`, `Player.due` — the requests in flight at or below a node,
  and the visits due.
* `Accrues` — the visits due grow by counted rollouts.
* `RolloutTurn` — the selections that `rollout_in_turn` makes.

## Main results

* `accrues_run`: over a search, the visits due grow by counted rollouts.
* `pruning_keeps_outcome`: a skipped child stays behind where it is behind by
  the visits due.
* `pruning_changes_outcome`: with one search thread, a skipped child can end in
  front.

## Design notes

**All continuations.**  Whether a skipped child would have come in front depends
on what the search does next, which no state tells.  The result is about every
search that follows, and so its condition is on the visits due at the moment at
which the child is skipped.
-/

namespace EstarGo

open Verif

variable {B K : Type}

/-- The requests in flight at or below a node, each of which will bring it a
visit. -/
def Player.inFlight (s : Player B K) (v : ℕ) : ℕ :=
  s.requests.countP fun rq => reaches s.tree.father rq.leaf rq.leaf v

/-- The visits of a node, with those that the requests in flight will bring.
The threshold of the scan compares visits only, which is where the requests in
flight are forgotten. -/
def Player.due (s : Player B K) (v : ℕ) : ℕ := s.tree.visits v + s.inFlight v

/-- From one state to a later one, the visits due at a node below the root grow
by at most the counted iterations.  Replies move a visit from one summand to the
other and change no sum. -/
structure Accrues (root v : ℕ) (s s' : Player B K) : Prop where
  here : s'.root = some root
  below : Below s'.tree.father v root
  grows : s.due v ≤ s'.due v
  counted : s'.due v + s.counted.length ≤ s.due v + s'.counted.length

section Steps

variable {s s' : Player B K} {root v : ℕ}

theorem Accrues.refl (hroot : s.root = some root) (below : Below s.tree.father v root) :
    Accrues root v s s :=
  ⟨hroot, below, le_rfl, le_rfl⟩

theorem Accrues.trans {s'' : Player B K} (h : Accrues root v s s') (h' : Accrues root v s' s'') :
    Accrues root v s s'' := by
  refine ⟨h'.here, h'.below, h.grows.trans h'.grows, ?_⟩
  have := h.counted
  have := h'.counted
  omega

/-- A step that keeps the pointers and adds requests, with no more visits and
requests than it counts. -/
theorem Accrues.of_sameShape (hroot : s.root = some root) (below : Below s.tree.father v root)
    (shape : Tree.SameShape s.tree s'.tree) (same : s'.root = s.root) (asked : List Request)
    (requests : s'.requests = s.requests ++ asked) (new : List ℕ)
    (counted : s'.counted = s.counted ++ new) (visits : s.tree.visits v ≤ s'.tree.visits v)
    (bound : s'.tree.visits v + asked.length ≤ s.tree.visits v + new.length) :
    Accrues root v s s' := by
  have flight : s'.inFlight v = s.inFlight v +
      asked.countP fun rq => reaches s.tree.father rq.leaf rq.leaf v := by
    rw [Player.inFlight, requests, shape.father, List.countP_append]
    rfl
  have most := List.countP_le_length (l := asked)
    (p := fun rq => reaches s.tree.father rq.leaf rq.leaf v)
  refine ⟨same.trans hroot, by rwa [shape.father], ?_, ?_⟩
  · rw [Player.due, Player.due, flight]
    omega
  · rw [Player.due, Player.due, flight, counted, List.length_append]
    omega

variable [Field K] [LinearOrder K] {P : Pachi B} {cfg : Settings K}

omit [Field K] [LinearOrder K] in
/-- A change of one node that keeps its edge. -/
theorem Accrues.of_modify (hroot : s.root = some root) (below : Below s.tree.father v root)
    (u : ℕ) (f : Node K → Node K) (tree : s'.tree = s.tree.modify u f)
    (shape : ∀ nd, (f nd).shape = nd.shape) (edge : ∀ nd, (f nd).edge = nd.edge)
    (same : s'.root = s.root) (asked : List Request)
    (requests : s'.requests = s.requests ++ asked) (new : List ℕ)
    (counted : s'.counted = s.counted ++ new) (bound : asked.length ≤ new.length) :
    Accrues root v s s' := by
  have visits : s'.tree.visits v = s.tree.visits v := by
    rw [Tree.visits, tree, Tree.modify_field (·.edge) f edge]
    rfl
  refine Accrues.of_sameShape hroot below ?_ same asked requests new counted visits.ge ?_
  · rw [tree]
    exact Tree.SameShape.of_modify u f shape
  · rw [visits]
    exact Nat.add_le_add_left bound _

/-- A reply turns a request in flight into a visit. -/
theorem accrues_reply (wf : Structured s) (hroot : s.root = some root)
    (below : Below s.tree.father v root) {i : ℕ} {rq : Request} {value : K}
    {policy : List (PolicyItem K)} (hrq : s.requests[i]? = some rq) :
    Accrues root v s ({ s with requests := s.requests.eraseIdx i }.evaluateCallback P cfg rq value
      policy) := by
  classical
  obtain ⟨hleaf, hnexts⟩ := wf.unexpanded hrq
  obtain ⟨f, hf, -⟩ := id below
  have hv := wf.wf.lt_next_of_father hf
  have wf' : Structured ({ s with requests := s.requests.eraseIdx i }.evaluateCallback P cfg rq
      value policy) := structured_reply wf hrq
  -- the other requests are where they were
  have others : (s.requests.eraseIdx i).countP (fun rq' =>
      reaches (({ s with requests := s.requests.eraseIdx i }.evaluateCallback P cfg rq value
        policy).tree.father) rq'.leaf rq'.leaf v) =
      (s.requests.eraseIdx i).countP fun rq' => reaches s.tree.father rq'.leaf rq'.leaf v := by
    refine List.countP_congr fun rq' hrq' => ?_
    rw [reaches_iff wf'.wf.descending le_rfl, reaches_iff wf.wf.descending le_rfl]
    exact Tree.atOrBelow_answer wf.wf hleaf hnexts (wf.asked rq' (List.eraseIdx_subset hrq')).1
  have line : s.tree.OnLine rq.leaf v ↔ reaches s.tree.father rq.leaf rq.leaf v = true := by
    rw [reaches_iff wf.wf.descending le_rfl, Tree.OnLine, wf.atOrBelow_lock_iff hroot below,
      wf.lock_eq hroot below, hf, Option.isSome_some, and_iff_left rfl]
  have visits : ({ s with requests := s.requests.eraseIdx i }.evaluateCallback P cfg rq value
      policy).tree.visits v =
        s.tree.visits v + if reaches s.tree.father rq.leaf rq.leaf v then 1 else 0 := by
    rw [Player.evaluateCallback, Tree.visits_answer_of_lt wf.wf hleaf hnexts hv]
    simp only [line]
  have count := (cons_eraseIdx_perm hrq).countP_eq fun rq' =>
    reaches s.tree.father rq'.leaf rq'.leaf v
  rw [List.countP_cons] at count
  have due : ({ s with requests := s.requests.eraseIdx i }.evaluateCallback P cfg rq value
      policy).due v = s.due v := by
    rw [Player.due, visits, Player.due, Player.inFlight, Player.inFlight, ← count]
    simp only [Player.evaluateCallback] at others ⊢
    omega
  exact ⟨hroot, (Tree.below_answer wf.wf hleaf hnexts hv).mpr below, due.ge,
    Nat.add_le_add_right due.le _⟩

/-- **A step of a search.**  The visits due grow by a counted iteration, or
stay.  An iteration is counted for one leaf, so it adds at most one visit to the
edge of a given node. -/
theorem accrues_step {a : Action K} (wf : Structured s) (hroot : s.root = some root)
    (below : Below s.tree.father v root) (search : a.isCommand = false)
    (h : s.step P cfg a = some s') : Accrues root v s s' := by
  classical
  cases moves_of_step h with
  | select root' max remain t leaf board max' hroot' found =>
      obtain ⟨path, -, rfl⟩ := wf.exists_path found
      have visits : (s.tree.addPathVl path cfg.virtualLoss).visits v = s.tree.visits v := by
        rw [Tree.visits, Tree.nodes_addPathVl, Option.map_map]
        rfl
      exact Accrues.of_sameShape hroot below (Tree.SameShape.of_addPathVl s.tree path _) rfl []
        (List.append_nil _).symm [] (List.append_nil _).symm visits.ge visits.le
  | repetition i sel hsel flag =>
      exact Accrues.of_modify hroot below sel.leaf (fun nd => nd.setRepetition true) rfl
        (fun _ => rfl) (fun _ => rfl) rfl [] (List.append_nil _).symm []
        (List.append_nil _).symm le_rfl
  | finished i sel hsel flag result =>
      have marked := wf.mark sel.leaf false
      have visits := Tree.Tallied.visits_backedUp marked.wf (Tree.nodes_mctsBackUpdate
        (z := ((s.tree.nodes sel.leaf).result : K)) marked.wf.descending_lock sel.leaf
        cfg.virtualLoss 0 v)
      have before : (s.tree.modify sel.leaf (·.setRepetition false)).visits v =
          s.tree.visits v := by
        rw [Tree.visits, Tree.modify_field (·.edge) (·.setRepetition false) fun _ => rfl]
        rfl
      rw [before] at visits
      refine Accrues.of_sameShape hroot below (wf.shape_finished sel.leaf _ _) rfl []
        (List.append_nil _).symm [sel.leaf] rfl (visits.ge.trans' (Nat.le_add_right _ _)) ?_
      refine (Nat.add_le_add_right visits.le _).trans ?_
      split <;> simp
  | revisit i sel hsel flag result terminate sent =>
      exact Accrues.of_modify hroot below sel.leaf (fun nd => (nd.setRepetition false).visitAgain)
        rfl (fun _ => rfl) (fun _ => rfl) rfl [] (List.append_nil _).symm []
        (List.append_nil _).symm le_rfl
  | request i sel hsel flag result terminate sent rq hrq =>
      exact Accrues.of_modify hroot below sel.leaf (fun nd => (nd.setRepetition false).send) rfl
        (fun _ => rfl) (fun _ => rfl) rfl [rq] rfl [sel.leaf] rfl le_rfl
  | reply i rq value policy hrq => exact accrues_reply wf hroot below hrq
  | freshRoot | resigned => cases search
  | childRoot _ _ _ _ _ _ _ command => exact (Action.not_search_of_command command search).elim
  | recycle u dropped =>
      exact Accrues.of_modify hroot below u Node.expireFather rfl (fun _ => rfl) (fun _ => rfl)
        rfl [] (List.append_nil _).symm [] (List.append_nil _).symm le_rfl
  | stopped => exact ⟨hroot, below, le_rfl, le_rfl⟩
  | ignored => exact Accrues.refl hroot below

/-- **A search.**  The visits due at a node below the root grow by counted
iterations. -/
theorem accrues_run {bs : List (Action K)} (wf : Structured s) (hroot : s.root = some root)
    (below : Below s.tree.father v root) (search : ∀ b ∈ bs, b.isCommand = false)
    (run : (playerMachine P cfg).exec s bs = some s') : Accrues root v s s' :=
  ((playerMachine P cfg).invariant (G := fun _ b => b.isCommand = false)
    (I := fun s' => Structured s' ∧ Accrues root v s s')
    (fun ⟨wf, grown⟩ hb h =>
      ⟨structured_step wf h, grown.trans (accrues_step wf grown.here grown.below hb h)⟩)
    ⟨wf, Accrues.refl hroot below⟩ ((playerMachine P cfg).guarded_of_forall_mem search _) run).2

omit [Field K] [LinearOrder K] in
/-- The threshold is that of some child. -/
theorem exists_of_lt_visitPruneThr {t : Tree K} {cs : List ℕ} {remain k : ℤ}
    (hk : -1 ≤ k) (h : k < t.visitPruneThr cs remain) : ∃ m ∈ cs, k + remain < t.visits m := by
  -- the loop keeps a threshold that is -1 or that of a child
  have loop : k < t.visitPruneThr cs remain → ∃ m ∈ cs, k + remain < t.visits m := by
    refine List.foldlRecOn (motive := fun thr => k < thr → ∃ m ∈ cs, k + remain < t.visits m)
      cs _ (fun low => absurd low (not_lt.mpr hk)) fun thr ih d hd high => ?_
    cases hedge : (t.nodes d).edge with
    | none =>
        rw [hedge] at high
        exact ih high
    | some e =>
        rw [hedge] at high
        rcases lt_max_iff.mp high with high | high
        · exact ih high
        · refine ⟨d, hd, ?_⟩
          rw [Tree.visits, hedge, Option.map_some, Option.getD_some]
          omega
  exact loop h

/-- **What pruning keeps.**  A child of the root is skipped.  If some child is
ahead of it by more than the rollouts that remain, where the requests in flight
count as visits, then over every search with no more counted rollouts than
these, whether its selections prune or not, the skipped child ends behind when
all replies are in.  That is so where no child has fewer requests in flight.
But if no child is ahead, the skipped child ends in front when the replies come
in and nothing more is counted. -/
theorem pruning_keeps_outcome {board : GoBoard B} {as : List (Action K)}
    (run : (playerMachine P cfg).exec (Player.start board) as = some s)
    (hroot : s.root = some root) {cs : List ℕ} (hcs : (s.tree.nodes root).nexts = some cs)
    {c : ℕ} (hc : c ∈ cs) {remain : ℤ}
    (skipped : (s.tree.visits c : ℤ) < s.tree.visitPruneThr cs remain) :
    ((∃ m ∈ cs, (s.due c : ℤ) + remain < s.due m) →
      ∀ bs s', (∀ b ∈ bs, b.isCommand = false) → (playerMachine P cfg).exec s bs = some s' →
        (s'.counted.length : ℤ) ≤ s.counted.length + remain → s'.requests = [] →
          ∃ m ∈ cs, s'.tree.visits c < s'.tree.visits m) ∧
    ((∀ m ∈ cs, s.inFlight c ≤ s.inFlight m) → ∃ m ∈ cs, (s.due c : ℤ) + remain < s.due m) ∧
    ((∀ m ∈ cs, s.due m ≤ s.due c) →
      ∀ bs s', (∀ b ∈ bs, b.isCommand = false) → (playerMachine P cfg).exec s bs = some s' →
        s'.counted = s.counted → s'.requests = [] →
          ∀ m ∈ cs, s'.tree.visits m ≤ s'.tree.visits c) := by
  have wf := structured_run run
  have below {m : ℕ} (hm : m ∈ cs) : Below s.tree.father m root :=
    below_of_father (wf.wf.father_of_mem hcs hm)
  -- when all replies are in, the visits are those that were due
  have final {s' : Player B K} (answered : s'.requests = []) (m : ℕ) :
      s'.due m = s'.tree.visits m := by
    rw [Player.due, Player.inFlight, answered]
    rfl
  refine ⟨?_, ?_, ?_⟩
  · rintro ⟨m, hm, ahead⟩ bs s' search rest counted answered
    have ours := accrues_run wf hroot (below hc) search rest
    have theirs := accrues_run wf hroot (below hm) search rest
    refine ⟨m, hm, ?_⟩
    rw [← final answered, ← final answered]
    have most := ours.counted
    have least := theirs.grows
    omega
  · intro flight
    obtain ⟨m, hm, ahead⟩ := exists_of_lt_visitPruneThr (by omega) skipped
    have fewer := flight m hm
    refine ⟨m, hm, ?_⟩
    rw [Player.due, Player.due]
    omega
  · intro ahead bs s' search rest counted answered m hm
    have ours := accrues_run wf hroot (below hc) search rest
    have theirs := accrues_run wf hroot (below hm) search rest
    rw [← final answered, ← final answered]
    have least := ours.grows
    have most := theirs.counted
    have before := ahead m hm
    rw [counted] at most
    omega

end Steps

/-- The selections of `rollout(1)` in a turn of so many rollouts, where so many
were counted before the turn.  The rollouts that remain are what the source
computes. -/
def RolloutTurn (dynamicRollout : ℤ) (before : ℕ) (s : Player B K) : Action K → Prop
  | .select max remain =>
      max = 1 ∧ remain = dynamicRollout - (s.counted.length - before) ∧ 0 < remain
  | .play _ | .genApplyMove => False
  | _ => True

instance (dynamicRollout : ℤ) (before : ℕ) (s : Player B K) :
    DecidablePred (RolloutTurn dynamicRollout before s)
  | .select _ _ => inferInstanceAs (Decidable (_ ∧ _ ∧ _))
  | .play _ | .genApplyMove => .isFalse id
  | .decide _ | .reply .. | .recycle _ | .stop => .isTrue trivial

/-- An iteration of a single thread. -/
def iteration (remain : ℤ) : List (Action ℚ) := [.select 1 remain, .decide 0]

/-- A reply with one stone and a pass. -/
def stoneReply (i : ℕ) (value : ℚ) (pos : ℤ) : Action ℚ := .reply i value [⟨pos, 1⟩, ⟨-1, 0⟩]

/-- A turn of four rollouts, of which one remains: two went to the stone. -/
def aheadRun : List (Action ℚ) :=
  iteration 4 ++ [.reply 0 0 [⟨72, 9 / 10⟩, ⟨-1, 1 / 10⟩]] ++ iteration 3 ++
    [stoneReply 0 (-1) 60] ++ iteration 2 ++ [stoneReply 0 1 62]

/-- The pass is skipped, and ends behind the stone. -/
theorem pruning_keeps_outcome_ahead : ∃ s s' : Player Stones ℚ,
    (playerMachine pachi finerSettings).exec newGame aheadRun = some s ∧
      (playerMachine pachi finerSettings).exec s (iteration 1 ++ [stoneReply 0 0 64]) = some s' ∧
      ∃ m ∈ [1, 2], s'.tree.visits 2 < s'.tree.visits m := by
  have first : ((playerMachine pachi finerSettings).exec newGame aheadRun).map (fun s =>
      (s.root, (s.tree.nodes 0).nexts,
        decide ((s.tree.visits 2 : ℤ) < s.tree.visitPruneThr [1, 2] 1), s.due 1, s.due 2,
        s.counted.length)) = some (some 0, some [1, 2], true, 2, 0, 3) := by
    decide +kernel
  obtain ⟨s, run, facts⟩ := Option.map_eq_some_iff.mp first
  simp only [Prod.mk.injEq, decide_eq_true_eq] at facts
  obtain ⟨hroot, hcs, skipped, stone, pass, counted⟩ := facts
  have second : ((playerMachine pachi finerSettings).exec newGame
      (aheadRun ++ (iteration 1 ++ [stoneReply 0 0 64]))).map (fun s =>
        (s.counted.length, s.requests.length)) = some (4, 0) := by decide +kernel
  rw [Verif.Machine.exec_append, run, Option.bind_some] at second
  obtain ⟨s', rest, counts⟩ := Option.map_eq_some_iff.mp second
  simp only [Prod.mk.injEq, List.length_eq_zero_iff] at counts
  refine ⟨s, s', run, rest, (pruning_keeps_outcome run hroot hcs (by decide) skipped).1
    ⟨1, by decide, ?_⟩ _ s' (by decide) rest ?_ counts.2⟩
  · rw [stone, pass]
    decide
  · rw [counts.1, counted]
    decide

/-- A turn of thirteen rollouts, of which one remains.  The stone has three
visits and three requests in flight, the pass has five visits; two visits behind
the pass, the stone seems out of reach. -/
def inFlightRun : List (Action ℚ) :=
  iteration 13 ++ [.reply 0 0 [⟨72, 9 / 10⟩, ⟨-1, 1 / 10⟩]] ++ iteration 12 ++
    [stoneReply 0 1 60] ++ iteration 11 ++ iteration 10 ++ [stoneReply 0 (1 / 2) 62] ++
    iteration 9 ++ [stoneReply 1 0 64] ++ iteration 8 ++ [stoneReply 0 (-1) 66] ++ iteration 7 ++
    [stoneReply 0 (1 / 2) 68, stoneReply 0 (-1) 130] ++ iteration 6 ++ iteration 5 ++
    iteration 4 ++ iteration 3 ++ iteration 2 ++
    [stoneReply 1 (-1 / 2) 132, stoneReply 3 (1 / 2) 134]

/-- The replies that are outstanding then. -/
def outstandingReplies : List (Action ℚ) :=
  [stoneReply 0 0 200, stoneReply 0 0 202, stoneReply 0 0 204]

/-- The stone is skipped, since the one rollout that remains cannot make up for
two visits.  When the three replies are in, it has the most visits of all
children. -/
theorem pruning_changes_outcome : ∃ (s s' : Player Stones ℚ) (root : ℕ) (cs : List ℕ) (c : ℕ),
    (playerMachine pachi finerSettings).exec newGame inFlightRun = some s ∧
      (playerMachine pachi finerSettings).Guarded OneThread newGame inFlightRun ∧
      (playerMachine pachi finerSettings).Guarded (RolloutTurn 13 0) newGame inFlightRun ∧
      s.selections = [] ∧ s.root = some root ∧ (s.tree.nodes root).nexts = some cs ∧ c ∈ cs ∧
      (s.tree.nodes c).skipped = false ∧
      (s.tree.visits c : ℤ) < s.tree.visitPruneThr cs (13 - s.counted.length) ∧
      (playerMachine pachi finerSettings).exec s outstandingReplies = some s' ∧
      s'.counted = s.counted ∧ s'.requests = [] ∧
      ∀ m ∈ cs, m ≠ c → s'.tree.visits m < s'.tree.visits c := by
  have first : ((playerMachine pachi finerSettings).exec newGame inFlightRun).map (fun s =>
      (s.selections.isEmpty && !(s.tree.nodes 1).skipped, s.root, (s.tree.nodes 0).nexts,
        decide ((s.tree.visits 1 : ℤ) < s.tree.visitPruneThr [1, 2] (13 - s.counted.length)),
        s.counted)) = some (true, some 0, some [1, 2], true,
          [0, 1, 2, 3, 5, 7, 9, 13, 11, 4, 10, 6]) := by decide +kernel
  obtain ⟨s, run, facts⟩ := Option.map_eq_some_iff.mp first
  simp only [Prod.mk.injEq, Bool.and_eq_true, List.isEmpty_iff, Bool.not_eq_true',
    decide_eq_true_eq] at facts
  obtain ⟨⟨idle, unmarked⟩, hroot, hcs, skipped, counted⟩ := facts
  have second : ((playerMachine pachi finerSettings).exec newGame
      (inFlightRun ++ outstandingReplies)).map (fun s =>
        (s.requests.length, s.tree.visits 1, s.tree.visits 2, s.counted)) =
          some (0, 6, 5, [0, 1, 2, 3, 5, 7, 9, 13, 11, 4, 10, 6]) := by decide +kernel
  rw [Verif.Machine.exec_append, run, Option.bind_some] at second
  obtain ⟨s', rest, counts⟩ := Option.map_eq_some_iff.mp second
  simp only [Prod.mk.injEq, List.length_eq_zero_iff] at counts
  obtain ⟨answered, stone, pass, counted'⟩ := counts
  refine ⟨s, s', 0, [1, 2], 1, run, by decide +kernel, by decide +kernel, idle, hroot, hcs,
    by decide, unmarked, skipped, rest, counted'.trans counted.symm, answered, ?_⟩
  simp [stone, pass]

end EstarGo
