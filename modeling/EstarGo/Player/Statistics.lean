import EstarGo.Player.Structure
import EstarGo.Tree.Statistics

/-!
# The counts of a whole game

The tallies hold of every reachable player, over re-rootings, replies in any
order and pointers that expire.  Between re-rootings, `totalN` of the root and
the requests below it without a reply grow together, by one for each counted
iteration that ended below the root.

## Main definitions

* `OneThread`, `Action.Bounded` — a search of one thread; signs and values in
  [-1, 1].
* `Signed` — the signs and results that a player stores.
* `Grows` — how the count of the root grows.

## Main results

* `tallied_run`: the tallies of every reachable player.
* `grows_run`: the growth of the root over a search.
* `statistics_of_run`: both together.

## Design notes

**Counted and not counted.**  `rollout_in_turn` counts an iteration that asked
or backed up a result.  One that ended at the root changes no child, one that
asked is counted in `totalN` when the reply comes, and one that marked a
repetition or visited a leaf again is not counted at all.
-/

namespace EstarGo

open Verif

variable {B K : Type}

/-- The commands that may change the root.  The other steps are those of a
search. -/
def Action.isCommand : Action K → Bool
  | .play _ => true
  | .genApplyMove => true
  | _ => false

/-- A command is no step of a search. -/
theorem Action.not_search_of_command {a : Action K} (h : a = .genApplyMove ∨ ∃ pos, a = .play pos)
    (search : a.isCommand = false) : False := by
  rcases h with rfl | ⟨pos, rfl⟩
  · cases search
  · cases search

/-- A search of one thread: an iteration selects when the one before it has
decided.  Replies may still come in between, since they are handled by threads
of the evaluator. -/
def OneThread (s : Player B K) : Action K → Prop
  | .select _ _ => s.selections = []
  | _ => True

instance (s : Player B K) : DecidablePred (OneThread s)
  | .select _ _ => decidable_of_iff (s.selections.isEmpty = true) List.isEmpty_iff
  | .decide _ | .reply .. | .play _ | .genApplyMove | .recycle _ | .stop => .isTrue trivial

/-- The unanswered requests for nodes strictly below the root. -/
def Player.unanswered (s : Player B K) : ℕ := s.requests.countP fun rq => s.belowRoot rq.leaf

section Bounds

variable [Field K] [LinearOrder K] {P : Pachi B} {cfg : Settings K} {s s' : Player B K}

/-- `rollout()` is called with 1 or -1, and values lie in [-1, 1].  The first is
what the two callers do; the second is a promise of the network. -/
def Action.Bounded : Action K → Prop
  | .select max _ => max = 1 ∨ max = -1
  | .reply _ value _ => |value| ≤ 1
  | _ => True

instance : DecidablePred (Action.Bounded (K := K))
  | .select max _ => inferInstanceAs (Decidable (max = 1 ∨ max = -1))
  | .reply _ value _ => inferInstanceAs (Decidable (|value| ≤ 1))
  | .decide _ | .play _ | .genApplyMove | .recycle _ | .stop => .isTrue trivial

/-- The signs and results that are stored are in [-1, 1].  What a backup adds to
an edge is one of them, or such a sign times a value, so the `w` of an edge lies
between `-n` and `n`. -/
structure Signed (s : Player B K) : Prop where
  results : ∀ v, |(s.tree.nodes v).result| ≤ 1
  selected : ∀ sel ∈ s.selections, |sel.max| ≤ 1
  asked : ∀ rq ∈ s.requests, |rq.minMax| ≤ 1 ∧ |rq.trompTaylor| ≤ 1

/-- A request carries a sign and a score, either of which may be negated. -/
theorem signed_requestFor {rootBoard curBoard : GoBoard B} {nd : Node K} {leaf : ℕ} {max : ℤ}
    (hmax : |max| ≤ 1) :
    |(requestFor P cfg rootBoard curBoard nd leaf max).minMax| ≤ 1 ∧
      |(requestFor P cfg rootBoard curBoard nd leaf max).trompTaylor| ≤ 1 := by
  unfold requestFor
  refine ⟨?_, ?_⟩
  · dsimp only
    split
    · rwa [abs_neg]
    · exact hmax
  · dsimp only
    split
    · split <;> split <;> simp
    · simp

theorem signed_step {a : Action K} (wf : Structured s) (hs : Signed s) (bounded : a.Bounded)
    (h : s.step P cfg a = some s') : Signed s' := by
  have kept {i : ℕ} {sel : Selection B} (hsel : sel ∈ s.selections.eraseIdx i) : |sel.max| ≤ 1 :=
    hs.selected sel (List.eraseIdx_subset hsel)
  cases moves_of_step h with
  | select root max remain t leaf board max' hroot found =>
      obtain ⟨path, -, rfl⟩ := wf.exists_path found
      refine ⟨fun v => ?_, fun sel hsel => ?_, hs.asked⟩
      · rw [Tree.nodes_addPathVl]
        exact hs.results v
      · rcases List.mem_append.mp hsel with hsel | hsel
        · exact hs.selected sel hsel
        · rw [List.mem_singleton.mp hsel]
          rcases bounded with rfl | rfl <;> simp
  | repetition i sel hsel flag =>
      refine ⟨fun v => ?_, fun sel => kept, hs.asked⟩
      rw [Tree.modify_field (·.result) (fun nd => nd.setRepetition true) fun _ => rfl]
      exact hs.results v
  | finished i sel hsel flag result =>
      have marked := Tree.SameShape.of_modify (t := s.tree) sel.leaf (·.setRepetition false)
        fun _ => rfl
      have desc := (wf.wf.of_sameShape marked).descending_lock
      refine ⟨fun v => ?_, fun sel => kept, hs.asked⟩
      rw [Tree.nodes_mctsBackUpdate desc, Tree.backedUp,
        Tree.modify_field (·.result) (fun nd => nd.setRepetition false) fun _ => rfl]
      exact hs.results v
  | revisit i sel hsel flag result terminate sent =>
      refine ⟨fun v => ?_, fun sel => kept, hs.asked⟩
      rw [Tree.modify_field (·.result) (fun nd => (nd.setRepetition false).visitAgain)
        fun _ => rfl]
      exact hs.results v
  | request i sel hsel flag result terminate sent rq hrq =>
      refine ⟨fun v => ?_, fun sel => kept, fun rq' hrq' => ?_⟩
      · rw [Tree.modify_field (·.result) (fun nd => (nd.setRepetition false).send) fun _ => rfl]
        exact hs.results v
      · rcases List.mem_append.mp hrq' with hrq' | hrq'
        · exact hs.asked rq' hrq'
        · rw [List.mem_singleton.mp hrq', hrq]
          exact signed_requestFor (hs.selected sel (List.mem_of_getElem? hsel))
  | reply i rq value policy hrq =>
      obtain ⟨hleaf, hnexts⟩ := wf.unexpanded hrq
      refine ⟨fun v => ?_, hs.selected, fun rq' hrq' => hs.asked rq' (List.eraseIdx_subset hrq')⟩
      rw [Player.evaluateCallback]
      rcases Tree.expand_cases s.tree (keptItems cfg policy) v with hlt | ⟨k, item, hk, rfl⟩ | hge
      · rw [Tree.nodes_answer_of_lt wf.wf hleaf hnexts hlt]
        exact hs.results v
      · rw [Tree.nodes_answer_child wf.wf hleaf hnexts hk, childNode]
        dsimp only
        split
        · exact (hs.asked rq (List.mem_of_getElem? hrq)).2
        · simp
      · rw [Tree.nodes_answer_fresh wf.wf hleaf hnexts hge]
        exact hs.results v
  | freshRoot pos root board action opAction hroot idle applied =>
      refine ⟨fun v => ?_, hs.selected, hs.asked⟩
      by_cases hv : v = s.tree.next
      · subst hv
        simp [Player.newRoot, Node.new]
      · rw [Player.newRoot, Tree.nodes_alloc_of_ne hv]
        exact hs.results v
  | childRoot | resigned | stopped => exact ⟨hs.results, hs.selected, hs.asked⟩
  | recycle v dropped =>
      refine ⟨fun u => ?_, hs.selected, hs.asked⟩
      rw [Tree.modify_field (·.result) Node.expireFather fun _ => rfl]
      exact hs.results u
  | ignored => exact hs

omit [LinearOrder K] in
theorem signed_start (board : GoBoard B) : Signed (Player.start board : Player B K) := by
  refine ⟨fun v => ?_, by simp [Player.start], by simp [Player.start]⟩
  simp [Player.nodes_start, Node.new]

/-! ## The tallies

`Tallied` of the tree, with no node between its expansion and its backup. -/

section Tallies

variable [IsStrictOrderedRing K]

/-- A step keeps the tallies: backups count a whole line, and an answer counts
the line of its leaf. -/
theorem tallied_step {a : Action K} (wf : Structured s) (signed : Signed s)
    (hs : s.tree.Tallied none) (bounded : a.Bounded) (h : s.step P cfg a = some s') :
    s'.tree.Tallied none := by
  cases moves_of_step h with
  | select root max remain t leaf board max' hroot found =>
      obtain ⟨path, -, rfl⟩ := wf.exists_path found
      have nodes (v : ℕ) := Tree.nodes_addPathVl s.tree path cfg.virtualLoss v
      refine hs.of_same (fun v => ?_) (fun v => ?_) (fun v => ?_) (fun v => ?_) (fun v => ?_)
        (fun v hv => ?_)
      · rw [nodes]
      · rw [nodes, Option.map_map]
        rfl
      · rw [nodes]
      · rw [nodes]
      · rw [nodes]
      · rwa [Tree.lock, nodes] at hv
  | repetition i sel hsel flag =>
      exact hs.of_modify sel.leaf (fun nd => nd.setRepetition true) (fun _ => rfl) (fun _ => rfl)
        (fun _ => rfl) (fun _ => rfl) (fun _ => rfl) fun _ => id
  | finished i sel hsel flag result =>
      have shape := Tree.SameShape.of_modify (t := s.tree) sel.leaf (·.setRepetition false)
        fun _ => rfl
      have marked := hs.of_modify sel.leaf (·.setRepetition false) (fun _ => rfl)
        (fun _ => rfl) (fun _ => rfl) (fun _ => rfl) (fun _ => rfl) fun _ => id
      obtain ⟨undecided, answered, -, finished⟩ := wf.nodes sel.leaf
      have decided : (s.tree.nodes sel.leaf).result ≠ 0 :=
        result.resolve_right (by simp [undecided])
      have unready : (s.tree.nodes sel.leaf).evalReady = false := by
        simpa [finished decided] using mt answered
      refine marked.backUp (wf.wf.of_sameShape shape) ?_ (.inr ⟨rfl, ?_, ?_⟩)
      · exact_mod_cast signed.results sel.leaf
      · rw [shape.evalReady, unready]
      · rwa [Tree.modify_field (·.result) (fun nd => nd.setRepetition false) fun _ => rfl]
  | revisit i sel hsel flag result terminate sent =>
      exact hs.of_modify sel.leaf (fun nd => (nd.setRepetition false).visitAgain) (fun _ => rfl)
        (fun _ => rfl) (fun _ => rfl) (fun _ => rfl) (fun _ => rfl) fun _ => id
  | request i sel hsel flag result terminate sent rq hrq =>
      exact hs.of_modify sel.leaf (fun nd => (nd.setRepetition false).send) (fun _ => rfl)
        (fun _ => rfl) (fun _ => rfl) (fun _ => rfl) (fun _ => rfl) fun _ => id
  | reply i rq value policy hrq =>
      obtain ⟨hleaf, hnexts⟩ := wf.unexpanded hrq
      have sent := (wf.asked rq (List.mem_of_getElem? hrq)).2.1
      have result : (s.tree.nodes rq.leaf).result = 0 := by
        by_contra result
        simp [(wf.nodes rq.leaf).finished result] at sent
      refine hs.answer wf.wf hleaf hnexts result ?_
      have sign : |(rq.minMax : K)| ≤ 1 := by
        exact_mod_cast (signed.asked rq (List.mem_of_getElem? hrq)).1
      rw [abs_mul]
      exact mul_le_one₀ bounded (abs_nonneg _) sign
  | freshRoot pos root board action opAction hroot idle applied =>
      exact hs.alloc wf.wf rfl rfl rfl rfl
  | childRoot | resigned | stopped | ignored => exact hs
  | recycle v dropped =>
      exact hs.of_modify v Node.expireFather (fun _ => rfl) (fun _ => rfl) (fun _ => rfl)
        (fun _ => rfl) (fun _ => rfl) fun _ h => by simp [Node.lock, Node.expireFather] at h

omit [IsStrictOrderedRing K] in
/-- A new player has no counts. -/
theorem tallied_start (board : GoBoard B) :
    (Player.start board : Player B K).tree.Tallied none := by
  refine ⟨fun v cs h => ?_, fun v _ => ?_, fun v e h => ?_, fun v _ h => ?_, fun v _ _ _ => ?_⟩
  · simp [Player.nodes_start, Node.new] at h
  · simp [Player.nodes_start, Node.new]
  · simp [Player.nodes_start, Node.new] at h
  · simp [Player.nodes_start, Node.new] at h
  · simp [Tree.visits, Player.nodes_start, Node.new]

/-- **The tallies of every reachable player.**  At every moment `total_n` of a
node is the sum of the visits of its children, because a backup counts at a node
and on one edge below it together. -/
theorem tallied_run {board : GoBoard B} {as : List (Action K)}
    (bounded : ∀ a ∈ as, a.Bounded)
    (run : (playerMachine P cfg).exec (Player.start board) as = some s) :
    Structured s ∧ Signed s ∧ s.tree.Tallied none :=
  (playerMachine P cfg).invariant (G := fun _ => Action.Bounded)
    (I := fun s => Structured s ∧ Signed s ∧ s.tree.Tallied none)
    (fun ⟨wf, signed, hs⟩ hb h =>
      ⟨structured_step wf h, signed_step wf signed hb h, tallied_step wf signed hs hb h⟩)
    ⟨structured_start board, signed_start board, tallied_start board⟩
    ((playerMachine P cfg).guarded_of_forall_mem bounded _) run

end Tallies

/-! ## The growth of the root

A request counts while it is unanswered, and its backup counts when it is. -/

/-- From one state to a later one, `totalN` of the root and the unanswered
requests below it grow by the counted iterations that ended below it. -/
def Grows (root : ℕ) (s s' : Player B K) : Prop :=
  s'.root = some root ∧ ∃ new, s'.counted = s.counted ++ new ∧
    (s'.tree.nodes root).totalN + s'.unanswered =
      (s.tree.nodes root).totalN + s.unanswered + new.countP (· ≠ root)

omit [Field K] [LinearOrder K] in
theorem Grows.refl {root : ℕ} (hroot : s.root = some root) : Grows root s s :=
  ⟨hroot, [], (List.append_nil _).symm, rfl⟩

omit [Field K] [LinearOrder K] in
theorem Grows.trans {s'' : Player B K} {root : ℕ} (h : Grows root s s')
    (h' : Grows root s' s'') : Grows root s s'' := by
  obtain ⟨-, new, hnew, htotal⟩ := h
  obtain ⟨hroot, new', hnew', htotal'⟩ := h'
  refine ⟨hroot, new ++ new', by rw [hnew', hnew, List.append_assoc], ?_⟩
  rw [htotal', htotal, List.countP_append, Nat.add_assoc]

omit [Field K] [LinearOrder K] in
/-- Being below the root depends on the pointers and on the root. -/
theorem belowRoot_congr (root : s'.root = s.root) (father : s'.tree.father = s.tree.father)
    (v : ℕ) : s'.belowRoot v = s.belowRoot v := by
  simp only [Player.belowRoot, root, father]

omit [Field K] [LinearOrder K] in
/-- A step that keeps the pointers and adds requests. -/
theorem Grows.of_sameShape {root : ℕ} (hroot : s.root = some root)
    (shape : Tree.SameShape s.tree s'.tree) (same : s'.root = s.root) (asked : List Request)
    (requests : s'.requests = s.requests ++ asked) (new : List ℕ)
    (counted : s'.counted = s.counted ++ new)
    (total : (s'.tree.nodes root).totalN + asked.countP (fun rq => s.belowRoot rq.leaf) =
      (s.tree.nodes root).totalN + new.countP (· ≠ root)) : Grows root s s' := by
  refine ⟨same.trans hroot, new, counted, ?_⟩
  simp only [Player.unanswered, requests, List.countP_append, belowRoot_congr same shape.father]
  omega

omit [Field K] [LinearOrder K] in
/-- The leaf of an iteration is strictly below the root, or the root. -/
theorem Structured.belowRoot_leaf (wf : Structured s) {root leaf : ℕ} (hroot : s.root = some root)
    (above : AtOrBelow s.tree.father leaf root) : s.belowRoot leaf = decide (leaf ≠ root) := by
  rw [Bool.eq_iff_iff, wf.belowRoot_iff hroot, decide_eq_true_eq]
  constructor
  · rintro below rfl
    exact not_below_self wf.wf.descending below
  · exact (atOrBelow_iff.mp above).resolve_left

omit [LinearOrder K] in
/-- A backup counts the root where it starts strictly below it. -/
theorem Structured.totalN_backUp (wf : Structured s) {root u : ℕ} (hroot : s.root = some root)
    {vl : ℤ} {z : K} {invalidVisit : ℕ} :
    ((s.tree.mctsBackUpdate u vl z invalidVisit).nodes root).totalN =
      (s.tree.nodes root).totalN + (s.belowRoot u).toNat := by
  classical
  rw [Tree.nodes_mctsBackUpdate wf.wf.descending_lock, Tree.backedUp]
  simp only [wf.below_lock_iff hroot, ← wf.belowRoot_iff hroot]
  cases s.belowRoot u <;> rfl

/-- An answer counts the root where its leaf is strictly below it. -/
theorem grows_reply (wf : Structured s) {root : ℕ} (hroot : s.root = some root) {i : ℕ}
    {rq : Request} {value : K} {policy : List (PolicyItem K)} (hrq : s.requests[i]? = some rq) :
    Grows root s ({ s with requests := s.requests.eraseIdx i }.evaluateCallback P cfg rq value
      policy) := by
  classical
  obtain ⟨hleaf, hnexts⟩ := wf.unexpanded hrq
  have wf' : Structured ({ s with requests := s.requests.eraseIdx i }.evaluateCallback P cfg rq
      value policy) := structured_reply wf hrq
  -- the other requests are where they were
  have others : (s.requests.eraseIdx i).countP (fun rq' =>
      ({ s with requests := s.requests.eraseIdx i }.evaluateCallback P cfg rq value
        policy).belowRoot rq'.leaf) =
      (s.requests.eraseIdx i).countP fun rq' => s.belowRoot rq'.leaf := by
    refine List.countP_congr fun rq' hrq' => ?_
    rw [wf'.belowRoot_iff hroot, wf.belowRoot_iff hroot]
    exact Tree.below_answer wf.wf hleaf hnexts (wf.asked rq' (List.eraseIdx_subset hrq')).1
  refine ⟨hroot, [], (List.append_nil _).symm, ?_⟩
  have count := (cons_eraseIdx_perm hrq).countP_eq fun rq' => s.belowRoot rq'.leaf
  have total : (({ s with requests := s.requests.eraseIdx i }.evaluateCallback P cfg rq value
      policy).tree.nodes root).totalN =
        (s.tree.nodes root).totalN + if s.belowRoot rq.leaf then 1 else 0 := by
    rw [Player.evaluateCallback, Tree.nodes_answer_of_lt wf.wf hleaf hnexts (wf.root_lt root hroot)]
    simp only [wf.below_lock_iff hroot, wf.belowRoot_iff hroot]
  rw [List.countP_cons] at count
  rw [total, Player.unanswered, Player.unanswered, ← count]
  refine Eq.trans ?_ (Nat.add_zero _).symm
  simp only [Player.evaluateCallback] at others ⊢
  omega

/-- A step of a search, by its outcome. -/
theorem grows_step {a : Action K} (wf : Structured s) {root : ℕ} (hroot : s.root = some root)
    (search : a.isCommand = false) (h : s.step P cfg a = some s') : Grows root s s' := by
  have leaf_above {i : ℕ} {sel : Selection B} (hsel : s.selections[i]? = some sel) :
      AtOrBelow s.tree.father sel.leaf root := by
    obtain ⟨root', hroot', above⟩ := wf.selected sel (List.mem_of_getElem? hsel)
    rwa [Option.some.inj (hroot.symm.trans hroot')]
  cases moves_of_step h with
  | select root' max remain t leaf board max' hroot' found =>
      obtain ⟨path, -, rfl⟩ := wf.exists_path found
      refine Grows.of_sameShape hroot (Tree.SameShape.of_addPathVl s.tree path cfg.virtualLoss)
        rfl [] (List.append_nil _).symm [] (List.append_nil _).symm ?_
      rw [Tree.nodes_addPathVl]
      rfl
  | repetition i sel hsel flag =>
      refine Grows.of_sameShape hroot
        (Tree.SameShape.of_modify sel.leaf (·.setRepetition true) fun _ => rfl)
        rfl [] (List.append_nil _).symm [] (List.append_nil _).symm ?_
      rw [Tree.modify_field (·.totalN) (fun nd => nd.setRepetition true) fun _ => rfl]
      rfl
  | finished i sel hsel flag result =>
      have shape := Tree.SameShape.of_modify (t := s.tree) sel.leaf (·.setRepetition false)
        fun _ => rfl
      have marked := wf.mark sel.leaf false
      refine Grows.of_sameShape hroot (wf.shape_finished sel.leaf _ _) rfl []
        (List.append_nil _).symm [sel.leaf] rfl ?_
      have below : ({ s with
          tree := s.tree.modify sel.leaf fun nd => nd.setRepetition false } :
            Player B K).belowRoot sel.leaf = decide (sel.leaf ≠ root) := by
        refine marked.belowRoot_leaf hroot ?_
        rw [shape.father]
        exact leaf_above hsel
      refine (marked.totalN_backUp hroot).trans ?_
      rw [below, Tree.modify_field (·.totalN) (fun nd => nd.setRepetition false) fun _ => rfl]
      by_cases hleaf : sel.leaf = root <;> simp [hleaf]
  | revisit i sel hsel flag result terminate sent =>
      refine Grows.of_sameShape hroot
        (Tree.SameShape.of_modify sel.leaf (fun nd => (nd.setRepetition false).visitAgain)
          fun _ => rfl)
        rfl [] (List.append_nil _).symm [] (List.append_nil _).symm ?_
      rw [Tree.modify_field (·.totalN) (fun nd => (nd.setRepetition false).visitAgain)
        fun _ => rfl]
      rfl
  | request i sel hsel flag result terminate sent rq hrq =>
      refine Grows.of_sameShape hroot
        (Tree.SameShape.of_modify sel.leaf (fun nd => (nd.setRepetition false).send) fun _ => rfl)
        rfl [rq] rfl [sel.leaf] rfl ?_
      have leaf : rq.leaf = sel.leaf := by rw [hrq]; rfl
      rw [Tree.modify_field (·.totalN) (fun nd => (nd.setRepetition false).send) fun _ => rfl]
      simp only [List.countP_singleton, leaf, wf.belowRoot_leaf hroot (leaf_above hsel)]
  | reply i rq value policy hrq => exact grows_reply wf hroot hrq
  | freshRoot | resigned => cases search
  | childRoot _ _ _ _ _ _ _ command => exact (Action.not_search_of_command command search).elim
  | recycle v dropped =>
      refine Grows.of_sameShape hroot (Tree.SameShape.of_modify v Node.expireFather fun _ => rfl)
        rfl [] (List.append_nil _).symm [] (List.append_nil _).symm ?_
      rw [Tree.modify_field (·.totalN) Node.expireFather fun _ => rfl]
      rfl
  | stopped => exact ⟨hroot, [], (List.append_nil _).symm, rfl⟩
  | ignored => exact Grows.refl hroot

/-- A whole search, by induction on its steps.  The counted iterations of a run
are those of its first step and those of the rest, and both sides of the
equation add up. -/
theorem grows_run {root : ℕ} {bs : List (Action K)} (wf : Structured s)
    (hroot : s.root = some root) (search : ∀ b ∈ bs, b.isCommand = false)
    (run : (playerMachine P cfg).exec s bs = some s') : Grows root s s' :=
  ((playerMachine P cfg).invariant (G := fun _ b => b.isCommand = false)
    (I := fun s' => Structured s' ∧ Grows root s s')
    (fun ⟨wf, grown⟩ hb h =>
      ⟨structured_step wf h, grown.trans (grows_step wf grown.1 hb h)⟩)
    ⟨wf, Grows.refl hroot⟩ ((playerMachine P cfg).guarded_of_forall_mem search _) run).2

/-- **The search statistics.**  At and below the root of a reachable player,
`totalN` of a node is the sum of `n` over its children, whose `w` is at most
`n`; strictly below it, an answered node has one visit more than that.  Over a
search that follows, `totalN` of the root and the unanswered requests below it
grow by the counted iterations that ended below the root. -/
theorem statistics_of_run [IsStrictOrderedRing K] {board : GoBoard B} {as bs : List (Action K)}
    {root : ℕ} (bounded : ∀ a ∈ as, a.Bounded)
    (run : (playerMachine P cfg).exec (Player.start board) as = some s)
    (hroot : s.root = some root) (search : ∀ b ∈ bs, b.isCommand = false)
    (rest : (playerMachine P cfg).exec s bs = some s') :
    (∀ v, AtOrBelow s.tree.father v root →
      (s.tree.nodes v).totalN = (((s.tree.nodes v).nexts.getD []).map s.tree.visits).sum ∧
      ∀ c ∈ (s.tree.nodes v).nexts.getD [],
        ∃ e, (s.tree.nodes c).edge = some e ∧ |e.w| ≤ e.n) ∧
    (∀ v, Below s.tree.father v root → (s.tree.nodes v).evalReady = true →
      s.tree.visits v = (s.tree.nodes v).totalN + 1) ∧
    s'.root = some root ∧ ∃ new, s'.counted = s.counted ++ new ∧
      (s'.tree.nodes root).totalN + s'.unanswered =
        (s.tree.nodes root).totalN + s.unanswered + new.countP (· ≠ root) := by
  obtain ⟨wf, -, tallied⟩ := tallied_run bounded run
  refine ⟨fun v _ => ?_, fun v hv ready => ?_, grows_run wf hroot search rest⟩
  · cases hnexts : (s.tree.nodes v).nexts with
    | none => exact ⟨tallied.unexpanded v hnexts, by simp⟩
    | some cs =>
        refine ⟨tallied.total v cs hnexts, fun c hc => ?_⟩
        obtain ⟨e, he⟩ := wf.wf.exists_edge (wf.wf.father_of_mem hnexts hc)
        exact ⟨e, he, tallied.bounded c e he⟩
  · have locked : (s.tree.lock v).isSome := by
      rw [wf.lock_eq hroot hv]
      obtain ⟨f, hf, -⟩ := hv
      simp [hf]
    simpa using tallied.processed v locked ready

end Bounds

/-- A search that follows one answer. -/
theorem statistics_of_run_searched : ∃ s s' : Player Stones ℚ,
    s'.root = some 0 ∧ ∃ new, s'.counted = s.counted ++ new ∧
      (s'.tree.nodes 0).totalN + s'.unanswered =
        (s.tree.nodes 0).totalN + s.unanswered + new.countP (· ≠ 0) := by
  have first : (((playerMachine pachi shippedSettings).exec newGame (searchedGame.take 3)).map
      fun s => s.root) = some (some 0) := by decide +kernel
  obtain ⟨s, run, hroot⟩ := Option.map_eq_some_iff.mp first
  have second : (((playerMachine pachi shippedSettings).exec newGame
      (searchedGame.take 3 ++ (searchedGame.drop 3).take 3)).isSome) = true := by decide +kernel
  rw [Verif.Machine.exec_append, run, Option.bind_some] at second
  obtain ⟨s', rest⟩ := Option.isSome_iff_exists.mp second
  exact ⟨s, s', (statistics_of_run (by decide +kernel) run hroot (by decide) rest).2.2⟩

end EstarGo
