import EstarGo.Player.Flags
import EstarGo.Player.Statistics
import EstarGo.Player.VirtualLoss
import EstarGo.Tree.Score

/-!
# The root of a search

A node that was sent stands for a board without the repetition flag, and a pass
does not raise it.  So the pass child of an expanded node is never marked as a
repetition, and a descent always finds a child.

The root itself can stand for a board with the flag, or have a result of its
own.  Then no iteration sends it, and `mcts_select_action` finds no list of
children.

## Main definitions

* `Action.Served` — the promises on a reply.
* `Opened` — what the children of expanded nodes keep.
* `Kept` — what every player keeps whose replies keep their promises.
* `Begun` — the search of the root has begun.

## Main results

* `searchable_of_run`: a descent in a reachable player is safe.
* `search_opens_root_iff`: a search opens its root exactly where the root's
  board has no flag and the root no result.
* `flagged_root_never_opened`: a game after which the root is never opened.

## Design notes

**Promises of the evaluator.**  Nothing in the source checks a reply.  A policy
without a pass can leave a node whose children are all marked, and a descent
then follows a null pointer; a negative prior can push every score below the one
that a scan starts with.  So the results ask that priors are not negative and
that the policy holds a pass.

**Both directions.**  Where the root's board has the flag, its leaf is always
marked and never sent, so the other direction needs no promise on the search but
that it has an iteration.
-/

namespace EstarGo

open Verif

variable {B K : Type} [Field K] [LinearOrder K]

/-- The promises on a reply: priors are not negative, and the policy holds a
pass.  A pass is always legal and is kept whatever its prior, so a node that is
answered gets a child. -/
def Action.Served : Action K → Prop
  | .reply _ _ policy =>
      (∀ item ∈ policy, 0 ≤ item.prob) ∧ ∃ item ∈ policy, item.pos = GoBoard.posPass
  | _ => True

instance : DecidablePred (Action.Served (K := K))
  | .reply _ _ policy => inferInstanceAs (Decidable
      ((∀ item ∈ policy, 0 ≤ item.prob) ∧ ∃ item ∈ policy, item.pos = GoBoard.posPass))
  | .select .. | .decide _ | .play _ | .genApplyMove | .recycle _ | .stop => .isTrue trivial

/-- What was sent stands for a board without the flag, what was marked for one
with it; and the data of the replies: a pass among the children, priors that are
not negative, values in [-1, 1]. -/
structure Opened (s : Player B K) : Prop where
  sent : ∀ v, (s.tree.nodes v).rqSent = true → Flagged s v false
  marked : ∀ v, (s.tree.nodes v).isRepetition = true → Flagged s v true
  pass : ∀ v cs, (s.tree.nodes v).nexts = some cs →
    ∃ c ∈ cs, (s.tree.nodes c).edge.map (·.action) = some GoBoard.posPass
  prior : ∀ v e, (s.tree.nodes v).edge = some e → 0 ≤ e.p
  value : ∀ v, |(s.tree.nodes v).valuePred| ≤ 1

section Steps

variable {P : Pachi B} {cfg : Settings K} {s s' : Player B K}

/-- A step that keeps the pointers, the priors and the values. -/
theorem Opened.of_sameShape (hs : Opened s) (shape : Tree.SameShape s.tree s'.tree)
    (flags : Flags s')
    (prior : ∀ v, (s'.tree.nodes v).edge.map (·.p) = (s.tree.nodes v).edge.map (·.p))
    (value : ∀ v, (s'.tree.nodes v).valuePred = (s.tree.nodes v).valuePred) : Opened s' where
  sent := flags.sent
  marked := flags.marked
  pass v cs hcs := by
    rw [shape.nexts] at hcs
    simpa only [shape.action] using hs.pass v cs hcs
  prior v e he := by
    have := prior v
    rw [he, Option.map_some, eq_comm, Option.map_eq_some_iff] at this
    obtain ⟨e', he', hp⟩ := this
    rw [← hp]
    exact hs.prior v e' he'
  value v := by
    rw [value]
    exact hs.value v

/-- A change of one node that keeps its edge and its value. -/
theorem Opened.of_modify (hs : Opened s) (v : ℕ) (f : Node K → Node K)
    (tree : s'.tree = s.tree.modify v f) (flags : Flags s')
    (shape : ∀ nd, (f nd).shape = nd.shape) (edge : ∀ nd, (f nd).edge = nd.edge)
    (value : ∀ nd, (f nd).valuePred = nd.valuePred) : Opened s' := by
  refine hs.of_sameShape ?_ flags (fun u => ?_) (fun u => ?_)
  · rw [tree]
    exact Tree.SameShape.of_modify v f shape
  · rw [tree, Tree.modify_field (·.edge) f edge]
  · rw [tree, Tree.modify_field (·.valuePred) f value]

omit [Field K] in
/-- The kept items are items of the policy, and the passes are kept. -/
theorem mem_keptItems {policy : List (PolicyItem K)} {item : PolicyItem K} :
    item ∈ keptItems cfg policy ↔ item ∈ policy ∧
      (item.pos = GoBoard.posPass ∨ cfg.policyProbThreshold ≤ item.prob) := by
  rw [keptItems, List.mem_filter, List.mem_insertionSort]
  refine and_congr_right fun _ => ?_
  by_cases h : item.pos = GoBoard.posPass <;> simp [h]

section Reply

/-- The children of a reply hold the pass of its policy, and other children are
kept. -/
theorem pass_of_reply (wf : Structured s) {i : ℕ} {rq : Request} {value : K}
    {policy : List (PolicyItem K)} (hrq : s.requests[i]? = some rq)
    (pass : ∀ v cs, (s.tree.nodes v).nexts = some cs →
      ∃ c ∈ cs, (s.tree.nodes c).edge.map (·.action) = some GoBoard.posPass)
    (served : ∃ item ∈ policy, item.pos = GoBoard.posPass) {v : ℕ} {cs : List ℕ}
    (hs' : s' = { s with requests := s.requests.eraseIdx i }.evaluateCallback P cfg rq value
      policy) (hcs : (s'.tree.nodes v).nexts = some cs) :
    ∃ c ∈ cs, (s'.tree.nodes c).edge.map (·.action) = some GoBoard.posPass := by
  obtain ⟨hleaf, hnexts⟩ := wf.unexpanded hrq
  subst hs'
  rw [Player.evaluateCallback] at hcs ⊢
  rcases Tree.expand_cases s.tree (keptItems cfg policy) v with hlt | ⟨k, item, hk, rfl⟩ | hge
  · rw [Tree.nodes_answer_of_lt wf.wf hleaf hnexts hlt] at hcs
    by_cases hv : v = rq.leaf
    · -- the pass of the policy is among the new children
      obtain rfl : List.range' s.tree.next (keptItems cfg policy).length = cs := by
        simpa [hv] using hcs
      obtain ⟨item, hitem, hpass⟩ := served
      obtain ⟨k, hk⟩ := List.mem_iff_getElem?.mp (mem_keptItems.mpr ⟨hitem, .inl hpass⟩)
      refine ⟨s.tree.next + k, ?_, ?_⟩
      · rw [List.mem_range'_1, ← Tree.exists_child_iff s.tree (keptItems cfg policy)]
        exact ⟨k, item, hk, rfl⟩
      · rw [Tree.nodes_answer_child wf.wf hleaf hnexts hk]
        exact congrArg some hpass
    · have hcs : (s.tree.nodes v).nexts = some cs := by simpa [hv] using hcs
      obtain ⟨c, hc, haction⟩ := pass v cs hcs
      refine ⟨c, hc, ?_⟩
      rw [Tree.action_answer_of_lt wf.wf hleaf hnexts
        (wf.wf.lt_next_of_father (wf.wf.father_of_mem hcs hc))]
      exact haction
  · rw [Tree.nodes_answer_child wf.wf hleaf hnexts hk] at hcs
    cases hcs
  · rw [Tree.nodes_answer_fresh wf.wf hleaf hnexts hge,
      (wf.wf.fresh v (Nat.le_of_add_right_le hge)).2] at hcs
    cases hcs

variable [IsStrictOrderedRing K]

theorem opened_reply (wf : Structured s) (signed : Signed s) (hs : Opened s) {i : ℕ} {rq : Request}
    {value : K} {policy : List (PolicyItem K)} (hrq : s.requests[i]? = some rq)
    (bounded : |value| ≤ 1) (served : (Action.reply i value policy).Served)
    (flags : Flags ({ s with requests := s.requests.eraseIdx i }.evaluateCallback P cfg rq value
      policy)) :
    Opened ({ s with requests := s.requests.eraseIdx i }.evaluateCallback P cfg rq value
      policy) := by
  obtain ⟨hleaf, hnexts⟩ := wf.unexpanded hrq
  obtain ⟨prior, pass⟩ := served
  have sign : |(rq.minMax : K)| ≤ 1 := by
    exact_mod_cast (signed.asked rq (List.mem_of_getElem? hrq)).1
  refine ⟨flags.sent, flags.marked, fun v cs hcs => pass_of_reply wf hrq hs.pass pass rfl hcs,
    fun v e he => ?_, fun v => ?_⟩
  · rw [Player.evaluateCallback] at he
    rcases Tree.expand_cases s.tree (keptItems cfg policy) v with hlt | ⟨k, item, hk, rfl⟩ | hge
    · rw [Tree.nodes_answer_of_lt wf.wf hleaf hnexts hlt] at he
      dsimp only at he
      split at he
      · obtain ⟨e₀, he₀, rfl⟩ := Option.map_eq_some_iff.mp he
        exact hs.prior v e₀ he₀
      · exact hs.prior v e he
    · rw [Tree.nodes_answer_child wf.wf hleaf hnexts hk] at he
      obtain rfl : Edge.new item.pos item.prob = e := Option.some.inj he
      exact prior item (mem_keptItems.mp (List.mem_of_getElem? hk)).1
    · rw [Tree.nodes_answer_fresh wf.wf hleaf hnexts hge] at he
      exact hs.prior v e he
  · rw [Player.evaluateCallback]
    rcases Tree.expand_cases s.tree (keptItems cfg policy) v with hlt | ⟨k, item, hk, rfl⟩ | hge
    · rw [Tree.nodes_answer_of_lt wf.wf hleaf hnexts hlt]
      dsimp only
      split
      · rw [abs_mul]
        exact mul_le_one₀ bounded (abs_nonneg _) sign
      · exact hs.value v
    · rw [Tree.nodes_answer_child wf.wf hleaf hnexts hk]
      simp [childNode, Node.new]
    · rw [Tree.nodes_answer_fresh wf.wf hleaf hnexts hge]
      exact hs.value v

/-- A fresh root has no data. -/
theorem opened_newRoot (wf : Structured s) (hs : Opened s) (board : GoBoard B)
    (flags : Flags (s.newRoot board)) : Opened (s.newRoot board) := by
  have here : (s.newRoot board).tree.nodes s.tree.next =
      { Node.new none none with depth := board.getTotalMoves } := Tree.nodes_alloc_next
  have old {v : ℕ} (hv : v ≠ s.tree.next) :
      (s.newRoot board).tree.nodes v = s.tree.nodes v := Tree.nodes_alloc_of_ne hv
  refine ⟨flags.sent, flags.marked, fun v cs hcs => ?_, fun v e he => ?_, fun v => ?_⟩ <;>
    by_cases hv : v = s.tree.next
  · rw [hv, here] at hcs
    cases hcs
  · rw [old hv] at hcs
    obtain ⟨c, hc, haction⟩ := hs.pass v cs hcs
    have young := wf.wf.lt_next_of_father (wf.wf.father_of_mem hcs hc)
    exact ⟨c, hc, by rwa [old young.ne]⟩
  · rw [hv, here] at he
    cases he
  · rw [old hv] at he
    exact hs.prior v e he
  · rw [hv, here]
    simp [Node.new]
  · rw [old hv]
    exact hs.value v

/-- Each step keeps it, where its reply keeps the promises. -/
theorem opened_step {a : Action K} (wf : Structured s) (inStep : InStep P s) (signed : Signed s)
    (hs : Opened s) (bounded : a.Bounded) (served : a.Served)
    (h : s.step P cfg a = some s') : Opened s' := by
  have flags := flags_step wf inStep ⟨hs.sent, hs.marked⟩ h
  cases moves_of_step h with
  | select root max remain t leaf board max' hroot found =>
      obtain ⟨path, -, rfl⟩ := wf.exists_path found
      have nodes (v : ℕ) := Tree.nodes_addPathVl s.tree path cfg.virtualLoss v
      refine hs.of_sameShape (Tree.SameShape.of_addPathVl _ _ _) flags (fun v => ?_) (fun v => ?_)
      · rw [nodes, Option.map_map]
        rfl
      · rw [nodes]
  | repetition i sel hsel flag =>
      exact hs.of_modify sel.leaf (fun nd => nd.setRepetition true) rfl flags (fun _ => rfl)
        (fun _ => rfl) fun _ => rfl
  | finished i sel hsel flag result =>
      have desc := (wf.mark sel.leaf false).wf.descending_lock
      have nodes (v : ℕ) := Tree.nodes_mctsBackUpdate (z := ((s.tree.nodes sel.leaf).result : K))
        desc sel.leaf cfg.virtualLoss 0 v
      refine hs.of_sameShape (wf.shape_finished sel.leaf _ _) flags (fun v => ?_) (fun v => ?_)
      · rw [nodes, Tree.backedUp]
        dsimp only
        rw [Tree.modify_field (·.edge) (·.setRepetition false) fun _ => rfl]
        split
        · rw [Option.map_map]
          rfl
        · rfl
      · rw [nodes]
        exact Tree.modify_field (·.valuePred) (·.setRepetition false) (fun _ => rfl) _ _
  | revisit i sel hsel flag result terminate sent =>
      exact hs.of_modify sel.leaf (fun nd => (nd.setRepetition false).visitAgain) rfl flags
        (fun _ => rfl) (fun _ => rfl) fun _ => rfl
  | request i sel hsel flag result terminate sent rq hrq =>
      exact hs.of_modify sel.leaf (fun nd => (nd.setRepetition false).send) rfl flags
        (fun _ => rfl) (fun _ => rfl) fun _ => rfl
  | reply i rq value policy hrq => exact opened_reply wf signed hs hrq bounded served flags
  | freshRoot pos root board action opAction hroot idle applied =>
      exact opened_newRoot (s := { s with opAction := opAction })
        (wf.of_tree_eq rfl rfl rfl (List.Subset.refl _))
        ⟨hs.sent, hs.marked, hs.pass, hs.prior, hs.value⟩ board flags
  | childRoot | resigned | stopped => exact ⟨hs.sent, hs.marked, hs.pass, hs.prior, hs.value⟩
  | recycle v dropped =>
      exact hs.of_modify v Node.expireFather rfl flags (fun _ => rfl) (fun _ => rfl) fun _ => rfl
  | ignored => exact hs

/-- A new player has expanded nothing. -/
theorem opened_start (board : GoBoard B) : Opened (Player.start board : Player B K) := by
  have flags := flags_start (K := K) board
  refine ⟨flags.sent, flags.marked, fun v cs h => ?_, fun v e h => ?_, fun v => ?_⟩
  · simp [Player.nodes_start, Node.new] at h
  · simp [Player.nodes_start, Node.new] at h
  · simp [Player.nodes_start, Node.new]

/-! ## Runs

Every invariant is stepped with the others as its hypotheses, so they are
collected. -/

/-- What every player keeps whose replies keep their promises: all the
invariants of the search together.  A descent needs them at once, since it reads
the pointers, the counts and the boards of the nodes on its way. -/
structure Kept (P : Pachi B) (s : Player B K) : Prop where
  wf : Structured s
  inStep : InStep P s
  signed : Signed s
  tallied : s.tree.Tallied none
  opened : Opened s

theorem kept_step {a : Action K} (hs : Kept P s) (promised : a.Bounded ∧ a.Served)
    (h : s.step P cfg a = some s') : Kept P s' where
  wf := structured_step hs.wf h
  inStep := inStep_step hs.wf hs.inStep h
  signed := signed_step hs.wf hs.signed promised.1 h
  tallied := tallied_step hs.wf hs.signed hs.tallied promised.1 h
  opened := opened_step hs.wf hs.inStep hs.signed hs.opened promised.1 promised.2 h

theorem kept_run {as : List (Action K)} (hs : Kept P s)
    (promised : ∀ a ∈ as, a.Bounded ∧ a.Served)
    (run : (playerMachine P cfg).exec s as = some s') : Kept P s' :=
  (playerMachine P cfg).invariant (G := fun _ a => a.Bounded ∧ a.Served) (I := Kept P)
    kept_step hs ((playerMachine P cfg).guarded_of_forall_mem promised _) run

theorem kept_start (board : GoBoard B) : Kept P (Player.start board : Player B K) where
  wf := structured_start board
  inStep := inStep_start board
  signed := signed_start board
  tallied := tallied_start board
  opened := opened_start board

omit [IsStrictOrderedRing K] in
/-- An expanded node has a child that is no repetition: its pass. -/
theorem Kept.escape (hs : Kept P s) {v : ℕ} {cs : List ℕ} (hcs : (s.tree.nodes v).nexts = some cs) :
    ∃ c ∈ cs, (s.tree.nodes c).isRepetition = false := by
  obtain ⟨c, hc, pass⟩ := hs.opened.pass v cs hcs
  refine ⟨c, hc, ?_⟩
  by_contra marked
  have ready := (hs.wf.wf.ready_iff v).mpr (by simp [hcs])
  have unflagged := flagged_pass hs.inStep (hs.wf.wf.father_of_mem hcs hc) pass
    (hs.opened.sent v ((hs.wf.nodes v).answered ready))
  have flagged := hs.opened.marked c (by simpa using marked)
  cases flagged.unique unflagged

/-- **A descent in a reachable player is safe.**  It meets no null pointer, and
every score is above the one that a scan starts with. -/
theorem searchable_of_run (sane : cfg.Sane) {board : GoBoard B} {as : List (Action K)}
    (promised : ∀ a ∈ as, a.Bounded ∧ a.Served)
    (run : (playerMachine P cfg).exec (Player.start board) as = some s) {root : ℕ}
    (hroot : s.root = some root) : s.tree.Searchable root := by
  have kept := kept_run (kept_start board) promised run
  refine ⟨kept.wf.wf, fun v => (kept.wf.nodes v).undecided, fun v cs => kept.escape,
    kept.tallied.bounded, kept.opened.prior, fun v below e he => ?_⟩
  have := vl_nonneg_of_run sane.virtualLoss run hroot below
  simpa [Tree.vl, he] using this

/-! ## Searches

A search is a part of a run without commands. -/

omit [IsStrictOrderedRing K] in
/-- No step changes the result of a node, or takes back that it was sent. -/
theorem kept_of_step {a : Action K} (wf : Structured s) (h : s.step P cfg a = some s') {v : ℕ}
    (hv : v < s.tree.next) : (s'.tree.nodes v).result = (s.tree.nodes v).result ∧
      ((s.tree.nodes v).rqSent = true → (s'.tree.nodes v).rqSent = true) := by
  cases moves_of_step h with
  | select root max remain t leaf board max' hroot found =>
      obtain ⟨path, -, rfl⟩ := wf.exists_path found
      rw [Tree.nodes_addPathVl]
      exact ⟨rfl, id⟩
  | repetition | revisit | recycle =>
      dsimp only
      rw [Tree.nodes_modify]
      split <;> exact ⟨rfl, id⟩
  | finished i sel hsel flag result =>
      dsimp only
      rw [Tree.nodes_mctsBackUpdate (wf.mark sel.leaf false).wf.descending_lock, Tree.backedUp,
        Tree.nodes_modify]
      split <;> exact ⟨rfl, id⟩
  | request i sel hsel flag result terminate sent rq hrq =>
      dsimp only
      rw [Tree.nodes_modify]
      split
      · exact ⟨rfl, fun _ => rfl⟩
      · exact ⟨rfl, id⟩
  | reply i rq value policy hrq =>
      obtain ⟨hleaf, hnexts⟩ := wf.unexpanded hrq
      rw [Player.evaluateCallback, Tree.nodes_answer_of_lt wf.wf hleaf hnexts hv]
      exact ⟨rfl, id⟩
  | freshRoot pos root board action opAction hroot idle applied =>
      rw [Player.newRoot, Tree.nodes_alloc_of_ne hv.ne]
      exact ⟨rfl, id⟩
  | childRoot | resigned | stopped | ignored => exact ⟨rfl, id⟩

omit [IsStrictOrderedRing K] in
/-- A search keeps the root's board. -/
theorem rootBoard_of_step {a : Action K} (search : a.isCommand = false)
    (h : s.step P cfg a = some s') : s'.rootBoard = s.rootBoard := by
  cases moves_of_step h with
  | freshRoot pos => cases search
  | childRoot _ _ _ _ _ _ _ command => exact (Action.not_search_of_command command search).elim
  | _ => rfl

/-- The root is as it was, and will be or was sent.  Its board is not a
repetition and it has no result, so the decision on the root has no other way
out than to send it. -/
structure Begun (P : Pachi B) (root : ℕ) (s : Player B K) : Prop where
  kept : Kept P s
  here : s.root = some root
  flag : s.rootBoard.boardRepetition = false
  result : (s.tree.nodes root).result = 0
  begun : (s.tree.nodes root).rqSent = true ∨ ∃ sel ∈ s.selections, sel.leaf = root

/-- A search that has begun goes on: the leaf that is the root will be sent, and
what was sent stays so.  Only a command could put another root in its place. -/
theorem begun_step {root : ℕ} {a : Action K} (hs : Begun P root s)
    (promised : a.Bounded ∧ a.Served) (search : a.isCommand = false)
    (h : s.step P cfg a = some s') : Begun P root s' := by
  obtain ⟨kept, hroot, flag, result, begun⟩ := hs
  have older := kept.wf.root_lt root hroot
  obtain ⟨result', sent'⟩ := kept_of_step kept.wf h older
  refine ⟨kept_step kept promised h, (grows_step kept.wf hroot search h).1,
    by rwa [rootBoard_of_step search h], by rwa [result'], ?_⟩
  rcases begun with sent | ⟨sel, hsel, leaf⟩
  · exact .inl (sent' sent)
  -- the selection of the root stays, or is the one decided on
  have other {i : ℕ} {sel' : Selection B} (hsel' : s.selections[i]? = some sel')
      (hleaf : sel'.leaf ≠ root) : ∃ sel ∈ s.selections.eraseIdx i, sel.leaf = root := by
    have mem := (cons_eraseIdx_perm hsel').mem_iff.mpr hsel
    rcases List.mem_cons.mp mem with rfl | mem
    · exact absurd leaf hleaf
    · exact ⟨sel, mem, leaf⟩
  have unflagged {i : ℕ} {sel' : Selection B} (hsel' : s.selections[i]? = some sel')
      (hleaf : sel'.leaf = root) : sel'.board.boardRepetition = false := by
    have here := flagged_selected kept.inStep hsel'
    rw [hleaf] at here
    exact (here.unique (flagged_root kept.inStep hroot)).trans flag
  cases moves_of_step h with
  | select root' max remain t leaf' board max' hroot' found =>
      exact .inr ⟨sel, List.mem_append_left _ hsel, leaf⟩
  | repetition i sel' hsel' flag' =>
      by_cases hleaf : sel'.leaf = root
      · simp [unflagged hsel' hleaf] at flag'
      · exact .inr (other hsel' hleaf)
  | finished i sel' hsel' flag' finished =>
      by_cases hleaf : sel'.leaf = root
      · rw [hleaf] at finished
        simp [result, (kept.wf.nodes root).undecided] at finished
      · exact .inr (other hsel' hleaf)
  | revisit i sel' hsel' flag' result' terminate sent =>
      by_cases hleaf : sel'.leaf = root
      · exact .inl (sent' (hleaf ▸ sent))
      · exact .inr (other hsel' hleaf)
  | request i sel' hsel' flag' result' terminate sent rq hrq =>
      by_cases hleaf : sel'.leaf = root
      · refine .inl ?_
        rw [← hleaf]
        dsimp only
        rw [Tree.nodes_modify, if_pos rfl]
        rfl
      · exact .inr (other hsel' hleaf)
  | reply | recycle | stopped | ignored => exact .inr ⟨sel, hsel, leaf⟩
  | freshRoot pos | resigned => cases search
  | childRoot _ _ _ _ _ _ _ command => exact (Action.not_search_of_command command search).elim

/-- A selection starts the search of a root: the root is sent, or is the
leaf. -/
theorem begun_select {root : ℕ} {max remain : ℤ} (kept : Kept P s) (hroot : s.root = some root)
    (flag : s.rootBoard.boardRepetition = false) (result : (s.tree.nodes root).result = 0)
    (promised : (Action.select max remain : Action K).Bounded)
    (h : s.step P cfg (.select max remain) = some s') : Begun P root s' := by
  have older := kept.wf.root_lt root hroot
  obtain ⟨result', sent'⟩ := kept_of_step kept.wf h older
  refine ⟨kept_step kept ⟨promised, trivial⟩ h, (grows_step kept.wf hroot rfl h).1,
    by rwa [rootBoard_of_step rfl h], by rwa [result'], ?_⟩
  cases ready : (s.tree.nodes root).evalReady with
  | true => exact .inl (sent' ((kept.wf.nodes root).answered ready))
  | false =>
      obtain ⟨root', t, leaf, board, max', hroot', found, rfl⟩ := exists_of_select h
      obtain rfl := Option.some.inj (hroot.symm.trans hroot')
      have here : leaf = root := by
        rw [Tree.mctsSelectPathRoot] at found
        simp only [ready, Bool.not_false, Bool.true_or, if_true, Descent.leaf.injEq] at found
        exact found.2.1.symm
      exact .inr ⟨_, List.mem_append_right _ (List.mem_singleton_self _), here⟩

/-- The state of a search has the root and the board it started with.  With
these the two conditions under which a root is not sent can be read at the
start. -/
structure SameRoot (P : Pachi B) (s : Player B K) (root : ℕ) (t : Player B K) : Prop where
  kept : Kept P t
  here : t.root = some root
  board : t.rootBoard = s.rootBoard
  result : (t.tree.nodes root).result = (s.tree.nodes root).result

theorem sameRoot_run {root : ℕ} {bs : List (Action K)} (kept : Kept P s)
    (hroot : s.root = some root) (promised : ∀ b ∈ bs, b.Bounded ∧ b.Served)
    (search : ∀ b ∈ bs, b.isCommand = false)
    (run : (playerMachine P cfg).exec s bs = some s') : SameRoot P s root s' := by
  have guard : ∀ b ∈ bs, (b.Bounded ∧ b.Served) ∧ b.isCommand = false :=
    fun b hb => ⟨promised b hb, search b hb⟩
  refine (playerMachine P cfg).invariant (I := SameRoot P s root) ?_ ⟨kept, hroot, rfl, rfl⟩
    ((playerMachine P cfg).guarded_of_forall_mem guard s) run
  intro t t' a ht ⟨promised, search⟩ h
  refine ⟨kept_step ht.kept promised h, (grows_step ht.kept.wf ht.here search h).1, ?_, ?_⟩
  · rw [rootBoard_of_step search h, ht.board]
  · rw [(kept_of_step ht.kept.wf h (ht.kept.wf.root_lt root ht.here)).1, ht.result]

/-- A search with a selection opens a root without the flag and without a
result. -/
theorem begun_run {root : ℕ} {bs : List (Action K)} {max remain : ℤ} (kept : Kept P s)
    (hroot : s.root = some root) (flag : s.rootBoard.boardRepetition = false)
    (result : (s.tree.nodes root).result = 0) (promised : ∀ b ∈ bs, b.Bounded ∧ b.Served)
    (search : ∀ b ∈ bs, b.isCommand = false) (iterated : .select max remain ∈ bs)
    (run : (playerMachine P cfg).exec s bs = some s') : Begun P root s' := by
  obtain ⟨before, after, rfl⟩ := List.append_of_mem iterated
  rw [List.forall_mem_append, List.forall_mem_cons] at promised search
  obtain ⟨promised₁, promised₀, promised₂⟩ := promised
  obtain ⟨search₁, -, search₂⟩ := search
  rw [Verif.Machine.exec_append, Option.bind_eq_some_iff] at run
  obtain ⟨t, run₁, run₂⟩ := run
  obtain ⟨r, first, rest⟩ := (playerMachine P cfg).exec_cons_eq_some run₂
  obtain ⟨kept', hroot', board, same⟩ := sameRoot_run kept hroot promised₁ search₁ run₁
  have begun : Begun P root r :=
    begun_select kept' hroot' (by rwa [board]) (by rwa [same]) promised₀.1 first
  have guard : ∀ b ∈ after, (b.Bounded ∧ b.Served) ∧ b.isCommand = false :=
    fun b hb => ⟨promised₂ b hb, search₂ b hb⟩
  exact (playerMachine P cfg).invariant (I := Begun P root)
    (fun hs guard h => begun_step hs guard.1 guard.2 h) begun
    ((playerMachine P cfg).guarded_of_forall_mem guard r) rest

/-- **When a search opens its root.**  Each descent of a search is safe.  When
it is over and all replies are in, the root has children and
`mcts_select_action` a move exactly where the search started with a board that
has no repetition flag and a root without a result. -/
theorem search_opens_root_iff (sane : cfg.Sane) {board : GoBoard B} (as bs : List (Action K))
    (max remain : ℤ) {root : ℕ} (promised : ∀ a ∈ as ++ bs, a.Bounded ∧ a.Served)
    (run : (playerMachine P cfg).exec (Player.start board) as = some s)
    (hroot : s.root = some root) (search : ∀ b ∈ bs, b.isCommand = false)
    (iterated : .select max remain ∈ bs)
    (rest : (playerMachine P cfg).exec s bs = some s')
    (idle : s'.selections = []) (answered : s'.requests = []) :
    (∀ cs t, cs <+: bs → (playerMachine P cfg).exec s cs = some t →
      ∀ max remain, max = 1 ∨ max = -1 →
        t.tree.mctsSelectPathRoot P cfg root max t.rootBoard remain ≠ .nullPointer ∧
          t.tree.mctsSelectPathRoot P cfg root max t.rootBoard remain ≠ .outOfFuel) ∧
    (((∃ cs, (s'.tree.nodes root).nexts = some cs ∧ cs ≠ []) ∧
        (s'.tree.mctsSelectAction P cfg root s'.rootBoard
          (s'.opAction = GoBoard.posPass)).isSome) ↔
      s.rootBoard.boardRepetition = false ∧ (s.tree.nodes root).result = 0) := by
  have promised₁ := (List.forall_mem_append.mp promised).1
  have promised₂ := (List.forall_mem_append.mp promised).2
  have kept := kept_run (kept_start board) promised₁ run
  have later := sameRoot_run kept hroot promised₂ search rest
  refine ⟨fun cs t sub hcs max remain hmax => ?_, fun ⟨⟨cs, hcs, _⟩, _⟩ => ?_,
    fun ⟨flag, result⟩ => ?_⟩
  · have whole : (playerMachine P cfg).exec (Player.start board) (as ++ cs) = some t := by
      rw [Verif.Machine.exec_append, run]
      exact hcs
    have promised : ∀ a ∈ as ++ cs, a.Bounded ∧ a.Served := by
      refine List.forall_mem_append.mpr ⟨promised₁, fun b hb => promised₂ b (sub.subset hb)⟩
    have here := sameRoot_run kept hroot (fun b hb => promised₂ b (sub.subset hb))
      (fun b hb => search b (sub.subset hb)) hcs
    exact (searchable_of_run sane promised whole here.here).mctsSelectPathRoot_safe sane hmax
  · -- an expanded root was sent
    have ready := (later.kept.wf.wf.ready_iff root).mpr (by simp [hcs])
    have sent := (later.kept.wf.nodes root).answered ready
    refine ⟨?_, ?_⟩
    · have flagged := flagged_root later.kept.inStep later.here
      rw [later.board] at flagged
      exact flagged.unique (later.kept.opened.sent root sent)
    · by_contra result
      rw [← later.result] at result
      simp [(later.kept.wf.nodes root).finished result] at sent
  · have begun := begun_run kept hroot flag result promised₂ search iterated rest
    have sent : (s'.tree.nodes root).rqSent = true :=
      begun.begun.resolve_right (by simp [idle])
    have ready : (s'.tree.nodes root).evalReady = true := by
      by_contra unready
      have := later.kept.wf.pending root sent (by simpa using unready)
      simp [answered] at this
    obtain ⟨cs, hcs⟩ := Option.isSome_iff_exists.mp ((later.kept.wf.wf.ready_iff root).mp ready)
    have pass := later.kept.opened.pass root cs hcs
    refine ⟨⟨cs, hcs, ?_⟩, Tree.mctsSelectAction_isSome
      (fun v => (later.kept.wf.nodes v).undecided) hcs pass⟩
    rintro rfl
    simp at pass

end Reply

end Steps

/-- The settings of `conf/conf.ini` have no negative virtual loss and a positive
exploration. -/
theorem sane_shippedSettings : shippedSettings.Sane :=
  ⟨by decide, by decide +kernel, fun x => Rat.sqrt_nonneg x⟩

/-- The first search of a new game selects its root, sends it and is answered.
So the root has a child afterwards, and `mcts_select_action` finds one. -/
theorem search_opens_root_iff_searched : ∃ s' : Player Stones ℚ, s'.counted = [0] ∧
    (∃ cs, (s'.tree.nodes 0).nexts = some cs ∧ cs ≠ []) ∧
      (s'.tree.mctsSelectAction pachi shippedSettings 0 s'.rootBoard
        (s'.opAction = GoBoard.posPass)).isSome := by
  have seen : ((playerMachine pachi shippedSettings).exec newGame (searchedGame.take 3)).map
      (fun s => (s.selections.length, s.requests.length, s.counted)) = some (0, 0, [0]) := by
    decide +kernel
  obtain ⟨s', rest, counts⟩ := Option.map_eq_some_iff.mp seen
  simp only [Prod.mk.injEq, List.length_eq_zero_iff] at counts
  obtain ⟨idle, answered, counted⟩ := counts
  exact ⟨s', counted, (search_opens_root_iff sane_shippedSettings [] _ 1 9 (by decide +kernel)
    rfl rfl (by decide) (by decide) rest idle answered).2.mpr ⟨rfl, rfl⟩⟩

/-- Black's stones on A1 and B1 are captured by their own move, which repeats
the position.  The flag is raised and is never lowered again; then the root is
searched. -/
def suicideGame : List (Action ℚ) :=
  [.play ['p', 'a', 's', 's'], .play ['C', '1'], .play ['p', 'a', 's', 's'], .play ['A', '2'],
    .play ['p', 'a', 's', 's'], .play ['B', '2'], .play ['A', '1'], .play ['p', 'a', 's', 's'],
    .play ['B', '1'], .select 1 9, .decide 0]

/-- The board of the root has the repetition flag, so the iteration marks the
root and goes on without sending it.  The next one will do the same, and
`gen_apply_move` exits for want of a child. -/
theorem flagged_root_never_opened : ∃ (s : Player Stones ℚ) (root : ℕ),
    (playerMachine pachi shippedSettings).exec newGame suicideGame = some s ∧
      s.root = some root ∧ s.stopRollout = false ∧ s.selections = [] ∧ s.requests = [] ∧
      (s.tree.nodes root).nexts = none ∧ s.genApplyMove pachi shippedSettings = none := by
  have seen : ((playerMachine pachi shippedSettings).exec newGame suicideGame).map
      (fun s => (s.root, s.stopRollout, s.selections.length, s.requests.length,
        (s.tree.nodes 9).nexts)) = some (some 9, false, 0, 0, none) := by decide +kernel
  obtain ⟨s, run, counts⟩ := Option.map_eq_some_iff.mp seen
  simp only [Prod.mk.injEq, List.length_eq_zero_iff] at counts
  obtain ⟨hroot, stop, idle, answered, hnexts⟩ := counts
  refine ⟨s, 9, run, hroot, stop, idle, answered, hnexts, ?_⟩
  simp [Player.genApplyMove, hroot, stop, Tree.mctsSelectAction, hnexts]

end EstarGo
