import EstarGo.Player.Structure

/-!
# Tree and board in step

The ghost of a node is the history it stands for.  `InStep` says that a child
stands for its father's history and one token, that the root stands for the
history of `root_board`, and that the board of a selection is the one its leaf
stands for; so a request carries the history of its leaf.

## Main definitions

* `Ghost.of` — what a board stands for.
* `InStep` — the nodes stand for what the boards hold.

## Main results

* `inStep_run`: every reachable player is in step.
* `tree_in_step`: histories, depths and requests, over every run.

## Design notes

**Ghosts.**  The tree has no histories, and a node does not know its position.
The ghost is written when a node is made, from the ghost of its father and the
token of its edge, and the invariant says that whatever the code computes of a
position is what the ghost says.
-/

namespace EstarGo

open Verif

variable {B K : Type}

/-- What a board stands for: its history, and itself.  A node whose board is not
known yet has a history all the same, that of its father with one token more. -/
def Ghost.of (board : GoBoard B) : Ghost B := ⟨board.history, some board⟩

/-- The nodes stand for what the boards hold, and their depths are the numbers
of moves. -/
structure InStep (P : Pachi B) (s : Player B K) : Prop where
  child : ∀ c v, s.tree.father c = some v → ∃ action,
    (s.tree.nodes c).edge.map (·.action) = some action ∧
      s.ghost c = (s.ghost v).child P action ∧
        (s.tree.nodes c).depth = (s.tree.nodes v).depth + 1
  root : ∀ root, s.root = some root → s.ghost root = Ghost.of s.rootBoard ∧
    (s.tree.nodes root).depth = s.rootBoard.getTotalMoves
  selected : ∀ sel ∈ s.selections, s.ghost sel.leaf = Ghost.of sel.board
  sent : ∀ rq ∈ s.sent, rq.leaf < s.tree.next ∧ rq.history = (s.ghost rq.leaf).history

variable {P : Pachi B}

/-- An applied move takes what a board stands for to what the next one does. -/
theorem Ghost.child_of {board board' : GoBoard B} {action : ℤ}
    (h : GoBoard.applyMove P board action = (true, board')) :
    (Ghost.of board).child P action = Ghost.of board' := by
  simp [Ghost.child, Ghost.of, h, GoBoard.history_applyMove h]

namespace InStep

variable {s s' : Player B K}

/-- A path leads to what its last board stands for. -/
theorem ghost_of_path (hs : InStep P s) {v u : ℕ} {board board' : GoBoard B} {path : List ℕ}
    (h : Tree.Path P s.tree v board path u board') (hv : s.ghost v = Ghost.of board) :
    s.ghost u = Ghost.of board' := by
  induction h with
  | nil => exact hv
  | cons _ father haction applied _ ih =>
      obtain ⟨action, haction', hghost, -⟩ := hs.child _ _ father
      obtain rfl := Option.some.inj (haction.symm.trans haction')
      exact ih (by rw [hghost, hv, Ghost.child_of applied])

/-- Nodes below the root are as deep as the moves that lead to them. -/
theorem depth_eq (hs : InStep P s) {root v k : ℕ} (hroot : s.root = some root)
    (hv : climb s.tree.father k v = some root) :
    (s.tree.nodes v).depth = s.rootBoard.getTotalMoves + k := by
  induction k generalizing v with
  | zero =>
      obtain rfl := Option.some.inj hv
      exact (hs.root v hroot).2
  | succ k ih =>
      obtain ⟨f, hf, hk⟩ := Option.bind_eq_some_iff.mp hv
      obtain ⟨-, -, -, hdepth⟩ := hs.child v f hf
      rw [hdepth, ih hk]
      rfl

/-- A step that keeps the pointers, the root, its board and the ghosts. -/
theorem of_sameShape (hs : InStep P s) (shape : Tree.SameShape s.tree s'.tree)
    (root : s'.root = s.root) (rootBoard : s'.rootBoard = s.rootBoard)
    (ghost : s'.ghost = s.ghost)
    (selected : ∀ sel ∈ s'.selections, sel ∈ s.selections ∨
      s.ghost sel.leaf = Ghost.of sel.board)
    (sent : ∀ rq ∈ s'.sent, rq ∈ s.sent ∨
      rq.leaf < s.tree.next ∧ rq.history = (s.ghost rq.leaf).history) : InStep P s' where
  child := by simpa only [shape.father, shape.action, shape.depth, ghost] using hs.child
  root := by simpa only [root, rootBoard, shape.depth, ghost] using hs.root
  selected := by
    intro sel hsel
    rw [ghost]
    exact (selected sel hsel).elim (hs.selected sel) id
  sent := by
    intro rq hrq
    rw [ghost, shape.next]
    exact (sent rq hrq).elim (hs.sent rq) id

end InStep

section Steps

variable [Field K] [LinearOrder K] {cfg : Settings K} {s s' : Player B K}

/-- A reply gives the new children what they stand for. -/
theorem inStep_reply (wf : Structured s) (hs : InStep P s) {i : ℕ} {rq : Request} {value : K}
    {policy : List (PolicyItem K)} (hrq : s.requests[i]? = some rq) :
    InStep P ({ s with requests := s.requests.eraseIdx i }.evaluateCallback P cfg rq value
      policy) := by
  obtain ⟨hleaf, hnexts⟩ := wf.unexpanded hrq
  have old {v : ℕ} (hv : v < s.tree.next) :
      ({ s with requests := s.requests.eraseIdx i }.evaluateCallback P cfg rq value policy).ghost v
        = s.ghost v := by
    simp [Player.evaluateCallback, hv]
  have action {v : ℕ} (hv : v < s.tree.next) :
      (({ s with requests := s.requests.eraseIdx i }.evaluateCallback P cfg rq value
        policy).tree.nodes v).edge.map Edge.action = (s.tree.nodes v).edge.map Edge.action :=
    Tree.action_answer_of_lt wf.wf hleaf hnexts hv
  have depth {v : ℕ} (hv : v < s.tree.next) :
      (({ s with requests := s.requests.eraseIdx i }.evaluateCallback P cfg rq value
        policy).tree.nodes v).depth = (s.tree.nodes v).depth := by
    rw [Player.evaluateCallback, Tree.nodes_answer_of_lt wf.wf hleaf hnexts hv]
  refine ⟨fun c v h => ?_, fun root hroot => ?_, fun sel hsel => ?_, fun rq' hrq' => ?_⟩
  · rcases (Tree.father_answer_iff wf.wf hleaf hnexts).mp h with ⟨hlt, h⟩ | ⟨rfl, k, item, hk, rfl⟩
    · have hv := (wf.wf.descending c v h).trans hlt
      rw [old hlt, old hv, depth hlt, depth hv, action hlt]
      exact hs.child c v h
    · refine ⟨item.pos, ?_, ?_, ?_⟩
      · rw [Player.evaluateCallback, Tree.nodes_answer_child wf.wf hleaf hnexts hk]
        rfl
      · rw [old hleaf]
        simp [Player.evaluateCallback, hk]
      · rw [depth hleaf, Player.evaluateCallback,
          Tree.nodes_answer_child wf.wf hleaf hnexts hk]
        rfl
  · have hlt := wf.root_lt root hroot
    rw [old hlt, depth hlt]
    exact hs.root root hroot
  · obtain ⟨root, hroot, below⟩ := wf.selected sel hsel
    rw [old (wf.lt_next hroot below)]
    exact hs.selected sel hsel
  · obtain ⟨hlt, hhistory⟩ := hs.sent rq' hrq'
    rw [old hlt]
    exact ⟨Nat.lt_of_lt_of_le hlt (by simp [Player.evaluateCallback]), hhistory⟩

omit [LinearOrder K] in
/-- A fresh root stands for its board. -/
theorem inStep_newRoot (wf : Structured s) (hs : InStep P s) (idle : s.selections = [])
    (board : GoBoard B) : InStep P (s.newRoot board) := by
  have father : (s.newRoot board).tree.father = s.tree.father := Tree.father_alloc wf.wf rfl
  have nodes {v : ℕ} (hv : v < s.tree.next) :
      (s.newRoot board).tree.nodes v = s.tree.nodes v := Tree.nodes_alloc_of_ne hv.ne
  have ghost {v : ℕ} (hv : v < s.tree.next) : (s.newRoot board).ghost v = s.ghost v := by
    simp [Player.newRoot, hv.ne]
  refine ⟨fun c v h => ?_, ?_, by simp [Player.newRoot, idle], fun rq hrq => ?_⟩
  · rw [father] at h
    have hc := wf.wf.lt_next_of_father h
    have hv := (wf.wf.descending c v h).trans hc
    rw [nodes hc, nodes hv, ghost hc, ghost hv]
    exact hs.child c v h
  · rintro _ ⟨⟩
    have here : (s.newRoot board).tree.nodes s.tree.next =
        { Node.new none none with depth := board.getTotalMoves } := Tree.nodes_alloc_next
    rw [here]
    exact ⟨if_pos rfl, rfl⟩
  · obtain ⟨hlt, hhistory⟩ := hs.sent rq hrq
    rw [ghost hlt]
    exact ⟨Nat.lt_succ_of_lt hlt, hhistory⟩

/-- One step, by its outcome.  A child that becomes the root stands for the
board after its move. -/
theorem inStep_step {a : Action K} (wf : Structured s) (hs : InStep P s)
    (h : s.step P cfg a = some s') : InStep P s' := by
  have leaf_lt {i : ℕ} {sel : Selection B} (hsel : s.selections[i]? = some sel) :
      sel.leaf < s.tree.next := by
    obtain ⟨root, hroot, hleaf⟩ := wf.selected sel (List.mem_of_getElem? hsel)
    exact wf.lt_next hroot hleaf
  cases moves_of_step h with
  | select root max remain t leaf board max' hroot found =>
      obtain ⟨path, hpath, rfl⟩ := wf.exists_path found
      refine hs.of_sameShape (Tree.SameShape.of_addPathVl _ _ _) rfl rfl rfl (fun sel hsel => ?_)
        fun rq hrq => .inl hrq
      rcases List.mem_append.mp hsel with hsel | hsel
      · exact .inl hsel
      · rw [List.mem_singleton.mp hsel]
        exact .inr (hs.ghost_of_path hpath (hs.root root hroot).1)
  | repetition i sel hsel flag =>
      exact hs.of_sameShape (Tree.SameShape.of_modify _ (·.setRepetition true) fun _ => rfl) rfl
        rfl rfl (fun sel hsel => .inl (List.eraseIdx_subset hsel)) fun rq hrq => .inl hrq
  | finished i sel hsel flag result =>
      exact hs.of_sameShape (wf.shape_finished sel.leaf _ _) rfl rfl rfl
        (fun sel hsel => .inl (List.eraseIdx_subset hsel)) fun rq hrq => .inl hrq
  | revisit i sel hsel flag result terminate sent =>
      have shape := Tree.SameShape.of_modify (t := s.tree) sel.leaf
        (fun nd => (nd.setRepetition false).visitAgain) fun _ => rfl
      exact hs.of_sameShape shape rfl rfl rfl
        (fun sel hsel => .inl (List.eraseIdx_subset hsel)) fun rq hrq => .inl hrq
  | request i sel hsel flag result terminate sent rq hrq =>
      have shape := Tree.SameShape.of_modify (t := s.tree) sel.leaf
        (fun nd => (nd.setRepetition false).send) fun _ => rfl
      refine hs.of_sameShape shape rfl rfl rfl
        (fun sel hsel => .inl (List.eraseIdx_subset hsel)) fun rq' hrq' => ?_
      rcases List.mem_append.mp hrq' with hrq' | hrq'
      · exact .inl hrq'
      · rw [List.mem_singleton.mp hrq', hrq]
        refine .inr ⟨leaf_lt hsel, ?_⟩
        have ghost := hs.selected sel (List.mem_of_getElem? hsel)
        exact (congrArg Ghost.history ghost).symm
  | reply i rq value policy hrq => exact inStep_reply wf hs hrq
  | freshRoot pos root board action opAction hroot idle applied =>
      exact inStep_newRoot (s := { s with opAction := opAction })
        (wf.of_tree_eq rfl rfl rfl (List.Subset.refl _))
        ⟨hs.child, hs.root, hs.selected, hs.sent⟩ idle board
  | childRoot a root child nexts board action opAction command hroot idle hnexts mem haction
      applied =>
      obtain ⟨hghost, hdepth⟩ := hs.root root hroot
      obtain ⟨action', haction', hchild, hdepth'⟩ :=
        hs.child child root (wf.wf.father_of_mem hnexts mem)
      obtain rfl := Option.some.inj (haction.symm.trans haction')
      refine ⟨hs.child, ?_, hs.selected, hs.sent⟩
      rintro _ ⟨⟩
      refine ⟨by rw [hchild, hghost, Ghost.child_of applied], ?_⟩
      rw [hdepth', hdepth, GoBoard.getTotalMoves_of_history (GoBoard.history_applyMove applied)]
  | resigned idle => exact ⟨hs.child, by simp, hs.selected, hs.sent⟩
  | recycle v dropped =>
      exact hs.of_sameShape (Tree.SameShape.of_modify v Node.expireFather fun _ => rfl) rfl rfl rfl
        (fun sel hsel => .inl hsel) fun rq hrq => .inl hrq
  | stopped => exact ⟨hs.child, hs.root, hs.selected, hs.sent⟩
  | ignored => exact hs

omit [LinearOrder K] in
/-- The first root stands for the board it was made for. -/
theorem inStep_start (board : GoBoard B) : InStep P (Player.start board : Player B K) := by
  refine ⟨fun c v h => ?_, ?_, by simp [Player.start], by simp [Player.start]⟩
  · simp at h
  · rintro _ ⟨⟩
    exact ⟨rfl, rfl⟩

/-- Every reachable player is in step, and structured.  The induction carries
both at once: which node a step writes to is a matter of pointers, and what the
node stands for is a matter of boards. -/
theorem inStep_run {board : GoBoard B} {as : List (Action K)}
    (run : (playerMachine P cfg).exec (Player.start board) as = some s) :
    Structured s ∧ InStep P s :=
  (playerMachine P cfg).invariant_of_step (I := fun s => Structured s ∧ InStep P s)
    (fun hs h => ⟨structured_step hs.1 h, inStep_step hs.1 hs.2 h⟩)
    ⟨structured_start board, inStep_start board⟩ run

/-- **Tree and board stay in step.**  A child's ghost history is its father's
and the token of its edge, and the root's is that of `root_board`; the depth of
a node is its distance from the root and the moves on the root's board; each
request sent carried the ghost history of its leaf. -/
theorem tree_in_step {board : GoBoard B} {as : List (Action K)}
    (run : (playerMachine P cfg).exec (Player.start board) as = some s) :
    (∀ c v, s.tree.father c = some v → ∃ action,
      (s.tree.nodes c).edge.map (·.action) = some action ∧
        (s.ghost c).history = (s.ghost v).history ++ GoBoard.token action) ∧
    (∀ root, s.root = some root →
      (s.ghost root).history = s.rootBoard.history ∧
      ∀ v k, climb s.tree.father k v = some root →
        (s.tree.nodes v).depth = s.rootBoard.getTotalMoves + k) ∧
    ∀ rq ∈ s.sent, rq.history = (s.ghost rq.leaf).history := by
  obtain ⟨-, hs⟩ := inStep_run run
  refine ⟨fun c v h => ?_, fun root hroot => ⟨?_, fun v k => hs.depth_eq hroot⟩,
    fun rq hrq => (hs.sent rq hrq).2⟩
  · obtain ⟨action, haction, hghost, -⟩ := hs.child c v h
    exact ⟨action, haction, by rw [hghost]; rfl⟩
  · rw [(hs.root root hroot).1]
    rfl

end Steps

/-- A game with two moves and three requests. -/
theorem tree_in_step_searched : ∃ s : Player Stones ℚ,
    (∀ root, s.root = some root → (s.ghost root).history = s.rootBoard.history) ∧
      s.rootBoard.getTotalMoves = 2 ∧ s.sent.length = 3 := by
  have seen : ((playerMachine pachi shippedSettings).exec newGame searchedGame).map
      (fun s => (s.rootBoard.getTotalMoves, s.sent.length)) = some (2, 3) := by decide +kernel
  obtain ⟨s, run, counts⟩ := Option.map_eq_some_iff.mp seen
  obtain ⟨-, root, -⟩ := tree_in_step run
  exact ⟨s, fun r hr => (root r hr).1, congrArg Prod.fst counts, congrArg Prod.snd counts⟩

end EstarGo
