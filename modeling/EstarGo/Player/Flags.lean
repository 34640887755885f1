import EstarGo.Player.InStep
import EstarGo.Tree.Statistics

/-!
# The repetition flag of a node

The repetition flag of a board is inherited by every board that is played on
from it, and a pass never raises it.  An iteration marks its leaf where the
board of the leaf has the flag, and otherwise sends it or backs it up.  So a
node that was sent or visited stands for a board without the flag, and a node
that is marked for a board with it: these hold of every player, whatever the
evaluator answers.

## Main definitions

* `Flagged` — a node stands for a board with this flag.
* `Flags`, `Cleared` — what sent and marked nodes say, and what visits say.
* `Judged` — both, with what they rest on.

## Main results

* `judged_run`: what sent, visited and marked nodes say of the boards they stand
  for.
* `flagged_pass`: a pass hands on the flag.

## Design notes

**Visits above a leaf.**  A backup visits all nodes between its leaf and the
root, none of which was looked at in the step.  They were sent, since they have
children, and a sent node stands for a board without the flag.
-/

namespace EstarGo

open Verif

variable {B K : Type}

/-- A node stands for a board with this repetition flag.  The board is that of
the descents which reach the node, with all the moves of the game before it. -/
def Flagged (s : Player B K) (v : ℕ) (flag : Bool) : Prop :=
  ∃ board, (s.ghost v).board = some board ∧ board.boardRepetition = flag

/-- What was sent stands for a board without the flag, what was marked for one
with it.  A decision tests the flag before it sends, and the flag it tests is
that of the node's own board. -/
structure Flags (s : Player B K) : Prop where
  sent : ∀ v, (s.tree.nodes v).rqSent = true → Flagged s v false
  marked : ∀ v, (s.tree.nodes v).isRepetition = true → Flagged s v true

/-- What was visited stands for a board without the flag.  Visits come from
backups, and a backup starts at a node that was sent, or at one with a result;
neither is below a node that repeats. -/
def Cleared (s : Player B K) : Prop := ∀ v, s.tree.visits v ≠ 0 → Flagged s v false

variable {P : Pachi B} {s s' : Player B K}

/-- A node stands for one board. -/
theorem Flagged.unique {v : ℕ} {flag flag' : Bool} (h : Flagged s v flag)
    (h' : Flagged s v flag') : flag = flag' := by
  obtain ⟨board, hboard, rfl⟩ := h
  obtain ⟨board', hboard', rfl⟩ := h'
  rw [Option.some.inj (hboard.symm.trans hboard')]

/-- The flag depends on the ghost of the node alone. -/
theorem Flagged.of_ghost {v : ℕ} {flag : Bool} (h : Flagged s v flag)
    (ghost : s'.ghost v = s.ghost v) : Flagged s' v flag := by
  rwa [Flagged, ghost]

/-- The board of a selection is the one its leaf stands for. -/
theorem flagged_selected (inStep : InStep P s) {i : ℕ} {sel : Selection B}
    (hsel : s.selections[i]? = some sel) : Flagged s sel.leaf sel.board.boardRepetition := by
  refine ⟨sel.board, ?_, rfl⟩
  rw [inStep.selected sel (List.mem_of_getElem? hsel)]
  rfl

/-- The root stands for the board of the player. -/
theorem flagged_root (inStep : InStep P s) {root : ℕ} (hroot : s.root = some root) :
    Flagged s root s.rootBoard.boardRepetition := by
  refine ⟨s.rootBoard, ?_, rfl⟩
  rw [(inStep.root root hroot).1]
  rfl

/-- A pass child stands for a board with the flag of its father's.  A pass puts
no stone on the board and leaves the window of hashes alone, so it raises no
flag by itself. -/
theorem flagged_pass (inStep : InStep P s) {c v : ℕ} {flag : Bool}
    (father : s.tree.father c = some v)
    (pass : (s.tree.nodes c).edge.map (·.action) = some GoBoard.posPass)
    (h : Flagged s v flag) : Flagged s c flag := by
  obtain ⟨action, haction, hghost, -⟩ := inStep.child c v father
  obtain rfl := Option.some.inj (pass.symm.trans haction)
  obtain ⟨board, hboard, hflag⟩ := h
  refine ⟨board.addMoveToHistory GoBoard.posPass, ?_, hflag⟩
  simp [hghost, Ghost.child, hboard, GoBoard.applyMove_pass]

/-! ## Steps

Sent and marked nodes, outcome by outcome. -/

section Steps

variable [Field K] [LinearOrder K] {cfg : Settings K}

/-- A node of an answered player is a new child, neither sent nor marked, or it
stands for the board it stood for and has the flags it had. -/
theorem flags_of_reply (wf : Structured s) {i : ℕ} {rq : Request} {value : K}
    {policy : List (PolicyItem K)} (hrq : s.requests[i]? = some rq)
    (hs' : s' = { s with requests := s.requests.eraseIdx i }.evaluateCallback P cfg rq value
      policy) (v : ℕ) :
    (s'.tree.nodes v).rqSent = false ∧ (s'.tree.nodes v).isRepetition = false ∨
      s'.ghost v = s.ghost v ∧ (s'.tree.nodes v).rqSent = (s.tree.nodes v).rqSent ∧
        (s'.tree.nodes v).isRepetition = (s.tree.nodes v).isRepetition := by
  obtain ⟨hleaf, hnexts⟩ := wf.unexpanded hrq
  subst hs'
  rcases Tree.expand_cases s.tree (keptItems cfg policy) v with hlt | ⟨k, item, hk, rfl⟩ | hge
  · refine .inr ⟨if_pos hlt, ?_⟩
    rw [Player.evaluateCallback, Tree.nodes_answer_of_lt wf.wf hleaf hnexts hlt]
    exact ⟨rfl, rfl⟩
  · rw [Player.evaluateCallback, Tree.nodes_answer_child wf.wf hleaf hnexts hk]
    exact .inl ⟨rfl, rfl⟩
  · refine .inr ⟨?_, ?_⟩
    · simp only [Player.evaluateCallback]
      rw [if_neg (by omega), List.getElem?_eq_none (by omega)]
    · rw [Player.evaluateCallback, Tree.nodes_answer_fresh wf.wf hleaf hnexts hge]
      exact ⟨rfl, rfl⟩

omit [Field K] [LinearOrder K] in
/-- A step that keeps the ghosts, and sends and marks only what it looked at. -/
theorem Flags.of_ghost (hs : Flags s) (ghost : s'.ghost = s.ghost)
    (sent : ∀ v, (s'.tree.nodes v).rqSent = true →
      (s.tree.nodes v).rqSent = true ∨ Flagged s v false)
    (marked : ∀ v, (s'.tree.nodes v).isRepetition = true →
      (s.tree.nodes v).isRepetition = true ∨ Flagged s v true) : Flags s' where
  sent v h := ((sent v h).elim (hs.sent v) id).of_ghost (congrFun ghost v)
  marked v h := ((marked v h).elim (hs.marked v) id).of_ghost (congrFun ghost v)

omit [Field K] [LinearOrder K] in
theorem Flags.of_modify (hs : Flags s) (v : ℕ) (f : Node K → Node K)
    (tree : s'.tree = s.tree.modify v f) (ghost : s'.ghost = s.ghost)
    (sent : (f (s.tree.nodes v)).rqSent = true →
      (s.tree.nodes v).rqSent = true ∨ Flagged s v false)
    (marked : (f (s.tree.nodes v)).isRepetition = true →
      (s.tree.nodes v).isRepetition = true ∨ Flagged s v true) : Flags s' := by
  refine hs.of_ghost ghost (fun u h => ?_) (fun u h => ?_)
  · rw [tree, Tree.nodes_modify] at h
    split at h
    · subst u
      exact sent h
    · exact .inl h
  · rw [tree, Tree.nodes_modify] at h
    split at h
    · subst u
      exact marked h
    · exact .inl h

omit [LinearOrder K] in
/-- Nodes but a fresh root stand for what they stood for. -/
theorem flagged_newRoot {board : GoBoard B} {v : ℕ} {flag : Bool} (hv : v ≠ s.tree.next)
    (h : Flagged s v flag) : Flagged (s.newRoot board) v flag :=
  h.of_ghost (if_neg hv)

/-- **Each step keeps the flags.** -/
theorem flags_step {a : Action K} (wf : Structured s) (inStep : InStep P s) (hs : Flags s)
    (h : s.step P cfg a = some s') : Flags s' := by
  cases moves_of_step h with
  | select root max remain t leaf board max' hroot found =>
      obtain ⟨path, -, rfl⟩ := wf.exists_path found
      have nodes (v : ℕ) := Tree.nodes_addPathVl s.tree path cfg.virtualLoss v
      refine hs.of_ghost rfl (fun v h => .inl ?_) (fun v h => .inl ?_)
      · rwa [nodes] at h
      · rwa [nodes] at h
  | repetition i sel hsel flag =>
      refine hs.of_modify sel.leaf (fun nd => nd.setRepetition true) rfl rfl .inl fun _ => .inr ?_
      rw [← flag]
      exact flagged_selected inStep hsel
  | finished i sel hsel flag result =>
      have marked : Flags { s with
          tree := s.tree.modify sel.leaf fun nd => nd.setRepetition false } :=
        hs.of_modify sel.leaf (fun nd => nd.setRepetition false) rfl rfl .inl fun h => by cases h
      have desc := (wf.mark sel.leaf false).wf.descending_lock
      have nodes (v : ℕ) := Tree.nodes_mctsBackUpdate (z := ((s.tree.nodes sel.leaf).result : K))
        desc sel.leaf cfg.virtualLoss 0 v
      refine marked.of_ghost rfl (fun v h => .inl ?_) (fun v h => .inl ?_)
      · rwa [nodes] at h
      · rwa [nodes] at h
  | revisit i sel hsel flag result terminate sent =>
      exact hs.of_modify sel.leaf (fun nd => (nd.setRepetition false).visitAgain) rfl rfl .inl
        fun h => by cases h
  | request i sel hsel flag result terminate sent rq hrq =>
      refine hs.of_modify sel.leaf (fun nd => (nd.setRepetition false).send) rfl rfl
        (fun _ => .inr ?_) fun h => by cases h
      rw [← flag]
      exact flagged_selected inStep hsel
  | reply i rq value policy hrq =>
      refine ⟨fun v h => ?_, fun v h => ?_⟩
      · rcases flags_of_reply wf hrq rfl v with ⟨unsent, -⟩ | ⟨ghost, sent, -⟩
        · cases unsent.symm.trans h
        · exact (hs.sent v (sent ▸ h)).of_ghost ghost
      · rcases flags_of_reply wf hrq rfl v with ⟨-, unmarked⟩ | ⟨ghost, -, marked⟩
        · cases unmarked.symm.trans h
        · exact (hs.marked v (marked ▸ h)).of_ghost ghost
  | freshRoot pos root board action opAction hroot idle applied =>
      have here : (({ s with opAction := opAction } : Player B K).newRoot board).tree.nodes
          s.tree.next = { Node.new none none with depth := board.getTotalMoves } :=
        Tree.nodes_alloc_next
      have old {v : ℕ} (hv : v ≠ s.tree.next) :
          (({ s with opAction := opAction } : Player B K).newRoot board).tree.nodes v =
            s.tree.nodes v := Tree.nodes_alloc_of_ne hv
      refine ⟨fun v h => ?_, fun v h => ?_⟩ <;> by_cases hv : v = s.tree.next
      · rw [hv, here] at h
        cases h
      · rw [old hv] at h
        exact flagged_newRoot (s := { s with opAction := opAction }) hv (hs.sent v h)
      · rw [hv, here] at h
        cases h
      · rw [old hv] at h
        exact flagged_newRoot (s := { s with opAction := opAction }) hv (hs.marked v h)
  | childRoot | resigned | stopped => exact ⟨hs.sent, hs.marked⟩
  | recycle v dropped => exact hs.of_modify v Node.expireFather rfl rfl .inl .inl
  | ignored => exact hs

omit [LinearOrder K] in
/-- A new player has neither sent nor marked anything. -/
theorem flags_start (board : GoBoard B) : Flags (Player.start board : Player B K) := by
  refine ⟨fun v h => ?_, fun v h => ?_⟩
  · rw [Player.nodes_start] at h
    cases h
  · rw [Player.nodes_start] at h
    cases h

/-! ## Visits

A backup goes up from a leaf without the flag. -/

omit [Field K] [LinearOrder K] in
/-- A node above another was sent. -/
theorem Flags.above (hs : Flags s) (wf : Structured s) {u v : ℕ}
    (below : Below s.tree.lock u v) : Flagged s v false := by
  have ready := (wf.wf.ready_iff v).mpr (Tree.nexts_isSome_of_below wf.wf below)
  exact hs.sent v ((wf.nodes v).answered ready)

omit [Field K] [LinearOrder K] in
/-- A backup from a node without the flag passes no node with it. -/
theorem Flags.onLine (hs : Flags s) (wf : Structured s) {u v : ℕ} (leaf : Flagged s u false)
    (line : s.tree.OnLine u v) : Flagged s v false := by
  rcases atOrBelow_iff.mp line.1 with rfl | below
  · exact leaf
  · exact hs.above wf below

omit [Field K] [LinearOrder K] in
/-- A step that keeps the ghosts. -/
theorem Cleared.of_ghost (hs : Cleared s) (ghost : s'.ghost = s.ghost)
    (visits : ∀ v, s'.tree.visits v ≠ 0 → s.tree.visits v ≠ 0 ∨ Flagged s v false) :
    Cleared s' :=
  fun v h => ((visits v h).elim (hs v) id).of_ghost (congrFun ghost v)

omit [Field K] [LinearOrder K] in
/-- A change of one node that keeps its edge. -/
theorem Cleared.of_modify (hs : Cleared s) (v : ℕ) (f : Node K → Node K)
    (tree : s'.tree = s.tree.modify v f) (ghost : s'.ghost = s.ghost)
    (edge : ∀ nd, (f nd).edge = nd.edge) : Cleared s' := by
  refine hs.of_ghost ghost fun u h => .inl ?_
  rwa [Tree.visits, tree, Tree.modify_field (·.edge) f edge] at h

/-- **Each step keeps what visits say.** -/
theorem cleared_step {a : Action K} (wf : Structured s) (inStep : InStep P s) (flags : Flags s)
    (hs : Cleared s) (h : s.step P cfg a = some s') : Cleared s' := by
  classical
  cases moves_of_step h with
  | select root max remain t leaf board max' hroot found =>
      obtain ⟨path, -, rfl⟩ := wf.exists_path found
      refine hs.of_ghost rfl fun v h => .inl ?_
      rwa [Tree.visits, Tree.nodes_addPathVl, Option.map_map] at h
  | repetition i sel hsel flag =>
      exact hs.of_modify sel.leaf (fun nd => nd.setRepetition true) rfl rfl fun _ => rfl
  | finished i sel hsel flag result =>
      have marked : Structured { s with
          tree := s.tree.modify sel.leaf fun nd => nd.setRepetition false } :=
        wf.mark sel.leaf false
      have flags' : Flags { s with
          tree := s.tree.modify sel.leaf fun nd => nd.setRepetition false } :=
        flags.of_modify sel.leaf (fun nd => nd.setRepetition false) rfl rfl .inl
          fun h => by cases h
      have cleared : Cleared { s with
          tree := s.tree.modify sel.leaf fun nd => nd.setRepetition false } :=
        hs.of_modify sel.leaf (fun nd => nd.setRepetition false) rfl rfl fun _ => rfl
      have unflagged := flagged_selected inStep hsel
      rw [flag] at unflagged
      refine cleared.of_ghost rfl fun v h => ?_
      dsimp only at h
      rw [Tree.Tallied.visits_backedUp marked.wf
        (Tree.nodes_mctsBackUpdate marked.wf.descending_lock _ _ _ v)] at h
      split at h
      · next line => exact .inr (flags'.onLine marked unflagged line)
      · exact .inl h
  | revisit i sel hsel flag result terminate sent =>
      exact hs.of_modify sel.leaf (fun nd => (nd.setRepetition false).visitAgain) rfl rfl
        fun _ => rfl
  | request i sel hsel flag result terminate sent rq hrq =>
      exact hs.of_modify sel.leaf (fun nd => (nd.setRepetition false).send) rfl rfl fun _ => rfl
  | reply i rq value policy hrq =>
      obtain ⟨hleaf, hnexts⟩ := wf.unexpanded hrq
      have unflagged := flags.sent rq.leaf (wf.asked rq (List.mem_of_getElem? hrq)).2.1
      intro v h
      rw [Player.evaluateCallback] at h
      rcases Tree.expand_cases s.tree (keptItems cfg policy) v with hlt | ⟨k, item, hk, rfl⟩ | hge
      · have ghost : ({ s with requests := s.requests.eraseIdx i }.evaluateCallback P cfg rq value
            policy).ghost v = s.ghost v := if_pos hlt
        rw [Tree.visits_answer_of_lt wf.wf hleaf hnexts hlt] at h
        split at h
        · next line => exact (flags.onLine wf unflagged line).of_ghost ghost
        · exact (hs v h).of_ghost ghost
      · rw [Tree.visits, Tree.nodes_answer_child wf.wf hleaf hnexts hk] at h
        exact absurd rfl h
      · rw [Tree.visits, Tree.nodes_answer_fresh wf.wf hleaf hnexts hge] at h
        have ghost : ({ s with requests := s.requests.eraseIdx i }.evaluateCallback P cfg rq value
            policy).ghost v = s.ghost v := by
          simp only [Player.evaluateCallback]
          rw [if_neg (by omega), List.getElem?_eq_none (by omega)]
        exact (hs v h).of_ghost ghost
  | freshRoot pos root board action opAction hroot idle applied =>
      intro v h
      rw [Tree.visits, Player.newRoot] at h
      by_cases hv : v = s.tree.next
      · rw [hv, Tree.nodes_alloc_next] at h
        exact absurd rfl h
      · rw [Tree.nodes_alloc_of_ne hv] at h
        exact flagged_newRoot (s := { s with opAction := opAction }) hv (hs v h)
  | recycle v dropped => exact hs.of_modify v Node.expireFather rfl rfl fun _ => rfl
  | childRoot | resigned | stopped | ignored => exact hs

omit [LinearOrder K] in
theorem cleared_start (board : GoBoard B) : Cleared (Player.start board : Player B K) := by
  intro v h
  rw [Tree.visits, Player.nodes_start] at h
  exact absurd rfl h

/-! ## Runs -/

/-- What the flags of a reachable player say.  Two of its parts are about
pointers and boards, and are needed to carry the two about the flags from step
to step. -/
structure Judged (P : Pachi B) (s : Player B K) : Prop where
  wf : Structured s
  inStep : InStep P s
  flags : Flags s
  cleared : Cleared s

theorem judged_step {a : Action K} (hs : Judged P s) (h : s.step P cfg a = some s') :
    Judged P s' where
  wf := structured_step hs.wf h
  inStep := inStep_step hs.wf hs.inStep h
  flags := flags_step hs.wf hs.inStep hs.flags h
  cleared := cleared_step hs.wf hs.inStep hs.flags hs.cleared h

omit [LinearOrder K] in
/-- A new player has nothing to say. -/
theorem judged_start (board : GoBoard B) : Judged P (Player.start board : Player B K) :=
  ⟨structured_start board, inStep_start board, flags_start board, cleared_start board⟩

/-- **Marks and visits of every player.**  What was sent or visited stands for a
board without the flag, and what is marked for a board with it. -/
theorem judged_run {board : GoBoard B} {as : List (Action K)}
    (run : (playerMachine P cfg).exec (Player.start board) as = some s) : Judged P s :=
  (playerMachine P cfg).invariant_of_step (I := Judged P) judged_step (judged_start board) run

omit [Field K] [LinearOrder K] in
/-- A marked node was neither sent nor visited. -/
theorem Judged.marked (hs : Judged P s) {v : ℕ} (marked : (s.tree.nodes v).isRepetition = true) :
    (s.tree.nodes v).rqSent = false ∧ s.tree.visits v = 0 := by
  have flagged := hs.flags.marked v marked
  refine ⟨?_, ?_⟩
  · by_contra sent
    cases flagged.unique (hs.flags.sent v (by simpa using sent))
  · by_contra visited
    cases flagged.unique (hs.cleared v visited)

end Steps

end EstarGo
