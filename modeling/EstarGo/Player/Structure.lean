import EstarGo.Player.Moves
import Mathlib.Data.List.Perm.Basic

/-!
# What every player keeps

`Structured` collects what the other invariants stand on: the pointers of the
tree agree, nothing below the root has lost its father, each selection in
progress is at or below the root, and the unanswered requests are those of the
nodes that were sent and are not ready, one for each.

No reachable node is terminal: `is_terminate` is only ever derived from the
`is_terminate` of a child.

## Main definitions

* `NodeOk` — the flags of a node agree.
* `Structured` — the structure of a reachable player.

## Main results

* `structured_step`, `structured_run`: every reachable player is structured.
* `exists_path`: a selection adds the virtual loss along a path.
* `unexpanded`: the leaf of a request has no children yet.

## Design notes

**One invariant below the others.**  Counts, requests, priors and repetitions
have invariants of their own.  They are proved of structured players, and assume
a `Structured` state rather than carrying these facts along.

**Two kinds of father pointers.**  `father` is where a node was allocated, and
never changes.  `lock` is what `father.lock()` finds, which is nothing once the
father was freed.  Below the root the two agree.
-/

namespace EstarGo

open Verif

variable {B K : Type}

/-- An entry of a list, and the list without it. -/
theorem cons_eraseIdx_perm {α : Type} {l : List α} {i : ℕ} {a : α} (h : l[i]? = some a) :
    (a :: l.eraseIdx i).Perm l := by
  obtain ⟨hi, rfl⟩ := List.getElem?_eq_some_iff.mp h
  exact List.getElem_cons_eraseIdx_perm hi

/-- The flags of a node agree.  It is not decided; it was asked for before it
became ready; before it was asked for it was not visited again; and one with a
result is not asked for. -/
structure NodeOk (nd : Node K) : Prop where
  undecided : nd.isTerminate = false
  answered : nd.evalReady = true → nd.rqSent = true
  unvisited : nd.rqSent = false → nd.invalidVisit = 0
  finished : nd.result ≠ 0 → nd.rqSent = false

/-- The structure of a reachable player: its tree, its selections and its
requests.  A request may be about a node that a command has dropped, a selection
may not, for commands wait until the search threads have returned. -/
structure Structured (s : Player B K) : Prop where
  wf : s.tree.Wf
  nodes : ∀ v, NodeOk (s.tree.nodes v)
  root_lt : ∀ root, s.root = some root → root < s.tree.next
  attached : ∀ root, s.root = some root → ∀ v, Below s.tree.father v root →
    (s.tree.nodes v).fatherExpired = false
  selected : ∀ sel ∈ s.selections, ∃ root, s.root = some root ∧
    AtOrBelow s.tree.father sel.leaf root
  asked : ∀ rq ∈ s.requests, rq.leaf < s.tree.next ∧
    (s.tree.nodes rq.leaf).rqSent = true ∧ (s.tree.nodes rq.leaf).evalReady = false
  once : (s.requests.map Request.leaf).Nodup
  pending : ∀ v, (s.tree.nodes v).rqSent = true → (s.tree.nodes v).evalReady = false →
    v ∈ s.requests.map Request.leaf

namespace Structured

variable {s s' : Player B K}

/-- What is at or below the root is a node of the tree. -/
theorem lt_next (hs : Structured s) {root v : ℕ} (hroot : s.root = some root)
    (hv : AtOrBelow s.tree.father v root) : v < s.tree.next := by
  rcases atOrBelow_iff.mp hv with rfl | ⟨f, hf, -⟩
  · exact hs.root_lt v hroot
  · exact hs.wf.lt_next_of_father hf

/-- The leaf of an unanswered request is a node without children. -/
theorem unexpanded (hs : Structured s) {i : ℕ} {rq : Request} (hrq : s.requests[i]? = some rq) :
    rq.leaf < s.tree.next ∧ (s.tree.nodes rq.leaf).nexts = none := by
  obtain ⟨hleaf, -, hready⟩ := hs.asked rq (List.mem_of_getElem? hrq)
  have := (hs.wf.ready_iff rq.leaf).mpr.mt (by simp [hready])
  exact ⟨hleaf, by simpa using this⟩

/-- Nothing was sent for an unused number. -/
theorem unsent_of_ge (hs : Structured s) {v : ℕ} (hv : s.tree.next ≤ v) :
    (s.tree.nodes v).rqSent = false := by
  by_contra sent
  have ready : (s.tree.nodes v).evalReady = false := by
    by_contra ready
    have := (hs.wf.ready_iff v).mp (by simpa using ready)
    simp [(hs.wf.fresh v hv).2] at this
  obtain ⟨rq, hrq, rfl⟩ := List.mem_map.mp (hs.pending v (by simpa using sent) ready)
  have := (hs.asked rq hrq).1
  omega

/-- Below the root, `lock()` finds the father. -/
theorem lock_eq (hs : Structured s) {root v : ℕ} (hroot : s.root = some root)
    (hv : Below s.tree.father v root) : s.tree.lock v = s.tree.father v := by
  simp [Tree.lock, Node.lock, Tree.father, hs.attached root hroot v hv]

/-- The same for all nodes below the root, in the words of the tree. -/
theorem keepsBelow (hs : Structured s) {root : ℕ} (hroot : s.root = some root) :
    KeepsBelow s.tree.father s.tree.lock root :=
  ⟨fun _ _ => Tree.father_of_lock, fun _ => hs.lock_eq hroot⟩

/-- From a node below the root, climbing locked pointers reaches what lies
between. -/
theorem atOrBelow_lock_iff (hs : Structured s) {root u v : ℕ} (hroot : s.root = some root)
    (hv : Below s.tree.father v root) :
    AtOrBelow s.tree.lock u v ↔ AtOrBelow s.tree.father u v :=
  (hs.keepsBelow hroot).atOrBelow_iff hv.atOrBelow

/-- What is strictly below the root is so by locked pointers. -/
theorem below_lock_iff (hs : Structured s) {root u : ℕ} (hroot : s.root = some root) :
    Below s.tree.lock u root ↔ Below s.tree.father u root :=
  (hs.keepsBelow hroot).below_iff .refl

/-- A step that keeps the pointers, the requests and what was sent keeps the
structure. -/
theorem of_sameShape (hs : Structured s) (shape : Tree.SameShape s.tree s'.tree)
    (nodes : ∀ v, NodeOk (s'.tree.nodes v))
    (expired : ∀ v, (s'.tree.nodes v).fatherExpired = (s.tree.nodes v).fatherExpired)
    (sent : ∀ v, (s'.tree.nodes v).rqSent = (s.tree.nodes v).rqSent)
    (root : s'.root = s.root) (requests : s'.requests = s.requests)
    (selected : ∀ sel ∈ s'.selections, sel ∈ s.selections ∨
      ∃ root, s.root = some root ∧ AtOrBelow s.tree.father sel.leaf root) : Structured s' where
  wf := hs.wf.of_sameShape shape
  nodes := nodes
  root_lt := by simpa only [root, shape.next] using hs.root_lt
  attached := by simpa only [root, shape.father, expired] using hs.attached
  selected := by
    intro sel hsel
    rw [root, shape.father]
    rcases selected sel hsel with h | h
    · exact hs.selected sel h
    · exact h
  asked := by simpa only [requests, shape.next, sent, shape.evalReady] using hs.asked
  once := by simpa only [requests] using hs.once
  pending := by simpa only [requests, sent, shape.evalReady] using hs.pending

/-- A step that keeps the tree, the root and the requests keeps it, too.  It may
end selections. -/
theorem of_tree_eq (hs : Structured s) (tree : s'.tree = s.tree) (root : s'.root = s.root)
    (requests : s'.requests = s.requests) (selections : s'.selections ⊆ s.selections) :
    Structured s' := by
  refine hs.of_sameShape ?_ ?_ ?_ ?_ root requests fun sel hsel => .inl (selections hsel)
  · rw [tree]
    exact .refl _
  · simpa only [tree] using hs.nodes
  · simp only [tree, implies_true]
  · simp only [tree, implies_true]

/-- Flags that virtual loss and backup leave alone. -/
theorem nodeOk_of_counts {nd : Node K} (h : NodeOk nd) (edge : Option (Edge K)) (totalN : ℕ) :
    NodeOk { nd with edge := edge, totalN := totalN } :=
  ⟨h.undecided, h.answered, h.unvisited, h.finished⟩

end Structured

section Steps

variable [Field K] [LinearOrder K] {P : Pachi B} {cfg : Settings K} {s s' : Player B K}

/-- Selection follows a path from the root and adds the virtual loss along
it. -/
theorem Structured.exists_path (hs : Structured s) {root leaf : ℕ} {max max' remain : ℤ}
    {t : Tree K} {board : GoBoard B}
    (found : s.tree.mctsSelectPathRoot P cfg root max s.rootBoard remain =
      .leaf t leaf board max') :
    ∃ path, Tree.Path P s.tree root s.rootBoard path leaf board ∧
      t = s.tree.addPathVl path cfg.virtualLoss :=
  (Tree.walk_of_mctsSelectPathRoot found).exists_path hs.wf fun v => (hs.nodes v).undecided

omit [Field K] [LinearOrder K] in
/-- A change of one node that keeps its pointers and flags in order. -/
theorem Structured.of_modify (hs : Structured s) (v : ℕ) (f : Node K → Node K)
    (tree : s'.tree = s.tree.modify v f) (ok : NodeOk (f (s.tree.nodes v)))
    (shape : ∀ nd, (f nd).shape = nd.shape)
    (expired : ∀ nd, (f nd).fatherExpired = nd.fatherExpired)
    (sent : ∀ nd, (f nd).rqSent = nd.rqSent)
    (root : s'.root = s.root) (requests : s'.requests = s.requests)
    (selections : s'.selections ⊆ s.selections) : Structured s' := by
  refine hs.of_sameShape ?_ (fun u => ?_) (fun u => ?_) (fun u => ?_) root requests
    fun sel hsel => .inl (selections hsel)
  · rw [tree]
    exact Tree.SameShape.of_modify v f shape
  · rw [tree, Tree.nodes_modify]
    split
    · rename_i h
      rwa [h]
    · exact hs.nodes u
  · rw [tree]
    exact Tree.modify_field (·.fatherExpired) f expired v u
  · rw [tree]
    exact Tree.modify_field (·.rqSent) f sent v u

omit [Field K] [LinearOrder K] in
/-- Marking a leaf, as a repetition or not. -/
theorem Structured.mark (hs : Structured s) (v : ℕ) (isRepetition : Bool) :
    Structured { s with tree := s.tree.modify v fun nd => nd.setRepetition isRepetition } := by
  obtain ⟨undecided, answered, unvisited, finished⟩ := hs.nodes v
  exact hs.of_modify v (fun nd => nd.setRepetition isRepetition) rfl
    ⟨undecided, answered, unvisited, finished⟩ (fun _ => rfl) (fun _ => rfl) (fun _ => rfl)
    rfl rfl (List.Subset.refl _)

omit [LinearOrder K] in
/-- The backup of a finished leaf keeps the pointers. -/
theorem Structured.shape_finished (hs : Structured s) (u : ℕ) (vl : ℤ) (z : K) :
    Tree.SameShape s.tree
      ((s.tree.modify u fun nd => nd.setRepetition false).mctsBackUpdate u vl z 0) :=
  (Tree.SameShape.of_modify u (·.setRepetition false) fun _ => rfl).trans
    (Tree.SameShape.of_mctsBackUpdate (hs.mark u false).wf.descending_lock u vl 0)

omit [Field K] [LinearOrder K] in
/-- Sending the request of a leaf, which adds one request for a node that had
none. -/
theorem Structured.of_request (hs : Structured s) (v : ℕ) (f : Node K → Node K) {rq : Request}
    (tree : s'.tree = s.tree.modify v f) (root : s'.root = s.root)
    (requests : s'.requests = s.requests ++ [rq]) (selections : s'.selections ⊆ s.selections)
    (hv : v < s.tree.next) (hrq : rq.leaf = v) (unsent : (s.tree.nodes v).rqSent = false)
    (ok : NodeOk (f (s.tree.nodes v))) (shape : ∀ nd, (f nd).shape = nd.shape)
    (expired : ∀ nd, (f nd).fatherExpired = nd.fatherExpired)
    (sent : ∀ nd, (f nd).rqSent = true) : Structured s' := by
  have sameShape : Tree.SameShape s.tree s'.tree := by
    rw [tree]
    exact Tree.SameShape.of_modify v f shape
  have other (u : ℕ) (hu : u ≠ v) : s'.tree.nodes u = s.tree.nodes u := by
    rw [tree, Tree.nodes_modify, if_neg hu]
  have here : s'.tree.nodes v = f (s.tree.nodes v) := by
    rw [tree, Tree.nodes_modify, if_pos rfl]
  have unready : (s.tree.nodes v).evalReady = false := by
    by_contra ready
    have := (hs.nodes v).answered (by simpa using ready)
    simp [unsent] at this
  have unasked : v ∉ s.requests.map Request.leaf := by
    intro mem
    obtain ⟨rq', hrq', rfl⟩ := List.mem_map.mp mem
    simp [(hs.asked rq' hrq').2.1] at unsent
  constructor
  case wf =>
    exact hs.wf.of_sameShape sameShape
  case nodes =>
    intro u
    by_cases hu : u = v
    · rw [hu, here]
      exact ok
    · rw [other u hu]
      exact hs.nodes u
  case root_lt =>
    simpa only [root, sameShape.next] using hs.root_lt
  case attached =>
    intro r hr u hu
    rw [tree, Tree.modify_field (·.fatherExpired) f expired v u]
    rw [root] at hr
    rw [sameShape.father] at hu
    exact hs.attached r hr u hu
  case selected =>
    intro sel hsel
    rw [root, sameShape.father]
    exact hs.selected sel (selections hsel)
  case asked =>
    intro rq' hrq'
    rw [requests, List.mem_append, List.mem_singleton] at hrq'
    rw [sameShape.next, sameShape.evalReady]
    rcases hrq' with hrq' | rfl
    · obtain ⟨hlt, hsent, hready⟩ := hs.asked rq' hrq'
      refine ⟨hlt, ?_, hready⟩
      by_cases hu : rq'.leaf = v
      · rw [hu, here, sent]
      · rw [other _ hu, hsent]
    · rw [hrq]
      exact ⟨hv, by rw [here, sent], unready⟩
  case once =>
    rw [requests, List.map_append, List.nodup_append]
    refine ⟨hs.once, by simp, fun a ha b hb => ?_⟩
    rintro rfl
    obtain rfl : a = v := by simpa [hrq] using hb
    exact unasked ha
  case pending =>
    intro u hsent hready
    rw [requests, List.map_append, List.mem_append]
    by_cases hu : u = v
    · exact .inr (by simp [hrq, hu])
    · rw [other u hu] at hsent hready
      exact .inl (hs.pending u hsent hready)

omit [Field K] [LinearOrder K] in
/-- `belowRoot` decides being below the root. -/
theorem Structured.belowRoot_iff (hs : Structured s) {root v : ℕ} (hroot : s.root = some root) :
    s.belowRoot v = true ↔ Below s.tree.father v root := by
  unfold Player.belowRoot
  rw [hroot]
  cases hf : s.tree.father v with
  | none => simp [not_below_of_none hf]
  | some f =>
      rw [below_iff_of_father hf]
      exact reaches_iff hs.wf.descending le_rfl

/-- A reply expands its leaf and leaves the other requests.  The leaf is a node
below the root, or one that was dropped; in the second case the backup stays
among the dropped nodes, and the tree below the root is as it was. -/
theorem structured_reply (hs : Structured s) {i : ℕ} {rq : Request} {value : K}
    {policy : List (PolicyItem K)} (hrq : s.requests[i]? = some rq) :
    Structured ({ s with requests := s.requests.eraseIdx i }.evaluateCallback P cfg rq value
      policy) := by
  obtain ⟨hleaf, hnexts⟩ := hs.unexpanded hrq
  have hsent := (hs.asked rq (List.mem_of_getElem? hrq)).2.1
  have perm := cons_eraseIdx_perm hrq
  have once := (perm.map Request.leaf).nodup_iff.mpr hs.once
  rw [List.map_cons, List.nodup_cons] at once
  have unasked {v : ℕ} (hv : v ∈ (s.requests.eraseIdx i).map Request.leaf) : v ≠ rq.leaf := by
    rintro rfl
    exact once.1 hv
  constructor
  case wf =>
    exact Tree.wf_answer hs.wf hleaf hnexts
  case nodes =>
    intro v
    obtain ⟨undecided, answered, unvisited, finished⟩ := hs.nodes v
    rcases Tree.expand_cases s.tree (keptItems cfg policy) v with hv | ⟨k, item, hk, rfl⟩ | hv
    · rw [Player.evaluateCallback, Tree.nodes_answer_of_lt hs.wf hleaf hnexts hv]
      refine ⟨undecided, fun ready => ?_, unvisited, finished⟩
      by_cases h : v = rq.leaf
      · exact h ▸ hsent
      · exact answered (by simpa [h] using ready)
    · rw [Player.evaluateCallback, Tree.nodes_answer_child hs.wf hleaf hnexts hk]
      exact ⟨rfl, by simp [childNode, Node.new], fun _ => rfl, fun _ => rfl⟩
    · rw [Player.evaluateCallback, Tree.nodes_answer_fresh hs.wf hleaf hnexts hv]
      exact ⟨undecided, answered, unvisited, finished⟩
  case root_lt =>
    intro root hroot
    exact Nat.lt_of_lt_of_le (hs.root_lt root hroot) (by simp [Player.evaluateCallback])
  case attached =>
    intro root hroot v hv
    rcases Tree.expand_cases s.tree (keptItems cfg policy) v with hlt | ⟨k, item, hk, rfl⟩ | hge
    · rw [Player.evaluateCallback, Tree.nodes_answer_of_lt hs.wf hleaf hnexts hlt]
      exact hs.attached root hroot v ((Tree.below_answer hs.wf hleaf hnexts hlt).mp hv)
    · rw [Player.evaluateCallback, Tree.nodes_answer_child hs.wf hleaf hnexts hk]
      rfl
    · exact absurd hv (not_below_of_none (Tree.father_answer_fresh hs.wf hleaf hnexts hge))
  case selected =>
    intro sel hsel
    obtain ⟨root, hroot, below⟩ := hs.selected sel hsel
    have old := hs.lt_next hroot below
    exact ⟨root, hroot, (Tree.atOrBelow_answer hs.wf hleaf hnexts old).mpr below⟩
  case asked =>
    intro rq' hrq'
    obtain ⟨hlt, hsent', hready'⟩ := hs.asked rq' (List.eraseIdx_subset hrq')
    have ne := unasked (List.mem_map_of_mem hrq')
    refine ⟨Nat.lt_of_lt_of_le hlt (by simp [Player.evaluateCallback]), ?_, ?_⟩
    · rw [Player.evaluateCallback, Tree.nodes_answer_of_lt hs.wf hleaf hnexts hlt]
      exact hsent'
    · rw [Player.evaluateCallback, Tree.nodes_answer_of_lt hs.wf hleaf hnexts hlt]
      simpa [ne] using hready'
  case once =>
    exact once.2
  case pending =>
    intro v hsent' hready'
    rcases Tree.expand_cases s.tree (keptItems cfg policy) v with hv | ⟨k, item, hk, rfl⟩ | hv
    · rw [Player.evaluateCallback, Tree.nodes_answer_of_lt hs.wf hleaf hnexts hv] at hsent' hready'
      have ne : v ≠ rq.leaf := by
        rintro rfl
        simp at hready'
      have mem := hs.pending v hsent' (by simpa [ne] using hready')
      rw [← (perm.map Request.leaf).mem_iff, List.map_cons, List.mem_cons] at mem
      exact mem.resolve_left ne
    · rw [Player.evaluateCallback, Tree.nodes_answer_child hs.wf hleaf hnexts hk] at hsent'
      simp [childNode, Node.new] at hsent'
    · rw [Player.evaluateCallback, Tree.nodes_answer_fresh hs.wf hleaf hnexts hv] at hsent'
      simp [hs.unsent_of_ge (by omega : s.tree.next ≤ v)] at hsent'

omit [Field K] [LinearOrder K] in
/-- Only pointers that are not below the root expire. -/
theorem structured_recycle (hs : Structured s) {v : ℕ} (dropped : s.belowRoot v = false) :
    Structured { s with tree := s.tree.modify v Node.expireFather } := by
  have shape : Tree.SameShape s.tree (s.tree.modify v Node.expireFather) :=
    Tree.SameShape.of_modify v Node.expireFather fun _ => rfl
  have sent (u : ℕ) : ((s.tree.modify v Node.expireFather).nodes u).rqSent =
      (s.tree.nodes u).rqSent := Tree.modify_field (·.rqSent) Node.expireFather (fun _ => rfl) v u
  refine ⟨hs.wf.of_sameShape shape, ?_, hs.root_lt, ?_, ?_, ?_, hs.once, ?_⟩
  · intro u
    obtain ⟨undecided, answered, unvisited, finished⟩ := hs.nodes u
    rw [Tree.nodes_modify]
    split <;> exact ⟨undecided, answered, unvisited, finished⟩
  · intro root hroot u hu
    rw [shape.father] at hu
    have ne : u ≠ v := by
      rintro rfl
      simp [(hs.belowRoot_iff hroot).mpr hu] at dropped
    rw [Tree.nodes_modify, if_neg ne]
    exact hs.attached root hroot u hu
  · simpa only [shape.father] using hs.selected
  · simpa only [shape.next, sent, shape.evalReady] using hs.asked
  · simpa only [sent, shape.evalReady] using hs.pending

omit [LinearOrder K] in
theorem structured_newRoot (hs : Structured s) (idle : s.selections = []) (board : GoBoard B) :
    Structured (s.newRoot board) := by
  have father : (s.newRoot board).tree.father = s.tree.father := Tree.father_alloc hs.wf rfl
  have old {v : ℕ} (hv : v ≠ s.tree.next) :
      (s.newRoot board).tree.nodes v = s.tree.nodes v := Tree.nodes_alloc_of_ne hv
  have here : (s.newRoot board).tree.nodes s.tree.next =
      { Node.new none none with depth := board.getTotalMoves } := Tree.nodes_alloc_next
  refine ⟨Tree.Wf.alloc hs.wf rfl rfl rfl, ?_, ?_, ?_, by simp [Player.newRoot, idle], ?_,
    hs.once, ?_⟩
  · intro v
    by_cases hv : v = s.tree.next
    · rw [hv, here]
      exact ⟨rfl, by simp [Node.new], fun _ => rfl, fun _ => rfl⟩
    · rw [old hv]
      exact hs.nodes v
  · rintro _ ⟨⟩
    exact Nat.lt_succ_self _
  · rintro _ ⟨⟩ v hv
    rw [father] at hv
    exact absurd hv (hs.wf.not_below_next v)
  · intro rq hrq
    obtain ⟨hlt, hsent, hready⟩ := hs.asked rq hrq
    rw [old hlt.ne]
    exact ⟨Nat.lt_succ_of_lt hlt, hsent, hready⟩
  · intro v hsent hready
    by_cases hv : v = s.tree.next
    · rw [hv, here] at hsent
      simp [Node.new] at hsent
    · rw [old hv] at hsent hready
      exact hs.pending v hsent hready

/-- One step, by its outcome. -/
theorem structured_step {a : Action K} (hs : Structured s) (h : s.step P cfg a = some s') :
    Structured s' := by
  have leaf_lt {i : ℕ} {sel : Selection B} (hsel : s.selections[i]? = some sel) :
      sel.leaf < s.tree.next := by
    obtain ⟨root, hroot, hleaf⟩ := hs.selected sel (List.mem_of_getElem? hsel)
    exact hs.lt_next hroot hleaf
  cases moves_of_step h with
  | select root max remain t leaf board max' hroot found =>
      obtain ⟨path, hpath, rfl⟩ := hs.exists_path found
      refine hs.of_sameShape (Tree.SameShape.of_addPathVl _ _ _) (fun v => ?_) (fun v => ?_)
        (fun v => ?_) rfl rfl fun sel hsel => ?_
      · rw [Tree.nodes_addPathVl]
        exact Structured.nodeOk_of_counts (hs.nodes v) _ _
      · rw [Tree.nodes_addPathVl]
      · rw [Tree.nodes_addPathVl]
      · rcases List.mem_append.mp hsel with hsel | hsel
        · exact .inl hsel
        · rw [List.mem_singleton.mp hsel]
          exact .inr ⟨root, hroot, hpath.atOrBelow⟩
  | repetition i sel hsel flag =>
      exact (hs.mark sel.leaf true).of_tree_eq rfl rfl rfl List.eraseIdx_subset
  | finished i sel hsel flag result =>
      have marked := hs.mark sel.leaf false
      have desc := marked.wf.descending_lock
      refine marked.of_sameShape (Tree.SameShape.of_mctsBackUpdate desc _ _ _) (fun v => ?_)
        (fun v => ?_) (fun v => ?_) rfl rfl fun sel hsel => .inl (List.eraseIdx_subset hsel)
      · rw [Tree.nodes_mctsBackUpdate desc]
        exact Structured.nodeOk_of_counts (marked.nodes v) _ _
      · rw [Tree.nodes_mctsBackUpdate desc]
        rfl
      · rw [Tree.nodes_mctsBackUpdate desc]
        rfl
  | revisit i sel hsel flag result terminate sent =>
      obtain ⟨undecided, answered, unvisited, finished⟩ := hs.nodes sel.leaf
      exact hs.of_modify sel.leaf (fun nd => (nd.setRepetition false).visitAgain) rfl
        ⟨undecided, answered, by simp [Node.visitAgain, Node.setRepetition, sent], finished⟩
        (fun _ => rfl) (fun _ => rfl) (fun _ => rfl) rfl rfl List.eraseIdx_subset
  | request i sel hsel flag result terminate sent rq hrq =>
      obtain ⟨undecided, answered, unvisited, finished⟩ := hs.nodes sel.leaf
      exact hs.of_request sel.leaf (fun nd => (nd.setRepetition false).send) rfl rfl rfl
        List.eraseIdx_subset (leaf_lt hsel) (by rw [hrq]; rfl) sent
        ⟨undecided, fun _ => rfl, by simp [Node.send],
          by simp [Node.send, Node.setRepetition, result]⟩
        (fun _ => rfl) (fun _ => rfl) (fun _ => rfl)
  | reply i rq value policy hrq => exact structured_reply hs hrq
  | freshRoot pos root board action opAction hroot idle applied =>
      exact structured_newRoot (s := { s with opAction := opAction })
        (hs.of_tree_eq rfl rfl rfl (List.Subset.refl _)) idle board
  | childRoot a root child nexts board action opAction command hroot idle hnexts mem haction
      applied =>
      have father := hs.wf.father_of_mem hnexts mem
      refine ⟨hs.wf, hs.nodes, ?_, ?_, by simp [idle], hs.asked, hs.once, hs.pending⟩
      · rintro _ ⟨⟩
        exact hs.wf.lt_next_of_father father
      · -- what is below the child was below the root
        rintro _ ⟨⟩ v hv
        exact hs.attached root hroot v (hv.trans_atOrBelow (below_of_father father).atOrBelow)
  | resigned idle =>
      exact ⟨hs.wf, hs.nodes, by simp, by simp, by simp [idle], hs.asked, hs.once, hs.pending⟩
  | recycle v dropped => exact structured_recycle hs dropped
  | stopped => exact hs.of_tree_eq rfl rfl rfl (List.Subset.refl _)
  | ignored => exact hs

omit [LinearOrder K] in
/-- A new player has a root without children, and has asked for nothing. -/
theorem structured_start (board : GoBoard B) :
    Structured (Player.start board : Player B K) := by
  refine ⟨⟨?_, ?_, ?_, ?_, ?_, ?_⟩, ?_, ?_, ?_, by simp [Player.start], by simp [Player.start],
    by simp [Player.start], ?_⟩
  · exact fun v _ => ⟨Player.father_start board v, by simp [Player.nodes_start, Node.new]⟩
  · intro a b h
    simp at h
  · intro c v
    simp [Player.nodes_start, Node.new]
  · intro v cs h
    simp [Player.nodes_start, Node.new] at h
  · intro c v h
    simp at h
  · intro v
    simp [Player.nodes_start, Node.new]
  · intro v
    rw [Player.nodes_start]
    exact ⟨rfl, by simp [Node.new], fun _ => rfl, fun _ => rfl⟩
  · rintro _ ⟨⟩
    exact Nat.one_pos
  · rintro _ ⟨⟩ v hv
    exact absurd hv (not_below_of_none (Player.father_start board v))
  · intro v hsent
    simp [Player.nodes_start, Node.new] at hsent

/-- Every reachable player is structured.  Nothing is asked of the replies for
this, and nothing of the order of the steps. -/
theorem structured_run {board : GoBoard B} {as : List (Action K)}
    (run : (playerMachine P cfg).exec (Player.start board) as = some s) : Structured s :=
  (playerMachine P cfg).invariant_of_step structured_step (structured_start board) run

end Steps

end EstarGo
