import EstarGo.Player.Flags
import EstarGo.Tree.EarlyBreak

/-!
# The order in which children open

The children of a reply are sorted by their priors, and a scan goes past a child
without a visit only where the child is marked as a repetition or, at the root,
pruned.  What is pruned has fewer visits than what is scored.  So at every node,
whatever stands behind an unmarked child without a visit is untouched: no
descent, request or backup has reached it.

## Main definitions

* `Untouched` — neither a descent nor a backup nor a request has reached a node.
* `Behind` — how a child stands behind another.
* `InOrder` — the children at and below the root stand in order.

## Main results

* `inOrder_run`: what stands behind an unmarked child without a visit is
  untouched.
* `children_open_in_order`: a child with a visit or virtual loss stands behind
  children with a visit.

## Design notes

**Marks come before visits.**  A child is marked by the first iteration that
ends at it, and then it has no visit and never gets one.  So a child that ends a
scan did so in all the scans before, and what it hides stays hidden until it is
visited.
-/

namespace EstarGo

open Verif

variable {B K : Type} [Field K] [LinearOrder K]

/-- Neither a descent nor a backup nor a request has reached a node.  A scan
rates such a node by its prior and by its father alone. -/
structure Untouched (s : Player B K) (x : ℕ) : Prop where
  edge : ∃ e, (s.tree.nodes x).edge = some e ∧ e.n = 0 ∧ e.vl = 0
  unsent : (s.tree.nodes x).rqSent = false
  unselected : ∀ sel ∈ s.selections, sel.leaf ≠ x

/-- A child that ends the scan: not marked and without a visit.  The scan looks
at nothing behind it. -/
def Tree.Ends (t : Tree K) (c : ℕ) : Prop := (t.nodes c).skipped = false ∧ t.visits c = 0

/-- How a child stands behind another: its prior is not greater, and it is
untouched while the other ends the scan.  Once the other has a visit or a mark,
nothing is said of it. -/
structure Behind (s : Player B K) (c x : ℕ) : Prop where
  prior : s.tree.prior x ≤ s.tree.prior c
  untouched : s.tree.Ends c → Untouched s x

/-- The children at and below the root stand in order. -/
def InOrder (s : Player B K) : Prop :=
  ∀ root, s.root = some root → ∀ v, AtOrBelow s.tree.father v root →
    ∀ cs, (s.tree.nodes v).nexts = some cs → cs.Pairwise (Behind s)

section Steps

variable {P : Pachi B} {cfg : Settings K} {s s' : Player B K}

/-- A step that keeps the pointers, the priors and the marks of what has no
visit. -/
theorem InOrder.of_sameShape (hs : InOrder s) (shape : Tree.SameShape s.tree s'.tree)
    (root : s'.root = s.root) (prior : ∀ x, s'.tree.prior x = s.tree.prior x)
    (ends : ∀ c, s'.tree.Ends c → s.tree.Ends c)
    (untouched : ∀ root, s.root = some root → ∀ v, AtOrBelow s.tree.father v root →
      ∀ cs, (s.tree.nodes v).nexts = some cs →
        cs.Pairwise fun c x => s.tree.Ends c → Untouched s x → Untouched s' x) : InOrder s' := by
  intro r hr v below cs hcs
  rw [root] at hr
  rw [shape.father] at below
  rw [shape.nexts] at hcs
  refine (hs r hr v below cs hcs).imp₂ (fun c x behind kept => ⟨?_, fun he => ?_⟩)
    (untouched r hr v below cs hcs)
  · rw [prior, prior]
    exact behind.prior
  · exact kept (ends c he) (behind.untouched (ends c he))

/-- A step that touches no node keeps the order. -/
theorem InOrder.of_untouched (hs : InOrder s) (shape : Tree.SameShape s.tree s'.tree)
    (root : s'.root = s.root) (prior : ∀ x, s'.tree.prior x = s.tree.prior x)
    (ends : ∀ c, s'.tree.Ends c → s.tree.Ends c)
    (untouched : ∀ x, Untouched s x → Untouched s' x) : InOrder s' :=
  hs.of_sameShape shape root prior ends fun _ _ _ _ _ _ =>
    List.pairwise_of_forall fun _ x _ => untouched x

omit [LinearOrder K] in
/-- A step that keeps the tree and the root. -/
theorem InOrder.of_tree_eq [LinearOrder K] (hs : InOrder s) (tree : s'.tree = s.tree)
    (root : s'.root = s.root) (selections : s'.selections ⊆ s.selections) : InOrder s' := by
  refine hs.of_untouched ?_ root (fun x => by rw [tree]) (fun c => by rw [tree]; exact id)
    fun x untouched => ⟨?_, ?_, fun sel hsel => untouched.unselected sel (selections hsel)⟩
  · rw [tree]
    exact .refl _
  · rw [tree]
    exact untouched.edge
  · rw [tree]
    exact untouched.unsent

/-- A change of one node that keeps its edge and unmarks nothing. -/
theorem InOrder.of_modify (hs : InOrder s) (v : ℕ) (f : Node K → Node K)
    (tree : s'.tree = s.tree.modify v f) (root : s'.root = s.root)
    (shape : ∀ nd, (f nd).shape = nd.shape) (edge : ∀ nd, (f nd).edge = nd.edge)
    (marked : (f (s.tree.nodes v)).skipped = false → (s.tree.nodes v).skipped = false)
    (unsent : Untouched s v → (f (s.tree.nodes v)).rqSent = false)
    (selections : s'.selections ⊆ s.selections) : InOrder s' := by
  have edge (x : ℕ) : (s'.tree.nodes x).edge = (s.tree.nodes x).edge := by
    rw [tree]
    exact Tree.modify_field (·.edge) f edge v x
  refine hs.of_untouched ?_ root (fun x => ?_) (fun c ends => ⟨?_, ?_⟩) fun x untouched => ⟨?_, ?_,
    fun sel hsel => untouched.unselected sel (selections hsel)⟩
  · rw [tree]
    exact Tree.SameShape.of_modify v f shape
  · rw [Tree.prior, edge, Tree.prior]
  · have skipped := ends.1
    rw [tree, Tree.nodes_modify] at skipped
    split at skipped
    · next here => rw [here] at skipped ⊢; exact marked skipped
    · exact skipped
  · have visits := ends.2
    rwa [Tree.visits, edge] at visits
  · rw [edge]
    exact untouched.edge
  · rw [tree, Tree.nodes_modify]
    split
    · next here => subst here; exact unsent untouched
    · exact untouched.unsent

omit [Field K] [LinearOrder K] in
/-- A backup touches its leaf and what is expanded above it, none of which is
untouched. -/
theorem untouched_backUp (wf : Structured s) {u x : ℕ} (touched : ¬ Untouched s u)
    (untouched : Untouched s x) : ¬ AtOrBelow s.tree.lock u x := by
  intro line
  rcases atOrBelow_iff.mp line with rfl | below
  · exact touched untouched
  · have ready := (wf.wf.ready_iff x).mpr (Tree.nexts_isSome_of_below wf.wf below)
    cases ((wf.nodes x).answered ready).symm.trans untouched.unsent

/-- A backup from a touched node touches only touched nodes. -/
theorem InOrder.backUp (wf : Structured s) (hs : InOrder s) {u : ℕ} (touched : ¬ Untouched s u)
    (vl : ℤ) (z : K) (invalidVisit : ℕ) :
    InOrder { s with tree := s.tree.mctsBackUpdate u vl z invalidVisit } := by
  classical
  have desc := wf.wf.descending_lock
  have nodes := Tree.nodes_mctsBackUpdate (z := z) desc u vl invalidVisit
  refine hs.of_untouched (Tree.SameShape.of_mctsBackUpdate desc _ _ _) rfl (fun x => ?_)
    (fun c ends => ⟨?_, ?_⟩) fun x untouched => ?_
  · simp only [Tree.prior, nodes, Tree.backedUp]
    split
    · rw [Option.map_map]
      rfl
    · rfl
  · have skipped := ends.1
    rwa [nodes] at skipped
  · have visits := ends.2
    rw [Tree.Tallied.visits_backedUp wf.wf (nodes c)] at visits
    omega
  · have above := untouched_backUp wf touched untouched
    have same : (s.tree.backedUp u ((invalidVisit + 1) * vl) z x).edge = (s.tree.nodes x).edge :=
      if_neg fun h => above h.1
    refine ⟨?_, ?_, untouched.unselected⟩
    · rw [nodes, same]
      exact untouched.edge
    · rw [nodes]
      exact untouched.unsent

/-- A selection touches only what the scans have looked at. -/
theorem inOrder_select (wf : Structured s) (hs : InOrder s) {root leaf : ℕ}
    {max max' remain : ℤ} {t : Tree K} {board : GoBoard B} (hroot : s.root = some root)
    (found : s.tree.mctsSelectPathRoot P cfg root max s.rootBoard remain =
      .leaf t leaf board max') :
    InOrder { s with tree := t, selections := s.selections ++ [⟨leaf, board, max⟩] } := by
  obtain ⟨path, hpath, rfl, looked⟩ := Tree.path_of_mctsSelectPathRoot wf.wf
    (fun v => (wf.nodes v).undecided) found
  have nodes (v : ℕ) := Tree.nodes_addPathVl s.tree path cfg.virtualLoss v
  refine hs.of_sameShape (Tree.SameShape.of_addPathVl _ _ _) rfl (fun x => ?_) (fun c h => ?_) ?_
  · simp only [Tree.prior, nodes, Option.map_map]
    rfl
  · simp only [Tree.Ends, Tree.visits, nodes, Option.map_map] at h
    exact h
  intro r hr v below cs hcs
  obtain rfl := Option.some.inj (hroot.symm.trans hr)
  have desc := wf.wf.descending
  have edge (i : ℕ) (hi : i ∈ cs) : ∃ e, (s.tree.nodes i).edge = some e :=
    wf.wf.exists_edge (wf.wf.father_of_mem hcs hi)
  -- a touched child was looked at in the scan of its father
  have seen {x : ℕ} (hx : x ∈ cs) (touched : x ∈ path ∨ x = leaf) : ∃ thr : ℤ,
      x ∈ upTo s.tree.unvisited (s.tree.scored (fun e => decide ((e.n : ℤ) < thr)) cs) := by
    have father := wf.wf.father_of_mem hcs hx
    have deep : x ≠ root := by
      rintro rfl
      exact not_below_self desc ((below_of_father father).trans_atOrBelow below)
    have mem : x ∈ path := touched.elim id fun h => by
      subst h
      exact hpath.leaf_mem.resolve_left deep
    obtain ⟨w, ds, thr, hds, mem⟩ := looked x mem
    have child : x ∈ ds := (List.mem_filter.mp (List.mem_filter.mp (mem_of_mem_upTo mem)).1).1
    obtain rfl := Option.some.inj (father.symm.trans (wf.wf.father_of_mem hds child))
    obtain rfl := Option.some.inj (hcs.symm.trans hds)
    exact ⟨thr, mem⟩
  refine List.pairwise_iff_forall_sublist.mpr fun {c x} sub ends untouched => ?_
  have hx : x ∈ cs := sub.subset (by simp)
  have apart : ¬ (x ∈ path ∨ x = leaf) := fun touched => by
    obtain ⟨thr, mem⟩ := seen hx touched
    have scored := Tree.pairwise_scored (wf.wf.nodup v cs hcs) edge thr
    have visited := List.pairwise_iff_forall_sublist.mp scored sub mem ends.1 ends.2
    obtain ⟨e, he, zero, -⟩ := untouched.edge
    exact visited (by simp [Tree.visits, he, zero])
  obtain ⟨notMem, ne⟩ := not_or.mp apart
  have same : (s.tree.addPathVl path cfg.virtualLoss).nodes x = s.tree.nodes x := by
    rw [nodes, List.count_eq_zero_of_not_mem notMem]
    cases hedge : (s.tree.nodes x).edge <;> simp [← hedge]
  refine ⟨by rw [same]; exact untouched.edge, by rw [same]; exact untouched.unsent, ?_⟩
  intro sel hsel
  rcases List.mem_append.mp hsel with hsel | hsel
  · exact untouched.unselected sel hsel
  · rw [List.mem_singleton.mp hsel]
    exact Ne.symm ne

omit [LinearOrder K] in
/-- The child made of a policy item is untouched, and has the item's prior. -/
theorem untouched_child {x leaf : ℕ} {nd : Node K} {trompTaylor : ℤ} {item : PolicyItem K}
    (node : s.tree.nodes x = childNode leaf nd trompTaylor item)
    (unselected : ∀ sel ∈ s.selections, sel.leaf ≠ x) :
    Untouched s x ∧ s.tree.prior x = item.prob := by
  refine ⟨⟨⟨Edge.new item.pos item.prob, ?_, rfl, rfl⟩, ?_, unselected⟩, ?_⟩
  · rw [node]
    rfl
  · rw [node]
    rfl
  · rw [Tree.prior, node]
    rfl

/-- What an answered player keeps of a node from before: its prior, its marks
and its being touched. -/
theorem standing_of_reply (wf : Structured s) {i : ℕ} {rq : Request} {value : K}
    {policy : List (PolicyItem K)} (hrq : s.requests[i]? = some rq)
    (hs' : s' = { s with requests := s.requests.eraseIdx i }.evaluateCallback P cfg rq value
      policy) {x : ℕ} (hx : x < s.tree.next) :
    s'.tree.prior x = s.tree.prior x ∧ (s'.tree.Ends x → s.tree.Ends x) ∧
      (Untouched s x → Untouched s' x) := by
  classical
  obtain ⟨hleaf, hnexts⟩ := wf.unexpanded hrq
  have sent := (wf.asked rq (List.mem_of_getElem? hrq)).2.1
  have touched : ¬ Untouched s rq.leaf := fun h => by cases sent.symm.trans h.unsent
  subst hs'
  rw [Player.evaluateCallback]
  refine ⟨?_, fun ends => ⟨?_, ?_⟩, fun untouched => ⟨?_, ?_, untouched.unselected⟩⟩
  · rw [Tree.prior, Tree.nodes_answer_of_lt wf.wf hleaf hnexts hx]
    dsimp only
    split
    · rw [Option.map_map]
      rfl
    · rfl
  · have skipped := ends.1
    rwa [Tree.nodes_answer_of_lt wf.wf hleaf hnexts hx] at skipped
  · have visits := ends.2
    rw [Tree.visits, Tree.nodes_answer_of_lt wf.wf hleaf hnexts hx] at visits
    dsimp only at visits
    split at visits
    · next line =>
        obtain ⟨f, hf⟩ := Option.isSome_iff_exists.mp line.2
        obtain ⟨e, he⟩ := wf.wf.exists_edge (Tree.father_of_lock hf)
        simp [he, Edge.backUp] at visits
    · exact visits
  · rw [Tree.nodes_answer_of_lt wf.wf hleaf hnexts hx]
    dsimp only
    rw [if_neg fun line => untouched_backUp wf touched untouched line.1]
    exact untouched.edge
  · rw [Tree.nodes_answer_of_lt wf.wf hleaf hnexts hx]
    exact untouched.unsent

/-- The children of a reply stand in order, and other children are kept. -/
theorem inOrder_reply (wf : Structured s) (hs : InOrder s) {i : ℕ} {rq : Request} {value : K}
    {policy : List (PolicyItem K)} (hrq : s.requests[i]? = some rq)
    (hs' : s' = { s with requests := s.requests.eraseIdx i }.evaluateCallback P cfg rq value
      policy) : InOrder s' := by
  obtain ⟨hleaf, hnexts⟩ := wf.unexpanded hrq
  intro root hroot v below cs hcs
  rw [hs', Player.evaluateCallback] at hroot below hcs
  rcases Tree.expand_cases s.tree (keptItems cfg policy) v with hlt | ⟨k, item, hk, rfl⟩ | hge
  · rw [Tree.nodes_answer_of_lt wf.wf hleaf hnexts hlt] at hcs
    by_cases hv : v = rq.leaf
    · -- the new children, which no selection has reached
      obtain rfl : List.range' s.tree.next (keptItems cfg policy).length = cs := by
        simpa [hv] using hcs
      have child {k : ℕ} (hk : k < (keptItems cfg policy).length) :
          Untouched s' (s.tree.next + k) ∧
            s'.tree.prior (s.tree.next + k) = (keptItems cfg policy)[k].prob := by
        subst hs'
        refine untouched_child
          (Tree.nodes_answer_child wf.wf hleaf hnexts (List.getElem?_eq_getElem hk))
          fun sel hsel => ?_
        obtain ⟨r, hr, above⟩ := wf.selected sel hsel
        have := wf.lt_next hr above
        omega
      have sorted := List.pairwise_iff_getElem.mp (pairwise_keptItems cfg policy)
      rw [List.pairwise_iff_getElem]
      intro j k hj hk hjk
      rw [List.length_range'] at hj hk
      simp only [List.getElem_range', one_mul]
      refine ⟨?_, fun _ => (child hk).1⟩
      rw [(child hj).2, (child hk).2]
      exact sorted j k hj hk hjk
    · have hcs : (s.tree.nodes v).nexts = some cs := by simpa [hv] using hcs
      have below := (Tree.atOrBelow_answer wf.wf hleaf hnexts hlt).mp below
      refine (hs root hroot v below cs hcs).imp_of_mem fun {c x} hc hx behind => ?_
      have old {x : ℕ} (hx : x ∈ cs) := standing_of_reply wf hrq hs'
        (wf.wf.lt_next_of_father (wf.wf.father_of_mem hcs hx))
      obtain ⟨prior, ends, -⟩ := old hc
      obtain ⟨prior', -, untouched⟩ := old hx
      refine ⟨?_, fun h => untouched (behind.untouched (ends h))⟩
      rw [prior, prior']
      exact behind.prior
  · rw [Tree.nodes_answer_child wf.wf hleaf hnexts hk] at hcs
    cases hcs
  · rw [Tree.nodes_answer_fresh wf.wf hleaf hnexts hge, (wf.wf.fresh v (by omega)).2] at hcs
    cases hcs

omit [Field K] [LinearOrder K] in
/-- What a decision finds at its leaf: it is touched, and without the flag it is
not marked. -/
theorem Judged.decided (hs : Judged P s) {i : ℕ} {sel : Selection B}
    (hsel : s.selections[i]? = some sel) : ¬ Untouched s sel.leaf ∧
      (sel.board.boardRepetition = false → (s.tree.nodes sel.leaf).skipped = false) := by
  refine ⟨fun h => h.unselected sel (List.mem_of_getElem? hsel) rfl, fun flag => ?_⟩
  by_contra skipped
  have marked : (s.tree.nodes sel.leaf).isRepetition = true := by
    simp only [Node.skipped, Bool.not_eq_false, Bool.and_eq_true] at skipped
    exact skipped.2
  have unflagged := flagged_selected hs.inStep hsel
  rw [flag] at unflagged
  cases unflagged.unique (hs.flags.marked _ marked)

/-- **Each step keeps the order.**  A descent enters a child only where no child
in front of it ends the scan; a reply makes the children in the order of their
priors; and no other step comes to an untouched child. -/
theorem inOrder_step {a : Action K} (judged : Judged P s) (hs : InOrder s)
    (h : s.step P cfg a = some s') : InOrder s' := by
  have wf := judged.wf
  cases moves_of_step h with
  | select root max remain t leaf board max' hroot found => exact inOrder_select wf hs hroot found
  | repetition i sel hsel flag =>
      exact hs.of_modify sel.leaf (fun nd => nd.setRepetition true) rfl rfl (fun _ => rfl)
        (fun _ => rfl) (fun h => by cases h) (fun h => absurd h (judged.decided hsel).1)
        List.eraseIdx_subset
  | finished i sel hsel flag result =>
      obtain ⟨touched, unmarked⟩ := judged.decided hsel
      have marked : InOrder { s with
          tree := s.tree.modify sel.leaf fun nd => nd.setRepetition false } :=
        hs.of_modify sel.leaf (fun nd => nd.setRepetition false) rfl rfl (fun _ => rfl)
          (fun _ => rfl) (fun _ => unmarked flag) (fun h => absurd h touched)
          (List.Subset.refl _)
      have stillTouched : ¬ Untouched { s with
          tree := s.tree.modify sel.leaf fun nd => nd.setRepetition false } sel.leaf :=
        fun h => h.unselected sel (List.mem_of_getElem? hsel) rfl
      exact (marked.backUp (wf.mark sel.leaf false) stillTouched cfg.virtualLoss _ 0).of_tree_eq
        rfl rfl List.eraseIdx_subset
  | revisit i sel hsel flag result terminate sent =>
      obtain ⟨touched, unmarked⟩ := judged.decided hsel
      exact hs.of_modify sel.leaf (fun nd => (nd.setRepetition false).visitAgain) rfl rfl
        (fun _ => rfl) (fun _ => rfl) (fun _ => unmarked flag) (fun h => absurd h touched)
        List.eraseIdx_subset
  | request i sel hsel flag result terminate sent rq hrq =>
      obtain ⟨touched, unmarked⟩ := judged.decided hsel
      exact hs.of_modify sel.leaf (fun nd => (nd.setRepetition false).send) rfl rfl
        (fun _ => rfl) (fun _ => rfl) (fun _ => unmarked flag) (fun h => absurd h touched)
        List.eraseIdx_subset
  | reply i rq value policy hrq => exact inOrder_reply wf hs hrq rfl
  | freshRoot pos root board action opAction hroot idle applied =>
      rintro _ ⟨⟩ v below cs hcs
      rw [show (({ s with opAction := opAction } : Player B K).newRoot board).tree.father =
        s.tree.father from Tree.father_alloc wf.wf rfl] at below
      rcases atOrBelow_iff.mp below with rfl | below
      · rw [Player.newRoot, Tree.nodes_alloc_next] at hcs
        cases hcs
      · exact absurd below (wf.wf.not_below_next v)
  | childRoot a root child nexts board action opAction command hroot idle hnexts mem haction
      applied =>
      -- what is at or below the child was below the root
      rintro _ ⟨⟩ v below cs hcs
      have father := wf.wf.father_of_mem hnexts mem
      have before := hs root hroot v (below.trans (below_of_father father).atOrBelow)
        cs hcs
      exact before.imp fun behind => ⟨behind.prior, fun ends =>
        ⟨(behind.untouched ends).edge, (behind.untouched ends).unsent,
          (behind.untouched ends).unselected⟩⟩
  | resigned idle =>
      rintro _ ⟨⟩
  | recycle v dropped =>
      exact hs.of_modify v Node.expireFather rfl rfl (fun _ => rfl) (fun _ => rfl) id
        (fun h => h.unsent) (List.Subset.refl _)
  | stopped => exact hs.of_tree_eq rfl rfl (List.Subset.refl _)
  | ignored => exact hs

omit [LinearOrder K] in
/-- A new player has no children. -/
theorem inOrder_start [LinearOrder K] (board : GoBoard B) :
    InOrder (Player.start board : Player B K) := by
  intro _ _ v _ cs hcs
  rw [Player.nodes_start] at hcs
  cases hcs

/-- **Behind a child that ends the scan nothing was touched.** -/
theorem inOrder_run {board : GoBoard B} {as : List (Action K)}
    (run : (playerMachine P cfg).exec (Player.start board) as = some s) :
    Judged P s ∧ InOrder s :=
  (playerMachine P cfg).invariant_of_step (I := fun s => Judged P s ∧ InOrder s)
    (fun hs h => ⟨judged_step hs.1 h, inOrder_step hs.1 hs.2 h⟩)
    ⟨judged_start board, inOrder_start board⟩ run

/-- **Children open in the order of their priors.**  At every node of the tree,
the root included: if a child is not marked as a repetition, and a later one has
a visit or virtual loss, then the earlier one has a visit. -/
theorem children_open_in_order {board : GoBoard B} {as : List (Action K)}
    (run : (playerMachine P cfg).exec (Player.start board) as = some s) {root v : ℕ}
    (hroot : s.root = some root) (above : AtOrBelow s.tree.father v root) {cs : List ℕ}
    (hcs : (s.tree.nodes v).nexts = some cs) {i j : ℕ} (hij : i < j) {c x : ℕ}
    (hc : cs[i]? = some c) (hx : cs[j]? = some x) (unmarked : (s.tree.nodes c).skipped = false)
    {e : Edge K} (he : (s.tree.nodes x).edge = some e) (opened : 0 < e.n ∨ 0 < e.vl) :
    ∃ e', (s.tree.nodes c).edge = some e' ∧ 0 < e'.n := by
  obtain ⟨judged, inOrder⟩ := inOrder_run run
  obtain ⟨hi, rfl⟩ := List.getElem?_eq_some_iff.mp hc
  obtain ⟨hj, rfl⟩ := List.getElem?_eq_some_iff.mp hx
  have behind := List.pairwise_iff_getElem.mp (inOrder root hroot v above cs hcs) i j hi hj hij
  obtain ⟨e', he'⟩ := judged.wf.wf.exists_edge
    (judged.wf.wf.father_of_mem hcs (List.getElem_mem hi))
  refine ⟨e', he', Nat.pos_of_ne_zero fun zero => ?_⟩
  -- otherwise the earlier child ends the scan, and the later one is untouched
  have ends : s.tree.Ends cs[i] := ⟨unmarked, by simp [Tree.visits, he', zero]⟩
  obtain ⟨e₀, he₀, visits, vl⟩ := (behind.untouched ends).edge
  obtain rfl := Option.some.inj (he.symm.trans he₀)
  omega

end Steps

/-- The first child of the root is answered, and a descent goes to the
second. -/
def secondChildRun : List (Action ℚ) :=
  [.select 1 9, .decide 0, .reply 0 0 [⟨72, 3 / 5⟩, ⟨-1, 2 / 5⟩], .select 1 8, .decide 0,
    .reply 0 (1 / 2) [⟨60, 1 / 2⟩, ⟨-1, 1 / 2⟩], .select 1 7]

/-- A second descent enters the second child.  By then the first child was
answered and has its visit, so that it no longer ends the scan. -/
theorem children_open_in_order_second : ∃ (s : Player Stones ℚ) (e : Edge ℚ),
    (playerMachine pachi finerSettings).exec newGame secondChildRun = some s ∧
      (s.tree.nodes 2).edge = some e ∧ e.vl = 3 ∧
      ∃ e', (s.tree.nodes 1).edge = some e' ∧ 0 < e'.n := by
  have seen : ((playerMachine pachi finerSettings).exec newGame secondChildRun).map (fun s =>
      (s.root, (s.tree.nodes 0).nexts, (s.tree.nodes 1).skipped, (s.tree.nodes 2).edge)) =
        some (some 0, some [1, 2], false, some ⟨-1, 2 / 5, 0, 0, 3⟩) := by decide +kernel
  obtain ⟨s, run, facts⟩ := Option.map_eq_some_iff.mp seen
  simp only [Prod.mk.injEq] at facts
  obtain ⟨hroot, hcs, unmarked, he⟩ := facts
  exact ⟨s, _, run, he, rfl, children_open_in_order run hroot .refl hcs zero_lt_one rfl rfl
    unmarked he (.inr (by decide))⟩

end EstarGo
