import EstarGo.Player.Statistics
import Mathlib.Algebra.Group.Prod
import Mathlib.Tactic.Abel

/-!
# What the edges have counted

`n` and `w` of an edge are kept by additions along the way up from a leaf, at
different times: at once where the leaf has a result, with the reply where it
was requested.  Between them the root moves, pointers expire and other replies
arrive.  Below the root nothing of this shows: the edge of a node has counted
each iteration that ended at or below it and is backed up, once, with the value
it ended with.  So `w / n`, which the scores and the choice of a move read, is
the mean of those values.

## Main definitions

* `Node.settled`, `Node.backed` — whether a leaf is backed up, and with which
  value.
* `Tree.share` — what an iteration that ended at a node has added to an edge.
* `Accounted` — each edge below the root has the shares of the counted
  iterations.
* `Player.passed` — the iterations an edge has counted.

## Main results

* `accounted_step`: a step adds to the edges what it adds to these iterations.
* `mean_of_run`: `n` and `w` in every reachable player.

## Design notes

**A log and its sum.**  The iterations that were counted stand in a log of
leaves.  A share is a function of the tree, so a reply changes the shares of all
entries with its leaf at once, and there is one such entry: a leaf without a
result is counted when its request is sent, once.

**Exact sums.**  `w` is a `float` in the source, whose additions round.  Here it
is an element of any ordered field, and the sum is the sum.
-/

namespace EstarGo

open Verif

variable {B K : Type}

/-- A sum over a log changes with the weight of one entry, as often as that is
there. -/
theorem sum_map_eq_add_count {ι M : Type*} [DecidableEq ι] [AddCommMonoid M] {log : List ι}
    {f g : ι → M} {a : ι} {d : M} (here : g a = f a + d)
    (other : ∀ u ∈ log, u ≠ a → g u = f u) :
    (log.map g).sum = (log.map f).sum + log.count a • d := by
  induction log with
  | nil => simp
  | cons u log ih =>
      have rest := ih fun v hv => other v (List.mem_cons_of_mem u hv)
      rw [List.map_cons, List.map_cons, List.sum_cons, List.sum_cons, rest]
      by_cases hu : u = a
      · subst hu
        rw [here, List.count_cons_self, add_nsmul, one_nsmul]
        abel
      · rw [other u List.mem_cons_self hu, List.count_cons_of_ne hu]
        abel

/-! ## Leaves

A leaf is settled once and for all: its result and its value are not changed any
more. -/

/-- Whether the iterations that ended at a node are backed up: at once where it
has a result, with the reply where it was requested. -/
def Node.settled (nd : Node K) : Bool := nd.result ≠ 0 || nd.evalReady

section

variable [Field K]

/-- The value they are backed up with. -/
def Node.backed (nd : Node K) : K := if nd.result ≠ 0 then (nd.result : K) else nd.valuePred

namespace Tree

/-- `n` and `w` of the edge of a node, zero where there is none. -/
def tally (t : Tree K) (v : ℕ) : ℕ × K := ((t.nodes v).edge.map fun e => (e.n, e.w)).getD 0

/-- What an iteration that ended at `u` has added to the edge of `v`. -/
def share (t : Tree K) (v u : ℕ) : ℕ × K :=
  if reaches t.father u u v && (t.nodes u).settled then (1, (t.nodes u).backed) else 0

variable {t t' : Tree K}

/-- Off its line, a leaf adds nothing. -/
theorem share_eq_zero {u v : ℕ} (desc : Descending t.father) (h : ¬ AtOrBelow t.father u v) :
    t.share v u = 0 := by
  rw [share, Bool.eq_false_of_not_eq_true (mt (reaches_iff desc le_rfl).mp h)]
  rfl

theorem share_of_unsettled {u v : ℕ} (h : (t.nodes u).settled = false) : t.share v u = 0 := by
  simp [share, h]

/-- A share is read off the line above the leaf and off the leaf. -/
theorem share_congr {u v : ℕ} (desc : Descending t.father) (desc' : Descending t'.father)
    (line : AtOrBelow t'.father u v ↔ AtOrBelow t.father u v)
    (settled : (t'.nodes u).settled = (t.nodes u).settled)
    (backed : (t'.nodes u).backed = (t.nodes u).backed) : t'.share v u = t.share v u := by
  have reach : reaches t'.father u u v = reaches t.father u u v := by
    rw [Bool.eq_iff_iff, reaches_iff desc' le_rfl, reaches_iff desc le_rfl, line]
  rw [share, reach, settled, backed, share]

open Classical in
/-- A settled leaf adds one visit and its value to each edge on its line. -/
theorem share_of_settled {u v : ℕ} (desc : Descending t.father)
    (h : (t.nodes u).settled = true) :
    t.share v u = if AtOrBelow t.father u v then (1, (t.nodes u).backed) else 0 := by
  simp only [share, h, Bool.and_true, reaches_iff desc le_rfl]

open Classical in
/-- A backup adds one visit and the value to each edge on its line. -/
theorem tally_of_edge (wf : t.Wf) {u v : ℕ} {tvl : ℤ} {z : K}
    (edge : (t'.nodes v).edge = if AtOrBelow t.lock u v ∧ (t.lock v).isSome
      then (t.nodes v).edge.map fun e => e.backUp tvl z else (t.nodes v).edge) :
    t'.tally v = t.tally v + if AtOrBelow t.lock u v ∧ (t.lock v).isSome then (1, z) else 0 := by
  rw [tally, edge]
  by_cases line : AtOrBelow t.lock u v ∧ (t.lock v).isSome
  · obtain ⟨f, hf⟩ := Option.isSome_iff_exists.mp line.2
    obtain ⟨e, he⟩ := wf.exists_edge (father_of_lock hf)
    rw [if_pos line, if_pos line, tally, he]
    rfl
  · rw [if_neg line, if_neg line, add_zero, tally]

end Tree

/-- The iterations whose value the edge of a node has counted: those that ended
at or below the node and are backed up.  An iteration is named by its leaf,
which may occur more than once where the leaf has a result. -/
def Player.passed (s : Player B K) (v : ℕ) : List ℕ :=
  s.counted.filter fun u => reaches s.tree.father u u v && (s.tree.nodes u).settled

/-- Their shares are their number and the sum of their values. -/
theorem Player.sum_share (s : Player B K) (v : ℕ) :
    (s.counted.map (s.tree.share v)).sum =
      ((s.passed v).length, ((s.passed v).map fun u => (s.tree.nodes u).backed).sum) := by
  unfold Player.passed
  induction s.counted with
  | nil => rfl
  | cons u counted ih =>
      rw [List.map_cons, List.sum_cons, ih, List.filter_cons, Tree.share]
      split
      · rw [List.length_cons, List.map_cons, List.sum_cons, Nat.add_comm]
        rfl
      · rw [zero_add]

end

/-! ## The accounts

What is read of a node, so that the steps that change nothing of it need no
word. -/

/-- What the accounts read of a node.  A step that keeps all of it, and the list
of counted iterations, keeps the accounts without further argument. -/
def Node.entry (nd : Node K) : ℤ × Bool × Bool × K × Option (ℕ × K) :=
  (nd.result, nd.rqSent, nd.evalReady, nd.valuePred, nd.edge.map fun e => (e.n, e.w))

section

variable [Field K]

omit [Field K] in
/-- Whether a leaf is backed up can be read off its entry. -/
theorem Node.settled_of_entry {nd nd' : Node K} (h : nd'.entry = nd.entry) :
    nd'.settled = nd.settled := by
  simp only [Node.entry, Prod.mk.injEq] at h
  rw [Node.settled, h.1, h.2.2.1, Node.settled]

theorem Node.backed_of_entry {nd nd' : Node K} (h : nd'.entry = nd.entry) :
    nd'.backed = nd.backed := by
  simp only [Node.entry, Prod.mk.injEq] at h
  rw [Node.backed, h.1, h.2.2.2.1, Node.backed]

theorem Tree.tally_of_entry {t t' : Tree K} {v : ℕ}
    (h : (t'.nodes v).entry = (t.nodes v).entry) : t'.tally v = t.tally v := by
  simp only [Node.entry, Prod.mk.injEq] at h
  rw [Tree.tally, h.2.2.2.2, Tree.tally]

/-- An iteration is counted for a node that exists, and but on a result once;
each edge below the root has the shares of the counted iterations. -/
structure Accounted (s : Player B K) : Prop where
  old : ∀ u ∈ s.counted, u < s.tree.next
  once : ∀ u, (s.tree.nodes u).result = 0 →
    s.counted.count u = if (s.tree.nodes u).rqSent then 1 else 0
  tally : ∀ root, s.root = some root → ∀ v, Below s.tree.father v root →
    s.tree.tally v = (s.counted.map (s.tree.share v)).sum

namespace Accounted

variable {s s' : Player B K}

/-- A step that the accounts do not see. -/
theorem of_entry (hs : Accounted s) (wf : s.tree.Wf) (shape : Tree.SameShape s.tree s'.tree)
    (entry : ∀ v, (s'.tree.nodes v).entry = (s.tree.nodes v).entry) (root : s'.root = s.root)
    (counted : s'.counted = s.counted) : Accounted s' := by
  have desc := wf.descending
  have desc' := (wf.of_sameShape shape).descending
  have share (v u : ℕ) : s'.tree.share v u = s.tree.share v u := by
    refine Tree.share_congr desc desc' ?_ (Node.settled_of_entry (entry u))
      (Node.backed_of_entry (entry u))
    rw [shape.father]
  constructor
  case old =>
    rw [counted, shape.next]
    exact hs.old
  case once =>
    intro u result
    have same := entry u
    simp only [Node.entry, Prod.mk.injEq] at same
    rw [same.1] at result
    rw [counted, same.2.1]
    exact hs.once u result
  case tally =>
    intro root' hroot v hv
    rw [root] at hroot
    rw [shape.father] at hv
    rw [Tree.tally_of_entry (entry v), counted, hs.tally root' hroot v hv]
    exact congrArg List.sum (List.map_congr_left fun u _ => (share v u).symm)

/-- A change of one node that the accounts do not see. -/
theorem of_modify (hs : Accounted s) (wf : s.tree.Wf) (v : ℕ) (f : Node K → Node K)
    (tree : s'.tree = s.tree.modify v f) (shape : ∀ nd, (f nd).shape = nd.shape)
    (entry : ∀ nd, (f nd).entry = nd.entry) (root : s'.root = s.root)
    (counted : s'.counted = s.counted) : Accounted s' := by
  refine hs.of_entry wf ?_ (fun u => ?_) root counted
  · rw [tree]
    exact Tree.SameShape.of_modify v f shape
  · rw [tree]
    exact Tree.modify_field Node.entry f entry v u

/-- The backup of an iteration on a leaf with a result. -/
theorem backUp (hs : Accounted s) (wf : Structured s) {u : ℕ} (hu : u < s.tree.next)
    (result : (s.tree.nodes u).result ≠ 0) (vl : ℤ) (invalidVisit : ℕ)
    (tree : s'.tree = s.tree.mctsBackUpdate u vl ((s.tree.nodes u).result : K) invalidVisit)
    (root : s'.root = s.root) (counted : s'.counted = s.counted ++ [u]) : Accounted s' := by
  classical
  have desc := wf.wf.descending_lock
  have nodes (v : ℕ) : s'.tree.nodes v = s.tree.backedUp u ((invalidVisit + 1) * vl)
      ((s.tree.nodes u).result : K) v := by
    rw [tree]
    exact Tree.nodes_mctsBackUpdate desc u vl invalidVisit v
  have shape : Tree.SameShape s.tree s'.tree := by
    rw [tree]
    exact Tree.SameShape.of_mctsBackUpdate desc u vl invalidVisit
  have share (v w : ℕ) : s'.tree.share v w = s.tree.share v w := by
    refine Tree.share_congr wf.wf.descending (wf.wf.of_sameShape shape).descending ?_ ?_ ?_
    · rw [shape.father]
    · rw [nodes]
      rfl
    · rw [nodes]
      rfl
  constructor
  case old =>
    intro w hw
    rw [counted, List.mem_append, List.mem_singleton] at hw
    rw [shape.next]
    rcases hw with hw | rfl
    · exact hs.old w hw
    · exact hu
  case once =>
    intro w hw
    rw [nodes] at hw
    have ne : u ≠ w := by
      rintro rfl
      exact result hw
    have sent : (s'.tree.nodes w).rqSent = (s.tree.nodes w).rqSent := by
      rw [nodes]
      rfl
    rw [sent, counted, List.count_append, List.count_singleton, hs.once w hw]
    simp [ne]
  case tally =>
    intro root' hroot v hv
    rw [root] at hroot
    rw [shape.father] at hv
    -- the pointers between a node and one below the root are all there
    have locked : (s.tree.lock v).isSome := by
      rw [wf.lock_eq hroot hv]
      obtain ⟨f, hf, -⟩ := hv
      rw [hf]
      rfl
    have settled : (s.tree.nodes u).settled = true := by simp [Node.settled, result]
    have before := hs.tally root' hroot v hv
    have added := Tree.tally_of_edge wf.wf (congrArg Node.edge (nodes v))
    simp only [wf.atOrBelow_lock_iff hroot hv, locked, and_true] at added
    have new := Tree.share_of_settled (v := v) wf.wf.descending settled
    rw [Node.backed, if_pos result] at new
    rw [added, before, counted, List.map_append, List.sum_append, List.map_singleton,
      List.sum_singleton, share, new]
    exact congrArg (· + _) (congrArg List.sum (List.map_congr_left fun w _ => (share v w).symm))

/-- A request is counted, and no edge counts it before its reply. -/
theorem request (hs : Accounted s) (wf : Structured s) {u : ℕ} (f : Node K → Node K)
    (hu : u < s.tree.next) (result : (s.tree.nodes u).result = 0)
    (unsent : (s.tree.nodes u).rqSent = false) (tree : s'.tree = s.tree.modify u f)
    (shape : ∀ nd, (f nd).shape = nd.shape)
    (entry : ∀ nd, (f nd).entry = (nd.send).entry) (root : s'.root = s.root)
    (counted : s'.counted = s.counted ++ [u]) : Accounted s' := by
  have sameShape : Tree.SameShape s.tree s'.tree := by
    rw [tree]
    exact Tree.SameShape.of_modify u f shape
  have other {w : ℕ} (hw : w ≠ u) : s'.tree.nodes w = s.tree.nodes w := by
    rw [tree, Tree.nodes_modify, if_neg hw]
  have here : (s'.tree.nodes u).entry = ((s.tree.nodes u).send).entry := by
    rw [tree, Tree.nodes_modify, if_pos rfl, entry]
  have unready : (s.tree.nodes u).evalReady = false := by
    simpa [unsent] using mt (wf.nodes u).answered
  have settled (w : ℕ) : (s'.tree.nodes w).settled = (s.tree.nodes w).settled := by
    by_cases hw : w = u
    · rw [hw, Node.settled_of_entry here]
      rfl
    · rw [other hw]
  have backed (w : ℕ) : (s'.tree.nodes w).backed = (s.tree.nodes w).backed := by
    by_cases hw : w = u
    · rw [hw, Node.backed_of_entry here]
      rfl
    · rw [other hw]
  have tally (v : ℕ) : s'.tree.tally v = s.tree.tally v := by
    by_cases hv : v = u
    · have same := congrArg (fun e : ℤ × Bool × Bool × K × Option (ℕ × K) => e.2.2.2.2) here
      rw [hv]
      exact congrArg (Option.getD · 0) same
    · rw [Tree.tally, other hv, Tree.tally]
  have share (v w : ℕ) : s'.tree.share v w = s.tree.share v w := by
    refine Tree.share_congr wf.wf.descending (wf.wf.of_sameShape sameShape).descending ?_
      (settled w) (backed w)
    rw [sameShape.father]
  constructor
  case old =>
    intro w hw
    rw [counted, List.mem_append, List.mem_singleton] at hw
    rw [sameShape.next]
    rcases hw with hw | rfl
    · exact hs.old w hw
    · exact hu
  case once =>
    intro w hw
    rw [counted, List.count_append, List.count_singleton]
    by_cases same : w = u
    · have sent : (s'.tree.nodes u).rqSent = true :=
        congrArg (fun e : ℤ × Bool × Bool × K × Option (ℕ × K) => e.2.1) here
      rw [same, hs.once u result, unsent, sent]
      simp
    · rw [other same] at hw ⊢
      simp [hs.once w hw, Ne.symm same]
  case tally =>
    intro root' hroot v hv
    rw [root] at hroot
    rw [sameShape.father] at hv
    have waiting : (s'.tree.nodes u).settled = false := by
      rw [settled, Node.settled, result, unready]
      rfl
    rw [tally, hs.tally root' hroot v hv, counted, List.map_append, List.sum_append,
      List.map_singleton, List.sum_singleton, Tree.share_of_unsettled waiting, add_zero]
    exact congrArg List.sum (List.map_congr_left fun w _ => (share v w).symm)

/-- A fresh root has nothing below it, so there is nothing to account for. -/
theorem newRoot (hs : Accounted s) (wf : Structured s) (board : GoBoard B) :
    Accounted (s.newRoot board) := by
  have father : (s.newRoot board).tree.father = s.tree.father := Tree.father_alloc wf.wf rfl
  refine ⟨fun u hu => Nat.lt_succ_of_lt (hs.old u hu), fun u result => ?_, ?_⟩
  · by_cases hu : u = s.tree.next
    · have new : ((s.newRoot board).tree.nodes u).rqSent = false := by
        subst hu
        simp [Player.newRoot, Node.new]
      have uncounted : u ∉ s.counted := fun mem => (hs.old u mem).ne hu
      rw [new]
      exact List.count_eq_zero_of_not_mem uncounted
    · have same : (s.newRoot board).tree.nodes u = s.tree.nodes u := Tree.nodes_alloc_of_ne hu
      rw [same] at result ⊢
      exact hs.once u result
  · rintro _ ⟨⟩ v hv
    rw [father] at hv
    exact absurd hv (wf.wf.not_below_next v)

end Accounted

end

section Steps

variable [Field K] [LinearOrder K] {P : Pachi B} {cfg : Settings K} {s s' : Player B K}

/-- A reply settles the one iteration that its leaf was counted for. -/
theorem Accounted.reply (hs : Accounted s) (wf : Structured s) {i : ℕ} {rq : Request} {value : K}
    {policy : List (PolicyItem K)} (hrq : s.requests[i]? = some rq) :
    Accounted ({ s with requests := s.requests.eraseIdx i }.evaluateCallback P cfg rq value
      policy) := by
  classical
  obtain ⟨hleaf, hnexts⟩ := wf.unexpanded hrq
  obtain ⟨-, sent, unready⟩ := wf.asked rq (List.mem_of_getElem? hrq)
  have result : (s.tree.nodes rq.leaf).result = 0 := by
    by_contra result
    simp [(wf.nodes rq.leaf).finished result] at sent
  -- the new state, with its nodes below and from `next` on
  generalize after : { s with requests := s.requests.eraseIdx i }.evaluateCallback P cfg rq value
    policy = s'
  have wf' : s'.tree.Wf := by
    rw [← after]
    exact Tree.wf_answer wf.wf hleaf hnexts
  have counted : s'.counted = s.counted := by rw [← after]; rfl
  have tree : s'.tree = s.tree.answer rq.leaf rq.trompTaylor rq.vl (value * rq.minMax)
      (keptItems cfg policy) := by rw [← after]; rfl
  have root : s'.root = s.root := by rw [← after]; rfl
  have grown : s.tree.next ≤ s'.tree.next := by
    rw [tree, Tree.next_answer]
    exact Nat.le_add_right _ _
  constructor
  case old =>
    rw [counted]
    exact fun u hu => (hs.old u hu).trans_le grown
  case once =>
    intro u hu
    rw [counted]
    rcases Tree.expand_cases s.tree (keptItems cfg policy) u with hlt | ⟨k, item, hk, rfl⟩ | hge
    · rw [tree, Tree.nodes_answer_of_lt wf.wf hleaf hnexts hlt] at hu ⊢
      exact hs.once u hu
    · have uncounted : s.tree.next + k ∉ s.counted := fun mem => by
        have := hs.old _ mem
        omega
      rw [List.count_eq_zero_of_not_mem uncounted, tree,
        Tree.nodes_answer_child wf.wf hleaf hnexts hk]
      rfl
    · rw [tree, Tree.nodes_answer_fresh wf.wf hleaf hnexts hge] at hu ⊢
      exact hs.once u hu
  case tally =>
    intro root' hroot v hv
    rw [root] at hroot
    rw [counted]
    rcases Tree.expand_cases s.tree (keptItems cfg policy) v with hlt | ⟨k, item, hk, rfl⟩ | hge
    · rw [tree, Tree.below_answer wf.wf hleaf hnexts hlt] at hv
      have locked : (s.tree.lock v).isSome := by
        rw [wf.lock_eq hroot hv]
        obtain ⟨f, hf, -⟩ := hv
        rw [hf]
        rfl
      have added : s'.tree.tally v = s.tree.tally v +
          if AtOrBelow s.tree.father rq.leaf v then (1, value * rq.minMax) else 0 := by
        rw [tree]
        refine (Tree.tally_of_edge wf.wf (congrArg Node.edge
          (Tree.nodes_answer_of_lt wf.wf hleaf hnexts hlt))).trans ?_
        simp only [wf.atOrBelow_lock_iff hroot hv, locked, and_true]
      have line {u : ℕ} (hu : u < s.tree.next) :
          AtOrBelow s'.tree.father u v ↔ AtOrBelow s.tree.father u v := by
        rw [tree]
        exact Tree.atOrBelow_answer wf.wf hleaf hnexts hu
      have waiting : (s.tree.nodes rq.leaf).settled = false := by
        rw [Node.settled, result, unready]
        rfl
      have settled : (s'.tree.nodes rq.leaf).settled = true := by
        rw [tree, Tree.nodes_answer_of_lt wf.wf hleaf hnexts hleaf]
        simp [Node.settled]
      have backed : (s'.tree.nodes rq.leaf).backed = value * rq.minMax := by
        rw [tree, Tree.nodes_answer_of_lt wf.wf hleaf hnexts hleaf]
        simp [Node.backed, result]
      have shares : (s.counted.map (s'.tree.share v)).sum =
          (s.counted.map (s.tree.share v)).sum + s.counted.count rq.leaf •
            if AtOrBelow s.tree.father rq.leaf v then (1, value * rq.minMax) else 0 := by
        refine sum_map_eq_add_count ?_ fun u hu ne => ?_
        · rw [Tree.share_of_unsettled waiting, Tree.share_of_settled wf'.descending settled,
            backed, zero_add]
          simp only [line hleaf]
        · have hlt := hs.old u hu
          refine Tree.share_congr wf.wf.descending wf'.descending (line hlt) ?_ ?_
          · rw [tree, Tree.nodes_answer_of_lt wf.wf hleaf hnexts hlt]
            simp [Node.settled, ne]
          · rw [tree, Tree.nodes_answer_of_lt wf.wf hleaf hnexts hlt]
            simp [Node.backed, ne]
      rw [added, hs.tally root' hroot v hv, shares, hs.once rq.leaf result, sent, if_pos rfl,
        one_nsmul]
    · have none : s'.tree.tally (s.tree.next + k) = 0 := by
        rw [Tree.tally, tree, Tree.nodes_answer_child wf.wf hleaf hnexts hk]
        rfl
      rw [none, List.sum_eq_zero]
      intro share hshare
      obtain ⟨u, hu, rfl⟩ := List.mem_map.mp hshare
      refine Tree.share_eq_zero wf'.descending fun above => ?_
      have := above.le wf'.descending
      have := hs.old u hu
      omega
    · rw [tree] at hv
      exact absurd hv (not_below_of_none (Tree.father_answer_fresh wf.wf hleaf hnexts hge))

/-- **A step adds to the edges what it adds to the counted iterations.**  A
backup adds one visit and one value to each edge on its way; and those are the
edges whose lists get the iteration as a new member. -/
theorem accounted_step {a : Action K} (wf : Structured s) (hs : Accounted s)
    (h : s.step P cfg a = some s') : Accounted s' := by
  have leaf_lt {i : ℕ} {sel : Selection B} (hsel : s.selections[i]? = some sel) :
      sel.leaf < s.tree.next := by
    obtain ⟨root, hroot, hleaf⟩ := wf.selected sel (List.mem_of_getElem? hsel)
    exact wf.lt_next hroot hleaf
  cases moves_of_step h with
  | select root max remain t leaf board max' hroot found =>
      obtain ⟨path, -, rfl⟩ := wf.exists_path found
      refine hs.of_entry wf.wf (Tree.SameShape.of_addPathVl _ _ _) (fun v => ?_) rfl rfl
      rw [Tree.nodes_addPathVl]
      simp [Node.entry, Function.comp_def]
  | repetition i sel hsel flag =>
      exact hs.of_modify wf.wf sel.leaf (fun nd => nd.setRepetition true) rfl (fun _ => rfl)
        (fun _ => rfl) rfl rfl
  | finished i sel hsel flag result =>
      have marked : Accounted { s with
          tree := s.tree.modify sel.leaf fun nd => nd.setRepetition false } :=
        hs.of_modify wf.wf sel.leaf (fun nd => nd.setRepetition false) rfl (fun _ => rfl)
          (fun _ => rfl) rfl rfl
      have decided : (s.tree.nodes sel.leaf).result ≠ 0 :=
        result.resolve_right (by simp [(wf.nodes sel.leaf).undecided])
      have same : ((s.tree.modify sel.leaf fun nd => nd.setRepetition false).nodes
          sel.leaf).result = (s.tree.nodes sel.leaf).result :=
        Tree.modify_field (·.result) (fun nd => nd.setRepetition false) (fun _ => rfl) _ _
      refine marked.backUp (wf.mark sel.leaf false) (leaf_lt hsel) ?_ cfg.virtualLoss 0 ?_ rfl rfl
      · exact same ▸ decided
      · rw [same]
  | revisit i sel hsel flag result terminate sent =>
      exact hs.of_modify wf.wf sel.leaf (fun nd => (nd.setRepetition false).visitAgain) rfl
        (fun _ => rfl) (fun _ => rfl) rfl rfl
  | request i sel hsel flag result terminate sent rq hrq =>
      exact hs.request wf (fun nd => (nd.setRepetition false).send) (leaf_lt hsel) result sent
        rfl (fun _ => rfl) (fun _ => rfl) rfl rfl
  | reply i rq value policy hrq => exact hs.reply wf hrq
  | freshRoot pos root board action opAction hroot idle applied =>
      exact Accounted.newRoot (s := { s with opAction := opAction })
        ⟨hs.old, hs.once, hs.tally⟩ (wf.of_tree_eq rfl rfl rfl (List.Subset.refl _)) board
  | childRoot a root child nexts board action opAction command hroot idle hnexts mem haction
      applied =>
      refine ⟨hs.old, hs.once, ?_⟩
      rintro _ ⟨⟩ v hv
      have father := wf.wf.father_of_mem hnexts mem
      exact hs.tally root hroot v (hv.trans_atOrBelow (below_of_father father).atOrBelow)
  | resigned idle => exact ⟨hs.old, hs.once, by simp⟩
  | recycle v dropped =>
      exact hs.of_modify wf.wf v Node.expireFather rfl (fun _ => rfl) (fun _ => rfl) rfl rfl
  | stopped => exact ⟨hs.old, hs.once, hs.tally⟩
  | ignored => exact hs

omit [LinearOrder K] in
/-- A new player has counted nothing. -/
theorem accounted_start (board : GoBoard B) : Accounted (Player.start board : Player B K) := by
  refine ⟨by simp [Player.start], fun u _ => ?_, fun root _ v hv => ?_⟩
  · rw [Player.nodes_start]
    rfl
  · exact absurd hv (not_below_of_none (Player.father_start board v))

/-- Every reachable player is accounted for. -/
theorem accounted_run {board : GoBoard B} {as : List (Action K)}
    (run : (playerMachine P cfg).exec (Player.start board) as = some s) :
    Structured s ∧ Accounted s :=
  (playerMachine P cfg).invariant_of_step (I := fun s => Structured s ∧ Accounted s)
    (fun hs h => ⟨structured_step hs.1 h, accounted_step hs.1 hs.2 h⟩)
    ⟨structured_start board, accounted_start board⟩ run

/-- **The win rate of a node is the mean of its leaves.**  In every reachable
player, after any moves, replies in any order and expired pointers, the edge of
a node below the root has counted each iteration that ended at or below the node
and is backed up: `n` is their number, and `w` the sum of the results and
predicted values they ended with. -/
theorem mean_of_run {board : GoBoard B} {as : List (Action K)} {root v : ℕ}
    (run : (playerMachine P cfg).exec (Player.start board) as = some s)
    (hroot : s.root = some root) (below : Below s.tree.father v root) :
    ∃ e, (s.tree.nodes v).edge = some e ∧ e.n = (s.passed v).length ∧
      e.w = ((s.passed v).map fun u => (s.tree.nodes u).backed).sum := by
  obtain ⟨wf, hs⟩ := accounted_run run
  obtain ⟨f, hf, -⟩ := id below
  obtain ⟨e, he⟩ := wf.wf.exists_edge hf
  have tally := hs.tally root hroot v below
  rw [s.sum_share, Tree.tally, he, Option.map_some, Option.getD_some, Prod.mk.injEq] at tally
  exact ⟨e, he, tally.1, tally.2⟩

end Steps

/-- A game whose move keeps the subtree, with one reply more in it. -/
def keptGame : List (Action ℚ) :=
  searchedGame.take 7 ++
    [.select (-1) 8, .decide 0, .reply 0 (1 / 4) [⟨100, 1⟩, ⟨-1, 0⟩]]

/-- The edge of the kept child's child has counted the reply of the second
search.  The child itself was opened before the move that has made it the
root. -/
theorem mean_of_run_kept : ∃ s : Player Stones ℚ, s.root = some 1 ∧ s.passed 3 = [3] ∧
    ∃ e, (s.tree.nodes 3).edge = some e ∧ e.n = (s.passed 3).length ∧
      e.w = ((s.passed 3).map fun u => (s.tree.nodes u).backed).sum := by
  have seen : ((playerMachine pachi shippedSettings).exec newGame keptGame).map
      (fun s => (s.root, s.passed 3, s.tree.father 3)) = some (some 1, [3], some 1) := by
    decide +kernel
  obtain ⟨s, run, hs⟩ := Option.map_eq_some_iff.mp seen
  simp only [Prod.mk.injEq] at hs
  obtain ⟨hroot, passed, father⟩ := hs
  exact ⟨s, hroot, passed, mean_of_run run hroot (below_of_father father)⟩

end EstarGo
