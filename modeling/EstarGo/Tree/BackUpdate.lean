import EstarGo.Tree.Node

/-!
# Backup

`mcts_back_update` walks from a leaf up the fathers that are still there.  In
one equation, `nodes_mctsBackUpdate`: each edge from a node at or above the leaf
to a father is updated once, and each node above the leaf is counted once.

## Main results

* `nodes_mctsBackUpdate`: every node after a backup.
* `SameShape.of_mctsBackUpdate`: no pointer changes.

## Design notes

**An equation instead of a loop.**  All that later modules use of the backup is
what it does to each node, in terms of where the node stands.  The induction
over the way up is done once, here.

**As far as `lock()` finds a father.**  Above a node that was made the root the
way ends, whether or not the nodes above it are still there.  A reply that comes
after a move thus counts up to the new root and no further.
-/

namespace EstarGo

open Verif

variable {K : Type} [Field K]

/-- The three updates of an edge on the way: the virtual loss comes off, a visit
and its value are added.  In the source the value is added by a compare-and-swap
loop, which comes to one addition. -/
def Edge.backUp (edge : Edge K) (tvl : ℤ) (z : K) : Edge K :=
  { edge with vl := edge.vl - tvl, n := edge.n + 1, w := edge.w + z }

namespace Tree

/-- One round of the loop, at a node whose father is there: the edge to the
father, and the father's count.  The root has no father, so its edge is left as
it is. -/
def backUpNode (t : Tree K) (cur father : ℕ) (tvl : ℤ) (z : K) : Tree K :=
  (t.modifyEdge cur fun e => e.backUp tvl z).modify father fun nd =>
    { nd with totalN := nd.totalN + 1 }

/-- The loop of `mcts_back_update`; a father has a smaller number, so `cur + 1`
rounds are enough. -/
def backUpdateLoop (tvl : ℤ) (z : K) : ℕ → Tree K → ℕ → Tree K
  | 0, t, _ => t
  | fuel + 1, t, cur =>
      match t.lock cur with
      | none => t
      | some father => backUpdateLoop tvl z fuel (t.backUpNode cur father tvl z) father

/-- `mcts_back_update`.  The virtual loss of the iterations that found the leaf
taken comes off with that of the one that is backed up. -/
def mctsBackUpdate (t : Tree K) (cur : ℕ) (vl : ℤ) (z : K) (invalidVisit : ℕ) : Tree K :=
  backUpdateLoop ((invalidVisit + 1) * vl) z (cur + 1) t cur

variable {t : Tree K} {tvl : ℤ} {z : K}

open Classical in
/-- What backing up from `u` makes of a node: its edge is updated where it has a
father above and the leaf is at or below it, and it is counted where the leaf is
below. -/
noncomputable def backedUp (t : Tree K) (u : ℕ) (tvl : ℤ) (z : K) (v : ℕ) : Node K :=
  { t.nodes v with
    edge := if AtOrBelow t.lock u v ∧ (t.lock v).isSome
      then (t.nodes v).edge.map fun e => e.backUp tvl z else (t.nodes v).edge
    totalN := (t.nodes v).totalN + if Below t.lock u v then 1 else 0 }

theorem nodes_backUpNode (cur father v : ℕ) :
    (t.backUpNode cur father tvl z).nodes v =
      { t.nodes v with
        edge := if v = cur then (t.nodes v).edge.map fun e => e.backUp tvl z
          else (t.nodes v).edge
        totalN := (t.nodes v).totalN + if v = father then 1 else 0 } := by
  simp only [backUpNode, modifyEdge, nodes_modify]
  split <;> split <;> simp_all

theorem lock_backUpNode (cur father : ℕ) :
    (t.backUpNode cur father tvl z).lock = t.lock := by
  funext v
  simp [lock, Node.lock, nodes_backUpNode]

/-- Where the father is gone the loop ends. -/
theorem backUpdateLoop_of_none {fuel cur : ℕ} (h : t.lock cur = none) :
    backUpdateLoop tvl z fuel t cur = t := by
  cases fuel with
  | zero => rfl
  | succ fuel => simp [backUpdateLoop, h]

/-- The loop, in one equation, by induction on the number of rounds. -/
theorem nodes_backUpdateLoop {fuel u : ℕ} (desc : Descending t.lock) (hfuel : u < fuel) (v : ℕ) :
    (backUpdateLoop tvl z fuel t u).nodes v = t.backedUp u tvl z v := by
  induction fuel generalizing t u with
  | zero => omega
  | succ fuel ih =>
      cases hlock : t.lock u with
      | none =>
          rw [backUpdateLoop_of_none hlock]
          have here : ¬ (AtOrBelow t.lock u v ∧ (t.lock v).isSome) := by
            rintro ⟨hv, hsome⟩
            rcases atOrBelow_iff.mp hv with rfl | hv
            · simp [hlock] at hsome
            · exact not_below_of_none hlock hv
          simp [backedUp, here, not_below_of_none hlock]
      | some father =>
          have lt : father < u := desc u father hlock
          have next : Descending (t.backUpNode u father tvl z).lock := by
            rwa [lock_backUpNode]
          simp only [backUpdateLoop, hlock]
          rw [ih next (by omega), backedUp, lock_backUpNode, nodes_backUpNode, backedUp]
          -- at the node itself, at its father, and elsewhere
          by_cases hu : v = u
          · subst hu
            have above : ¬ AtOrBelow t.lock father v := fun h =>
              absurd (h.le desc) (not_le.mpr lt)
            have above' : ¬ Below t.lock father v := fun h => above h.atOrBelow
            have self : ¬ Below t.lock v v := not_below_self desc
            simp [above, above', self, hlock, lt.ne']
          · have step : Below t.lock u v ↔ AtOrBelow t.lock father v := below_iff_of_father hlock
            have line : AtOrBelow t.lock u v ↔ AtOrBelow t.lock father v := by
              rw [atOrBelow_iff, step, or_iff_right (Ne.symm hu)]
            by_cases hf : v = father
            · subst hf
              have self : ¬ Below t.lock v v := not_below_self desc
              simp [line, step, self, hu]
            · have strict : AtOrBelow t.lock father v ↔ Below t.lock father v := by
                rw [atOrBelow_iff, or_iff_right (Ne.symm hf)]
              by_cases above : AtOrBelow t.lock father v
              · simp [line.mpr above, step.mpr above, above, strict.mp above, hu, hf]
              · simp [mt line.mp above, mt step.mp above, above, mt strict.mpr above, hu, hf]

/-- **Backup in one equation.**  Every node after it, given by its place.  The
loop is unfolded here and nowhere else; what a backup keeps or changes is read
off this. -/
theorem nodes_mctsBackUpdate (desc : Descending t.lock) (u : ℕ) (vl : ℤ) (invalidVisit v : ℕ) :
    (t.mctsBackUpdate u vl z invalidVisit).nodes v =
      t.backedUp u ((invalidVisit + 1) * vl) z v :=
  nodes_backUpdateLoop desc (Nat.lt_succ_self u) v

@[simp] theorem next_backUpdateLoop {fuel u : ℕ} :
    (backUpdateLoop tvl z fuel t u).next = t.next := by
  induction fuel generalizing t u with
  | zero => rfl
  | succ fuel ih =>
      rw [backUpdateLoop]
      split
      · rfl
      · exact ih

@[simp] theorem next_mctsBackUpdate (u : ℕ) (vl : ℤ) (invalidVisit : ℕ) :
    (t.mctsBackUpdate u vl z invalidVisit).next = t.next := next_backUpdateLoop

/-- Backup keeps the pointers, the actions and the flags of expansion.  So
whatever is said of places in the tree before a backup is true after it. -/
theorem SameShape.of_mctsBackUpdate (desc : Descending t.lock) (u : ℕ) (vl : ℤ)
    (invalidVisit : ℕ) : SameShape t (t.mctsBackUpdate u vl z invalidVisit) := by
  refine ⟨next_mctsBackUpdate u vl invalidVisit, fun v => ?_⟩
  rw [nodes_mctsBackUpdate desc]
  simp only [backedUp, Node.shape]
  split
  · cases (t.nodes v).edge <;> rfl
  · rfl

omit [Field K] in
/-- A locked father is a father. -/
theorem father_of_lock {a b : ℕ} (h : t.lock a = some b) : t.father a = some b := by
  unfold lock Node.lock at h
  split at h
  · cases h
  · exact h

omit [Field K] in
/-- Links that `lock()` finds go to older nodes, so the walk ends. -/
theorem Wf.descending_lock (wf : t.Wf) : Descending t.lock :=
  fun a b h => wf.descending a b (father_of_lock h)

end Tree

end EstarGo
