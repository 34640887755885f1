import EstarGo.Tree.BackUpdate
import Mathlib.Algebra.Field.Rat
import Mathlib.Data.List.Sort

/-!
# Expansion

The tree part of the callback of `server_evaluate`: the leaf is given a child
for each policy item kept, becomes ready, and its value is backed up.

The nodes from before are numbered below `next` and the children from `next` on,
so each fact about the new tree has one case for the leaf, one for the other old
nodes and one for the children.

## Main definitions

* `keptItems` — the policy items that become children, in the order of their
  priors.
* `expand` — the leaf with its children.
* `answer` — all that the callback does to the tree.

## Main results

* `Wf.expand`, `wf_answer`: the pointers agree afterwards.
* `nodes_answer_of_lt`, `nodes_answer_child`: every node after an answer.
* `atOrBelow_answer`, `below_answer`: the old nodes are where they were.

## Design notes

**One step.**  The callback runs in a transport thread while search threads go
on.  It writes the leaf and new nodes, publishes them by setting `eval_ready`,
and backs up; here all of it is one step.

**Old and new.**  An answer adds nodes and moves none, so climbing from an old
node meets only old ones.  Facts about places in the tree therefore carry over,
and the section on the old forest says so once for fathers and once for those
that `lock()` finds.
-/

namespace EstarGo

open Verif

variable {K : Type}

/-- `PolicyItem`: a move and its prior. -/
structure PolicyItem (K : Type) where
  pos : ℤ
  prob : K
  deriving DecidableEq, Repr

/-- The order of the callback's `std::sort`: the larger prior first, and any
order among equal ones. -/
def PolicyItem.before [LinearOrder K] (a b : PolicyItem K) : Prop := ¬ a.prob < b.prob

instance [LinearOrder K] : DecidableRel (PolicyItem.before (K := K)) := fun a b =>
  inferInstanceAs (Decidable (¬ a.prob < b.prob))

/-- The policy items that become children: those above the threshold, and a pass
in any case. -/
def keptItems [LinearOrder K] (cfg : Settings K) (policy : List (PolicyItem K)) :
    List (PolicyItem K) :=
  (policy.insertionSort PolicyItem.before).filter fun item =>
    !(item.pos ≠ GoBoard.posPass && item.prob < cfg.policyProbThreshold)

/-- The kept items stand in the order of their priors. -/
theorem pairwise_keptItems [LinearOrder K] (cfg : Settings K) (policy : List (PolicyItem K)) :
    (keptItems cfg policy).Pairwise fun a b => b.prob ≤ a.prob := by
  have total : Std.Total (PolicyItem.before (K := K)) :=
    ⟨fun a b => (le_total b.prob a.prob).imp not_lt.mpr not_lt.mpr⟩
  have trans : IsTrans (PolicyItem K) PolicyItem.before :=
    ⟨fun _ _ _ h h' => not_lt.mpr ((not_lt.mp h').trans (not_lt.mp h))⟩
  exact ((List.pairwise_insertionSort PolicyItem.before policy).imp not_lt.mp).filter _

variable [Field K]

/-- The child made of a policy item; a second pass beyond depth 300 has a result
from the start. -/
def childNode (leaf : ℕ) (nd : Node K) (trompTaylor : ℤ) (item : PolicyItem K) : Node K :=
  { Node.new (some leaf) (some (Edge.new item.pos item.prob)) with
    depth := nd.depth + 1
    result := if item.pos = GoBoard.posPass ∧ nd.depth > 300 ∧
        nd.edge.map (·.action) = some GoBoard.posPass then trompTaylor else 0 }

namespace Tree

/-- A node for each item, then `nexts` and `eval_ready` of the leaf.  The
children get the next free numbers, in the order of the items. -/
def expand (t : Tree K) (leaf : ℕ) (trompTaylor : ℤ) (items : List (PolicyItem K)) :
    Tree K where
  nodes u :=
    if u < t.next then
      if u = leaf then
        { t.nodes u with nexts := some (List.range' t.next items.length), evalReady := true }
      else t.nodes u
    else
      match items[u - t.next]? with
      | some item => childNode leaf (t.nodes leaf) trompTaylor item
      | none => t.nodes u
  next := t.next + items.length

/-- `leaf->value_pred = score_value`. -/
def setValuePred (t : Tree K) (leaf : ℕ) (scoreValue : K) : Tree K :=
  t.modify leaf fun nd => { nd with valuePred := scoreValue }

/-- The callback's statements from `value_pred` to the backup.  The backup takes
the virtual loss of as many iterations as have found the leaf taken. -/
def answer (t : Tree K) (leaf : ℕ) (trompTaylor vl : ℤ) (scoreValue : K)
    (items : List (PolicyItem K)) : Tree K :=
  let t := (t.setValuePred leaf scoreValue).expand leaf trompTaylor items
  t.mctsBackUpdate leaf vl scoreValue (t.nodes leaf).invalidVisit

variable {t : Tree K} {leaf : ℕ} {trompTaylor vl : ℤ} {scoreValue : K}
variable {items : List (PolicyItem K)}

/-- The other old nodes are as they were. -/
theorem nodes_expand_of_lt {u : ℕ} (hu : u < t.next) (hne : u ≠ leaf) :
    (t.expand leaf trompTaylor items).nodes u = t.nodes u := by
  simp [expand, hu, hne]

/-- The leaf has a list of children and is ready. -/
theorem nodes_expand_leaf (hleaf : leaf < t.next) :
    (t.expand leaf trompTaylor items).nodes leaf =
      { t.nodes leaf with
        nexts := some (List.range' t.next items.length), evalReady := true } := by
  simp [expand, hleaf]

/-- The children are under the numbers from `next` on, in the order of the
items. -/
theorem nodes_expand_child {i : ℕ} {item : PolicyItem K} (hi : items[i]? = some item) :
    (t.expand leaf trompTaylor items).nodes (t.next + i) =
      childNode leaf (t.nodes leaf) trompTaylor item := by
  simp [expand, hi]

/-- What is not used is not touched. -/
theorem nodes_expand_fresh {u : ℕ} (hu : t.next + items.length ≤ u) :
    (t.expand leaf trompTaylor items).nodes u = t.nodes u := by
  have hlt : ¬ u < t.next := by omega
  have hnone : items[u - t.next]? = none := List.getElem?_eq_none (by omega)
  simp [expand, hlt, hnone]

omit [Field K] in
/-- A number is an old node, a child or unused. -/
theorem expand_cases (t : Tree K) (items : List (PolicyItem K)) (u : ℕ) :
    u < t.next ∨ (∃ i item, items[i]? = some item ∧ u = t.next + i) ∨
      t.next + items.length ≤ u := by
  by_cases hlt : u < t.next
  · exact .inl hlt
  by_cases hge : t.next + items.length ≤ u
  · exact .inr (.inr hge)
  · have hi : u - t.next < items.length := by omega
    exact .inr (.inl ⟨u - t.next, items[u - t.next], List.getElem?_eq_getElem hi, by omega⟩)

/-! ## Pointers

Fathers and children of the tree with the new nodes in it. -/

theorem father_expand_of_lt {u : ℕ} (hu : u < t.next) :
    (t.expand leaf trompTaylor items).father u = t.father u := by
  by_cases hne : u = leaf
  · subst hne
    simp [father, nodes_expand_leaf hu]
  · simp [father, nodes_expand_of_lt hu hne]

theorem lock_expand_of_lt {u : ℕ} (hu : u < t.next) :
    (t.expand leaf trompTaylor items).lock u = t.lock u := by
  by_cases hne : u = leaf
  · subst hne
    simp [lock, Node.lock, nodes_expand_leaf hu]
  · simp [lock, nodes_expand_of_lt hu hne]

theorem father_expand_child {i : ℕ} {item : PolicyItem K} (hi : items[i]? = some item) :
    (t.expand leaf trompTaylor items).father (t.next + i) = some leaf := by
  simp [father, nodes_expand_child hi, childNode, Node.new]

/-- A node has the father it had, or it is a child and has the leaf. -/
theorem father_expand_iff (wf : t.Wf) {u f : ℕ} :
    (t.expand leaf trompTaylor items).father u = some f ↔
      (u < t.next ∧ t.father u = some f) ∨
        (f = leaf ∧ ∃ i item, items[i]? = some item ∧ u = t.next + i) := by
  rcases expand_cases t items u with hlt | ⟨i, item, hi, rfl⟩ | hge
  · rw [father_expand_of_lt hlt]
    constructor
    · exact fun h => .inl ⟨hlt, h⟩
    · rintro (⟨-, h⟩ | ⟨-, i, -, -, rfl⟩)
      · exact h
      · omega
  · rw [father_expand_child hi]
    constructor
    · rintro ⟨⟩
      exact .inr ⟨rfl, i, item, hi, rfl⟩
    · rintro (⟨h, -⟩ | ⟨rfl, -⟩)
      · omega
      · rfl
  · have none : (t.expand leaf trompTaylor items).father u = none := by
      rw [father, nodes_expand_fresh hge]
      exact (wf.fresh u (by omega)).1
    rw [none]
    constructor
    · rintro ⟨⟩
    · rintro (⟨h, -⟩ | ⟨-, i, item, hi, rfl⟩)
      · omega
      · have := (List.getElem?_eq_some_iff.mp hi).1
        omega

omit [Field K] in
theorem exists_child_iff (t : Tree K) (items : List (PolicyItem K)) (c : ℕ) :
    (∃ i item, items[i]? = some item ∧ c = t.next + i) ↔
      t.next ≤ c ∧ c < t.next + items.length := by
  constructor
  · rintro ⟨i, item, hi, rfl⟩
    have := (List.getElem?_eq_some_iff.mp hi).1
    omega
  · intro h
    rcases expand_cases t items c with hlt | hchild | hge
    · omega
    · exact hchild
    · omega

/-- The pointers agree after the expansion of a leaf that has no children yet.
The children are new and greater than the leaf, so fathers are still older than
their children. -/
theorem Wf.expand (wf : t.Wf) (hleaf : leaf < t.next) (hnexts : (t.nodes leaf).nexts = none) :
    (t.expand leaf trompTaylor items).Wf := by
  constructor
  case fresh =>
    intro v hv
    have hge : t.next + items.length ≤ v := hv
    rw [father, nodes_expand_fresh hge]
    exact wf.fresh v (by omega)
  case descending =>
    intro c v h
    rcases (father_expand_iff wf).mp h with ⟨-, h⟩ | ⟨rfl, i, -, -, rfl⟩
    · exact wf.descending c v h
    · omega
  case child_iff =>
    intro c v
    rw [father_expand_iff wf]
    by_cases hv : v = leaf
    · subst hv
      have childless : t.father c ≠ some v := fun h => by simp [wf.child_iff, hnexts] at h
      simp only [childless, and_false, false_or, true_and, exists_child_iff,
        nodes_expand_leaf hleaf, Option.some.injEq, exists_eq_left', List.mem_range'_1]
    · simp only [hv, false_and, or_false]
      rcases expand_cases t items v with hlt | ⟨i, item, hi, rfl⟩ | hge
      · rw [nodes_expand_of_lt hlt hv, ← wf.child_iff]
        exact ⟨And.right, fun h => ⟨wf.lt_next_of_father h, h⟩⟩
      · have young : ¬ (c < t.next ∧ t.father c = some (t.next + i)) := by
          rintro ⟨hc, h⟩
          have := wf.descending c _ h
          omega
        simp [nodes_expand_child hi, childNode, Node.new, young]
      · have young : ¬ (c < t.next ∧ t.father c = some v) := by
          rintro ⟨hc, h⟩
          have := wf.descending c v h
          omega
        rw [nodes_expand_fresh hge, (wf.fresh v (by omega)).2]
        simp [young]
  case nodup =>
    intro v cs hcs
    by_cases hv : v = leaf
    · subst hv
      rw [nodes_expand_leaf hleaf] at hcs
      obtain rfl := Option.some.inj hcs
      exact List.nodup_range'
    · rcases expand_cases t items v with hlt | ⟨i, item, hi, rfl⟩ | hge
      · rw [nodes_expand_of_lt hlt hv] at hcs
        exact wf.nodup v cs hcs
      · simp [nodes_expand_child hi, childNode, Node.new] at hcs
      · rw [nodes_expand_fresh hge] at hcs
        exact wf.nodup v cs hcs
  case edge =>
    intro c v h
    rcases (father_expand_iff wf).mp h with ⟨hlt, h⟩ | ⟨rfl, i, item, hi, rfl⟩
    · have edge := wf.edge c v h
      by_cases hc : c = leaf
      · subst hc
        rwa [nodes_expand_leaf hleaf]
      · rwa [nodes_expand_of_lt hlt hc]
    · simp [nodes_expand_child hi, childNode, Node.new]
  case ready_iff =>
    intro v
    by_cases hv : v = leaf
    · subst hv
      simp [nodes_expand_leaf hleaf]
    · rcases expand_cases t items v with hlt | ⟨i, item, hi, rfl⟩ | hge
      · rw [nodes_expand_of_lt hlt hv]
        exact wf.ready_iff v
      · simp [nodes_expand_child hi, childNode, Node.new]
      · rw [nodes_expand_fresh hge]
        exact wf.ready_iff v

/-- A root with a pass and a stone as children, for the runs that are evaluated.
Node 1 is the pass and node 2 the stone; both have the same prior. -/
def opened : Tree ℚ :=
  (empty.alloc (Node.new none none)).expand 0 0 [⟨GoBoard.posPass, 1 / 2⟩, ⟨72, 1 / 2⟩]

theorem wf_opened : opened.Wf := by
  have root : (empty.alloc (Node.new none none : Node ℚ)).Wf := wf_empty.alloc rfl rfl rfl
  exact root.expand Nat.one_pos rfl

/-! ## The old forest

An old node climbs through old nodes only. -/

/-- Climbing from an old node is as before: no old node has a new father. -/
theorem atOrBelow_expand (wf : t.Wf) {u v : ℕ} (hu : u < t.next) :
    AtOrBelow (t.expand leaf trompTaylor items).father u v ↔ AtOrBelow t.father u v :=
  atOrBelow_congr (fun a b ha h => (wf.descending a b h).trans ha)
    (fun _ ha => father_expand_of_lt ha) hu

theorem atOrBelow_lock_expand (wf : t.Wf) {u v : ℕ} (hu : u < t.next) :
    AtOrBelow (t.expand leaf trompTaylor items).lock u v ↔ AtOrBelow t.lock u v :=
  atOrBelow_congr (fun a b ha h => (wf.descending_lock a b h).trans ha)
    (fun _ ha => lock_expand_of_lt ha) hu

theorem below_lock_expand (wf : t.Wf) {u v : ℕ} (hu : u < t.next) :
    Below (t.expand leaf trompTaylor items).lock u v ↔ Below t.lock u v := by
  unfold Below
  rw [lock_expand_of_lt hu]
  refine exists_congr fun f => and_congr_right fun hf => ?_
  exact atOrBelow_lock_expand wf ((wf.descending_lock u f hf).trans hu)

theorem below_expand (wf : t.Wf) {u v : ℕ} (hu : u < t.next) :
    Below (t.expand leaf trompTaylor items).father u v ↔ Below t.father u v := by
  unfold Below
  rw [father_expand_of_lt hu]
  refine exists_congr fun f => and_congr_right fun hf => ?_
  exact atOrBelow_expand wf ((wf.descending u f hf).trans hu)

/-! ## The answer

The value of the leaf, the expansion and the backup together. -/

section Answer

variable (wf : t.Wf) (hleaf : leaf < t.next) (hnexts : (t.nodes leaf).nexts = none)

/-- The leaf with its value, expanded.  This is the tree that the backup of an
answer starts from. -/
def expandValued (t : Tree K) (leaf : ℕ) (trompTaylor : ℤ) (scoreValue : K)
    (items : List (PolicyItem K)) : Tree K :=
  (t.setValuePred leaf scoreValue).expand leaf trompTaylor items

omit [Field K] in
theorem sameShape_valued (t : Tree K) (leaf : ℕ) (scoreValue : K) :
    SameShape t (t.setValuePred leaf scoreValue) :=
  SameShape.of_modify leaf _ fun _ => rfl

omit [Field K] in
theorem lock_valued (t : Tree K) (leaf : ℕ) (scoreValue : K) :
    (t.setValuePred leaf scoreValue).lock = t.lock := by
  funext u
  simp only [lock, Node.lock, setValuePred, nodes_modify]
  split <;> rfl

theorem nodes_expandValued_of_lt {u : ℕ} (hu : u < t.next) :
    (t.expandValued leaf trompTaylor scoreValue items).nodes u =
      { t.nodes u with
        nexts := if u = leaf then some (List.range' t.next items.length) else (t.nodes u).nexts
        evalReady := if u = leaf then true else (t.nodes u).evalReady
        valuePred := if u = leaf then scoreValue else (t.nodes u).valuePred } := by
  have hu' : u < (t.setValuePred leaf scoreValue).next := hu
  rw [expandValued]
  by_cases hne : u = leaf
  · subst hne
    rw [nodes_expand_leaf hu']
    simp [setValuePred, nodes_modify]
  · rw [nodes_expand_of_lt hu' hne]
    simp [setValuePred, nodes_modify, hne]

theorem nodes_expandValued_child {i : ℕ} {item : PolicyItem K} (hi : items[i]? = some item) :
    (t.expandValued leaf trompTaylor scoreValue items).nodes (t.next + i) =
      childNode leaf (t.nodes leaf) trompTaylor item := by
  refine (nodes_expand_child hi).trans ?_
  simp [childNode, setValuePred, nodes_modify]

omit hnexts wf in
include hleaf in
theorem nodes_expandValued_fresh {u : ℕ} (hu : t.next + items.length ≤ u) :
    (t.expandValued leaf trompTaylor scoreValue items).nodes u = t.nodes u := by
  have hu' : (t.setValuePred leaf scoreValue).next + items.length ≤ u := hu
  rw [expandValued, nodes_expand_fresh hu', setValuePred, nodes_modify, if_neg (by omega)]

include wf hleaf hnexts

/-- The pointers agree once the leaf has its value and its children. -/
theorem wf_expandValued : (t.expandValued leaf trompTaylor scoreValue items).Wf := by
  have shape := sameShape_valued t leaf scoreValue
  refine (wf.of_sameShape shape).expand hleaf ?_
  rw [shape.nexts, hnexts]

omit hnexts in
open Classical in
/-- The backup of an answer follows the pointers there were before: the children
are below the leaf, and it goes up. -/
theorem backedUp_expandValued (tvl : ℤ) (u : ℕ) :
    (t.expandValued leaf trompTaylor scoreValue items).backedUp leaf tvl scoreValue u =
      { (t.expandValued leaf trompTaylor scoreValue items).nodes u with
        edge := if AtOrBelow t.lock leaf u ∧ (t.lock u).isSome
          then ((t.expandValued leaf trompTaylor scoreValue items).nodes u).edge.map fun e =>
            e.backUp tvl scoreValue
          else ((t.expandValued leaf trompTaylor scoreValue items).nodes u).edge
        totalN := ((t.expandValued leaf trompTaylor scoreValue items).nodes u).totalN +
          if Below t.lock leaf u then 1 else 0 } := by
  have shape := sameShape_valued t leaf scoreValue
  have wf' := wf.of_sameShape shape
  have line : AtOrBelow (t.expandValued leaf trompTaylor scoreValue items).lock leaf u ↔
      AtOrBelow t.lock leaf u := by
    rw [expandValued, atOrBelow_lock_expand wf' hleaf, lock_valued]
  have strict : Below (t.expandValued leaf trompTaylor scoreValue items).lock leaf u ↔
      Below t.lock leaf u := by
    rw [expandValued, below_lock_expand wf' hleaf, lock_valued]
  have locked (above : AtOrBelow t.lock leaf u) :
      (t.expandValued leaf trompTaylor scoreValue items).lock u = t.lock u := by
    have hu : u < (t.setValuePred leaf scoreValue).next :=
      (above.le wf.descending_lock).trans_lt hleaf
    rw [expandValued, lock_expand_of_lt hu, lock_valued]
  rw [backedUp]
  by_cases above : AtOrBelow t.lock leaf u
  · rw [locked above]
    by_cases below : Below t.lock leaf u
    · simp [line.mpr above, above, strict.mpr below, below]
    · simp [line.mpr above, above, mt strict.mp below, below]
  · have below : ¬ Below t.lock leaf u := fun h => above h.atOrBelow
    simp [mt line.mp above, above, mt strict.mp below, below]

/-- An answer is an expansion and a backup, in one equation.  How much virtual
loss comes off is read at the leaf, as it was before the answer. -/
theorem nodes_answer (u : ℕ) :
    (t.answer leaf trompTaylor vl scoreValue items).nodes u =
      (t.expandValued leaf trompTaylor scoreValue items).backedUp leaf
        (((t.nodes leaf).invalidVisit + 1) * vl) scoreValue u := by
  have visits : ((t.expandValued leaf trompTaylor scoreValue items).nodes leaf).invalidVisit =
      (t.nodes leaf).invalidVisit := by
    have hleaf' : leaf < (t.setValuePred leaf scoreValue).next := hleaf
    rw [expandValued, nodes_expand_leaf hleaf']
    simp [setValuePred, nodes_modify]
  rw [← visits]
  exact nodes_mctsBackUpdate (wf_expandValued wf hleaf hnexts).descending_lock leaf vl _ u

open Classical in
/-- **What an answer makes of an old node.**  The leaf is expanded, and the
edges and nodes above it are counted. -/
theorem nodes_answer_of_lt {u : ℕ} (hu : u < t.next) :
    (t.answer leaf trompTaylor vl scoreValue items).nodes u =
      { t.nodes u with
        nexts := if u = leaf then some (List.range' t.next items.length) else (t.nodes u).nexts
        evalReady := if u = leaf then true else (t.nodes u).evalReady
        valuePred := if u = leaf then scoreValue else (t.nodes u).valuePred
        edge := if AtOrBelow t.lock leaf u ∧ (t.lock u).isSome
          then (t.nodes u).edge.map fun e =>
            e.backUp (((t.nodes leaf).invalidVisit + 1) * vl) scoreValue
          else (t.nodes u).edge
        totalN := (t.nodes u).totalN + if Below t.lock leaf u then 1 else 0 } := by
  rw [nodes_answer wf hleaf hnexts, backedUp_expandValued wf hleaf,
    nodes_expandValued_of_lt hu]

/-- An old node keeps its action. -/
theorem action_answer_of_lt {u : ℕ} (hu : u < t.next) :
    ((t.answer leaf trompTaylor vl scoreValue items).nodes u).edge.map (·.action) =
      (t.nodes u).edge.map (·.action) := by
  rw [nodes_answer_of_lt wf hleaf hnexts hu]
  dsimp only
  split
  · cases (t.nodes u).edge <;> rfl
  · rfl

omit [Field K] hnexts in
theorem not_atOrBelow_of_ge {u : ℕ} (hu : t.next ≤ u) : ¬ AtOrBelow t.lock leaf u := by
  intro h
  have := h.le wf.descending_lock
  omega

theorem nodes_answer_of_ge {u : ℕ} (hu : t.next ≤ u) :
    (t.answer leaf trompTaylor vl scoreValue items).nodes u =
      (t.expandValued leaf trompTaylor scoreValue items).nodes u := by
  have above := not_atOrBelow_of_ge wf hleaf hu
  have below : ¬ Below t.lock leaf u := fun h => above h.atOrBelow
  rw [nodes_answer wf hleaf hnexts, backedUp_expandValued wf hleaf]
  simp [above, below]

/-- A child stays as it was made, since the backup does not come by. -/
theorem nodes_answer_child {i : ℕ} {item : PolicyItem K} (hi : items[i]? = some item) :
    (t.answer leaf trompTaylor vl scoreValue items).nodes (t.next + i) =
      childNode leaf (t.nodes leaf) trompTaylor item := by
  rw [nodes_answer_of_ge wf hleaf hnexts (Nat.le_add_right _ _), nodes_expandValued_child hi]

theorem nodes_answer_fresh {u : ℕ} (hu : t.next + items.length ≤ u) :
    (t.answer leaf trompTaylor vl scoreValue items).nodes u = t.nodes u := by
  rw [nodes_answer_of_ge wf hleaf hnexts (by omega), nodes_expandValued_fresh hleaf hu]

theorem sameShape_answer : SameShape (t.expandValued leaf trompTaylor scoreValue items)
    (t.answer leaf trompTaylor vl scoreValue items) := by
  have wf' : (t.expandValued leaf trompTaylor scoreValue items).Wf :=
    wf_expandValued wf hleaf hnexts
  exact SameShape.of_mctsBackUpdate wf'.descending_lock leaf vl _

/-- **The pointers agree after an answer.**  The expansion makes them agree, and
the backup changes none. -/
theorem wf_answer : (t.answer leaf trompTaylor vl scoreValue items).Wf :=
  (wf_expandValued wf hleaf hnexts).of_sameShape (sameShape_answer wf hleaf hnexts)

omit wf hleaf hnexts in
@[simp] theorem next_answer :
    (t.answer leaf trompTaylor vl scoreValue items).next = t.next + items.length := by
  simp [answer, expand, setValuePred]

/-- An answer gives a father to the children and to nobody else. -/
theorem father_answer_iff {u f : ℕ} :
    (t.answer leaf trompTaylor vl scoreValue items).father u = some f ↔
      (u < t.next ∧ t.father u = some f) ∨
        (f = leaf ∧ ∃ i item, items[i]? = some item ∧ u = t.next + i) := by
  have valued := sameShape_valued t leaf scoreValue
  rw [(sameShape_answer wf hleaf hnexts).father, expandValued,
    father_expand_iff (wf.of_sameShape valued), valued.father, valued.next]

/-- The old nodes are at or below the same nodes as before.  A new child is
below an old node, and no old node is below a new one. -/
theorem atOrBelow_answer {u v : ℕ} (hu : u < t.next) :
    AtOrBelow (t.answer leaf trompTaylor vl scoreValue items).father u v ↔
      AtOrBelow t.father u v := by
  have valued := sameShape_valued t leaf scoreValue
  rw [(sameShape_answer wf hleaf hnexts).father, expandValued,
    atOrBelow_expand (wf.of_sameShape valued) hu, valued.father]

/-- And below the same nodes. -/
theorem below_answer {u v : ℕ} (hu : u < t.next) :
    Below (t.answer leaf trompTaylor vl scoreValue items).father u v ↔ Below t.father u v := by
  have valued := sameShape_valued t leaf scoreValue
  rw [(sameShape_answer wf hleaf hnexts).father, expandValued,
    below_expand (wf.of_sameShape valued) hu, valued.father]

theorem father_answer_fresh {u : ℕ} (hu : t.next + items.length ≤ u) :
    (t.answer leaf trompTaylor vl scoreValue items).father u = none := by
  rw [father, nodes_answer_fresh wf hleaf hnexts hu]
  exact (wf.fresh u (by omega)).1

end Answer

end Tree

end EstarGo
