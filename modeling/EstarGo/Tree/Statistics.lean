import EstarGo.Tree.Expand
import Mathlib.Algebra.BigOperators.Group.List.Basic
import Mathlib.Algebra.Order.Ring.Abs
import Mathlib.Tactic.Linarith

/-!
# Visit counts and values

`Tallied t pending` says how the counts on nodes and on edges agree.  A node
whose father is there has been passed once more than the nodes below it, from
its answer on; `pending` is a node that has been expanded and whose value is
still to be backed up.

A backup from `u` counts an edge of each node on the line above `u`, so it
counts one child of each node that it counts: `sum_onLine`.

## Main definitions

* `visits`, `OnLine` — the count of a node's edge, and the nodes whose edge a
  backup updates.
* `Tallied` — the counts agree.

## Main results

* `Tallied.backUp`: a backup keeps the tallies, and settles the pending node.
* `Tallied.expand`: an expansion leaves its leaf pending.
* `Tallied.answer`: so an answer keeps them.

## Design notes

**Two counts of one thing.**  A node counts how often it was passed on the way
up, and each edge how often it was updated.  The two are written in one round of
a loop, at two nodes, so they agree only over the whole way; this is why the
invariant has a pending node, and why it is stated of sums over children.

**Only fathers that are there.**  The edge of a root is not updated, since no
father locks it.  The tallies ask of a node only what its father's presence
justifies, so they survive a move of the root.
-/

namespace EstarGo

open Verif

variable {K : Type}

namespace Tree

/-- `n` of the edge of a node; a node without an edge has none.  The root may
have an edge, from the time when it was a child. -/
def visits (t : Tree K) (v : ℕ) : ℕ := ((t.nodes v).edge.map (·.n)).getD 0

section Line

variable {t : Tree K} (wf : t.Wf)

/-- The nodes whose edge a backup from `u` updates: at or above it, with a
father that is there.  The topmost node on the line is not one of them. -/
def OnLine (t : Tree K) (u c : ℕ) : Prop := AtOrBelow t.lock u c ∧ (t.lock c).isSome

/-- Away from `u`, being on the line is being strictly above it. -/
theorem onLine_iff_below {u v : ℕ} (locked : (t.lock v).isSome) (hv : v ≠ u) :
    t.OnLine u v ↔ Below t.lock u v := by
  rw [OnLine, atOrBelow_iff, or_iff_right hv.symm, and_iff_left locked]

include wf

/-- A node strictly above another is expanded, since it has a child. -/
theorem nexts_isSome_of_below {u v : ℕ} (below : Below t.lock u v) :
    ((t.nodes v).nexts).isSome := by
  obtain ⟨c, -, hc⟩ := exists_child_of_below below
  obtain ⟨cs, hcs, -⟩ := (wf.child_iff c v).mp (father_of_lock hc)
  simp [hcs]

/-- A child on the line is one its father is strictly above. -/
theorem below_of_onLine {u v c : ℕ} {cs : List ℕ} (hcs : (t.nodes v).nexts = some cs)
    (hc : c ∈ cs) (line : t.OnLine u c) : Below t.lock u v ∧ t.lock c = some v := by
  obtain ⟨above, locked⟩ := line
  obtain ⟨f, hf⟩ := Option.isSome_iff_exists.mp locked
  obtain rfl : f = v := Option.some.inj ((father_of_lock hf).symm.trans (wf.father_of_mem hcs hc))
  exact ⟨above.trans_below (below_of_father hf), hf⟩

/-- Only one child is on the line, because the nodes above one node are on one
line. -/
theorem onLine_unique {u v c d : ℕ} {cs : List ℕ} (hcs : (t.nodes v).nexts = some cs)
    (hc : c ∈ cs) (hd : d ∈ cs) (lc : t.OnLine u c) (ld : t.OnLine u d) : c = d := by
  have desc := wf.descending_lock
  have fc := (below_of_onLine wf hcs hc lc).2
  have fd := (below_of_onLine wf hcs hd ld).2
  have strict {a b : ℕ} (fa : t.lock a = some v) (fb : t.lock b = some v) :
      ¬ Below t.lock a b := fun h =>
    not_below_of_atOrBelow desc ((below_iff_of_father fa).mp h) (below_of_father fb)
  rcases atOrBelow_total lc.1 ld.1 with h | h
  · rcases atOrBelow_iff.mp h with rfl | h
    · rfl
    · exact absurd h (strict fc fd)
  · exact absurd h (strict fd fc)

open Classical in
/-- **A backup passes one child of each node it counts.**  So the count of the
node and the sum over its children grow together, and their equality is kept. -/
theorem sum_onLine {u v : ℕ} {cs : List ℕ} (hcs : (t.nodes v).nexts = some cs) :
    (cs.map fun c => if t.OnLine u c then 1 else 0).sum = if Below t.lock u v then 1 else 0 := by
  have indicator (ds : List ℕ) : (ds.map fun c => if t.OnLine u c then 1 else 0).sum =
      ds.countP fun c => t.OnLine u c := by
    induction ds with
    | nil => rfl
    | cons d ds ih => simp [List.countP_cons, ih, Nat.add_comm]
  rw [indicator]
  by_cases below : Below t.lock u v
  · obtain ⟨c, above, hc⟩ := exists_child_of_below below
    have line : t.OnLine u c := ⟨above, by simp [hc]⟩
    have mem : c ∈ cs := by
      obtain ⟨cs', hcs', mem⟩ := (wf.child_iff c v).mp (father_of_lock hc)
      obtain rfl := Option.some.inj (hcs.symm.trans hcs')
      exact mem
    have same : cs.countP (fun d => t.OnLine u d) = cs.count c := by
      refine List.countP_congr fun d hd => ?_
      simp only [decide_eq_true_eq, beq_iff_eq]
      exact ⟨fun ld => (onLine_unique wf hcs hd mem ld line), fun h => h ▸ line⟩
    rw [if_pos below, same]
    exact List.count_eq_one_of_mem (wf.nodup v cs hcs) mem
  · rw [if_neg below, List.countP_eq_zero]
    intro c hc line
    exact below (below_of_onLine wf hcs hc (by simpa using line)).1

open Classical in
/-- A backup counts one visit for each edge on its line. -/
theorem visits_of_edge [Field K] {t' : Tree K} {u v : ℕ} {tvl : ℤ} {z : K}
    (edge : (t'.nodes v).edge = if AtOrBelow t.lock u v ∧ (t.lock v).isSome
      then (t.nodes v).edge.map fun e => e.backUp tvl z else (t.nodes v).edge) :
    t'.visits v = t.visits v + if t.OnLine u v then 1 else 0 := by
  rw [visits, edge]
  by_cases line : AtOrBelow t.lock u v ∧ (t.lock v).isSome
  · obtain ⟨f, hf⟩ := Option.isSome_iff_exists.mp line.2
    obtain ⟨e, he⟩ := wf.exists_edge (father_of_lock hf)
    rw [if_pos line, if_pos (show t.OnLine u v from line), visits, he]
    rfl
  · rw [if_neg line, if_neg (show ¬ t.OnLine u v from line), visits]
    rfl

open Classical in
/-- An answer counts a visit on the line of its leaf. -/
theorem visits_answer_of_lt [Field K] {leaf : ℕ} {trompTaylor vl : ℤ} {scoreValue : K}
    {items : List (PolicyItem K)} (hleaf : leaf < t.next)
    (hnexts : (t.nodes leaf).nexts = none) {u : ℕ} (hu : u < t.next) :
    (t.answer leaf trompTaylor vl scoreValue items).visits u =
      t.visits u + if t.OnLine leaf u then 1 else 0 :=
  visits_of_edge wf (congrArg Node.edge (nodes_answer_of_lt wf hleaf hnexts hu))

end Line

variable [Field K] [LinearOrder K]

/-- The counts and values agree, but for a pending node: a node's count is the
sum over its children, a value is no greater than its visits, and a node with a
father was visited once more than it was passed on from. -/
structure Tallied (t : Tree K) (pending : Option ℕ) : Prop where
  total : ∀ v cs, (t.nodes v).nexts = some cs →
    (t.nodes v).totalN = (cs.map fun c => t.visits c).sum
  unexpanded : ∀ v, (t.nodes v).nexts = none → (t.nodes v).totalN = 0
  bounded : ∀ v e, (t.nodes v).edge = some e → |e.w| ≤ e.n
  processed : ∀ v, (t.lock v).isSome → (t.nodes v).evalReady = true →
    t.visits v + (if pending = some v then 1 else 0) = (t.nodes v).totalN + 1
  unprocessed : ∀ v, (t.lock v).isSome → (t.nodes v).evalReady = false →
    (t.nodes v).result = 0 → t.visits v = 0

namespace Tallied

variable {t t' : Tree K} {pending : Option ℕ}

/-- A step that keeps the lists, the counts and the values, and locks no further
father, keeps the tallies. -/
theorem of_same (h : t.Tallied pending)
    (nexts : ∀ v, (t'.nodes v).nexts = (t.nodes v).nexts)
    (edge : ∀ v, (t'.nodes v).edge.map (fun e => (e.n, e.w)) =
      (t.nodes v).edge.map fun e => (e.n, e.w))
    (totalN : ∀ v, (t'.nodes v).totalN = (t.nodes v).totalN)
    (evalReady : ∀ v, (t'.nodes v).evalReady = (t.nodes v).evalReady)
    (result : ∀ v, (t'.nodes v).result = (t.nodes v).result)
    (lock : ∀ v, (t'.lock v).isSome → (t.lock v).isSome) : t'.Tallied pending := by
  have visits (v : ℕ) : t'.visits v = t.visits v := by
    have := congrArg (Option.map Prod.fst) (edge v)
    simp only [Option.map_map] at this
    exact congrArg (Option.getD · 0) this
  constructor
  case total =>
    simpa only [nexts, totalN, visits] using h.total
  case unexpanded =>
    simpa only [nexts, totalN] using h.unexpanded
  case bounded =>
    intro v e he
    have := edge v
    rw [he, Option.map_some, eq_comm, Option.map_eq_some_iff] at this
    obtain ⟨e', he', heq⟩ := this
    obtain ⟨hn, hw⟩ := Prod.mk.inj heq
    rw [← hn, ← hw]
    exact h.bounded v e' he'
  case processed =>
    intro v hv
    rw [evalReady, visits, totalN]
    exact h.processed v (lock v hv)
  case unprocessed =>
    intro v hv
    rw [evalReady, visits, result]
    exact h.unprocessed v (lock v hv)

/-- A change of one node that keeps what the tallies read. -/
theorem of_modify (h : t.Tallied pending) (v : ℕ) (f : Node K → Node K)
    (nexts : ∀ nd, (f nd).nexts = nd.nexts) (edge : ∀ nd, (f nd).edge = nd.edge)
    (totalN : ∀ nd, (f nd).totalN = nd.totalN)
    (evalReady : ∀ nd, (f nd).evalReady = nd.evalReady)
    (result : ∀ nd, (f nd).result = nd.result)
    (lock : ∀ nd, (f nd).lock.isSome → nd.lock.isSome) : (t.modify v f).Tallied pending := by
  refine h.of_same (modify_field _ f nexts v) (fun u => ?_) (modify_field _ f totalN v)
    (modify_field _ f evalReady v) (modify_field _ f result v) (fun u hu => ?_)
  · rw [modify_field (·.edge) f edge]
  · rw [Tree.lock, nodes_modify] at hu
    split at hu
    · exact lock _ hu
    · exact hu

/-- A new root has no counts, and nothing to agree with. -/
theorem alloc (h : t.Tallied pending) (wf : t.Wf) {nd : Node K} (hnexts : nd.nexts = none)
    (hedge : nd.edge = none) (htotal : nd.totalN = 0) (hfather : nd.father = none) :
    (t.alloc nd).Tallied pending := by
  have visits {c v : ℕ} (hc : t.father c = some v) : (t.alloc nd).visits c = t.visits c := by
    rw [Tree.visits, nodes_alloc_of_ne (wf.lt_next_of_father hc).ne]
    rfl
  have unlocked : ((t.alloc nd).lock t.next) = none := by
    simp [Tree.lock, Node.lock, hfather]
  constructor
  case total =>
    intro v cs hcs
    rw [nexts_alloc wf hnexts] at hcs
    have hv : v ≠ t.next := by
      rintro rfl
      simp [(wf.fresh t.next le_rfl).2] at hcs
    rw [nodes_alloc_of_ne hv, h.total v cs hcs]
    exact congrArg List.sum (List.map_congr_left fun c hc =>
      (visits (wf.father_of_mem hcs hc)).symm)
  case unexpanded =>
    intro v hv
    rw [nexts_alloc wf hnexts] at hv
    by_cases hne : v = t.next
    · rw [hne, nodes_alloc_next, htotal]
    · rw [nodes_alloc_of_ne hne, h.unexpanded v hv]
  case bounded =>
    intro v e he
    by_cases hne : v = t.next
    · rw [hne, nodes_alloc_next, hedge] at he
      cases he
    · rw [nodes_alloc_of_ne hne] at he
      exact h.bounded v e he
  case processed =>
    intro v locked ready
    have hne : v ≠ t.next := by
      rintro rfl
      simp [unlocked] at locked
    rw [Tree.lock, nodes_alloc_of_ne hne] at locked
    rw [nodes_alloc_of_ne hne] at ready
    rw [Tree.visits, nodes_alloc_of_ne hne]
    exact h.processed v locked ready
  case unprocessed =>
    intro v locked unready result
    have hne : v ≠ t.next := by
      rintro rfl
      simp [unlocked] at locked
    rw [Tree.lock, nodes_alloc_of_ne hne] at locked
    rw [nodes_alloc_of_ne hne] at unready result
    rw [Tree.visits, nodes_alloc_of_ne hne]
    exact h.unprocessed v locked unready result

variable [IsStrictOrderedRing K]

omit [LinearOrder K] [IsStrictOrderedRing K] in
open Classical in
/-- The visits of a node after a backup. -/
theorem visits_backedUp {u v : ℕ} {tvl : ℤ} {z : K} (wf : t.Wf)
    (nodes : t'.nodes v = t.backedUp u tvl z v) :
    t'.visits v = t.visits v + if t.OnLine u v then 1 else 0 :=
  visits_of_edge wf (congrArg Node.edge nodes)

/-- **A backup keeps the tallies.**  It starts at the pending node, which is
expanded, or at a leaf that has a result and is visited again and again. -/
theorem backUp (h : t.Tallied pending) (wf : t.Wf) {u : ℕ} {vl : ℤ} {z : K} {invalidVisit : ℕ}
    (hz : |z| ≤ 1) (start : pending = some u ∧ (t.nodes u).evalReady = true ∨
      pending = none ∧ (t.nodes u).evalReady = false ∧ (t.nodes u).result ≠ 0) :
    (t.mctsBackUpdate u vl z invalidVisit).Tallied none := by
  classical
  have desc := wf.descending_lock
  have nodes := nodes_mctsBackUpdate (z := z) desc u vl invalidVisit
  have shape : SameShape t (t.mctsBackUpdate u vl z invalidVisit) :=
    SameShape.of_mctsBackUpdate desc u vl invalidVisit
  have visits (v : ℕ) := visits_backedUp wf (nodes v)
  have totalN (v : ℕ) : ((t.mctsBackUpdate u vl z invalidVisit).nodes v).totalN =
      (t.nodes v).totalN + if Below t.lock u v then 1 else 0 := by
    rw [nodes, backedUp]
  have lock (v : ℕ) : (t.mctsBackUpdate u vl z invalidVisit).lock v = t.lock v := by
    simp [Tree.lock, nodes, backedUp, Node.lock]
  constructor
  case total =>
    intro v cs hcs
    rw [shape.nexts] at hcs
    simp only [totalN, visits, h.total v cs hcs]
    rw [List.sum_map_add, sum_onLine wf hcs]
  case unexpanded =>
    intro v hv
    rw [shape.nexts] at hv
    have below : ¬ Below t.lock u v := fun below => by
      simpa [hv] using nexts_isSome_of_below wf below
    rw [totalN, if_neg below, h.unexpanded v hv]
  case bounded =>
    intro v e he
    rw [nodes, backedUp] at he
    dsimp only at he
    split at he
    · obtain ⟨e₀, he₀, rfl⟩ := Option.map_eq_some_iff.mp he
      have := abs_add_le e₀.w z
      have := h.bounded v e₀ he₀
      simp only [Edge.backUp, Nat.cast_add, Nat.cast_one]
      linarith
    · exact h.bounded v e he
  case processed =>
    intro v locked ready
    rw [lock] at locked
    rw [shape.evalReady] at ready
    have before := h.processed v locked ready
    rw [visits, totalN]
    by_cases hv : v = u
    · subst hv
      rcases start with ⟨rfl, -⟩ | ⟨-, unready, -⟩
      · have self : ¬ Below t.lock v v := not_below_self desc
        simp only [if_true] at before
        simp [OnLine, locked, self, before]
      · simp [ready] at unready
    · have other : pending ≠ some v := by
        rcases start with ⟨rfl, -⟩ | ⟨rfl, -, -⟩
        · exact fun h => hv (Option.some.inj h).symm
        · simp
      rw [if_neg other] at before
      simp only [onLine_iff_below locked hv, reduceCtorEq, if_false]
      omega
  case unprocessed =>
    intro v locked unready result
    rw [lock] at locked
    rw [shape.evalReady] at unready
    have same : ((t.mctsBackUpdate u vl z invalidVisit).nodes v).result = (t.nodes v).result := by
      rw [nodes, backedUp]
    rw [same] at result
    have leaf : v ≠ u := by
      rintro rfl
      rcases start with ⟨-, ready⟩ | ⟨-, -, hr⟩
      · simp [unready] at ready
      · exact hr result
    have below : ¬ Below t.lock u v := fun below => by
      have := (wf.ready_iff v).mpr (nexts_isSome_of_below wf below)
      simp [unready] at this
    rw [visits, if_neg (mt (onLine_iff_below locked leaf).mp below),
      h.unprocessed v locked unready result]

section Answer

variable {leaf : ℕ} {trompTaylor vl : ℤ} {scoreValue : K} {items : List (PolicyItem K)}
variable (h : t.Tallied none) (wf : t.Wf) (hleaf : leaf < t.next)
variable (hnexts : (t.nodes leaf).nexts = none) (hresult : (t.nodes leaf).result = 0)

omit [LinearOrder K] [IsStrictOrderedRing K] in
theorem visits_expandValued_of_lt {u : ℕ} (hu : u < t.next) :
    (t.expandValued leaf trompTaylor scoreValue items).visits u = t.visits u := by
  rw [visits, nodes_expandValued_of_lt hu]
  rfl

omit [LinearOrder K] [IsStrictOrderedRing K] in
/-- A new child has no visits. -/
theorem visits_expandValued_child {i : ℕ} {item : PolicyItem K} (hi : items[i]? = some item) :
    (t.expandValued leaf trompTaylor scoreValue items).visits (t.next + i) = 0 := by
  rw [visits, nodes_expandValued_child hi]
  rfl

include h wf hleaf hnexts hresult in
/-- **An expansion leaves its leaf pending**: it has children now, and its own
visit is still to be counted. -/
theorem expand : (t.expandValued leaf trompTaylor scoreValue items).Tallied (some leaf) := by
  have unready : (t.nodes leaf).evalReady = false := by
    simpa [hnexts] using (wf.ready_iff leaf).not
  constructor
  case total =>
    intro v cs hcs
    rcases expand_cases t items v with hlt | ⟨i, item, hi, rfl⟩ | hge
    · rw [nodes_expandValued_of_lt hlt] at hcs ⊢
      by_cases hv : v = leaf
      · subst hv
        obtain rfl : List.range' t.next items.length = cs := by simpa using hcs
        have zero : ∀ n ∈ (List.range' t.next items.length).map fun c =>
            (t.expandValued v trompTaylor scoreValue items).visits c, n = 0 := by
          simp only [List.mem_map, List.mem_range'_1, ← exists_child_iff]
          rintro _ ⟨_, ⟨i, item, hi, rfl⟩, rfl⟩
          exact visits_expandValued_child hi
        exact (h.unexpanded v hnexts).trans (List.sum_eq_zero zero).symm
      · have hcs : (t.nodes v).nexts = some cs := by simpa [hv] using hcs
        refine (h.total v cs hcs).trans (congrArg List.sum (List.map_congr_left fun c hc => ?_))
        exact (visits_expandValued_of_lt (wf.lt_next_of_father (wf.father_of_mem hcs hc))).symm
    · rw [nodes_expandValued_child hi] at hcs
      cases hcs
    · rw [nodes_expandValued_fresh hleaf hge, (wf.fresh v (by omega)).2] at hcs
      cases hcs
  case unexpanded =>
    intro v hv
    rcases expand_cases t items v with hlt | ⟨i, item, hi, rfl⟩ | hge
    · rw [nodes_expandValued_of_lt hlt] at hv ⊢
      by_cases hne : v = leaf
      · simp [hne] at hv
      · exact h.unexpanded v (by simpa [hne] using hv)
    · rw [nodes_expandValued_child hi]
      rfl
    · rw [nodes_expandValued_fresh hleaf hge] at hv ⊢
      exact h.unexpanded v hv
  case bounded =>
    intro v e he
    rcases expand_cases t items v with hlt | ⟨i, item, hi, rfl⟩ | hge
    · rw [nodes_expandValued_of_lt hlt] at he
      exact h.bounded v e he
    · rw [nodes_expandValued_child hi] at he
      obtain rfl : Edge.new item.pos item.prob = e := Option.some.inj he
      simp [Edge.new]
    · rw [nodes_expandValued_fresh hleaf hge] at he
      exact h.bounded v e he
  case processed =>
    intro v locked ready
    rcases expand_cases t items v with hlt | ⟨i, item, hi, rfl⟩ | hge
    · have old : (t.lock v).isSome := by
        rwa [lock, nodes_expandValued_of_lt hlt] at locked
      rw [nodes_expandValued_of_lt hlt] at ready ⊢
      rw [visits_expandValued_of_lt hlt]
      by_cases hv : v = leaf
      · subst hv
        simp [h.unprocessed v old unready hresult, h.unexpanded v hnexts]
      · simpa [Ne.symm hv] using h.processed v old (by simpa [hv] using ready)
    · rw [nodes_expandValued_child hi] at ready
      cases ready
    · have := (wf.ready_iff v).not.mpr (by simp [(wf.fresh v (by omega)).2])
      rw [nodes_expandValued_fresh hleaf hge] at ready
      exact absurd ready this
  case unprocessed =>
    intro v locked unready result
    rcases expand_cases t items v with hlt | ⟨i, item, hi, rfl⟩ | hge
    · have locked : (t.lock v).isSome := by
        rwa [lock, nodes_expandValued_of_lt hlt] at locked
      rw [nodes_expandValued_of_lt hlt] at unready result
      rw [visits_expandValued_of_lt hlt]
      by_cases hv : v = leaf
      · simp [hv] at unready
      · exact h.unprocessed v locked (by simpa [hv] using unready) result
    · exact visits_expandValued_child hi
    · rw [lock, nodes_expandValued_fresh hleaf hge] at locked
      rw [nodes_expandValued_fresh hleaf hge] at unready result
      rw [visits, nodes_expandValued_fresh hleaf hge]
      exact h.unprocessed v locked unready result

include h wf hleaf hnexts hresult in
/-- **An answer keeps the tallies**, being an expansion and the backup of the
leaf that it leaves pending. -/
theorem answer (hz : |scoreValue| ≤ 1) :
    (t.answer leaf trompTaylor vl scoreValue items).Tallied none := by
  have wf' : (t.expandValued leaf trompTaylor scoreValue items).Wf :=
    wf_expandValued wf hleaf hnexts
  refine (expand h wf hleaf hnexts hresult).backUp wf' hz (.inl ⟨rfl, ?_⟩)
  rw [nodes_expandValued_of_lt hleaf]
  simp

end Answer

end Tallied

end Tree

end EstarGo
