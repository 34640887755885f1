import EstarGo.Board.GoBoard
import EstarGo.Lib.Forest
import Mathlib.Data.Rat.Sqrt

/-!
# Nodes and edges of the search tree

A tree is a heap of nodes under numbers: `nexts` and `father` are the pointers
of the source, and the edge from its father belongs to a node.  A node is
allocated at `next`, so a father has a smaller number than its children.

The father pointer is weak.  Where re-rooting frees the father or resets the
pointer, `fatherExpired` is set: `lock()` then finds nothing, and the number
stays as a record of what the node was below.

Counts and sums are exact here, and the scores and values are elements of an
ordered field.

## Main definitions

* `Edge`, `Node`, `Tree` — the data of `MCTSTree.h`.
* `Edge.score` — the utility of a child.
* `Tree.Wf` — the pointers agree.

## Main results

* `Wf.of_sameShape`, `Wf.alloc`: changes of values, and a new node, keep the
  pointers.

## Design notes

**Numbers for pointers.**  A node is never moved, so its number names it for the
whole run, and a tree that has changed is compared with the one before it node
by node.  A freed node keeps its number and what it held; that nobody reads it
any more is shown where it matters.

**Shape and values.**  Most steps of a search change counts, sums and flags of
nodes and no pointer.  `SameShape` is what such steps keep, and everything that
is said of fathers and children carries over by one lemma.

**Settings.**  The field that scores are in, and its square root, are
parameters.  Two sets of settings are given for the runs that are evaluated,
with the values of `conf/conf.ini`.
-/

namespace EstarGo

open Verif

/-- `struct Edge`: the action, its prior `p`, the visits `n`, the sum of values
`w`, and the virtual loss that is on it.  The values are in some ordered field;
the source has floats there. -/
structure Edge (K : Type) where
  action : ℤ
  p : K
  n : ℕ
  w : K
  vl : ℤ
  deriving DecidableEq, Repr

/-- `struct Node`.  `nexts` is none until the node is expanded, and `edge` is
none at a root that came from nowhere. -/
structure Node (K : Type) where
  nexts : Option (List ℕ)
  father : Option ℕ
  fatherExpired : Bool
  edge : Option (Edge K)
  totalN : ℕ
  invalidVisit : ℕ
  depth : ℕ
  valuePred : K
  rqSent : Bool
  evalReady : Bool
  isTerminate : Bool
  isRepetitionChecked : Bool
  isRepetition : Bool
  result : ℤ
  deriving DecidableEq, Repr

/-- The heap of nodes: what is under each number, and the number of the next
node.  A node is never removed from it, even where nothing refers to it any
more. -/
structure Tree (K : Type) where
  nodes : ℕ → Node K
  next : ℕ

/-- The settings of `Config` that the search reads, with the square root of
`<cmath>`, of which nothing is assumed here. -/
structure Settings (K : Type) where
  virtualLoss : ℤ
  cPuct : K
  policyProbThreshold : K
  resignThreshold : K
  passThreshold : K
  passAfterNMoves : ℤ
  komi : K
  sqrt : K → K

/-- The settings of `conf/conf.ini`, and the komi of the player.  Square roots
are exact on squares, which is all the runs below take them of. -/
def shippedSettings : Settings ℚ where
  virtualLoss := 3
  cPuct := 1
  policyProbThreshold := 0
  resignThreshold := 0
  passThreshold := 0
  passAfterNMoves := 0
  komi := 15 / 2
  sqrt := Rat.sqrt

/-- The same settings, with square roots to four decimals, for the runs in which
a total is not a square. -/
def finerSettings : Settings ℚ :=
  { shippedSettings with sqrt := fun x => Rat.sqrt (x * 10 ^ 8) / 10 ^ 4 }

variable {K : Type}

/-- The constructor of `Edge`, with nothing counted. -/
def Edge.new [Field K] (action : ℤ) (p : K) : Edge K := ⟨action, p, 0, 0, 0⟩

/-- The constructor of `Node`, with nothing asked and nothing known. -/
def Node.new [Field K] (father : Option ℕ) (edge : Option (Edge K)) : Node K where
  nexts := none
  father := father
  fatherExpired := false
  edge := edge
  totalN := 0
  invalidVisit := 0
  depth := 0
  valuePred := 0
  rqSent := false
  evalReady := false
  isTerminate := false
  isRepetitionChecked := false
  isRepetition := false
  result := 0

/-- `Edge::score`: the exploration term, and the mean value from the side of the
player to move.  Virtual loss counts as visits that lost; a child without visits
is judged by its father. -/
def Edge.score [Field K] (edge : Edge K) (c : K) (max : ℤ) (faW faN : K) : K :=
  let b : K := edge.vl
  let q : K := (edge.vl * max : ℤ)
  if edge.n ≠ 0 then
    c * edge.p / (1 + edge.n + b) + (edge.w - q) / (edge.n + b) * max
  else
    c * edge.p / (1 + edge.n + b) + (faW - q) / (faN + b + 1 / 10) * max

/-- What a score divides the prior by. -/
def Edge.priorDenominator [Field K] (edge : Edge K) : K := 1 + edge.n + edge.vl

/-- What a score divides the value by. -/
def Edge.valueDenominator [Field K] (edge : Edge K) (faN : K) : K :=
  if edge.n ≠ 0 then edge.n + edge.vl else faN + edge.vl + 1 / 10

/-- A score is a sum of two fractions, over these denominators, so it is defined
where both are not zero. -/
theorem Edge.score_eq [Field K] (edge : Edge K) (c : K) (max : ℤ) (faW faN : K) :
    edge.score c max faW faN = c * edge.p / edge.priorDenominator +
      ((if edge.n ≠ 0 then edge.w else faW) - (edge.vl * max : ℤ)) /
        edge.valueDenominator faN * max := by
  unfold score priorDenominator valueDenominator
  split
  · rfl
  · rfl

/-- `-1e8`, below every score: what `best_score` starts from. -/
def worstScore [Field K] : K := -(10 ^ 8)

/-- `1e-8`, which keeps a win rate without visits finite. -/
def noVisit [Field K] : K := 1 / 10 ^ 8

/-- `father.lock()`: the father, as long as the weak pointer finds it.  It stops
finding it at some time after the old root was dropped. -/
def Node.lock (nd : Node K) : Option ℕ := if nd.fatherExpired then none else nd.father

namespace Tree

variable (t : Tree K)

/-- The father links, expired or not.  The tree of all nodes there ever were is
given by them. -/
def father (v : ℕ) : Option ℕ := (t.nodes v).father

/-- The father links that `lock()` finds.  A backup climbs along these. -/
def lock (v : ℕ) : Option ℕ := (t.nodes v).lock

/-- Change one node. -/
def modify (v : ℕ) (f : Node K → Node K) : Tree K :=
  { t with nodes := fun u => if u = v then f (t.nodes u) else t.nodes u }

/-- Change the edge of a node, where it has one. -/
def modifyEdge (v : ℕ) (f : Edge K → Edge K) : Tree K :=
  t.modify v fun nd => { nd with edge := nd.edge.map f }

/-- `edge->vl += vl`. -/
def addVl (v : ℕ) (vl : ℤ) : Tree K := t.modifyEdge v fun e => { e with vl := e.vl + vl }

/-- A new node. -/
def alloc (nd : Node K) : Tree K where
  nodes u := if u = t.next then nd else t.nodes u
  next := t.next + 1

variable {t}

/-- Changing a node changes no other. -/
theorem nodes_modify (v : ℕ) (f : Node K → Node K) (u : ℕ) :
    (t.modify v f).nodes u = if u = v then f (t.nodes u) else t.nodes u := rfl

@[simp] theorem next_modify (v : ℕ) (f : Node K → Node K) : (t.modify v f).next = t.next := rfl

@[simp] theorem next_addVl (v : ℕ) (vl : ℤ) : (t.addVl v vl).next = t.next := rfl

theorem modify_modify (v : ℕ) (f g : Node K → Node K) :
    (t.modify v f).modify v g = t.modify v fun nd => g (f nd) := by
  simp only [modify]
  congr 1
  funext u
  split <;> simp [*]

/-- What a change of a node leaves alone, everywhere in the tree. -/
theorem modify_field {α : Type*} (g : Node K → α) (f : Node K → Node K)
    (hg : ∀ nd, g (f nd) = g nd) (v u : ℕ) : g ((t.modify v f).nodes u) = g (t.nodes u) := by
  rw [nodes_modify]
  split
  · exact hg _
  · rfl

/-- A field that virtual loss leaves alone. -/
theorem addVl_field {α : Type*} (g : Node K → α)
    (hg : ∀ nd edge, g { nd with edge := edge } = g nd) (v u : ℕ) (vl : ℤ) :
    g ((t.addVl v vl).nodes u) = g (t.nodes u) :=
  modify_field g _ (fun nd => hg nd _) v u

/-- An edge after virtual loss was added to one. -/
theorem exists_edge_of_addVl {v u : ℕ} {vl : ℤ} {e' : Edge K}
    (h : ((t.addVl v vl).nodes u).edge = some e') : ∃ e, (t.nodes u).edge = some e ∧
      e' = { e with vl := e.vl + if u = v then vl else 0 } := by
  rw [addVl, modifyEdge, nodes_modify] at h
  split at h
  · next same =>
      obtain ⟨e, he, rfl⟩ := Option.map_eq_some_iff.mp h
      exact ⟨e, he, by rw [if_pos same]⟩
  · next other => exact ⟨e', h, by rw [if_neg other, add_zero]⟩

end Tree

/-! ## Shape

The fields of a node that a search does not change once the node is expanded. -/

/-- What a node keeps from its expansion on.  Counts, values, virtual loss and
the flags of decisions are not part of it. -/
structure Shape where
  nexts : Option (List ℕ)
  father : Option ℕ
  action : Option ℤ
  depth : ℕ
  evalReady : Bool

/-- The shape of a node. -/
def Node.shape (nd : Node K) : Shape :=
  ⟨nd.nexts, nd.father, nd.edge.map (·.action), nd.depth, nd.evalReady⟩

namespace Tree

/-- Two trees with the same nodes, pointers and actions.  Their counts, values
and flags may differ. -/
structure SameShape (t t' : Tree K) : Prop where
  next : t'.next = t.next
  shape : ∀ v, (t'.nodes v).shape = (t.nodes v).shape

/-- The pointers of a tree agree: children know their father and have an edge,
fathers are older, and exactly the expanded nodes have a list of children. -/
structure Wf (t : Tree K) : Prop where
  fresh : ∀ v, t.next ≤ v → t.father v = none ∧ (t.nodes v).nexts = none
  descending : Descending t.father
  child_iff : ∀ c v, t.father c = some v ↔ ∃ cs, (t.nodes v).nexts = some cs ∧ c ∈ cs
  nodup : ∀ v cs, (t.nodes v).nexts = some cs → cs.Nodup
  edge : ∀ c v, t.father c = some v → ((t.nodes c).edge.map (·.action)).isSome
  ready_iff : ∀ v, (t.nodes v).evalReady = true ↔ (t.nodes v).nexts.isSome

variable {t t' : Tree K}

theorem SameShape.refl (t : Tree K) : SameShape t t := ⟨rfl, fun _ => rfl⟩

theorem SameShape.trans {t'' : Tree K} (h : SameShape t t') (h' : SameShape t' t'') :
    SameShape t t'' :=
  ⟨h'.next.trans h.next, fun v => (h'.shape v).trans (h.shape v)⟩

theorem SameShape.father (h : SameShape t t') : t'.father = t.father :=
  funext fun v => congrArg Shape.father (h.shape v)

theorem SameShape.nexts (h : SameShape t t') (v : ℕ) :
    (t'.nodes v).nexts = (t.nodes v).nexts := congrArg Shape.nexts (h.shape v)

theorem SameShape.action (h : SameShape t t') (v : ℕ) :
    (t'.nodes v).edge.map (·.action) = (t.nodes v).edge.map (·.action) :=
  congrArg Shape.action (h.shape v)

theorem SameShape.depth (h : SameShape t t') (v : ℕ) :
    (t'.nodes v).depth = (t.nodes v).depth := congrArg Shape.depth (h.shape v)

theorem SameShape.evalReady (h : SameShape t t') (v : ℕ) :
    (t'.nodes v).evalReady = (t.nodes v).evalReady := congrArg Shape.evalReady (h.shape v)

/-- So what changes no pointer keeps them in agreement. -/
theorem Wf.of_sameShape (wf : t.Wf) (h : SameShape t t') : t'.Wf := by
  constructor
  case fresh =>
    simpa only [h.next, h.father, h.nexts] using wf.fresh
  case descending =>
    simpa only [h.father] using wf.descending
  case child_iff =>
    simpa only [h.father, h.nexts] using wf.child_iff
  case nodup =>
    simpa only [h.nexts] using wf.nodup
  case edge =>
    simpa only [h.father, h.action] using wf.edge
  case ready_iff =>
    simpa only [h.evalReady, h.nexts] using wf.ready_iff

/-- Changing a node in something else than its shape. -/
theorem SameShape.of_modify (v : ℕ) (f : Node K → Node K)
    (hf : ∀ nd, (f nd).shape = nd.shape) : SameShape t (t.modify v f) :=
  ⟨rfl, modify_field Node.shape f hf v⟩

/-- Changing an edge in something else than its action. -/
theorem SameShape.of_modifyEdge (v : ℕ) {f : Edge K → Edge K}
    (hf : ∀ e, (f e).action = e.action) : SameShape t (t.modifyEdge v f) := by
  refine SameShape.of_modify v _ fun nd => ?_
  cases hedge : nd.edge <;> simp [Node.shape, hedge, hf]

theorem SameShape.of_addVl (v : ℕ) (vl : ℤ) : SameShape t (t.addVl v vl) :=
  SameShape.of_modifyEdge v fun _ => rfl

/-- A child of an expanded node. -/
theorem Wf.father_of_mem (wf : t.Wf) {v c : ℕ} {cs : List ℕ}
    (hcs : (t.nodes v).nexts = some cs) (hc : c ∈ cs) : t.father c = some v :=
  (wf.child_iff c v).mpr ⟨cs, hcs, hc⟩

/-- A child has an edge, which the source dereferences without asking. -/
theorem Wf.exists_edge (wf : t.Wf) {v c : ℕ} (h : t.father c = some v) :
    ∃ e, (t.nodes c).edge = some e := by
  have := wf.edge c v h
  rwa [Option.isSome_map, Option.isSome_iff_exists] at this

/-- What has a father has been allocated. -/
theorem Wf.lt_next_of_father (wf : t.Wf) {v c : ℕ} (h : t.father c = some v) : c < t.next := by
  by_contra hge
  have := (wf.fresh c (Nat.le_of_not_lt hge)).1
  simp [h] at this

/-- Nothing is below an unused number. -/
theorem Wf.not_below_next (wf : t.Wf) (v : ℕ) : ¬ Below t.father v t.next := by
  intro h
  obtain ⟨f, -, hf⟩ := exists_child_of_below h
  have := wf.descending f _ hf
  have := wf.lt_next_of_father hf
  omega

/-! ## A new root

A root is allocated when a move leads out of the tree.  It is a node that no
other points to. -/

section Alloc

variable (wf : t.Wf) {nd : Node K} (hfather : nd.father = none) (hnexts : nd.nexts = none)

theorem nodes_alloc_of_ne {u : ℕ} (hu : u ≠ t.next) : (t.alloc nd).nodes u = t.nodes u := by
  simp [alloc, hu]

@[simp] theorem nodes_alloc_next : (t.alloc nd).nodes t.next = nd := by simp [alloc]

include wf hfather in
/-- An unused number had no father either. -/
theorem father_alloc : (t.alloc nd).father = t.father := by
  funext u
  by_cases hu : u = t.next
  · rw [hu, (wf.fresh t.next le_rfl).1]
    simp [father, hfather]
  · simp [father, nodes_alloc_of_ne hu]

include wf hnexts in
theorem nexts_alloc (u : ℕ) : ((t.alloc nd).nodes u).nexts = (t.nodes u).nexts := by
  by_cases hu : u = t.next
  · rw [hu, nodes_alloc_next, hnexts, (wf.fresh t.next le_rfl).2]
  · rw [nodes_alloc_of_ne hu]

include wf hfather hnexts in
/-- A new node has no children and no father that knows of it, so the pointers
still agree. -/
theorem Wf.alloc (ready : nd.evalReady = false) : (t.alloc nd).Wf := by
  have father := father_alloc wf hfather
  have nexts := nexts_alloc wf hnexts
  constructor
  case fresh =>
    intro v hv
    rw [father, nexts]
    exact wf.fresh v (Nat.le_of_succ_le hv)
  case descending =>
    simpa only [father] using wf.descending
  case child_iff =>
    simpa only [father, nexts] using wf.child_iff
  case nodup =>
    simpa only [nexts] using wf.nodup
  case edge =>
    intro c v h
    rw [father] at h
    rw [nodes_alloc_of_ne (wf.lt_next_of_father h).ne]
    exact wf.edge c v h
  case ready_iff =>
    intro v
    rw [nexts]
    by_cases hv : v = t.next
    · subst hv
      simp [ready, (wf.fresh t.next le_rfl).2]
    · rw [nodes_alloc_of_ne hv]
      exact wf.ready_iff v

end Alloc

/-- The heap without a node. -/
def empty [Field K] : Tree K := ⟨fun _ => Node.new none none, 0⟩

/-- There is nothing to agree on in an empty heap. -/
theorem wf_empty [Field K] : (empty : Tree K).Wf := by
  constructor
  case fresh => exact fun _ _ => ⟨rfl, rfl⟩
  case child_iff => simp [father, empty, Node.new]
  case ready_iff => simp [empty, Node.new]
  case descending =>
    intro c v h
    cases h
  case nodup =>
    intro v cs h
    cases h
  case edge =>
    intro c v h
    cases h

end Tree

end EstarGo
