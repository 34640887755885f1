import EstarGo.Board.Stones
import EstarGo.Tree.BackUpdate
import EstarGo.Tree.Expand
import EstarGo.Tree.Select

/-!
# Backup undoes the descents

A descent from the root adds virtual loss to the edges between the root and its
leaf.  When `k + 1` descents ended at a leaf, whichever others came between,
`mcts_back_update` with `invalid_visit = k` removes what they added, and each
edge holds again what the other descents alone would have left.

## Main definitions

* `Descended` — a tree after descents: other virtual losses, perhaps other
  results.
* `Descents` — descents from the root, one after the other, and the leaves they
  end at.
* `selectAll` — calls of `mcts_select_path_root`.
* `Rooted` — where the descents start, the father pointers end.

## Main results

* `Descents.descended`: what descents add to an edge.
* `Descents.exists_filter`: some of the descents can be made alone.
* `backup_undoes_descents`: backup undoes them.

## Design notes

**Charges.**  A descent adds `virtual_loss` once to each edge on its way.  So
what many descents add to an edge is a number of crossings, which can be counted
from the leaves alone: the way to a leaf is given by the pointers.

**The others alone.**  Without some descents the others need not reach the same
leaves by the scores.  They reach them by walks, which go where they are told,
and a walk is all that the charges depend on.
-/

namespace EstarGo

open Verif

variable {B K : Type}

namespace Tree

/-- The edge of `v` lies between the root and `u`: `v` is below the root, and
`u` is at or below `v`. -/
def OnWay (t : Tree K) (root u v : ℕ) : Prop := Below t.father v root ∧ AtOrBelow t.father u v

open Classical in
/-- How many of the descents to these leaves cross the edge of a node.  A leaf
occurs in the list as often as a descent has ended at it. -/
noncomputable def crossings (t : Tree K) (root : ℕ) (leaves : List ℕ) (v : ℕ) : ℕ :=
  leaves.countP (t.OnWay root · v)

/-- Two trees that differ in virtual losses, by the given amounts, and in
results.  A descent may decide a node on its way, which charges no edge. -/
structure Descended (t t' : Tree K) (charge : ℕ → ℤ) : Prop where
  next : t'.next = t.next
  nodes : ∀ v, ∃ ended result, t'.nodes v =
    { t.nodes v with
      edge := (t.nodes v).edge.map fun e => { e with vl := e.vl + charge v }
      isTerminate := ended
      result := result }

namespace Descended

variable {t t' t'' : Tree K} {charge charge' : ℕ → ℤ}

theorem refl (t : Tree K) : Descended t t fun _ => 0 := by
  refine ⟨rfl, fun v => ⟨(t.nodes v).isTerminate, (t.nodes v).result, ?_⟩⟩
  simp

/-- Charges of one tree after the other add up. -/
theorem trans (h : Descended t t' charge) (h' : Descended t' t'' charge') :
    Descended t t'' fun v => charge v + charge' v := by
  refine ⟨h'.next.trans h.next, fun v => ?_⟩
  obtain ⟨_, _, first⟩ := h.nodes v
  obtain ⟨ended, result, second⟩ := h'.nodes v
  refine ⟨ended, result, ?_⟩
  rw [second, first]
  simp [Function.comp_def, add_assoc]

/-- Only the values of the charges matter. -/
theorem congr (h : Descended t t' charge) (same : ∀ v, charge v = charge' v) :
    Descended t t' charge' := by
  obtain rfl : charge = charge' := funext same
  exact h

theorem sameShape (h : Descended t t' charge) : SameShape t t' := by
  refine ⟨h.next, fun v => ?_⟩
  obtain ⟨_, _, here⟩ := h.nodes v
  rw [here]
  simp [Node.shape, Function.comp_def]

theorem lock (h : Descended t t' charge) : t'.lock = t.lock := by
  funext v
  obtain ⟨_, _, here⟩ := h.nodes v
  rw [Tree.lock, here]
  rfl

/-- The virtual loss of an edge grows by the charge. -/
theorem vl (h : Descended t t' charge) (v : ℕ) :
    (t'.nodes v).edge.map (·.vl) = (t.nodes v).edge.map fun e => e.vl + charge v := by
  obtain ⟨_, _, here⟩ := h.nodes v
  rw [here]
  simp [Function.comp_def]

theorem of_decideBy (t : Tree K) (v best : ℕ) (won : Bool) (max : ℤ) :
    Descended t (t.decideBy v best won max) fun _ => 0 := by
  refine decideBy_of_decideNode (Q := (Descended t · fun _ => 0)) v best won max (refl t)
    fun t' r h => ?_
  refine ⟨h.next, fun u => ?_⟩
  obtain ⟨ended, result, here⟩ := h.nodes u
  rw [decideNode, nodes_modify]
  split
  · exact ⟨true, r, by rw [here]⟩
  · exact ⟨ended, result, here⟩

theorem of_addVl (t : Tree K) (c : ℕ) (vl : ℤ) :
    Descended t (t.addVl c vl) fun v => if v = c then vl else 0 := by
  refine ⟨rfl, fun v => ⟨(t.nodes v).isTerminate, (t.nodes v).result, ?_⟩⟩
  rw [addVl, modifyEdge, nodes_modify]
  split
  · rfl
  · simp

end Descended

variable {P : Pachi B} {t t' : Tree K} {root v u : ℕ} {vl max max' : ℤ}
variable {board board' : GoBoard B}

/-! ## Crossings

Counting them leaf by leaf. -/

/-- Crossings depend on the pointers alone. -/
theorem crossings_congr (h : SameShape t t') (leaves : List ℕ) (v : ℕ) :
    t'.crossings root leaves v = t.crossings root leaves v := by
  have same : t'.OnWay root = t.OnWay root := by
    funext u v
    rw [OnWay, OnWay, h.father]
  rw [crossings, crossings, same]

/-- One more descent adds its own crossings. -/
theorem crossings_cons (t : Tree K) (root u : ℕ) (leaves : List ℕ) (v : ℕ) :
    t.crossings root (u :: leaves) v = t.crossings root [u] v + t.crossings root leaves v := by
  rw [← List.singleton_append, crossings, List.countP_append, crossings, crossings]

open Classical in
/-- One descent crosses an edge once or not at all. -/
theorem crossings_singleton (t : Tree K) (root u v : ℕ) :
    t.crossings root [u] v = if t.OnWay root u v then 1 else 0 := by
  simp [crossings, List.countP_cons]

/-- The descents to one leaf, and the others. -/
theorem crossings_eq (t : Tree K) (root : ℕ) (leaves : List ℕ) (leaf v : ℕ) :
    t.crossings root leaves v = t.crossings root (leaves.filter (· ≠ leaf)) v +
      t.crossings root [leaf] v * leaves.count leaf := by
  induction leaves with
  | nil => simp [crossings]
  | cons u leaves ih =>
      rw [crossings_cons, ih, List.filter_cons, List.count_cons]
      by_cases hu : u = leaf
      · subst hu
        simp
        ring
      · rw [if_pos (by simpa using hu), crossings_cons t root u (leaves.filter _),
          if_neg (by simpa using hu)]
        ring

/-! ## One descent

A walk goes along a path, and the path crosses the edges between its ends
once. -/

/-- A walk adds the virtual loss along a path, whether nodes are decided on it
or not. -/
theorem Walk.exists_path_descended (wf : t.Wf) (h : Walk P vl t v max board t' u max' board') :
    ∃ path, Path P t v board path u board' ∧ Descended t t' fun x => path.count x * vl := by
  induction h with
  | stop t v max board =>
      refine ⟨[], .nil v board, ?_⟩
      simpa using Descended.refl t
  | @step t v max board nexts c won action board' t' u max' board'' ready hnexts mem _ haction
      applied _ ih =>
      have entered := (Descended.of_decideBy t v c won max).trans (Descended.of_addVl _ c vl)
      obtain ⟨path, hpath, rest⟩ := ih (wf.of_sameShape entered.sameShape)
      refine ⟨c :: path, .cons ready (wf.father_of_mem hnexts mem) haction applied
        (hpath.of_sameShape entered.sameShape), ?_⟩
      refine (entered.trans rest).congr fun x => ?_
      by_cases hx : x = c
      · subst hx
        simp
        ring
      · simp [hx, Ne.symm hx]

/-- **What a descent adds**: the virtual loss, to each edge on the way to its
leaf. -/
theorem Walk.descended (wf : t.Wf) (h : Walk P vl t root max board t' u max' board') :
    Descended t t' fun v => t.crossings root [u] v * vl := by
  classical
  obtain ⟨path, hpath, descended⟩ := h.exists_path_descended wf
  have count (v : ℕ) : path.count v = t.crossings root [u] v := by
    by_cases below : Below t.father v root
    · rw [hpath.count_eq wf below, crossings_singleton]
      simp [OnWay, below]
    · have elsewhere : v ∉ path := fun h => below (hpath.below_of_mem h)
      rw [List.count_eq_zero_of_not_mem elsewhere, crossings_singleton]
      simp [OnWay, below]
  simpa only [count] using descended

/-! ## Many descents

By induction on the descents, with the charges of the rest. -/

/-- Descents from the root, one after the other, and the leaves that they end
at.  Each of them may be for either side, and starts from the tree that the one
before it has left. -/
inductive Descents (P : Pachi B) (vl : ℤ) (root : ℕ) : Tree K → List ℕ → Tree K → Prop where
  | nil (t : Tree K) : Descents P vl root t [] t
  | cons {t t₁ t' : Tree K} {u : ℕ} {max max' : ℤ} {board board' : GoBoard B} {leaves : List ℕ}
      (walk : Walk P vl t root max board t₁ u max' board')
      (rest : Descents P vl root t₁ leaves t') : Descents P vl root t (u :: leaves) t'

/-- **What descents add**: the virtual loss, as often as they cross an edge. -/
theorem Descents.descended {leaves : List ℕ} (wf : t.Wf) (h : Descents P vl root t leaves t') :
    Descended t t' fun v => t.crossings root leaves v * vl := by
  induction h with
  | nil t => simpa [crossings] using Descended.refl t
  | @cons t t₁ t' u _ _ _ _ leaves walk _ ih =>
      have first := walk.descended wf
      refine (first.trans (ih (wf.of_sameShape first.sameShape))).congr fun v => ?_
      rw [crossings_congr first.sameShape, crossings_cons t root u leaves, Nat.cast_add, add_mul]

/-- The way to a leaf can be gone again, in any tree of the same shape. -/
theorem Path.exists_walk {path : List ℕ} (h : Path P t v board path u board') (wf : t.Wf) (vl : ℤ)
    {s : Tree K} (same : SameShape t s) (max : ℤ) :
    ∃ s' max', Walk P vl s v max board s' u max' board' := by
  induction h generalizing s max with
  | nil v board => exact ⟨s, max, .stop s v max board⟩
  | @cons v board c action board' path u board'' ready father haction applied _ ih =>
      obtain ⟨nexts, hnexts, mem⟩ := (wf.child_iff c v).mp father
      have entered := (SameShape.of_decideBy s v c false max).trans (SameShape.of_addVl c vl)
      obtain ⟨s', max', rest⟩ := ih (same.trans entered) (-max)
      refine ⟨s', max', .step ?_ ?_ mem (fun _ => rfl) ?_ applied rest⟩
      · rw [same.evalReady, ready]
      · rw [same.nexts, hnexts]
      · rw [same.action, haction]

/-- Some of the descents can be made alone, from any tree of the same shape.
They need not be what the scans would choose there; they are walks to the same
leaves. -/
theorem Descents.exists_filter {leaves : List ℕ} (wf : t.Wf) (h : Descents P vl root t leaves t')
    (kept : ℕ → Bool) {s : Tree K} (same : SameShape t s) :
    ∃ s', Descents P vl root s (leaves.filter kept) s' := by
  induction h generalizing s with
  | nil t => exact ⟨s, .nil s⟩
  | @cons t t₁ t' u max _ _ _ leaves walk _ ih =>
      have first := (walk.descended wf).sameShape
      have back : SameShape t₁ t := ⟨first.next.symm, fun v => (first.shape v).symm⟩
      rw [List.filter_cons]
      split
      · obtain ⟨path, hpath, -⟩ := walk.exists_path_descended wf
        obtain ⟨s₁, max', again⟩ := hpath.exists_walk wf vl same max
        have gone := (again.descended (wf.of_sameShape same)).sameShape
        obtain ⟨s', rest⟩ := ih (wf.of_sameShape first) (back.trans (same.trans gone))
        exact ⟨s', .cons again rest⟩
      · exact ih (wf.of_sameShape first) (back.trans same)

/-- A call of `mcts_select_path_root`. -/
structure SelectCall (B : Type) where
  max : ℤ
  board : GoBoard B
  rolloutRemain : ℤ

section SelectAll

variable [Field K] [LinearOrder K] {cfg : Settings K}

/-- Selections one after the other, and the leaves that they return.  `none`
where one of them does not return. -/
def selectAll (P : Pachi B) (cfg : Settings K) (root : ℕ) :
    Tree K → List (SelectCall B) → Option (List ℕ × Tree K)
  | t, [] => some ([], t)
  | t, call :: calls =>
      match t.mctsSelectPathRoot P cfg root call.max call.board call.rolloutRemain with
      | .leaf t' leaf _ _ => (selectAll P cfg root t' calls).map fun r => (leaf :: r.1, r.2)
      | _ => none

theorem descents_of_selectAll {calls : List (SelectCall B)} {leaves : List ℕ}
    (h : selectAll P cfg root t calls = some (leaves, t')) :
    Descents P cfg.virtualLoss root t leaves t' := by
  induction calls generalizing t leaves with
  | nil =>
      cases h
      exact .nil _
  | cons call calls ih =>
      rw [selectAll] at h
      split at h
      · next t₁ leaf _ _ found =>
          obtain ⟨⟨leaves, t'⟩, rest, split⟩ := Option.map_eq_some_iff.mp h
          cases split
          exact .cons (walk_of_mctsSelectPathRoot found) (ih rest)
      · cases h

end SelectAll

/-! ## Backup

What `mcts_back_update` takes away, against what the descents to its leaf have
added. -/

/-- Nothing is above the root, and the father pointers below it are there.  So a
backup from below the root ends at the root. -/
structure Rooted (t : Tree K) (root : ℕ) : Prop where
  wf : t.Wf
  top : t.lock root = none
  keeps : KeepsBelow t.father t.lock root

namespace Rooted

/-- What the father pointers of a node below the root reach is not above the
root. -/
theorem atOrBelow_of_line (h : t.Rooted root) (above : AtOrBelow t.father u root)
    (line : AtOrBelow t.lock u v) : AtOrBelow t.father v root := by
  rcases atOrBelow_total line ((h.keeps.atOrBelow_iff .refl).mpr above) with here | beyond
  · exact (h.keeps.atOrBelow_iff .refl).mp here
  · exact absurd beyond (not_below_of_none h.top)

/-- The edges that backup passes are those on the way, since no father pointer
is missing in between. -/
theorem passed_iff (h : t.Rooted root) (above : AtOrBelow t.father u root) :
    AtOrBelow t.lock u v ∧ (t.lock v).isSome ↔ t.OnWay root u v := by
  constructor
  · rintro ⟨line, locked⟩
    have here := h.atOrBelow_of_line above line
    refine ⟨?_, (h.keeps.atOrBelow_iff here).mp line⟩
    rcases atOrBelow_iff.mp here with rfl | below
    · simp [h.top] at locked
    · exact below
  · rintro ⟨below, line⟩
    obtain ⟨f, hf, -⟩ := id below
    refine ⟨(h.keeps.atOrBelow_iff below.atOrBelow).mpr line, ?_⟩
    rw [h.keeps.keeps v below, hf]
    rfl

/-- The nodes that backup counts are those strictly above the leaf, from the
root down. -/
theorem counted_iff (h : t.Rooted root) (above : AtOrBelow t.father u root) :
    Below t.lock u v ↔ AtOrBelow t.father v root ∧ Below t.father u v := by
  constructor
  · intro line
    have here := h.atOrBelow_of_line above line.atOrBelow
    exact ⟨here, (h.keeps.below_iff here).mp line⟩
  · rintro ⟨here, line⟩
    exact (h.keeps.below_iff here).mpr line

end Rooted

/-- The leaves are at or below the root. -/
theorem Descents.atOrBelow_of_mem {leaves : List ℕ} (wf : t.Wf)
    (h : Descents P vl root t leaves t') (hu : u ∈ leaves) : AtOrBelow t.father u root := by
  induction h with
  | nil => cases hu
  | cons walk _ ih =>
      rcases List.mem_cons.mp hu with rfl | hu
      · obtain ⟨path, hpath, -⟩ := walk.exists_path_descended wf
        exact hpath.atOrBelow
      · have first := (walk.descended wf).sameShape
        rw [← first.father]
        exact ih (wf.of_sameShape first) hu

open Classical in
/-- **Backup undoes the descents.**  Of the selections, `k + 1` return the leaf.
The backup changes the edges between the root and the leaf and the visits of the
nodes above the leaf, and leaves each edge with the virtual loss that the other
selections alone add. -/
theorem backup_undoes_descents [Field K] [LinearOrder K] {cfg : Settings K}
    {calls : List (SelectCall B)} {leaves : List ℕ} {leaf k : ℕ} (h : t.Rooted root)
    (selected : selectAll P cfg root t calls = some (leaves, t'))
    (count : leaves.count leaf = k + 1) (z : K) :
    (∀ v, (t'.mctsBackUpdate leaf cfg.virtualLoss z k).nodes v =
      { t'.nodes v with
        edge := if t.OnWay root leaf v
          then (t'.nodes v).edge.map fun e =>
            { e with vl := e.vl - (k + 1) * cfg.virtualLoss, n := e.n + 1, w := e.w + z }
          else (t'.nodes v).edge
        totalN := (t'.nodes v).totalN +
          if AtOrBelow t.father v root ∧ Below t.father leaf v then 1 else 0 }) ∧
      (∃ alone, Descents P cfg.virtualLoss root t (leaves.filter (· ≠ leaf)) alone) ∧
      ∀ alone, Descents P cfg.virtualLoss root t (leaves.filter (· ≠ leaf)) alone → ∀ v,
        ((t'.mctsBackUpdate leaf cfg.virtualLoss z k).nodes v).edge.map (·.vl) =
          (alone.nodes v).edge.map (·.vl) := by
  have descents := descents_of_selectAll selected
  have descended := descents.descended h.wf
  have mem : leaf ∈ leaves := List.count_pos_iff.mp (by omega)
  have above := descents.atOrBelow_of_mem h.wf mem
  have desc : Descending t'.lock := descended.lock ▸ h.wf.descending_lock
  have nodes (v : ℕ) := nodes_mctsBackUpdate (z := z) desc leaf cfg.virtualLoss k v
  simp only [backedUp, descended.lock, h.passed_iff above, h.counted_iff above] at nodes
  refine ⟨nodes, descents.exists_filter h.wf _ (SameShape.refl t), fun alone others v => ?_⟩
  -- the leaf was on the way `k + 1` times
  have ledger := crossings_eq t root leaves leaf v
  rw [count] at ledger
  obtain ⟨_, _, here⟩ := descended.nodes v
  rw [nodes, (others.descended h.wf).vl v, here, ledger, crossings_singleton]
  split
  · cases (t.nodes v).edge with
    | none => rfl
    | some e =>
        simp [Edge.backUp]
        ring
  · simp [Function.comp_def]

/-- The root after one visit of the pass. -/
def openedOnce : Tree ℚ := opened.mctsBackUpdate 1 0 (1 / 2) 0

/-- A root without a father, whose children point to it. -/
theorem rooted_openedOnce : openedOnce.Rooted 0 := by
  have wf : openedOnce.Wf :=
    wf_opened.of_sameShape (SameShape.of_mctsBackUpdate wf_opened.descending_lock 1 0 0)
  have locked : ∀ a < 3, openedOnce.lock a = openedOnce.father a := by decide +kernel
  refine ⟨wf, locked 0 (by decide), fun _ _ => father_of_lock, fun a below => ?_⟩
  obtain ⟨f, hf, -⟩ := below
  exact locked a (wf.lt_next_of_father hf)

/-- Of five selections three return the pass, and its backup takes off what
these three have added.  The edge of the stone keeps the charges of the other
two, as if they had been made alone. -/
theorem backup_undoes_descents_openedOnce : ∃ t' alone : Tree ℚ,
    selectAll pachi shippedSettings 0 openedOnce
      (List.replicate 5 ⟨1, GoBoard.new pachi, 9⟩) = some ([1, 2, 1, 2, 1], t') ∧
      Descents pachi 3 0 openedOnce [2, 2] alone ∧
      ((t'.mctsBackUpdate 1 3 (1 / 3) 2).nodes 2).edge.map (·.vl) =
        (alone.nodes 2).edge.map (·.vl) := by
  have seen : (selectAll pachi shippedSettings 0 openedOnce
      (List.replicate 5 ⟨1, GoBoard.new pachi, 9⟩)).map (·.1) = some [1, 2, 1, 2, 1] := by
    decide +kernel
  obtain ⟨⟨leaves, t'⟩, selected, rfl⟩ := Option.map_eq_some_iff.mp seen
  have count : [1, 2, 1, 2, 1].count 1 = 2 + 1 := by decide
  obtain ⟨-, ⟨alone, others⟩, undone⟩ :=
    backup_undoes_descents rooted_openedOnce selected count (1 / 3)
  exact ⟨t', alone, selected, others, undone alone others 2⟩

end Tree

end EstarGo
