import EstarGo.Player.Expansion
import EstarGo.Player.PriorOrder

/-!
# When the early break changes the choice

Below the root, whatever stands behind the first unmarked child without a visit
is untouched: no descent, request or backup has reached it, and its score is a
matter of its prior.

The first unmarked child without a visit can hold virtual loss of rollouts
without a reply.  Then an untouched child behind it can have the greater score,
and the scan does not see it.

## Main definitions

* `Ordered` — the children below the root stand in order.

## Main results

* `ordered_run`: what stands behind an unmarked child without a visit is
  untouched.
* `early_break`: what the scan finds, and when a full scan finds the same.
* `early_break_changes_choice`: with one search thread they can differ.

## Design notes

**What the break costs.**  Children stand in the order of their priors, so among
untouched children the first is the best, and the scan may stop at it.  The
argument fails for a child that is not untouched although it has no visit, and
that is a child with virtual loss.
-/

namespace EstarGo

open Verif

variable {B K : Type} [Field K] [LinearOrder K]

/-- The children below the root stand in order: what stands behind an unmarked
child without a visit is untouched.  The root itself is left out, since the
source scans its children with another function. -/
def Ordered (s : Player B K) : Prop :=
  ∀ root, s.root = some root → ∀ v, Below s.tree.father v root →
    ∀ cs, (s.tree.nodes v).nexts = some cs → cs.Pairwise (Behind s)

section Steps

variable {P : Pachi B} {cfg : Settings K} {s : Player B K}

/-- **Behind a child that ends the scan nothing was touched.**  This holds in
every run whose replies keep their promises, and is what makes the break at such
a child a matter of its priors alone. -/
theorem ordered_run [IsStrictOrderedRing K] {board : GoBoard B} {as : List (Action K)}
    (promised : ∀ a ∈ as, a.Bounded ∧ a.Served)
    (run : (playerMachine P cfg).exec (Player.start board) as = some s) :
    Kept P s ∧ Ordered s :=
  ⟨kept_run (kept_start board) promised run,
    fun root hroot v below => (inOrder_run run).2 root hroot v below.atOrBelow⟩

/-! ## The choice

A full scan, split at the first child without a visit. -/

section Choice

variable {cs : List ℕ} (ordered : cs.Pairwise (Behind s))
include ordered

/-- What the scan leaves out is untouched, and stands behind the first child
without a visit. -/
theorem behind_stop {x : ℕ} (hx : x ∈ after s.tree.unvisited (s.tree.unmarked cs)) :
    ∃ u, (s.tree.unmarked cs).find? s.tree.unvisited = some u ∧
      u ∈ upTo s.tree.unvisited (s.tree.unmarked cs) ∧ Behind s u x ∧ Untouched s x := by
  obtain ⟨u, first, looked, l₁, split⟩ := exists_stop hx
  have pairwise : (s.tree.unmarked cs).Pairwise (Behind s) := ordered.filter _
  rw [split, List.pairwise_append] at pairwise
  have behind := List.rel_of_pairwise_cons pairwise.2.1 hx
  have unmarked : (s.tree.nodes u).skipped = false := by
    simpa using (List.mem_filter.mp (List.mem_of_find?_eq_some first)).2
  have unvisited : s.tree.visits u = 0 := by
    simpa [Tree.unvisited] using List.find?_some first
  exact ⟨u, first, looked, behind, behind.untouched ⟨unmarked, unvisited⟩⟩

/-- What the scan leaves out does not increase, since its priors do not. -/
theorem pairwise_after [IsStrictOrderedRing K] {v : ℕ} {max : ℤ} {c : K} (hc : 0 ≤ c) :
    (after s.tree.unvisited (s.tree.unmarked cs)).Pairwise fun x y =>
      s.tree.childScore v max c y ≤ s.tree.childScore v max c x := by
  have behind : (after s.tree.unvisited (s.tree.unmarked cs)).Pairwise (Behind s) := by
    have all : (s.tree.unmarked cs).Pairwise (Behind s) := ordered.filter _
    rw [← upTo_append_after s.tree.unvisited (s.tree.unmarked cs), List.pairwise_append] at all
    exact all.2.1
  refine behind.imp_of_mem fun {x y} hx hy behind => ?_
  obtain ⟨-, -, -, -, untouched⟩ := behind_stop ordered hx
  obtain ⟨-, -, -, -, untouched'⟩ := behind_stop ordered hy
  obtain ⟨e, he, visits, vl⟩ := untouched.edge
  obtain ⟨e', he', visits', vl'⟩ := untouched'.edge
  exact Tree.childScore_le_of_untouched hc he he' visits visits' vl vl' behind.prior

/-- A first child without a visit or virtual loss is not exceeded by what the
scan leaves out. -/
theorem le_stop [IsStrictOrderedRing K] {v : ℕ} {max : ℤ} {c : K} (hc : 0 ≤ c)
    (idle : ∀ u ∈ (s.tree.unmarked cs).find? s.tree.unvisited, s.tree.vl u = 0)
    (wf : ∀ i ∈ cs, ∃ e, (s.tree.nodes i).edge = some e) {x : ℕ}
    (hx : x ∈ after s.tree.unvisited (s.tree.unmarked cs)) :
    ∃ u ∈ upTo s.tree.unvisited (s.tree.unmarked cs),
      s.tree.childScore v max c x ≤ s.tree.childScore v max c u := by
  obtain ⟨u, first, looked, behind, untouched⟩ := behind_stop ordered hx
  obtain ⟨e, he⟩ := wf u (List.mem_filter.mp (List.mem_of_find?_eq_some first)).1
  obtain ⟨e', he', visits', vl'⟩ := untouched.edge
  have visits : e.n = 0 := by
    simpa [Tree.unvisited, Tree.visits, he] using List.find?_some first
  have vl : e.vl = 0 := by simpa [Tree.vl, he] using idle u first
  exact ⟨u, looked, Tree.childScore_le_of_untouched hc he he' visits visits' vl vl' behind.prior⟩

end Choice

/-- **The early break.**  Below the root `mcts_select_path` enters the first
child of greatest score among the unmarked children up to the first without a
visit.  That is the first of greatest score among all the unmarked ones exactly
if the next of them does not exceed each of these; so it is where the first
without a visit holds no virtual loss. -/
theorem early_break [IsStrictOrderedRing K] (sane : cfg.Sane) {board : GoBoard B}
    {as : List (Action K)} (promised : ∀ a ∈ as, a.Bounded ∧ a.Served)
    (run : (playerMachine P cfg).exec (Player.start board) as = some s) {root v : ℕ}
    (hroot : s.root = some root) (below : Below s.tree.father v root) {cs : List ℕ}
    (hcs : (s.tree.nodes v).nexts = some cs) {max : ℤ} (hmax : max = 1 ∨ max = -1) {c : K}
    (hc : 0 ≤ c) :
    ∃ best, s.tree.bestChild v max c = some best ∧
      (c = Tree.exploration cfg (s.tree.nodes v) → ∀ fuel board,
        Tree.mctsSelectPath P cfg (fuel + 1) s.tree v max board =
          Tree.enterChild P cfg s.tree v best false max board fun t board =>
            Tree.mctsSelectPath P cfg fuel t best (-max) board) ∧
      (upTo s.tree.unvisited (s.tree.unmarked cs)).argmax (s.tree.childScore v max c) =
        some best ∧
      ((s.tree.unmarked cs).argmax (s.tree.childScore v max c) = some best ↔
        ∀ next ∈ (after s.tree.unvisited (s.tree.unmarked cs)).head?,
          ∃ u ∈ upTo s.tree.unvisited (s.tree.unmarked cs),
            s.tree.childScore v max c next ≤ s.tree.childScore v max c u) ∧
      ((∀ u ∈ (s.tree.unmarked cs).find? s.tree.unvisited, s.tree.vl u = 0) →
        (s.tree.unmarked cs).argmax (s.tree.childScore v max c) = some best) := by
  obtain ⟨kept, ordered⟩ := ordered_run promised run
  have searchable := searchable_of_run sane promised run hroot
  have pairwise := ordered root hroot v below cs hcs
  have loop := searchable.bestChild_eq_argmax hc hmax below.atOrBelow hcs
  -- the pass is not marked, so the scan looks at some child
  obtain ⟨pass, hpass, unmarked⟩ := kept.escape hcs
  have mem : pass ∈ s.tree.unmarked cs :=
    List.mem_filter.mpr ⟨hpass, by simp [Node.skipped, unmarked]⟩
  have nonempty : upTo s.tree.unvisited (s.tree.unmarked cs) ≠ [] :=
    upTo_eq_nil_iff.not.mpr (List.ne_nil_of_mem mem)
  obtain ⟨best, hbest⟩ := Option.ne_none_iff_exists'.mp
    ((List.argmax_eq_none (f := s.tree.childScore v max c)).not.mpr nonempty)
  have full := argmax_upTo_iff (pairwise_after pairwise hc) hbest
  refine ⟨best, loop.trans hbest, ?_, hbest, full, fun idle => full.mpr fun next hnext => ?_⟩
  · rintro rfl fuel board
    have ready := (kept.wf.wf.ready_iff v).mpr (by simp [hcs])
    exact Tree.mctsSelectPath_eq_enterChild searchable.undecided ready (loop.trans hbest) fuel
  · have edge (i : ℕ) (hi : i ∈ cs) : ∃ e, (s.tree.nodes i).edge = some e :=
      kept.wf.wf.exists_edge (kept.wf.wf.father_of_mem hcs hi)
    exact le_stop pairwise hc idle edge (List.mem_of_mem_head? hnext)

end Steps

/-- One thread sends the root, its first child and that child's first child. -/
def pendingRun : List (Action ℚ) :=
  [.select 1 9, .decide 0, .reply 0 0 [⟨72, 1⟩, ⟨-1, 0⟩], .select 1 8, .decide 0,
    .reply 0 0 [⟨60, 3 / 5⟩, ⟨-1, 2 / 5⟩], .select 1 7, .decide 0]

/-- With the node opened, before its child is sent, both scans find the same
child: its sibling has the smaller prior, and neither has been visited or
charged. -/
theorem early_break_pending : ∃ (s : Player Stones ℚ) (best : ℕ),
    s.tree.bestChild 1 (-1) 1 = some best ∧
      (s.tree.unmarked [3, 4]).argmax (s.tree.childScore 1 (-1) 1) = some best := by
  have seen : (((playerMachine pachi shippedSettings).exec newGame (pendingRun.take 6)).map
      fun s => (s.root, s.tree.father 1, (s.tree.nodes 1).nexts,
        ((s.tree.unmarked [3, 4]).find? s.tree.unvisited).map s.tree.vl)) =
          some (some 0, some 0, some [3, 4], some 0) := by decide +kernel
  obtain ⟨s, run, counts⟩ := Option.map_eq_some_iff.mp seen
  simp only [Prod.mk.injEq] at counts
  obtain ⟨hroot, father, hcs, idle⟩ := counts
  obtain ⟨best, hbest, -, -, -, full⟩ := early_break sane_shippedSettings (by decide +kernel) run
    hroot (below_of_father father) hcs (.inr rfl) zero_le_one
  refine ⟨s, best, hbest, full fun u hu => ?_⟩
  rw [Option.mem_def.mp hu] at idle
  exact Option.some.inj idle

/-- Node 3 waits for its reply, and the virtual loss of the descent lowers its
score.  The scan stops there, because the node has no visit yet; node 4, which
stands behind it, has the greater score. -/
theorem early_break_changes_choice : ∃ s : Player Stones ℚ,
    (playerMachine pachi shippedSettings).exec newGame pendingRun = some s ∧
      (playerMachine pachi shippedSettings).Guarded OneThread newGame pendingRun ∧
      (∀ a ∈ pendingRun, a.Bounded ∧ a.Served) ∧
      ∃ root v cs best, s.root = some root ∧ Below s.tree.father v root ∧
        (s.tree.nodes v).nexts = some cs ∧ (∀ i ∈ cs, (s.tree.nodes i).isTerminate = false) ∧
        s.tree.bestChild v (-1) 1 = some best ∧
        (s.tree.unmarked cs).argmax (s.tree.childScore v (-1) 1) ≠ some best := by
  have seen : ((playerMachine pachi shippedSettings).exec newGame pendingRun).map (fun s =>
      (s.root, s.tree.father 1, (s.tree.nodes 1).nexts,
        s.tree.bestChild 1 (-1) 1,
        (s.tree.unmarked [3, 4]).argmax (s.tree.childScore 1 (-1) 1))) =
          some (some 0, some 0, some [3, 4], some 3, some 4) := by decide +kernel
  obtain ⟨s, run, counts⟩ := Option.map_eq_some_iff.mp seen
  simp only [Prod.mk.injEq] at counts
  obtain ⟨hroot, father, hcs, chosen, full⟩ := counts
  exact ⟨s, run, by decide +kernel, by decide +kernel, 0, 1, [3, 4], 3, hroot,
    below_of_father father, hcs, fun i _ => ((structured_run run).nodes i).undecided, chosen,
    by simp [full]⟩

end EstarGo
