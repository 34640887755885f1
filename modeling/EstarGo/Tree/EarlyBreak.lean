import EstarGo.Lib.EarlyStop
import EstarGo.Tree.Score
import EstarGo.Tree.Statistics

/-!
# The scan that breaks early

`mcts_select_path` leaves its loop at the first child without a visit.  Where no
node is decided and every score beats the initial one, it enters the first child
of greatest score among the children it has looked at: those that are not marked
as repetitions, up to and including the first without a visit.

## Main definitions

* `unmarked`, `unvisited` — the children the loop does not skip, and those that
  end it.
* `scored` — the children that a loop with pruning can score.
* `childScore`, `bestChild` — the scores the loop compares, and the child it
  leaves in `best`.
* `LookedAt` — a child that the loop at its father looks at.

## Main results

* `Searchable.bestChild_eq_argmax`: the child of the loop.
* `path_of_mctsSelectPathRoot`: each child on a descent was looked at.
* `pairwise_scored`: behind an unmarked child without a visit, a loop looks only
  at children with one.
* `childScore_le_of_untouched`: untouched children differ only in their priors.

## Design notes

**Scores as a function of the child.**  In the loop a score is a function of an
edge.  The results compare children, so the loop is first read as a fold over
the children looked at, and then as an `argmax`.
-/

namespace EstarGo

open Verif

variable {B K : Type}

/-- What the loop over the children skips. -/
def Node.skipped (nd : Node K) : Bool := nd.isRepetitionChecked && nd.isRepetition

namespace Tree

/-- The children that the loop does not skip. -/
def unmarked (t : Tree K) (cs : List ℕ) : List ℕ := cs.filter fun i => !(t.nodes i).skipped

/-- What ends the loop: `child->edge->n == 0`.  The child itself is scored
before the loop breaks off. -/
def unvisited (t : Tree K) (i : ℕ) : Bool := t.visits i = 0

/-- The children that the loop neither skips nor prunes. -/
def scored (t : Tree K) (prune : Edge K → Bool) (cs : List ℕ) : List ℕ :=
  (t.unmarked cs).filter fun i => !((t.nodes i).edge.map prune).getD false

/-- `edge->p`, the prior of a child. -/
def prior [Field K] (t : Tree K) (i : ℕ) : K := ((t.nodes i).edge.map (·.p)).getD 0

variable [Field K] [LinearOrder K]

/-- `child->edge->score(c, max, fa_w, fa_n)` in the loop at a node.  What it is
given besides the edge is the same for all children of the node. -/
def childScore (t : Tree K) (v : ℕ) (max : ℤ) (c : K) (i : ℕ) : K :=
  let fa := fatherValue (t.nodes v) 0
  ((t.nodes i).edge.map fun e => e.score c max fa.1 fa.2).getD worstScore

/-- What the loop of `mctsSelectPath` leaves in `best`, below the root, where
nothing is pruned.  It is none where every child is skipped. -/
def bestChild (t : Tree K) (v : ℕ) (max : ℤ) (c : K) : Option ℕ :=
  let fa := fatherValue (t.nodes v) 0
  (t.scanChildren max (fun e => e.score c max fa.1 fa.2) (fun _ => false)
    ((t.nodes v).nexts.getD []) none worstScore).1

/-- A child that the loop at its father looks at: it is unmarked, and no
unmarked child before it is without a visit.  Whether it is entered is a matter
of scores. -/
def LookedAt (t : Tree K) (x : ℕ) : Prop :=
  ∃ v cs, (t.nodes v).nexts = some cs ∧ x ∈ upTo t.unvisited (t.unmarked cs)

variable {P : Pachi B} {cfg : Settings K} {t t' : Tree K} {v u : ℕ} {max max' : ℤ}
variable {board board' : GoBoard B}

/-! ## The loop

`scanChildren` as a fold over the children up to the first without a visit. -/

omit [Field K] [LinearOrder K] in
theorem unmarked_cons (i : ℕ) (cs : List ℕ) : t.unmarked (i :: cs) =
    if (t.nodes i).skipped then t.unmarked cs else i :: t.unmarked cs := by
  rw [unmarked, List.filter_cons]
  cases (t.nodes i).skipped <;> rfl

omit [Field K] [LinearOrder K] in
/-- A loop that prunes nothing can score every unmarked child. -/
theorem scored_eq_unmarked {prune : Edge K → Bool} (none : ∀ e, prune e = false) (cs : List ℕ) :
    t.scored prune cs = t.unmarked cs := by
  refine List.filter_eq_self.mpr fun i _ => ?_
  cases (t.nodes i).edge with
  | none => rfl
  | some e => simp [none]

omit [Field K] in
/-- The loop chooses a child it has looked at. -/
theorem scanChildren_mem_upTo (undecided : ∀ v, (t.nodes v).isTerminate = false)
    {score : Edge K → K} {prune : Edge K → Bool} {nexts : List ℕ}
    (edge : ∀ i ∈ nexts, ∃ e, (t.nodes i).edge = some e)
    {best : Option ℕ} {bestScore : K} {c : ℕ}
    (h : (t.scanChildren max score prune nexts best bestScore).1 = some c) :
    c ∈ upTo t.unvisited (t.scored prune nexts) ∨ best = some c := by
  induction nexts generalizing best bestScore with
  | nil => exact .inr h
  | cons i rest ih =>
      obtain ⟨⟨e, he⟩, rest_edge⟩ := List.forall_mem_cons.mp edge
      rw [scanChildren] at h
      simp only [undecided, he, Bool.false_eq_true, if_false] at h
      rw [scored, unmarked_cons, Node.skipped]
      split at h
      · next skipped =>
          rw [if_pos skipped]
          exact ih rest_edge h
      next kept =>
        have visits : t.visits i = e.n := by simp [Tree.visits, he]
        rw [if_neg kept, List.filter_cons, he, Option.map_some, Option.getD_some]
        split at h
        · next pruned =>
            rw [if_neg (by simp [pruned])]
            exact ih rest_edge h
        next unpruned =>
          rw [if_pos (by simpa using unpruned), upTo, unvisited, visits]
          by_cases unvisited : e.n = 0
          · -- the loop breaks here
            rw [if_pos unvisited] at h
            rw [if_pos (decide_eq_true unvisited)]
            split at h
            · exact .inl (List.mem_singleton.mpr (Option.some.inj h).symm)
            · exact .inr h
          · rw [if_neg unvisited] at h
            rw [if_neg (by simpa using unvisited)]
            rcases ih rest_edge h with later | here
            · exact .inl (List.mem_cons_of_mem i later)
            · split at here
              · exact .inl (List.mem_cons.mpr (.inl (Option.some.inj here).symm))
              · exact .inr here

omit [Field K] [LinearOrder K] in
/-- Behind an unmarked child without a visit, a loop looks only at children with
one.  Either it stops there, or it prunes what has fewer visits. -/
theorem pairwise_scored {cs : List ℕ} (nodup : cs.Nodup)
    (edge : ∀ i ∈ cs, ∃ e, (t.nodes i).edge = some e) (thr : ℤ) :
    cs.Pairwise fun c x => x ∈ upTo t.unvisited (t.scored (fun e => decide ((e.n : ℤ) < thr)) cs) →
      (t.nodes c).skipped = false → t.visits c = 0 → t.visits x ≠ 0 := by
  have pruned {i : ℕ} (hi : i ∈ cs) :
      ((t.nodes i).edge.map fun e => decide ((e.n : ℤ) < thr)).getD false =
        decide ((t.visits i : ℤ) < thr) := by
    obtain ⟨e, he⟩ := edge i hi
    simp [he, Tree.visits]
  have looked := pairwise_upTo t.unvisited (fun i =>
    (!((t.nodes i).edge.map fun e => decide ((e.n : ℤ) < thr)).getD false) &&
      !(t.nodes i).skipped) nodup
  refine looked.imp_of_mem fun {c x} hc hx first mem clean zero => ?_
  have kept := (List.mem_filter.mp (mem_of_mem_upTo mem)).2
  rw [pruned hx, Bool.not_eq_true', decide_eq_false_iff_not] at kept
  rw [scored, Tree.unmarked, List.filter_filter] at mem
  have first := first mem
  rw [pruned hc, clean, zero] at first
  by_cases low : ((0 : ℕ) : ℤ) < thr
  · omega
  · have visited := first (by simpa using low)
    simp [unvisited, zero] at visited

omit [Field K] in
/-- **The loop finds the first greatest.**  It keeps the first greatest so far
and its score.  The induction is on the children that are left, from any state
of the two variables. -/
theorem scanChildren_eq_foldl (undecided : ∀ v, (t.nodes v).isTerminate = false)
    {score : Edge K → K} {f : ℕ → K} {nexts : List ℕ} {best : Option ℕ} {bestScore : K}
    (edge : ∀ i ∈ nexts, ∃ e, (t.nodes i).edge = some e ∧ score e = f i)
    (kept : best = none ∧ (∀ i ∈ nexts, bestScore < f i) ∨ ∃ b, best = some b ∧ bestScore = f b) :
    (t.scanChildren max score (fun _ => false) nexts best bestScore).1 =
      (upTo t.unvisited (t.unmarked nexts)).foldl (List.argAux fun b c => f c < f b) best := by
  induction nexts generalizing best bestScore with
  | nil => rfl
  | cons i rest ih =>
      obtain ⟨⟨e, he, hscore⟩, rest_edge⟩ := List.forall_mem_cons.mp edge
      have later : best = none ∧ (∀ i ∈ rest, bestScore < f i) ∨
          ∃ b, best = some b ∧ bestScore = f b :=
        kept.imp_left fun ⟨start, lt⟩ => ⟨start, fun i hi => lt i (List.mem_cons_of_mem _ hi)⟩
      -- one comparison
      have step : List.argAux (fun b c => f c < f b) best i =
          (if bestScore < f i then (some i, f i) else (best, bestScore)).1 := by
        rcases kept with ⟨rfl, lt⟩ | ⟨b, rfl, rfl⟩
        · rw [if_pos (lt i List.mem_cons_self)]
          rfl
        · simp only [List.argAux]
          split <;> rfl
      rw [scanChildren]
      simp only [undecided, he, hscore, Bool.false_eq_true, if_false]
      rw [unmarked_cons, Node.skipped]
      split
      · exact ih rest_edge later
      have visits : t.visits i = e.n := by simp [Tree.visits, he]
      rw [upTo, unvisited, visits]
      by_cases unvisited : e.n = 0
      · rw [if_pos unvisited, if_pos (decide_eq_true unvisited), List.foldl_cons, step]
        rfl
      · have goesOn : ¬ decide (e.n = 0) = true := by simpa using unvisited
        rw [if_neg unvisited, if_neg goesOn, List.foldl_cons, step]
        refine ih rest_edge ?_
        split
        · exact .inr ⟨i, rfl, rfl⟩
        · exact later

/-- An expanded node that is not decided enters its best child. -/
theorem mctsSelectPath_eq_enterChild (undecided : ∀ v, (t.nodes v).isTerminate = false)
    (ready : (t.nodes v).evalReady = true) {best : ℕ}
    (hbest : t.bestChild v max (exploration cfg (t.nodes v)) = some best) (fuel : ℕ) :
    mctsSelectPath P cfg (fuel + 1) t v max board =
      enterChild P cfg t v best false max board fun t board =>
        mctsSelectPath P cfg fuel t best (-max) board := by
  rw [mctsSelectPath]
  simp only [ready, undecided, Bool.not_true, Bool.false_or, Bool.false_eq_true, if_false]
  unfold bestChild at hbest
  dsimp only at hbest
  cases hnexts : (t.nodes v).nexts with
  | none => simp [hnexts, scanChildren] at hbest
  | some nexts =>
      cases nexts with
      | nil => simp [hnexts, scanChildren] at hbest
      | cons i rest =>
          rw [hnexts, Option.getD_some] at hbest
          simp only [hbest, scanChildren_undecided undecided]

/-! ## Descents

What was looked at when a child was entered is looked at in the tree that the
descent started from, too. -/

omit [Field K] [LinearOrder K] in
/-- A descent that enters a child in a tree without a decided node has added its
virtual loss and applied its move. -/
theorem enterChild_eq_leaf (undecided : ∀ v, (t.nodes v).isTerminate = false) {best : ℕ}
    {next : Tree K → GoBoard B → Descent B K}
    (h : enterChild P cfg t v best false max board next = .leaf t' u board' max') :
    ∃ action board₁, (t.nodes best).edge.map (·.action) = some action ∧
      GoBoard.applyMove P board action = (true, board₁) ∧
      next (t.addVl best cfg.virtualLoss) board₁ = .leaf t' u board' max' := by
  have same : t.decideBy v best false max = t := by simp [decideBy, undecided]
  have shape := SameShape.of_addVl (t := t) best cfg.virtualLoss
  unfold enterChild at h
  simp only [same] at h
  split at h
  · cases h
  · next edge hedge =>
      split at h
      · cases h
      · next board₁ applied =>
          refine ⟨edge.action, board₁, ?_, applied, h⟩
          rw [← shape.action, hedge]
          rfl

omit [Field K] [LinearOrder K] in
/-- Virtual loss changes nothing the loop stops or skips by. -/
theorem lookedAt_addVl {x w : ℕ} {vl : ℤ} (h : (t.addVl w vl).LookedAt x) : t.LookedAt x := by
  have visits : (t.addVl w vl).unvisited = t.unvisited := by
    funext i
    rw [unvisited, unvisited, Tree.visits, Tree.visits, addVl, modifyEdge, nodes_modify]
    split
    · rw [Option.map_map]
      rfl
    · rfl
  have skipped (cs : List ℕ) : (t.addVl w vl).unmarked cs = t.unmarked cs := by
    refine List.filter_congr fun i _ => ?_
    rw [addVl_field Node.skipped fun _ _ => rfl]
  obtain ⟨v, cs, hcs, mem⟩ := h
  rw [visits, skipped] at mem
  rw [(SameShape.of_addVl w vl).nexts] at hcs
  exact ⟨v, cs, hcs, mem⟩

/-- **What a descent enters was looked at**, at every node on its path, by
induction on the fuel.  The counts that decide it are those from before the
descent, because virtual loss is no visit. -/
theorem path_of_mctsSelectPath {fuel : ℕ} (wf : t.Wf)
    (undecided : ∀ v, (t.nodes v).isTerminate = false)
    (h : mctsSelectPath P cfg fuel t v max board = .leaf t' u board' max') :
    ∃ path, Path P t v board path u board' ∧ t' = t.addPathVl path cfg.virtualLoss ∧
      ∀ x ∈ path, t.LookedAt x := by
  induction fuel generalizing t v max board with
  | zero => cases h
  | succ fuel ih =>
      have here : ∃ path, Path P t v board path v board ∧ t = t.addPathVl path cfg.virtualLoss ∧
          ∀ x ∈ path, t.LookedAt x := ⟨[], .nil _ _, rfl, by simp⟩
      rw [mctsSelectPath] at h
      dsimp only at h
      split at h
      · cases h
        exact here
      next hready =>
      split at h
      · cases h
      · cases h
        exact here
      · next nexts _ hnexts =>
          split at h
          · cases h
          · next best hbest =>
              rw [scanChildren_undecided undecided] at h
              obtain ⟨action, board₁, haction, applied, h⟩ := enterChild_eq_leaf undecided h
              have edge (i : ℕ) (hi : i ∈ nexts) : ∃ e, (t.nodes i).edge = some e :=
                wf.exists_edge (wf.father_of_mem hnexts hi)
              have mem := (scanChildren_mem_upTo undecided edge hbest).resolve_right
                fun h => by cases h
              rw [scored_eq_unmarked fun _ => rfl] at mem
              have child : best ∈ nexts := by simpa using scanChildren_mem hbest
              have shape := SameShape.of_addVl (t := t) best cfg.virtualLoss
              obtain ⟨path, hpath, ht, looked⟩ := ih (wf.of_sameShape shape) (fun v => by
                rw [addVl_field (fun nd => nd.isTerminate) fun _ _ => rfl, undecided]) h
              refine ⟨best :: path, .cons (by simp_all) (wf.father_of_mem hnexts child) haction
                applied (hpath.of_sameShape shape), ht, fun x hx => ?_⟩
              rcases List.mem_cons.mp hx with rfl | hx
              · exact ⟨v, nexts, hnexts, mem⟩
              · exact lookedAt_addVl (looked x hx)

/-- From the root, where the loop prunes, what a descent enters was looked at,
too. -/
theorem path_of_mctsSelectPathRoot {remain : ℤ} (wf : t.Wf)
    (undecided : ∀ v, (t.nodes v).isTerminate = false)
    (h : mctsSelectPathRoot P cfg t v max board remain = .leaf t' u board' max') :
    ∃ path, Path P t v board path u board' ∧ t' = t.addPathVl path cfg.virtualLoss ∧
      ∀ x ∈ path, ∃ w cs thr, (t.nodes w).nexts = some cs ∧
        x ∈ upTo t.unvisited (t.scored (fun e => decide ((e.n : ℤ) < thr)) cs) := by
  have here : ∃ path, Path P t v board path v board ∧ t = t.addPathVl path cfg.virtualLoss ∧
      ∀ x ∈ path, ∃ w cs thr, (t.nodes w).nexts = some cs ∧
        x ∈ upTo t.unvisited (t.scored (fun e => decide ((e.n : ℤ) < thr)) cs) :=
    ⟨[], .nil _ _, rfl, by simp⟩
  unfold mctsSelectPathRoot at h
  dsimp only at h
  split at h
  · cases h
    exact here
  next hready =>
  split at h
  · cases h
  · cases h
    exact here
  · next nexts _ hnexts =>
      split at h
      · cases h
        exact here
      · next best hbest =>
          rw [scanChildren_undecided undecided] at h
          obtain ⟨action, board₁, haction, applied, h⟩ := enterChild_eq_leaf undecided h
          have edge (i : ℕ) (hi : i ∈ nexts) : ∃ e, (t.nodes i).edge = some e :=
            wf.exists_edge (wf.father_of_mem hnexts hi)
          have mem := (scanChildren_mem_upTo undecided edge hbest).resolve_right
            fun h => by cases h
          have child : best ∈ nexts := by simpa using scanChildren_mem hbest
          have father := wf.father_of_mem hnexts child
          have shape := SameShape.of_addVl (t := t) best cfg.virtualLoss
          obtain ⟨path, hpath, ht, looked⟩ := path_of_mctsSelectPath (wf.of_sameShape shape)
            (fun v => by rw [addVl_field (fun nd => nd.isTerminate) fun _ _ => rfl, undecided]) h
          refine ⟨best :: path, .cons (by simp_all) father haction applied
            (hpath.of_sameShape shape), ht, fun x hx => ?_⟩
          rcases List.mem_cons.mp hx with rfl | hx
          · exact ⟨v, nexts, _, hnexts, mem⟩
          · obtain ⟨w, cs, hcs, mem⟩ := lookedAt_addVl (looked x hx)
            -- no count is below zero
            have unpruned (e : Edge K) : decide ((e.n : ℤ) < 0) = false :=
              decide_eq_false (by omega)
            rw [← scored_eq_unmarked unpruned] at mem
            exact ⟨w, cs, 0, hcs, mem⟩

/-! ## The child entered

With the scores of a searchable tree, all above the initial one, the fold is an
`argmax`. -/

/-- **The child of the loop.**  Below the root it is the first child of greatest
score among the children looked at.  The initial score plays no part, since
every score is above it. -/
theorem Searchable.bestChild_eq_argmax [IsStrictOrderedRing K] {root : ℕ}
    (h : t.Searchable root) {c : K} (hc : 0 ≤ c) (hmax : max = 1 ∨ max = -1)
    (above : AtOrBelow t.father v root) {cs : List ℕ} (hcs : (t.nodes v).nexts = some cs) :
    t.bestChild v max c =
      (upTo t.unvisited (t.unmarked cs)).argmax (t.childScore v max c) := by
  have zero : |(0 : K)| ≤ 1 := by simp
  have edge (i : ℕ) (hi : i ∈ cs) : ∃ e, (t.nodes i).edge = some e ∧
      e.score c max (fatherValue (t.nodes v) 0).1 (fatherValue (t.nodes v) 0).2 =
        t.childScore v max c i ∧ worstScore < t.childScore v max c i := by
    obtain ⟨e, he, lt⟩ := h.lt_score hc hmax zero above hcs i hi
    have score : e.score c max (fatherValue (t.nodes v) 0).1 (fatherValue (t.nodes v) 0).2 =
        t.childScore v max c i := by simp [childScore, he]
    exact ⟨e, he, score, score ▸ lt⟩
  unfold bestChild
  rw [hcs, Option.getD_some]
  refine scanChildren_eq_foldl h.undecided (fun i hi => ?_) (.inl ⟨rfl, fun i hi => ?_⟩)
  · obtain ⟨e, he, score, -⟩ := edge i hi
    exact ⟨e, he, score⟩
  · obtain ⟨-, -, -, lt⟩ := edge i hi
    exact lt

/-- **Untouched children differ only in their priors.**  Without visits and
virtual loss, a greater prior gives a greater score: the second summand is that
of the father, and the same for both. -/
theorem childScore_le_of_untouched [IsStrictOrderedRing K] {c : K} (hc : 0 ≤ c) {x y : ℕ}
    {e e' : Edge K} (hx : (t.nodes x).edge = some e) (hy : (t.nodes y).edge = some e')
    (visits : e.n = 0) (visits' : e'.n = 0) (vl : e.vl = 0) (vl' : e'.vl = 0)
    (prior : t.prior y ≤ t.prior x) : t.childScore v max c y ≤ t.childScore v max c x := by
  have prior : e'.p ≤ e.p := by simpa [Tree.prior, hx, hy] using prior
  have bonus := mul_le_mul_of_nonneg_left prior hc
  simp only [childScore, hx, hy, Option.map_some, Option.getD_some, Edge.score, visits, visits',
    vl, vl', ne_eq, not_true_eq_false, if_false, zero_mul, Int.cast_zero, Nat.cast_zero, add_zero,
    div_one]
  exact add_le_add_left bonus _

end Tree

end EstarGo
