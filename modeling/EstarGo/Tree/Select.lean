import EstarGo.Tree.Node
import Mathlib.Tactic.Ring

/-!
# Selection

`mcts_select_path_root` and `mcts_select_path` descend from the root to a leaf.
At each node they scan the children for the best one, add the virtual loss to
its edge, apply its move to a copy of the board and go on with `-max`.

## Main definitions

* `scanChildren` — the loop over the children.
* `mctsSelectPath`, `mctsSelectPathRoot` — the two functions.
* `Walk` — a descent, move by move, whichever children the scans prefer.
* `Path` — a list of children that leads from a node to a leaf.

## Main results

* `walk_of_mctsSelectPathRoot`: what the functions return was reached by a walk.
* `Walk.exists_path`: where no node is decided, a walk is a path of the tree it
  starts in, and adds the virtual loss along it.
* `Path.count_eq`: the path from a node to a leaf meets what lies between, once.

## Design notes

**The whole descent is one step.**  A search thread goes down while others do,
and reads counts that they change under it.  Here the scans, the virtual loss
and the marks of decided nodes of one descent happen at once.

**Walks forget the scores.**  Most of what is proved of a descent, that it goes
to children, that the board follows it, that nothing else is written, holds
whichever child a scan prefers.  A `Walk` keeps exactly that, and only the
modules about scores and pruning open the scans again.

**Fuel.**  The recursion goes to children, which the type of trees does not know
to be fewer and fewer.  The number of nodes is enough, and `outOfFuel` is shown
not to happen.
-/

namespace EstarGo

open Verif

variable {B K : Type} [Field K] [LinearOrder K]

/-- How a descent ends: with a leaf, the board there and the sign of the last
call, or in one of the ways in which the process ends.  `outOfFuel` stands for a
descent longer than the number of nodes, which there is not. -/
inductive Descent (B K : Type) where
  | leaf (t : Tree K) (leaf : ℕ) (board : GoBoard B) (max : ℤ)
  /-- `exit(1)` after a refused move. -/
  | invalidMove
  /-- A null pointer is dereferenced. -/
  | nullPointer
  | outOfFuel

/-- The sign of the call that returned the leaf. -/
def Descent.max : Descent B K → Option ℤ
  | .leaf _ _ _ max => some max
  | _ => none

omit [Field K] [LinearOrder K] in
/-- A descent that has a sign has ended at a leaf. -/
theorem Descent.max_eq_some {d : Descent B K} {max : ℤ} (h : d.max = some max) :
    ∃ t leaf board, d = .leaf t leaf board max := by
  cases d with
  | leaf t leaf board max' => exact ⟨t, leaf, board, congrArg _ (Option.some.inj h)⟩
  | _ => cases h

namespace Tree

/-- The loop over the children: the child chosen and whether its result decides
the node.  A forbidden repetition is passed over, a win is taken at once, and
the first child without a visit ends the scan.  Every child has an edge. -/
def scanChildren (t : Tree K) (max : ℤ) (score : Edge K → K) (prune : Edge K → Bool) :
    List ℕ → Option ℕ → K → Option ℕ × Bool
  | [], best, _ => (best, false)
  | i :: rest, best, bestScore =>
      let child := t.nodes i
      if child.isRepetitionChecked && child.isRepetition then
        t.scanChildren max score prune rest best bestScore
      else if child.isTerminate then
        if child.result = max then (some i, true)
        else t.scanChildren max score prune rest (best.or (some i)) bestScore
      else
        match child.edge with
        | none => t.scanChildren max score prune rest best bestScore
        | some edge =>
            if prune edge then t.scanChildren max score prune rest best bestScore
            else
              let s := score edge
              let next := if bestScore < s then (some i, s) else (best, bestScore)
              if edge.n = 0 then (next.1, false)
              else t.scanChildren max score prune rest next.1 next.2

/-- `is_terminate` and `result` of a node. -/
def decideNode (t : Tree K) (v : ℕ) (result : ℤ) : Tree K :=
  t.modify v fun nd => { nd with isTerminate := true, result := result }

/-- What the result of the chosen child says about the node: a win of the
child's is a loss, and a win found by the scan a win. -/
def decideBy (t : Tree K) (v best : ℕ) (won : Bool) (max : ℤ) : Tree K :=
  let t₁ := if won then t.decideNode v max else t
  if (t₁.nodes best).isTerminate && (t₁.nodes best).result = -max then t₁.decideNode v (-max)
  else t₁

/-- The exploration factor, `c_puct * sqrt(total_n + 1)`.  The comment in the
header has it without the one. -/
def exploration (cfg : Settings K) (nd : Node K) : K := cfg.cPuct * cfg.sqrt (nd.totalN + 1)

/-- `fa_w` and `fa_n`: those of the edge once it was backed up, else a default.
A child without visits is judged by them. -/
def fatherValue (nd : Node K) (default : K) : K × K :=
  match nd.edge with
  | none => (default, 1)
  | some edge => if edge.n < 1 then (default, 1) else (edge.w, edge.n)

/-- The end of either function: the virtual loss, the move, and the call `next`
at the child.  A move that the board refuses ends the process there. -/
def enterChild (P : Pachi B) (cfg : Settings K) (t : Tree K) (cur best : ℕ) (won : Bool)
    (max : ℤ) (board : GoBoard B) (next : Tree K → GoBoard B → Descent B K) : Descent B K :=
  let t := (t.decideBy cur best won max).addVl best cfg.virtualLoss
  match (t.nodes best).edge with
  | none => .nullPointer
  | some edge =>
      match GoBoard.applyMove P board edge.action with
      | (false, _) => .invalidMove
      | (true, board) => next t board

/-- `mcts_select_path`, below the root.  It ends at a node that is not ready or
is decided, and returns it with the board as it is there. -/
def mctsSelectPath (P : Pachi B) (cfg : Settings K) :
    ℕ → Tree K → ℕ → ℤ → GoBoard B → Descent B K
  | 0, _, _, _, _ => .outOfFuel
  | fuel + 1, t, cur, max, board =>
      let nd := t.nodes cur
      if !nd.evalReady || nd.isTerminate then .leaf t cur board max
      else
        match nd.nexts with
        | none => .nullPointer
        | some [] => .leaf t cur board max
        | some nexts =>
            let fa := fatherValue nd 0
            let scan := t.scanChildren max (fun e => e.score (exploration cfg nd) max fa.1 fa.2)
              (fun _ => false) nexts none worstScore
            match scan.1 with
            | none => .nullPointer
            | some best =>
                enterChild P cfg t cur best scan.2 max board fun t board =>
                  mctsSelectPath P cfg fuel t best (-max) board

/-- `visit_prune_thr`: the largest `n` of a child, less the rollouts that
remain.  A child with fewer visits cannot catch up any more. -/
def visitPruneThr (t : Tree K) (nexts : List ℕ) (rolloutRemain : ℤ) : ℤ :=
  nexts.foldl (fun thr i =>
    match (t.nodes i).edge with
    | none => thr
    | some edge => Max.max thr (edge.n - rolloutRemain)) (-1)

/-- `mcts_select_path_root`.  It differs from the function below the root in
three things: it prunes, a child without visits is judged by the predicted
value, and a scan that finds nothing makes the root the leaf. -/
def mctsSelectPathRoot (P : Pachi B) (cfg : Settings K) (t : Tree K) (root : ℕ) (max : ℤ)
    (board : GoBoard B) (rolloutRemain : ℤ) : Descent B K :=
  let nd := t.nodes root
  if !nd.evalReady || nd.isTerminate then .leaf t root board max
  else
    match nd.nexts with
    | none => .nullPointer
    | some [] => .leaf t root board max
    | some nexts =>
        let thr := if max = 1 then t.visitPruneThr nexts rolloutRemain else -1
        let fa := fatherValue nd nd.valuePred
        let scan := t.scanChildren max (fun e => e.score (exploration cfg nd) max fa.1 fa.2)
          (fun e => decide ((e.n : ℤ) < thr)) nexts none worstScore
        match scan.1 with
        | none => .leaf t root board max
        | some best =>
            enterChild P cfg t root best scan.2 max board fun t board =>
              mctsSelectPath P cfg t.next t best (-max) board

/-! ## The scan

What can be said of the child that a scan chooses, without looking at scores. -/

omit [Field K] in
/-- A scan chooses one of the children, and only a decided child decides the
node. -/
theorem scanChildren_mem {t : Tree K} {max : ℤ} {score : Edge K → K} {prune : Edge K → Bool}
    {nexts : List ℕ} {best : Option ℕ} {bestScore : K} {c : ℕ}
    (h : (t.scanChildren max score prune nexts best bestScore).1 = some c) :
    c ∈ nexts ∨ best = some c := by
  induction nexts generalizing best bestScore with
  | nil => exact .inr h
  | cons i rest ih =>
      have later {best : Option ℕ} {bestScore : K}
          (h : (t.scanChildren max score prune rest best bestScore).1 = some c) :
          c ∈ i :: rest ∨ best = some c := (ih h).imp_left (List.mem_cons_of_mem i)
      rw [scanChildren] at h
      dsimp only at h
      split at h
      · exact later h
      split at h
      · split at h
        · exact .inl (by simp_all)
        · rcases later h with h | h
          · exact .inl h
          · cases best with
            | none => exact .inl (by simp_all)
            | some b => exact .inr (by simpa using h)
      split at h
      · exact later h
      split at h
      · exact later h
      split at h
      · split at h
        · exact .inl (by simp_all)
        · exact .inr h
      · rcases later h with h | h
        · exact .inl h
        · split at h
          · exact .inl (by simp_all)
          · exact .inr h

omit [Field K] in
/-- Where no node is decided, no child decides its father. -/
theorem scanChildren_undecided {t : Tree K} (undecided : ∀ v, (t.nodes v).isTerminate = false)
    {max : ℤ} {score : Edge K → K} {prune : Edge K → Bool} {nexts : List ℕ} {best : Option ℕ}
    {bestScore : K} : (t.scanChildren max score prune nexts best bestScore).2 = false := by
  induction nexts generalizing best bestScore with
  | nil => rfl
  | cons i rest ih =>
      rw [scanChildren]
      dsimp only
      split
      · exact ih
      split
      · simp_all
      split
      · exact ih
      split
      · exact ih
      split
      · rfl
      · exact ih

/-! ## Walks

The relation is what the two functions have in common. -/

/-- A descent from a node to a leaf, with the trees, signs and boards at both
ends.  Each step goes to a child of an expanded node, and marks and virtual loss
are on the tree when the rest begins. -/
inductive Walk (P : Pachi B) (vl : ℤ) : Tree K → ℕ → ℤ → GoBoard B →
    Tree K → ℕ → ℤ → GoBoard B → Prop where
  | stop (t v max board) : Walk P vl t v max board t v max board
  | step {t v max board nexts c won action board' t' u max' board''}
      (ready : (t.nodes v).evalReady = true) (hnexts : (t.nodes v).nexts = some nexts)
      (mem : c ∈ nexts) (undecided : (∀ v, (t.nodes v).isTerminate = false) → won = false)
      (haction : (t.nodes c).edge.map (·.action) = some action)
      (applied : GoBoard.applyMove P board action = (true, board'))
      (rest : Walk P vl ((t.decideBy v c won max).addVl c vl) c (-max) board' t' u max' board'') :
      Walk P vl t v max board t' u max' board''

variable {P : Pachi B} {cfg : Settings K} {t t' : Tree K} {v u : ℕ} {max max' : ℤ}
variable {board board' : GoBoard B}

omit [Field K] [LinearOrder K] in
/-- What holds of a tree, and is kept where the node gets a result, holds after
the node was decided by a child. -/
theorem decideBy_of_decideNode {Q : Tree K → Prop} (v best : ℕ) (won : Bool) (max : ℤ)
    (start : Q t) (keeps : ∀ t r, Q t → Q (t.decideNode v r)) : Q (t.decideBy v best won max) := by
  have lost (t : Tree K) (h : Q t) :
      Q (if (t.nodes best).isTerminate && (t.nodes best).result = -max
        then t.decideNode v (-max) else t) := by
    split
    · exact keeps t (-max) h
    · exact h
  unfold decideBy
  cases won
  · exact lost t start
  · exact lost _ (keeps t max start)

omit [Field K] [LinearOrder K] in
/-- Deciding a node changes no pointer. -/
theorem SameShape.of_decideBy (t : Tree K) (v best : ℕ) (won : Bool) (max : ℤ) :
    SameShape t (t.decideBy v best won max) :=
  decideBy_of_decideNode (Q := SameShape t) v best won max (SameShape.refl t) fun _ _ same =>
    same.trans (SameShape.of_modify v _ fun _ => rfl)

omit [Field K] [LinearOrder K] in
/-- A field that a result leaves alone. -/
theorem decideBy_field {α : Type*} (g : Node K → α) (v best : ℕ) (won : Bool) (max : ℤ)
    (hg : ∀ nd result, g { nd with isTerminate := true, result := result } = g nd) (u : ℕ) :
    g ((t.decideBy v best won max).nodes u) = g (t.nodes u) :=
  decideBy_of_decideNode (Q := fun t' => g (t'.nodes u) = g (t.nodes u)) v best won max rfl
    fun _ _ same => (modify_field g _ (fun nd => hg nd _) v u).trans same

omit [Field K] [LinearOrder K] in
/-- A descent that enters a child goes on from there. -/
theorem walk_of_enterChild {best : ℕ} {won : Bool} {nexts : List ℕ}
    {next : Tree K → GoBoard B → Descent B K}
    (ready : (t.nodes v).evalReady = true) (hnexts : (t.nodes v).nexts = some nexts)
    (mem : best ∈ nexts) (undecided : (∀ v, (t.nodes v).isTerminate = false) → won = false)
    (h : enterChild P cfg t v best won max board next = .leaf t' u board' max')
    (rest : ∀ t board, next t board = .leaf t' u board' max' →
      Walk P cfg.virtualLoss t best (-max) board t' u max' board') :
    Walk P cfg.virtualLoss t v max board t' u max' board' := by
  unfold enterChild at h
  dsimp only at h
  split at h
  · cases h
  · rename_i edge hedge
    split at h
    · cases h
    · rename_i board₁ happlied
      have shape := (SameShape.of_decideBy t v best won max).trans
        (SameShape.of_addVl best cfg.virtualLoss)
      refine .step ready hnexts mem undecided ?_ happlied (rest _ _ h)
      rw [← shape.action, hedge]
      rfl

/-- What the function below the root returns was reached by a walk, by induction
on its fuel. -/
theorem walk_of_mctsSelectPath {fuel : ℕ}
    (h : mctsSelectPath P cfg fuel t v max board = .leaf t' u board' max') :
    Walk P cfg.virtualLoss t v max board t' u max' board' := by
  induction fuel generalizing t v max board with
  | zero => cases h
  | succ fuel ih =>
      rw [mctsSelectPath] at h
      dsimp only at h
      split at h
      · cases h
        exact .stop _ _ _ _
      rename_i hready
      split at h
      · cases h
      · cases h
        exact .stop _ _ _ _
      · rename_i nexts _ hnexts
        split at h
        · cases h
        · rename_i best hbest
          refine walk_of_enterChild (by simp_all) hnexts ?_ (fun hu => ?_) h fun _ _ => ih
          · simpa using scanChildren_mem hbest
          · exact scanChildren_undecided hu

/-- **What selection returns was reached by a walk.**  A scan at the root that
finds nothing is a walk that stays. -/
theorem walk_of_mctsSelectPathRoot {remain : ℤ}
    (h : mctsSelectPathRoot P cfg t v max board remain = .leaf t' u board' max') :
    Walk P cfg.virtualLoss t v max board t' u max' board' := by
  unfold mctsSelectPathRoot at h
  dsimp only at h
  split at h
  · cases h
    exact .stop _ _ _ _
  rename_i hready
  split at h
  · cases h
  · cases h
    exact .stop _ _ _ _
  · rename_i nexts _ hnexts
    split at h
    · cases h
      exact .stop _ _ _ _
    · rename_i best hbest
      refine walk_of_enterChild (by simp_all) hnexts ?_ (fun hu => ?_) h
        fun _ _ => walk_of_mctsSelectPath
      · simpa using scanChildren_mem hbest
      · exact scanChildren_undecided hu

omit [Field K] [LinearOrder K] in
/-- A result changes nothing away from the node itself. -/
theorem nodes_decideBy_of_ne {best : ℕ} {won : Bool} {x : ℕ} (hx : x ≠ v) :
    (t.decideBy v best won max).nodes x = t.nodes x :=
  decideBy_of_decideNode (Q := fun t' => t'.nodes x = t.nodes x) v best won max rfl
    fun _ _ same => (if_neg hx).trans same

omit [Field K] [LinearOrder K] in
/-- **The frame of a walk.**  It changes nothing but the node it starts from and
what is below that.  Other descents from there, and nodes above, are as they
were. -/
theorem Walk.nodes_eq {vl : ℤ} (wf : t.Wf) (h : Walk P vl t v max board t' u max' board') {x : ℕ}
    (hx : ¬ AtOrBelow t.father x v) : t'.nodes x = t.nodes x := by
  induction h with
  | stop => rfl
  | @step t v max board nexts c won action board' t' u max' board'' ready hnexts mem _ haction
      applied _ ih =>
      have father := wf.father_of_mem hnexts mem
      have shape := (SameShape.of_decideBy t v c won max).trans
        (SameShape.of_addVl (t := t.decideBy v c won max) c vl)
      have elsewhere : ¬ AtOrBelow t.father x c := fun h =>
        hx (h.trans (below_of_father father).atOrBelow)
      have other : x ≠ c := by
        rintro rfl
        exact elsewhere .refl
      have other' : x ≠ v := by
        rintro rfl
        exact hx .refl
      rw [ih (wf.of_sameShape shape) (by rwa [shape.father]), addVl, modifyEdge, nodes_modify,
        if_neg other, nodes_decideBy_of_ne other']

/-! ## Paths

In a tree in which nothing is decided, a descent only adds virtual loss. -/

/-- A path of children, whose moves take one board to the other.  The list has
the children, so it is empty where the descent stays. -/
inductive Path (P : Pachi B) (t : Tree K) : ℕ → GoBoard B → List ℕ → ℕ → GoBoard B → Prop where
  | nil (v : ℕ) (board : GoBoard B) : Path P t v board [] v board
  | cons {v : ℕ} {board : GoBoard B} {c : ℕ} {action : ℤ} {board' : GoBoard B} {path : List ℕ}
      {u : ℕ} {board'' : GoBoard B} (ready : (t.nodes v).evalReady = true)
      (father : t.father c = some v)
      (haction : (t.nodes c).edge.map (·.action) = some action)
      (applied : GoBoard.applyMove P board action = (true, board'))
      (rest : Path P t c board' path u board'') : Path P t v board (c :: path) u board''

/-- Virtual loss along a path, which is what a descent leaves behind. -/
def addPathVl (t : Tree K) (path : List ℕ) (vl : ℤ) : Tree K :=
  path.foldl (fun t c => t.addVl c vl) t

omit [Field K] [LinearOrder K] in
/-- A path is one in every tree of the same shape. -/
theorem Path.of_sameShape (h : SameShape t t') {path : List ℕ}
    (hp : Path P t' v board path u board') : Path P t v board path u board' := by
  induction hp with
  | nil => exact .nil _ _
  | cons ready father haction applied _ ih =>
      rw [h.evalReady] at ready
      rw [h.father] at father
      rw [h.action] at haction
      exact .cons ready father haction applied ih

omit [Field K] [LinearOrder K] in
/-- **A walk in an undecided tree is a path.**  It adds the virtual loss along
the path and changes nothing else. -/
theorem Walk.exists_path {vl : ℤ} (wf : t.Wf) (undecided : ∀ v, (t.nodes v).isTerminate = false)
    (h : Walk P vl t v max board t' u max' board') :
    ∃ path, Path P t v board path u board' ∧ t' = t.addPathVl path vl := by
  induction h with
  | stop => exact ⟨[], .nil _ _, rfl⟩
  | @step t v max board nexts c won action board' t' u max' board'' ready hnexts mem hwon haction
      applied _ ih =>
      have none : t.decideBy v c won max = t := by simp [decideBy, hwon undecided, undecided]
      rw [none] at ih
      have shape := SameShape.of_addVl (t := t) c vl
      have same : ∀ v, ((t.addVl c vl).nodes v).isTerminate = false := fun v => by
        rw [addVl_field (fun nd => nd.isTerminate) (fun _ _ => rfl), undecided]
      obtain ⟨path, hpath, ht⟩ := ih (wf.of_sameShape shape) same
      exact ⟨c :: path, .cons ready (wf.father_of_mem hnexts mem) haction applied
        (hpath.of_sameShape shape), ht⟩

section Path

variable {path : List ℕ}

omit [Field K] [LinearOrder K] in
/-- The end of a path is at or below its start. -/
theorem Path.atOrBelow (h : Path P t v board path u board') : AtOrBelow t.father u v := by
  induction h with
  | nil => exact .refl
  | cons _ father _ _ _ ih => exact ih.trans (below_of_father father).atOrBelow

omit [Field K] [LinearOrder K] in
/-- A path ends where it starts, or at its last child. -/
theorem Path.leaf_mem (h : Path P t v board path u board') : u = v ∨ u ∈ path := by
  induction h with
  | nil => exact .inl rfl
  | cons _ _ _ _ _ ih =>
      rcases ih with rfl | mem
      · exact .inr List.mem_cons_self
      · exact .inr (List.mem_cons_of_mem _ mem)

omit [Field K] [LinearOrder K] in
/-- What a path passes is below its start. -/
theorem Path.below_of_mem (h : Path P t v board path u board') {x : ℕ} (hx : x ∈ path) :
    Below t.father x v := by
  induction h with
  | nil => cases hx
  | cons _ father _ _ _ ih =>
      rcases List.mem_cons.mp hx with rfl | hx
      · exact below_of_father father
      · exact (ih hx).trans_atOrBelow (below_of_father father).atOrBelow

open Classical in
omit [Field K] [LinearOrder K] in
/-- The path from a node to a leaf meets each node between them once.  So adding
along the path is adding to the nodes that are given by their place. -/
theorem Path.count_eq (wf : t.Wf) (h : Path P t v board path u board') {x : ℕ}
    (hx : Below t.father x v) : path.count x = if AtOrBelow t.father u x then 1 else 0 := by
  have desc := wf.descending
  induction h with
  | nil v =>
      have above : ¬ AtOrBelow t.father v x := fun h => not_below_of_atOrBelow desc h hx
      simp [above]
  | @cons v board c action board' path u board'' ready father haction applied rest ih =>
      rw [List.count_cons]
      by_cases hc : c = x
      · subst hc
        have notMem : c ∉ path := fun h => not_below_self desc (rest.below_of_mem h)
        simp [List.count_eq_zero_of_not_mem notMem, rest.atOrBelow]
      · by_cases below : Below t.father x c
        · simp [ih below, hc]
        · -- `x` is elsewhere below `v`
          have notMem : x ∉ path := fun h => below (rest.below_of_mem h)
          have elsewhere : ¬ AtOrBelow t.father u x := by
            intro hux
            rcases atOrBelow_total hux rest.atOrBelow with hxc | hcx
            · rcases atOrBelow_iff.mp hxc with rfl | hxc
              · exact hc rfl
              · exact below hxc
            · exact not_below_of_atOrBelow desc ((below_iff_of_father father).mp hcx) hx
          simp [List.count_eq_zero_of_not_mem notMem, hc, elsewhere]

end Path

omit [Field K] [LinearOrder K] in
/-- Virtual loss along a path, in one equation: an edge gets it as often as the
path meets it. -/
theorem nodes_addPathVl (t : Tree K) (path : List ℕ) (vl : ℤ) (v : ℕ) :
    (t.addPathVl path vl).nodes v =
      { t.nodes v with edge :=
          (t.nodes v).edge.map fun e => { e with vl := e.vl + path.count v * vl } } := by
  induction path generalizing t with
  | nil => simp [addPathVl]
  | cons c path ih =>
      rw [addPathVl, List.foldl_cons, ← addPathVl, ih]
      simp only [addVl, modifyEdge, nodes_modify, List.count_cons]
      by_cases hc : v = c
      · subst hc
        cases (t.nodes v).edge with
        | none => simp
        | some e => simp; ring
      · simp [hc, Ne.symm hc]

omit [Field K] [LinearOrder K] in
theorem SameShape.of_addPathVl (t : Tree K) (path : List ℕ) (vl : ℤ) :
    SameShape t (t.addPathVl path vl) := by
  induction path generalizing t with
  | nil => exact SameShape.refl t
  | cons c path ih => exact (SameShape.of_addVl c vl).trans (ih (t.addVl c vl))

end Tree

end EstarGo
