import EstarGo.Tree.Node

/-!
# The move played

`mcts_select_action` picks a child of the root after a search: a winning child,
else the most visited one, with two rules for a pass; a poor win rate turns the
move into a resignation.  It ends the process where the root has no list of
children, or has neither a best child nor a pass.

## Main definitions

* `selectActionLoop` — the loop over the children, with its four variables.
* `mctsSelectAction` — the function, `none` where it ends the process.

## Main results

* `mctsSelectAction_eq_some`: what is picked is a child with its action, or a
  resignation.
* `mctsSelectAction_isSome`: a root with a pass among its children has a move.

## Design notes

The loop breaks in two places and goes on in three, so it is kept as a recursion
with the variables of the source; `Tree.Choice` says the same by lists, and is
where the rules of the choice are proved.  Here is only what a caller needs in
order to play the move.
-/

namespace EstarGo

variable {B K : Type} [Field K] [LinearOrder K]

/-- The action code of a resignation, which is not the position of one in a
history. -/
def actionResign : ℤ := -100

/-- `MCTSPair`: the child and the action code. -/
structure MCTSPair where
  node : ℕ
  action : ℤ
  deriving DecidableEq, Repr

/-- The win rate an edge stands for: its mean value, taken from -1 to 1 to 0 to
1.  The small term in the denominator keeps it finite without visits, where it
   comes out as zero. -/
def Edge.winRate (edge : Edge K) : K :=
  (edge.w + edge.n) / 2 / (edge.n + noVisit)

/-- The variables of the loop over the children: the best so far, the child that
passes, and the greatest count.  The child that passes is noted even where the
pass itself is skipped. -/
structure BestAction where
  bestAction : ℤ
  bestNode : Option ℕ
  passNode : Option ℕ
  maxVisit : ℤ
  deriving DecidableEq, Repr

namespace Tree

/-- The loop over the children.  A pass is taken only where it is safe, an
answered pass or a win ends the loop, and otherwise the count decides. -/
def selectActionLoop (P : Pachi B) (cfg : Settings K) (t : Tree K) (rootBoard : GoBoard B)
    (isOpponentPass : Bool) : List ℕ → BestAction → BestAction
  | [], acc => acc
  | i :: rest, acc =>
      match (t.nodes i).edge with
      | none => t.selectActionLoop P cfg rootBoard isOpponentPass rest acc
      | some edge =>
          let isPass := edge.action = -1
          let acc := if isPass then { acc with passNode := some i } else acc
          if isPass ∧ rootBoard.isPassSafe P cfg.komi = false then
            t.selectActionLoop P cfg rootBoard isOpponentPass rest acc
          else if isPass ∧ isOpponentPass ∧
              (rootBoard.getTotalMoves : ℤ) > cfg.passAfterNMoves ∧
              edge.winRate > cfg.passThreshold then
            { acc with bestAction := GoBoard.posPass, bestNode := some i }
          else if (t.nodes i).isTerminate ∧ (t.nodes i).result = 1 then
            { acc with bestAction := edge.action, bestNode := some i }
          else if acc.maxVisit < edge.n then
            t.selectActionLoop P cfg rootBoard isOpponentPass rest
              { acc with maxVisit := edge.n, bestAction := edge.action, bestNode := some i }
          else t.selectActionLoop P cfg rootBoard isOpponentPass rest acc

/-- `mcts_select_action`; `none` where it calls `exit(1)`.  The resignation is
decided by the win rate of the child that was picked. -/
def mctsSelectAction (P : Pachi B) (cfg : Settings K) (t : Tree K) (cur : ℕ)
    (rootBoard : GoBoard B) (isOpponentPass : Bool) : Option MCTSPair :=
  (t.nodes cur).nexts.bind fun nexts =>
    let acc := t.selectActionLoop P cfg rootBoard isOpponentPass nexts
      ⟨actionResign, none, none, -100⟩
    let best : Option MCTSPair :=
      if acc.bestAction = actionResign then acc.passNode.map fun i => ⟨i, GoBoard.posPass⟩
      else acc.bestNode.map fun i => ⟨i, acc.bestAction⟩
    best.map fun pair =>
      match (t.nodes pair.node).edge with
      | none => pair
      | some edge =>
          if 0 < edge.n ∧ edge.winRate < cfg.resignThreshold then ⟨pair.node, actionResign⟩
          else pair

/-! ## What is picked

An invariant of the loop: the variables hold children. -/

/-- The nodes picked so far are children, with their actions.  This is the
invariant of the loop, and it says nothing yet about which of the children they
are. -/
structure PicksChildren (t : Tree K) (nexts : List ℕ) (acc : BestAction) : Prop where
  best : ∀ i, acc.bestNode = some i →
    i ∈ nexts ∧ (t.nodes i).edge.map (·.action) = some acc.bestAction
  pass : ∀ i, acc.passNode = some i →
    i ∈ nexts ∧ (t.nodes i).edge.map (·.action) = some GoBoard.posPass

variable (P : Pachi B) (cfg : Settings K) {t : Tree K} (rootBoard : GoBoard B)
variable (isOpponentPass : Bool)

theorem picksChildren_loop {nexts rest : List ℕ} {acc : BestAction} (sub : rest ⊆ nexts)
    (h : PicksChildren t nexts acc) :
    PicksChildren t nexts (t.selectActionLoop P cfg rootBoard isOpponentPass rest acc) := by
  induction rest generalizing acc with
  | nil => exact h
  | cons i rest ih =>
      obtain ⟨hi, hrest⟩ := List.cons_subset.mp sub
      rw [selectActionLoop]
      split
      · exact ih hrest h
      rename_i edge hedge
      dsimp only
      -- the pass node is recorded before any rule picks
      have hpass : PicksChildren t nexts
          (if edge.action = -1 then { acc with passNode := some i } else acc) := by
        split
        · rename_i hact
          refine ⟨h.best, fun j hj => ?_⟩
          obtain rfl : i = j := Option.some.inj hj
          exact ⟨hi, by simp [hedge, hact, GoBoard.posPass]⟩
        · exact h
      generalize (if edge.action = -1 then { acc with passNode := some i } else acc) = acc at *
      split
      · exact ih hrest hpass
      split
      · rename_i hact
        refine ⟨fun j hj => ?_, hpass.pass⟩
        obtain rfl : i = j := Option.some.inj hj
        exact ⟨hi, by simp [hedge, hact.1, GoBoard.posPass]⟩
      split
      · refine ⟨fun j hj => ?_, hpass.pass⟩
        obtain rfl : i = j := Option.some.inj hj
        exact ⟨hi, by simp [hedge]⟩
      split
      · refine ih hrest ⟨fun j hj => ?_, hpass.pass⟩
        obtain rfl : i = j := Option.some.inj hj
        exact ⟨hi, by simp [hedge]⟩
      · exact ih hrest hpass

variable {P cfg rootBoard isOpponentPass}

/-- What `mcts_select_action` returns is a child of the root with its action, or
a resignation.  The caller plays the action on the root's board and makes the
child its root, so the two have to belong together. -/
theorem mctsSelectAction_eq_some {cur : ℕ} {pair : MCTSPair}
    (h : t.mctsSelectAction P cfg cur rootBoard isOpponentPass = some pair) :
    pair.action = actionResign ∨ ∃ nexts, (t.nodes cur).nexts = some nexts ∧
      pair.node ∈ nexts ∧ (t.nodes pair.node).edge.map (·.action) = some pair.action := by
  obtain ⟨nexts, hnexts, h⟩ := Option.bind_eq_some_iff.mp h
  obtain ⟨best, hbest, rfl⟩ := Option.map_eq_some_iff.mp h
  have start : PicksChildren t nexts ⟨actionResign, none, none, -100⟩ := ⟨by simp, by simp⟩
  have picks := picksChildren_loop P cfg rootBoard isOpponentPass (List.Subset.refl nexts) start
  have child : best.node ∈ nexts ∧
      (t.nodes best.node).edge.map (·.action) = some best.action := by
    split at hbest
    · obtain ⟨i, hi, rfl⟩ := Option.map_eq_some_iff.mp hbest
      exact picks.pass i hi
    · obtain ⟨i, hi, rfl⟩ := Option.map_eq_some_iff.mp hbest
      exact picks.best i hi
  split
  · exact .inr ⟨nexts, hnexts, child⟩
  · split
    · exact .inl rfl
    · exact .inr ⟨nexts, hnexts, child⟩

/-! ## Where something is picked

The loop may find nothing better than its first value; then the pass is
played. -/

/-- The loop ends with a best child, or with a resignation and a pass to play
instead. -/
theorem selectActionLoop_picks (P : Pachi B) (cfg : Settings K) (rootBoard : GoBoard B)
    (isOpponentPass : Bool) (undecided : ∀ v, (t.nodes v).isTerminate = false)
    {rest : List ℕ} (acc : BestAction)
    (pass : (∃ c ∈ rest, (t.nodes c).edge.map (·.action) = some GoBoard.posPass) ∨
      acc.passNode.isSome)
    (best : acc.bestAction ≠ actionResign → acc.bestNode.isSome) :
    let r := t.selectActionLoop P cfg rootBoard isOpponentPass rest acc
    (r.bestAction ≠ actionResign → r.bestNode.isSome) ∧
      (r.bestAction = actionResign → r.passNode.isSome) := by
  induction rest generalizing acc with
  | nil =>
      rw [selectActionLoop]
      exact ⟨best, fun _ => pass.resolve_left (by simp)⟩
  | cons i rest ih =>
      rw [selectActionLoop]
      split
      · rename_i hedge
        refine ih _ (pass.imp_left ?_) best
        rintro ⟨c, hc, haction⟩
        rcases List.mem_cons.mp hc with rfl | hc
        · simp [hedge] at haction
        · exact ⟨c, hc, haction⟩
      rename_i edge hedge
      dsimp only
      have pass : (∃ c ∈ rest, (t.nodes c).edge.map (·.action) = some GoBoard.posPass) ∨
          (if edge.action = -1 then { acc with passNode := some i } else acc).passNode.isSome := by
        rcases pass with ⟨c, hc, haction⟩ | pass
        · rcases List.mem_cons.mp hc with rfl | hc
          · have here : edge.action = -1 := by
              simpa [hedge, GoBoard.posPass] using haction
            exact .inr (by simp [here])
          · exact .inl ⟨c, hc, haction⟩
        · exact .inr (by split <;> simp [pass])
      have best : (if edge.action = -1 then { acc with passNode := some i } else acc).bestAction ≠
          actionResign →
            (if edge.action = -1 then { acc with passNode := some i }
              else acc).bestNode.isSome := by
        split <;> exact best
      generalize (if edge.action = -1 then { acc with passNode := some i } else acc) = acc at *
      split
      · exact ih _ pass best
      split
      · exact ⟨fun _ => rfl, by simp [actionResign, GoBoard.posPass]⟩
      split
      · simp_all
      split
      · exact ih _ pass fun _ => rfl
      · exact ih _ pass best

/-- **A root with a pass among its children has a move**, as long as no child is
decided. -/
theorem mctsSelectAction_isSome (undecided : ∀ v, (t.nodes v).isTerminate = false) {cur : ℕ}
    {nexts : List ℕ} (hnexts : (t.nodes cur).nexts = some nexts)
    (pass : ∃ c ∈ nexts, (t.nodes c).edge.map (·.action) = some GoBoard.posPass) :
    (t.mctsSelectAction P cfg cur rootBoard isOpponentPass).isSome := by
  obtain ⟨hbest, hpass⟩ := selectActionLoop_picks P cfg rootBoard isOpponentPass undecided
    ⟨actionResign, none, none, -100⟩ (.inl pass) (fun h => absurd rfl h)
  simp only [mctsSelectAction, hnexts, Option.bind_some, Option.isSome_map]
  split
  · exact Option.isSome_map.trans (hpass (by assumption))
  · exact Option.isSome_map.trans (hbest (by assumption))

end Tree

end EstarGo
