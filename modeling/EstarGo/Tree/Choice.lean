import EstarGo.Board.Stones
import EstarGo.Lib.EarlyStop
import EstarGo.Tree.Action
import EstarGo.Tree.Statistics

/-!
# The child that is played

The loop of `mcts_select_action` skips a pass that is not safe.  Among the other
children it ends at the first that answers a pass or is a proven win, and
otherwise keeps the first of the most visited ones.  Where it skips every child,
the last one is played: it is a pass.

## Main definitions

* `playable` — the children that the loop does not skip.
* `ends` — those that end it.
* `found` — the child that the loop finds.
* `choice` — the child that is played.

## Main results

* `mctsSelectAction_eq`: the function picks `choice`, with its action or a
  resignation.
* `choice_cases`: which child that is.
* `move_choice_contract`: what is played, and when.

## Design notes

**A loop and its meaning.**  `selectActionLoop` follows the source, with the
variables that the source keeps.  `choice` says the same with `filter`, `find?`
and `argmax`, and everything that is proved of the move is proved of `choice`.

**The action of a resignation.**  The loop keeps `actionResign` in `best_action`
until a child is found.  A child whose own action is that number would look as
if none was found, so the results ask that no child has it.  Children of a tree
have the actions of moves.
-/

namespace EstarGo

open Verif

variable {B K : Type} [Field K] [LinearOrder K]

/-- The side to move loses by the official score, which is that of White.  A
drawn score is no loss, so that a pass is safe there. -/
def GoBoard.Behind (P : Pachi B) (komi : K) (board : GoBoard B) : Prop :=
  if board.getColor = .black then 0 < P.officialScore komi board.b
  else P.officialScore komi board.b < 0

/-- Being behind is what `is_pass_safe` denies. -/
theorem GoBoard.behind_iff [IsStrictOrderedRing K] {P : Pachi B} {komi : K} {board : GoBoard B} :
    board.Behind P komi ↔ board.isPassSafe P komi = false := by
  rw [Behind, isPassSafe, decide_eq_false_iff_not, not_le]
  split
  · exact neg_lt_zero.symm
  · rfl

namespace Tree

/-- The child is a pass: its action is -1. -/
def isPass (t : Tree K) (i : ℕ) : Bool := (t.nodes i).edge.map (·.action) = some GoBoard.posPass

/-- The loop does not skip the child.  Only a pass can be skipped, where the
score at the end of the game would be against the side that passes. -/
def playable (P : Pachi B) (cfg : Settings K) (t : Tree K) (rootBoard : GoBoard B) (i : ℕ) :
    Bool :=
  !(t.isPass i && !rootBoard.isPassSafe P cfg.komi)

/-- A pass that answers the opponent's, late enough and with a good win rate.
It ends the loop, even if another child has more visits. -/
def answersPass (cfg : Settings K) (t : Tree K) (rootBoard : GoBoard B) (isOpponentPass : Bool)
    (i : ℕ) : Bool :=
  t.isPass i && isOpponentPass && (rootBoard.getTotalMoves : ℤ) > cfg.passAfterNMoves &&
    ((t.nodes i).edge.map fun e => decide (e.winRate > cfg.passThreshold)).getD false

/-- A child that is terminal with result 1, which is a win of the side to move
at the root. -/
def provenWin (t : Tree K) (i : ℕ) : Bool := (t.nodes i).isTerminate && (t.nodes i).result = 1

/-- A child that ends the loop, where it is not skipped. -/
def ends (cfg : Settings K) (t : Tree K) (rootBoard : GoBoard B) (isOpponentPass : Bool)
    (i : ℕ) : Bool :=
  t.answersPass cfg rootBoard isOpponentPass i || t.provenWin i

/-- The child that the loop finds: the first that ends it, else the first of the
most visited.  The children that are skipped play no part. -/
def found (P : Pachi B) (cfg : Settings K) (t : Tree K) (rootBoard : GoBoard B)
    (isOpponentPass : Bool) (cs : List ℕ) : Option ℕ :=
  let kept := cs.filter (t.playable P cfg rootBoard)
  (kept.find? (t.ends cfg rootBoard isOpponentPass)).or (kept.argmax t.visits)

/-- The child that is played: the one that is found, else the last one.  Where
nothing is found every child is a pass that is not safe, and the last of them is
the one that was noted. -/
def choice (P : Pachi B) (cfg : Settings K) (t : Tree K) (rootBoard : GoBoard B)
    (isOpponentPass : Bool) (cs : List ℕ) : Option ℕ :=
  (t.found P cfg rootBoard isOpponentPass cs).or cs.getLast?

/-- A child with its action, or a resignation where it was visited and its win
rate is below the threshold.  A child without visits is played whatever its win
rate comes to. -/
def moveOf (cfg : Settings K) (t : Tree K) (i : ℕ) : MCTSPair :=
  match (t.nodes i).edge with
  | none => ⟨i, GoBoard.posPass⟩
  | some e => ⟨i, if 0 < e.n ∧ e.winRate < cfg.resignThreshold then actionResign else e.action⟩

variable {P : Pachi B} {cfg : Settings K} {t : Tree K} {rootBoard : GoBoard B}
variable {isOpponentPass : Bool} {cs rest : List ℕ} {acc : BestAction} {cur : ℕ}

/-! ## The loop

The invariant of the fold is that `best_node` is the first of the most visited
among the children behind, and `max_visit` its count. -/

/-- The loop notes a pass before any rule. -/
def notePass (t : Tree K) (i : ℕ) (acc : BestAction) : BestAction :=
  if t.isPass i then { acc with passNode := some i } else acc

omit [Field K] [LinearOrder K] in
@[simp] theorem bestNode_notePass (i : ℕ) : (t.notePass i acc).bestNode = acc.bestNode := by
  unfold notePass
  split <;> rfl

omit [Field K] [LinearOrder K] in
@[simp] theorem maxVisit_notePass (i : ℕ) : (t.notePass i acc).maxVisit = acc.maxVisit := by
  unfold notePass
  split <;> rfl

/-- One turn of the loop, by what the child is. -/
theorem selectActionLoop_cons {i : ℕ} {e : Edge K} (he : (t.nodes i).edge = some e) :
    t.selectActionLoop P cfg rootBoard isOpponentPass (i :: rest) acc =
      if t.playable P cfg rootBoard i then
        if t.ends cfg rootBoard isOpponentPass i then
          { t.notePass i acc with bestAction := e.action, bestNode := some i }
        else if acc.maxVisit < t.visits i then
          t.selectActionLoop P cfg rootBoard isOpponentPass rest
            { t.notePass i acc with
              maxVisit := t.visits i, bestAction := e.action, bestNode := some i }
        else t.selectActionLoop P cfg rootBoard isOpponentPass rest (t.notePass i acc)
      else t.selectActionLoop P cfg rootBoard isOpponentPass rest (t.notePass i acc) := by
  have pass : t.isPass i = decide (e.action = -1) := by simp [isPass, he, GoBoard.posPass]
  have visits : t.visits i = e.n := by simp [Tree.visits, he]
  have most : (t.notePass i acc).maxVisit = acc.maxVisit := maxVisit_notePass i
  rw [selectActionLoop, he]
  dsimp only
  rw [visits, ← most]
  rw [notePass, playable, ends, answersPass, provenWin, pass, he]
  by_cases hpass : e.action = -1
  · cases safe : rootBoard.isPassSafe P cfg.komi with
    | false => simp [hpass]
    | true =>
        -- an answered pass and a proven win end the loop with the same child
        simp only [hpass, GoBoard.posPass, decide_true, true_and, Bool.true_and, Bool.not_true,
          Bool.not_false, Bool.true_eq_false, if_true, if_false, Option.map_some, Option.getD_some,
          Bool.or_eq_true, Bool.and_eq_true, decide_eq_true_eq, and_assoc, ite_or]
  · simp [hpass]

/-- Where the loop skips every child, it records the last pass. -/
theorem selectActionLoop_unplayable (edge : ∀ i ∈ rest, ∃ e, (t.nodes i).edge = some e)
    (skipped : rest.filter (t.playable P cfg rootBoard) = []) :
    t.selectActionLoop P cfg rootBoard isOpponentPass rest acc =
      { acc with passNode := rest.getLast?.or acc.passNode } := by
  induction rest generalizing acc with
  | nil => rfl
  | cons i rest ih =>
      obtain ⟨⟨e, he⟩, rest_edge⟩ := List.forall_mem_cons.mp edge
      obtain ⟨here, later⟩ := List.forall_mem_cons.mp (List.filter_eq_nil_iff.mp skipped)
      have unplayable : t.playable P cfg rootBoard i = false := by simpa using here
      have pass : t.isPass i = true := by
        by_contra other
        simp [playable, other] at unplayable
      rw [selectActionLoop_cons he, if_neg here, notePass, if_pos pass,
        ih rest_edge (List.filter_eq_nil_iff.mpr later), List.getLast?_cons]
      cases rest.getLast? <;> rfl

/-- **The loop.**  It finds the first child that ends it, and otherwise the
first of the most visited ones.  The fold on the right is what `argmax` is made
of, so the greatest count needs no induction of its own. -/
theorem selectActionLoop_bestNode (edge : ∀ i ∈ rest, ∃ e, (t.nodes i).edge = some e)
    (kept : acc.bestNode = none ∧ acc.maxVisit < 0 ∨
      ∃ b, acc.bestNode = some b ∧ acc.maxVisit = t.visits b) :
    (t.selectActionLoop P cfg rootBoard isOpponentPass rest acc).bestNode =
      ((rest.filter (t.playable P cfg rootBoard)).find? (t.ends cfg rootBoard isOpponentPass)).or
        ((rest.filter (t.playable P cfg rootBoard)).foldl
          (List.argAux fun b c => t.visits c < t.visits b) acc.bestNode) := by
  induction rest generalizing acc with
  | nil => rfl
  | cons i rest ih =>
      obtain ⟨⟨e, he⟩, rest_edge⟩ := List.forall_mem_cons.mp edge
      have ih' {acc' : BestAction} (same : acc'.bestNode = acc.bestNode)
          (most : acc'.maxVisit = acc.maxVisit) :
          (t.selectActionLoop P cfg rootBoard isOpponentPass rest acc').bestNode = _ :=
        ih rest_edge (by rwa [same, most])
      rw [selectActionLoop_cons he, List.filter_cons]
      by_cases skipped : t.playable P cfg rootBoard i = true
      swap
      · rw [if_neg skipped, if_neg skipped, ih' (bestNode_notePass i) (maxVisit_notePass i),
          bestNode_notePass]
      rw [if_pos skipped, if_pos skipped, List.find?_cons]
      by_cases ended : t.ends cfg rootBoard isOpponentPass i = true
      · rw [if_pos ended, ended]
        rfl
      rw [if_neg ended, Bool.eq_false_of_not_eq_true ended, List.foldl_cons]
      -- one comparison
      split
      · next more =>
          rw [ih rest_edge (.inr ⟨i, rfl, rfl⟩)]
          rcases kept with ⟨start, -⟩ | ⟨b, hb, most⟩
          · rw [start]
            rfl
          · have greater : t.visits b < t.visits i := by omega
            rw [hb]
            simp only [List.argAux, greater, if_true]
      · next less =>
          rw [ih' (bestNode_notePass i) (maxVisit_notePass i), bestNode_notePass]
          rcases kept with ⟨-, start⟩ | ⟨b, hb, most⟩
          · omega
          · have least : ¬ t.visits b < t.visits i := by omega
            rw [hb]
            simp only [List.argAux, least, if_false]

/-! ## The choice

From the loop to the function: the best child, else the last pass, and the
resignation. -/

@[simp] theorem node_moveOf (i : ℕ) : (t.moveOf cfg i).node = i := by
  unfold moveOf
  split <;> rfl

/-- Where every child is skipped, every child is a pass. -/
theorem isPass_of_unplayable (skipped : cs.filter (t.playable P cfg rootBoard) = []) {c : ℕ}
    (hc : c ∈ cs) : t.isPass c = true ∧ rootBoard.isPassSafe P cfg.komi = false := by
  have here := List.filter_eq_nil_iff.mp skipped c hc
  simpa [playable] using here

/-- No child is found exactly where every child is skipped. -/
theorem found_eq_none_iff : t.found P cfg rootBoard isOpponentPass cs = none ↔
    cs.filter (t.playable P cfg rootBoard) = [] := by
  rw [found, Option.or_eq_none_iff, List.argmax_eq_none, and_iff_right_iff_imp]
  intro skipped
  rw [skipped, List.find?_nil]

/-- **Which child is found.**  It is playable, and ends the loop, or it is the
first of the most visited ones and none ends the loop. -/
theorem found_cases {c : ℕ} (h : t.found P cfg rootBoard isOpponentPass cs = some c) :
    c ∈ cs ∧ t.playable P cfg rootBoard c = true ∧
      (t.ends cfg rootBoard isOpponentPass c = true ∨
        (∀ x ∈ cs, t.playable P cfg rootBoard x = true →
          t.ends cfg rootBoard isOpponentPass x = false) ∧
        (cs.filter (t.playable P cfg rootBoard)).argmax t.visits = some c) := by
  rw [found, Option.or_eq_some_iff] at h
  rcases h with ended | ⟨goesOn, most⟩
  · obtain ⟨mem, playable⟩ := List.mem_filter.mp (List.mem_of_find?_eq_some ended)
    exact ⟨mem, playable, .inl (List.find?_some ended)⟩
  · obtain ⟨mem, playable⟩ := List.mem_filter.mp (List.argmax_mem most)
    rw [List.find?_eq_none] at goesOn
    refine ⟨mem, playable, .inr ⟨fun x hx kept => ?_, most⟩⟩
    exact Bool.eq_false_of_not_eq_true (goesOn x (List.mem_filter.mpr ⟨hx, kept⟩))

section Pick

variable (edge : ∀ c ∈ cs, ∃ e, (t.nodes c).edge = some e)

include edge

/-- The loop leaves the child that it finds in `best_node`, and its action in
`best_action`. -/
theorem bestNode_eq_found :
    (t.selectActionLoop P cfg rootBoard isOpponentPass cs
      ⟨actionResign, none, none, -100⟩).bestNode = t.found P cfg rootBoard isOpponentPass cs :=
  selectActionLoop_bestNode edge (.inl ⟨rfl, by decide⟩)

omit edge in
/-- What the loop leaves are children, with their actions.  Its two variables of
nodes are empty at the start. -/
theorem picksChildren_selectActionLoop : PicksChildren t cs
    (t.selectActionLoop P cfg rootBoard isOpponentPass cs ⟨actionResign, none, none, -100⟩) :=
  picksChildren_loop P cfg rootBoard isOpponentPass (List.Subset.refl cs)
    ⟨fun i hi => (by cases hi), fun i hi => (by cases hi)⟩

omit edge in
/-- The end of the function: a child with its action, or a resignation. -/
theorem mctsSelectAction_of_best (hcs : (t.nodes cur).nexts = some cs) {acc : BestAction}
    (loop : t.selectActionLoop P cfg rootBoard isOpponentPass cs
      ⟨actionResign, none, none, -100⟩ = acc) {c : ℕ} {action : ℤ}
    (haction : (t.nodes c).edge.map (·.action) = some action)
    (best : (if acc.bestAction = actionResign
      then acc.passNode.map fun i => (⟨i, GoBoard.posPass⟩ : MCTSPair)
      else acc.bestNode.map fun i => ⟨i, acc.bestAction⟩) = some ⟨c, action⟩) :
    t.mctsSelectAction P cfg cur rootBoard isOpponentPass = some (t.moveOf cfg c) := by
  obtain ⟨e, he, rfl⟩ := Option.map_eq_some_iff.mp haction
  rw [mctsSelectAction, hcs, Option.bind_some, loop]
  dsimp only
  rw [best, Option.map_some, moveOf]
  simp only [he]
  split <;> rfl

/-- **The child that is found is picked**, where its action is no resignation.
The code uses that action as the mark of having found nothing, so a child with
it would be overlooked. -/
theorem mctsSelectAction_of_found (hcs : (t.nodes cur).nexts = some cs) {c : ℕ}
    (h : t.found P cfg rootBoard isOpponentPass cs = some c)
    (notResign : (t.nodes c).edge.map (·.action) ≠ some actionResign) :
    t.mctsSelectAction P cfg cur rootBoard isOpponentPass = some (t.moveOf cfg c) := by
  have best := (bestNode_eq_found edge).trans h
  obtain ⟨-, action⟩ := picksChildren_selectActionLoop.best c best
  rw [action] at notResign
  refine mctsSelectAction_of_best hcs rfl action ?_
  rw [if_neg fun h => notResign (congrArg some h), best]
  rfl

/-- Where no child is found, or only one that would resign, a pass is picked. -/
theorem mem_isPass_of_mctsSelectAction (hcs : (t.nodes cur).nexts = some cs) {pair : MCTSPair}
    (h : ∀ c, t.found P cfg rootBoard isOpponentPass cs = some c →
      (t.nodes c).edge.map (·.action) = some actionResign)
    (picked : t.mctsSelectAction P cfg cur rootBoard isOpponentPass = some pair) :
    pair.node ∈ cs ∧ t.isPass pair.node = true := by
  rw [mctsSelectAction, hcs, Option.bind_some, Option.map_eq_some_iff] at picked
  obtain ⟨best, hbest, rfl⟩ := picked
  have pass : best.node ∈ cs ∧ t.isPass best.node = true := by
    split at hbest
    · obtain ⟨i, hi, rfl⟩ := Option.map_eq_some_iff.mp hbest
      exact (picksChildren_selectActionLoop.pass i hi).imp_right decide_eq_true
    · next notResign =>
        obtain ⟨c, hc, rfl⟩ := Option.map_eq_some_iff.mp hbest
        have resign := h c ((bestNode_eq_found edge).symm.trans hc)
        have action := (picksChildren_selectActionLoop.best c hc).2
        exact absurd (Option.some.inj (action.symm.trans resign)) notResign
  split
  · exact pass
  · split
    · exact pass
    · exact pass

/-- **What is picked**, where no child has the action of a resignation: the
choice, with the action that `moveOf` gives it.  From here on the loop is not
looked at again. -/
theorem mctsSelectAction_eq (hcs : (t.nodes cur).nexts = some cs)
    (moves : ∀ c ∈ cs, (t.nodes c).edge.map (·.action) ≠ some actionResign) :
    t.mctsSelectAction P cfg cur rootBoard isOpponentPass =
      (t.choice P cfg rootBoard isOpponentPass cs).map (t.moveOf cfg) := by
  rw [choice]
  cases h : t.found P cfg rootBoard isOpponentPass cs with
  | some c => exact mctsSelectAction_of_found edge hcs h (moves c (found_cases h).1)
  | none =>
      have skipped := found_eq_none_iff.mp h
      rw [Option.none_or]
      cases last : cs.getLast? with
      | none =>
          rw [List.getLast?_eq_none_iff] at last
          subst last
          rw [mctsSelectAction, hcs]
          rfl
      | some c =>
          have mem := List.mem_of_getLast? last
          have pass := of_decide_eq_true (isPass_of_unplayable skipped mem).1
          refine mctsSelectAction_of_best hcs (selectActionLoop_unplayable edge skipped) pass ?_
          rw [if_pos rfl, last]
          rfl

end Pick

/-- A node with children has one to play. -/
theorem choice_isSome (nonempty : cs ≠ []) :
    (t.choice P cfg rootBoard isOpponentPass cs).isSome := by
  rw [choice, Option.isSome_or, List.getLast?_isSome.mpr nonempty, Bool.or_true]

/-- **Which child is played.**  It is playable, and ends the loop or is the
first of the most visited ones, or no child is playable. -/
theorem choice_cases {c : ℕ} (h : t.choice P cfg rootBoard isOpponentPass cs = some c) :
    c ∈ cs ∧ (t.playable P cfg rootBoard c = true ∧
        (t.ends cfg rootBoard isOpponentPass c = true ∨
          (cs.filter (t.playable P cfg rootBoard)).argmax t.visits = some c) ∨
      cs.filter (t.playable P cfg rootBoard) = []) := by
  rw [choice, Option.or_eq_some_iff] at h
  rcases h with h | ⟨nothing, last⟩
  · obtain ⟨mem, playable, kind⟩ := found_cases h
    exact ⟨mem, .inl ⟨playable, kind.imp_right And.right⟩⟩
  · exact ⟨List.mem_of_getLast? last, .inr (found_eq_none_iff.mp nothing)⟩

/-- **The most visits.**  Where no child ends the loop, the child that is played
is the first of the most visited ones that are playable. -/
theorem exists_split_of_choice {c : ℕ} (h : t.choice P cfg rootBoard isOpponentPass cs = some c) :
    ∃ before rest, cs = before ++ c :: rest ∧
      ((∀ x ∈ cs, t.playable P cfg rootBoard x = true →
          t.ends cfg rootBoard isOpponentPass x = false) →
        (∀ x ∈ before, t.playable P cfg rootBoard x = true → t.visits x < t.visits c) ∧
          ∀ x ∈ rest, t.playable P cfg rootBoard x = true → t.visits x ≤ t.visits c) := by
  obtain ⟨mem, kind⟩ := choice_cases h
  rcases kind with ⟨playable, ended | most⟩ | skipped
  · obtain ⟨before, rest, split⟩ := List.append_of_mem mem
    exact ⟨before, rest, split, fun goesOn => by cases ended.symm.trans (goesOn c mem playable)⟩
  · obtain ⟨before, rest, split, smaller, bound⟩ := exists_split_of_argmax_filter most
    exact ⟨before, rest, split, fun _ => ⟨smaller, bound⟩⟩
  · obtain ⟨before, rest, rfl⟩ := List.append_of_mem mem
    have unplayable := List.filter_eq_nil_iff.mp skipped
    refine ⟨before, rest, rfl, fun _ => ⟨fun x hx kept => ?_, fun x hx kept => ?_⟩⟩
    · exact absurd kept (unplayable x (List.mem_append_left _ hx))
    · exact absurd kept (unplayable x (List.mem_append_right _ (List.mem_cons_of_mem c hx)))

/-- **The move that is played.**  It is a child of the root, with its action or
a resignation.  It is a pass of the side that is behind only where every child
is a pass.  And where no rule ends the loop, it is the first of the most visited
children that are no unsafe pass. -/
theorem move_choice_contract [IsStrictOrderedRing K] (hcs : (t.nodes cur).nexts = some cs)
    (nonempty : cs ≠ [])
    (moves : ∀ c ∈ cs, ∃ e, (t.nodes c).edge = some e ∧ e.action ≠ actionResign) :
    ∃ pair before rest e,
      t.mctsSelectAction P cfg cur rootBoard isOpponentPass = some pair ∧
      cs = before ++ pair.node :: rest ∧ (t.nodes pair.node).edge = some e ∧
      (pair.action = e.action ∨ pair.action = actionResign) ∧
      (rootBoard.Behind P cfg.komi → t.isPass pair.node = true → ∀ c ∈ cs, t.isPass c = true) ∧
      ((∀ c ∈ cs, t.playable P cfg rootBoard c = true →
          t.ends cfg rootBoard isOpponentPass c = false) →
        (∀ c ∈ before, t.playable P cfg rootBoard c = true → t.visits c < t.visits pair.node) ∧
          ∀ c ∈ rest, t.playable P cfg rootBoard c = true →
            t.visits c ≤ t.visits pair.node) := by
  obtain ⟨c, hc⟩ : ∃ c, t.choice P cfg rootBoard isOpponentPass cs = some c :=
    Option.isSome_iff_exists.mp (choice_isSome nonempty)
  have edge (x : ℕ) (hx : x ∈ cs) : ∃ e, (t.nodes x).edge = some e :=
    (moves x hx).imp fun _ h => h.1
  have picked : t.mctsSelectAction P cfg cur rootBoard isOpponentPass = some (t.moveOf cfg c) := by
    rw [mctsSelectAction_eq edge hcs fun x hx => ?_, hc, Option.map_some]
    obtain ⟨e, he, notResign⟩ := moves x hx
    rw [he]
    exact fun h => notResign (Option.some.inj h)
  obtain ⟨mem, kind⟩ := choice_cases hc
  obtain ⟨before, rest, split, first⟩ := exists_split_of_choice hc
  obtain ⟨e, he⟩ := edge c mem
  refine ⟨t.moveOf cfg c, before, rest, e, picked, ?_, ?_, ?_, ?_, ?_⟩
  · rwa [node_moveOf]
  · rwa [node_moveOf]
  · rw [moveOf, he]
    dsimp only
    split
    · exact .inr rfl
    · exact .inl rfl
  · rw [node_moveOf]
    intro behind pass
    rcases kind with ⟨playable, -⟩ | all
    · simp [Tree.playable, pass, GoBoard.behind_iff.mp behind] at playable
    · exact fun x hx => (isPass_of_unplayable all hx).1
  · rwa [node_moveOf]

/-- Black, who is behind on the empty board by komi, plays the stone: the pass
is not safe, although it has the same number of visits and stands first. -/
theorem move_choice_contract_opened : ∃ pair,
    opened.mctsSelectAction pachi shippedSettings 0 (GoBoard.new pachi) true = some pair ∧
      opened.isPass pair.node = false := by
  have moves : ∀ c ∈ [1, 2], ∃ e, (opened.nodes c).edge = some e ∧ e.action ≠ actionResign := by
    intro c hc
    rcases List.mem_pair.mp hc with rfl | rfl
    · exact ⟨_, rfl, by decide⟩
    · exact ⟨_, rfl, by decide⟩
  obtain ⟨pair, -, -, -, picked, -, -, -, pass, -⟩ := @move_choice_contract _ _ _ _ pachi
    shippedSettings opened (GoBoard.new pachi) true [1, 2] 0 _ rfl (by decide) moves
  refine ⟨pair, picked, ?_⟩
  have behind : (GoBoard.new pachi).Behind pachi shippedSettings.komi :=
    GoBoard.behind_iff.mpr (by decide +kernel)
  by_contra passed
  have all := pass behind (by simpa using passed) 2 (by decide)
  revert all
  decide

end Tree

end EstarGo
