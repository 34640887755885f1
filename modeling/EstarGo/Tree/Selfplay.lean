import EstarGo.Board.Game
import EstarGo.Tree.Choice

/-!
# The move of self-play

`selfplay_select_action` records the distribution of the visits, then picks a
child: after thirty moves by a loop of its own, which has every rule of
`mcts_select_action` but the answered pass, before that by a draw from the
distribution.  Its resignation does not ask whether the child was visited.

## Main definitions

* `selfplayLoop` — the loop after thirty moves.
* `policyDis` — the distribution, an array of 362 entries.
* `selfplaySelectAction` — the function.
* `FirstUnvisited` — a child that is played although no visit speaks for it.

## Main results

* `selfplayLoop_eq`: the loop is that of `mcts_select_action` without an
  opponent's pass.
* `choice_eq_iff`: when that loop plays a child without a visit.
* `selfplay_eq_mcts_iff`: when the two functions pick the same child and action.
* `not_selfplay_eq_mcts`: there is a position in which they do not.

## Design notes

**The draw is a parameter.**  The code draws from a `discrete_distribution` with
a seed of its own.  Any function of the probabilities stands for it, and no
result is about which child is drawn.

**Faults.**  A child whose action is no index of the array is a write out of
bounds, and a root without a pass that finds no child calls `exit(1)`.  Both are
`none`.

**Left out.**  The text of the distribution and the labels for training are
strings that nothing reads.
-/

namespace EstarGo

open Verif

variable {B K : Type} [Field K] [LinearOrder K]

/-- What `selfplay_select_action` returns: the pair, the distribution behind its
label, and the win rate. -/
structure SelfplayPair (K : Type) where
  pair : MCTSPair
  policyDis : List K
  winRate : K

namespace Tree

/-- The loop of `selfplay_select_action` after thirty moves.  A pass is noted
before it is asked for safety, and a proven win ends the loop. -/
def selfplayLoop (P : Pachi B) (cfg : Settings K) (t : Tree K) (rootBoard : GoBoard B) :
    List ℕ → BestAction → BestAction
  | [], acc => acc
  | i :: rest, acc =>
      match (t.nodes i).edge with
      | none => t.selfplayLoop P cfg rootBoard rest acc
      | some edge =>
          let isPass := edge.action = -1
          let acc := if isPass then { acc with passNode := some i } else acc
          if isPass ∧ rootBoard.isPassSafe P cfg.komi = false then
            t.selfplayLoop P cfg rootBoard rest acc
          else if (t.nodes i).isTerminate ∧ (t.nodes i).result = 1 then
            { acc with bestAction := edge.action, bestNode := some i }
          else if acc.maxVisit < edge.n then
            t.selfplayLoop P cfg rootBoard rest
              { acc with maxVisit := edge.n, bestAction := edge.action, bestNode := some i }
          else t.selfplayLoop P cfg rootBoard rest acc

/-- `n_visit_sum`, the visits of all children. -/
def visitSum (t : Tree K) (nexts : List ℕ) : ℕ := (nexts.map t.visits).sum

/-- `mcts_prob`, the weights from which a child is drawn.  Without any visit the
source divides by zero, and by the convention for fields all weights are zero
then. -/
def mctsProb (t : Tree K) (nexts : List ℕ) : List K :=
  nexts.map fun i => (t.visits i : K) / (t.visitSum nexts : K)

/-- The index of an action in `policy_dis`; `none` outside of the array. -/
def policyIndex (action : ℤ) : Option ℕ :=
  let index := if action = -1 then 361 else action
  if 0 ≤ index ∧ index < 362 then some index.toNat else none

/-- `policy_dis`; `none` where a child writes outside of the array.  Actions up
to 360 and a pass have a place in it. -/
def policyDis (t : Tree K) (nexts : List ℕ) : Option (List K) :=
  nexts.foldlM (fun dis i =>
    (t.nodes i).edge.bind fun edge =>
      (policyIndex edge.action).map fun index =>
        dis.set index ((edge.n : K) / (t.visitSum nexts : K)))
    (List.replicate 362 0)

/-- Both functions after their loops: the best child, else the pass.  Without a
pass they call `exit(1)`. -/
def bestPair (acc : BestAction) : Option MCTSPair :=
  if acc.bestAction = actionResign then acc.passNode.map fun i => ⟨i, GoBoard.posPass⟩
  else acc.bestNode.map fun i => ⟨i, acc.bestAction⟩

/-- `selfplay_select_action`, with the draw from the distribution as a
parameter; `none` where it calls `exit(1)` or reads or writes outside of an
array. -/
def selfplaySelectAction (P : Pachi B) (cfg : Settings K) (t : Tree K) (cur : ℕ)
    (rootBoard : GoBoard B) (isOpponent : Bool) (draw : List K → ℕ) :
    Option (SelfplayPair K × Tree K) :=
  (t.nodes cur).nexts.bind fun nexts =>
    (t.policyDis nexts).bind fun policyDis =>
      let acc : Option BestAction :=
        if 30 ≤ rootBoard.getTotalMoves then
          some (t.selfplayLoop P cfg rootBoard nexts ⟨actionResign, none, none, -100⟩)
        else
          nexts[draw (t.mctsProb nexts)]?.bind fun i =>
            (t.nodes i).edge.map fun edge => ⟨edge.action, some i, none, -100⟩
      (acc.bind bestPair).bind fun pair =>
        (t.nodes pair.node).edge.map fun edge =>
          let w := if isOpponent then edge.w * -1 else edge.w
          let winRate := Edge.winRate { edge with w := w }
          (⟨if winRate < cfg.resignThreshold then ⟨pair.node, actionResign⟩ else pair,
              policyDis, winRate⟩,
            t.modify pair.node fun nd => { nd with father := none })

/-- The children that the loops do not skip, in their order. -/
def kept (P : Pachi B) (cfg : Settings K) (t : Tree K) (rootBoard : GoBoard B) (cs : List ℕ) :
    List ℕ := cs.filter (t.playable P cfg rootBoard)

/-- The child comes first where no visit decides: it is the first proven win,
else the first of children that no visit tells apart, else the last of a list of
unsafe passes. -/
def FirstUnvisited (P : Pachi B) (cfg : Settings K) (t : Tree K) (rootBoard : GoBoard B)
    (cs : List ℕ) (c : ℕ) : Prop :=
  (t.kept P cfg rootBoard cs).find? t.provenWin = some c ∨
    (t.kept P cfg rootBoard cs).find? t.provenWin = none ∧
        (∀ x ∈ t.kept P cfg rootBoard cs, t.visits x = 0) ∧
        (t.kept P cfg rootBoard cs).head? = some c ∨
    t.kept P cfg rootBoard cs = [] ∧ cs.getLast? = some c

variable {P : Pachi B} {cfg : Settings K} {t : Tree K} {rootBoard : GoBoard B}
variable {cs : List ℕ} {cur : ℕ} {acc : BestAction}

/-- **The loop** is that of `mcts_select_action` without an opponent's pass.
The two are written differently: one asks whether the pass is safe before the
rule of the answered pass, one has no such rule. -/
theorem selfplayLoop_eq (cs : List ℕ) (acc : BestAction) :
    t.selfplayLoop P cfg rootBoard cs acc = t.selectActionLoop P cfg rootBoard false cs acc := by
  induction cs generalizing acc with
  | nil => rfl
  | cons i rest ih =>
      rw [selfplayLoop, selectActionLoop]
      cases (t.nodes i).edge with
      | none => exact ih acc
      | some edge => simp [ih]

/-! ## The child that is picked

The loops leave the child that `Tree.choice` names.  What remains is the end of
the functions, in which they differ. -/

/-- Without an opponent's pass only a proven win ends the loop. -/
theorem ends_false : t.ends cfg rootBoard false = t.provenWin := by
  funext i
  simp [ends, answersPass]

/-- Where no element is greater than another, the first one is the greatest, as
the loop replaces its best child only by a strictly greater one. -/
theorem argmax_eq_head? {l : List ℕ} {f : ℕ → ℕ} (zero : ∀ x ∈ l, f x = 0) :
    l.argmax f = l.head? := by
  cases l with
  | nil => rfl
  | cons a l =>
      rw [List.head?_cons, List.argmax_eq_some_iff]
      refine ⟨List.mem_cons_self, fun x hx => ?_, fun x _ _ => ?_⟩
      · rw [zero x hx]
        exact Nat.zero_le _
      · rw [List.idxOf_cons_self]
        exact Nat.zero_le _

/-- **An unvisited child** is played exactly where it comes first and no visit
decides. -/
theorem choice_eq_iff {c : ℕ} (unvisited : t.visits c = 0) :
    t.choice P cfg rootBoard false cs = some c ↔ t.FirstUnvisited P cfg rootBoard cs c := by
  rw [choice, found, ends_false, FirstUnvisited, kept]
  cases hwin : (cs.filter (t.playable P cfg rootBoard)).find? t.provenWin with
  | some d =>
      have hne : cs.filter (t.playable P cfg rootBoard) ≠ [] := by
        rintro hnil
        rw [hnil] at hwin
        cases hwin
      simp [hne]
  | none =>
      by_cases hnil : cs.filter (t.playable P cfg rootBoard) = []
      · rw [hnil]
        simp
      · obtain ⟨m, hm⟩ := Option.ne_none_iff_exists'.mp
          (mt List.argmax_eq_none.mp hnil : (cs.filter _).argmax t.visits ≠ none)
        rw [hm]
        simp only [Option.none_or, Option.some_or, Option.some.injEq, true_and, hnil, false_and,
          or_false, reduceCtorEq, false_or]
        constructor
        · rintro rfl
          have zero : ∀ x ∈ cs.filter (t.playable P cfg rootBoard), t.visits x = 0 := by
            intro x hx
            have hle := List.le_of_mem_argmax hx hm
            omega
          exact ⟨zero, by rw [← argmax_eq_head? zero, hm]⟩
        · rintro ⟨zero, hhead⟩
          rw [← argmax_eq_head? zero, hm] at hhead
          exact Option.some.inj hhead

omit [LinearOrder K] in
/-- Every child of a root writes within the array: its action is a pass or a
point. -/
theorem policyDis_isSome
    (moves : ∀ c ∈ cs, ∃ e, (t.nodes c).edge = some e ∧ -1 ≤ e.action ∧ e.action ≤ 360) :
    ∃ dis, t.policyDis cs = some dis := by
  have fold (l : List ℕ) (sub : l ⊆ cs) (sum : ℕ) (dis : List K) :
      ∃ dis', l.foldlM (fun dis i =>
        (t.nodes i).edge.bind fun edge =>
          (policyIndex edge.action).map fun index => dis.set index ((edge.n : K) / (sum : K)))
        dis = some dis' := by
    induction l generalizing dis with
    | nil => exact ⟨dis, rfl⟩
    | cons i l ih =>
        obtain ⟨hi, hl⟩ := List.cons_subset.mp sub
        obtain ⟨e, he, hlow, hhigh⟩ := moves i hi
        have hindex : ∃ index, policyIndex e.action = some index := by
          unfold policyIndex
          dsimp only
          split <;> rw [if_pos (by omega)] <;> exact ⟨_, rfl⟩
        obtain ⟨index, hindex⟩ := hindex
        rw [List.foldlM_cons, he, Option.bind_some, hindex]
        exact ih hl _
  exact fold cs (List.Subset.refl cs) _ _

/-- `mcts_select_action` after its loop: it resigns only by a visited child. -/
theorem mctsSelectAction_bestPair (hcs : (t.nodes cur).nexts = some cs) :
    t.mctsSelectAction P cfg cur rootBoard false =
      (bestPair (t.selectActionLoop P cfg rootBoard false cs
        ⟨actionResign, none, none, -100⟩)).map fun pair =>
          ((t.nodes pair.node).edge.elim pair fun edge =>
            if 0 < edge.n ∧ edge.winRate < cfg.resignThreshold then ⟨pair.node, actionResign⟩
            else pair) := by
  rw [mctsSelectAction, hcs, Option.bind_some]
  refine congrArg (Option.map · _) ?_
  funext pair
  cases (t.nodes pair.node).edge <;> rfl

/-- `selfplay_select_action` after its loop: it resigns by any child, visited or
not. -/
theorem selfplaySelectAction_bestPair (hcs : (t.nodes cur).nexts = some cs)
    (moves : ∀ c ∈ cs, ∃ e, (t.nodes c).edge = some e ∧ -1 ≤ e.action ∧ e.action ≤ 360)
    (late : 30 ≤ rootBoard.getTotalMoves) (draw : List K → ℕ) :
    (t.selfplaySelectAction P cfg cur rootBoard false draw).map (fun r => r.1.pair) =
      (bestPair (t.selectActionLoop P cfg rootBoard false cs
        ⟨actionResign, none, none, -100⟩)).bind fun pair =>
          (t.nodes pair.node).edge.map fun edge =>
            if edge.winRate < cfg.resignThreshold then ⟨pair.node, actionResign⟩ else pair := by
  obtain ⟨dis, hdis⟩ := policyDis_isSome moves
  rw [selfplaySelectAction, hcs, Option.bind_some, hdis, Option.bind_some]
  dsimp only
  rw [if_pos late, Option.bind_some, selfplayLoop_eq, Option.map_bind]
  refine congrArg (Option.bind _ ·) ?_
  funext pair
  rw [Function.comp_apply, Option.map_map]
  rfl

/-- The pair that the loop leaves is a child with its action. -/
theorem bestPair_child {pair : MCTSPair}
    (best : bestPair (t.selectActionLoop P cfg rootBoard false cs
      ⟨actionResign, none, none, -100⟩) = some pair) :
    pair.node ∈ cs ∧ (t.nodes pair.node).edge.map (·.action) = some pair.action := by
  unfold bestPair at best
  split at best
  · obtain ⟨i, hi, rfl⟩ := Option.map_eq_some_iff.mp best
    exact picksChildren_selectActionLoop.pass i hi
  · obtain ⟨i, hi, rfl⟩ := Option.map_eq_some_iff.mp best
    exact picksChildren_selectActionLoop.best i hi

/-- The child that is chosen is the one that match play answers with, whether it
resigns or not. -/
theorem choice_of_mcts {pair : MCTSPair}
    (hplayed : t.mctsSelectAction P cfg cur rootBoard false =
      (t.choice P cfg rootBoard false cs).map (t.moveOf cfg))
    (hmcts : t.mctsSelectAction P cfg cur rootBoard false = some pair) :
    t.choice P cfg rootBoard false cs = some pair.node := by
  rw [hmcts] at hplayed
  obtain ⟨c, hc, hpair⟩ := Option.map_eq_some_iff.mp hplayed.symm
  have hnode := congrArg MCTSPair.node hpair
  rw [node_moveOf] at hnode
  rw [hc, hnode]

/-- Whether the child that is chosen has no visit and a win rate at which
self-play resigns. -/
theorem exists_unvisited_iff {c : ℕ} {e : Edge K}
    (hchoice : t.choice P cfg rootBoard false cs = some c) (he : (t.nodes c).edge = some e) :
    (∃ c e, (t.nodes c).edge = some e ∧ e.n = 0 ∧ e.winRate < cfg.resignThreshold ∧
        t.FirstUnvisited P cfg rootBoard cs c) ↔
      e.n = 0 ∧ e.winRate < cfg.resignThreshold := by
  constructor
  · rintro ⟨c', e', he', hn, hrate, first⟩
    have hc := (choice_eq_iff (by simp [Tree.visits, he', hn])).mpr first
    rw [hchoice] at hc
    obtain rfl := Option.some.inj hc
    rw [he] at he'
    obtain rfl := Option.some.inj he'
    exact ⟨hn, hrate⟩
  · rintro ⟨hn, hrate⟩
    exact ⟨c, e, he, hn, hrate, (choice_eq_iff (by simp [Tree.visits, he, hn])).mp hchoice⟩

/-- **Self-play and match play choose alike** exactly where the first child is
not one without visits and with a win rate below the threshold, at which
self-play resigns. -/
theorem selfplay_eq_mcts_iff (hcs : (t.nodes cur).nexts = some cs)
    (moves : ∀ c ∈ cs, ∃ e, (t.nodes c).edge = some e ∧ -1 ≤ e.action ∧ e.action ≤ 360)
    (late : 30 ≤ rootBoard.getTotalMoves) (draw : List K → ℕ) :
    (t.selfplaySelectAction P cfg cur rootBoard false draw).map (fun r => r.1.pair) =
        t.mctsSelectAction P cfg cur rootBoard false ↔
      ¬ ∃ c e, (t.nodes c).edge = some e ∧ e.n = 0 ∧ e.winRate < cfg.resignThreshold ∧
        t.FirstUnvisited P cfg rootBoard cs c := by
  have edge (c : ℕ) (hc : c ∈ cs) : ∃ e, (t.nodes c).edge = some e :=
    (moves c hc).imp fun _ h => h.1
  have noResign (c : ℕ) (hc : c ∈ cs) :
      (t.nodes c).edge.map (·.action) ≠ some actionResign := by
    obtain ⟨e, he, hlow, -⟩ := moves c hc
    rw [he, Option.map_some, Ne, Option.some.injEq, actionResign]
    omega
  have hplayed : t.mctsSelectAction P cfg cur rootBoard false =
      (t.choice P cfg rootBoard false cs).map (t.moveOf cfg) :=
    mctsSelectAction_eq edge hcs noResign
  have hmcts : t.mctsSelectAction P cfg cur rootBoard false = _ := mctsSelectAction_bestPair hcs
  rw [selfplaySelectAction_bestPair hcs moves late draw]
  cases best : bestPair (t.selectActionLoop P cfg rootBoard false cs
      ⟨actionResign, none, none, -100⟩) with
  | none =>
      rw [best, Option.map_none] at hmcts
      rw [hmcts, Option.bind_none]
      refine iff_of_true rfl ?_
      rintro ⟨c, e, he, hn, -, first⟩
      have hchoice := (choice_eq_iff (by simp [Tree.visits, he, hn])).mpr first
      rw [hchoice, hmcts] at hplayed
      cases hplayed
  | some pair =>
      obtain ⟨hmem, haction⟩ := bestPair_child best
      obtain ⟨e, he⟩ := edge pair.node hmem
      have hne : pair.action ≠ actionResign := fun h => noResign _ hmem (haction.trans (by rw [h]))
      rw [best, Option.map_some, he, Option.elim_some] at hmcts
      -- the child that is played is the one that the loops leave
      have hchoice : t.choice P cfg rootBoard false cs = some pair.node := by
        have hnode := choice_of_mcts hplayed hmcts
        split_ifs at hnode <;> exact hnode
      rw [exists_unvisited_iff hchoice he]
      rw [hmcts, Option.bind_some, he, Option.map_some, Option.some.injEq]
      have hpair : pair ≠ ⟨pair.node, actionResign⟩ := fun h => hne (congrArg MCTSPair.action h)
      by_cases hrate : e.winRate < cfg.resignThreshold
      · rcases Nat.eq_zero_or_pos e.n with hn | hn
        · simp [hrate, hn, hpair.symm]
        · simp [hrate, hn, Nat.ne_of_gt hn]
      · simp [hrate]

/-- The settings of `conf/conf.ini` but for the threshold, which is the
default. -/
def resigningSettings : Settings ℚ := { shippedSettings with resignThreshold := 1 / 10 }

/-- A root whose pass has every visit, while its stone has none. -/
def passSearched : Tree ℚ := opened.modifyEdge 1 fun e => { e with n := 10 }

/-- A board after thirty passes. -/
def thirtyPasses : GoBoard Stones :=
  { GoBoard.new pachi with history := (List.replicate 30 GoBoard.posPass).flatMap GoBoard.token }

example :
    (GoBoard.applyMoves pachi (GoBoard.new pachi) (List.replicate 30 GoBoard.posPass)).map
      (fun board => (board.b, board.history)) = some (thirtyPasses.b, thirtyPasses.history) := by
  decide +kernel

/-- Its children are the pass and a stone. -/
theorem passSearched_moves : ∀ c ∈ [1, 2], ∃ e, (passSearched.nodes c).edge = some e ∧
    -1 ≤ e.action ∧ e.action ≤ 360 := by
  intro c hc
  rcases List.mem_pair.mp hc with rfl | rfl
  · exact ⟨_, rfl, by decide⟩
  · exact ⟨_, rfl, by decide⟩

/-- Black is behind, so the pass is skipped, and the stone comes first without a
visit.  Its win rate is zero and below the threshold, at which self-play
resigns. -/
theorem selfplay_eq_mcts_iff_passSearched :
    ∃ c e, (passSearched.nodes c).edge = some e ∧ e.n = 0 ∧
      e.winRate < resigningSettings.resignThreshold ∧
      passSearched.FirstUnvisited pachi resigningSettings thirtyPasses [1, 2] c := by
  by_contra h
  have heq : (passSearched.selfplaySelectAction pachi resigningSettings 0 thirtyPasses false
      fun _ => 0).map (fun r => r.1.pair) =
        passSearched.mctsSelectAction pachi resigningSettings 0 thirtyPasses false :=
    (selfplay_eq_mcts_iff rfl passSearched_moves (by decide +kernel) fun _ => 0).mpr h
  revert heq
  decide +kernel

/-- Self-play resigns where match play puts the stone: only match play asks for
a visit before it looks at the win rate. -/
theorem not_selfplay_eq_mcts :
    ¬ ∀ (cfg : Settings ℚ) (t : Tree ℚ) (cur : ℕ) (cs : List ℕ) (board : GoBoard Stones)
      (draw : List ℚ → ℕ), (t.nodes cur).nexts = some cs →
      (∀ c ∈ cs, ∃ e, (t.nodes c).edge = some e ∧ -1 ≤ e.action ∧ e.action ≤ 360) →
      0 < t.visitSum cs → 30 ≤ board.getTotalMoves →
      (t.selfplaySelectAction pachi cfg cur board false draw).map (fun r => r.1.pair) =
        t.mctsSelectAction pachi cfg cur board false := by
  intro h
  have heq := h resigningSettings passSearched 0 [1, 2] thirtyPasses (fun _ => 0) rfl
    passSearched_moves (by decide +kernel) (by decide +kernel)
  revert heq
  decide +kernel

end Tree

end EstarGo
