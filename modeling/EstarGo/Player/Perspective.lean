import EstarGo.Player.Player
import Mathlib.Tactic.LinearCombination
import Mathlib.Tactic.Linarith
import Mathlib.Tactic.NormNum

/-!
# One perspective

The sign of a value is computed three times: selection changes it with each
level of the descent, a request takes it from the colours to move on two boards,
and the score of a double pass from the colour to move at the root.  From a
history of even length on, each move appends two characters, so the colours
alternate as the levels do.

## Main definitions

* `engineColor` — the colour that `rollout(max)` plays for.
* `Better` — a colour has the better official score.

## Main results

* `sign_of_walk`: a descent ends with the sign that the colours give.
* `trompTaylor_requestFor`: the score of a double pass is that of the engine's
  colour.
* `one_perspective`: the three computations agree.

## Design notes

**Ties.**  The code gives -1 to every score that is not positive, so a tie is a
loss for whichever colour the engine has.  A komi that is no integer excludes
it, and the result asks for no more.
-/

namespace EstarGo

open Verif

variable {B K : Type} [Field K] [LinearOrder K]

/-- The colour that `rollout(max)` plays for: the colour to move at the root, or
the other one.  `gen_apply_move` calls it with 1; while the opponent thinks, it
is called with -1. -/
def engineColor (rootBoard : GoBoard B) (max : ℤ) : Color :=
  if max = 1 then rootBoard.getColor else rootBoard.getColor.other

/-- A colour has the better official score, which White counts for itself.  Komi
belongs to White, and with a komi that is not a whole number there are no
ties. -/
def Better (P : Pachi B) (komi : K) (b : B) : Color → Prop
  | .white => 0 < P.officialScore komi b
  | .black => P.officialScore komi b < 0

variable {P : Pachi B} {cfg : Settings K}

omit [Field K] [LinearOrder K] in
/-- The sign at the end of a descent is given by the colours at its ends: each
move changes both.  Here it matters that a move without a stone changes the
colour too. -/
theorem sign_of_walk {vl : ℤ} {t t' : Tree K} {v u : ℕ} {max max' : ℤ} {board board' : GoBoard B}
    (even : board.history.length % 2 = 0)
    (h : Tree.Walk P vl t v max board t' u max' board') :
    max' = if board'.getColor ≠ board.getColor then -max else max := by
  induction h with
  | stop => simp
  | @step t v max board nexts c won action board' t' u max' board'' _ _ _ _ _ applied _ ih =>
      have history := GoBoard.history_applyMove applied
      have flipped := GoBoard.getColor_of_history even history
      have even' : board'.history.length % 2 = 0 := by simp [history, even]
      rw [ih even', flipped, neg_neg]
      cases board''.getColor <;> cases board.getColor <;> rfl

/-- A request for the leaf of a descent is given the sign of its last call. -/
theorem minMax_of_select {t t' : Tree K} {root leaf : ℕ} {max max' remain : ℤ}
    {rootBoard board : GoBoard B} (even : rootBoard.history.length % 2 = 0)
    (found : t.mctsSelectPathRoot P cfg root max rootBoard remain = .leaf t' leaf board max')
    (nd : Node K) : (requestFor P cfg rootBoard board nd leaf max).minMax = max' :=
  (sign_of_walk even (Tree.walk_of_mctsSelectPathRoot found)).symm

section Score

variable [IsStrictOrderedRing K]

/-- The sign that the root's colour gives to a score for Black. -/
theorem better_iff (komi : K) (b : B) {max : ℤ} (hmax : max = 1 ∨ max = -1) (color : Color) :
    0 < -P.officialScore komi b * ((if color = .white then -max else max : ℤ) : K) ↔
      Better P komi b (if max = 1 then color else color.other) := by
  rcases hmax with rfl | rfl <;> cases color <;> simp [Better, Color.other]

open Classical in
/-- The sign given to the score of a double pass is that of the engine's colour.
The source arrives at it by two changes of sign, one for `max` and one for the
colour at the root. -/
theorem trompTaylor_requestFor {rootBoard board : GoBoard B} {nd : Node K} {leaf : ℕ} {max : ℤ}
    (hmax : max = 1 ∨ max = -1) (deep : 300 < nd.depth) :
    (requestFor P cfg rootBoard board nd leaf max).trompTaylor =
      if Better P cfg.komi board.b (engineColor rootBoard max) then 1 else -1 := by
  simp only [requestFor, gt_iff_lt, deep, if_true, GoBoard.getScoreBlack]
  exact if_congr (better_iff cfg.komi board.b hmax rootBoard.getColor) rfl rfl

/-- A komi that is no integer excludes ties, as the points on the board are
counted in whole numbers. -/
theorem officialScore_ne_zero {komi : K} (noInteger : ∀ n : ℤ, komi ≠ n) (b : B) :
    P.officialScore komi b ≠ 0 := by
  intro tie
  refine noInteger (P.scores b .black - P.scores b .white : ℤ) ?_
  rw [Pachi.officialScore] at tie
  push_cast
  linear_combination tie

omit [IsStrictOrderedRing K] in
/-- Without ties, one colour is better where the other is not. -/
theorem better_other {komi : K} {b : B} (noTie : P.officialScore komi b ≠ 0) (color : Color) :
    Better P komi b color.other ↔ ¬ Better P komi b color := by
  cases color with
  | white => exact ⟨fun h => not_lt.mpr h.le, fun h => lt_of_le_of_ne (not_lt.mp h) noTie⟩
  | black => exact ⟨fun h => not_lt.mpr h.le, fun h => lt_of_le_of_ne (not_lt.mp h) noTie.symm⟩

/-- **One perspective for all values.**  The sign that a request multiplies the
value of a leaf by is the one that selection came to the leaf with; and a double
pass beyond depth 300 is worth 1 exactly where the engine's colour has the
better score, and -1 exactly where the other has. -/
theorem one_perspective {t t' : Tree K} {root leaf : ℕ} {max max' remain : ℤ}
    {rootBoard board : GoBoard B} (even : rootBoard.history.length % 2 = 0)
    (hmax : max = 1 ∨ max = -1) (noTie : ∀ b : B, P.officialScore cfg.komi b ≠ 0)
    (found : t.mctsSelectPathRoot P cfg root max rootBoard remain = .leaf t' leaf board max')
    (nd : Node K) (rq : Request) (hrq : rq = requestFor P cfg rootBoard board nd leaf max) :
    rq.minMax = max' ∧
    ∀ item : PolicyItem K, item.pos = GoBoard.posPass → 300 < nd.depth →
      nd.edge.map (·.action) = some GoBoard.posPass →
      let result := (childNode leaf nd rq.trompTaylor item).result
      (result = 1 ↔ Better P cfg.komi board.b (engineColor rootBoard max)) ∧
        (result = -1 ↔ Better P cfg.komi board.b (engineColor rootBoard max).other) := by
  classical
  subst hrq
  refine ⟨minMax_of_select even found nd, fun item hpass deep hedge => ?_⟩
  simp only [childNode, hpass, deep, hedge, and_self, if_true,
    trompTaylor_requestFor hmax deep, better_other (noTie _)]
  split <;> simp [*]

end Score

/-- With the root opened, a descent comes to a child with the sign of the other
colour, and so does the request for this child. -/
theorem one_perspective_searched : ∃ (s : Player Stones ℚ) (t' : Tree ℚ) (leaf : ℕ)
    (board : GoBoard Stones),
    (playerMachine pachi shippedSettings).exec newGame (searchedGame.take 3) = some s ∧
      s.tree.mctsSelectPathRoot pachi shippedSettings 0 1 s.rootBoard 8 =
        .leaf t' leaf board (-1) ∧
      (requestFor pachi shippedSettings s.rootBoard board (s.tree.nodes leaf) leaf 1).minMax =
        -1 := by
  have seen : (((playerMachine pachi shippedSettings).exec newGame (searchedGame.take 3)).map
      fun s => (s.rootBoard.history.length,
        (s.tree.mctsSelectPathRoot pachi shippedSettings 0 1 s.rootBoard 8).max)) =
      some (0, some (-1)) := by decide +kernel
  obtain ⟨s, run, hs⟩ := Option.map_eq_some_iff.mp seen
  obtain ⟨length, sign⟩ := Prod.mk.inj hs
  obtain ⟨t', leaf, board, found⟩ := Descent.max_eq_some sign
  have noTie (b : Stones) : pachi.officialScore shippedSettings.komi b ≠ 0 := by
    refine officialScore_ne_zero (fun n tie => ?_) b
    have tie : (15 / 2 : ℚ) = n := tie
    have : (15 : ℤ) = 2 * n := by exact_mod_cast (by linarith : (15 : ℚ) = 2 * n)
    omega
  exact ⟨s, t', leaf, board, run, found, (one_perspective (by simp [length]) (.inl rfl) noTie
    found (s.tree.nodes leaf) _ rfl).1⟩

end EstarGo
