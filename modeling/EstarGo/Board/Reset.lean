import EstarGo.Board.Game
import Mathlib.Algebra.Field.Rat

/-!
# Refused moves and a reset board

`_apply_move` records the hash of the position after a refused move as well, and
`reset` clears the vendored board and the history only.  What either leaves
behind is in the window of hashes and the flag; both show when a later position
has a hash that the window holds.

## Main definitions

* `reset`, `Reachable` — the method, and the boards that calls from outside lead
  to.
* `View`, `views` — what the queries answer, now and after each of some moves.

## Main results

* `applyMove_refused_iff`: when a refused move leaves no trace.
* `reset_eq_new_iff`: when a reset board answers a sequence of moves as a new
  one does.

## Design notes

**Traces are answers.**  Two boards are told apart by what they answer to moves
and queries, so a difference in the window alone is one only if some sequence of
moves brings it out.  For refused moves it always can; for a reset board it
depends on the moves.

**Two recorders of one stream.**  A reset board and a new one see the same
positions, and the same hashes, but through different windows.  The library of
windows says when the flags go up together, and the flag is the only query that
can differ.
-/

namespace EstarGo

open Verif

namespace GoBoard

variable {B : Type} (K : Type) [Field K] (P : Pachi B) (komi : K)

/-- `reset`: the vendored board and the history are cleared, the window and the
flag are not. -/
def reset (board : GoBoard B) : GoBoard B := { board with b := P.clear, history := [] }

/-- The boards that calls from outside lead to, accepted or not, with replays
and resets among them. -/
inductive Reachable : GoBoard B → Prop where
  | new : Reachable (new P)
  | applyMove {board : GoBoard B} (h : Reachable board) (action : ℤ) :
      Reachable (applyMove P board action).2
  | applyHistory {board board' : GoBoard B} (h : Reachable board) (history : List UInt8)
      (run : applyHistory P board history = some board') : Reachable board'
  | reset {board : GoBoard B} (h : Reachable board) : Reachable (reset P board)

variable {K}

/-- What the queries answer: `get_history`, `get_color`, `get_hash`,
`get_board_repetition` and `get_score_black`.  The window of hashes is not among
them. -/
@[ext]
structure View (K : Type) where
  history : List UInt8
  color : Color
  hash : UInt64
  boardRepetition : Bool
  scoreBlack : K

/-- The answers on a board. -/
def view (board : GoBoard B) : View K where
  history := board.history
  color := board.getColor
  hash := P.hash board.b
  boardRepetition := board.boardRepetition
  scoreBlack := getScoreBlack P komi board

/-- Whether each of a sequence of moves is accepted, and the answers after it.
Boards with the same views cannot be told apart by their users. -/
def views : GoBoard B → List ℤ → List (Bool × View K)
  | _, [] => []
  | board, action :: rest =>
      ((applyMove P board action).1, view P komi (applyMove P board action).2) ::
        views (applyMove P board action).2 rest

variable {P komi} {board board' : GoBoard B} {action : ℤ}

/-! ## The window stays full

The window starts with eight zeros and loses one hash for each that it gains. -/

/-- A move leaves the window full. -/
theorem length_hash8_applied (full : board.hash8.length = 8) (pos : ℕ) (color : Color) :
    (_applyMove P board pos color).2.hash8.length = 8 := by
  have hrec := _applyMove_recorder (P := P) full pos color
  have hlen : (_applyMove P board pos color).2.recorder.window.length = 8 :=
    hrec ▸ length_record full _
  exact hlen

theorem hash8_applyMove (full : board.hash8.length = 8) (action : ℤ) :
    (applyMove P board action).2.hash8.length = 8 := by
  unfold applyMove
  split
  · dsimp only
    split <;> exact length_hash8_applied full _ _
  · exact full

theorem hash8_replay {step : ℕ} {history : List UInt8} (full : board.hash8.length = 8)
    (run : replay P step history board = some board') : board'.hash8.length = 8 := by
  induction step, history, board using replay.induct P with
  | case1 step hi lo rest board hstone hpos next hplay ih =>
      rw [replay, if_pos hstone, if_pos hpos, hplay] at run
      have hnext := length_hash8_applied (P := P) full (tokenPos hi lo).toNat (stepColor step)
      rw [hplay] at hnext
      exact ih hnext run
  | case2 step hi lo rest board hstone hpos next hplay =>
      rw [replay, if_pos hstone, if_pos hpos, hplay] at run
      cases run
  | case3 step hi lo rest board hstone hpos =>
      rw [replay, if_pos hstone, if_neg hpos] at run
      cases run
  | case4 step hi lo rest board hpass ih =>
      rw [replay, if_neg hpass] at run
      exact ih full run
  | case5 step history board hshort =>
      rw [replay] at run
      · cases run
        exact full
      · exact hshort

/-- **The window** of every board holds eight hashes, so the case of a window
that still grows does not arise. -/
theorem hash8_reachable (h : Reachable P board) : board.hash8.length = 8 := by
  induction h with
  | new => exact List.length_replicate
  | applyMove _ action ih => exact hash8_applyMove ih action
  | @applyHistory board board' _ history run ih =>
      unfold GoBoard.applyHistory at run
      split at run
      · have full : ({ board with history := history } : GoBoard B).hash8.length = 8 := ih
        exact hash8_replay full run
      · cases run
  | reset _ ih => exact ih

/-! ## Refused moves

What a refused move leaves behind is at most one hash in the window, or a raised
flag. -/

/-- A refused move leaves the stones and the history; it records the hash of the
position as if it had been played. -/
theorem applyMove_refused (hrefused : (applyMove P board action).1 = false) :
    (applyMove P board action).2 =
      if P.hash board.b ∈ board.hash8 then { board with boardRepetition := true }
      else board.storeHash (P.hash board.b) := by
  unfold applyMove at hrefused ⊢
  split at hrefused
  · next hstone =>
    have hinvalid : P.isValidMove board.b board.getColor
        (action.toNat % 19 + 1, action.toNat / 19 + 1) = false := hrefused
    simp [_applyMove, hinvalid, checkRepetition, hstone]
  · cases hrefused

/-- A hash that the window does not hold changes it, so storing it leaves a
trace. -/
theorem storeHash_ne {curHash : UInt64} (hmem : curHash ∉ board.hash8) :
    board.storeHash curHash ≠ board := by
  intro heq
  have hin : curHash ∈ (board.storeHash curHash).hash8 := by
    unfold storeHash
    split <;> simp
  rw [heq] at hin
  exact hmem hin

/-- **A refused move** leaves the stones and the history.  It leaves no trace,
in the board and so in every later answer, exactly when the flag was already up
and the window holds the hash of the position. -/
theorem applyMove_refused_iff (hrefused : (applyMove P board action).1 = false) :
    (applyMove P board action).2.b = board.b ∧
      (applyMove P board action).2.history = board.history ∧
      ((applyMove P board action).2 = board ∧
          (∀ rest, views P komi (applyMove P board action).2 rest = views P komi board rest) ↔
        board.boardRepetition = true ∧ P.hash board.b ∈ board.hash8) := by
  rw [applyMove_refused hrefused]
  by_cases hmem : P.hash board.b ∈ board.hash8
  · rw [if_pos hmem]
    refine ⟨rfl, rfl, ?_, ?_⟩
    · rintro ⟨heq, -⟩
      exact ⟨(congrArg boardRepetition heq).symm, hmem⟩
    · rintro ⟨hflag, -⟩
      have heq : ({ board with boardRepetition := true } : GoBoard B) = board := by
        rw [← hflag]
      exact ⟨heq, fun rest => by rw [heq]⟩
  · rw [if_neg hmem]
    refine ⟨?_, history_storeHash _ _, ?_⟩
    · unfold storeHash
      split <;> rfl
    · constructor
      · rintro ⟨heq, -⟩
        exact absurd heq (storeHash_ne hmem)
      · rintro ⟨-, hin⟩
        exact absurd hin hmem

/-- Black on the point of the first stone: the next move there is refused, and
raises the flag. -/
theorem applyMove_refused_iff_twice :
    ¬ ((applyMove pachi (applyMove pachi (new pachi) 72).2 72).2 =
        (applyMove pachi (new pachi) 72).2 ∧
      ∀ rest, views pachi (0 : ℚ) (applyMove pachi (applyMove pachi (new pachi) 72).2 72).2 rest =
        views pachi 0 (applyMove pachi (new pachi) 72).2 rest) := by
  have hrefused : (applyMove pachi (applyMove pachi (new pachi) 72).2 72).1 = false := by
    decide +kernel
  rw [(applyMove_refused_iff hrefused).2.2]
  decide +kernel

/-- The point of the first stone once more: the move is refused, but the hash of
the position is looked up again, and the flag is raised. -/
theorem not_refused_traceless :
    ¬ ∀ (board : GoBoard Stones) (action : ℤ), Reachable pachi board → 0 ≤ action →
      action ≤ 360 → (applyMove pachi board action).1 = false →
      (applyMove pachi board action).2 = board := by
  intro h
  have heq := h (applyMove pachi (new pachi) 72).2 72 (Reachable.new.applyMove 72)
    (by decide) (by decide) (by decide +kernel)
  have hflag := congrArg boardRepetition heq
  revert hflag
  decide +kernel

/-! ## A reset board

What a reset leaves behind is the window and the flag of the game before it. -/

/-- Two boards with the same stones and text, whatever their windows and
flags. -/
def SameGame (board board' : GoBoard B) : Prop :=
  board.b = board'.b ∧ board.history = board'.history

/-- The flag is the only answer the stones and the text leave open. -/
theorem view_eq_iff (h : SameGame board board') :
    view P komi board = view P komi board' ↔
      board.boardRepetition = board'.boardRepetition := by
  constructor
  · intro heq
    exact congrArg View.boardRepetition heq
  · intro hflag
    simp only [view, getColor, getScoreBlack, h.1, h.2, hflag]

/-- The stones after a move do not depend on the window. -/
theorem applied_b (pos : ℕ) (color : Color) :
    (_applyMove P board pos color).2.b =
      if P.isValidMove board.b color (pos % 19 + 1, pos / 19 + 1) then
        P.play board.b color (pos % 19 + 1, pos / 19 + 1)
      else board.b := by
  unfold _applyMove
  dsimp only
  rw [b_store]
  split <;> rfl

/-- **One move** is accepted on both boards or on none, and they stay the same
game. -/
theorem sameGame_applyMove (h : SameGame board board') (action : ℤ) :
    (applyMove P board action).1 = (applyMove P board' action).1 ∧
      SameGame (applyMove P board action).2 (applyMove P board' action).2 := by
  have hcolor : board.getColor = board'.getColor := by
    unfold getColor
    rw [h.2]
  unfold applyMove
  rw [hcolor]
  split
  · have hfst : (_applyMove P board action.toNat board'.getColor).1 =
        (_applyMove P board' action.toNat board'.getColor).1 := by
      unfold _applyMove
      rw [h.1]
    refine ⟨hfst, ?_⟩
    dsimp only
    rw [hfst]
    have hgame : SameGame (_applyMove P board action.toNat board'.getColor).2
        (_applyMove P board' action.toNat board'.getColor).2 := by
      constructor
      · rw [applied_b, applied_b, h.1]
      · rw [_applyMove_history, _applyMove_history, h.2]
    split
    · exact ⟨hgame.1, congrArg (· ++ token action) hgame.2⟩
    · exact hgame
  · exact ⟨rfl, h.1, congrArg (· ++ token action) h.2⟩

/-- What a move records, accepted or not: the hash of the position after it, if
it has a stone. -/
theorem recorder_applyMove (full : board.hash8.length = 8) (action : ℤ) :
    (applyMove P board action).2.recorder =
      if 0 ≤ action then board.recorder.record 8 (P.hash (applyMove P board action).2.b)
      else board.recorder := by
  unfold applyMove
  split
  · have hrec := _applyMove_recorder (P := P) full action.toNat board.getColor
    dsimp only
    split <;> exact hrec
  · rfl

/-- The same game is answered alike exactly when the recorders raise their flags
together, which the library decides. -/
theorem views_eq_iff (full : board.hash8.length = 8) (full' : board'.hash8.length = 8)
    (h : SameGame board board') (actions : List ℤ) :
    view P komi board = view P komi board' ∧ views P komi board actions =
        views P komi board' actions ↔
      Recorder.SameFlags 8 board.recorder board'.recorder (stoneHashes P board' actions) := by
  induction actions generalizing board board' with
  | nil =>
      rw [stoneHashes, Recorder.sameFlags_nil, view_eq_iff h]
      simp [views, recorder]
  | cons action rest ih =>
      obtain ⟨haccepted, hgame⟩ := sameGame_applyMove (P := P) h action
      have hrest := ih (hash8_applyMove full action) (hash8_applyMove full' action) hgame
      have hrec := recorder_applyMove (P := P) full action
      have hrec' := recorder_applyMove (P := P) full' action
      have hviews : views P komi board (action :: rest) = views P komi board' (action :: rest) ↔
          view P komi (applyMove P board action).2 = view P komi (applyMove P board' action).2 ∧
            views P komi (applyMove P board action).2 rest =
              views P komi (applyMove P board' action).2 rest := by
        rw [views, views, haccepted, List.cons.injEq, Prod.mk.injEq]
        simp
      rw [hviews, hrest, view_eq_iff h, stoneHashes]
      by_cases hstone : 0 ≤ action
      · rw [if_pos hstone] at hrec hrec' ⊢
        rw [Recorder.sameFlags_cons, hrec, hrec', hgame.1]
        rfl
      · -- a pass records nothing
        rw [if_neg hstone] at hrec hrec' ⊢
        rw [hrec, hrec']
        constructor
        · exact fun h => h.2
        · exact fun h => ⟨h 0, h⟩

/-- **Reset and new.**  A reset board answers a sequence of moves as a new one
does exactly when no repetition had been flagged, and the first position of the
sequence to repeat with the window that the earlier game left is the first to
repeat with the window of a new board. -/
theorem reset_eq_new_iff (hreach : Reachable P board) (actions : List ℤ) :
    view P komi (reset P board) = view P komi (new P) ∧
        views P komi (reset P board) actions = views P komi (new P) actions ↔
      board.boardRepetition = false ∧
        ∀ i, (∀ j < i, ¬ RepeatsAt 8 (List.replicate 8 0) (stoneHashes P (new P) actions) j) →
          (RepeatsAt 8 board.hash8 (stoneHashes P (new P) actions) i ↔
            RepeatsAt 8 (List.replicate 8 0) (stoneHashes P (new P) actions) i) := by
  have full : (reset P board).hash8.length = 8 := hash8_reachable hreach.reset
  have full' : (new P).hash8.length = 8 := List.length_replicate
  rw [views_eq_iff full full' ⟨rfl, rfl⟩]
  exact Recorder.sameFlags_iff (Nat.le_of_eq full) (Nat.le_of_eq full') _

/-- After a game of one stone, another point is played as on a new board. -/
theorem reset_eq_new_iff_other :
    view pachi (0 : ℚ) (reset pachi (applyMove pachi (new pachi) 72).2) =
        view pachi 0 (new pachi) ∧
      views pachi (0 : ℚ) (reset pachi (applyMove pachi (new pachi) 72).2) [288] =
        views pachi 0 (new pachi) [288] := by
  refine (reset_eq_new_iff (Reachable.new.applyMove 72) [288]).mpr ⟨by decide +kernel, ?_⟩
  intro i _
  rcases i with _ | i
  · decide +kernel
  · constructor <;> exact fun h => absurd h (by simp [RepeatsAt, stoneHashes])

/-- The same point is a repetition after the reset. -/
theorem not_reset_eq_new :
    ¬ ∀ board : GoBoard Stones, Reachable pachi board → ∀ actions : List ℤ,
      views pachi (0 : ℚ) (reset pachi board) actions = views pachi 0 (new pachi) actions := by
  intro h
  have heq := h (applyMove pachi (new pachi) 72).2 (Reachable.new.applyMove 72) [72]
  have hflags := congrArg (List.map fun v => v.2.boardRepetition) heq
  revert hflags
  decide +kernel

end GoBoard

end EstarGo
