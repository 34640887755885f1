import Mathlib.Algebra.Order.Field.Basic
import Mathlib.Data.Int.Cast.Lemmas

/-!
# The board wrapper

`GoBoard` wraps the vendored board, whose operations it uses are the parameters
of `Pachi`.  It keeps the history of the game as text, two characters for each
move, a window of the last eight position hashes, and a flag that is raised by
the first repetition and never lowered.

## Main definitions

* `Pachi` — the vendored board as the wrapper sees it.
* `GoBoard` — the wrapper, with `applyMove` as its one operation that plays.
* `withstands` — whether a move comes to its end, as far as the assertions of
  the vendored board go.

## Design notes

**The vendored board is a parameter.**  What is proved of the wrapper for any
`Pachi` is proved of it on a board that does something else.  Two instances are
given: a list of stones, and `struct board` as it is stored.

**Whose turn it is** is not stored: the wrapper reads it off the length of the
history, so a move without a stone passes the turn, and nothing else does.

**An action is an integer.**  `POS_PASS` and `POS_RESIGN` are negative, and so
is whatever else the arithmetic of a caller comes to; all of them are moves
without a stone for `apply_move`.
-/

namespace EstarGo

/-- `S_BLACK` and `S_WHITE`; `COLOR_BLACK` and `COLOR_WHITE` in the wrapper. -/
inductive Color where
  | black
  | white
  deriving DecidableEq, Repr

/-- The colour of the opponent. -/
def Color.other : Color → Color
  | black => white
  | white => black

/-- What `GoBoard` uses of the vendored board.  A coordinate is the pair that
`coord_xy` is given.  The operations are total: what they do after a failing
assertion is not what the process does, and `asserted` says so. -/
structure Pachi (B : Type) where
  /-- `board_new`, `board_set_rules`, `board_resize` and `board_clear`. -/
  clear : B
  /-- `board_is_valid_move`. -/
  isValidMove : B → Color → ℕ × ℕ → Bool
  /-- `board_play` on a valid move. -/
  play : B → Color → ℕ × ℕ → B
  /-- `b->hash`. -/
  hash : B → UInt64
  /-- `scores[]` of `board_official_score_details`: the points each colour
  controls. -/
  scores : B → Color → ℕ
  /-- No `assert` of `board_play` has failed on the way to this board.  A
  failing one ends the process. -/
  asserted : B → Bool

/-- `board_official_score` under Chinese rules without handicap: from the
perspective of White. -/
def Pachi.officialScore {B K : Type} [Field K] (P : Pachi B) (komi : K) (b : B) : K :=
  komi + P.scores b .white - P.scores b .black

/-- `class GoBoard`; its komi is a setting.  The history is the text that the
class keeps, not a list of moves. -/
structure GoBoard (B : Type) where
  b : B
  history : List UInt8
  hash8 : List UInt64
  boardRepetition : Bool

namespace GoBoard

variable {B K : Type} (P : Pachi B)

/-- `POS_PASS`. -/
def posPass : ℤ := -1

/-- `POS_RESIGN`. -/
def posResign : ℤ := -2

/-- The constructor; `resize(8)` fills the window with zeros. -/
def new : GoBoard B where
  b := P.clear
  history := []
  hash8 := List.replicate 8 0
  boardRepetition := false

/-- The two characters `add_move_to_history` appends: column and row for a
stone, counted from `A` and from `a` without leaving out a letter, and `ZP` and
`ZR` for the moves without one. -/
def token (pos : ℤ) : List UInt8 :=
  if pos = posPass then [90, 80]
  else if pos = posResign then [90, 82]
  else [UInt8.ofInt (pos.tmod 19 + 65), UInt8.ofInt (pos.tdiv 19 + 97)]

@[simp] theorem length_token (pos : ℤ) : (token pos).length = 2 := by
  unfold token
  split
  · rfl
  · split <;> rfl

variable {P}

/-- `add_move_to_history`, which is called for accepted moves only. -/
def addMoveToHistory (board : GoBoard B) (pos : ℤ) : GoBoard B :=
  { board with history := board.history ++ token pos }

/-- `check_repetition`: the hash is one of those in the window. -/
def checkRepetition (board : GoBoard B) (curHash : UInt64) : Bool :=
  board.hash8.contains curHash

/-- `store_hash`: the window grows up to eight hashes, and then loses the oldest
one. -/
def storeHash (board : GoBoard B) (curHash : UInt64) : GoBoard B :=
  if board.hash8.length < 8 then { board with hash8 := board.hash8 ++ [curHash] }
  else { board with hash8 := board.hash8.tail ++ [curHash] }

/-- `get_color`: the colour of the next player.  Two characters a move, so the
length modulo four tells it. -/
def getColor (board : GoBoard B) : Color :=
  if (board.history.length % 4) / 2 = 0 then .black else .white

/-- `get_total_moves`, with two characters for each move. -/
def getTotalMoves (board : GoBoard B) : ℕ := board.history.length / 2

variable (P)

/-- `_apply_move`, which records the hash of the position even where it refuses
the move.  A hash that the window holds raises the flag and is not stored
again. -/
def _applyMove (board : GoBoard B) (action : ℕ) (color : Color) : Bool × GoBoard B :=
  let coord := (action % 19 + 1, action / 19 + 1)
  let succ := P.isValidMove board.b color coord
  let played : GoBoard B := if succ then { board with b := P.play board.b color coord } else board
  let curHash := P.hash played.b
  (succ, if played.checkRepetition curHash then { played with boardRepetition := true }
    else played.storeHash curHash)

/-- `apply_move`: a stone where `action ≥ 0`, else only a token.  A refused
stone leaves no token, so the turn does not pass. -/
def applyMove (board : GoBoard B) (action : ℤ) : Bool × GoBoard B :=
  if 0 ≤ action then
    let r := _applyMove P board action.toNat board.getColor
    (r.1, if r.1 then r.2.addMoveToHistory action else r.2)
  else (true, board.addMoveToHistory action)

/-- `apply_move` comes to its end: a move without a stone does, and one with a
stone unless an `assert` of the vendored board fails. -/
def withstands (board : GoBoard B) (action : ℤ) : Bool :=
  decide (action < 0) || P.asserted (applyMove P board action).2.b

/-- `get_score_black`; the sign turns the perspective of White into that of
Black. -/
def getScoreBlack [Field K] (komi : K) (board : GoBoard B) : K :=
  -P.officialScore komi board.b

/-- `is_pass_safe`: the player to move does not lose if the game ends here.  The
score is that of White, and komi counts for him. -/
def isPassSafe [Field K] [LinearOrder K] (komi : K) (board : GoBoard B) : Bool :=
  let score := P.officialScore komi board.b
  decide (0 ≤ if board.getColor = .black then -score else score)

/-! ## What a move does

The history is the only part of the wrapper that every move changes, and it
changes in one way.  What callers use of a move is mostly this. -/

variable {P}

@[simp] theorem history_storeHash (board : GoBoard B) (curHash : UInt64) :
    (board.storeHash curHash).history = board.history := by
  unfold storeHash
  split <;> rfl

@[simp] theorem _applyMove_history (board : GoBoard B) (action : ℕ) (color : Color) :
    (_applyMove P board action color).2.history = board.history := by
  unfold _applyMove
  dsimp only
  split <;> split <;> simp

/-- An applied move appends its token, whether it has a stone or not. -/
theorem history_applyMove {board board' : GoBoard B} {action : ℤ}
    (h : applyMove P board action = (true, board')) :
    board'.history = board.history ++ token action := by
  unfold applyMove at h
  split at h
  · obtain ⟨hsucc, rfl⟩ := Prod.mk.inj h
    simp [hsucc, addMoveToHistory]
  · obtain ⟨-, rfl⟩ := Prod.mk.inj h
    rfl

/-- A pass changes nothing but the history. -/
theorem applyMove_pass (board : GoBoard B) :
    applyMove P board posPass = (true, board.addMoveToHistory posPass) := by
  simp [applyMove, posPass]

theorem getTotalMoves_of_history {board board' : GoBoard B} {action : ℤ}
    (h : board'.history = board.history ++ token action) :
    board'.getTotalMoves = board.getTotalMoves + 1 := by
  simp [getTotalMoves, h]

/-- The colours alternate from an even length of history on. -/
theorem getColor_of_history {board board' : GoBoard B} {action : ℤ}
    (even : board.history.length % 2 = 0)
    (h : board'.history = board.history ++ token action) :
    board'.getColor = board.getColor.other := by
  have hlen : board'.history.length = board.history.length + 2 := by simp [h]
  unfold getColor
  rw [hlen]
  split <;> split <;> first | rfl | omega

end GoBoard

end EstarGo
