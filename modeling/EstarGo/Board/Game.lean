import EstarGo.Board.Stones
import EstarGo.Lib.Window

/-!
# The moves of a game

Sequences of `apply_move`, and `apply_history`, which replays the text of a game
on another board.  The window of hashes and the flag of a board are a recorder
of the stream of position hashes; encoding and decoding a move have separate
code, and separate rules for the colour to move.

## Main definitions

* `applyMoves` — a game: moves that are all accepted.
* `positionHashes` — the hashes of its positions, as the window sees them.
* `applyHistory` — the replay of a text, with its assertions.

## Main results

* `boardRepetition_iff`: the flag says exactly that one of the last positions
  came back.
* `applyHistory_history`: replaying the text of a game gives its board.

## Design notes

**Hashes, not positions.**  The flag compares hashes, so it is raised where two
positions have one hash.  That this means one position is the business of the
table of keys, and is not proved here.

**Zero counts.**  The window starts with eight zeros, and zero is the hash of
the empty board.  So the empty position before the first move is one of those
that a later one can repeat.
-/

namespace EstarGo

open Verif

namespace GoBoard

variable {B : Type} (P : Pachi B)

/-- Calls of `apply_move` that all return true; `none` as soon as one is
refused.  Such a sequence is a game as the wrapper sees it. -/
def applyMoves : GoBoard B → List ℤ → Option (GoBoard B)
  | board, [] => some board
  | board, action :: rest =>
      match applyMove P board action with
      | (true, next) => applyMoves next rest
      | (false, _) => none

/-- The hash of the position after each stone of these calls.  A move without a
stone records nothing. -/
def stoneHashes : GoBoard B → List ℤ → List UInt64
  | _, [] => []
  | board, action :: rest =>
      let next := (applyMove P board action).2
      if 0 ≤ action then P.hash next.b :: stoneHashes next rest else stoneHashes next rest

/-- The position hashes of a game: zero for the empty board, then one for each
stone. -/
def positionHashes (actions : List ℤ) : List UInt64 := 0 :: stoneHashes P (new P) actions

/-! ## The text of a game -/

/-- The arithmetic of `apply_history` on the two characters of a stone.  A
character is signed in the source. -/
def tokenPos (hi lo : UInt8) : ℤ := hi.toInt8.toInt - 65 + (lo.toInt8.toInt - 97) * 19

/-- The color of `_apply_move(pos, step % 2)`: the replay counts the moves,
where the game looks at the length of its history. -/
def stepColor (step : ℕ) : Color := if step % 2 = 0 then .black else .white

/-- The loop of `apply_history`; `none` where the assertion on a move fails.  A
negative position is in the margin of the board or before it. -/
def replay : ℕ → List UInt8 → GoBoard B → Option (GoBoard B)
  | step, hi :: lo :: rest, board =>
      if hi ≠ 90 then
        if 0 ≤ tokenPos hi lo then
          match _applyMove P board (tokenPos hi lo).toNat (stepColor step) with
          | (true, next) => replay (step + 1) rest next
          | (false, _) => none
        else none
      else replay (step + 1) rest board
  | _, _, board => some board

/-- `apply_history`; `none` where an assertion fails.  The text becomes the
history before its moves are replayed, and their replay does not touch it. -/
def applyHistory (board : GoBoard B) (history : List UInt8) : Option (GoBoard B) :=
  if history.length % 2 = 0 then replay P 0 history { board with history := history } else none

variable {P} {board board' : GoBoard B} {action : ℤ} {rest actions : List ℤ}

/-- The first move of a game, and the game that is left. -/
theorem applyMoves_cons (h : applyMoves P board (action :: rest) = some board') :
    ∃ next, applyMove P board action = (true, next) ∧ applyMoves P next rest = some board' := by
  rw [applyMoves] at h
  split at h
  · next next heq => exact ⟨next, heq, h⟩
  · exact absurd h (by simp)

/-- An accepted move without a stone leaves all but the history. -/
theorem applyMove_neg (neg : ¬ 0 ≤ action) (h : applyMove P board action = (true, board')) :
    board' = board.addMoveToHistory action := by
  rw [applyMove, if_neg neg] at h
  exact (Prod.mk.inj h).2.symm

/-- A stone is accepted exactly where the vendored board allows it. -/
theorem applyMove_fst (nonneg : 0 ≤ action) :
    (applyMove P board action).1 = P.isValidMove board.b board.getColor
      (action.toNat % 19 + 1, action.toNat / 19 + 1) := by
  rw [applyMove, if_pos nonneg]
  rfl

theorem applyMove_stone (nonneg : 0 ≤ action)
    (h : applyMove P board action = (true, board')) :
    ∃ played, _applyMove P board action.toNat board.getColor = (true, played) ∧
      board' = played.addMoveToHistory action := by
  rw [applyMove, if_pos nonneg] at h
  obtain ⟨hsucc, rfl⟩ := Prod.mk.inj h
  exact ⟨_, Prod.ext hsucc rfl, by rw [if_pos hsucc]⟩

/-! ## Repetition -/

/-- The window and the flag, as a recorder of hashes.  What is known of
recorders in general is thus known of the board. -/
def recorder (board : GoBoard B) : Recorder UInt64 := ⟨board.hash8, board.boardRepetition⟩

/-- The end of `_apply_move` records one hash, where the window is full. -/
theorem recorder_store (full : board.hash8.length = 8) (curHash : UInt64) :
    (if board.checkRepetition curHash then { board with boardRepetition := true }
      else board.storeHash curHash).recorder = board.recorder.record 8 curHash := by
  by_cases hmem : curHash ∈ board.hash8
  · rw [if_pos (show board.checkRepetition curHash = true from List.contains_iff_mem.mpr hmem),
      Recorder.record_of_mem (r := board.recorder) hmem]
    rfl
  · have hcheck : ¬ board.checkRepetition curHash = true := fun hc =>
      hmem (List.contains_iff_mem.mp hc)
    have hfull : ¬ board.hash8.length < 8 := by omega
    have hlast : lastN 8 (board.hash8 ++ [curHash]) = board.hash8.tail ++ [curHash] := by
      rw [lastN, List.length_append, full, List.drop_append_of_le_length (by simp [full])]
      simp
    rw [if_neg hcheck, storeHash, if_neg hfull,
      Recorder.record_of_not_mem (r := board.recorder) hmem]
    exact congrArg (Recorder.mk · board.boardRepetition) hlast.symm

theorem b_store (board : GoBoard B) (curHash : UInt64) :
    (if board.checkRepetition curHash then { board with boardRepetition := true }
      else board.storeHash curHash).b = board.b := by
  rw [storeHash]
  split
  · rfl
  · split <;> rfl

/-- `_apply_move` records the hash of the position after it. -/
theorem _applyMove_recorder (full : board.hash8.length = 8) (pos : ℕ) (color : Color) :
    (_applyMove P board pos color).2.recorder =
      board.recorder.record 8 (P.hash (_applyMove P board pos color).2.b) := by
  unfold _applyMove
  dsimp only
  rw [b_store]
  split
  · have played (b : B) : ({ board with b := b } : GoBoard B).hash8.length = 8 := full
    exact recorder_store (played _) _
  · exact recorder_store full _

/-- The window stays full, so the case of a window that still grows never comes
up. -/
theorem length_record {r : Recorder UInt64} (full : r.window.length = 8) (curHash : UInt64) :
    (r.record 8 curHash).window.length = 8 := by
  unfold Recorder.record
  split
  · exact full
  · simp [lastN, full]

/-- The recorder after accepted moves has recorded the hash of each position, in
order. -/
theorem recorder_applyMoves (full : board.hash8.length = 8)
    (h : applyMoves P board actions = some board') :
    board'.recorder = (stoneHashes P board actions).foldl (Recorder.record 8) board.recorder := by
  induction actions generalizing board with
  | nil =>
      cases h
      rfl
  | cons action rest ih =>
      obtain ⟨next, hmove, hrest⟩ := applyMoves_cons h
      rw [stoneHashes]
      simp only [hmove]
      by_cases hstone : 0 ≤ action
      · obtain ⟨played, hplayed, rfl⟩ := applyMove_stone hstone hmove
        have hrec : played.recorder = board.recorder.record 8 (P.hash played.b) := by
          simpa only [hplayed] using _applyMove_recorder (P := P) full action.toNat board.getColor
        have hlen : played.recorder.window.length = 8 := hrec ▸ length_record full _
        rw [if_pos hstone, List.foldl_cons]
        have full : (played.addMoveToHistory action).hash8.length = 8 := hlen
        refine (ih full hrest).trans ?_
        show List.foldl _ played.recorder _ = _
        rw [hrec]
        rfl
      · obtain rfl := applyMove_neg hstone hmove
        rw [if_neg hstone]
        exact ih (show (board.addMoveToHistory action).hash8.length = 8 from full) hrest

/-- **Repetition detection is exact.**  After accepted moves on a new board the
flag is raised if and only if some position has the hash of one of the eight
before it. -/
theorem boardRepetition_iff (h : applyMoves P (new P) actions = some board) :
    board.boardRepetition = true ↔
      ∃ j i, 1 ≤ j ∧ j - 8 ≤ i ∧ i < j ∧
        ∃ a, (positionHashes P actions)[i]? = some a ∧ (positionHashes P actions)[j]? = some a := by
  have hrec : board.recorder = (stoneHashes P (new P) actions).foldl (Recorder.record 8)
      (Recorder.start 8 0) := recorder_applyMoves (by simp [new]) h
  have hflag : board.boardRepetition = board.recorder.repeated := rfl
  rw [hflag, hrec, Recorder.repeated_iff]
  constructor
  · rintro ⟨i, j, a, hij, hn, hi, hj⟩
    exact ⟨j, i, by omega, by omega, hij, a, hi, hj⟩
  · rintro ⟨j, i, -, hn, hij, a, hi, hj⟩
    exact ⟨i, j, a, hij, by omega, hi, hj⟩

/-- White encloses two points of the corner, and Black fills both of them.  The
second stone is a suicide of two, which `board_play` carries out. -/
def suicideGame : List ℤ := [-1, 19, -1, 20, -1, 2, 0, -1, 1]

/-- The position before the two stones comes back, and its hash is still in the
window.  It is not a ko: two stones have been played for it. -/
theorem boardRepetition_iff_suicideGame :
    ∃ board, applyMoves pachi (new pachi) suicideGame = some board ∧
      ∃ j i, 1 ≤ j ∧ j - 8 ≤ i ∧ i < j ∧ ∃ a,
        (positionHashes pachi suicideGame)[i]? = some a ∧
          (positionHashes pachi suicideGame)[j]? = some a := by
  have raised : (applyMoves pachi (new pachi) suicideGame).map boardRepetition = some true := by
    decide +kernel
  obtain ⟨board, run, flag⟩ := Option.map_eq_some_iff.mp raised
  exact ⟨board, run, (boardRepetition_iff run).mp flag⟩

/-! ## Replay

`apply_history` is other code than the game it replays: it decodes the text,
takes the colour from a count of its own, and asserts what the game tests. -/

/-- `_apply_move` neither reads nor writes the history. -/
theorem _applyMove_setHistory (board : GoBoard B) (pos : ℕ) (color : Color) (h : List UInt8) :
    _applyMove P { board with history := h } pos color =
      ((_applyMove P board pos color).1,
        { (_applyMove P board pos color).2 with history := h }) := by
  unfold _applyMove checkRepetition storeHash
  dsimp only
  refine Prod.ext rfl ?_
  dsimp only
  split
  · split
    · rfl
    · split <;> rfl
  · split
    · rfl
    · split <;> rfl

/-- The characters of a token are below 128, so reading them as signed changes
nothing. -/
theorem toInt_toInt8_ofInt {x : ℤ} (nonneg : 0 ≤ x) (lt : x < 128) :
    (UInt8.ofInt x).toInt8.toInt = x := by
  obtain ⟨n, rfl⟩ := Int.eq_ofNat_of_zero_le nonneg
  have hn : ((n : ℤ) % 2 ^ 8).toNat = n := by omega
  rw [UInt8.ofInt, hn, UInt8.toInt8_ofNat', Int8.toInt_ofNat_of_lt (by omega)]

/-- The arithmetic of `apply_history` undoes that of `add_move_to_history`, for
the points of the board. -/
theorem token_stone (nonneg : 0 ≤ action) (le : action ≤ 360) :
    ∃ hi lo, token action = [hi, lo] ∧ hi ≠ 90 ∧ tokenPos hi lo = action := by
  have hmod := Int.tmod_eq_emod_of_nonneg nonneg (b := 19)
  have hdiv := Int.tdiv_eq_ediv_of_nonneg nonneg (b := 19)
  have hcol := toInt_toInt8_ofInt (x := action.tmod 19 + 65) (by omega) (by omega)
  have hrow := toInt_toInt8_ofInt (x := action.tdiv 19 + 97) (by omega) (by omega)
  refine ⟨UInt8.ofInt (action.tmod 19 + 65), UInt8.ofInt (action.tdiv 19 + 97), ?_, ?_, ?_⟩
  · rw [token, if_neg (by unfold posPass; omega), if_neg (by unfold posResign; omega)]
  · intro h
    have : (90 : UInt8).toInt8.toInt = 90 := rfl
    rw [h, this] at hcol
    omega
  · rw [tokenPos, hcol, hrow]
    omega

/-- The color of a step is the color that the length of the history implies. -/
theorem stepColor_eq {step : ℕ} (len : board.history.length = 2 * step) :
    stepColor step = board.getColor := by
  unfold stepColor getColor
  rw [len]
  split <;> split <;> first | rfl | omega

/-- The moves after a position, replayed on a board that has another history.
This is the induction behind the round trip: the step counts as many moves as
the history holds. -/
theorem replay_applyMoves {step : ℕ}
    (valid : ∀ a ∈ actions, a = posPass ∨ a = posResign ∨ 0 ≤ a ∧ a ≤ 360)
    (len : board.history.length = 2 * step) (h : applyMoves P board actions = some board') :
    ∃ suffix, board'.history = board.history ++ suffix ∧ suffix.length % 2 = 0 ∧
      ∀ text, replay P step suffix { board with history := text } =
        some { board' with history := text } := by
  induction actions generalizing board step with
  | nil =>
      cases h
      exact ⟨[], by simp, rfl, fun text => rfl⟩
  | cons action rest ih =>
      obtain ⟨hvalid, hrestValid⟩ := List.forall_mem_cons.mp valid
      obtain ⟨next, hmove, hrest⟩ := applyMoves_cons h
      have hhistory := history_applyMove hmove
      have hlen : next.history.length = 2 * (step + 1) := by
        simp [hhistory, len]
        omega
      obtain ⟨suffix, hsuffix, heven, hreplay⟩ := ih hrestValid hlen hrest
      refine ⟨token action ++ suffix, ?_, by simp [heven], fun text => ?_⟩
      · rw [hsuffix, hhistory, List.append_assoc]
      rw [← hreplay text]
      by_cases hstone : 0 ≤ action
      · obtain ⟨hi, lo, htoken, hhi, hpos⟩ := token_stone hstone (by
          unfold posPass posResign at hvalid
          omega)
        obtain ⟨played, hplayed, rfl⟩ := applyMove_stone hstone hmove
        rw [htoken]
        -- the step and the length of the history give the same color
        show replay P step (hi :: lo :: suffix) _ = _
        rw [replay, if_pos hhi, hpos, if_pos hstone, _applyMove_setHistory, stepColor_eq len,
          hplayed]
        rfl
      · obtain rfl := applyMove_neg hstone hmove
        -- `replay` reads nothing of the second letter
        have htoken : ∃ lo, token action = [90, lo] := by
          rcases hvalid with rfl | rfl | ⟨hstone', -⟩
          · exact ⟨80, rfl⟩
          · exact ⟨82, rfl⟩
          · exact absurd hstone' hstone
        obtain ⟨lo, htoken⟩ := htoken
        rw [htoken]
        show replay P step (90 :: lo :: suffix) _ = _
        rw [replay, if_neg (by simp)]
        rfl

/-- **History round trip.**  Replaying the text of accepted moves on a new board
is accepted at every step and gives the same board: stones, history, window and
flag. -/
theorem applyHistory_history
    (valid : ∀ a ∈ actions, a = posPass ∨ a = posResign ∨ 0 ≤ a ∧ a ≤ 360)
    (h : applyMoves P (new P) actions = some board) :
    applyHistory P (new P) board.history = some board := by
  have hlen : (new P).history.length = 2 * 0 := rfl
  obtain ⟨suffix, hsuffix, heven, hreplay⟩ := replay_applyMoves valid hlen h
  have hhistory : board.history = suffix := by rw [hsuffix]; rfl
  rw [applyHistory, if_pos (hhistory ▸ heven), hhistory, hreplay, ← hhistory]

/-- The replay takes back the suicide as well, and a resignation at the end. -/
theorem applyHistory_history_suicideGame :
    ∃ board, applyMoves pachi (new pachi) (suicideGame ++ [posResign]) = some board ∧
      applyHistory pachi (new pachi) board.history = some board := by
  have accepted : (applyMoves pachi (new pachi) (suicideGame ++ [posResign])).isSome := by
    decide +kernel
  have run := (Option.some_get accepted).symm
  exact ⟨_, run, applyHistory_history (by decide) run⟩

end GoBoard

end EstarGo
