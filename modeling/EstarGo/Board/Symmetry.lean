import EstarGo.Board.Game
import EstarGo.Board.Rules

/-!
# The symmetries of the board

`Symmetry` turns or mirrors the coordinates of a game, and rewrites the text of
its history.  Each of the eight maps is an automorphism of the grid, so a board
that follows the rules accepts the rewritten game and ends in the image of the
position.

## Main definitions

* `symfuncList`, `getSymfunc` — the eight maps, and the lookup by an id.
* `symmetryHistory` — the text of a history, rewritten.
* `Maps` — an automorphism of the grid that a map of the source computes.

## Main results

* `revertSymfunc_symfunc`: each reverting map undoes its map.
* `symmetryHistory_equivariant`: the position after a rewritten history.

## Design notes

**Eight functions, one lemma.**  The maps keep their own definitions, as the
source has them; what is proved of one is proved of all by `lookup_induction`,
which also covers the ids for which the lookup falls back on the identity.

**Two generators.**  Every map is a composition of the exchange of rows and
columns and of a mirror, and these are seen to be automorphisms at once.  The
source computes with integers, and 18 less a row is the mirror of the row.
-/

namespace EstarGo

open Verif Verif.Go GoBoard

/-! ## The maps -/

/-- A map of `(row, col)`.  The source takes both by reference; here they are
returned. -/
abbrev Symfunc := ℤ → ℤ → ℤ × ℤ

/-- `clk0`. -/
def clk0 : Symfunc := fun row col => (row, col)

/-- `clk90`. -/
def clk90 : Symfunc := fun row col => (col, 18 - row)

/-- `clk180`. -/
def clk180 : Symfunc := fun row col => (18 - row, 18 - col)

/-- `clk270`. -/
def clk270 : Symfunc := fun row col => (18 - col, row)

/-- `mclk0`. -/
def mclk0 : Symfunc := fun row col => (row, 18 - col)

/-- `mclk90`. -/
def mclk90 : Symfunc := fun row col => (18 - col, 18 - row)

/-- `mclk180`. -/
def mclk180 : Symfunc := fun row col => (18 - row, col)

/-- `mclk270`. -/
def mclk270 : Symfunc := fun row col => (col, row)

/-- `revert_clk0`. -/
def revertClk0 : Symfunc := fun row col => (row, col)

/-- `revert_clk90`. -/
def revertClk90 : Symfunc := fun row col => (18 - col, row)

/-- `revert_clk180`. -/
def revertClk180 : Symfunc := fun row col => (18 - row, 18 - col)

/-- `revert_clk270`. -/
def revertClk270 : Symfunc := fun row col => (col, 18 - row)

/-- `revert_mclk0`. -/
def revertMclk0 : Symfunc := fun row col => (row, 18 - col)

/-- `revert_mclk90`. -/
def revertMclk90 : Symfunc := fun row col => (18 - col, 18 - row)

/-- `revert_mclk180`. -/
def revertMclk180 : Symfunc := fun row col => (18 - row, col)

/-- `revert_mclk270`. -/
def revertMclk270 : Symfunc := fun row col => (col, row)

/-- `symfunc_list`. -/
def symfuncList : List Symfunc :=
  [clk0, clk90, clk180, clk270, mclk0, mclk90, mclk180, mclk270]

/-- `revert_symfunc_list`. -/
def revertSymfuncList : List Symfunc :=
  [revertClk0, revertClk90, revertClk180, revertClk270, revertMclk0, revertMclk90,
    revertMclk180, revertMclk270]

/-- The lookup of both getters: an invalid id is replaced by zero, whose map is
the identity. -/
def lookupSymfunc (list : List Symfunc) (symid : ℤ) : Symfunc :=
  list.getD (if symid ≥ list.length ∨ symid < 0 then 0 else symid.toNat) clk0

/-- `get_symfunc`: the identity below zero and past the list. -/
def getSymfunc : ℤ → Symfunc := lookupSymfunc symfuncList

/-- `get_revert_symfunc`, which looks into the list of the inverses. -/
def getRevertSymfunc : ℤ → Symfunc := lookupSymfunc revertSymfuncList

/-- The loop of `symmetry_history`.  Only the text of a pass is kept; whatever
else two characters are, they are rewritten as the column and the row of a
stone. -/
def rotateHistory (rotate : Symfunc) : List UInt8 → List UInt8
  | hi :: lo :: rest =>
      if hi = 90 ∧ lo = 80 then 90 :: 80 :: rotateHistory rotate rest
      else
        let rowCol := rotate (lo.toInt8.toInt - 97) (hi.toInt8.toInt - 65)
        UInt8.ofInt (rowCol.2 + 65) :: UInt8.ofInt (rowCol.1 + 97) :: rotateHistory rotate rest
  | _ => []

/-- `symmetry_history`, which returns the rewritten text. -/
def symmetryHistory (history : List UInt8) (symid : ℤ) : List UInt8 :=
  rotateHistory (getSymfunc symid) history

/-- What holds of the eight ids holds of every lookup, of an invalid one too. -/
theorem lookup_induction {motive : Symfunc → Symfunc → Prop} (h0 : motive clk0 revertClk0)
    (h1 : motive clk90 revertClk90) (h2 : motive clk180 revertClk180)
    (h3 : motive clk270 revertClk270) (h4 : motive mclk0 revertMclk0)
    (h5 : motive mclk90 revertMclk90) (h6 : motive mclk180 revertMclk180)
    (h7 : motive mclk270 revertMclk270) (symid : ℤ) :
    motive (getSymfunc symid) (getRevertSymfunc symid) := by
  by_cases h : symid ≥ 8 ∨ symid < 0
  · have hid : getSymfunc symid = clk0 ∧ getRevertSymfunc symid = revertClk0 := by
      have hlen : symid ≥ symfuncList.length ∨ symid < 0 := h
      have hlen' : symid ≥ revertSymfuncList.length ∨ symid < 0 := h
      unfold getSymfunc getRevertSymfunc lookupSymfunc
      rw [if_pos hlen, if_pos hlen']
      exact ⟨rfl, rfl⟩
    rw [hid.1, hid.2]
    exact h0
  · obtain ⟨hlt, hge⟩ := not_or.mp h
    have hid : symid = 0 ∨ symid = 1 ∨ symid = 2 ∨ symid = 3 ∨ symid = 4 ∨ symid = 5 ∨
        symid = 6 ∨ symid = 7 := by omega
    rcases hid with rfl | rfl | rfl | rfl | rfl | rfl | rfl | rfl
    · exact h0
    · exact h1
    · exact h2
    · exact h3
    · exact h4
    · exact h5
    · exact h6
    · exact h7

/-- **Each reverting map undoes its map**, on any row and column, on the board
or not. -/
theorem revertSymfunc_symfunc (symid row col : ℤ) :
    getRevertSymfunc symid (getSymfunc symid row col).1 (getSymfunc symid row col).2 =
      (row, col) := by
  have undo (r c : ℤ) : 18 - (18 - r) = r ∧ 18 - (18 - c) = c := by omega
  refine lookup_induction
    (motive := fun f g => g (f row col).1 (f row col).2 = (row, col))
    rfl ?_ ?_ ?_ ?_ ?_ ?_ rfl symid
  · exact Prod.ext (undo row col).1 rfl
  · exact Prod.ext (undo row col).1 (undo row col).2
  · exact Prod.ext rfl (undo row col).2
  · exact Prod.ext rfl (undo row col).2
  · exact Prod.ext (undo row col).1 (undo row col).2
  · exact Prod.ext (undo row col).1 rfl

/-! ## Automorphisms of the grid

The rules read the board through its graph, so a map that keeps neighbours keeps
legal moves. -/

/-- Exchange rows and columns, which keeps neighbours neighbours. -/
def transpose : adjacent ≃r adjacent where
  toEquiv := Equiv.prodComm _ _
  map_rel_iff' := or_comm

/-- Mirror the rows. -/
def flipRow : adjacent ≃r adjacent where
  toEquiv := Equiv.prodCongr Fin.revPerm (Equiv.refl _)
  map_rel_iff' := by
    rintro ⟨⟨r, hr⟩, ⟨c, hc⟩⟩ ⟨⟨r', hr'⟩, ⟨c', hc'⟩⟩
    simp only [adjacent, Equiv.prodCongr_apply, Prod.map, Fin.revPerm_apply, Equiv.refl_apply,
      Fin.rev_inj, Fin.val_rev]
    omega

/-- Mirror the columns. -/
def flipCol : adjacent ≃r adjacent := (transpose.trans flipRow).trans transpose

/-- The image of a point, as the source computes it, is its image under the
automorphism. -/
def Maps (f : Symfunc) (σ : adjacent ≃r adjacent) : Prop :=
  ∀ p : Point, f p.1.val p.2.val = (((σ p).1.val : ℤ), ((σ p).2.val : ℤ))

/-- Mirroring an index is subtracting it from 18. -/
theorem rev_eq (i : Fin 19) : ((Fin.rev i).val : ℤ) = 18 - i.val := by
  rw [Fin.val_rev]
  omega

/-- **Every map is an automorphism of the grid.** -/
theorem exists_maps (symid : ℤ) : ∃ σ, Maps (getSymfunc symid) σ := by
  refine lookup_induction (motive := fun f _ => ∃ σ, Maps f σ) ?_ ?_ ?_ ?_ ?_ ?_ ?_ ?_ symid
  · exact ⟨RelIso.refl _, fun p => rfl⟩
  · exact ⟨transpose.trans flipCol, fun p => Prod.ext rfl (rev_eq p.1).symm⟩
  · exact ⟨flipRow.trans flipCol, fun p => Prod.ext (rev_eq p.1).symm (rev_eq p.2).symm⟩
  · exact ⟨transpose.trans flipRow, fun p => Prod.ext (rev_eq p.2).symm rfl⟩
  · exact ⟨flipCol, fun p => Prod.ext rfl (rev_eq p.2).symm⟩
  · exact ⟨(transpose.trans flipRow).trans flipCol,
      fun p => Prod.ext (rev_eq p.2).symm (rev_eq p.1).symm⟩
  · exact ⟨flipRow, fun p => Prod.ext (rev_eq p.1).symm rfl⟩
  · exact ⟨transpose, fun p => rfl⟩

/-! ## Rewriting a game

The text of a game is that of a list of moves, which is easier to map. -/

/-- The text of stones on the board, `A..S` and `a..s`, and of passes.  These
are the texts that a game without a resignation writes. -/
def onBoardText : List UInt8 → Bool
  | [] => true
  | [_] => false
  | hi :: lo :: rest =>
      (hi = 90 && lo = 80 || 65 ≤ hi && hi ≤ 83 && 97 ≤ lo && lo ≤ 115) && onBoardText rest

/-- The letter of a row or column, counted from the first one. -/
def letter (first : ℕ) (i : Fin 19) : UInt8 := UInt8.ofInt (i.val + first)

/-- The text of a pass or of a stone. -/
def moveText : Option Point → List UInt8
  | none => [90, 80]
  | some p => [letter 65 p.2, letter 97 p.1]

/-- A letter within eighteen of the first one stands for an index. -/
theorem exists_letter {x : UInt8} {n : ℕ} (le : n ≤ x.toNat) (le' : x.toNat ≤ n + 18) :
    ∃ i, x = letter n i := by
  refine ⟨⟨x.toNat - n, by omega⟩, UInt8.toNat_inj.mp ?_⟩
  have hx := x.toNat_lt
  rw [letter, UInt8.ofInt, UInt8.toNat_ofNat']
  dsimp only
  omega

/-- Such a text is the text of passes and stones. -/
theorem exists_moves : ∀ {history : List UInt8}, onBoardText history = true →
    ∃ moves : List (Option Point), history = moves.flatMap moveText
  | [], _ => ⟨[], rfl⟩
  | [_], h => absurd h (by simp [onBoardText])
  | hi :: lo :: rest, h => by
      rw [onBoardText, Bool.and_eq_true, Bool.or_eq_true] at h
      obtain ⟨hmove, hrest⟩ := h
      obtain ⟨moves, rfl⟩ := exists_moves hrest
      rcases hmove with hpass | hstone
      · simp only [Bool.and_eq_true, decide_eq_true_eq] at hpass
        obtain ⟨rfl, rfl⟩ := hpass
        exact ⟨none :: moves, rfl⟩
      · simp only [Bool.and_eq_true, decide_eq_true_eq, UInt8.le_iff_toNat_le] at hstone
        obtain ⟨⟨⟨h1, h2⟩, h3⟩, h4⟩ := hstone
        obtain ⟨c, rfl⟩ := exists_letter (n := 65) h1 h2
        obtain ⟨r, rfl⟩ := exists_letter (n := 97) h3 h4
        exact ⟨some (r, c) :: moves, rfl⟩

variable {f : Symfunc} {σ : adjacent ≃r adjacent}

theorem toInt_letter {n : ℕ} (le : n ≤ 97) (i : Fin 19) :
    (letter n i).toInt8.toInt = i.val + n :=
  toInt_toInt8_ofInt (by omega) (by omega)

theorem toInt_col (i : Fin 19) : (letter 65 i).toInt8.toInt = i.val + 65 :=
  toInt_letter (by omega) i

theorem toInt_row (i : Fin 19) : (letter 97 i).toInt8.toInt = i.val + 97 :=
  toInt_letter (by omega) i

/-- A column is never read as the `Z` of a pass. -/
theorem letter_ne (i : Fin 19) : letter 65 i ≠ 90 := by
  intro h
  have hval := toInt_col i
  have h90 : (90 : UInt8).toInt8.toInt = 90 := rfl
  rw [h, h90] at hval
  omega

/-- Rewriting the text of moves gives the text of their images, and passes
stay. -/
theorem rotateHistory_moveText (maps : Maps f σ) (moves : List (Option Point)) :
    rotateHistory f (moves.flatMap moveText) =
      (moves.map (Option.map σ)).flatMap moveText := by
  induction moves with
  | nil => rfl
  | cons move moves ih =>
      cases move with
      | none => exact congrArg (fun rest => 90 :: 80 :: rest) ih
      | some p =>
          have hrotate : f ((letter 97 p.1).toInt8.toInt - 97) ((letter 65 p.2).toInt8.toInt - 65) =
              (((σ p).1.val : ℤ), ((σ p).2.val : ℤ)) := by
            rw [toInt_row, toInt_col, ← maps p, Int.add_sub_cancel, Int.add_sub_cancel]
          show rotateHistory f (letter 65 p.2 :: letter 97 p.1 :: moves.flatMap moveText) = _
          rw [rotateHistory, if_neg fun h => letter_ne p.2 h.1, hrotate, ih]
          rfl

/-! ## Playing a rewritten game

The replay of a text and of its image, side by side. -/

variable {B : Type} {P : Pachi B} {board image : GoBoard B} {step : ℕ}

/-- The stone that `apply_history` reads: the two characters lead back to the
point. -/
theorem replay_stone (p : Point) (rest : List UInt8) :
    replay P step (moveText (some p) ++ rest) board =
      if (_applyMove P board (pos p) (stepColor step)).1 = true then
        replay P (step + 1) rest (_applyMove P board (pos p) (stepColor step)).2
      else none := by
  have hpos : tokenPos (letter 65 p.2) (letter 97 p.1) = (pos p : ℤ) := by
    rw [tokenPos, toInt_col, toInt_row, pos]
    omega
  show replay P step (letter 65 p.2 :: letter 97 p.1 :: rest) board = _
  rw [replay, if_pos (letter_ne p.2), hpos, if_pos (Int.natCast_nonneg _), Int.toNat_natCast]
  rcases _applyMove P board (pos p) (stepColor step) with ⟨succ, next⟩
  cases succ <;> rfl

variable {boardAt : B → Point → Option Color} {represents : B → Position Point Color → Prop}

/-- Two boards that follow the rules, on positions that are images of each
other.  The boards need not be of the same kind inside. -/
def Mirrors (represents : B → Position Point Color → Prop) (σ : adjacent ≃r adjacent)
    (board image : GoBoard B) : Prop :=
  ∃ p q, represents board.b p ∧ represents image.b q ∧ Position.Image σ p q

/-- One stone, and its image: both are accepted or none is, and the boards after
them mirror each other. -/
theorem Mirrors._applyMove (rules : FollowsRules P boardAt represents)
    (mirrors : Mirrors represents σ board image) (p : Point) (k : Color) :
    (GoBoard._applyMove P image (pos (σ p)) k).1 = (GoBoard._applyMove P board (pos p) k).1 ∧
      ((GoBoard._applyMove P board (pos p) k).1 = true →
        Mirrors represents σ (GoBoard._applyMove P board (pos p) k).2
          (GoBoard._applyMove P image (pos (σ p)) k).2) := by
  obtain ⟨x, y, hx, hy, himage⟩ := mirrors
  have hlegal : y.legal adjacent Color.other k (σ p) ↔ x.legal adjacent Color.other k p :=
    Position.legal_iff_of_image himage
  have hvalid : P.isValidMove image.b k (coord (σ p)) = true ↔
      P.isValidMove board.b k (coord p) = true := by
    rw [rules.isValidMove hx, rules.isValidMove hy, hlegal]
  rw [_applyMove_fst, _applyMove_fst]
  refine ⟨Bool.eq_iff_iff.mpr hvalid, fun valid => ?_⟩
  unfold Mirrors
  rw [_applyMove_b valid, _applyMove_b (hvalid.mpr valid)]
  have legal := (rules.isValidMove hx k p).mp valid
  exact ⟨_, _, rules.play hx k p legal, rules.play hy k (σ p) (hlegal.mpr legal),
    Position.image_play himage k p⟩

/-- The moves of a game, and their images.  This is the induction along the
text. -/
theorem Mirrors.replay (rules : FollowsRules P boardAt represents) {moves : List (Option Point)}
    {final : GoBoard B} (mirrors : Mirrors represents σ board image)
    (h : GoBoard.replay P step (moves.flatMap moveText) board = some final) :
    ∃ finalImage,
      GoBoard.replay P step ((moves.map (Option.map σ)).flatMap moveText) image =
        some finalImage ∧ Mirrors represents σ final finalImage := by
  induction moves generalizing board image step with
  | nil =>
      cases h
      exact ⟨image, rfl, mirrors⟩
  | cons move moves ih =>
      cases move with
      | none => exact ih mirrors h
      | some p =>
          obtain ⟨hsucc, hnext⟩ := mirrors._applyMove rules p (stepColor step)
          rw [List.flatMap_cons, replay_stone] at h
          rw [List.map_cons, List.flatMap_cons, Option.map_some, replay_stone, hsucc]
          split at h
          · next succ =>
              rw [if_pos succ]
              exact ih (hnext succ) h
          · exact absurd h (by simp)

/-- A rewritten text is as long as the text. -/
theorem length_rotateHistory (f : Symfunc) : ∀ {history : List UInt8},
    history.length % 2 = 0 → (rotateHistory f history).length = history.length
  | [], _ => rfl
  | [_], h => absurd h (by simp)
  | hi :: lo :: rest, h => by
      have hrest : rest.length % 2 = 0 := by
        simp only [List.length_cons] at h
        omega
      have ih := length_rotateHistory f hrest
      rw [rotateHistory]
      split <;> simp [ih]

/-- **Symmetry equivariance.**  On a board that follows the rules, the rewritten
text of an accepted game has as many moves and is accepted, and each stone
stands at the image of its point. -/
theorem symmetryHistory_equivariant (rules : FollowsRules P boardAt represents)
    {history : List UInt8} (onBoard : onBoardText history = true) {final : GoBoard B}
    (accepted : applyHistory P (new P) history = some final) (symid : ℤ) :
    (symmetryHistory history symid).length = history.length ∧
      ∃ image, applyHistory P (new P) (symmetryHistory history symid) = some image ∧
        ∀ p : Point, ∃ q : Point,
          getSymfunc symid p.1.val p.2.val = ((q.1.val : ℤ), (q.2.val : ℤ)) ∧
            ∀ k, boardAt image.b q = some k ↔ boardAt final.b p = some k := by
  obtain ⟨σ, maps⟩ := exists_maps symid
  have heven : history.length % 2 = 0 := by
    by_contra h
    rw [applyHistory, if_neg h] at accepted
    exact absurd accepted (by simp)
  have hlen := length_rotateHistory (getSymfunc symid) heven
  obtain ⟨moves, hmoves⟩ := exists_moves onBoard
  rw [applyHistory, if_pos heven, hmoves] at accepted
  -- both games start on the empty board, its own image
  have start (text text' : List UInt8) : Mirrors represents σ { new P with history := text }
      { new P with history := text' } :=
    ⟨Position.empty, Position.empty, rules.clear, rules.clear, Position.image_empty σ⟩
  obtain ⟨image, hreplay, p, q, hp, hq, himage⟩ :=
    (start _ (symmetryHistory history symid)).replay rules accepted
  refine ⟨hlen, image, ?_, fun v => ⟨σ v, maps v, fun k => ?_⟩⟩
  · have htext : symmetryHistory history symid =
        (moves.map (Option.map σ)).flatMap moveText := by
      rw [symmetryHistory, hmoves, rotateHistory_moveText maps]
    rw [applyHistory, if_pos (hlen.symm ▸ heven)]
    rw [htext] at hreplay ⊢
    exact hreplay
  · rw [rules.stone hq, rules.stone hp, himage.stone]

/-- The game with a suicide of two stones, turned. -/
theorem symmetryHistory_equivariant_suicideGame :
    let history := suicideGame.flatMap token
    (symmetryHistory history 1).length = history.length ∧
      ∃ image, applyHistory pachi (new pachi) (symmetryHistory history 1) = some image := by
  intro history
  have accepted : (applyHistory pachi (new pachi) (suicideGame.flatMap token)).isSome := by
    decide +kernel
  obtain ⟨final, hfinal⟩ := Option.isSome_iff_exists.mp accepted
  obtain ⟨hlen, image, himage, -⟩ :=
    symmetryHistory_equivariant pachi_followsRules (by decide) hfinal 1
  exact ⟨hlen, image, himage⟩

end EstarGo
