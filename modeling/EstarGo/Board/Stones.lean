import EstarGo.Board.GoBoard
import Mathlib.Data.List.Nodup
import Mathlib.Logic.Function.Iterate

/-!
# The vendored board

What `GoBoard` uses of the vendored board, as a list of stones and the ko.
Groups and their liberties are computed from the stones, where the source keeps
them up to date, and the hash is the exclusive or of the same table.

## Main definitions

* `Stones` — a position and its ko.
* `Stones.isValidMove`, `Stones.play` — `board_is_valid_move` and `board_play`.
* `pachi` — the board as an instance of `Pachi`.

## Main results

* `Stones.wellPlaced_play`: a valid move keeps one stone a point.

## Design notes

**A second board.**  The board as the source stores it is `Board`; this one is
there to be evaluated, so that games and searches can be run, and to be compared
with it.  On the points of the board, and as long as no assertion fails, the two
answer alike (`Board.applyMove_agree`).

**Past the arrays.**  The code checks no range.  A coordinate from
`BOARD_MAX_COORDS` on makes `board_is_valid_move` read what the structure holds
behind `b[]`, and `isFree` reads the same.  That `board_play` then writes there
is beyond the model: such a move puts no stone on a point.

**Assertions.**  Whether an assertion on the list of groups in atari has failed
cannot be seen in a list of stones.  The field `asserted` is a bound on the safe
side: it is lowered before a move that finds so many stones that one might fail,
and a position that keeps it has not come past a failing assertion.
-/

namespace EstarGo

/-- `struct board`, as far as the rules read it.  The margin of offboard points
is left out of the list, and the last stone played stands first. -/
structure Stones where
  stones : List (ℕ × Color)
  ko : Option (ℕ × Color)
  /-- No assertion can have failed so far: before each move the stones were
  fewer than the places of the list of groups in atari, less one. -/
  asserted : Bool
  deriving DecidableEq, Repr

/-- `BOARD_MAX_COORDS`. -/
def boardMaxCoords : ℕ := 21 * 21

/-- `BOARD_MAX_GROUPS`. -/
def boardMaxGroups : ℕ := 19 * 19 * 2 / 3

namespace Stones

/-- `coord_xy` on the 19x19 board, whose stride is 21. -/
def coordXy (xy : ℕ × ℕ) : ℕ := xy.1 + xy.2 * 21

/-- The points that are not `S_OFFBOARD`. -/
def onBoard (c : ℕ) : Bool := 1 ≤ c % 21 && c % 21 ≤ 19 && 1 ≤ c / 21 && c / 21 ≤ 19

/-- `foreach_neighbor`, less the offboard points.  The order is the one the
source goes in. -/
def neighbors (c : ℕ) : List ℕ := [c - 21, c - 1, c + 1, c + 21].filter onBoard

/-- `foreach_point`, less the offboard points. -/
def points : List ℕ := (List.range 441).filter onBoard

variable (b : Stones)

/-- `board_at`; `none` for `S_NONE`. -/
def stoneAt (c : ℕ) : Option Color := b.stones.lookup c

/-- The points of a list that are in the set or next to it.  Repeated often
enough it gives a connected part. -/
def grow (among : List ℕ) (set : List ℕ) : List ℕ :=
  among.filter fun c => c ∈ set || (neighbors c).any (· ∈ set)

/-- The points of a list that are connected within it to the start.  As many
rounds as there are points are enough (`Verif.mem_flood_iff`). -/
def flood (among start : List ℕ) : List ℕ := (grow among)^[among.length] start

/-- The points of one color. -/
def pointsOf (color : Color) : List ℕ :=
  (b.stones.filter fun s => s.2 = color).map Prod.fst

/-- The group of a stone: `foreach_in_group`.  It is computed by a flood fill
over the stones of the color. -/
def group (c : ℕ) (color : Color) : List ℕ := flood (b.pointsOf color) [c]

/-- The liberties of a group, each of them once. -/
def liberties (group : List ℕ) : List ℕ :=
  ((group.flatMap neighbors).filter fun c => (b.stoneAt c).isNone).dedup

/-- `board_group_info(b, group_at(b, c)).libs`; zero where no group is.  The
source keeps at most ten liberties, and is only asked whether there are none or
one. -/
def libs (c : ℕ) : ℕ :=
  match b.stoneAt c with
  | none => 0
  | some color => (b.liberties (b.group c color)).length

/-- `board_is_eyelike`: every neighbor is a stone of the color, or off the
board.  Whether these are one group is not asked. -/
def isEyelike (c : ℕ) (eyeColor : Color) : Bool :=
  (neighbors c).all fun d => b.stoneAt d = some eyeColor

/-- `board_at(b, c) == S_NONE`.  From `BOARD_MAX_COORDS` on, this reads what
follows `b[]`: the neighbor counts, which are zero on the margin where no stone
is near, then the groups of the stones.  What follows these is taken for
zeros. -/
def isFree (c : ℕ) : Bool :=
  if c < boardMaxCoords then onBoard c && (b.stoneAt c).isNone
  else if c < 2 * boardMaxCoords then
    !onBoard (c - boardMaxCoords) &&
      (neighbors (c - boardMaxCoords)).all fun d => (b.stoneAt d).isNone
  else if c < 3 * boardMaxCoords then (b.stoneAt (c - 2 * boardMaxCoords)).isNone
  else true

/-- `board_is_valid_move`: an empty point that is not in an eye of the opponent,
or that captures there and is not the ko.  What is read for the neighbor counts
of a coordinate past the arrays never makes an eye. -/
def isValidMove (color : Color) (xy : ℕ × ℕ) : Bool :=
  let c := coordXy xy
  b.isFree c &&
    (boardMaxCoords ≤ c || !b.isEyelike c color.other ||
      (b.ko ≠ some (c, color) && (neighbors c).any fun d => b.libs d = 1))

/-- `board_group_capture`, which takes the stones off the board. -/
def capture (group : List ℕ) : Stones :=
  { b with stones := b.stones.filter fun s => s.1 ∉ group }

/-- Capture the group of the color at a point, where it has no liberty.
Elsewhere nothing changes. -/
def captureAt (color : Color) (c : ℕ) : Stones :=
  if b.stoneAt c = some color ∧ b.libs c = 0 then b.capture (b.group c color) else b

/-- Place a stone, and capture the groups of the opponent that have no liberty,
at one neighbor after another. -/
def place (color : Color) (c : ℕ) : Stones :=
  (neighbors c).foldl (fun b d => b.captureAt color.other d)
    { b with stones := (c, color) :: b.stones }

/-- `board_play` on a valid move.  Outside an eye the own group is captured
where it has no liberty; in an eye the capture of a single stone makes a ko.  A
coordinate past the arrays puts no stone on a point; what it overwrites is not
modelled. -/
def play (color : Color) (xy : ℕ × ℕ) : Stones :=
  let c := coordXy xy
  let placed := b.place color c
  let asserted := b.asserted && decide (b.stones.length + 1 < boardMaxGroups)
  if boardMaxCoords ≤ c then { b with ko := none, asserted := asserted }
  else if b.isEyelike c color.other then
    let captured := (neighbors c).filter fun d => (placed.stoneAt d).isNone
    { placed with
      ko := if placed.stones.length = b.stones.length then
          captured.getLast?.map fun d => (d, color.other)
        else none
      asserted := asserted }
  else { placed.captureAt color c with ko := none, asserted := asserted }

/-- `hash_at`: the seed is multiplied on for each point and color. -/
def hashAt (c : ℕ) (color : Color) : UInt64 :=
  let index := 2 * c + if color = .black then 1 else 2
  let h := UInt64.ofNat (0x3121110101112131 * 16807 ^ index)
  if h = 0 then 1 else h

/-- `b->hash`, computed from the stones, where the source keeps it up to
date. -/
def hash : UInt64 := b.stones.foldl (fun h s => h ^^^ hashAt s.1 s.2) 0

/-- The points that reach a color, through points of their own: empty points
that are connected to a stone of it by empty points. -/
def reached (color : Color) : List ℕ :=
  let free := points.filter fun c => (b.stoneAt c).isNone
  flood free (free.filter fun c => (neighbors c).any fun d => b.stoneAt d = some color)

/-- `scores[]` of `board_official_score_details`: the points of a color and the
empty ones that reach only it; an empty board counts nothing. -/
def scores (color : Color) : ℕ :=
  if b.stones.isEmpty then 0
  else
    let own := b.reached color
    let other := b.reached color.other
    (b.pointsOf color).length + (own.filter fun c => c ∉ other).length

end Stones

/-- The vendored board, as a list of stones. -/
def pachi : Pachi Stones where
  clear := ⟨[], none, true⟩
  isValidMove := Stones.isValidMove
  play := Stones.play
  hash := Stones.hash
  scores := Stones.scores
  asserted := Stones.asserted

namespace Stones

variable {b : Stones}

/-! ## One stone a point

The source has one cell for each coordinate, so a point cannot have two stones
there.  A list can, and that it does not is shown once. -/

/-- No two stones are on one point, and none is off the board.  Moves keep it,
and everything that is shown of the list of stones assumes it. -/
structure WellPlaced (b : Stones) : Prop where
  nodup : (b.stones.map Prod.fst).Nodup
  onBoard : ∀ s ∈ b.stones, onBoard s.1 = true

theorem WellPlaced.of_sublist {b' : Stones} (h : b.WellPlaced)
    (sub : b'.stones.Sublist b.stones) : b'.WellPlaced :=
  ⟨h.nodup.sublist (sub.map _), fun s hs => h.onBoard s (sub.subset hs)⟩

/-- A capture at a point leaves some of the stones there were. -/
theorem sublist_captureAt (color : Color) (c : ℕ) :
    (b.captureAt color c).stones.Sublist b.stones := by
  unfold captureAt
  split
  · exact List.filter_sublist
  · exact List.Sublist.refl _

/-- So after a stone and its captures there are that stone and some of the
others. -/
theorem sublist_place (color : Color) (c : ℕ) :
    (b.place color c).stones.Sublist ((c, color) :: b.stones) := by
  have fold (ds : List ℕ) (b : Stones) :
      (ds.foldl (fun b d => b.captureAt color.other d) b).stones.Sublist b.stones := by
    induction ds generalizing b with
    | nil => exact List.Sublist.refl _
    | cons d ds ih => exact (ih _).trans (sublist_captureAt _ _)
  exact fold _ _

/-- An empty point has no entry in the list. -/
theorem not_mem_of_stoneAt {c : ℕ} (h : b.stoneAt c = none) :
    c ∉ b.stones.map Prod.fst := by
  intro mem
  obtain ⟨⟨d, color⟩, hs, rfl⟩ := List.mem_map.mp mem
  have := List.lookup_eq_none_iff.mp h _ hs
  simp at this

/-- The points of the board are within its arrays. -/
theorem lt_of_onBoard {c : ℕ} (h : onBoard c = true) : c < boardMaxCoords := by
  simp only [onBoard, Bool.and_eq_true, decide_eq_true_eq] at h
  unfold boardMaxCoords
  omega

/-- A valid move within the arrays is at an empty point of the board.  Past the
arrays it may be anywhere. -/
theorem onBoard_of_isValidMove {color : Color} {xy : ℕ × ℕ}
    (valid : b.isValidMove color xy = true) (inside : coordXy xy < boardMaxCoords) :
    onBoard (coordXy xy) = true ∧ b.stoneAt (coordXy xy) = none := by
  obtain ⟨hfree, -⟩ := Bool.and_eq_true_iff.mp valid
  rw [isFree, if_pos inside, Bool.and_eq_true, Option.isNone_iff_eq_none] at hfree
  exact hfree

/-- A move past the arrays leaves the stones as they are. -/
theorem stones_play_of_outside {color : Color} {xy : ℕ × ℕ}
    (outside : boardMaxCoords ≤ coordXy xy) : (b.play color xy).stones = b.stones := by
  rw [play, if_pos outside]

/-- **A valid move keeps the stones well placed.** -/
theorem wellPlaced_play (h : b.WellPlaced) {color : Color} {xy : ℕ × ℕ}
    (valid : b.isValidMove color xy = true) : (b.play color xy).WellPlaced := by
  by_cases outside : boardMaxCoords ≤ coordXy xy
  · have same : (b.play color xy).stones = b.stones := stones_play_of_outside outside
    exact ⟨same ▸ h.nodup, same ▸ h.onBoard⟩
  obtain ⟨hon, hfree⟩ := onBoard_of_isValidMove valid (Nat.lt_of_not_le outside)
  have placed : WellPlaced { b with stones := (coordXy xy, color) :: b.stones } := by
    refine ⟨List.nodup_cons.mpr ⟨not_mem_of_stoneAt hfree, h.nodup⟩, fun s hs => ?_⟩
    rcases List.mem_cons.mp hs with rfl | hs
    · exact hon
    · exact h.onBoard s hs
  refine placed.of_sublist ?_
  unfold play
  dsimp only
  rw [if_neg outside]
  split
  · exact sublist_place _ _
  · exact (sublist_captureAt _ _).trans (sublist_place _ _)

end Stones

end EstarGo
