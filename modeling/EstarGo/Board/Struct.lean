import EstarGo.Board.Stones
import EstarGo.Lib.Chain
import EstarGo.Lib.Sample
import Mathlib.Logic.Function.Basic

/-!
# The vendored board, as it is stored

`struct board` keeps its groups up to date: each stone names the base of its
group, the stones of a group are linked behind the base, and each base has up to
`GROUP_KEEP_LIBS` of the liberties of its group.  `board_play` maintains all of
it; `Stones` computes the groups from the stones instead.

## Main definitions

* `Board` — `struct board` on the 19x19 board, whose maps are indexed by
  coordinates with a stride of 21.
* `Board.boardIsValidPlay`, `Board.boardPlay` — `board_is_valid_play` and
  `board_play`.
* `Board.boardClear` — the empty board.

## Design notes

**Arrays.**  An array is a map from coordinates, and an array with a length
beside it is a list.  The maps are total, the arrays end at `BOARD_MAX_COORDS`:
from there on the code reads and writes what follows them, and the maps say
nothing about it.  What is proved of this board is about calls whose coordinates
are below that bound.

**Assertions.**  A failing assertion lowers `asserted`, and the statements after
it are carried out all the same, where the process would end.  What is proved
about them is that the field is still up.

**Folds and loops.**  A `foreach_` macro is a fold over the list of what it
visits, in its order.  Where the body breaks off, or changes what is visited,
the loop is a function of its own.

**What is left out** are the features that are switched off (incremental
patterns, playout boards, opening book) and the caches of the board's size.
-/

namespace EstarGo

open Verif

/-- `enum stone`.  The margin around the board is filled with `S_OFFBOARD`, so
that the neighbors of a point need no test for the edge. -/
inductive Stone where
  | none
  | black
  | white
  | offboard
  deriving DecidableEq, Repr

/-- `stone_other`. -/
def Stone.other : Stone → Stone
  | none => none
  | black => white
  | white => black
  | offboard => offboard

/-- The stone of a player. -/
def Color.stone : Color → Stone
  | black => .black
  | white => .white

/-- `move_t`.  The coordinate may be `pass` or `resign`, which are negative.  A
ko is such a pair as well: the point that is banned, and for whom. -/
structure Move where
  coord : ℤ
  color : Stone
  deriving DecidableEq, Repr

/-- `{ pass, S_NONE }`, the move that stands for none. -/
def Move.none : Move := ⟨GoBoard.posPass, .none⟩

/-- `gi`, the liberties listed for the group of each base, and `c`, the groups
in atari.  The list of liberties of a point that is no base is empty. -/
structure GroupInfos where
  lib : ℕ → List ℕ
  c : List ℕ
  /-- No assertion has failed. -/
  asserted : Bool

/-- `f` and `fmap`: the free points, and the place of each in the list.  Points
are taken out by their place, so the two must agree. -/
structure FreePoints where
  f : List ℕ
  fmap : ℕ → ℕ

/-- `hash`, and the hashes before it for the superko check, in a ring of its
own.  Nothing that `GoBoard` asks depends on the ring. -/
structure Hashes where
  hash : UInt64
  hashHistory : List UInt64
  hashHistoryNext : ℕ
  superkoViolation : Bool
  deriving DecidableEq, Repr

/-- What the board knows about the moves of the game: their number, the
captures, the passes, and the last ones with the ko. -/
structure MoveRecord where
  moves : ℕ
  captures : Stone → ℕ
  passes : Stone → ℕ
  lastMoves : List Move
  lastMoveI : ℕ
  ko : Move
  lastKo : Move
  lastKoAge : ℕ

/-- `struct board`: the stones, what is kept up to date about them, and the
record of the game. -/
structure Board where
  /-- The stones. -/
  b : ℕ → Stone
  /-- The numbers of neighbors of each color; not kept for `S_NONE`. -/
  n : ℕ → Stone → ℕ
  /-- The base of the group of a stone, or 0. -/
  g : ℕ → ℕ
  /-- The next stone of the group, or 0. -/
  p : ℕ → ℕ
  gi : GroupInfos
  free : FreePoints
  hashes : Hashes
  record : MoveRecord

/-- `GROUP_KEEP_LIBS`: how many liberties are listed for a group. -/
def groupKeepLibs : ℕ := 10

/-- `GROUP_REFILL_LIBS`: how short a list must become before others are looked
for. -/
def groupRefillLibs : ℕ := 5

/-- `BOARD_HASH_HISTORY`. -/
def boardHashHistory : ℕ := 16

/-- `BOARD_LAST_N`. -/
def boardLastN : ℕ := 4

/-- `foreach_neighbor`, the margin included.  On the margin itself the
subtraction may stop at zero; the neighbors of a point are never that close to
the end. -/
def foreachNeighbor (c : ℕ) : List ℕ := [c - 21, c - 1, c + 1, c + 21]

namespace GroupInfos

/-- `board_capturable_add`.  It asserts that the group has a base and that the
list has room. -/
def capturableAdd (gi : GroupInfos) (group : ℕ) : GroupInfos :=
  { gi with
    c := gi.c ++ [group]
    asserted := gi.asserted && decide (group ≠ 0) && decide (gi.c.length < boardMaxGroups) }

/-- `board_capturable_rm`: the last group of the list takes the place.  A group
that is not listed fails an assertion. -/
def capturableRm (gi : GroupInfos) (group : ℕ) : GroupInfos :=
  if group ∈ gi.c then { gi with c := discardEntry gi.c group }
  else { gi with asserted := false }

/-- Write the liberties of a group. -/
def setLib (gi : GroupInfos) (group : ℕ) (lib : List ℕ) : GroupInfos :=
  { gi with lib := Function.update gi.lib group lib }

/-- The list of groups in atari, before a group with these liberties gains one:
it comes in at none and goes out at one. -/
def beforeGain (gi : GroupInfos) (group libs : ℕ) : GroupInfos :=
  if libs = 0 then gi.capturableAdd group
  else if libs = 1 then gi.capturableRm group
  else gi

/-- `board_group_addlib`.  A full list and a liberty that is listed already
change nothing.  With the second liberty the group is no longer in atari. -/
def addlib (gi : GroupInfos) (group coord : ℕ) : GroupInfos :=
  if (gi.lib group).length < groupKeepLibs then
    if coord ∈ gi.lib group then gi
    else
      (gi.beforeGain group (gi.lib group).length).setLib group (gi.lib group ++ [coord])
  else gi

/-- `board_group_rmlib`, where `refill` looks for more liberties.  A liberty
that is not listed was one of those left out, and nothing changes. -/
def rmlib (gi : GroupInfos) (refill : List ℕ → List ℕ) (group coord : ℕ) : GroupInfos :=
  if coord ∈ gi.lib group then
    let lib := refill (discardEntry (gi.lib group) coord)
    let gi := gi.setLib group lib
    if lib.length = 1 then gi.capturableAdd group
    else if lib.length = 0 then gi.capturableRm group
    else gi
  else gi

/-- The loop of `merge_groups` over the liberties of the group that is merged,
until the list of the other one is full. -/
def mergeLibs (groupTo : ℕ) : GroupInfos → List ℕ → GroupInfos
  | gi, [] => gi
  | gi, coord :: rest =>
      if coord ∈ gi.lib groupTo then mergeLibs groupTo gi rest
      else
        let lib := gi.lib groupTo ++ [coord]
        let gi := (gi.beforeGain groupTo (gi.lib groupTo).length).setLib groupTo lib
        if lib.length ≥ groupKeepLibs then gi else mergeLibs groupTo gi rest

end GroupInfos

namespace Board

variable (bd : Board)

/-- `foreach_in_group`: from the base along `p` until the stone that has no next
one.  The bound on the number of steps is that of the arrays. -/
def foreachInGroup (group : ℕ) : List ℕ := traverse bd.p 0 boardMaxCoords group

/-- `board_is_eyelike`, by the counts of neighbors, of which a point has four
with the margin. -/
def boardIsEyelike (coord : ℕ) (eyeColor : Color) : Bool :=
  bd.n coord eyeColor.stone + bd.n coord .offboard = 4

/-- `board_is_valid_play`: on an empty point, outside an eye of the opponent or
where a group next to it is in atari and no ko forbids it.  Suicide is
allowed. -/
def boardIsValidPlay (color : Color) (coord : ℕ) : Bool :=
  if bd.b coord ≠ .none then false
  else if !bd.boardIsEyelike coord color.other then true
  else if bd.record.ko.coord = coord ∧ bd.record.ko.color = color.stone then false
  else (foreachNeighbor coord).any fun c => (bd.gi.lib (bd.g c)).length = 1

/-! ## The lists and the hash -/

/-- `board_addf`: the point is put at the end of the free points.  So the list
is not in the order of the board after a capture. -/
def addf (c : ℕ) : Board :=
  { bd with free := ⟨bd.free.f ++ [c], Function.update bd.free.fmap c bd.free.f.length⟩ }

/-- `board_rmf`: the last free point takes the place `f`. -/
def rmf (f : ℕ) : Board :=
  { bd with
    free := match bd.free.f.getLast? with
      | none => bd.free
      | some c => ⟨swapRemove bd.free.f f, Function.update bd.free.fmap c f⟩ }

/-- `board_hash_update`; a second time it takes the stone out again. -/
def hashUpdate (coord : ℕ) (color : Color) : Board :=
  { bd with hashes.hash := bd.hashes.hash ^^^ Stones.hashAt coord color }

/-- `board_hash_commit`: a hash that the ring holds raises the violation of
superko, any other one is put in the ring. -/
def hashCommit : Board :=
  let h := bd.hashes
  { bd with
    hashes :=
      if h.hash ∈ h.hashHistory then { h with superkoViolation := true }
      else
        { h with
          hashHistory := h.hashHistory.set h.hashHistoryNext h.hash
          hashHistoryNext := (h.hashHistoryNext + 1) % boardHashHistory } }

/-- `board_commit_move`, into the ring of the last moves. -/
def commitMove (m : Move) : Board :=
  let i := (bd.record.lastMoveI + 1) % boardLastN
  { bd with
    record.lastMoveI := i
    record.lastMoves := bd.record.lastMoves.set i m
    record.moves := bd.record.moves + 1 }

/-! ## Groups

`board_play` touches the groups at one neighbor after another, so the functions
of this section are called on boards on which the stone of the move is in some
groups and not yet in others. -/

/-- `board_group_find_extra_libs`, along the neighbors of the stones of the
group.  It stops when the list is full. -/
def findExtraLibs (avoid : ℕ) : List ℕ → List ℕ → List ℕ
  | [], lib => lib
  | c :: rest, lib =>
      if bd.b c ≠ .none ∨ c ∈ lib ∨ c = avoid then findExtraLibs avoid rest lib
      else if (lib ++ [c]).length ≥ groupKeepLibs then lib ++ [c]
      else findExtraLibs avoid rest (lib ++ [c])

/-- Fill up a list of liberties that has become short.  It is called with the
liberty that has just been removed, which is still an empty point and must not
come back. -/
def refillLibs (group coord : ℕ) (lib : List ℕ) : List ℕ :=
  if lib.length = groupRefillLibs then
    bd.findExtraLibs coord ((bd.foreachInGroup group).flatMap foreachNeighbor) lib
  else lib

/-- `board_group_rmlib`, which looks for more liberties when the list gets
short. -/
def boardGroupRmlib (group coord : ℕ) : Board :=
  { bd with gi := bd.gi.rmlib (bd.refillLibs group coord) group coord }

/-- `inc_neighbor_count_at`.  The source packs the counts of all colors into one
word; none of them is ever above four. -/
def incNeighborCount (c : ℕ) (color : Color) : Board :=
  let counts := Function.update (bd.n c) color.stone (bd.n c color.stone + 1)
  { bd with n := Function.update bd.n c counts }

/-- `dec_neighbor_count_at`. -/
def decNeighborCount (c : ℕ) (color : Color) : Board :=
  let counts := Function.update (bd.n c) color.stone (bd.n c color.stone - 1)
  { bd with n := Function.update bd.n c counts }

/-- The liberty that a removed stone leaves to a neighbor of another group.  Its
own group is about to be gone. -/
def leaveLib (group coord c : ℕ) : Board :=
  { bd with
    gi := if bd.g c ≠ 0 ∧ bd.g c ≠ group then bd.gi.addlib (bd.g c) coord else bd.gi }

/-- `board_remove_stone`: the point, the hash, the counts and liberties around,
and the list of free points, in this order. -/
def boardRemoveStone (group : ℕ) (color : Color) (c : ℕ) : Board :=
  let bd := { bd with b := Function.update bd.b c .none, g := Function.update bd.g c 0 }
  let bd := bd.hashUpdate c color
  let bd := (foreachNeighbor c).foldl
    (fun bd d => (bd.decNeighborCount d color).leaveLib group c d) bd
  bd.addf c

/-- The color of a stone, for a point that has one. -/
def colorAt (c : ℕ) : Color := if bd.b c = .black then .black else .white

/-- `captures[color]++`. -/
def countCapture (color : Color) : Board :=
  let captures := bd.record.captures
  { bd with
    record.captures := Function.update captures color.stone (captures color.stone + 1) }

/-- The loop of `board_group_capture` over the stones of the group.  The stones
are listed before the first is removed. -/
def removeStones (group : ℕ) (stones : List ℕ) : Board :=
  stones.foldl (fun bd c =>
    (bd.countCapture (bd.colorAt c).other).boardRemoveStone group (bd.colorAt c) c) bd

/-- `board_group_capture`: the number of stones, and the board without them.  It
asserts that the group has no liberty listed. -/
def boardGroupCapture (group : ℕ) : ℕ × Board :=
  let stones := bd.foreachInGroup group
  let bd := bd.removeStones group stones
  let noLibs := (bd.gi.lib group).isEmpty
  (stones.length,
    { bd with
      gi := { bd.gi.setLib group [] with asserted := bd.gi.asserted && noLibs } })

/-- Add the free neighbors of a stone to the liberties of its group. -/
def addLibs (group coord : ℕ) : Board :=
  { bd with
    gi := (foreachNeighbor coord).foldl
      (fun gi c => if bd.b c = .none then gi.addlib group c else gi) bd.gi }

/-- `add_to_group`: the stone is linked behind the one it joins, and takes its
base.  Then its free neighbors are liberties of the group. -/
def addToGroup (group prevstone coord : ℕ) : Board :=
  { bd with
    g := Function.update bd.g coord group
    p := Function.update (Function.update bd.p coord (bd.p prevstone)) prevstone coord
    }.addLibs group coord

/-- `merge_groups`: the liberties first, then the labels of all stones of the
second group, and then its links, which are put behind the base of the first. -/
def mergeGroups (groupTo groupFrom : ℕ) : Board :=
  let gi := if (bd.gi.lib groupFrom).length = 1 then bd.gi.capturableRm groupFrom else bd.gi
  let gi :=
    if (gi.lib groupTo).length < groupKeepLibs then
      GroupInfos.mergeLibs groupTo gi (gi.lib groupFrom)
    else gi
  let stones := bd.foreachInGroup groupFrom
  let lastInGroup := stones.getLastD groupFrom
  { bd with
    g := fun c => if c ∈ stones then groupTo else bd.g c
    p := Function.update (Function.update bd.p lastInGroup (bd.p groupTo)) groupTo groupFrom
    gi := gi.setLib groupFrom [] }

/-- `new_group`: the stone is its own base, and its group has the free points
around it. -/
def newGroup (coord : ℕ) : Board :=
  let lib := bd.gi.lib coord ++ (foreachNeighbor coord).filter fun c => bd.b c = .none
  let gi := bd.gi.setLib coord lib
  { bd with
    g := Function.update bd.g coord coord
    p := Function.update bd.p coord 0
    gi := if lib.length = 1 then gi.capturableAdd coord else gi }

/-! ## Playing a stone

The two ways to play differ in what they may assume: outside an eye there may be
groups of the color to join, in an eye there are none and something has to be
captured. -/

/-- `play_one_neighbor`: the count, the liberty that the neighbor's group loses,
and then the group itself, joined or merged where it is of the color and
captured where it is the opponent's. -/
def playOneNeighbor (coord : ℕ) (color : Color) (s : Board × ℕ) (c : ℕ) : Board × ℕ :=
  let ncolor := s.1.b c
  let ngroup := s.1.g c
  let bd := s.1.incNeighborCount c color
  if ngroup = 0 then (bd, s.2)
  else
    let bd := bd.boardGroupRmlib ngroup coord
    if ncolor = color.stone ∧ ngroup ≠ s.2 then
      if s.2 = 0 then (bd.addToGroup ngroup c coord, ngroup)
      else (bd.mergeGroups s.2 ngroup, s.2)
    else if ncolor = color.other.stone ∧ (bd.gi.lib ngroup).length = 0 then
      ((bd.boardGroupCapture ngroup).2, s.2)
    else (bd, s.2)

/-- `board_play_outside`: the board, and the group of the stone.  The stone is
on its point only after the loop over the neighbors. -/
def boardPlayOutside (coord : ℕ) (color : Color) (f : ℕ) : Board × ℕ :=
  let s := (foreachNeighbor coord).foldl (playOneNeighbor coord color) (bd.rmf f, 0)
  let bd := { s.1 with b := Function.update s.1.b coord color.stone }
  let s := if s.2 = 0 then (bd.newGroup coord, coord) else (bd, s.2)
  let bd := (s.1.commitMove ⟨coord, color.stone⟩).hashUpdate coord color
  ({ bd with record.ko := Move.none }, s.2)

/-- The captures next to a stone played in an eye: the stones so far, and the
last neighbor whose group was captured. -/
def captureOneNeighbor (coord : ℕ) (color : Color) (s : Board × ℕ × ℤ) (c : ℕ) :
    Board × ℕ × ℤ :=
  let bd := s.1.incNeighborCount c color
  let group := bd.g c
  if group = 0 then (bd, s.2)
  else
    let bd := bd.boardGroupRmlib group coord
    if (bd.gi.lib group).length = 0 then
      let captured := bd.boardGroupCapture group
      (captured.2, s.2.1 + captured.1, (c : ℤ))
    else (bd, s.2)

/-- `board_play_in_eye`, which refuses the ko and a move without a capture.  It
returns whether its new group has a base other than 0, which it has. -/
def boardPlayInEye (coord : ℕ) (color : Color) (f : ℕ) : ℤ × Board :=
  if color.stone = bd.record.ko.color ∧ (coord : ℤ) = bd.record.ko.coord then (-1, bd)
  else if ¬ (foreachNeighbor coord).any fun c => (bd.gi.lib (bd.g c)).length = 1 then (-1, bd)
  else
    let s := (foreachNeighbor coord).foldl (captureOneNeighbor coord color)
      (bd.rmf f, 0, GoBoard.posPass)
    let ko := if s.2.1 = 1 then ⟨s.2.2, color.other.stone⟩ else Move.none
    let bd := if s.2.1 = 1 then
        { s.1 with record.lastKo := ko, record.lastKoAge := s.1.record.moves + 1 }
      else s.1
    let bd := { bd with b := Function.update bd.b coord color.stone }.newGroup coord
    let bd := ((bd.commitMove ⟨coord, color.stone⟩).hashUpdate coord color).hashCommit
    (if coord = 0 then 0 else 1, { bd with record.ko := ko })

/-- `board_play_f`: outside an eye the own group is captured in the end, where
it has no liberty. -/
def boardPlayF (coord : ℕ) (color : Color) (f : ℕ) : ℤ × Board :=
  if !bd.boardIsEyelike coord color.other then
    let s := bd.boardPlayOutside coord color f
    let bd := if (s.1.gi.lib s.2).length = 0 then (s.1.boardGroupCapture s.2).2 else s.1
    (0, bd.hashCommit)
  else bd.boardPlayInEye coord color f

/-- `board_play` under Chinese rules: a pass, a refusal on a point that is not
empty, or a stone. -/
def boardPlay (coord : ℤ) (color : Color) : ℤ × Board :=
  if coord = GoBoard.posPass then
    let bd := { bd with
      record.passes := Function.update bd.record.passes color.stone
        (bd.record.passes color.stone + 1)
      record.ko := Move.none }
    (0, bd.commitMove ⟨coord, color.stone⟩)
  else if bd.b coord.toNat ≠ .none then (-1, bd)
  else bd.boardPlayF coord.toNat color (bd.free.fmap coord.toNat)

/-! ## The empty board -/

/-- A map of the empty board: the margin is `S_OFFBOARD`. -/
def emptyMap (c : ℕ) : Stone := if Stones.onBoard c then .none else .offboard

/-- `board_clear`: no stone, no group, and the margin around.  The margin has
been counted as a neighbor. -/
def boardClear : Board where
  b := emptyMap
  n c color :=
    if Stones.onBoard c then (foreachNeighbor c).countP fun d => emptyMap d = color else 0
  g _ := 0
  p _ := 0
  gi := ⟨fun _ => [], [], true⟩
  free := ⟨Stones.points, fun c => if Stones.onBoard c then Stones.points.idxOf c else 0⟩
  hashes := ⟨0, List.replicate boardHashHistory 0, 0, false⟩
  record := {
    moves := 0
    captures := fun _ => 0
    passes := fun _ => 0
    lastMoves := List.replicate boardLastN Move.none
    lastMoveI := 0
    ko := Move.none
    lastKo := Move.none
    lastKoAge := 0 }

end Board

end EstarGo
