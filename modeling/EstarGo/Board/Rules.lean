import EstarGo.Board.Stones
import EstarGo.Lib.Flood
import EstarGo.Lib.GoRules
import Mathlib.Data.Fintype.Prod
import Mathlib.Data.Set.Card

/-!
# The vendored board follows the rules

The rules of Go read a board through its graph alone.  `FollowsRules` says that
a vendored board plays by them on the 19x19 grid; the list of stones does.

## Main definitions

* `Point`, `adjacent` — the grid.
* `FollowsRules` — a vendored board that applies the rules of Go to it.
* `Stones.Represents` — a list of stones and the position it stands for.

## Main results

* `pachi_followsRules`: the vendored board follows the rules of Go.

## Design notes

**An assumption that can be met.**  Results about symmetry, vertices and replays
need to know that the vendored board plays Go, and nothing else of it.  They
assume `FollowsRules` of it, and this module shows that the assumption is not
empty.

**It speaks of points only.**  On the coordinates of the margin, and past the
arrays, a board that follows the rules may do anything; what it answers there
has to be assumed where it matters.
-/

namespace EstarGo

open Verif Verif.Go

/-- A point of the board: its row and its column, both counted from zero. -/
abbrev Point := Fin 19 × Fin 19

/-- Neighbours in a row or in a column. -/
def adjacent (p q : Point) : Prop :=
  p.1 = q.1 ∧ (p.2.val + 1 = q.2.val ∨ q.2.val + 1 = p.2.val) ∨
    p.2 = q.2 ∧ (p.1.val + 1 = q.1.val ∨ q.1.val + 1 = p.1.val)

theorem adjacent_symm (p q : Point) (h : adjacent p q) : adjacent q p := by
  rcases h with ⟨h, hcol⟩ | ⟨h, hrow⟩
  · exact .inl ⟨h.symm, hcol.symm⟩
  · exact .inr ⟨h.symm, hrow.symm⟩

/-- What `coord_xy` is given for a point: the column first, and both counted
from one. -/
def coord (p : Point) : ℕ × ℕ := (p.2.val + 1, p.1.val + 1)

/-- The number of a point in `apply_move`, along the rows.  Every point has one,
and the moves from 0 to 360 are these. -/
def pos (p : Point) : ℕ := p.2.val + 19 * p.1.val

/-- `apply_move` finds the coordinate of the point again. -/
theorem coord_of_pos (p : Point) : (pos p % 19 + 1, pos p / 19 + 1) = coord p := by
  unfold pos coord
  congr 1 <;> omega

/-- A vendored board that applies the rules of Go: `boardAt` reads its stones,
and `represents` relates it to a position of the rules.  Of a move that is not
legal only the refusal is asked. -/
structure FollowsRules {B : Type} (P : Pachi B) (boardAt : B → Point → Option Color)
    (represents : B → Position Point Color → Prop) : Prop where
  clear : represents P.clear Position.empty
  stone : ∀ {b p}, represents b p → ∀ v, boardAt b v = p.stone v
  isValidMove : ∀ {b p}, represents b p → ∀ k v,
    (P.isValidMove b k (coord v) = true ↔ p.legal adjacent Color.other k v)
  play : ∀ {b p}, represents b p → ∀ k v, p.legal adjacent Color.other k v →
    represents (P.play b k (coord v)) (p.play adjacent Color.other k v)

theorem Color.other_ne (k : Color) : k.other ≠ k := by
  cases k <;> decide

namespace Stones

/-! ## Points and indices

The arrays have a stride of 21 and a margin, so points are embedded in them. -/

/-- The index of a point in the arrays of the board.  The arrays have a margin
around the points. -/
def index (p : Point) : ℕ := coordXy (coord p)

theorem index_eq (p : Point) : index p = p.2.val + 1 + (p.1.val + 1) * 21 := rfl

theorem index_injective : Function.Injective index := by
  rintro ⟨⟨r, hr⟩, ⟨c, hc⟩⟩ ⟨⟨r', hr'⟩, ⟨c', hc'⟩⟩ h
  simp only [index_eq] at h
  simp only [Prod.mk.injEq, Fin.mk.injEq]
  omega

/-- The points that are not the margin, by their column and row. -/
theorem onBoard_iff {c : ℕ} :
    onBoard c = true ↔ 1 ≤ c % 21 ∧ c % 21 ≤ 19 ∧ 1 ≤ c / 21 ∧ c / 21 ≤ 19 := by
  simp [onBoard, and_assoc]

theorem onBoard_index (p : Point) : onBoard (index p) = true := by
  obtain ⟨⟨r, hr⟩, ⟨c, hc⟩⟩ := p
  rw [onBoard_iff, index_eq]
  dsimp only
  omega

/-- What is on the board is a point. -/
theorem exists_index {c : ℕ} (h : onBoard c = true) : ∃ p, index p = c := by
  rw [onBoard_iff] at h
  refine ⟨(⟨c / 21 - 1, by omega⟩, ⟨c % 21 - 1, by omega⟩), ?_⟩
  rw [index_eq]
  dsimp only
  omega

theorem onBoard_of_mem_neighbors {c d : ℕ} (h : d ∈ neighbors c) : onBoard d = true :=
  (List.mem_filter.mp h).2

/-- The neighbours in the array are those on the grid. -/
theorem index_mem_neighbors {p q : Point} : index q ∈ neighbors (index p) ↔ adjacent p q := by
  rw [neighbors, List.mem_filter, and_iff_left (onBoard_index q), index_eq, index_eq]
  obtain ⟨⟨r, hr⟩, ⟨c, hc⟩⟩ := p
  obtain ⟨⟨r', hr'⟩, ⟨c', hc'⟩⟩ := q
  simp only [List.mem_cons, List.not_mem_nil, or_false, adjacent, Fin.mk.injEq]
  omega

/-- Indices on the board are the indices of points. -/
theorem exists_points {cs : List ℕ} (h : ∀ c ∈ cs, onBoard c = true) :
    ∃ ps : List Point, cs = ps.map index := by
  induction cs with
  | nil => exact ⟨[], rfl⟩
  | cons c cs ih =>
      obtain ⟨hc, hcs⟩ := List.forall_mem_cons.mp h
      obtain ⟨p, rfl⟩ := exists_index hc
      obtain ⟨ps, rfl⟩ := ih hcs
      exact ⟨p :: ps, rfl⟩

/-- The neighbours of a point, as a list of points. -/
theorem exists_neighbors (p : Point) :
    ∃ ps : List Point, neighbors (index p) = ps.map index ∧ ∀ q, q ∈ ps ↔ adjacent p q := by
  obtain ⟨ps, hps⟩ := exists_points fun c => onBoard_of_mem_neighbors (c := index p) (d := c)
  refine ⟨ps, hps, fun q => ?_⟩
  rw [← index_mem_neighbors, hps, List.mem_map_of_injective index_injective]

/-! ## The stones of a board

A list of stones that are well placed is a map from points. -/

/-- The stone on a point. -/
def stoneOn (b : Stones) (p : Point) : Option Color := b.stoneAt (index p)

variable {b : Stones} {k : Color} {p q : Point}

/-- Where no key comes twice, looking up finds each entry. -/
theorem lookup_eq_some_iff {stones : List (ℕ × Color)} (nodup : (stones.map Prod.fst).Nodup)
    {c : ℕ} : stones.lookup c = some k ↔ (c, k) ∈ stones := by
  induction stones with
  | nil => simp
  | cons s stones ih =>
      obtain ⟨d, color⟩ := s
      obtain ⟨hd, hnodup⟩ := List.nodup_cons.mp nodup
      by_cases h : c = d
      · subst h
        have hout : (c, k) ∉ stones := fun h => hd (List.mem_map.mpr ⟨_, h, rfl⟩)
        simp [List.lookup_cons_self, hout, eq_comm]
      · have hne : (c == d) = false := by simpa using h
        simp [List.lookup_cons, hne, ih hnodup, h]

/-- A stone is on a point exactly when it is in the list. -/
theorem stoneAt_eq_some_iff (placed : b.WellPlaced) {c : ℕ} :
    b.stoneAt c = some k ↔ (c, k) ∈ b.stones :=
  lookup_eq_some_iff placed.nodup

theorem mem_pointsOf (placed : b.WellPlaced) {c : ℕ} :
    c ∈ b.pointsOf k ↔ b.stoneAt c = some k := by
  rw [stoneAt_eq_some_iff placed]
  simp [pointsOf]

theorem onBoard_of_stoneAt (placed : b.WellPlaced) {c : ℕ} (h : b.stoneAt c = some k) :
    onBoard c = true :=
  placed.onBoard _ ((stoneAt_eq_some_iff placed).mp h)

/-- A capture empties its points and no others. -/
theorem stoneAt_capture (set : List ℕ) (c : ℕ) :
    (b.capture set).stoneAt c = if c ∈ set then none else b.stoneAt c := by
  show (b.stones.filter fun s => s.1 ∉ set).lookup c = _
  unfold stoneAt
  induction b.stones with
  | nil => simp
  | cons s stones ih =>
      obtain ⟨d, color⟩ := s
      by_cases hd : d ∈ set
      · rw [List.filter_cons_of_neg (by simpa using hd), ih]
        by_cases h : c = d
        · subst h
          rw [if_pos hd, if_pos hd]
        · have hne : (c == d) = false := by simpa using h
          simp [List.lookup_cons, hne]
      · rw [List.filter_cons_of_pos (by simpa using hd)]
        by_cases h : c = d
        · subst h
          simp [hd]
        · have hne : (c == d) = false := by simpa using h
          simp only [List.lookup_cons, hne]
          exact ih

theorem stoneOn_capture (set : List ℕ) (p : Point) :
    (b.capture set).stoneOn p = if index p ∈ set then none else b.stoneOn p :=
  stoneAt_capture set _

/-! ## Groups and liberties

The list of stones computes them by flood fill, over the stones of a color. -/

/-- A group is what the rules call a group: the flood fill finds what is
connected. -/
theorem index_mem_group (placed : b.WellPlaced) (hp : b.stoneOn p = some k) :
    index q ∈ b.group (index p) k ↔ q ∈ Go.group adjacent b.stoneOn k p := by
  have sub : [index p] ⊆ b.pointsOf k := by
    intro c hc
    rw [List.mem_singleton.mp hc]
    exact (mem_pointsOf placed).mpr hp
  have hflood : index q ∈ b.group (index p) k ↔
      Relation.ReflTransGen (Spreads neighbors (b.pointsOf k)) (index p) (index q) := by
    refine (mem_flood_iff sub (List.cons_ne_nil _ _)).trans ?_
    simp
  rw [hflood]
  constructor
  -- the fill reaches indices of points only
  · have reach (c : ℕ)
        (path : Relation.ReflTransGen (Spreads neighbors (b.pointsOf k)) (index p) c) :
        ∃ q, index q = c ∧ b.stoneOn q = some k ∧ q ∈ Go.group adjacent b.stoneOn k p := by
      induction path with
      | refl => exact ⟨p, rfl, hp, self_mem_group⟩
      | tail _ hspreads ih =>
          obtain ⟨q, rfl, hq, mem⟩ := ih
          obtain ⟨hd, hnext⟩ := hspreads
          have hstone := (mem_pointsOf placed).mp hd
          obtain ⟨r, rfl⟩ := exists_index (onBoard_of_stoneAt placed hstone)
          have hadj := adjacent_symm _ _ (index_mem_neighbors.mp hnext)
          exact ⟨r, rfl, hstone, mem.tail ⟨hadj, hq, hstone⟩⟩
    intro path
    obtain ⟨r, hr, -, mem⟩ := reach _ path
    rwa [index_injective hr] at mem
  · intro mem
    refine Relation.ReflTransGen.lift index (fun u v hlink => ?_) _ _ mem
    exact ⟨(mem_pointsOf placed).mpr hlink.2.2,
      index_mem_neighbors.mpr (adjacent_symm _ _ hlink.1)⟩

/-- Every member of a group is a point. -/
theorem exists_of_mem_group (placed : b.WellPlaced) (hp : b.stoneOn p = some k) {c : ℕ}
    (h : c ∈ b.group (index p) k) : ∃ q, index q = c := by
  have hsub : [index p] ⊆ b.pointsOf k :=
    fun d hd => List.mem_singleton.mp hd ▸ (mem_pointsOf placed).mpr hp
  have hc : c ∈ b.pointsOf k := round_subset hsub _ h
  exact exists_index (onBoard_of_stoneAt placed ((mem_pointsOf placed).mp hc))

/-- A liberty of a group: an empty point next to one of its stones. -/
theorem index_mem_liberties (placed : b.WellPlaced) (hp : b.stoneOn p = some k) :
    index q ∈ b.liberties (b.group (index p) k) ↔
      (∃ u ∈ Go.group adjacent b.stoneOn k p, adjacent u q) ∧ b.stoneOn q = none := by
  unfold liberties
  rw [List.mem_dedup, List.mem_filter, List.mem_flatMap, Option.isNone_iff_eq_none]
  refine and_congr_left' ?_
  constructor
  · rintro ⟨c, hc, hq⟩
    obtain ⟨u, rfl⟩ := exists_of_mem_group placed hp hc
    exact ⟨u, (index_mem_group placed hp).mp hc, index_mem_neighbors.mp hq⟩
  · rintro ⟨u, hu, hadj⟩
    exact ⟨index u, (index_mem_group placed hp).mpr hu, index_mem_neighbors.mpr hadj⟩

theorem exists_of_mem_liberties {c : ℕ} {group : List ℕ} (h : c ∈ b.liberties group) :
    ∃ q, index q = c := by
  obtain ⟨d, -, hd⟩ := List.mem_flatMap.mp (List.mem_filter.mp (List.mem_dedup.mp h)).1
  exact exists_index (onBoard_of_mem_neighbors hd)

theorem libs_eq (hp : b.stoneOn p = some k) :
    b.libs (index p) = (b.liberties (b.group (index p) k)).length := by
  unfold stoneOn at hp
  rw [libs, hp]

/-- A group without liberties is one that the rules find dead. -/
theorem libs_eq_zero_iff (placed : b.WellPlaced) (hp : b.stoneOn p = some k) :
    b.libs (index p) = 0 ↔ ¬ HasLiberty adjacent b.stoneOn k p := by
  rw [libs_eq hp, List.length_eq_zero_iff, List.eq_nil_iff_forall_not_mem]
  constructor
  · rintro h ⟨u, hu, e, hadj, he⟩
    exact h _ ((index_mem_liberties placed hp).mpr ⟨⟨u, hu, hadj⟩, he⟩)
  · intro h c hc
    obtain ⟨q, rfl⟩ := exists_of_mem_liberties hc
    obtain ⟨⟨u, hu, hadj⟩, hq⟩ := (index_mem_liberties placed hp).mp hc
    exact h ⟨u, hu, q, hadj, hq⟩

theorem eq_singleton_of_nodup {l : List ℕ} (nodup : l.Nodup) {c : ℕ} (mem : c ∈ l)
    (only : ∀ d ∈ l, d = c) : l = [c] := by
  have perm : l.Perm [c] := (List.perm_ext_iff_of_nodup nodup (List.nodup_singleton c)).mpr
    fun d => ⟨fun hd => List.mem_singleton.mpr (only d hd),
      fun hd => List.mem_singleton.mp hd ▸ mem⟩
  exact List.perm_singleton.mp perm

/-- A group in atari, next to a point that is empty: that point is its only
liberty. -/
theorem libs_eq_one_iff (placed : b.WellPlaced) (hp : b.stoneOn p = some k)
    (hadj : adjacent p q) (hq : b.stoneOn q = none) :
    b.libs (index p) = 1 ↔ ∀ u ∈ Go.group adjacent b.stoneOn k p, ∀ e, adjacent u e →
      b.stoneOn e = none → e = q := by
  have hmem : index q ∈ b.liberties (b.group (index p) k) :=
    (index_mem_liberties placed hp).mpr ⟨⟨p, self_mem_group, hadj⟩, hq⟩
  rw [libs_eq hp, List.length_eq_one_iff]
  constructor
  · rintro ⟨c, hc⟩ u hu e hadj he
    have hlib := (index_mem_liberties placed hp).mpr ⟨⟨u, hu, hadj⟩, he⟩
    rw [hc, List.mem_singleton] at hmem hlib
    exact index_injective (hlib.trans hmem.symm)
  · intro h
    refine ⟨index q, eq_singleton_of_nodup (List.nodup_dedup _) hmem fun c hc => ?_⟩
    obtain ⟨e, rfl⟩ := exists_of_mem_liberties hc
    obtain ⟨⟨u, hu, hadj⟩, he⟩ := (index_mem_liberties placed hp).mp hc
    rw [h u hu e hadj he]

/-! ## Captures

Captures go along the neighbours, as in the library of the rules. -/

theorem wellPlaced_captureAt (placed : b.WellPlaced) (k : Color) (c : ℕ) :
    (b.captureAt k c).WellPlaced :=
  placed.of_sublist (sublist_captureAt k c)

/-- A capture at a point is that of the rules. -/
theorem stoneOn_captureAt (placed : b.WellPlaced) (k : Color) (p : Point) :
    (b.captureAt k (index p)).stoneOn = Go.captureAt adjacent k b.stoneOn p := by
  have hcond : (b.stoneAt (index p) = some k ∧ b.libs (index p) = 0) ↔
      (b.stoneOn p = some k ∧ ¬ HasLiberty adjacent b.stoneOn k p) :=
    and_congr_right fun hp => libs_eq_zero_iff placed hp
  by_cases h : b.stoneOn p = some k ∧ ¬ HasLiberty adjacent b.stoneOn k p
  · rw [captureAt, if_pos (hcond.mpr h), captureAt_of_dead h]
    funext q
    rw [stoneOn_capture]
    by_cases mem : q ∈ Go.group adjacent b.stoneOn k p
    · rw [remove_of_mem mem, if_pos ((index_mem_group placed h.1).mpr mem)]
    · rw [remove_of_not_mem mem, if_neg fun hq => mem ((index_mem_group placed h.1).mp hq)]
  · rw [captureAt, if_neg (hcond.not.mpr h), captureAt_of_not_dead h]

/-- So are captures at several points, one after the other. -/
theorem foldl_captureAt (placed : b.WellPlaced) (k : Color) (ps : List Point) :
    ((ps.map index).foldl (fun b c => b.captureAt k c) b).stoneOn =
        ps.foldl (Go.captureAt adjacent k) b.stoneOn ∧
      ((ps.map index).foldl (fun b c => b.captureAt k c) b).WellPlaced := by
  induction ps generalizing b with
  | nil => exact ⟨rfl, placed⟩
  | cons p ps ih =>
      have next := ih (wellPlaced_captureAt placed k (index p))
      rwa [stoneOn_captureAt placed] at next

/-! ## Moves -/

variable {v : Point}

/-- An eye of the opponent is a point that is surrounded. -/
theorem isEyelike_iff :
    b.isEyelike (index v) k.other = true ↔ surrounded adjacent Color.other b.stoneOn k v := by
  obtain ⟨ps, hps, hmem⟩ := exists_neighbors v
  unfold isEyelike surrounded
  rw [hps, List.all_eq_true, List.forall_mem_map]
  simp only [hmem, decide_eq_true_eq, stoneOn]

/-- A free point takes a stone. -/
theorem wellPlaced_cons (placed : b.WellPlaced) (free : b.stoneOn v = none) (k : Color) :
    ({ b with stones := (index v, k) :: b.stones } : Stones).WellPlaced := by
  refine ⟨List.nodup_cons.mpr ⟨not_mem_of_stoneAt free, placed.nodup⟩, fun s hs => ?_⟩
  rcases List.mem_cons.mp hs with rfl | hs
  · exact onBoard_index v
  · exact placed.onBoard s hs

theorem stoneOn_cons (k : Color) :
    ({ b with stones := (index v, k) :: b.stones } : Stones).stoneOn =
      Go.place b.stoneOn k v := by
  funext u
  by_cases h : u = v
  · rw [h, place_self]
    exact List.lookup_cons_self
  · have hne : (index u == index v) = false := by simpa using index_injective.ne h
    rw [place_of_ne h]
    unfold stoneOn stoneAt
    simp only [List.lookup_cons, hne]

/-- `place` leaves the stones that the rules leave after the captures. -/
theorem stoneOn_place (placed : b.WellPlaced) (free : b.stoneOn v = none) (k : Color) :
    (b.place k (index v)).stoneOn = afterCapture adjacent Color.other b.stoneOn k v ∧
      (b.place k (index v)).WellPlaced := by
  obtain ⟨ps, hps, hmem⟩ := exists_neighbors v
  have fold := foldl_captureAt (wellPlaced_cons placed free k) k.other ps
  rw [stoneOn_cons, foldl_captureAt_place adjacent_symm hmem, ← hps] at fold
  exact fold

/-- There are as many stones as occupied points. -/
theorem length_stones (placed : b.WellPlaced) :
    b.stones.length = (occupied b.stoneOn).ncard := by
  have himage : index '' occupied b.stoneOn = {c | c ∈ b.stones.map Prod.fst} := by
    ext c
    constructor
    · rintro ⟨p, hp, rfl⟩
      obtain ⟨color, hcolor⟩ := Option.ne_none_iff_exists'.mp hp
      exact List.mem_map.mpr ⟨_, (stoneAt_eq_some_iff placed).mp hcolor, rfl⟩
    · intro hc
      obtain ⟨⟨d, color⟩, hs, rfl⟩ := List.mem_map.mp hc
      obtain ⟨p, rfl⟩ := exists_index (placed.onBoard _ hs)
      refine ⟨p, ?_, rfl⟩
      show b.stoneAt (index p) ≠ none
      rw [(stoneAt_eq_some_iff placed).mpr hs]
      exact Option.some_ne_none _
  have hfinset : {c | c ∈ b.stones.map Prod.fst} = ((b.stones.map Prod.fst).toFinset : Set ℕ) := by
    ext c
    simp
  rw [← Set.ncard_image_of_injective _ index_injective, himage, hfinset, Set.ncard_coe_finset,
    List.toFinset_card_of_nodup placed.nodup, List.length_map]

/-- The number of stones is kept by the capture of a single stone, and by no
other move.  This is how the list of stones knows a ko. -/
theorem length_place (placed : b.WellPlaced) (free : b.stoneOn v = none) (k : Color) :
    (b.place k (index v)).stones.length = b.stones.length ↔
      ∃ u, captured adjacent Color.other b.stoneOn k v = {u} := by
  obtain ⟨hstones, hplaced⟩ := stoneOn_place placed free k
  have hout : v ∉ occupied b.stoneOn := fun h => h free
  have hcard : (insert v (occupied b.stoneOn)).ncard = (occupied b.stoneOn).ncard + 1 :=
    Set.ncard_insert_of_notMem hout
  have hsub : captured adjacent Color.other b.stoneOn k v ⊆ insert v (occupied b.stoneOn) :=
    captured_subset
  have hle := Set.ncard_le_ncard hsub
  rw [length_stones hplaced, hstones, occupied_afterCapture, Set.ncard_sdiff captured_subset,
    length_stones placed, ← Set.ncard_eq_one]
  omega

/-- A board that stands for a position of the rules: the same stones, the same
ban, and no point with two stones. -/
structure Represents (b : Stones) (p : Position Point Color) : Prop where
  wellPlaced : b.WellPlaced
  stone : b.stoneOn = p.stone
  ko : ∀ v k, p.ko v k ↔ b.ko = some (index v, k)

/-- The position that a board stands for. -/
def position (b : Stones) : Position Point Color := ⟨b.stoneOn, fun v k => b.ko = some (index v, k)⟩

/-- A board whose stones are well placed stands for the position it shows. -/
theorem represents_position (placed : b.WellPlaced) : b.Represents b.position :=
  ⟨placed, rfl, fun _ _ => Iff.rfl⟩

/-- On a surrounded point, some group of the opponent is in atari exactly when
the stone captures. -/
theorem any_atari_iff (placed : b.WellPlaced) (free : b.stoneOn v = none)
    (hsurrounded : surrounded adjacent Color.other b.stoneOn k v) :
    ((neighbors (index v)).any fun d => b.libs d = 1) = true ↔
      (captured adjacent Color.other b.stoneOn k v).Nonempty := by
  obtain ⟨ps, hps, hmem⟩ := exists_neighbors v
  have atari (d : Point) (hadj : adjacent v d) : b.libs (index d) = 1 ↔
      ¬ HasLiberty adjacent (Go.place b.stoneOn k v) k.other d := by
    rw [libs_eq_one_iff placed (hsurrounded d hadj) (adjacent_symm _ _ hadj) free,
      not_hasLiberty_place_iff free k.other_ne]
  have hcolor (d : Point) (hadj : adjacent v d) :
      Go.place b.stoneOn k v d = some k.other :=
    (place_eq_some_iff free k.other_ne).mpr (hsurrounded d hadj)
  rw [hps, List.any_map, List.any_eq_true]
  constructor
  · rintro ⟨d, hd, hlibs⟩
    have hadj := (hmem d).mp hd
    exact ⟨d, d, hadj, hcolor d hadj, self_mem_group, (atari d hadj).mp (by simpa using hlibs)⟩
  · rintro ⟨u, d, hadj, -, -, hlib⟩
    exact ⟨d, (hmem d).mpr hadj, by simpa using (atari d hadj).mpr hlib⟩

/-- The points are within the arrays. -/
theorem index_lt (v : Point) : index v < boardMaxCoords := lt_of_onBoard (onBoard_index v)

/-- On a point, being free is having no stone. -/
theorem isFree_index (v : Point) : b.isFree (index v) = (b.stoneOn v).isNone := by
  rw [isFree, if_pos (index_lt v), onBoard_index, Bool.true_and]
  rfl

/-- **The valid moves are the legal ones.** -/
theorem isValidMove_iff {p : Position Point Color} (h : b.Represents p) (k : Color) (v : Point) :
    b.isValidMove k (coord v) = true ↔ p.legal adjacent Color.other k v := by
  have hko : p.ko v k ↔ b.ko = some (index v, k) := h.ko v k
  have inside : decide (boardMaxCoords ≤ index v) = false :=
    decide_eq_false (Nat.not_le_of_lt (index_lt v))
  unfold Position.legal
  rw [← h.stone, hko]
  show (b.isFree (index v) &&
    (boardMaxCoords ≤ index v || !b.isEyelike (index v) k.other || (b.ko ≠ some (index v, k) &&
      (neighbors (index v)).any fun d => b.libs d = 1))) = true ↔ _
  rw [isFree_index, inside, Bool.false_or, Bool.and_eq_true, Option.isNone_iff_eq_none]
  refine and_congr_right fun free => ?_
  rw [Bool.or_eq_true, Bool.not_eq_true', ← Bool.not_eq_true, isEyelike_iff]
  by_cases hs : surrounded adjacent Color.other b.stoneOn k v
  · rw [Bool.and_eq_true, any_atari_iff h.wellPlaced free hs, decide_eq_true_iff]
  · exact iff_of_true (.inl hs) (.inl hs)

/-- The stone that a capture in an eye has removed. -/
theorem getLast?_captured (placed : b.WellPlaced) (free : b.stoneOn v = none)
    (hsurrounded : surrounded adjacent Color.other b.stoneOn k v) {u : Point}
    (h : captured adjacent Color.other b.stoneOn k v = {u}) :
    ((neighbors (index v)).filter fun d =>
      ((b.place k (index v)).stoneAt d).isNone).getLast? = some (index u) := by
  obtain ⟨ps, hps, hmem⟩ := exists_neighbors v
  obtain ⟨hstones, -⟩ := stoneOn_place placed free k
  -- the neighbours all had a stone, and only a captured one has left
  have gone (d : Point) (hadj : adjacent v d) :
      (b.place k (index v)).stoneOn d = none ↔ d = u := by
    have hcolor : Go.place b.stoneOn k v d = some k.other :=
      (place_eq_some_iff free k.other_ne).mpr (hsurrounded d hadj)
    have hset : d ∈ captured adjacent Color.other b.stoneOn k v ↔ d = u := by
      rw [h]
      exact Iff.rfl
    rw [hstones, ← hset]
    by_cases hd : d ∈ captured adjacent Color.other b.stoneOn k v
    · exact iff_of_true (remove_of_mem hd) hd
    · refine iff_of_false (fun hnone => ?_) hd
      rw [afterCapture, remove_of_not_mem hd, hcolor] at hnone
      exact Option.some_ne_none _ hnone
  have hadjacent : adjacent v u := by
    obtain ⟨d, hadj, hcolor, -, hlib⟩ : u ∈ captured adjacent Color.other b.stoneOn k v := by
      rw [h]
      rfl
    have hd : d ∈ captured adjacent Color.other b.stoneOn k v :=
      ⟨d, hadj, hcolor, self_mem_group, hlib⟩
    rw [h] at hd
    obtain rfl : d = u := hd
    exact hadj
  have only (c : ℕ) : c ∈ (neighbors (index v)).filter (fun d =>
      ((b.place k (index v)).stoneAt d).isNone) ↔ c = index u := by
    rw [List.mem_filter, Option.isNone_iff_eq_none]
    constructor
    · rintro ⟨hc, hnone⟩
      rw [hps] at hc
      obtain ⟨d, hd, rfl⟩ := List.mem_map.mp hc
      rw [(gone d ((hmem d).mp hd)).mp hnone]
    · rintro rfl
      exact ⟨index_mem_neighbors.mpr hadjacent, (gone u hadjacent).mpr rfl⟩
  have hne := List.ne_nil_of_mem ((only _).mpr rfl)
  rw [List.getLast?_eq_some_getLast hne, (only _).mp (List.getLast_mem hne)]

/-- The ko of a move in an eye is that of the rules: it is there exactly when
one stone was captured, and bans that stone's point. -/
theorem ko_of_eyelike (placed : b.WellPlaced) (free : b.stoneOn v = none)
    (hsurrounded : surrounded adjacent Color.other b.stoneOn k v) (u : Point) (c : Color) :
    (c = k.other ∧ captured adjacent Color.other b.stoneOn k v = {u}) ↔
      (if (b.place k (index v)).stones.length = b.stones.length then
        ((neighbors (index v)).filter fun d =>
          ((b.place k (index v)).stoneAt d).isNone).getLast?.map fun d => (d, k.other)
      else none) = some (index u, c) := by
  by_cases single : ∃ w, captured adjacent Color.other b.stoneOn k v = {w}
  · obtain ⟨w, hw⟩ := single
    rw [if_pos ((length_place placed free k).mpr ⟨w, hw⟩),
      getLast?_captured placed free hsurrounded hw, hw, Option.map_some, Option.some_inj,
      Prod.mk.injEq, index_injective.eq_iff, Set.singleton_eq_singleton_iff, and_comm]
    exact and_congr_right' eq_comm
  · rw [if_neg fun h => single ((length_place placed free k).mp h)]
    exact iff_of_false (fun h => single ⟨u, h.2⟩) (by simp)

/-- **`board_play`** on a legal move leaves the position of the rules. -/
theorem represents_play {p : Position Point Color} (h : b.Represents p) (k : Color) (v : Point)
    (legal : p.legal adjacent Color.other k v) :
    (b.play k (coord v)).Represents (p.play adjacent Color.other k v) := by
  have valid := (isValidMove_iff h k v).mpr legal
  obtain ⟨hfree, hlegal⟩ := legal
  rw [← h.stone] at hfree hlegal
  obtain ⟨hstones, hplaced⟩ := stoneOn_place h.wellPlaced hfree k
  have hafter : remove (suicide adjacent Color.other b.stoneOn k v)
      (afterCapture adjacent Color.other b.stoneOn k v) =
        Go.captureAt adjacent k (afterCapture adjacent Color.other b.stoneOn k v) v :=
    remove_suicide k.other_ne
  have hplay : b.play k (coord v) =
      if b.isEyelike (index v) k.other = true then
        { b.place k (index v) with
          ko := if (b.place k (index v)).stones.length = b.stones.length then
              ((neighbors (index v)).filter fun d =>
                ((b.place k (index v)).stoneAt d).isNone).getLast?.map fun d => (d, k.other)
            else none
          asserted := b.asserted && decide (b.stones.length + 1 < boardMaxGroups) }
      else { (b.place k (index v)).captureAt k (index v) with
        ko := none
        asserted := b.asserted && decide (b.stones.length + 1 < boardMaxGroups) } :=
    if_neg (Nat.not_le_of_lt (index_lt v))
  refine ⟨wellPlaced_play h.wellPlaced valid, ?_, fun u c => ?_⟩
  · show _ = remove (suicide adjacent Color.other p.stone k v) _
    rw [← h.stone, hafter, hplay]
    by_cases hs : surrounded adjacent Color.other b.stoneOn k v
    · -- in an eye the move captures, so the stone keeps a liberty
      have hcaptured := (hlegal.resolve_left (not_not_intro hs)).2
      rw [if_pos (isEyelike_iff.mpr hs),
        captureAt_of_not_dead fun hdead => hdead.2 (hasLiberty_of_captured hcaptured)]
      exact hstones
    · rw [if_neg fun he => hs (isEyelike_iff.mp he)]
      exact (stoneOn_captureAt hplaced k v).trans (by rw [hstones])
  · show (surrounded adjacent Color.other p.stone k v ∧ _) ↔ _
    rw [← h.stone, hplay]
    by_cases hs : surrounded adjacent Color.other b.stoneOn k v
    · rw [if_pos (isEyelike_iff.mpr hs), and_iff_right hs]
      exact ko_of_eyelike h.wellPlaced hfree hs u c
    · rw [if_neg fun he => hs (isEyelike_iff.mp he)]
      exact iff_of_false (fun hko => hs hko.1) (by simp)

end Stones

/-- **The vendored board follows the rules of Go.** -/
theorem pachi_followsRules : FollowsRules pachi Stones.stoneOn Stones.Represents where
  clear := ⟨⟨List.nodup_nil, by simp [pachi]⟩, rfl, by simp [pachi, Position.empty]⟩
  stone h v := congrFun h.stone v
  isValidMove h := Stones.isValidMove_iff h
  play h := Stones.represents_play h

/-! ## The stone of `apply_move`

What the wrapper passes on to the vendored board. -/

section

open GoBoard

variable {B : Type} {P : Pachi B} {board : GoBoard B}

/-- `apply_move` accepts a stone on a point where the vendored board does. -/
theorem _applyMove_fst (p : Point) (k : Color) :
    (_applyMove P board (pos p) k).1 = P.isValidMove board.b k (coord p) := by
  rw [← coord_of_pos p]
  rfl

/-- A move that the vendored board allows is played on it. -/
theorem _applyMove_b_of_valid {action : ℕ} {k : Color}
    (valid : P.isValidMove board.b k (action % 19 + 1, action / 19 + 1) = true) :
    (_applyMove P board action k).2.b = P.play board.b k (action % 19 + 1, action / 19 + 1) := by
  unfold _applyMove storeHash
  dsimp only
  rw [if_pos valid]
  split
  · rfl
  · split <;> rfl

theorem _applyMove_b {p : Point} {k : Color}
    (valid : P.isValidMove board.b k (coord p) = true) :
    (_applyMove P board (pos p) k).2.b = P.play board.b k (coord p) := by
  rw [← coord_of_pos p] at valid ⊢
  exact _applyMove_b_of_valid valid

/-- Whether the vendored board withstands a move that it allows. -/
theorem withstands_of_valid {action : ℤ} (nonneg : 0 ≤ action)
    (valid : P.isValidMove board.b board.getColor
      (action.toNat % 19 + 1, action.toNat / 19 + 1) = true) :
    board.withstands P action = P.asserted (P.play board.b board.getColor
      (action.toNat % 19 + 1, action.toNat / 19 + 1)) := by
  have succ : (_applyMove P board action.toNat board.getColor).1 = true := valid
  rw [withstands, decide_eq_false (not_lt.mpr nonneg), Bool.false_or, applyMove, if_pos nonneg]
  dsimp only
  rw [if_pos succ, ← _applyMove_b_of_valid valid]
  rfl

/-- A move without a stone always comes to its end. -/
theorem withstands_of_neg {action : ℤ} (neg : action < 0) : board.withstands P action = true := by
  rw [withstands, decide_eq_true neg, Bool.true_or]

end

end EstarGo
