import EstarGo.Board.Runs
import EstarGo.Lib.Settle
import Mathlib.Algebra.Order.BigOperators.Group.List

/-!
# The score of the board

`board_official_score_details` fills the empty regions: a point that sees one
color becomes a point of that color, and a point that sees both of them, or a
point of neither, becomes dame.  The source goes along the list of free points,
in the order that the game has left it in, until a round changes nothing; the
visits write to the points around as well.

A visit beside a point that is not set yet increments `nei[-1]`, in front of an
array of four.  Nearly every game has such visits.  What is said here holds
where this write, which C++ leaves undefined, changes nothing that is read;
compilers that place `nei` behind something else can break it.

## Main definitions

* `Ownermap`, `trompTaylorPoint`, `finalOwnermap` — the map that is filled, one
  visit, and the map at the end.
* `Reaches`, `area` — what a point reaches by empty points, and the points that
  count for a color.
* `Owned` — the marks so far are justified by the stones.

## Main results

* `Sound.owned_finalOwnermap`: the fill ends.
* `owner_iff_reaches`: a point is marked with the colors that it reaches.
* `officialScores_of_run`: after any calls of `board_play` the scores are the
  areas, and no point is left unset on a board with a stone.

## Design notes

**Order does not matter.**  The order of the free points is whatever the moves
and captures have made of it, so the marks after a round depend on the whole
game.  The marks at the end do not: those that are set are justified (`Owned`),
and where a round changes nothing they can no longer be spread.

**Dame is both colors.**  Seen from a color, a dame point counts as one of it,
because it reaches the color too.  With this reading a visit only ever spreads
what a neighbor is seen from, and one lemma does for all three kinds of marks.
-/

namespace EstarGo

open Verif Verif.Go Stones

/-- `ownermap`; `none` is -1, for a point that is not set.  At first these are
the empty points: a stone and the margin own themselves. -/
abbrev Ownermap := ℕ → Option Stone

/-- `FO_DAME`, a point that is nobody's.  It is the value of `S_NONE`. -/
def foDame : Stone := .none

/-- `nei[owner]`, as far as it is tested: some neighbor has the owner.  For a
neighbor that is not set the source increments `nei[-1]`, which is out of the
bounds of `int nei[4]`: undefined behaviour.  It is taken to change nothing,
since nothing reads `nei[-1]`. -/
def nei (ownermap : Ownermap) (c : ℕ) (owner : Stone) : Bool :=
  (foreachNeighbor c).any fun d => ownermap d = some owner

namespace Board

variable (bd : Board)

/-- One point of `board_tromp_taylor_iter`; `none` where it continues without an
update.  The neighbors are written as well, which is why the order of the points
matters to a round. -/
def trompTaylorPoint (ownermap : Ownermap) (c : ℕ) : Option Ownermap :=
  if ownermap c = some foDame then none
  else if (nei ownermap c .black && nei ownermap c .white) || nei ownermap c foDame then
    some ((foreachNeighbor c).foldl
      (fun map d => if bd.b d = .none then Function.update map d (some foDame) else map)
      (Function.update ownermap c (some foDame)))
  else if ownermap c = none && (nei ownermap c .black || nei ownermap c .white) then
    let newowner : Stone := if nei ownermap c .black then .black else .white
    some ((foreachNeighbor c).foldl
      (fun map d =>
        if bd.b d = .none ∧ map d = none then Function.update map d (some newowner) else map)
      (Function.update ownermap c (some newowner)))
  else none

/-- The map before the flood fill: the stones and the margin as they are, and
the empty points unset. -/
def initialOwnermap : Ownermap := fun c => if bd.b c = .none then none else some (bd.b c)

/-- The flood fill: `board_tromp_taylor_iter` while it returns true.  Each round
raises a rank that is at most twice the number of points. -/
def finalOwnermap : Ownermap :=
  settle bd.trompTaylorPoint bd.free.f (2 * points.length + 1) bd.initialOwnermap

/-- `scores[]` of `board_official_score_details`; the empty board counts
nothing. -/
def officialScores (color : Color) : ℕ :=
  let s (x : Stone) := (List.range boardMaxCoords).countP fun c => bd.b c = x
  if s .black = 0 ∧ s .white = 0 then 0
  else (List.range boardMaxCoords).countP fun c => bd.finalOwnermap c = some color.stone

/-! ## What a point reaches -/

/-- Adjacent empty points, between which the fill spreads. -/
def Opened (s : ℕ → Option Color) (c d : ℕ) : Prop := near c d ∧ s c = none ∧ s d = none

/-- A point reaches a color: a path of empty points leads next to a stone of
it. -/
def Reaches (s : ℕ → Option Color) (k : Color) (c : ℕ) : Prop :=
  ∃ d, Relation.ReflTransGen (Opened s) c d ∧ ∃ e, near d e ∧ s e = some k

/-- The points that count for a color: its stones, and the empty points that
reach only it. -/
def area (s : ℕ → Option Color) (k : Color) : Set ℕ :=
  {c | s c = some k ∨ (onBoard c = true ∧ s c = none) ∧ Reaches s k c ∧ ¬ Reaches s k.other c}

variable {bd} {s : ℕ → Option Color} {c d e : ℕ} {k : Color} {ownermap map' : Ownermap}

/-- A point next to a stone reaches its color. -/
theorem reaches_of_near (hadj : near c e) (he : s e = some k) : Reaches s k c :=
  ⟨c, Relation.ReflTransGen.refl, e, hadj, he⟩

/-- What an empty point reaches, its empty neighbors reach. -/
theorem Reaches.step (h : Reaches s k d) (hopen : Opened s c d) : Reaches s k c := by
  obtain ⟨f, hpath, he⟩ := h
  exact ⟨f, Relation.ReflTransGen.head hopen hpath, he⟩

/-- A color without stones has no area. -/
theorem area_eq_empty (hs : ∀ c, s c ≠ some k) : area s k = ∅ := by
  refine Set.eq_empty_of_forall_notMem fun c hc => ?_
  obtain hk | ⟨-, ⟨-, -, e, -, he⟩, -⟩ := hc
  · exact hs c hk
  · exact hs e he

/-- The board is connected: every point has a path to the corner. -/
theorem reaches_corner {c : ℕ} (hon : onBoard c = true) : Relation.ReflTransGen near c 22 := by
  induction c using Nat.strong_induction_on with
  | h c ih =>
      have hc := onBoard_iff.mp hon
      by_cases hcol : c % 21 = 1
      · by_cases hrow : c / 21 = 1
        · obtain rfl : c = 22 := by omega
          exact Relation.ReflTransGen.refl
        · have hup : onBoard (c - 21) = true := onBoard_iff.mpr (by omega)
          exact Relation.ReflTransGen.head ⟨hon, hup, mem_foreachNeighbor.mpr (.inl rfl)⟩
            (ih (c - 21) (by omega) hup)
      · have hleft : onBoard (c - 1) = true := onBoard_iff.mpr (by omega)
        exact Relation.ReflTransGen.head ⟨hon, hleft, mem_foreachNeighbor.mpr (.inr (.inl rfl))⟩
          (ih (c - 1) (by omega) hleft)

/-! ## What the fill keeps true

Each mark is justified by a path to a stone, whatever the order of the
visits. -/

/-- A point counts as seen from a color: it is of the color, or dame. -/
def Owner (ownermap : Ownermap) (c : ℕ) (k : Color) : Prop :=
  ownermap c = some k.stone ∨ ownermap c = some foDame

/-- The stones are marked as they stand, an empty point is marked with colors
that it reaches, and next to it is a point that has the mark as well.  The last
part keeps a color from being the only mark of its kind. -/
structure Owned (bd : Board) (ownermap : Ownermap) : Prop where
  stone : ∀ c, bd.b c ≠ .none → ownermap c = some (bd.b c)
  free : ∀ c, bd.b c = .none →
    ownermap c = none ∨ ownermap c = some foDame ∨ ∃ k : Color, ownermap c = some k.stone
  reach : ∀ c k, bd.b c = .none → Owner ownermap c k → Reaches bd.stoneAt k c
  backed : ∀ c k, bd.b c = .none → ownermap c = some (Color.stone k) →
    ∃ d ∈ foreachNeighbor c, Owner ownermap d k

theorem stone_ne_foDame (k : Color) : k.stone ≠ foDame := k.stone_ne_none

/-- The counter of an owner is positive where a neighbor has it. -/
theorem nei_iff (owner : Stone) :
    nei ownermap c owner = true ↔ ∃ d ∈ foreachNeighbor c, ownermap d = some owner := by
  simp [nei, List.any_eq_true]

/-- The marks of the neighbors are those that the visited point is given, where
the condition holds of them. -/
theorem foldl_paint (cond : ℕ → Option Stone → Prop) [∀ d x, Decidable (cond d x)]
    (x : Option Stone) (l : List ℕ) (map : Ownermap) (e : ℕ) :
    l.foldl (fun map d => if cond d (map d) then Function.update map d x else map) map e =
      if e ∈ l ∧ cond e (map e) then x else map e := by
  induction l generalizing map with
  | nil => simp
  | cons a l ih =>
      rw [List.foldl_cons, ih]
      by_cases hea : e = a
      · subst hea
        by_cases hc : cond e (map e)
        · rw [if_pos hc, Function.update_self, ite_self, if_pos ⟨List.mem_cons_self, hc⟩]
        · rw [if_neg hc, if_neg fun h => hc h.2, if_neg fun h => hc h.2]
      · have hsame : (if cond a (map a) then Function.update map a x else map) e = map e := by
          split
          · exact Function.update_of_ne hea x map
          · rfl
        rw [hsame]
        simp only [List.mem_cons, hea, false_or]

/-- **What a visit changes**: the point becomes dame with the empty points
around it, or it takes a color with those around it that are not set. -/
theorem trompTaylorPoint_cases (hon : onBoard c = true)
    (h : bd.trompTaylorPoint ownermap c = some map') :
    ownermap c ≠ some foDame ∧
      (((∀ k, ∃ d ∈ foreachNeighbor c, Owner ownermap d k) ∧
        ∀ e, map' e = if e = c ∨ e ∈ foreachNeighbor c ∧ bd.b e = .none then some foDame
          else ownermap e) ∨
      (ownermap c = none ∧ ∃ k : Color, (∃ d ∈ foreachNeighbor c, ownermap d = some k.stone) ∧
        ∀ e, map' e = if e = c ∨ e ∈ foreachNeighbor c ∧ bd.b e = .none ∧ ownermap e = none
          then some k.stone else ownermap e)) := by
  have hself := self_not_mem_foreachNeighbor hon
  unfold trompTaylorPoint at h
  by_cases hdame : ownermap c = some foDame
  · rw [if_pos hdame] at h
    exact absurd h (by simp)
  rw [if_neg hdame] at h
  refine ⟨hdame, ?_⟩
  split at h
  case isTrue hboth =>
    left
    rw [Bool.or_eq_true, Bool.and_eq_true, nei_iff, nei_iff, nei_iff] at hboth
    refine ⟨fun k => ?_, fun e => ?_⟩
    · rcases hboth with ⟨⟨d, hd, hb⟩, ⟨d', hd', hw⟩⟩ | ⟨d, hd, hx⟩
      · cases k with
        | black => exact ⟨d, hd, .inl hb⟩
        | white => exact ⟨d', hd', .inl hw⟩
      · exact ⟨d, hd, .inr hx⟩
    · rw [← Option.some.inj h, foldl_paint (fun d _ => bd.b d = .none)]
      by_cases hec : e = c
      · subst hec
        rw [if_neg fun h => hself h.1, Function.update_self, if_pos (.inl rfl)]
      · simp only [Function.update_of_ne hec, hec, false_or]
  case isFalse =>
    split at h
    case isTrue hone =>
      right
      rw [Bool.and_eq_true, decide_eq_true_eq, Bool.or_eq_true] at hone
      obtain ⟨k, hk, hd⟩ : ∃ k : Color,
          (if nei ownermap c .black = true then Stone.black else .white) = k.stone ∧
            ∃ d ∈ foreachNeighbor c, ownermap d = some k.stone := by
        by_cases hb : nei ownermap c .black = true
        · exact ⟨.black, if_pos hb, (nei_iff _).mp hb⟩
        · exact ⟨.white, if_neg hb, (nei_iff _).mp (hone.2.resolve_left hb)⟩
      refine ⟨hone.1, k, hd, fun e => ?_⟩
      rw [← Option.some.inj h, hk, foldl_paint (fun d x => bd.b d = .none ∧ x = none)]
      by_cases hec : e = c
      · subst hec
        rw [if_neg fun h => hself h.1, Function.update_self, if_pos (.inl rfl)]
      · simp only [Function.update_of_ne hec, hec, false_or]
    case isFalse => exact absurd h (by simp)

/-- Before the fill the stones are marked, and nothing else is. -/
theorem owned_initial : Owned bd bd.initialOwnermap := by
  have hfree (c : ℕ) (hc : bd.b c = .none) : bd.initialOwnermap c = none := if_pos hc
  refine ⟨fun c hc => if_neg hc, fun c hc => .inl (hfree c hc), fun c k hc hseen => ?_,
    fun c k hc hk => ?_⟩
  · rw [Owner, hfree c hc] at hseen
    exact absurd hseen (by simp)
  · rw [hfree c hc] at hk
    exact absurd hk (by simp)

/-! ## What a visit raises

The fill is a loop without a bound in the source; that it ends is shown by what
no visit lowers. -/

/-- How far a point has come: unset, a color, dame.  A mark never goes back. -/
def markRank : Option Stone → ℕ
  | none => 0
  | some .none => 2
  | some _ => 1

/-- How far all points have come together. -/
def ownerRank (ownermap : Ownermap) : ℕ := (points.map fun c => markRank (ownermap c)).sum

theorem markRank_le_two (x : Option Stone) : markRank x ≤ 2 := by
  obtain _ | x := x
  · exact Nat.zero_le 2
  · cases x <;> decide

theorem markRank_lt_two {x : Option Stone} (hx : x ≠ some foDame) : markRank x < 2 := by
  obtain _ | x := x
  · exact Nat.zero_lt_two
  · cases x
    case none => exact absurd rfl hx
    all_goals decide

theorem markRank_stone (k : Color) : markRank (some k.stone) = 1 := by
  cases k <;> rfl

/-- No map is further than all points dame. -/
theorem ownerRank_le (ownermap : Ownermap) : ownerRank ownermap ≤ 2 * points.length := by
  unfold ownerRank
  induction points with
  | nil => exact Nat.le_refl 0
  | cons c l ih =>
      have := markRank_le_two (ownermap c)
      rw [List.map_cons, List.sum_cons, List.length_cons]
      omega

/-- A visit that changes something raises the rank, so there are not many of
them. -/
theorem ownerRank_lt_visit (hon : onBoard c = true)
    (hvisit : bd.trompTaylorPoint ownermap c = some map') :
    ownerRank ownermap < ownerRank map' := by
  have grow : (∀ e, markRank (ownermap e) ≤ markRank (map' e)) ∧
      markRank (ownermap c) < markRank (map' c) := by
    obtain ⟨hdame, ⟨-, hmap⟩ | ⟨hunset, k, -, hmap⟩⟩ := trompTaylorPoint_cases hon hvisit
    · constructor
      · intro e
        rw [hmap]
        split
        · exact markRank_le_two (ownermap e)
        · exact Nat.le_refl _
      · rw [hmap, if_pos (.inl rfl)]
        exact markRank_lt_two hdame
    · constructor
      · intro e
        rw [hmap]
        split
        case isTrue hin =>
          have hnone : ownermap e = none := hin.elim (fun hec => hec ▸ hunset) fun hin => hin.2.2
          rw [hnone]
          exact Nat.zero_le _
        case isFalse => exact Nat.le_refl _
      · rw [hmap, if_pos (.inl rfl), hunset, markRank_stone]
        exact Nat.zero_lt_one
  exact List.sum_lt_sum _ _ (fun e _ => grow.1 e) ⟨c, mem_points.mpr hon, grow.2⟩

/-! ## Visits

A visit marks the point and the empty points around it.  All of them see what
the point sees, or are seen from it. -/

section Visits

variable {ok : Prop} (h : Sound ok bd)
include h

/-- A neighbor that is seen from a color leads to it. -/
theorem Owned.reaches_of_neighbor (howned : Owned bd ownermap) (hc : bd.b c = .none)
    (hd : d ∈ foreachNeighbor c) (hseen : Owner ownermap d k) : Reaches bd.stoneAt k c := by
  have hon := h.onBoard_of_free hc
  by_cases hfree : bd.b d = .none
  · refine (howned.reach d k hfree hseen).step ⟨⟨hon, h.onBoard_of_free hfree, hd⟩, ?_, ?_⟩
    · exact stoneAt_of_free hc
    · exact stoneAt_of_free hfree
  · rcases hseen with hseen | hseen
    · have hb : bd.b d = k.stone :=
        Option.some.inj ((howned.stone d hfree).symm.trans hseen)
      have hoff : bd.b d ≠ .offboard := hb ▸ k.stone_ne_offboard
      exact reaches_of_near ⟨hon, h.ledger.onBoard hoff, hd⟩ (stoneAt_eq_some_iff.mpr hb)
    · exact absurd (Option.some.inj ((howned.stone d hfree).symm.trans hseen)) hfree

/-- **A visit** keeps the marks sound: what it writes is seen from a neighbor.
The visited point is empty, so it may have an owner. -/
theorem Owned.visit (howned : Owned bd ownermap) (hc : bd.b c = .none)
    (hvisit : bd.trompTaylorPoint ownermap c = some map') : Owned bd map' := by
  have hon := h.onBoard_of_free hc
  obtain ⟨-, ⟨hall, hmap⟩ | ⟨hunset, k, ⟨d, hd, hdk⟩, hmap⟩⟩ :=
    trompTaylorPoint_cases hon hvisit
  · -- the points that are set become dame
    have hset (e : ℕ) (he : e = c ∨ e ∈ foreachNeighbor c ∧ bd.b e = .none) (k : Color) :
        Reaches bd.stoneAt k e := by
      obtain ⟨d, hd, hseen⟩ := hall k
      have hreach := howned.reaches_of_neighbor h hc hd hseen
      rcases he with rfl | ⟨he, hfree⟩
      · exact hreach
      · exact hreach.step ⟨⟨h.onBoard_of_free hfree, hon, foreachNeighbor_symm hon he⟩,
          stoneAt_of_free hfree, stoneAt_of_free hc⟩
    constructor
    case stone =>
      intro e he
      rw [hmap, if_neg, howned.stone e he]
      rintro (rfl | ⟨-, hfree⟩)
      · exact he hc
      · exact he hfree
    case free =>
      intro e he
      rw [hmap]
      split
      · exact .inr (.inl rfl)
      · exact howned.free e he
    case reach =>
      intro e k he hseen
      rw [Owner, hmap] at hseen
      split at hseen
      case isTrue hin => exact hset e hin k
      case isFalse => exact howned.reach e k he hseen
    case backed =>
      intro e k he hk
      rw [hmap] at hk
      split at hk
      case isTrue => exact absurd (Option.some.inj hk).symm (stone_ne_foDame k)
      case isFalse =>
        obtain ⟨f, hf, hseen⟩ := howned.backed e k he hk
        refine ⟨f, hf, ?_⟩
        rw [Owner, hmap]
        split
        · exact .inr rfl
        · exact hseen
  · -- the points that are set take the color
    have hreach := howned.reaches_of_neighbor h hc hd (.inl hdk)
    have hkeep {e : ℕ} {x : Stone} (hx : ownermap e = some x) : map' e = some x := by
      rw [hmap, if_neg, hx]
      rintro (rfl | ⟨-, -, hnone⟩)
      · exact Option.some_ne_none x (hx.symm.trans hunset)
      · exact Option.some_ne_none x (hx.symm.trans hnone)
    have hself : map' c = some k.stone := (hmap c).trans (if_pos (.inl rfl))
    constructor
    case stone => exact fun e he => hkeep (howned.stone e he)
    case free =>
      intro e he
      rw [hmap]
      split
      · exact .inr (.inr ⟨k, rfl⟩)
      · exact howned.free e he
    case reach =>
      intro e k' he hseen
      rw [Owner, hmap] at hseen
      split at hseen
      case isTrue hin =>
        obtain rfl : k = k' := hseen.elim (fun h => Color.stone_injective (Option.some.inj h))
          fun h => absurd (Option.some.inj h) (stone_ne_foDame k)
        rcases hin with rfl | ⟨he, hfree, -⟩
        · exact hreach
        · exact hreach.step ⟨⟨h.onBoard_of_free hfree, hon, foreachNeighbor_symm hon he⟩,
            stoneAt_of_free hfree, stoneAt_of_free hc⟩
      case isFalse => exact howned.reach e k' he hseen
    case backed =>
      intro e k' he hk
      by_cases hin : e = c ∨ e ∈ foreachNeighbor c ∧ bd.b e = .none ∧ ownermap e = none
      · rw [hmap, if_pos hin] at hk
        obtain rfl : k = k' := Color.stone_injective (Option.some.inj hk)
        rcases hin with rfl | ⟨he, -, -⟩
        · exact ⟨d, hd, .inl (hkeep hdk)⟩
        · exact ⟨c, foreachNeighbor_symm hon he, .inl hself⟩
      · rw [hmap, if_neg hin] at hk
        obtain ⟨f, hf, hseen⟩ := howned.backed e k' he hk
        exact ⟨f, hf, hseen.imp hkeep hkeep⟩
end Visits

/-! ## The fill ends

The library of rounds applies: visits keep `Owned` and raise the rank. -/

namespace Sound

variable {ok : Prop} (h : Sound ok bd)
include h

/-- The list of free points holds the empty points. -/
theorem mem_free : c ∈ bd.free.f ↔ bd.b c = .none :=
  (h.ledger.free c).trans (and_iff_left (Set.notMem_empty c))

/-- **The flood fill ends** in sound marks, which one more round would leave
alone.  The bound on the rounds is the bound on the rank. -/
theorem owned_finalOwnermap : Owned bd bd.finalOwnermap ∧
    ∀ c ∈ bd.free.f, bd.trompTaylorPoint bd.finalOwnermap c = none := by
  have keep (s : Ownermap) (a : ℕ) (t : Ownermap) (ha : a ∈ bd.free.f) (hs : Owned bd s)
      (hv : bd.trompTaylorPoint s a = some t) : Owned bd t := hs.visit h (h.mem_free.mp ha) hv
  constructor
  · exact inv_settle keep (owned_initial) _
  · refine settled_settle keep (fun s a t ha _ hv => ?_) (fun s _ => ownerRank_le s)
      owned_initial ?_
    · exact ownerRank_lt_visit (h.onBoard_of_free (h.mem_free.mp ha)) hv
    · omega

/-! ## What the marks mean

In a settled map a neighbor cannot be seen from a color that the point is not
seen from.  So the marks are spread along every path of empty points. -/

section Settled

variable (howned : Owned bd ownermap)
  (hsettled : ∀ c ∈ bd.free.f, bd.trompTaylorPoint ownermap c = none)
include howned hsettled

omit howned in
/-- A visit that changes nothing: the point is dame, or its neighbors see at
most one color and no dame, and then it has been set. -/
theorem trompTaylorPoint_eq_none (hc : bd.b c = .none) (hdame : ownermap c ≠ some foDame) :
    ¬ (nei ownermap c .black = true ∧ nei ownermap c .white = true) ∧
      nei ownermap c foDame = false ∧
      (ownermap c = none → ∀ k : Color, nei ownermap c k.stone = false) := by
  have hnone := hsettled c (h.mem_free.mpr hc)
  rw [trompTaylorPoint, if_neg hdame] at hnone
  split at hnone
  case isTrue => exact absurd hnone (Option.some_ne_none _)
  case isFalse hboth =>
    split at hnone
    case isTrue => exact absurd hnone (Option.some_ne_none _)
    case isFalse hone =>
      rw [Bool.or_eq_true, Bool.and_eq_true, not_or, Bool.not_eq_true] at hboth
      refine ⟨hboth.1, hboth.2, fun hunset k => ?_⟩
      rw [Bool.and_eq_true, decide_eq_true_eq, Bool.or_eq_true] at hone
      rw [← Bool.not_eq_true]
      intro hk
      cases k with
      | black => exact hone ⟨hunset, .inl hk⟩
      | white => exact hone ⟨hunset, .inr hk⟩

/-- What a neighbor is seen from, the point is seen from. -/
theorem owner_of_neighbor (hc : bd.b c = .none) (hd : d ∈ foreachNeighbor c)
    (hseen : Owner ownermap d k) : Owner ownermap c k := by
  by_cases hdame : ownermap c = some foDame
  · exact .inr hdame
  obtain ⟨hboth, hnodame, hunset⟩ := h.trompTaylorPoint_eq_none hsettled hc hdame
  have hmark {e : ℕ} {x : Color} (he : e ∈ foreachNeighbor c) (hx : Owner ownermap e x) :
      nei ownermap c x.stone = true := by
    refine (nei_iff _).mpr ⟨e, he, hx.resolve_right fun hx => ?_⟩
    exact Bool.false_ne_true (hnodame.symm.trans ((nei_iff _).mpr ⟨e, he, hx⟩))
  obtain hnone | hx | ⟨k', hk'⟩ := howned.free c hc
  · exact absurd ((hunset hnone k).symm.trans (hmark hd hseen)) Bool.false_ne_true
  · exact absurd hx hdame
  · obtain ⟨e, he, hx⟩ := howned.backed c k' hc hk'
    have hd := hmark hd hseen
    have he := hmark he hx
    cases k <;> cases k'
    case black.black => exact .inl hk'
    case black.white => exact absurd ⟨hd, he⟩ hboth
    case white.black => exact absurd ⟨he, hd⟩ hboth
    case white.white => exact .inl hk'

/-- **The marks** of the empty points are the colors that they reach: sound
marks are reached, and a settled map has spread along every path. -/
theorem owner_iff_reaches (hc : bd.b c = .none) :
    Owner ownermap c k ↔ Reaches bd.stoneAt k c := by
  constructor
  · exact howned.reach c k hc
  · rintro ⟨d, hpath, e, hnear, he⟩
    have hb : bd.b e = k.stone := stoneAt_eq_some_iff.mp he
    have hseen : Owner ownermap e k :=
      .inl ((howned.stone e (hb ▸ k.stone_ne_none)).trans (congrArg some hb))
    -- along the path, from the point next to the stone
    induction hpath using Relation.ReflTransGen.head_induction_on with
    | refl => exact h.owner_of_neighbor howned hsettled hc hnear.2.2 hseen
    | head hopen _ ih =>
        have hfree := (h.ledger.stoneAt_eq_none_iff hopen.1.2.1).mp hopen.2.2
        exact h.owner_of_neighbor howned hsettled hc hopen.1.2.2 (ih hfree)

/-- A point that is not a stone has the mark of a color when it reaches this
color alone. -/
theorem eq_stone_iff (hc : bd.b c = .none) : ownermap c = some (Color.stone k) ↔
    Reaches bd.stoneAt k c ∧ ¬ Reaches bd.stoneAt k.other c := by
  rw [← h.owner_iff_reaches howned hsettled hc, ← h.owner_iff_reaches howned hsettled hc]
  unfold Owner
  constructor
  · intro hk
    rw [hk]
    refine ⟨.inl rfl, fun hother => hother.elim (fun hother => ?_) fun hx => ?_⟩
    · exact k.other_ne (Color.stone_injective (Option.some.inj hother)).symm
    · exact stone_ne_foDame k (Option.some.inj hx)
  · rintro ⟨hk | hx, hother⟩
    · exact hk
    · exact absurd (.inr hx) hother

/-- The points with the mark of a color are its area. -/
theorem setOf_mark : {c | ownermap c = some k.stone} = area bd.stoneAt k := by
  ext c
  show ownermap c = some k.stone ↔ bd.stoneAt c = some k ∨ _
  by_cases hc : bd.b c = .none
  · have hs : bd.stoneAt c = none := stoneAt_of_free hc
    rw [h.eq_stone_iff howned hsettled hc, or_iff_right (hs ▸ (Option.some_ne_none k).symm)]
    exact (and_iff_right ⟨h.onBoard_of_free hc, hs⟩).symm
  · rw [howned.stone c hc, Option.some_inj, stoneAt_eq_some_iff]
    refine (or_iff_left fun harea => hc ?_).symm
    exact (h.ledger.stoneAt_eq_none_iff harea.1.1).mp harea.1.2

end Settled

/-- **The scores** are the areas, also on the empty board, where the source
counts nothing. -/
theorem officialScores_eq (k : Color) : bd.officialScores k = (area bd.stoneAt k).ncard := by
  obtain ⟨howned, hsettled⟩ := h.owned_finalOwnermap
  show (if (List.range boardMaxCoords).countP (fun c => bd.b c = .black) = 0 ∧
    (List.range boardMaxCoords).countP (fun c => bd.b c = .white) = 0 then 0 else _) = _
  split
  case isTrue hempty =>
    have hs (x : Color) (hx : (List.range boardMaxCoords).countP (fun c => bd.b c = x.stone) = 0)
        (c : ℕ) : bd.stoneAt c ≠ some x := by
      intro hc
      have hlt := lt_of_onBoard (h.on_of_stone (hc ▸ Option.some_ne_none x))
      refine List.countP_eq_zero.mp hx c (List.mem_range.mpr hlt) ?_
      exact decide_eq_true (stoneAt_eq_some_iff.mp hc)
    have hk : ∀ c, bd.stoneAt c ≠ some k := by
      cases k with
      | black => exact hs .black hempty.1
      | white => exact hs .white hempty.2
    rw [area_eq_empty hk, Set.ncard_empty]
  case isFalse =>
    rw [← h.setOf_mark howned hsettled]
    have hset : {c | bd.finalOwnermap c = some k.stone} =
        ((List.range boardMaxCoords).filter fun c =>
          bd.finalOwnermap c = some k.stone).toFinset := by
      ext c
      simp only [Set.mem_ofPred_eq, List.coe_toFinset, List.mem_filter, List.mem_range,
        decide_eq_true_eq]
      refine (and_iff_right_of_imp fun hmark => ?_).symm
      have harea : c ∈ area bd.stoneAt k := h.setOf_mark howned hsettled ▸ hmark
      refine lt_of_onBoard (harea.elim (fun hc => ?_) fun hc => hc.1.1)
      exact h.on_of_stone (hc ▸ Option.some_ne_none k)
    rw [hset, Set.ncard_coe_finset, List.toFinset_card_of_nodup (List.nodup_range.filter _),
      List.countP_eq_length_filter]

/-! ## Every point is set -/

/-- **No point is left unset** where a stone is on the board: the board is
connected, so every empty point reaches some stone. -/
theorem finalOwnermap_ne_unset {u : ℕ} (hu : bd.stoneAt u ≠ none) (c : ℕ) :
    bd.finalOwnermap c ≠ none := by
  obtain ⟨howned, hsettled⟩ := h.owned_finalOwnermap
  intro hnone
  have hfree {c : ℕ} (hc : bd.finalOwnermap c = none) : bd.b c = .none := by
    by_contra hb
    exact Option.some_ne_none _ ((howned.stone c hb).symm.trans hc)
  have hstep {c d : ℕ} (hc : bd.finalOwnermap c = none) (hnear : near c d) :
      bd.finalOwnermap d = none := by
    have hdame : bd.finalOwnermap c ≠ some foDame :=
      fun hx => Option.some_ne_none _ (hx.symm.trans hc)
    obtain ⟨-, hnodame, hunset⟩ :=
      h.trompTaylorPoint_eq_none hsettled (hfree hc) hdame
    by_contra hset
    obtain ⟨x, hx⟩ := Option.ne_none_iff_exists'.mp hset
    have hseen : nei bd.finalOwnermap c x = true := (nei_iff x).mpr ⟨d, hnear.2.2, hx⟩
    cases x with
    | none => exact Bool.false_ne_true (hnodame.symm.trans hseen)
    | black => exact Bool.false_ne_true ((hunset hc .black).symm.trans hseen)
    | white => exact Bool.false_ne_true ((hunset hc .white).symm.trans hseen)
    | offboard =>
        have hb : bd.b d ≠ .none := fun hb => by
          obtain hd | hd | ⟨k, hk⟩ := howned.free d hb
          · exact hset hd
          · exact absurd (hx.symm.trans hd) (by decide)
          · exact k.stone_ne_offboard (Option.some.inj (hk.symm.trans hx))
        have hoff : bd.b d = .offboard := Option.some.inj ((howned.stone d hb).symm.trans hx)
        exact Bool.false_ne_true (((h.ledger.margin d).mp hoff).symm.trans hnear.2.1)
  have hpath {c d : ℕ} (hpath : Relation.ReflTransGen near c d) :
      bd.finalOwnermap c = none ↔ bd.finalOwnermap d = none := by
    induction hpath with
    | refl => exact Iff.rfl
    | tail _ hnear ih =>
        refine ih.trans ⟨fun hd => hstep hd hnear, fun he => hstep he (near_symm _ _ hnear)⟩
  have hcorner := (hpath (reaches_corner (h.onBoard_of_free (hfree hnone)))).mp hnone
  exact hu (stoneAt_of_free (hfree ((hpath (reaches_corner (h.on_of_stone hu))).mpr hcorner)))
end Sound

/-- **The score of a game**: the flood fill ends in a round that changes
nothing, the score of a color is its area in the position of the rules, and no
point is left unset unless the board is empty.  The writes to `nei[-1]` are
taken to change nothing. -/
theorem officialScores_of_run (r : Run) :
    (∀ c ∈ (calls r.ms).free.f,
        (calls r.ms).trompTaylorPoint (calls r.ms).finalOwnermap c = none) ∧
      (∀ k, (calls r.ms).officialScores k = (area (ruleSteps r.ms).stone k).ncard) ∧
      ((∃ u, (ruleSteps r.ms).stone u ≠ none) →
        ∀ c < boardMaxCoords, (calls r.ms).finalOwnermap c ≠ none) := by
  obtain ⟨sound, hrep⟩ := sound_calls r.ms
  rw [← hrep.stone]
  exact ⟨sound.owned_finalOwnermap.2, sound.officialScores_eq,
    fun ⟨u, hu⟩ c _ => sound.finalOwnermap_ne_unset hu c⟩

end Board

end EstarGo
