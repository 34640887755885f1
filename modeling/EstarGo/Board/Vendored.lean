import EstarGo.Board.Game
import EstarGo.Board.TrompTaylor
import Mathlib.Data.List.Fold
import Mathlib.Data.Rat.Floor

/-!
# The vendored board of the wrapper

`GoBoard` runs on `struct board`.  The list of stones computes its groups, its
hash and its scores anew where the structure keeps them up to date, and nothing
that the wrapper reads tells the two apart.

## Main definitions

* `Simulates`, `Same` — two vendored boards that answer alike, and the wrappers
  of such boards.
* `Board.pachi` — `struct board` as `GoBoard` uses it.
* `Agree`, `Tracks` — a structure and a list of stones that describe one
  position.

## Main results

* `Board.pachi_followsRules`: the structure follows the rules of Go on the 19x19
  grid.
* `applyMove_agree`: `apply_move` does the same on both.

## Design notes

**The rules are the go-between.**  The two boards are not compared with each
other.  Each is shown to follow the rules, so two that stand for one position
accept the same moves and go on to one position.

**Only coordinates of the arrays** are compared.  Past them the list of stones
knows which coordinates are accepted, but not what a move there overwrites.

**Assertions.**  The list of stones does not know the groups in atari that the
structure has listed.  It counts stones, and so says on the safe side when an
assertion may have failed; as long as it says nothing, the structure has come
through.
-/

namespace EstarGo

open Verif Verif.Go Stones

/-! ## Two boards that cannot be told apart

The wrapper reads a vendored board through six operations.  Where these answer
alike on related boards, the wrappers stay related. -/

/-- Two vendored boards do the same on related states, as far as the coordinates
are those of the arrays; and the assertions of the first hold where the second
says that none can have failed. -/
structure Simulates {A B : Type} (P : Pachi A) (Q : Pachi B) (R : A → B → Prop) : Prop where
  clear : R P.clear Q.clear
  isValidMove : ∀ {a b}, R a b → ∀ k xy, coordXy xy < boardMaxCoords →
    P.isValidMove a k xy = Q.isValidMove b k xy
  play : ∀ {a b}, R a b → ∀ k xy, coordXy xy < boardMaxCoords → P.isValidMove a k xy = true →
    R (P.play a k xy) (Q.play b k xy)
  hash : ∀ {a b}, R a b → P.hash a = Q.hash b
  scores : ∀ {a b}, R a b → ∀ k, P.scores a k = Q.scores b k
  asserted : ∀ {a b}, R a b → Q.asserted b = true → P.asserted a = true

namespace GoBoard

/-- The wrappers of related boards: what the wrapper itself keeps is equal.  The
relation of the boards inside is a parameter. -/
structure Same {A B : Type} (R : A → B → Prop) (g : GoBoard A) (g' : GoBoard B) : Prop where
  b : R g.b g'.b
  history : g.history = g'.history
  hash8 : g.hash8 = g'.hash8
  boardRepetition : g.boardRepetition = g'.boardRepetition

/-- The results of some calls of `apply_move`, and the board after them.
Refused calls are part of the sequence. -/
def play {B : Type} (P : Pachi B) (actions : List ℤ) : List Bool × GoBoard B :=
  actions.foldl (fun s action =>
    let r := applyMove P s.2 action
    (s.1 ++ [r.1], r.2)) ([], new P)

variable {A B : Type} {P : Pachi A} {Q : Pachi B} {R : A → B → Prop} {g : GoBoard A}
  {g' : GoBoard B}

theorem Same.getColor (h : Same R g g') : g.getColor = g'.getColor := by
  unfold GoBoard.getColor
  rw [h.history]

theorem Same.storeHash (h : Same R g g') (curHash : UInt64) :
    Same R (g.storeHash curHash) (g'.storeHash curHash) := by
  unfold GoBoard.storeHash
  rw [h.hash8]
  split
  · exact ⟨h.b, h.history, rfl, h.boardRepetition⟩
  · exact ⟨h.b, h.history, rfl, h.boardRepetition⟩

theorem Same.addMoveToHistory (h : Same R g g') (pos : ℤ) :
    Same R (g.addMoveToHistory pos) (g'.addMoveToHistory pos) :=
  ⟨h.b, congrArg (· ++ token pos) h.history, h.hash8, h.boardRepetition⟩

/-- An action below 380 has a coordinate of the arrays. -/
theorem coordXy_lt {action : ℕ} (inside : action < 380) :
    coordXy (action % 19 + 1, action / 19 + 1) < boardMaxCoords := by
  unfold coordXy boardMaxCoords
  omega

/-- **A stone** is placed on both, or refused by both; a refused one too leaves
its hash. -/
theorem Same._applyMove (sim : Simulates P Q R) (h : Same R g g') {action : ℕ}
    (inside : action < 380) (k : Color) :
    (_applyMove P g action k).1 = (_applyMove Q g' action k).1 ∧
      Same R (_applyMove P g action k).2 (_applyMove Q g' action k).2 := by
  let xy := (action % 19 + 1, action / 19 + 1)
  let played : GoBoard A :=
    if P.isValidMove g.b k xy then { g with b := P.play g.b k xy } else g
  let played' : GoBoard B :=
    if Q.isValidMove g'.b k xy then { g' with b := Q.play g'.b k xy } else g'
  have valid : P.isValidMove g.b k xy = Q.isValidMove g'.b k xy :=
    sim.isValidMove h.b k xy (coordXy_lt inside)
  have same : Same R played played' := by
    show Same R (if P.isValidMove g.b k xy then { g with b := P.play g.b k xy } else g)
      (if Q.isValidMove g'.b k xy then { g' with b := Q.play g'.b k xy } else g')
    rw [← valid]
    split
    case isTrue hvalid =>
      exact ⟨sim.play h.b k xy (coordXy_lt inside) hvalid, h.history, h.hash8,
        h.boardRepetition⟩
    case isFalse => exact h
  have found : played.checkRepetition (P.hash played.b) =
      played'.checkRepetition (Q.hash played'.b) := by
    unfold checkRepetition
    rw [same.hash8, sim.hash same.b]
  refine ⟨valid, ?_⟩
  show Same R (if played.checkRepetition (P.hash played.b) then
      { played with boardRepetition := true } else played.storeHash (P.hash played.b))
    (if played'.checkRepetition (Q.hash played'.b) then
      { played' with boardRepetition := true } else played'.storeHash (Q.hash played'.b))
  rw [found, sim.hash same.b]
  split
  · exact ⟨same.b, same.history, same.hash8, rfl⟩
  · exact same.storeHash _

/-- **One move** is applied to both, or refused by both.  The hash decides on
repetition, so the relation has to keep it. -/
theorem Same.applyMove (sim : Simulates P Q R) (h : Same R g g') {action : ℤ}
    (inside : action < 380) :
    (applyMove P g action).1 = (applyMove Q g' action).1 ∧
      Same R (applyMove P g action).2 (applyMove Q g' action).2 := by
  unfold GoBoard.applyMove
  split
  case isTrue =>
    have small : action.toNat < 380 := by omega
    obtain ⟨hret, hsame⟩ := h._applyMove sim small g.getColor
    rw [h.getColor] at hret hsame ⊢
    refine ⟨hret, ?_⟩
    dsimp only
    rw [hret]
    split
    · exact hsame.addMoveToHistory action
    · exact hsame
  case isFalse => exact ⟨rfl, h.addMoveToHistory action⟩

/-- **A run** of moves, by induction from its end. -/
theorem same_play (sim : Simulates P Q R) {actions : List ℤ}
    (inside : ∀ action ∈ actions, action < 380) :
    (play P actions).1 = (play Q actions).1 ∧ Same R (play P actions).2 (play Q actions).2 := by
  unfold play
  induction actions using List.reverseRecOn with
  | nil => exact ⟨rfl, sim.clear, rfl, rfl, rfl⟩
  | append_singleton actions action ih =>
      obtain ⟨before, last⟩ := List.forall_mem_append.mp inside
      rw [List.foldl_append, List.foldl_append]
      have ih := ih before
      obtain ⟨hret, hsame⟩ := ih.2.applyMove sim (last action (List.mem_singleton_self action))
      exact ⟨congrArg₂ (fun l r => l ++ [r]) ih.1 hret, hsame⟩

end GoBoard

/-! ## The structure follows the rules

The structure is known to follow the rules on its coordinates; the grid is
embedded there. -/

namespace Board

/-- `struct board` as `GoBoard` uses it: an instance of the parameter, on which
all that is proved of the wrapper holds. -/
def pachi : Pachi Board where
  clear := boardClear
  isValidMove bd k xy := bd.boardIsValidPlay k (coordXy xy)
  play bd k xy := (bd.boardPlay (coordXy xy) k).2
  hash bd := bd.hashes.hash
  scores := officialScores
  asserted bd := bd.gi.asserted

/-- The indices of the points have no neighbors but indices of points: the
margin belongs to nobody's neighbors on the grid. -/
theorem embeds_index : Embeds adjacent near index := by
  refine ⟨index_injective, fun v w => ?_⟩
  constructor
  · rintro ⟨-, hw, hmem⟩
    obtain ⟨u, rfl⟩ := exists_index hw
    exact ⟨u, rfl, index_mem_neighbors.mp (List.mem_filter.mpr ⟨hmem, hw⟩)⟩
  · rintro ⟨u, rfl, hadj⟩
    exact ⟨onBoard_index v, onBoard_index u, (List.mem_filter.mp (index_mem_neighbors.mpr hadj)).1⟩

/-- The structure describes a position on the grid.  It does so by a position on
its coordinates, where the margin is empty. -/
structure Holds (bd : Board) (p : Position Point Color) : Prop where
  sound : Sound False bd
  inside : ∃ q, bd.Represents q ∧ Position.Inside index p q

/-- **The structure follows the rules of Go.** -/
theorem pachi_followsRules : FollowsRules Board.pachi (fun bd v => bd.stoneAt (index v)) Holds where
  clear := ⟨sound_boardClear False, Position.empty, represents_boardClear,
    fun _ => rfl, fun _ _ => Iff.rfl⟩
  stone := by
    rintro bd p ⟨-, q, hrep, hin⟩ v
    exact (congrFun hrep.stone (index v)).trans (hin.stone v)
  isValidMove := by
    rintro bd p ⟨sound, q, hrep, hin⟩ k v
    exact (sound.valid_iff_legal hrep).trans (Position.legal_iff_of_inside embeds_index hin)
  play := by
    rintro bd p ⟨sound, q, hrep, hin⟩ k v hlegal
    have hq := (Position.legal_iff_of_inside embeds_index hin).mpr hlegal
    obtain ⟨-, hsound, hplay⟩ := sound.boardPlay hrep False.elim hq
    exact ⟨hsound, _, hplay, Position.inside_play embeds_index hin k v⟩

/-! ## The structure and the list of stones

What the wrapper reads besides the stones: the hash and the scores. -/

/-- They describe one position of the rules. -/
def Agree (bd : Board) (b : Stones) : Prop := ∃ p, bd.Holds p ∧ b.Represents p

section Agree

variable {bd : Board} {b : Stones} {c : ℕ} {k : Color} (h : bd.Agree b)
include h

/-- The list of stones is well placed. -/
theorem Agree.wellPlaced : b.WellPlaced := by
  obtain ⟨p, -, hrep⟩ := h
  exact hrep.wellPlaced

theorem Agree.sound : Sound False bd := by
  obtain ⟨p, ⟨sound, -⟩, -⟩ := h
  exact sound

theorem Agree.stoneAt (c : ℕ) : bd.stoneAt c = b.stoneAt c := by
  by_cases hc : onBoard c = true
  · obtain ⟨v, rfl⟩ := exists_index hc
    obtain ⟨p, hbd, hrep⟩ := h
    exact (pachi_followsRules.stone hbd v).trans (congrFun hrep.stone v).symm
  · have hbd : bd.stoneAt c = none := by
      by_contra hs
      exact hc (h.sound.on_of_stone hs)
    rw [hbd]
    by_contra hs
    obtain ⟨k, hk⟩ := Option.ne_none_iff_exists'.mp (Ne.symm hs)
    exact hc (onBoard_of_stoneAt h.wellPlaced hk)

/-- They have the same stones on the points, the list in the order of the moves
and the structure in that of the coordinates. -/
theorem Agree.perm : b.stones.Perm
    (points.filterMap fun c => (bd.stoneAt c).map fun k => (c, k)) := by
  have nodup : (points.filterMap fun c => (bd.stoneAt c).map fun k => (c, k)).Nodup := by
    refine nodup_points.filterMap fun a a' x hx hx' => ?_
    obtain ⟨k, -, rfl⟩ := Option.mem_map.mp hx
    obtain ⟨k', -, hk'⟩ := Option.mem_map.mp hx'
    exact (congrArg Prod.fst hk').symm
  refine (List.perm_ext_iff_of_nodup h.wellPlaced.nodup.of_map nodup).mpr fun x => ?_
  obtain ⟨c, k⟩ := x
  rw [← Stones.stoneAt_eq_some_iff h.wellPlaced, ← h.stoneAt, List.mem_filterMap]
  constructor
  · intro hc
    refine ⟨c, mem_points.mpr (h.sound.on_of_stone (hc ▸ Option.some_ne_none k)), ?_⟩
    rw [hc]
    rfl
  · rintro ⟨d, -, hd⟩
    obtain ⟨k', hk', heq⟩ := Option.map_eq_some_iff.mp hd
    obtain ⟨rfl, rfl⟩ := Prod.mk.inj heq
    exact hk'

/-- **The hash** that is kept up to date is the one computed anew, since an
exclusive or does not depend on the order. -/
theorem Agree.hash : bd.hashes.hash = b.hash := by
  have hmap : (points.filterMap fun c => (bd.stoneAt c).map (hashAt c)) =
      (points.filterMap fun c => (bd.stoneAt c).map fun k => (c, k)).map
        fun x => hashAt x.1 x.2 := by
    rw [List.map_filterMap]
    congr 1
    funext c
    cases bd.stoneAt c <;> rfl
  have hfold : b.hash = (b.stones.map fun x => hashAt x.1 x.2).foldl (· ^^^ ·) 0 :=
    List.foldl_map.symm
  rw [h.sound.ledger.hash, zobrist_eq, hmap, hfold, List.foldl_eq_foldr]
  have comm (x y z : UInt64) : y ^^^ (x ^^^ z) = x ^^^ (y ^^^ z) := by
    rw [← UInt64.xor_assoc, UInt64.xor_comm y, UInt64.xor_assoc]
  exact (h.perm.map fun x => hashAt x.1 x.2).symm.foldr_eq' (fun x _ y _ z => comm x y z) 0

end Agree

/-! ## The scores of the list of stones

It computes the area by two flood fills, one for each color. -/

section Reached

variable {b : Stones} {c d : ℕ} {k : Color}

/-- The empty points next to a color, where the fill begins. -/
theorem mem_start : c ∈ (points.filter fun c => (b.stoneAt c).isNone).filter (fun c =>
      (neighbors c).any fun d => b.stoneAt d = some k) ↔
    (onBoard c = true ∧ b.stoneAt c = none) ∧ ∃ e, near c e ∧ b.stoneAt e = some k := by
  rw [List.mem_filter, List.mem_filter, mem_points, Option.isNone_iff_eq_none, List.any_eq_true]
  refine and_congr_right fun hc => exists_congr fun e => ?_
  rw [decide_eq_true_eq, neighbors, List.mem_filter]
  exact and_congr_left fun _ => ⟨fun he => ⟨hc.1, he.2, he.1⟩, fun he => ⟨he.2.2, he.2.1⟩⟩

/-- The fill spreads where the paths of the rules go. -/
theorem spreads_of_opened (h : Opened b.stoneAt d c) :
    Spreads neighbors (points.filter fun c => (b.stoneAt c).isNone) c d := by
  obtain ⟨hnear, hd, -⟩ := h
  refine ⟨List.mem_filter.mpr ⟨mem_points.mpr hnear.1, ?_⟩, ?_⟩
  · exact Option.isNone_iff_eq_none.mpr hd
  · exact List.mem_filter.mpr ⟨hnear.2.2, hnear.2.1⟩

/-- The fill of `reached` finds the empty points that reach the color. -/
theorem mem_reached : c ∈ b.reached k ↔
    (onBoard c = true ∧ b.stoneAt c = none) ∧ Reaches b.stoneAt k c := by
  let free := points.filter fun c => (b.stoneAt c).isNone
  let start := free.filter fun c => (neighbors c).any fun d => b.stoneAt d = some k
  have free_iff (c : ℕ) : c ∈ free ↔ onBoard c = true ∧ b.stoneAt c = none := by
    rw [List.mem_filter, mem_points, Option.isNone_iff_eq_none]
  have hflood : c ∈ b.reached k ↔
      ∃ a ∈ start, Relation.ReflTransGen (Spreads neighbors free) a c := by
    by_cases hne : start = []
    · have hnil (n : ℕ) : (Stones.grow free)^[n] [] = [] := by
        refine Function.iterate_fixed ?_ n
        exact List.filter_eq_nil_iff.mpr fun a _ => by simp
      have hreached : b.reached k = [] := by
        show (Stones.grow free)^[free.length] start = []
        rw [hne, hnil]
      rw [hreached, hne]
      simp
    · exact mem_flood_iff (List.filter_subset_self _) hne
  rw [hflood]
  clear hflood
  constructor
  · rintro ⟨a, ha, path⟩
    obtain ⟨hfree, e, hnear, he⟩ := mem_start.mp ha
    induction path with
    | refl => exact ⟨hfree, a, .refl, e, hnear, he⟩
    | tail _ hspreads ih =>
        obtain ⟨hd, hmem⟩ := hspreads
        have hd := (free_iff _).mp hd
        obtain ⟨hmem, -⟩ := List.mem_filter.mp hmem
        exact ⟨hd, ih.2.step ⟨⟨hd.1, ih.1.1, hmem⟩, hd.2, ih.1.2⟩⟩
  · rintro ⟨hfree, d, path, hnext⟩
    induction path using Relation.ReflTransGen.head_induction_on with
    | refl => exact ⟨d, mem_start.mpr ⟨hfree, hnext⟩, .refl⟩
    | head hopen _ ih =>
        obtain ⟨a, ha, hpath⟩ := ih ⟨hopen.1.2.1, hopen.2.2⟩
        exact ⟨a, ha, hpath.tail (spreads_of_opened hopen)⟩

theorem nodup_reached : (b.reached k).Nodup := by
  let free := points.filter fun c => (b.stoneAt c).isNone
  have hfree : free.Nodup := nodup_points.filter _
  have round (n : ℕ) (start : List ℕ) (hstart : start.Nodup) :
      ((Stones.grow free)^[n] start).Nodup := by
    cases n with
    | zero => exact hstart
    | succ n =>
        rw [Function.iterate_succ_apply']
        exact hfree.filter _
  exact round free.length _ (hfree.filter _)

/-- **The scores** of the list of stones are the areas.  The list grows the
regions of empty points, and the areas are defined by paths. -/
theorem scores_eq (placed : b.WellPlaced) (k : Color) :
    b.scores k = (area b.stoneAt k).ncard := by
  have hstone {c : ℕ} (hc : b.stoneAt c = some k) : onBoard c = true :=
    onBoard_of_stoneAt placed hc
  unfold scores
  split
  case isTrue hempty =>
    have hs : ∀ c, b.stoneAt c ≠ some k := by
      intro c hc
      have hmem := (Stones.stoneAt_eq_some_iff placed).mp hc
      rw [List.isEmpty_iff.mp hempty] at hmem
      exact List.not_mem_nil hmem
    rw [area_eq_empty hs, Set.ncard_empty]
  case isFalse =>
    let own := (b.reached k).filter fun c => c ∉ b.reached k.other
    have hpoints : (b.pointsOf k).Nodup :=
      placed.nodup.sublist (List.Sublist.map _ List.filter_sublist)
    have hdisjoint : (b.pointsOf k).Disjoint own := by
      intro c hc hown
      have hs := (mem_pointsOf placed).mp hc
      have hnone := (mem_reached.mp (List.mem_filter.mp hown).1).1.2
      exact Option.some_ne_none k (hs.symm.trans hnone)
    have hset : area b.stoneAt k = ((b.pointsOf k ++ own).toFinset : Set ℕ) := by
      ext c
      rw [List.coe_toFinset]
      show b.stoneAt c = some k ∨ _ ↔ c ∈ b.pointsOf k ++ own
      rw [List.mem_append, mem_pointsOf placed, List.mem_filter, decide_eq_true_eq, mem_reached,
        mem_reached]
      refine or_congr Iff.rfl ?_
      constructor
      · rintro ⟨hfree, hk, hother⟩
        exact ⟨⟨hfree, hk⟩, fun h => hother h.2⟩
      · rintro ⟨⟨hfree, hk⟩, hother⟩
        exact ⟨hfree, hk, fun h => hother ⟨hfree, h⟩⟩
    rw [hset, Set.ncard_coe_finset, List.toFinset_card_of_nodup
      (hpoints.append (nodup_reached.filter _) hdisjoint), List.length_append]

end Reached

theorem Agree.scores {bd : Board} {b : Stones} (h : bd.Agree b) (k : Color) :
    bd.officialScores k = b.scores k := by
  rw [h.sound.officialScores_eq, scores_eq h.wellPlaced, funext h.stoneAt]

/-! ## The two boards -/

/-- Where the list of stones says that no assertion can have failed, none has.
A list of stones does not show the groups in atari, so its flag goes by the
number of stones. -/
def Tracks (bd : Board) (b : Stones) : Prop := bd.Agree b ∧ Sound (b.asserted = true) bd

/-- The flag of the list of stones after a move. -/
theorem asserted_play (b : Stones) (k : Color) (xy : ℕ × ℕ) :
    (b.play k xy).asserted = (b.asserted && decide (b.stones.length + 1 < boardMaxGroups)) := by
  unfold Stones.play
  dsimp only
  split
  · rfl
  · split <;> rfl

/-- They have as many stones, so the bound on them is the same. -/
theorem Agree.ncard_occupied {bd : Board} {b : Stones} (h : bd.Agree b) :
    (occupied bd.stoneAt).ncard = b.stones.length := by
  have hset : occupied bd.stoneAt = {c | c ∈ b.stones.map Prod.fst} := by
    ext c
    show bd.stoneAt c ≠ none ↔ c ∈ b.stones.map Prod.fst
    rw [h.stoneAt]
    constructor
    · intro hc
      obtain ⟨k, hk⟩ := Option.ne_none_iff_exists'.mp hc
      exact List.mem_map.mpr ⟨_, (Stones.stoneAt_eq_some_iff h.wellPlaced).mp hk, rfl⟩
    · exact fun hc hnone => not_mem_of_stoneAt hnone hc
  have hfinset : {c | c ∈ b.stones.map Prod.fst} = ((b.stones.map Prod.fst).toFinset : Set ℕ) := by
    ext c
    simp
  rw [hset, hfinset, Set.ncard_coe_finset, List.toFinset_card_of_nodup h.wellPlaced.nodup,
    List.length_map]

/-- **The structure and the list of stones** cannot be told apart by what the
wrapper asks. -/
theorem simulates : Simulates Board.pachi EstarGo.pachi Tracks where
  clear := ⟨⟨Position.empty, pachi_followsRules.clear, EstarGo.pachi_followsRules.clear⟩,
    sound_boardClear _⟩
  isValidMove := by
    rintro bd b ⟨h, -⟩ k xy inside
    show bd.boardIsValidPlay k (coordXy xy) = b.isValidMove k xy
    by_cases hc : onBoard (coordXy xy) = true
    · obtain ⟨v, hv⟩ := exists_index hc
      obtain ⟨p, hbd, hrep⟩ := h
      have hvalid : b.isValidMove k xy = b.isValidMove k (coord v) := by
        unfold Stones.isValidMove
        rw [← hv]
        rfl
      rw [hvalid, ← hv, Bool.eq_iff_iff]
      exact (pachi_followsRules.isValidMove hbd k v).trans
        (EstarGo.pachi_followsRules.isValidMove hrep k v).symm
    · have hout : b.isValidMove k xy = false :=
        Bool.eq_false_iff.mpr fun hvalid => hc (onBoard_of_isValidMove hvalid inside).1
      have hbd : bd.b (coordXy xy) ≠ .none := fun hb => hc (h.sound.onBoard_of_free hb)
      rw [hout]
      exact if_pos hbd
  play := by
    rintro bd b ⟨h, tracked⟩ k xy inside (hvalid : bd.boardIsValidPlay k (coordXy xy) = true)
    have hc : onBoard (coordXy xy) = true := by
      by_contra hc
      have hbd : bd.b (coordXy xy) ≠ .none := fun hb => hc (h.sound.onBoard_of_free hb)
      exact Bool.false_ne_true ((if_pos hbd).symm.trans hvalid)
    obtain ⟨v, hv⟩ := exists_index hc
    have hplay : b.play k xy = b.play k (coord v) := by
      unfold Stones.play
      rw [← hv]
      rfl
    have hplay' : Board.pachi.play bd k xy = Board.pachi.play bd k (coord v) := by
      show (bd.boardPlay (coordXy xy) k).2 = _
      rw [← hv]
      rfl
    have hcount := h.ncard_occupied
    obtain ⟨p, hbd, hrep⟩ := h
    have hlegal : p.legal adjacent Color.other k v :=
      (pachi_followsRules.isValidMove hbd k v).mp (by rw [← hvalid, ← hv]; rfl)
    show Tracks (Board.pachi.play bd k xy) (b.play k xy)
    rw [hplay, hplay']
    refine ⟨⟨_, pachi_followsRules.play hbd k v hlegal,
      EstarGo.pachi_followsRules.play hrep k v hlegal⟩, ?_⟩
    -- the flag stays up only while the stones are few
    rw [asserted_play, Bool.and_eq_true, decide_eq_true_iff]
    obtain ⟨q, hq, hin⟩ := hbd.inside
    have few : (b.asserted = true ∧ b.stones.length + 1 < boardMaxGroups) →
        (occupied bd.stoneAt).ncard + 1 < boardMaxGroups := fun h => hcount ▸ h.2
    exact ((tracked.mono And.left).boardPlay hq few
      ((Position.legal_iff_of_inside embeds_index hin).mpr hlegal)).2.1
  hash h := h.1.hash
  scores h := h.1.scores
  asserted h := h.2.groups.atari.asserted

/-- **The wrapper** does the same on the structure and on the list of stones:
any moves with coordinates of the arrays are applied or refused alike while the
assertions hold, and leave the same history, window of hashes, flag and score.
The assertions hold where the list says so. -/
theorem applyMove_agree {K : Type} [Field K] [LinearOrder K] {actions : List ℤ}
    (inside : ∀ action ∈ actions, action < 380) (komi : K) :
    ((GoBoard.play EstarGo.pachi actions).2.b.asserted = true →
        (GoBoard.play Board.pachi actions).2.b.gi.asserted = true) ∧
      ((GoBoard.play Board.pachi actions).2.b.gi.asserted = true →
        (GoBoard.play Board.pachi actions).1 = (GoBoard.play EstarGo.pachi actions).1 ∧
        (GoBoard.play Board.pachi actions).2.history =
          (GoBoard.play EstarGo.pachi actions).2.history ∧
        (GoBoard.play Board.pachi actions).2.hash8 =
          (GoBoard.play EstarGo.pachi actions).2.hash8 ∧
        (GoBoard.play Board.pachi actions).2.boardRepetition =
          (GoBoard.play EstarGo.pachi actions).2.boardRepetition ∧
        GoBoard.getScoreBlack Board.pachi komi (GoBoard.play Board.pachi actions).2 =
          GoBoard.getScoreBlack EstarGo.pachi komi (GoBoard.play EstarGo.pachi actions).2 ∧
        GoBoard.isPassSafe Board.pachi komi (GoBoard.play Board.pachi actions).2 =
          GoBoard.isPassSafe EstarGo.pachi komi (GoBoard.play EstarGo.pachi actions).2) := by
  obtain ⟨hret, same⟩ := GoBoard.same_play simulates inside
  have hscore : Board.pachi.officialScore komi (GoBoard.play Board.pachi actions).2.b =
      EstarGo.pachi.officialScore komi (GoBoard.play EstarGo.pachi actions).2.b := by
    unfold Pachi.officialScore
    rw [simulates.scores same.b, simulates.scores same.b]
  refine ⟨simulates.asserted same.b, fun _ => ⟨hret, same.history, same.hash8,
    same.boardRepetition, congrArg Neg.neg hscore, ?_⟩⟩
  unfold GoBoard.isPassSafe
  rw [hscore, same.getColor]

/-- A capture in the corner, whose retake is refused. -/
theorem applyMove_agree_corner :
    (GoBoard.play Board.pachi [0, 1, -1, 19, 0]).1 = [true, true, true, true, false] ∧
      (GoBoard.play Board.pachi [0, 1, -1, 19, 0]).2.b.gi.asserted = true ∧
      (GoBoard.play Board.pachi [0, 1, -1, 19, 0]).2.hash8 =
        (GoBoard.play EstarGo.pachi [0, 1, -1, 19, 0]).2.hash8 := by
  have inside : ∀ action ∈ [0, 1, -1, 19, (0 : ℤ)], action < 380 := by decide
  obtain ⟨few, agree⟩ := applyMove_agree inside (0 : ℚ)
  have asserted := few (by decide +kernel)
  obtain ⟨applied, -, window, -⟩ := agree asserted
  exact ⟨applied.trans (by decide +kernel), asserted, window⟩

end Board

end EstarGo
