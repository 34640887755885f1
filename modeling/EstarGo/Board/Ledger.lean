import EstarGo.Board.Struct
import EstarGo.Board.Rules

/-!
# What the board keeps count of

The margin, the neighbor counts, the list of the free points and the hash are
functions of the stones, which `board_play` and `board_remove_stone` bring up to
date.  `Ledger` says so, up to the stone that is being played: `counted` is what
the neighbor counts are ahead, and the points of `held` have left the list of
free points.

## Main results

* `Ledger.removeStone`, `Ledger.rmf`, `Ledger.incNeighborCount`: the steps of a
  move.
* `Ledger.placeStone`: the stone of the move is put on the board.

## Design notes

**Ahead of the stones.**  `board_play_outside` counts the stone at each neighbor
before it is on its point, and takes the point off the list of free points
before that.  So during a move the counts and the list are right for no
position; `counted` and `held` say by how much, and when the stone is put down
both are nothing.

**The counts of empty neighbors are not kept.**  The source has a field for them
and leaves it alone, so the invariant says nothing about it, nor about the
counts on the margin.
-/

namespace EstarGo

open Verif Stones

theorem Color.stone_ne_none (k : Color) : k.stone ≠ .none := by
  cases k <;> decide

theorem Color.stone_ne_offboard (k : Color) : k.stone ≠ .offboard := by
  cases k <;> decide

theorem Color.stone_injective : Function.Injective Color.stone := by
  intro a b h
  cases a <;> cases b <;> first | rfl | exact absurd h (by decide)

/-! ## Neighbors -/

section Neighbors

variable {c d : ℕ}

/-- The four neighbors, by their coordinates. -/
theorem mem_foreachNeighbor :
    d ∈ foreachNeighbor c ↔ d = c - 21 ∨ d = c - 1 ∨ d = c + 1 ∨ d = c + 21 := by
  simp [foreachNeighbor]

/-- A point is far enough from the start of the array for its neighbors to be
there. -/
theorem twentytwo_le_of_onBoard (h : onBoard c = true) : 22 ≤ c := by
  rw [onBoard_iff] at h
  omega

theorem nodup_foreachNeighbor (h : onBoard c = true) : (foreachNeighbor c).Nodup := by
  have := twentytwo_le_of_onBoard h
  simp [foreachNeighbor]
  omega

/-- A point is a neighbor of its neighbors, those on the margin included. -/
theorem foreachNeighbor_symm (hc : onBoard c = true) (h : d ∈ foreachNeighbor c) :
    c ∈ foreachNeighbor d := by
  have := twentytwo_le_of_onBoard hc
  rw [mem_foreachNeighbor] at h ⊢
  omega

theorem mem_foreachNeighbor_comm (hc : onBoard c = true) (hd : onBoard d = true) :
    c ∈ foreachNeighbor d ↔ d ∈ foreachNeighbor c :=
  ⟨foreachNeighbor_symm hd, foreachNeighbor_symm hc⟩

/-- A point is not its own neighbor. -/
theorem self_not_mem_foreachNeighbor (h : onBoard c = true) : c ∉ foreachNeighbor c := by
  have := twentytwo_le_of_onBoard h
  rw [mem_foreachNeighbor]
  omega

/-- The points of the board are listed, and nothing else. -/
theorem mem_points : c ∈ points ↔ onBoard c = true := by
  unfold points
  rw [List.mem_filter, and_iff_right_iff_imp]
  intro h
  rw [onBoard_iff] at h
  rw [List.mem_range]
  omega

theorem nodup_points : points.Nodup := List.nodup_range.filter _

end Neighbors

/-! ## Counting and hashing a map

A move changes the map of stones at one point.  The counts and the hash are sums
over points, and the two lemmas say what one point contributes. -/

section Update

variable {α : Type} [DecidableEq α] {b : ℕ → α} {c : ℕ} {l : List ℕ}

/-- One entry of a map changes what is counted, by its old value and its new
one.  Both sides are sums, so that naturals do not have to be subtracted. -/
theorem countP_update (nodup : l.Nodup) (y x : α) :
    (l.countP fun d => Function.update b c y d = x) + (if c ∈ l ∧ b c = x then 1 else 0) =
      (l.countP fun d => b d = x) + if c ∈ l ∧ y = x then 1 else 0 := by
  induction l with
  | nil => simp
  | cons a l ih =>
      obtain ⟨ha, hl⟩ := List.nodup_cons.mp nodup
      have ih := ih hl
      by_cases hac : a = c
      · subst hac
        rw [if_neg fun h => ha h.1, if_neg fun h => ha h.1] at ih
        simp only [List.countP_cons, Function.update_self, List.mem_cons, true_or, true_and,
          decide_eq_true_eq]
        omega
      · simp only [List.countP_cons, Function.update_of_ne hac, List.mem_cons, Ne.symm hac,
          false_or] at ih ⊢
        omega

/-- The exclusive or of the keys of a list of points, where the key depends on
what is on the point. -/
def xorKeys (key : ℕ → α → UInt64) (b : ℕ → α) (l : List ℕ) : UInt64 :=
  l.foldr (fun d h => key d (b d) ^^^ h) 0

omit [DecidableEq α] in
/-- **One entry of a map** changes the hash by its keys: the old one is taken
out, and the new one is put in. -/
theorem xorKeys_update (key : ℕ → α → UInt64) (nodup : l.Nodup) (mem : c ∈ l) (y : α) :
    xorKeys key (Function.update b c y) l = xorKeys key b l ^^^ key c (b c) ^^^ key c y := by
  have frame (l : List ℕ) (hout : c ∉ l) :
      xorKeys key (Function.update b c y) l = xorKeys key b l := by
    induction l with
    | nil => rfl
    | cons a l ih =>
        obtain ⟨hca, hcl⟩ := List.ne_and_not_mem_of_not_mem_cons hout
        show key a (Function.update b c y a) ^^^ xorKeys key _ l = _
        rw [Function.update_of_ne hca.symm, ih hcl]
        rfl
  induction l with
  | nil => exact absurd mem List.not_mem_nil
  | cons a l ih =>
      obtain ⟨ha, hl⟩ := List.nodup_cons.mp nodup
      show key a (Function.update b c y a) ^^^ xorKeys key _ l =
        key a (b a) ^^^ xorKeys key b l ^^^ key c (b c) ^^^ key c y
      by_cases hac : a = c
      · subst hac
        rw [frame l ha, Function.update_self, UInt64.xor_comm (key a (b a)),
          UInt64.xor_assoc _ (key a (b a)) (key a (b a)), UInt64.xor_self, UInt64.xor_zero,
          UInt64.xor_comm]
      · have mem : c ∈ l := (List.mem_cons.mp mem).resolve_left (Ne.symm hac)
        rw [Function.update_of_ne hac, ih hl mem]
        simp only [UInt64.xor_assoc]

end Update

/-- The key of a point: `hash_at`, where a stone is, and nothing elsewhere.  The
source updates the hash by the same keys, and never computes it anew. -/
def zobristKey (c : ℕ) : Stone → UInt64
  | .black => hashAt c .black
  | .white => hashAt c .white
  | _ => 0

/-- The hash of a map of stones, over all points of the board.  It does not
depend on how the stones came there. -/
def zobrist (b : ℕ → Stone) : UInt64 := xorKeys zobristKey b points

theorem zobristKey_stone (c : ℕ) (k : Color) : zobristKey c k.stone = hashAt c k := by
  cases k <;> rfl

namespace Board

variable {bd : Board} {k : Color} {c v : ℕ}

/-- The margin, the neighbor counts, the free points and the hash match the
stones, up to what a move has done ahead. -/
structure Ledger (bd : Board) (counted : ℕ → Stone → ℕ) (held : Set ℕ) : Prop where
  margin : ∀ c, bd.b c = .offboard ↔ onBoard c = false
  counts : ∀ c x, onBoard c = true → x ≠ .none →
    bd.n c x = ((foreachNeighbor c).countP fun d => bd.b d = x) + counted c x
  indexed : Indexed bd.free.f bd.free.fmap
  free : ∀ c, c ∈ bd.free.f ↔ bd.b c = .none ∧ c ∉ held
  hash : bd.hashes.hash = zobrist bd.b

/-! ## A stone leaves the board -/

/-- The counts of the neighbors of a stone that is removed, each lowered
once. -/
theorem foldl_dec {l : List ℕ} (nodup : l.Nodup) (n : ℕ → Stone → ℕ) (d : ℕ) (x : Stone) :
    l.foldl (fun n d => Function.update n d
        (Function.update (n d) k.stone (n d k.stone - 1))) n d x =
      if d ∈ l ∧ x = k.stone then n d x - 1 else n d x := by
  induction l generalizing n with
  | nil => simp
  | cons a l ih =>
      obtain ⟨ha, hl⟩ := List.nodup_cons.mp nodup
      rw [List.foldl_cons, ih hl]
      by_cases had : d = a
      · subst had
        rw [if_neg fun h => ha h.1, Function.update_self]
        by_cases hx : x = k.stone
        · rw [hx, Function.update_self, if_pos ⟨List.mem_cons_self, rfl⟩]
        · rw [Function.update_of_ne hx, if_neg fun h => hx h.2]
      · simp only [Function.update_of_ne had, List.mem_cons, had, false_or]

/-- So the removal lowers the counts of the neighbors by one for the color of
the stone. -/
theorem boardRemoveStone_n (group : ℕ) (hc : onBoard c = true) (d : ℕ) (x : Stone) :
    (bd.boardRemoveStone group k c).n d x =
      if d ∈ foreachNeighbor c ∧ x = k.stone then bd.n d x - 1 else bd.n d x :=
  foldl_dec (nodup_foreachNeighbor hc) bd.n d x

namespace Ledger

variable {counted : ℕ → Stone → ℕ} {held : Set ℕ}

/-- What is not the margin is on the board. -/
theorem onBoard (h : Ledger bd counted held) (hb : bd.b c ≠ .offboard) :
    onBoard c = true := by
  by_contra hout
  exact hb ((h.margin c).mpr (Bool.not_eq_true _ ▸ hout))

/-- **A stone is removed**, and all four are right again, for one stone less.
Its point goes to the end of the list of free ones. -/
theorem removeStone (h : Ledger bd counted held) (hc : bd.b c = k.stone) (hheld : c ∉ held)
    (group : ℕ) : Ledger (bd.boardRemoveStone group k c) counted held := by
  have hboard : Stones.onBoard c = true := h.onBoard (hc ▸ k.stone_ne_offboard)
  have hout : c ∉ bd.free.f := fun hf => k.stone_ne_none (hc.symm.trans ((h.free c).mp hf).1)
  constructor
  case margin =>
    intro d
    show Function.update bd.b c Stone.none d = .offboard ↔ _
    by_cases hdc : d = c
    · rw [hdc, Function.update_self, hboard]
      exact iff_of_false (by decide) (by decide)
    · rw [Function.update_of_ne hdc, h.margin]
  case counts =>
    intro d x hd hx
    have hcount := countP_update (b := bd.b) (c := c) (nodup_foreachNeighbor hd) .none x
    have hnone : ¬ (c ∈ foreachNeighbor d ∧ Stone.none = x) := fun h => hx h.2.symm
    rw [if_neg hnone, hc] at hcount
    simp only [mem_foreachNeighbor_comm hboard hd, eq_comm (b := x)] at hcount
    rw [boardRemoveStone_n group hboard, h.counts d x hd hx]
    show _ = ((foreachNeighbor d).countP fun e => Function.update bd.b c Stone.none e = x) + _
    simp only [eq_comm (b := x)]
    split at hcount
    case isTrue hin =>
      rw [if_pos hin]
      omega
    case isFalse hout =>
      rw [if_neg hout]
      omega
  case indexed => exact h.indexed.concat hout
  case free =>
    intro d
    show d ∈ bd.free.f ++ [c] ↔ Function.update bd.b c Stone.none d = .none ∧ d ∉ held
    rw [List.mem_append, List.mem_singleton, h.free]
    by_cases hdc : d = c
    · rw [hdc, Function.update_self]
      exact iff_of_true (.inr rfl) ⟨rfl, hheld⟩
    · rw [Function.update_of_ne hdc, or_iff_left hdc]
  case hash =>
    show bd.hashes.hash ^^^ hashAt c k = xorKeys zobristKey (Function.update bd.b c .none) points
    rw [h.hash, xorKeys_update zobristKey nodup_points (mem_points.mpr hboard), hc,
      zobristKey_stone]
    exact (UInt64.xor_zero).symm

/-! ## A stone is played

The steps come in the order of the source: off the list, counted at each
neighbor, on the board. -/

/-- The point of a move leaves the list of free points, at the place that `fmap`
has for it. -/
theorem rmf (h : Ledger bd counted ∅) (hv : bd.b v = .none) :
    Ledger (bd.rmf (bd.free.fmap v)) counted {v} := by
  have mem : v ∈ bd.free.f := (h.free v).mpr ⟨hv, Set.notMem_empty v⟩
  obtain ⟨last, hlast⟩ : ∃ last, bd.free.f.getLast? = some last :=
    ⟨_, List.getLast?_eq_some_getLast (List.ne_nil_of_mem mem)⟩
  have hfree : (bd.rmf (bd.free.fmap v)).free =
      ⟨discardEntry bd.free.f v, Function.update bd.free.fmap last (bd.free.fmap v)⟩ := by
    unfold Board.rmf discardEntry
    rw [hlast, h.indexed.place_eq mem]
  refine ⟨h.margin, h.counts, ?_, fun c => ?_, h.hash⟩
  · rw [hfree]
    exact h.indexed.discard mem hlast
  · rw [hfree, mem_discardEntry h.indexed.nodup mem, h.free]
    show c ≠ v ∧ bd.b c = .none ∧ c ∉ (∅ : Set ℕ) ↔ bd.b c = .none ∧ c ∉ ({v} : Set ℕ)
    simp only [Set.mem_empty_iff_false, not_false_eq_true, and_true, Set.mem_singleton_iff]
    exact and_comm

/-- A neighbor counts the stone before it is on the board, so a count may be
ahead while the loop goes around. -/
theorem incNeighborCount (h : Ledger bd counted held) (d : ℕ) (k : Color) :
    Ledger (bd.incNeighborCount d k)
      (fun c x => counted c x + if c = d ∧ x = k.stone then 1 else 0) held := by
  refine ⟨h.margin, fun c x hc hx => ?_, h.indexed, h.free, h.hash⟩
  show Function.update bd.n d (Function.update (bd.n d) k.stone (bd.n d k.stone + 1)) c x = _
  by_cases hcd : c = d
  · subst hcd
    rw [Function.update_self]
    by_cases hxk : x = k.stone
    · subst hxk
      rw [Function.update_self, if_pos ⟨rfl, rfl⟩, h.counts c _ hc hx]
      rfl
    · rw [Function.update_of_ne hxk, if_neg fun h => hxk h.2, h.counts c x hc hx]
      rfl
  · rw [Function.update_of_ne hcd, if_neg fun h => hcd h.1, h.counts c x hc hx]
    rfl

/-- **The stone of the move** is put on the board, when every neighbor has
counted it. -/
theorem placeStone (h : Ledger bd (fun c x => if c ∈ foreachNeighbor v ∧ x = k.stone
      then 1 else 0) {v}) (hv : bd.b v = .none) {bd' : Board}
    (hb : bd'.b = Function.update bd.b v k.stone) (hn : bd'.n = bd.n) (hfree : bd'.free = bd.free)
    (hhash : bd'.hashes.hash = bd.hashes.hash ^^^ hashAt v k) : Ledger bd' (fun _ _ => 0) ∅ := by
  have hboard : Stones.onBoard v = true := h.onBoard (hv ▸ by decide)
  constructor
  case margin =>
    intro d
    rw [hb]
    by_cases hdv : d = v
    · rw [hdv, Function.update_self, hboard]
      exact iff_of_false k.stone_ne_offboard (by decide)
    · rw [Function.update_of_ne hdv, h.margin]
  case counts =>
    intro d x hd hx
    have hcount := countP_update (b := bd.b) (c := v) (nodup_foreachNeighbor hd) k.stone x
    have hnone : ¬ (v ∈ foreachNeighbor d ∧ bd.b v = x) := fun h => hx (h.2.symm.trans hv)
    rw [if_neg hnone] at hcount
    simp only [mem_foreachNeighbor_comm hboard hd, eq_comm (a := k.stone)] at hcount
    rw [hn, hb, h.counts d x hd hx]
    exact hcount.symm
  case indexed =>
    rw [hfree]
    exact h.indexed
  case free =>
    intro d
    rw [hfree, hb, h.free]
    by_cases hdv : d = v
    · rw [hdv, Function.update_self]
      exact iff_of_false (fun h => h.2 rfl) fun h => k.stone_ne_none h.1
    · rw [Function.update_of_ne hdv]
      exact and_congr_right fun _ => iff_of_true hdv (Set.notMem_empty d)
  case hash =>
    rw [hhash, hb, h.hash]
    show _ = xorKeys zobristKey (Function.update bd.b v k.stone) points
    rw [xorKeys_update zobristKey nodup_points (mem_points.mpr hboard), hv, zobristKey_stone]
    show zobrist bd.b ^^^ _ = zobrist bd.b ^^^ 0 ^^^ _
    rw [UInt64.xor_zero]

end Ledger

end Board

end EstarGo
