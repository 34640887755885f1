import EstarGo.Board.Ledger
import EstarGo.Board.Libs
import EstarGo.Lib.GoLabels
import Mathlib.Data.Set.Card

/-!
# The groups of the board

`g` labels each stone with the base of its group, `p` links the stones of a
group behind the base, and the list of each base is a sample of the liberties of
the group.  `Groups` is that invariant for a board on which a stone is being
played on `v`: the stone is already in the groups when `v` has a label, along
the edges of `adj`, and `taken` names the groups that have lost the liberty `v`.

## Main definitions

* `Board.liberties`, `Board.openLibs` — the liberties of a group, and those that
  are left of them while a stone is being played.
* `Groups` — the labels, the links and the lists describe the groups.
* `Removing` — what is left of it between two removals of a capture.

## Main results

* `Groups.rmlib`, `Groups.addToGroup`, `Groups.mergeGroups`, `Groups.newGroup`,
  `Groups.capture`: the steps of a move keep the invariant.

## Design notes

**One invariant for the whole move.**  Between two neighbors the structures
describe no position of the game: some groups have given up the point of the
stone and others not yet, and the stone may be in a group before it is on its
point.  The parameters of `Groups` say how far the move has come, and at its
beginning and its end they are the board itself.

**The board is read through labels.**  Whether a point belongs to a group is
what `g` says of it, so a capture is shown by what it does to labels, and the
graph comes in once, when labels are compared with the groups of the rules.
-/

namespace EstarGo

open Verif Verif.Go Stones

/-- Neighbors, both of them on the board.  The rules are those of the graph of
this relation on all coordinates. -/
def near (c d : ℕ) : Prop := onBoard c = true ∧ onBoard d = true ∧ d ∈ foreachNeighbor c

/-- A neighbor of a point has that point as its neighbor. -/
theorem near_symm (c d : ℕ) (h : near c d) : near d c :=
  ⟨h.2.1, h.1, foreachNeighbor_symm h.1 h.2.2⟩

theorem ne_zero_of_onBoard {c : ℕ} (h : onBoard c = true) : c ≠ 0 := by
  have := twentytwo_le_of_onBoard h
  omega

namespace Board

variable {bd : Board} {c d e u v r : ℕ} {k : Color}

/-- The color of the stone on a point; `none` for an empty point and for the
margin. -/
def stoneAt (bd : Board) (c : ℕ) : Option Color :=
  match bd.b c with
  | .black => some .black
  | .white => some .white
  | _ => none

/-- A color and its stone stand for each other. -/
theorem stoneAt_eq_some_iff : bd.stoneAt c = some k ↔ bd.b c = k.stone := by
  unfold stoneAt
  cases k <;> cases bd.b c <;> decide

theorem stoneAt_of_free (h : bd.b c = .none) : bd.stoneAt c = none := by
  rw [stoneAt, h]

/-- The color that the board reads off a stone is its color. -/
theorem colorAt_of_stone (h : bd.b c = k.stone) : bd.colorAt c = k := by
  unfold colorAt
  rw [h]
  cases k <;> rfl

/-- The empty neighbors of the stones of a group.  No group has the base 0,
which is the label of the points without a stone. -/
def liberties (bd : Board) (r : ℕ) : Set ℕ :=
  {e | r ≠ 0 ∧ bd.b e = .none ∧ ∃ u, bd.g u = r ∧ e ∈ foreachNeighbor u}

/-- The liberties that are left, when `v` is taken from some groups.  The point
is still empty, and stays a liberty of the groups that have not been asked
yet. -/
def openLibs (bd : Board) (v : ℕ) (taken : ℕ → Prop) (r : ℕ) : Set ℕ :=
  {e | e ∈ bd.liberties r ∧ (e = v → ¬ taken r)}

/-- The labels, the links and the lists of liberties describe the groups, and
the groups in atari are listed.  The last field is what the bound on their
number rests on: there are fewer stones than places in that list. -/
structure Groups (ok : Prop) (adj : ℕ → ℕ → Prop) (bd : Board) (s : ℕ → Option Color) (v : ℕ)
    (taken : ℕ → Prop) : Prop where
  labels : Labels adj 0 s bd.g
  on : ∀ u, bd.g u ≠ 0 → onBoard u = true
  chain : ∀ u, bd.g u ≠ 0 → ∃ l, Leads bd.p (bd.g u) l 0 ∧ l.Nodup ∧
    ∀ w, w ∈ l ↔ bd.g w = bd.g u
  libs : ∀ r, Sample groupKeepLibs groupRefillLibs (bd.gi.lib r) (bd.openLibs v taken r)
  atari : GroupInfos.Atari ok bd.gi
  few : ok → (occupied s).ncard < boardMaxGroups

/-- The refill adds the free neighbors of the group, less the liberty that has
just gone. -/
theorem refillLibs_eq (bd : Board) (r v : ℕ) :
    bd.refillLibs r v = fun l =>
      if l.length = groupRefillLibs then
        (((bd.foreachInGroup r).flatMap foreachNeighbor).filter
          fun c => bd.b c = .none ∧ c ≠ v).foldl (addEntry groupKeepLibs) l
      else l := by
  funext l
  unfold refillLibs
  split
  case isTrue hfive => exact findExtraLibs_eq bd v _ _ (by rw [hfive]; decide)
  case isFalse => rfl

namespace Groups

variable {ok : Prop} {adj : ℕ → ℕ → Prop} {s : ℕ → Option Color} {taken : ℕ → Prop}
  (h : Groups ok adj bd s v taken)
include h

/-! ## The stones of a group

What the code learns about a group by walking along its links. -/

/-- There are no more stones than coordinates, so the bound of a traversal is
enough. -/
theorem length_le {l : List ℕ} (nodup : l.Nodup) (on : ∀ u ∈ l, bd.g u ≠ 0) :
    l.length ≤ boardMaxCoords := by
  have sub : l ⊆ List.range boardMaxCoords := fun u hu =>
    List.mem_range.mpr (lt_of_onBoard (h.on u (on u hu)))
  have := (List.subperm_of_subset nodup sub).length_le
  rwa [List.length_range] at this

/-- The label 0 is not the base of a group. -/
theorem g_zero : bd.g 0 = 0 := by
  by_contra h0
  exact ne_zero_of_onBoard (h.on 0 h0) rfl

/-- `foreach_in_group` visits the stones of the group, each of them once, and
stops at its end. -/
theorem foreachInGroup (hu : bd.g u ≠ 0) :
    Leads bd.p (bd.g u) (bd.foreachInGroup (bd.g u)) 0 ∧ (bd.foreachInGroup (bd.g u)).Nodup ∧
      ∀ w, w ∈ bd.foreachInGroup (bd.g u) ↔ bd.g w = bd.g u := by
  obtain ⟨l, hl, nodup, mem⟩ := h.chain u hu
  have on (w : ℕ) (hw : w ∈ l) : bd.g w ≠ 0 := (mem w).mp hw ▸ hu
  have hwalk : bd.foreachInGroup (bd.g u) = l :=
    traverse_eq hl (fun h0 => on 0 h0 h.g_zero) (h.length_le nodup on)
  rw [hwalk]
  exact ⟨hl, nodup, mem⟩

/-- The base of a group is a stone of it, with itself as its label. -/
theorem base (hu : bd.g u ≠ 0) : bd.g (bd.g u) = bd.g u := by
  obtain ⟨l, hl, -, mem⟩ := h.chain u hu
  cases l with
  | nil => exact absurd ((mem u).mpr rfl) List.not_mem_nil
  | cons a l =>
      exact hl.1 ▸ (mem a).mp List.mem_cons_self

/-- Nothing is listed for a point that is no base: no stone has it as its label,
so there is nothing to be a liberty of. -/
theorem lib_eq_nil (hr : ∀ u, bd.g u = r → r = 0) : bd.gi.lib r = [] := by
  refine List.eq_nil_iff_forall_not_mem.mpr fun e he => ?_
  obtain ⟨⟨h0, -, u, hu, -⟩, -⟩ := (h.libs r).sub e he
  exact h0 (hr u hu)

/-- Only bases that are stones have liberties. -/
theorem within : bd.gi.Within fun q => s q ≠ none := by
  intro q hq
  by_contra hs
  refine hq (h.lib_eq_nil fun u hu => ?_)
  by_contra h0
  have hbase := h.base (u := u) (hu ▸ h0)
  rw [hu] at hbase
  exact h0 (hbase.symm.trans ((h.labels.stone q).mpr hs))

theorem finite_occupied : (occupied s).Finite := by
  refine (Set.finite_lt_nat boardMaxCoords).subset fun u hu => ?_
  exact lt_of_onBoard (h.on u fun h0 => hu ((h.labels.stone u).mp h0))

/-- The list of groups in atari is no longer than there are stones, and these
are few. -/
theorem room : GroupInfos.Room ok fun q => s q ≠ none := by
  intro gi atari within hok
  have sub : (gi.c.toFinset : Set ℕ) ⊆ occupied s := by
    intro q hq
    have hc : q ∈ gi.c := List.mem_toFinset.mp hq
    refine within q fun hnil => ?_
    have := (atari.mem q).mp hc
    rw [hnil] at this
    exact absurd this (by decide)
  have hle := Set.ncard_le_ncard sub h.finite_occupied
  rw [Set.ncard_coe_finset, List.toFinset_card_of_nodup atari.nodup] at hle
  exact hle.trans_lt (h.few hok)

/-- The invariant along other edges, where the labels are right for them.
Nothing but the labels depends on the edges. -/
theorem of_labels {adj' : ℕ → ℕ → Prop} (labels : Labels adj' 0 s bd.g) :
    Groups ok adj' bd s v taken :=
  ⟨labels, h.on, h.chain, h.libs, h.atari, h.few⟩

/-! ## A group loses the liberty of the move

The first thing that happens at a neighbor, whatever color it has. -/

/-- **`board_group_rmlib`** for a neighbor of the stone.  Afterwards its group
is among those that have lost the point. -/
theorem rmlib (hu : bd.g u ≠ 0) :
    Groups ok adj (bd.boardGroupRmlib (bd.g u) v) s v fun q => taken q ∨ q = bd.g u := by
  obtain ⟨-, -, mem⟩ := h.foreachInGroup hu
  refine ⟨h.labels, h.on, h.chain, fun q => ?_, ?_, h.few⟩
  · show Sample _ _ ((bd.gi.rmlib _ (bd.g u) v).lib q) {e | e ∈ bd.liberties q ∧ _}
    rw [GroupInfos.rmlib_lib]
    by_cases hq : q = bd.g u
    · subst hq
      rw [Function.update_self]
      have hcand (y : ℕ) : y ∈ ((bd.foreachInGroup (bd.g u)).flatMap foreachNeighbor).filter
          (fun c => bd.b c = .none ∧ c ≠ v) ↔ y ∈ bd.openLibs v taken (bd.g u) ∧ y ≠ v := by
        simp only [List.mem_filter, List.mem_flatMap, mem, decide_eq_true_eq]
        constructor
        · rintro ⟨⟨w, hw, hy⟩, hfree, hne⟩
          exact ⟨⟨⟨hu, hfree, w, hw, hy⟩, fun hyv => absurd hyv hne⟩, hne⟩
        · rintro ⟨⟨⟨-, hfree, w, hw, hy⟩, -⟩, hne⟩
          exact ⟨⟨w, hw, hy⟩, hfree, hne⟩
      have hdiscard := (h.libs (bd.g u)).discard (by decide) hcand
      have hset : bd.openLibs v taken (bd.g u) \ {v} =
          {e | e ∈ bd.liberties (bd.g u) ∧ (e = v → ¬ (taken (bd.g u) ∨ bd.g u = bd.g u))} := by
        ext e
        constructor
        · rintro ⟨⟨hlib, -⟩, hne⟩
          exact ⟨hlib, fun hev => absurd hev hne⟩
        · rintro ⟨hlib, hev⟩
          have hne : e ≠ v := fun h => hev h (.inr rfl)
          exact ⟨⟨hlib, fun h => absurd h hne⟩, hne⟩
      rw [hset] at hdiscard
      exact refillLibs_eq bd (bd.g u) v ▸ hdiscard
    · rw [Function.update_of_ne hq]
      refine (h.libs q).congr (Set.ext fun e => ?_)
      show _ ∧ (e = v → ¬ taken q) ↔ _ ∧ (e = v → ¬ (taken q ∨ q = bd.g u))
      rw [or_iff_left hq]
  · have short (l : List ℕ) (hl : l.length < 2) : bd.refillLibs (bd.g u) v l = l := by
      refine if_neg fun hfive => ?_
      rw [hfive] at hl
      exact absurd hl (by decide)
    have grow (l : List ℕ) (hl : 2 ≤ l.length) : 2 ≤ (bd.refillLibs (bd.g u) v l).length := by
      rw [refillLibs_eq]
      dsimp only
      split
      · exact hl.trans (length_le_foldl_addEntry _ _)
      · exact hl
    exact h.atari.rmlib hu (h.room bd.gi h.atari h.within) short grow v

end Groups

/-! ## A group is captured

The source removes the stones one at a time, and at each of them gives the point
to the groups around.  The invariant holds before and after all of them; in
between there is `Removing`. -/

/-- The liberties that `board_remove_stone` adds: the point of the stone, to the
groups of other labels around it. -/
theorem boardRemoveStone_gi (r : ℕ) (k : Color) (c : ℕ) :
    (bd.boardRemoveStone r k c).gi = bd.gi.addAll
      (((foreachNeighbor c).filter fun d =>
        Function.update bd.g c 0 d ≠ 0 ∧ Function.update bd.g c 0 d ≠ r).map
          fun d => (Function.update bd.g c 0 d, c)) := by
  unfold GroupInfos.addAll
  rw [List.foldl_map, List.foldl_filter]
  simp only [decide_eq_true_eq]
  rfl

theorem removeStones_cons (r c : ℕ) (l : List ℕ) :
    bd.removeStones r (c :: l) =
      ((bd.countCapture (bd.colorAt c).other).boardRemoveStone r (bd.colorAt c) c).removeStones
        r l := rfl

/-- The links of the removed stones stay as they were; nobody follows them any
more. -/
theorem removeStones_p (r : ℕ) (l : List ℕ) : (bd.removeStones r l).p = bd.p := by
  induction l generalizing bd with
  | nil => rfl
  | cons c l ih => rw [removeStones_cons, ih]; rfl

/-- The points are empty after the removal, and no other point is touched. -/
theorem removeStones_b (r : ℕ) (l : List ℕ) :
    (bd.removeStones r l).b = fun u => if u ∈ l then .none else bd.b u := by
  induction l generalizing bd with
  | nil => rfl
  | cons c l ih =>
      rw [removeStones_cons, ih]
      funext u
      show (if u ∈ l then Stone.none else Function.update bd.b c .none u) = _
      by_cases huc : u = c
      · subst huc
        rw [Function.update_self, ite_self, if_pos List.mem_cons_self]
      · rw [Function.update_of_ne huc]
        simp only [List.mem_cons, huc, false_or]

theorem removeStones_g (r : ℕ) (l : List ℕ) :
    (bd.removeStones r l).g = fun u => if u ∈ l then 0 else bd.g u := by
  induction l generalizing bd with
  | nil => rfl
  | cons c l ih =>
      rw [removeStones_cons, ih]
      funext u
      show (if u ∈ l then 0 else Function.update bd.g c 0 u) = _
      by_cases huc : u = c
      · subst huc
        rw [Function.update_self, ite_self, if_pos List.mem_cons_self]
      · rw [Function.update_of_ne huc]
        simp only [List.mem_cons, huc, false_or]

/-- The stones of a group are removed from what the board keeps count of, one
after the other. -/
theorem Ledger.removeStones {counted : ℕ → Stone → ℕ} {held : Set ℕ}
    (h : Ledger bd counted held) {l : List ℕ} (nodup : l.Nodup)
    (hcolor : ∀ c ∈ l, bd.b c = k.stone) (hheld : ∀ c ∈ l, c ∉ held) (r : ℕ) :
    Ledger (bd.removeStones r l) counted held := by
  induction l generalizing bd with
  | nil => exact h
  | cons c l ih =>
      obtain ⟨hcl, hl⟩ := List.nodup_cons.mp nodup
      obtain ⟨hc, hcolor⟩ := List.forall_mem_cons.mp hcolor
      obtain ⟨hheldc, hheld⟩ := List.forall_mem_cons.mp hheld
      rw [removeStones_cons, colorAt_of_stone hc]
      have counted : Ledger (bd.countCapture k.other) counted held :=
        ⟨h.margin, h.counts, h.indexed, h.free, h.hash⟩
      refine ih (counted.removeStone hc hheldc r) hl (fun d hd => ?_) hheld
      have hdc : d ≠ c := fun hdc => hcl (hdc ▸ hd)
      show Function.update bd.b c Stone.none d = _
      rw [Function.update_of_ne hdc, hcolor d hd]

/-- What holds between the removals of a capture: the liberties of the group
itself are not kept.  Its labels go one at a time, so it is no group of the
invariant in between. -/
structure Removing (ok : Prop) (Q : ℕ → Prop) (bd : Board) (v : ℕ) (taken : ℕ → Prop) (r : ℕ) :
    Prop where
  on : ∀ u, bd.g u ≠ 0 → onBoard u = true
  bases : ∀ u, bd.g u ≠ 0 → Q (bd.g u)
  libs : ∀ q, q ≠ r → Sample groupKeepLibs groupRefillLibs (bd.gi.lib q) (bd.openLibs v taken q)
  lib : bd.gi.lib r = []
  atari : GroupInfos.Atari ok bd.gi

namespace Removing

variable {ok : Prop} {Q taken : ℕ → Prop}

theorem within (h : Removing ok Q bd v taken r) : bd.gi.Within Q := by
  intro q hq
  have hqr : q ≠ r := fun hqr => hq (hqr ▸ h.lib)
  obtain ⟨e, he⟩ := List.exists_mem_of_ne_nil _ hq
  obtain ⟨⟨h0, -, u, hu, -⟩, -⟩ := (h.libs q hqr).sub e he
  exact hu ▸ h.bases u (hu ▸ h0)

/-- **A stone of the group is removed**, and its point is a liberty of the
groups around it. -/
theorem step (h : Removing ok Q bd v taken r) (room : GroupInfos.Room ok Q) (hr : r ≠ 0)
    (hc : bd.g c = r) (hv : c ≠ v ∨ ∀ q, ¬ taken q) (k : Color) :
    Removing ok Q (bd.boardRemoveStone r k c) v taken r := by
  have hboard : onBoard c = true := h.on c (hc ▸ hr)
  have hg (u : ℕ) (hu : Function.update bd.g c 0 u ≠ 0) :
      u ≠ c ∧ Function.update bd.g c 0 u = bd.g u := by
    have huc : u ≠ c := fun huc => hu (huc ▸ Function.update_self c 0 bd.g)
    exact ⟨huc, Function.update_of_ne huc 0 bd.g⟩
  have hadds : ∀ a ∈ ((foreachNeighbor c).filter fun d =>
      Function.update bd.g c 0 d ≠ 0 ∧ Function.update bd.g c 0 d ≠ r).map
        fun d => (Function.update bd.g c 0 d, c), a.1 ≠ 0 ∧ Q a.1 := by
    intro a ha
    obtain ⟨d, hd, rfl⟩ := List.mem_map.mp ha
    have hd := (of_decide_eq_true (List.mem_filter.mp hd).2).1
    exact ⟨hd, (hg d hd).2 ▸ h.bases d ((hg d hd).2 ▸ hd)⟩
  obtain ⟨hatari, -⟩ := h.atari.addAll room h.within hadds
  constructor
  case on =>
    intro u (hu : Function.update bd.g c 0 u ≠ 0)
    exact h.on u ((hg u hu).2 ▸ hu)
  case bases =>
    intro u (hu : Function.update bd.g c 0 u ≠ 0)
    obtain ⟨-, hgu⟩ := hg u hu
    show Q (Function.update bd.g c 0 u)
    rw [hgu]
    exact h.bases u (hgu ▸ hu)
  case libs =>
    intro q hq
    rw [boardRemoveStone_gi, GroupInfos.addAll_lib]
    refine ((h.libs q hq).addList (by decide) _).congr (Set.ext fun e => ?_)
    show _ ∨ e ∈ List.map _ _ ↔ (q ≠ 0 ∧ Function.update bd.b c Stone.none e = .none ∧
      ∃ u, Function.update bd.g c 0 u = q ∧ e ∈ foreachNeighbor u) ∧ (e = v → ¬ taken q)
    simp only [List.mem_map, List.mem_filter, decide_eq_true_eq]
    constructor
    · rintro (⟨⟨h0, hfree, u, hu, he⟩, hev⟩ | ⟨a, ⟨⟨d, ⟨hd, hd0, -⟩, rfl⟩, rfl⟩, rfl⟩)
      · have huc : u ≠ c := fun huc => hq (hu.symm.trans (huc ▸ hc))
        have hec : Function.update bd.b c Stone.none e = .none := by
          by_cases hec : e = c
          · rw [hec, Function.update_self]
          · rw [Function.update_of_ne hec, hfree]
        exact ⟨⟨h0, hec, u, (Function.update_of_ne huc 0 bd.g).trans hu, he⟩, hev⟩
      · refine ⟨⟨hd0, Function.update_self c _ bd.b, d, rfl, foreachNeighbor_symm hboard hd⟩, ?_⟩
        intro hcv
        exact hv.elim (fun hne => absurd hcv hne) fun hnot => hnot _
    · rintro ⟨⟨h0, hfree, u, hu, he⟩, hev⟩
      obtain ⟨huc, hgu⟩ := hg u (hu ▸ h0)
      by_cases hec : e = c
      · subst hec
        have hud := foreachNeighbor_symm (h.on u (hgu ▸ hu ▸ h0)) he
        exact .inr ⟨(_, e), ⟨⟨u, ⟨hud, hu ▸ h0, hu ▸ hq⟩, rfl⟩, hu⟩, rfl⟩
      · rw [Function.update_of_ne hec] at hfree
        exact .inl ⟨⟨h0, hfree, u, hgu.symm.trans hu, he⟩, hev⟩
  case lib =>
    rw [boardRemoveStone_gi, GroupInfos.addAll_lib, h.lib]
    suffices hnil : (((foreachNeighbor c).filter fun d =>
        Function.update bd.g c 0 d ≠ 0 ∧ Function.update bd.g c 0 d ≠ r).map
          fun d => (Function.update bd.g c 0 d, c)).filter (fun a => a.1 = r) = [] by
      rw [hnil]
      rfl
    refine List.filter_eq_nil_iff.mpr fun a ha har => ?_
    obtain ⟨d, hd, rfl⟩ := List.mem_map.mp ha
    exact (of_decide_eq_true (List.mem_filter.mp hd).2).2 (of_decide_eq_true har)
  case atari =>
    rw [boardRemoveStone_gi]
    exact hatari

/-- All stones of the group are removed, in any order. -/
theorem removeStones (h : Removing ok Q bd v taken r) (room : GroupInfos.Room ok Q) (hr : r ≠ 0)
    {l : List ℕ} (nodup : l.Nodup) (hg : ∀ c ∈ l, bd.g c = r)
    (hv : ∀ c ∈ l, c ≠ v ∨ ∀ q, ¬ taken q) : Removing ok Q (bd.removeStones r l) v taken r := by
  induction l generalizing bd with
  | nil => exact h
  | cons c l ih =>
      obtain ⟨hcl, hl⟩ := List.nodup_cons.mp nodup
      obtain ⟨hgc, hg⟩ := List.forall_mem_cons.mp hg
      obtain ⟨hvc, hv⟩ := List.forall_mem_cons.mp hv
      have counted : Removing ok Q (bd.countCapture (bd.colorAt c).other) v taken r :=
        ⟨h.on, h.bases, h.libs, h.lib, h.atari⟩
      refine ih (counted.step room hr hgc hvc (bd.colorAt c)) hl (fun d hd => ?_) hv
      have hdc : d ≠ c := fun hdc => hcl (hdc ▸ hd)
      show Function.update bd.g c 0 d = r
      rw [Function.update_of_ne hdc, hg d hd]

end Removing

section Capture

variable {ok : Prop} {adj : ℕ → ℕ → Prop} {s : ℕ → Option Color} {taken : ℕ → Prop}
  (h : Groups ok adj bd s v taken)
include h

/-- After a capture the points of the group are empty, and all others are as
they were. -/
theorem Groups.boardGroupCapture_b (hu : bd.g u ≠ 0) :
    (bd.boardGroupCapture (bd.g u)).2.b = fun w => if bd.g w = bd.g u then .none else bd.b w := by
  obtain ⟨-, -, mem⟩ := h.foreachInGroup hu
  show (bd.removeStones (bd.g u) (bd.foreachInGroup (bd.g u))).b = _
  rw [removeStones_b]
  funext w
  simp only [mem]

/-- The labels of the group are gone, and all others are as they were. -/
theorem Groups.boardGroupCapture_g (hu : bd.g u ≠ 0) :
    (bd.boardGroupCapture (bd.g u)).2.g = fun w => if bd.g w = bd.g u then 0 else bd.g w := by
  obtain ⟨-, -, mem⟩ := h.foreachInGroup hu
  show (bd.removeStones (bd.g u) (bd.foreachInGroup (bd.g u))).g = _
  rw [removeStones_g]
  funext w
  simp only [mem]

/-- **`board_group_capture`** of a group without liberties.  The stones and the
labels of the group go, and the groups around it gain its points. -/
theorem Groups.capture (hu : bd.g u ≠ 0) (hlib : bd.gi.lib (bd.g u) = [])
    (hv : bd.g v ≠ bd.g u ∨ ∀ q, ¬ taken q) :
    Groups ok adj (bd.boardGroupCapture (bd.g u)).2 (Go.remove {w | bd.g w = bd.g u} s) v
      taken := by
  obtain ⟨-, nodup, mem⟩ := h.foreachInGroup hu
  have start : Removing ok (fun q => s q ≠ none) bd v taken (bd.g u) := by
    refine ⟨h.on, fun w hw hs => ?_, fun q _ => h.libs q, hlib, h.atari⟩
    exact hw ((h.base hw).symm.trans ((h.labels.stone _).mpr hs))
  have removed := start.removeStones h.room hu nodup (fun c hc => (mem c).mp hc) fun c hc => by
    refine hv.imp (fun hne hcv => ?_) id
    exact hne (hcv ▸ (mem c).mp hc)
  set bd' := bd.removeStones (bd.g u) (bd.foreachInGroup (bd.g u)) with hbd'
  have hg : (bd.boardGroupCapture (bd.g u)).2.g =
      fun w => if bd.g w = bd.g u then 0 else bd.g w := h.boardGroupCapture_g hu
  have hlibs : (bd.boardGroupCapture (bd.g u)).2.gi.lib = bd'.gi.lib := by
    show Function.update bd'.gi.lib (bd.g u) [] = _
    rw [← removed.lib, Function.update_eq_self]
  constructor
  case labels =>
    rw [hg]
    convert h.labels.remove (bd.g u)
  case on =>
    intro w hw
    rw [hg] at hw
    dsimp only at hw
    split at hw
    · exact absurd rfl hw
    · exact h.on w hw
  case chain =>
    intro w hw
    rw [hg] at hw ⊢
    dsimp only at hw ⊢
    split at hw
    case isTrue => exact absurd rfl hw
    case isFalse hne =>
      obtain ⟨l, hl, hnodup, hmem⟩ := h.chain w hw
      rw [if_neg hne]
      refine ⟨l, ?_, hnodup, fun x => (hmem x).trans ?_⟩
      · show Leads bd'.p _ _ _
        rw [hbd', removeStones_p]
        exact hl
      · split
        case isTrue hx => exact iff_of_false (fun hxw => hne (hxw.symm.trans hx)) (Ne.symm hw)
        case isFalse => exact Iff.rfl
  case libs =>
    intro q
    rw [hlibs]
    by_cases hq : q = bd.g u
    · subst hq
      rw [removed.lib]
      refine (Sample.empty _ _).congr (Set.eq_empty_of_forall_notMem fun e he => ?_).symm
      obtain ⟨⟨h0, -, w, hw, -⟩, -⟩ := he
      rw [hg] at hw
      dsimp only at hw
      split at hw
      · exact h0 hw.symm
      · exact absurd hw ‹_›
    · exact removed.libs q hq
  case atari =>
    have hatari := removed.atari
    refine ⟨hatari.nodup, fun q => ?_, fun hok => ?_, fun ha => ?_⟩
    · rw [hlibs]
      exact hatari.mem q
    · show (bd'.gi.asserted && (bd'.gi.lib (bd.g u)).isEmpty) = true
      rw [hatari.asserted hok, removed.lib]
      rfl
    · exact hatari.bounded (Bool.and_eq_true_iff.mp ha).1
  case few =>
    intro hok
    refine (Set.ncard_le_ncard (fun w hw => ?_) h.finite_occupied).trans_lt (h.few hok)
    intro hs
    refine hw ?_
    by_cases hin : w ∈ {w | bd.g w = bd.g u}
    · exact remove_of_mem hin
    · rw [remove_of_not_mem hin, hs]

end Capture

end Board

end EstarGo
