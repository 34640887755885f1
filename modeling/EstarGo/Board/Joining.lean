import EstarGo.Board.Groups
import EstarGo.Lib.Chain

/-!
# A stone joins the groups around it

The stone that is played joins the group of its first neighbor of the color,
merges the groups of the others with it, and makes a group of its own where
there is none.

## Main results

* `Groups.addToGroup`, `Groups.mergeGroups`, `Groups.newGroup`: the groups with
  the stone.
* `Groups.putStone`: the point of the stone is no liberty any more.

## Design notes

**Three structures at once.**  Each of the operations changes the labels, the
links and the lists of liberties, and each part has its own library: what
happens to labels when a graph gains an edge, how a linked list is spliced, and
what becomes of samples.  The proofs below put the three together, and there is
little more to them.

**One edge at a time.**  The stone is connected to its neighbors in the order in
which the code goes along them.  After each of them `Groups` holds along the
edges so far, so that the next one finds an invariant and not a special case.

**The whole group is relabelled.**  `merge_groups` gives the base of the stone's
group to every stone of the other, and then puts that group's links behind the
base of the first; this is why a group that is merged loses its list of
liberties and gives it to the other.
-/

namespace EstarGo

open Verif Verif.Go Stones

namespace Board

variable {bd : Board} {d u v : ℕ} {k : Color} {ok : Prop} {adj : ℕ → ℕ → Prop}
  {s : ℕ → Option Color} {taken : ℕ → Prop}

/-! ## A neighbor's group

The first neighbor of the color that the loop comes to.  The stone has no label
before, and the label of the group after. -/

/-- The liberties that `add_to_group` adds: the empty neighbors of the stone,
for the group it joins. -/
theorem addToGroup_gi (r d v : ℕ) :
    (bd.addToGroup r d v).gi =
      bd.gi.addAll (((foreachNeighbor v).filter fun c => bd.b c = .none).map fun c => (r, c)) := by
  unfold GroupInfos.addAll
  rw [List.foldl_map, List.foldl_filter]
  simp only [decide_eq_true_eq]
  rfl

namespace Groups

variable (h : Groups ok adj bd s v taken)
include h

/-- A point without a stone has no label, and thus is in no group. -/
theorem g_of_free (free : s v = none) : bd.g v = 0 := (h.labels.stone v).mpr free

/-- **`add_to_group`**: the stone joins the group of a neighbor.  Its label is
that of the group, it is linked behind the neighbor, and its empty neighbors are
liberties of the group. -/
theorem addToGroup (symm : ∀ a b, adj a b → adj b a) (hv : onBoard v = true) (free : s v = none)
    (alone : ∀ a, adj v a → s a ≠ some k) (hd : s d = some k)
    (few : ok → (occupied (place s k v)).ncard < boardMaxGroups) :
    Groups ok (addEdge adj v d) (bd.addToGroup (bd.g d) d v) (place s k v) v taken := by
  have hgv := h.g_of_free free
  have hgd : bd.g d ≠ 0 := h.labels.ne_null hd
  have hg (w : ℕ) (hw : w ≠ v) : Function.update bd.g v (bd.g d) w = bd.g w :=
    Function.update_of_ne hw _ _
  have hself : Function.update bd.g v (bd.g d) v = bd.g d := Function.update_self _ _ _
  have hbase : s (bd.g d) ≠ none := fun hs =>
    hgd ((h.base hgd).symm.trans ((h.labels.stone _).mpr hs))
  have hother {q : ℕ} (h0 : q ≠ 0) (hq : q ≠ bd.g d) (w : ℕ) :
      Function.update bd.g v (bd.g d) w = q ↔ bd.g w = q := by
    by_cases hw : w = v
    · rw [hw, hself, hgv]
      exact iff_of_false hq.symm h0.symm
    · rw [hg w hw]
  constructor
  case labels => exact h.labels.join free alone symm hd
  case on =>
    intro w hw
    by_cases hwv : w = v
    · rw [hwv]
      exact hv
    · exact h.on w (hg w hwv ▸ hw)
  case chain =>
    intro w (hw : Function.update bd.g v (bd.g d) w ≠ 0)
    show ∃ l, Leads (Function.update (Function.update bd.p v (bd.p d)) d v)
      (Function.update bd.g v (bd.g d) w) l 0 ∧ l.Nodup ∧
        ∀ x, x ∈ l ↔ Function.update bd.g v (bd.g d) x = Function.update bd.g v (bd.g d) w
    generalize hr : Function.update bd.g v (bd.g d) w = r at hw
    by_cases hrd : r = bd.g d
    · -- the stone stands behind its neighbor
      subst hrd
      obtain ⟨l, hl, nodup, mem⟩ := h.chain d hgd
      have hout : v ∉ l := fun hv => hgd (((mem v).mp hv).symm.trans hgv)
      obtain ⟨l₁, l₂, rfl⟩ := List.append_of_mem ((mem d).mpr rfl)
      refine ⟨_, hl.insertAfter nodup hout, ?_, fun x => ?_⟩
      · have hperm : (l₁ ++ d :: v :: l₂).Perm (v :: (l₁ ++ d :: l₂)) := by
          rw [← List.singleton_append, ← List.append_assoc]
          exact List.perm_middle.trans (by simp)
        exact hperm.nodup_iff.mpr (List.nodup_cons.mpr ⟨hout, nodup⟩)
      · have hcons : x ∈ l₁ ++ d :: v :: l₂ ↔ x = v ∨ x ∈ l₁ ++ d :: l₂ := by
          simp only [List.mem_append, List.mem_cons]
          tauto
        rw [hcons, mem]
        by_cases hx : x = v
        · rw [hx, hself]
          exact iff_of_true (.inl rfl) rfl
        · rw [hg x hx, or_iff_right hx]
    · have hwv : w ≠ v := by
        rintro rfl
        exact hrd (hr.symm.trans hself)
      rw [hg w hwv] at hr
      obtain ⟨l, hl, nodup, mem⟩ := h.chain w (hr ▸ hw)
      rw [hr] at hl mem
      refine ⟨l, hl.congr fun x hx => ?_, nodup, fun x => (mem x).trans (hother hw hrd x).symm⟩
      have hx := (mem x).mp hx
      rw [Function.update_of_ne, Function.update_of_ne]
      · rintro rfl
        exact hw (hx.symm.trans hgv)
      · rintro rfl
        exact hrd hx.symm
  case libs =>
    intro q
    rw [addToGroup_gi, GroupInfos.addAll_lib]
    refine ((h.libs q).addList (by decide) _).congr (Set.ext fun e => ?_)
    show _ ∨ e ∈ List.map _ _ ↔ (q ≠ 0 ∧ bd.b e = .none ∧
      ∃ u, Function.update bd.g v (bd.g d) u = q ∧ e ∈ foreachNeighbor u) ∧ (e = v → ¬ taken q)
    simp only [List.mem_map, List.mem_filter, decide_eq_true_eq]
    constructor
    · rintro (⟨⟨h0, hfree, u, hu, he⟩, hev⟩ | ⟨a, ⟨⟨c, ⟨hc, hfree⟩, rfl⟩, rfl⟩, rfl⟩)
      · have huv : u ≠ v := fun huv => h0 (hu.symm.trans (huv ▸ hgv))
        exact ⟨⟨h0, hfree, u, (hg u huv).trans hu, he⟩, hev⟩
      · refine ⟨⟨hgd, hfree, v, hself, hc⟩, fun hcv => ?_⟩
        exact absurd (hcv ▸ hc) (self_not_mem_foreachNeighbor hv)
    · rintro ⟨⟨h0, hfree, u, hu, he⟩, hev⟩
      by_cases huv : u = v
      · subst huv
        exact .inr ⟨(bd.g d, e), ⟨⟨e, ⟨he, hfree⟩, rfl⟩, hself.symm.trans hu⟩, rfl⟩
      · exact .inl ⟨⟨h0, hfree, u, (hg u huv).symm.trans hu, he⟩, hev⟩
  case atari =>
    rw [addToGroup_gi]
    refine (h.atari.addAll h.room h.within fun a ha => ?_).1
    obtain ⟨c, -, rfl⟩ := List.mem_map.mp ha
    exact ⟨hgd, hbase⟩
  case few => exact few

/-! ## Two groups

A further neighbor of the color, in another group.  The group of the stone takes
over the other. -/

omit h in
/-- The labels after `merge_groups`: those of the two groups are one, and no
other label changes. -/
theorem merged_iff {g : ℕ → ℕ} {target source : ℕ} (w q : ℕ) :
    (if g w = source then target else g w) = q ↔
      if q = target then g w = target ∨ g w = source else q ≠ source ∧ g w = q := by
  by_cases hw : g w = source
  · rw [if_pos hw]
    split
    case isTrue hq => exact iff_of_true hq.symm (.inr hw)
    case isFalse hq =>
      refine iff_of_false (Ne.symm hq) fun h => h.1 (h.2.symm.trans hw)
  · rw [if_neg hw]
    split
    case isTrue hq => rw [or_iff_left hw, hq]
    case isFalse hq => exact (and_iff_right_of_imp fun h hqs => hw (h.trans hqs)).symm

/-- The labels of the merged board, read off the traversal of the second
group. -/
theorem mergeGroups_g (hd : bd.g d ≠ 0) (target : ℕ) :
    (bd.mergeGroups target (bd.g d)).g = fun w => if bd.g w = bd.g d then target else bd.g w := by
  obtain ⟨-, -, mem⟩ := h.foreachInGroup hd
  funext w
  show (if w ∈ bd.foreachInGroup (bd.g d) then target else bd.g w) = _
  simp only [mem]

/-- The stones of the merged group stand behind the base: first the base itself,
then the second group, and then the rest of the first. -/
theorem mergeGroups_chain (hu : bd.g u ≠ 0) (hd : bd.g d ≠ 0) (hne : bd.g d ≠ bd.g u) (w : ℕ)
    (hw : (bd.mergeGroups (bd.g u) (bd.g d)).g w ≠ 0) :
    ∃ l, Leads (bd.mergeGroups (bd.g u) (bd.g d)).p ((bd.mergeGroups (bd.g u) (bd.g d)).g w) l 0 ∧
      l.Nodup ∧ ∀ x, x ∈ l ↔
        (bd.mergeGroups (bd.g u) (bd.g d)).g x = (bd.mergeGroups (bd.g u) (bd.g d)).g w := by
  obtain ⟨hwalk, hnodup, hmem⟩ := h.foreachInGroup hd
  obtain ⟨l₁, a, hl₁⟩ : ∃ l₁ a, bd.foreachInGroup (bd.g d) = l₁ ++ [a] := by
    have hne := List.ne_nil_of_mem ((hmem d).mpr rfl)
    exact ⟨_, _, (List.dropLast_append_getLast hne).symm⟩
  have hlast : (bd.foreachInGroup (bd.g d)).getLastD (bd.g d) = a := by
    rw [hl₁]
    simp
  have hga : bd.g a = bd.g d := (hmem a).mp (hl₁ ▸ List.mem_append_right _ (by simp))
  have hp : (bd.mergeGroups (bd.g u) (bd.g d)).p =
      Function.update (Function.update bd.p a (bd.p (bd.g u))) (bd.g u) (bd.g d) := by
    show Function.update (Function.update bd.p _ _) _ _ = _
    rw [hlast]
  rw [h.mergeGroups_g hd] at hw
  rw [h.mergeGroups_g hd, hp]
  dsimp only at hw ⊢
  generalize hr : (if bd.g w = bd.g d then bd.g u else bd.g w) = r at hw ⊢
  simp only [merged_iff]
  rw [merged_iff] at hr
  split at hr
  case isTrue hru =>
    obtain ⟨l, hl, nodup, mem⟩ := h.chain u hu
    cases l with
    | nil => exact absurd ((mem u).mpr rfl) List.not_mem_nil
    | cons b l =>
        obtain rfl : b = bd.g u := hl.1
        rw [hl₁] at hwalk hnodup
        have apart (x : ℕ) (hx : x ∈ bd.g u :: l) : x ∉ l₁ ++ [a] := by
          rw [← hl₁, hmem, (mem x).mp hx]
          exact hne.symm
        rw [hru]
        refine ⟨_, hl.splice hwalk nodup hnodup apart, ?_, fun x => ?_⟩
        · have hperm : (bd.g u :: (l₁ ++ a :: l)).Perm ((l₁ ++ [a]) ++ (bd.g u :: l)) := by
            rw [List.append_cons l₁ a l]
            exact List.perm_middle.symm
          rw [hperm.nodup_iff, List.nodup_append]
          exact ⟨hnodup, nodup, fun x hx y hy hxy => apart y hy (hxy ▸ hx)⟩
        · have hin : x ∈ bd.g u :: (l₁ ++ a :: l) ↔ x ∈ bd.g u :: l ∨ x ∈ l₁ ++ [a] := by
            simp only [List.mem_append, List.mem_cons, List.not_mem_nil, or_false]
            tauto
          rw [hin, mem, ← hl₁, hmem, if_pos rfl]
  case isFalse hru =>
    obtain ⟨hrd, hr⟩ := hr
    obtain ⟨l, hl, nodup, mem⟩ := h.chain w (hr ▸ hw)
    rw [hr] at hl mem
    simp only [if_neg hru, and_iff_right hrd]
    refine ⟨l, hl.congr fun x hx => ?_, nodup, mem⟩
    have hx := (mem x).mp hx
    rw [Function.update_of_ne, Function.update_of_ne]
    · rintro rfl
      exact hrd (hx.symm.trans hga)
    · rintro rfl
      exact hru (hx.symm.trans (h.base hu))

/-- **`merge_groups`**: the group of a neighbor is merged with the group of the
stone.  Both have given up the point of the stone by then, so their liberties
are those of the stones around. -/
theorem mergeGroups (hv : s v = some k) (hd : s d = some k) (hne : bd.g d ≠ bd.g v)
    (hto : taken (bd.g v)) (hfrom : taken (bd.g d)) :
    Groups ok (addEdge adj v d) (bd.mergeGroups (bd.g v) (bd.g d)) s v taken := by
  have hgv : bd.g v ≠ 0 := h.labels.ne_null hv
  have hgd : bd.g d ≠ 0 := h.labels.ne_null hd
  have hg := h.mergeGroups_g hgd (bd.g v)
  constructor
  case labels =>
    rw [hg]
    convert h.labels.merge hv hd
  case on =>
    intro w hw
    rw [hg] at hw
    dsimp only at hw
    split at hw
    case isTrue hwd => exact h.on w (hwd ▸ hgd)
    case isFalse => exact h.on w hw
  case chain => exact h.mergeGroups_chain hgv hgd hne
  case libs =>
    intro q
    have hopen : (bd.mergeGroups (bd.g v) (bd.g d)).openLibs v taken q =
        {e | (q ≠ 0 ∧ bd.b e = .none ∧ ∃ u, (if q = bd.g v then bd.g u = bd.g v ∨ bd.g u = bd.g d
          else q ≠ bd.g d ∧ bd.g u = q) ∧ e ∈ foreachNeighbor u) ∧ (e = v → ¬ taken q)} := by
      unfold openLibs liberties
      rw [hg]
      simp only [merged_iff]
      rfl
    rw [GroupInfos.mergeGroups_lib bd hne, hopen]
    by_cases hqv : q = bd.g v
    · subst hqv
      simp only [Function.update_self, if_true]
      refine ((h.libs (bd.g v)).addAll (h.libs (bd.g d)) (by decide)).congr (Set.ext fun e => ?_)
      constructor
      · rintro (⟨⟨-, hfree, u, hu, he⟩, hev⟩ | ⟨⟨-, hfree, u, hu, he⟩, hev⟩)
        · exact ⟨⟨hgv, hfree, u, .inl hu, he⟩, hev⟩
        · exact ⟨⟨hgv, hfree, u, .inr hu, he⟩, fun h => absurd hfrom (hev h)⟩
      · rintro ⟨⟨-, hfree, u, hu, he⟩, hev⟩
        refine hu.imp (fun hu => ?_) fun hu => ?_
        · exact ⟨⟨hgv, hfree, u, hu, he⟩, hev⟩
        · exact ⟨⟨hgd, hfree, u, hu, he⟩, fun h => absurd hto (hev h)⟩
    · rw [Function.update_of_ne hqv]
      simp only [if_neg hqv]
      by_cases hqd : q = bd.g d
      · rw [hqd, Function.update_self]
        refine (Sample.empty _ _).congr (Set.eq_empty_of_forall_notMem ?_).symm
        rintro e ⟨⟨-, -, u, hu, -⟩, -⟩
        exact hu.1 rfl
      · rw [Function.update_of_ne hqd]
        simp only [ne_eq, hqd, not_false_eq_true, true_and]
        exact h.libs q
  case atari =>
    refine h.atari.mergeGroups h.room h.within hne hgv fun hs => ?_
    exact hgv ((h.base hgv).symm.trans ((h.labels.stone _).mpr hs))
  case few => exact h.few

/-! ## The stone on its point

What happens after the loop: the stone is put down, and if it has found nobody
to join it makes a group. -/

/-- The stone is put on its point, when all groups around have lost the liberty.
The point is no longer empty, and nobody counts on it. -/
theorem putStone (all : ∀ q, v ∈ bd.liberties q → taken q) (k : Color) (w : ℕ) :
    Groups ok adj { bd with b := Function.update bd.b v k.stone } s w fun _ => False := by
  refine ⟨h.labels, h.on, h.chain, fun q => ?_, h.atari, h.few⟩
  refine (h.libs q).congr (Set.ext fun e => ?_)
  show _ ∧ (e = v → ¬ taken q) ↔ (q ≠ 0 ∧ Function.update bd.b v k.stone e = .none ∧ _) ∧ _
  by_cases hev : e = v
  · subst hev
    rw [Function.update_self]
    exact iff_of_false (fun ⟨hlib, hnot⟩ => hnot rfl (all q hlib)) fun he =>
      k.stone_ne_none he.1.2.1
  · rw [Function.update_of_ne hev]
    exact and_congr_right fun _ => iff_of_true (fun h => absurd h hev) fun _ => id

/-- **`new_group`** for a stone without neighbors of its color: its own base,
with the empty points around it as liberties. -/
theorem newGroup {w : ℕ} (symm : ∀ a b, adj a b → adj b a) (hnone : ∀ q, ¬ taken q)
    (hw : onBoard w = true) (free : s w = none) (alone : ∀ a, adj w a → s a ≠ some k)
    (few : ok → (occupied (place s k w)).ncard < boardMaxGroups) :
    Groups ok adj (bd.newGroup w) (place s k w) v taken := by
  have h0 : w ≠ 0 := ne_zero_of_onBoard hw
  have hgw : bd.g w = 0 := (h.labels.stone w).mpr free
  have unused (u : ℕ) : bd.g u ≠ w := by
    intro hu
    have hbase := h.base (u := u) (hu ▸ h0)
    rw [hu, hgw] at hbase
    exact h0 hbase.symm
  have hnil : bd.gi.lib w = [] := h.lib_eq_nil fun u hu => absurd hu (unused u)
  have hg (u : ℕ) (hu : u ≠ w) : Function.update bd.g w w u = bd.g u := Function.update_of_ne hu _ _
  have hself : Function.update bd.g w w w = w := Function.update_self _ _ _
  have hlabel (u : ℕ) : Function.update bd.g w w u = w ↔ u = w := by
    by_cases hu : u = w
    · exact iff_of_true (hu ▸ hself) hu
    · rw [hg u hu]
      exact iff_of_false (unused u) hu
  have hlib : (bd.newGroup w).gi.lib =
      Function.update bd.gi.lib w ((foreachNeighbor w).filter fun c => bd.b c = .none) := by
    show (if _ then _ else _ : GroupInfos).lib = _
    rw [hnil]
    split <;> rfl
  constructor
  case labels => exact h.labels.fresh free alone symm h0 unused
  case on =>
    intro u hu
    by_cases huw : u = w
    · rw [huw]
      exact hw
    · exact h.on u (hg u huw ▸ hu)
  case chain =>
    intro u (hu : Function.update bd.g w w u ≠ 0)
    show ∃ l, Leads (Function.update bd.p w 0) (Function.update bd.g w w u) l 0 ∧ l.Nodup ∧
      ∀ x, x ∈ l ↔ Function.update bd.g w w x = Function.update bd.g w w u
    by_cases huw : u = w
    · subst huw
      rw [hself]
      refine ⟨[u], ⟨rfl, Function.update_self _ _ _⟩, List.nodup_singleton u, fun x => ?_⟩
      rw [List.mem_singleton, hlabel]
    · rw [hg u huw] at hu ⊢
      obtain ⟨l, hl, nodup, mem⟩ := h.chain u hu
      refine ⟨l, hl.congr fun x hx => ?_, nodup, fun x => (mem x).trans ?_⟩
      · refine Function.update_of_ne ?_ _ _
        rintro rfl
        exact hu (((mem x).mp hx).symm.trans hgw)
      · by_cases hx : x = w
        · rw [hx, hself, hgw]
          exact iff_of_false hu.symm (unused u).symm
        · rw [hg x hx]
  case libs =>
    intro q
    rw [hlib]
    show Sample _ _ _ {e | (q ≠ 0 ∧ bd.b e = .none ∧
      ∃ u, Function.update bd.g w w u = q ∧ e ∈ foreachNeighbor u) ∧ (e = v → ¬ taken q)}
    by_cases hq : q = w
    · subst hq
      rw [Function.update_self]
      have hmem (e : ℕ) : e ∈ (foreachNeighbor q).filter (fun c => bd.b c = .none) ↔
          (q ≠ 0 ∧ bd.b e = .none ∧ ∃ u, Function.update bd.g q q u = q ∧ e ∈ foreachNeighbor u) ∧
            (e = v → ¬ taken q) := by
        rw [List.mem_filter, decide_eq_true_eq]
        constructor
        · rintro ⟨he, hfree⟩
          exact ⟨⟨h0, hfree, q, hself, he⟩, fun _ => hnone q⟩
        · rintro ⟨⟨-, hfree, u, hu, he⟩, -⟩
          exact ⟨(hlabel u).mp hu ▸ he, hfree⟩
      refine ⟨(nodup_foreachNeighbor hw).filter _, fun e he => (hmem e).mp he, ?_,
        fun _ e he => (hmem e).mpr he⟩
      exact (List.length_filter_le _ _).trans (show 4 ≤ groupKeepLibs by decide)
    · rw [Function.update_of_ne hq]
      refine (h.libs q).congr (Set.ext fun e => ?_)
      show (q ≠ 0 ∧ _ ∧ ∃ u, bd.g u = q ∧ _) ∧ _ ↔ (q ≠ 0 ∧ _ ∧ ∃ u, _ = q ∧ _) ∧ _
      have hsame (h0 : q ≠ 0) (u : ℕ) : Function.update bd.g w w u = q ↔ bd.g u = q := by
        by_cases hu : u = w
        · rw [hu, hself, hgw]
          exact iff_of_false (Ne.symm hq) h0.symm
        · rw [hg u hu]
      exact and_congr_left' (and_congr_right fun h0 => by simp only [hsame h0])
  case atari =>
    show GroupInfos.Atari ok (if _ then _ else _)
    exact h.atari.make h0 (h.room bd.gi h.atari h.within) hnil _
  case few => exact few

end Groups

end Board

end EstarGo
