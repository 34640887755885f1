import Mathlib.Data.List.Induction
import Mathlib.Data.Set.Insert
import Mathlib.Logic.Relation
import Mathlib.Order.RelIso.Basic

/-!
# The rules of Go on a graph

Placing a stone removes the adjacent groups of the opponent that have no
liberty, then the own group where it has none.  A point whose neighbours all
belong to the opponent is only playable with a capture, and the capture of a
single stone there bans its retake.  The rules see the board as a graph: they
read which points are adjacent, and nothing else.

## Main definitions

* `group`, `HasLiberty` — the stones connected to a point, and whether they
  breathe.
* `captured`, `suicide` — what a stone removes.
* `Position`, `legal`, `Position.play` — a position with its ban, and the moves.

## Main results

* `foldl_captureAt`: capturing the dead groups of one color one after another
  removes the groups that were dead at first.
* `stone_play_self_iff`, `stone_of_play`: a move leaves no new stone but its
  own, and that one unless it is a suicide.
* `legal_iff_of_image`, `image_play`: an isomorphism of boards carries legal
  moves to legal moves, and the positions after them to each other.

## Design notes

**Suicide is a move.**  Only a point that is surrounded by the opponent needs a
capture.  A stone that fills the last liberty of its own group from a point
beside it is legal, and takes the group off the board.

**Ko is a ban on moves**, by point and color, not on positions.  A longer
repetition is nobody's business here; a program that wants to know of one keeps
hashes of its positions.

**Sets, classically.**  The rules say which stones form a group, not how to find
them, so nothing here computes.  A program computes them, by a flood fill or by
structures it keeps up to date, and is shown to find the same sets.
-/

namespace Verif.Go

universe u v w

variable {V : Type u} {W : Type v} {κ : Type w}

section Rules

variable (adj : V → V → Prop) (other : κ → κ)

/-- Two adjacent stones of one color.  The color is an argument, so the groups
of one color are studied with the other stones as if they were walls. -/
def Linked (s : V → Option κ) (k : κ) (u v : V) : Prop :=
  adj u v ∧ s u = some k ∧ s v = some k

/-- What is connected to a point by stones of one color.  The point itself
belongs to it whatever is on it, so the group of an empty point is that point
alone. -/
def group (s : V → Option κ) (k : κ) (v : V) : Set V :=
  {u | Relation.ReflTransGen (Linked adj s k) v u}

/-- The group of a point is next to an empty point, which the rules call a
liberty. -/
def HasLiberty (s : V → Option κ) (k : κ) (v : V) : Prop :=
  ∃ u ∈ group adj s k v, ∃ e, adj u e ∧ s e = none

open Classical in
/-- Put a stone on a point.  Whatever was there is replaced; legality asks for
an empty point. -/
noncomputable def place (s : V → Option κ) (k : κ) (v : V) : V → Option κ :=
  fun u => if u = v then some k else s u

open Classical in
/-- Remove the stones of a set. -/
noncomputable def remove (set : Set V) (s : V → Option κ) : V → Option κ :=
  fun u => if u ∈ set then none else s u

/-- The stones of the opponent that a stone captures: the groups next to it that
have no liberty once it is on the board. -/
def captured (s : V → Option κ) (k : κ) (v : V) : Set V :=
  {u | ∃ d, adj v d ∧ place s k v d = some (other k) ∧
    u ∈ group adj (place s k v) (other k) d ∧ ¬ HasLiberty adj (place s k v) (other k) d}

/-- The stones after the captures, which come before the look at the own
group. -/
noncomputable def afterCapture (s : V → Option κ) (k : κ) (v : V) : V → Option κ :=
  remove (captured adj other s k v) (place s k v)

/-- The own stones that are removed: the group of the stone, where it has no
liberty after the captures.  Where it captures anything there are none. -/
def suicide (s : V → Option κ) (k : κ) (v : V) : Set V :=
  {u | u ∈ group adj (afterCapture adj other s k v) k v ∧
    ¬ HasLiberty adj (afterCapture adj other s k v) k v}

/-- Every neighbour of the point is a stone of the opponent.  This is the test
the rules below make before a move, and a point may have no liberty without
it. -/
def surrounded (s : V → Option κ) (k : κ) (v : V) : Prop :=
  ∀ d, adj v d → s d = some (other k)

end Rules

/-- The stones, and the moves that the ko bans.  Whether a ban is there is part
of the position, which otherwise has no memory. -/
@[ext]
structure Position (V : Type u) (κ : Type w) where
  stone : V → Option κ
  ko : V → κ → Prop

namespace Position

/-- The empty board. -/
def empty : Position V κ := ⟨fun _ => none, fun _ _ => False⟩

variable (adj : V → V → Prop) (other : κ → κ)

/-- The legal moves: on an empty point that is not surrounded by the opponent,
or with a capture that no ko bans. -/
def legal (p : Position V κ) (k : κ) (v : V) : Prop :=
  p.stone v = none ∧ (¬ surrounded adj other p.stone k v ∨
    ¬ p.ko v k ∧ (captured adj other p.stone k v).Nonempty)

/-- The position after a legal move.  The stones that are captured leave first,
then the own group where it has no liberty; a single stone captured from a
surrounded point must not be retaken at once. -/
noncomputable def play (p : Position V κ) (k : κ) (v : V) : Position V κ where
  stone := remove (suicide adj other p.stone k v) (afterCapture adj other p.stone k v)
  ko u c := surrounded adj other p.stone k v ∧ c = other k ∧
    captured adj other p.stone k v = {u}

end Position

/-! ## Groups

Connection is symmetric, so a group is the group of each of its stones, and two
groups of one color are equal or apart. -/

section Groups

variable {adj : V → V → Prop} {s : V → Option κ} {k : κ} {u v d : V} {set : Set V}

theorem remove_of_mem (h : u ∈ set) : remove set s u = none := if_pos h

theorem remove_of_not_mem (h : u ∉ set) : remove set s u = s u := if_neg h

theorem remove_eq_some_iff : remove set s u = some k ↔ u ∉ set ∧ s u = some k := by
  by_cases h : u ∈ set
  · simp [remove_of_mem h, h]
  · simp [remove_of_not_mem h, h]

theorem remove_remove (a b : Set V) : remove a (remove b s) = remove (a ∪ b) s := by
  funext u
  by_cases ha : u ∈ a
  · rw [remove_of_mem ha, remove_of_mem (Set.mem_union_left _ ha)]
  · rw [remove_of_not_mem ha]
    by_cases hb : u ∈ b
    · rw [remove_of_mem hb, remove_of_mem (Set.mem_union_right _ hb)]
    · rw [remove_of_not_mem hb, remove_of_not_mem fun h => h.elim ha hb]

theorem self_mem_group : v ∈ group adj s k v := Relation.ReflTransGen.refl

theorem color_of_mem_group (hv : s v = some k) (mem : u ∈ group adj s k v) : s u = some k := by
  rcases Relation.ReflTransGen.cases_tail mem with rfl | ⟨w, -, hlink⟩
  · exact hv
  · exact hlink.2.2

/-- Sets that hold, with a stone of a color, what is linked to it. -/
def Closed (adj : V → V → Prop) (s : V → Option κ) (k : κ) (set : Set V) : Prop :=
  ∀ u v, Linked adj s k u v → (u ∈ set ↔ v ∈ set)

/-- So it contains a group or is apart from it. -/
theorem Closed.mem_group_iff (closed : Closed adj s k set) (mem : u ∈ group adj s k v) :
    u ∈ set ↔ v ∈ set := by
  induction mem with
  | refl => exact Iff.rfl
  | tail _ hlink ih => rw [← closed _ _ hlink, ih]

/-- Removing a closed set leaves the other groups as they are. -/
theorem Closed.group_remove (closed : Closed adj s k set) (hd : d ∉ set) :
    group adj (remove set s) k d = group adj s k d := by
  ext u
  constructor
  · intro mem
    refine Relation.ReflTransGen.mono (fun a b hab => ?_) _ _ mem
    exact ⟨hab.1, (remove_eq_some_iff.mp hab.2.1).2, (remove_eq_some_iff.mp hab.2.2).2⟩
  · intro mem
    induction mem with
    | refl => exact self_mem_group
    | @tail a b ha hlink ih =>
        have hout : a ∉ set := fun h => hd ((closed.mem_group_iff ha).mp h)
        have hout' : b ∉ set := fun h => hout ((closed _ _ hlink).mpr h)
        exact Relation.ReflTransGen.tail ih ⟨hlink.1, remove_eq_some_iff.mpr ⟨hout, hlink.2.1⟩,
          remove_eq_some_iff.mpr ⟨hout', hlink.2.2⟩⟩

/-- Removing stones of a color gives no liberty to another group of it: two
groups of one color are not adjacent. -/
theorem Closed.hasLiberty_remove (closed : Closed adj s k set)
    (color : ∀ u ∈ set, s u = some k) (hcolor : s d = some k) (hd : d ∉ set) :
    HasLiberty adj (remove set s) k d ↔ HasLiberty adj s k d := by
  unfold HasLiberty
  rw [closed.group_remove hd]
  refine exists_congr fun u => and_congr_right fun mem => exists_congr fun e =>
    and_congr_right fun hadj => ?_
  have hout : u ∉ set := fun h => hd ((closed.mem_group_iff mem).mp h)
  have hout' : e ∉ set := fun h =>
    hout ((closed u e ⟨hadj, color_of_mem_group hcolor mem, color e h⟩).mpr h)
  rw [remove_of_not_mem hout']

/-- The stones of the groups of some points that have no liberty.  The points
will be the neighbours of a stone. -/
def dead (adj : V → V → Prop) (s : V → Option κ) (k : κ) (ds : Set V) : Set V :=
  {u | ∃ d ∈ ds, s d = some k ∧ u ∈ group adj s k d ∧ ¬ HasLiberty adj s k d}

/-- Dead stones have the color that was asked for. -/
theorem color_of_mem_dead {ds : Set V} (h : u ∈ dead adj s k ds) : s u = some k := by
  obtain ⟨d, -, hd, mem, -⟩ := h
  exact color_of_mem_group hd mem

/-- The dead stones are whole groups. -/
theorem closed_dead (symm : ∀ u v, adj u v → adj v u) (ds : Set V) :
    Closed adj s k (dead adj s k ds) := by
  have forward (u v : V) (hlink : Linked adj s k u v) (h : u ∈ dead adj s k ds) :
      v ∈ dead adj s k ds := by
    obtain ⟨d, hd, hcolor, mem, hlib⟩ := h
    exact ⟨d, hd, hcolor, Relation.ReflTransGen.tail mem hlink, hlib⟩
  intro u v hlink
  exact ⟨forward u v hlink, forward v u ⟨symm _ _ hlink.1, hlink.2.2, hlink.2.1⟩⟩

open Classical in
/-- Capture the group at one point, where it has the color and no liberty.  A
program captures at one neighbour after another. -/
noncomputable def captureAt (adj : V → V → Prop) (k : κ) (s : V → Option κ) (d : V) :
    V → Option κ :=
  if s d = some k ∧ ¬ HasLiberty adj s k d then remove (group adj s k d) s else s

theorem captureAt_of_dead (h : s d = some k ∧ ¬ HasLiberty adj s k d) :
    captureAt adj k s d = remove (group adj s k d) s := if_pos h

theorem captureAt_of_not_dead (h : ¬ (s d = some k ∧ ¬ HasLiberty adj s k d)) :
    captureAt adj k s d = s := if_neg h

/-- One more point makes the stones of its group dead, where that has no
liberty. -/
theorem mem_dead_concat {ds : List V} :
    u ∈ dead adj s k {e | e ∈ ds ++ [d]} ↔ u ∈ dead adj s k {e | e ∈ ds} ∨
      (s d = some k ∧ ¬ HasLiberty adj s k d) ∧ u ∈ group adj s k d := by
  constructor
  · rintro ⟨e, he, hcolor, mem, hlib⟩
    rcases List.mem_append.mp he with he | he
    · exact .inl ⟨e, he, hcolor, mem, hlib⟩
    · obtain rfl := List.mem_singleton.mp he
      exact .inr ⟨⟨hcolor, hlib⟩, mem⟩
  · rintro (⟨e, he, hcolor, mem, hlib⟩ | ⟨⟨hcolor, hlib⟩, mem⟩)
    · exact ⟨e, List.mem_append_left _ he, hcolor, mem, hlib⟩
    · exact ⟨d, List.mem_append_right _ (List.mem_singleton.mpr rfl), hcolor, mem, hlib⟩

/-- **Captures do not depend on their order.**  Capturing at one point after
another removes the groups that were dead at the start: the removal of one gives
no liberty to another of its color, and none loses one. -/
theorem foldl_captureAt (symm : ∀ u v, adj u v → adj v u) (s : V → Option κ) (k : κ)
    (ds : List V) : ds.foldl (captureAt adj k) s = remove (dead adj s k {d | d ∈ ds}) s := by
  induction ds using List.reverseRecOn with
  | nil =>
      funext u
      refine (remove_of_not_mem ?_).symm
      rintro ⟨d, hd, -⟩
      exact absurd hd List.not_mem_nil
  | append_singleton ds d ih =>
      have closed := closed_dead (s := s) (k := k) symm {d | d ∈ ds}
      rw [List.foldl_append, List.foldl_cons, List.foldl_nil, ih]
      by_cases hd : d ∈ dead adj s k {e | e ∈ ds}
      · -- The group is gone already.
        have hstone : remove (dead adj s k {e | e ∈ ds}) s d = none := remove_of_mem hd
        rw [captureAt_of_not_dead fun h => Option.some_ne_none _ (h.1.symm.trans hstone)]
        congr 1
        ext u
        rw [mem_dead_concat]
        exact ⟨.inl, fun h => h.elim id fun h => (closed.mem_group_iff h.2).mpr hd⟩
      have hcond : (remove (dead adj s k {e | e ∈ ds}) s d = some k ∧
          ¬ HasLiberty adj (remove (dead adj s k {e | e ∈ ds}) s) k d) ↔
            s d = some k ∧ ¬ HasLiberty adj s k d := by
        rw [remove_of_not_mem hd]
        refine and_congr_right fun hcolor => ?_
        rw [closed.hasLiberty_remove (fun _ => color_of_mem_dead) hcolor hd]
      by_cases hdead : s d = some k ∧ ¬ HasLiberty adj s k d
      · rw [captureAt_of_dead (hcond.mpr hdead), closed.group_remove hd, remove_remove]
        congr 1
        ext u
        rw [mem_dead_concat, or_comm]
        exact or_congr (and_iff_right hdead).symm Iff.rfl
      · rw [captureAt_of_not_dead (hcond.not.mpr hdead)]
        congr 1
        ext u
        rw [mem_dead_concat]
        exact (or_iff_left fun h => hdead h.1).symm

/-! ## A move, one capture after another

The rules speak of all captures of a move at once.  A program goes along the
neighbours and captures where it finds a group without liberties; here the two
come to the same. -/

section Move

variable {other : κ → κ} {ds : List V}

@[simp] theorem place_self (s : V → Option κ) (k : κ) (v : V) : place s k v v = some k :=
  if_pos rfl

theorem place_of_ne (h : u ≠ v) : place s k v u = s u := if_neg h

theorem place_eq_some_iff {c : κ} (free : s v = none) (ne : c ≠ k) :
    place s k v u = some c ↔ s u = some c := by
  by_cases h : u = v
  · rw [h, place_self, free]
    exact ⟨fun h => absurd (Option.some.inj h).symm ne, fun h => absurd h (by simp)⟩
  · rw [place_of_ne h]

/-- A stone does not change the groups of the other color, only their
liberties. -/
theorem group_place {c : κ} (free : s v = none) (ne : c ≠ k) :
    group adj (place s k v) c d = group adj s c d := by
  have hlinked : Linked adj (place s k v) c = Linked adj s c := by
    funext x y
    unfold Linked
    rw [place_eq_some_iff free ne, place_eq_some_iff free ne]
  unfold group
  rw [hlinked]

/-- A stone takes the last liberty of a group: the group has none after it
exactly when it had no other before. -/
theorem not_hasLiberty_place_iff {c : κ} (free : s v = none) (ne : c ≠ k) :
    ¬ HasLiberty adj (place s k v) c d ↔
      ∀ u ∈ group adj s c d, ∀ e, adj u e → s e = none → e = v := by
  unfold HasLiberty
  rw [group_place free ne]
  constructor
  · intro h u hu e hadj he
    by_contra hne
    exact h ⟨u, hu, e, hadj, (place_of_ne hne).trans he⟩
  · rintro h ⟨u, hu, e, hadj, he⟩
    by_cases hev : e = v
    · rw [hev, place_self] at he
      exact Option.some_ne_none _ he
    · exact hev (h u hu e hadj ((place_of_ne hev).symm.trans he))

/-- The points with a stone.  Programs that keep count of stones are about its
size. -/
def occupied (s : V → Option κ) : Set V := {u | s u ≠ none}

/-- A stone comes, and the captured ones go. -/
theorem occupied_afterCapture :
    occupied (afterCapture adj other s k v) =
      insert v (occupied s) \ captured adj other s k v := by
  ext u
  show afterCapture adj other s k v u ≠ none ↔ (u = v ∨ s u ≠ none) ∧ u ∉ captured adj other s k v
  by_cases h : u ∈ captured adj other s k v
  · rw [afterCapture, remove_of_mem h]
    exact iff_of_false (fun h => h rfl) fun hu => hu.2 h
  · rw [afterCapture, remove_of_not_mem h, and_iff_left h]
    by_cases huv : u = v
    · rw [huv, place_self]
      exact iff_of_true (Option.some_ne_none _) (.inl rfl)
    · rw [place_of_ne huv]
      exact (or_iff_right huv).symm

/-- Only stones that are on the board are captured. -/
theorem captured_subset : captured adj other s k v ⊆ insert v (occupied s) := by
  intro u h
  by_cases huv : u = v
  · exact .inl huv
  · right
    show s u ≠ none
    rw [← place_of_ne (s := s) (k := k) huv, color_of_mem_dead h]
    exact Option.some_ne_none _

/-- The captures of a move, along a list of the neighbours, in any order and
with repetitions. -/
theorem foldl_captureAt_place (symm : ∀ u v, adj u v → adj v u) (hds : ∀ d, d ∈ ds ↔ adj v d) :
    ds.foldl (captureAt adj (other k)) (place s k v) = afterCapture adj other s k v := by
  have hset : {d | d ∈ ds} = {d | adj v d} := Set.ext hds
  rw [foldl_captureAt symm, hset]
  rfl

/-- A stone does not capture itself; its own group is looked at afterwards. -/
theorem self_not_mem_captured (ne : other k ≠ k) : v ∉ captured adj other s k v := fun h =>
  ne (Option.some.inj ((color_of_mem_dead h).symm.trans (place_self s k v)))

theorem afterCapture_self (ne : other k ≠ k) : afterCapture adj other s k v v = some k := by
  rw [afterCapture, remove_of_not_mem (self_not_mem_captured ne), place_self]

/-- The end of a move captures the own group, where it is dead.  So a whole move
is captures one after another, the last one for the other color. -/
theorem remove_suicide (ne : other k ≠ k) :
    remove (suicide adj other s k v) (afterCapture adj other s k v) =
      captureAt adj k (afterCapture adj other s k v) v := by
  by_cases hlib : HasLiberty adj (afterCapture adj other s k v) k v
  · rw [captureAt_of_not_dead fun h => h.2 hlib]
    funext u
    exact remove_of_not_mem fun h => h.2 hlib
  · rw [captureAt_of_dead ⟨afterCapture_self ne, hlib⟩]
    congr 1
    ext u
    exact and_iff_left hlib

/-- A stone that captures has a liberty, where the captured stones were. -/
theorem hasLiberty_of_captured (h : (captured adj other s k v).Nonempty) :
    HasLiberty adj (afterCapture adj other s k v) k v := by
  obtain ⟨u, d, hadj, hcolor, mem, hlib⟩ := h
  refine ⟨v, self_mem_group, d, hadj, remove_of_mem ?_⟩
  exact ⟨d, hadj, hcolor, self_mem_group, hlib⟩

theorem hasLiberty_of_free {e : V} (hadj : adj v e) (free : s e = none) (ne : e ≠ v) :
    HasLiberty adj (afterCapture adj other s k v) k v := by
  refine ⟨v, self_mem_group, e, hadj, ?_⟩
  by_cases mem : e ∈ captured adj other s k v
  · exact remove_of_mem mem
  · rw [afterCapture, remove_of_not_mem mem, place_of_ne ne, free]

/-- The stone that is played stays exactly where its group has a liberty after
the captures. -/
theorem stone_play_self_iff {p : Position V κ} (ne : other k ≠ k) :
    (p.play adj other k v).stone v = some k ↔
      HasLiberty adj (afterCapture adj other p.stone k v) k v := by
  show remove (suicide adj other p.stone k v) (afterCapture adj other p.stone k v) v = some k ↔ _
  rw [remove_eq_some_iff, and_iff_left (afterCapture_self ne)]
  by_cases hlib : HasLiberty adj (afterCapture adj other p.stone k v) k v
  · exact iff_of_true (fun h => h.2 hlib) hlib
  · exact iff_of_false (fun h => h ⟨self_mem_group, hlib⟩) hlib

/-- **No other stone is new** after a move: what stands beside the point of the
move stood there before. -/
theorem stone_of_play {p : Position V κ} {c : κ} (ne : u ≠ v)
    (h : (p.play adj other k v).stone u = some c) : p.stone u = some c := by
  have hafter := (remove_eq_some_iff.mp h).2
  have hplace := (remove_eq_some_iff.mp hafter).2
  rwa [place_of_ne ne] at hplace

/-- A stone on the point of a move has the color of the move. -/
theorem color_of_play {p : Position V κ} {c : κ} (ne : other k ≠ k)
    (h : (p.play adj other k v).stone v = some c) : c = k := by
  have hafter := (remove_eq_some_iff.mp h).2
  rw [afterCapture_self ne] at hafter
  exact (Option.some.inj hafter).symm

end Move

end Groups

/-! ## Isomorphic boards

An isomorphism preserves what the rules read, so each notion that is defined
from them is carried along.  Each lemma is the one before it, one definition
further up. -/

section Image

variable {adj : V → V → Prop} {adj' : W → W → Prop} {other : κ → κ}
  {s : V → Option κ} {t : W → Option κ} {k : κ} {u v : V}

theorem mem_group_of_image (σ : adj ≃r adj') (h : ∀ v, t (σ v) = s v)
    (mem : u ∈ group adj s k v) : σ u ∈ group adj' t k (σ v) := by
  refine Relation.ReflTransGen.lift (p := Linked adj' t k) σ (fun a b hab => ?_) _ _ mem
  obtain ⟨hadj, ha, hb⟩ := hab
  exact ⟨σ.map_rel_iff.mpr hadj, (h a).trans ha, (h b).trans hb⟩

/-- The stones, read back along the isomorphism, so that a fact shown in one
direction holds in both. -/
theorem image_symm (σ : adj ≃r adj') (h : ∀ v, t (σ v) = s v) (w : W) :
    s (σ.symm w) = t w := by
  rw [← h, σ.apply_symm_apply]

/-- An isomorphism carries groups to groups. -/
theorem mem_group_iff (σ : adj ≃r adj') (h : ∀ v, t (σ v) = s v) :
    σ u ∈ group adj' t k (σ v) ↔ u ∈ group adj s k v := by
  refine ⟨fun mem => ?_, mem_group_of_image σ h⟩
  have back := mem_group_of_image σ.symm (image_symm σ h) mem
  rwa [σ.symm_apply_apply, σ.symm_apply_apply] at back

theorem hasLiberty_of_image (σ : adj ≃r adj') (h : ∀ v, t (σ v) = s v)
    (lib : HasLiberty adj s k v) : HasLiberty adj' t k (σ v) := by
  obtain ⟨u, mem, e, hadj, hempty⟩ := lib
  exact ⟨σ u, mem_group_of_image σ h mem, σ e, σ.map_rel_iff.mpr hadj, (h e).trans hempty⟩

/-- So a group has a liberty where its image has one. -/
theorem hasLiberty_iff (σ : adj ≃r adj') (h : ∀ v, t (σ v) = s v) :
    HasLiberty adj' t k (σ v) ↔ HasLiberty adj s k v := by
  refine ⟨fun lib => ?_, hasLiberty_of_image σ h⟩
  have back := hasLiberty_of_image σ.symm (image_symm σ h) lib
  rwa [σ.symm_apply_apply] at back

theorem place_image (σ : adj ≃r adj') (h : ∀ v, t (σ v) = s v) (k : κ) (v u : V) :
    place t k (σ v) (σ u) = place s k v u := by
  unfold place
  rw [h, σ.injective.eq_iff]

theorem remove_image (σ : adj ≃r adj') (h : ∀ v, t (σ v) = s v) {a : Set V} {b : Set W}
    (hset : ∀ u, σ u ∈ b ↔ u ∈ a) (u : V) : remove b t (σ u) = remove a s u := by
  unfold remove
  by_cases mem : u ∈ a
  · rw [if_pos mem, if_pos ((hset u).mpr mem)]
  · rw [if_neg mem, if_neg fun hb => mem ((hset u).mp hb), h]

theorem surrounded_iff (σ : adj ≃r adj') (h : ∀ v, t (σ v) = s v) :
    surrounded adj' other t k (σ v) ↔ surrounded adj other s k v := by
  unfold surrounded
  rw [σ.surjective.forall]
  simp only [σ.map_rel_iff, h]

/-- What a move captures is carried along. -/
theorem mem_captured_iff (σ : adj ≃r adj') (h : ∀ v, t (σ v) = s v) :
    σ u ∈ captured adj' other t k (σ v) ↔ u ∈ captured adj other s k v := by
  have hplace := place_image σ h k v
  show (∃ d, _) ↔ ∃ d, _
  rw [σ.surjective.exists]
  simp only [σ.map_rel_iff, hplace, mem_group_iff σ hplace, hasLiberty_iff σ hplace]

theorem afterCapture_image (σ : adj ≃r adj') (h : ∀ v, t (σ v) = s v) (k : κ) (v u : V) :
    afterCapture adj' other t k (σ v) (σ u) = afterCapture adj other s k v u := by
  exact remove_image σ (place_image σ h k v) (fun u => mem_captured_iff σ h) u

theorem mem_suicide_iff (σ : adj ≃r adj') (h : ∀ v, t (σ v) = s v) :
    σ u ∈ suicide adj' other t k (σ v) ↔ u ∈ suicide adj other s k v := by
  have hafter (u : V) : afterCapture adj' other t k (σ v) (σ u) = afterCapture adj other s k v u :=
    afterCapture_image σ h k v u
  show _ ∧ _ ↔ _ ∧ _
  rw [mem_group_iff σ hafter, hasLiberty_iff σ hafter]

/-- A set of points that consists of one point. -/
theorem eq_singleton_iff_of_image (σ : adj ≃r adj') {a : Set V} {b : Set W}
    (h : ∀ u, σ u ∈ b ↔ u ∈ a) : b = {σ u} ↔ a = {u} := by
  simp only [Set.ext_iff, Set.mem_singleton_iff, σ.surjective.forall, h, σ.injective.eq_iff]

end Image

namespace Position

variable {adj : V → V → Prop} {adj' : W → W → Prop} {other : κ → κ}
  {p : Position V κ} {q : Position W κ} {k : κ} {v : V}

/-- The position as it stands on an isomorphic board: the stones are at the
images of their points, and the ban is on the images of its moves. -/
structure Image (σ : adj ≃r adj') (p : Position V κ) (q : Position W κ) : Prop where
  stone : ∀ v, q.stone (σ v) = p.stone v
  ko : ∀ v k, q.ko (σ v) k ↔ p.ko v k

theorem image_empty (σ : adj ≃r adj') : Image σ (empty (κ := κ)) empty :=
  ⟨fun _ => rfl, fun _ _ => Iff.rfl⟩

/-- **Legality is invariant.**  A move is legal exactly where its image is, in
the image of the position. -/
theorem legal_iff_of_image {σ : adj ≃r adj'} (h : Image σ p q) :
    q.legal adj' other k (σ v) ↔ p.legal adj other k v := by
  have hcaptured : (captured adj' other q.stone k (σ v)).Nonempty ↔
      (captured adj other p.stone k v).Nonempty := by
    unfold Set.Nonempty
    rw [σ.surjective.exists]
    simp only [mem_captured_iff σ h.stone]
  unfold legal
  rw [h.stone, h.ko, surrounded_iff σ h.stone, hcaptured]

/-- **Moves are equivariant.**  The image of the position after a move is the
position after the image of the move. -/
theorem image_play {σ : adj ≃r adj'} (h : Image σ p q) (k : κ) (v : V) :
    Image σ (p.play adj other k v) (q.play adj' other k (σ v)) := by
  constructor
  case stone =>
    intro u
    exact remove_image σ (afterCapture_image σ h.stone k v) (fun u => mem_suicide_iff σ h.stone) u
  case ko =>
    intro u c
    unfold play
    simp only [surrounded_iff σ h.stone,
      eq_singleton_iff_of_image σ fun u => mem_captured_iff σ h.stone]

end Position

end Verif.Go
