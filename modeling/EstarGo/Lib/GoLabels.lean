import EstarGo.Lib.GoRules
import Mathlib.Logic.Function.Basic

/-!
# Labels for the groups of a board

A program that keeps the groups of a board up to date labels the stones: two
stones have the same label when they are connected.  A removed group loses its
label, and a stone is placed in steps, each of which connects it to one more
neighbour.

## Main results

* `Labels.remove`: the labels without one group.
* `Labels.fresh`, `Labels.join`, `Labels.merge`: a stone on its own, a stone
  that joins a group, and an edge that makes two groups one.

## Design notes

**The graph grows during a move.**  Between the neighbours of a stone that is
being played, the labels are right for no position on the board: the stone has
been connected to some of its neighbours and not yet to others.  They are right
for the same stones on a graph without the edges that are still to come, and
`addEdge` brings these back one at a time.  When the last is there, the graph is
the board again.

**Labels are any values** with one of them for empty points.  What a program
takes as a label, a number or the base stone of the group, is its own affair;
only that a new one is unused has to be shown.
-/

namespace Verif.Go

universe u w x

variable {V : Type u} {κ : Type w} {L : Type x} {adj : V → V → Prop} {null : L}
  {s : V → Option κ} {g : V → L} {k : κ} {u v d a b : V}

/-- Every stone has a label, which is that of its group and of no other.  The
label `null` is that of the points without a stone. -/
structure Labels (adj : V → V → Prop) (null : L) (s : V → Option κ) (g : V → L) : Prop where
  stone : ∀ u, g u = null ↔ s u = none
  group : ∀ k u w, s u = some k → (w ∈ group adj s k u ↔ g w = g u)

/-- One more edge, in both directions. -/
def addEdge (adj : V → V → Prop) (v d : V) : V → V → Prop :=
  fun a b => adj a b ∨ (a = v ∧ b = d) ∨ (a = d ∧ b = v)

/-! ## Groups and edges -/

theorem mem_group_trans (hab : b ∈ group adj s k a) (hbd : d ∈ group adj s k b) :
    d ∈ group adj s k a :=
  Relation.ReflTransGen.trans hab hbd

/-- More edges and more stones make larger groups: no connection gets lost. -/
theorem group_mono {adj' : V → V → Prop} {s' : V → Option κ} (hadj : ∀ a b, adj a b → adj' a b)
    (hs : ∀ a, s a = some k → s' a = some k) (mem : a ∈ group adj s k b) :
    a ∈ group adj' s' k b :=
  Relation.ReflTransGen.mono (fun _ _ h => ⟨hadj _ _ h.1, hs _ h.2.1, hs _ h.2.2⟩) _ _ mem

theorem addEdge_of_adj (h : adj a b) : addEdge adj v d a b := .inl h

theorem addEdge_self : addEdge adj v d v d := .inr (.inl ⟨rfl, rfl⟩)

theorem addEdge_self' : addEdge adj v d d v := .inr (.inr ⟨rfl, rfl⟩)

/-- An edge between two stones of a color connects them, whatever else the graph
has. -/
theorem mem_group_addEdge (hv : s v = some k) (hd : s d = some k) :
    d ∈ group (addEdge adj v d) s k v ∧ v ∈ group (addEdge adj v d) s k d :=
  ⟨Relation.ReflTransGen.single ⟨addEdge_self, hv, hd⟩,
    Relation.ReflTransGen.single ⟨addEdge_self', hd, hv⟩⟩

/-- A stone is not on a free point. -/
theorem ne_of_free (free : s v = none) (ha : s a = some k) : a ≠ v := by
  rintro rfl
  exact Option.some_ne_none k (ha.symm.trans free)

/-- A stone on a free point leaves the others as they are. -/
theorem place_mono {c : κ} (free : s v = none) (ha : s a = some c) : place s k v a = some c :=
  (place_of_ne (ne_of_free free ha)).trans ha

namespace Labels

/-- Labels that linked stones share, on connected stones only.  This is how
labels are shown to be right: the first part goes along links, the second along
paths. -/
theorem of_linked (stone : ∀ u, g u = null ↔ s u = none)
    (linked : ∀ k a b, Linked adj s k a b → g a = g b)
    (joined : ∀ k a b, s a = some k → g b = g a → b ∈ Go.group adj s k a) :
    Labels adj null s g := by
  refine ⟨stone, fun k a b ha => ⟨fun mem => ?_, joined k a b ha⟩⟩
  induction mem with
  | refl => rfl
  | tail _ hlink ih => exact (linked k _ _ hlink).symm.trans ih

variable (h : Labels adj null s g)
include h

/-- Stones that are linked share their label. -/
theorem linked (hlink : Linked adj s k a b) : g a = g b :=
  ((h.group k a b hlink.2.1).mp (Relation.ReflTransGen.single hlink)).symm

/-- The stones of a label have one color, since they are one group. -/
theorem color (hg : g b = g a) (ha : s a = some k) : s b = some k :=
  color_of_mem_group ha ((h.group k a b ha).mpr hg)

theorem ne_null (hv : s v = some k) : g v ≠ null := fun hg =>
  Option.some_ne_none k (hv.symm.trans ((h.stone v).mp hg))

/-- The labels depend on the links alone: an edge between stones of different
colors, or to an empty point, changes nothing. -/
theorem congr {adj' : V → V → Prop} (hlink : ∀ k, Linked adj' s k = Linked adj s k) :
    Labels adj' null s g := by
  refine ⟨h.stone, fun k a b ha => ?_⟩
  rw [← h.group k a b ha, Go.group, Go.group, hlink]

/-- The stones of a label are closed under links. -/
theorem closed (r : L) : Closed adj s k {a | g a = r} := fun a b hlink => by
  show g a = r ↔ g b = r
  rw [h.linked hlink]

open Classical in
/-- **A group is removed.**  Its points lose their label, and the other groups
are what they were. -/
theorem remove (r : L) :
    Labels adj null (Go.remove {a | g a = r} s) fun a => if g a = r then null else g a := by
  constructor
  case stone =>
    intro a
    by_cases ha : g a = r
    · rw [if_pos ha, remove_of_mem (show a ∈ {a | g a = r} from ha)]
      exact iff_of_true rfl rfl
    · rw [if_neg ha, remove_of_not_mem (show a ∉ {a | g a = r} from ha)]
      exact h.stone a
  case group =>
    intro k a b ha
    obtain ⟨hout, hs⟩ := remove_eq_some_iff.mp ha
    have hout : g a ≠ r := hout
    rw [(h.closed r).group_remove hout, h.group k a b hs, if_neg hout]
    by_cases hb : g b = r
    · rw [if_pos hb]
      exact iff_of_false (fun hba => hout (hba.symm.trans hb)) fun hnull => h.ne_null hs hnull.symm
    · rw [if_neg hb]

/-- An edge that connects no more than is connected already leaves the labels as
they are. -/
theorem skip (same : ∀ k, s v = some k → s d = some k → g v = g d) :
    Labels (addEdge adj v d) null s g := by
  refine of_linked h.stone (fun k a b hlink => ?_) fun k a b ha hg => ?_
  · obtain ⟨hadj | ⟨rfl, rfl⟩ | ⟨rfl, rfl⟩, ha, hb⟩ := hlink
    · exact h.linked ⟨hadj, ha, hb⟩
    · exact same k ha hb
    · exact (same k hb ha).symm
  · exact group_mono (fun _ _ => addEdge_of_adj) (fun _ => id) ((h.group k a b ha).mpr hg)

open Classical in
/-- **Two groups become one** by an edge between them; the stones of one take
the label of the other. -/
theorem merge (hv : s v = some k) (hd : s d = some k) :
    Labels (addEdge adj v d) null s fun a => if g a = g d then g v else g a := by
  have grow {c : κ} {a b : V} (ha : s a = some c) (hg : g b = g a) :
      b ∈ Go.group (addEdge adj v d) s c a :=
    group_mono (fun _ _ => addEdge_of_adj) (fun _ => id) ((h.group c a b ha).mpr hg)
  obtain ⟨hvd, hdv⟩ :
      d ∈ Go.group (addEdge adj v d) s k v ∧ v ∈ Go.group (addEdge adj v d) s k d :=
    mem_group_addEdge hv hd
  have hself : (if g v = g d then g v else g v) = g v := ite_self _
  refine of_linked (fun a => ?_) (fun c a b hlink => ?_) fun c a b ha hg => ?_
  · by_cases ha : g a = g d
    · rw [if_pos ha, h.color ha hd]
      exact iff_of_false (h.ne_null hv) (Option.some_ne_none k)
    · rw [if_neg ha]
      exact h.stone a
  · obtain ⟨hadj | ⟨rfl, rfl⟩ | ⟨rfl, rfl⟩, ha, hb⟩ := hlink
    · rw [h.linked ⟨hadj, ha, hb⟩]
    · rw [hself, if_pos rfl]
    · rw [if_pos rfl, hself]
  · by_cases hga : g a = g d <;> by_cases hgb : g b = g d
    · exact grow ha (hgb.trans hga.symm)
    · -- `b` is on the side of `v`
      rw [if_pos hga, if_neg hgb] at hg
      obtain rfl : k = c := Option.some.inj ((h.color hga hd).symm.trans ha)
      exact mem_group_trans (grow ha hga.symm) (mem_group_trans hdv (grow hv hg))
    · rw [if_neg hga, if_pos hgb] at hg
      obtain rfl : k = c := Option.some.inj ((h.color hg.symm hv).symm.trans ha)
      exact mem_group_trans (grow ha hg) (mem_group_trans hvd (grow hd hgb))
    · rw [if_neg hga, if_neg hgb] at hg
      exact grow ha hg

section Place

variable [DecidableEq V] (free : s v = none) (alone : ∀ a, adj v a → s a ≠ some k)
include free alone

omit h [DecidableEq V] in
/-- The links of a stone without a neighbour of its color. -/
theorem linked_place (symm : ∀ u v, adj u v → adj v u) {c : κ}
    (hlink : Linked adj (place s k v) c a b) : Linked adj s c a b ∨ a = v ∧ b = v := by
  obtain ⟨hadj, ha, hb⟩ := hlink
  by_cases hav : a = v
  · subst hav
    obtain rfl : k = c := Option.some.inj ((place_self s k a).symm.trans ha)
    by_cases hbv : b = a
    · exact .inr ⟨rfl, hbv⟩
    · exact absurd ((place_of_ne hbv).symm.trans hb) (alone b hadj)
  · by_cases hbv : b = v
    · subst hbv
      obtain rfl : k = c := Option.some.inj ((place_self s k b).symm.trans hb)
      exact absurd ((place_of_ne hav).symm.trans ha) (alone a (symm _ _ hadj))
    · exact .inl ⟨hadj, (place_of_ne hav).symm.trans ha, (place_of_ne hbv).symm.trans hb⟩

/-- **A stone on its own** takes a label of its own, which no other stone
has. -/
theorem fresh (symm : ∀ u v, adj u v → adj v u) {r : L} (hr : r ≠ null) (unused : ∀ a, g a ≠ r) :
    Labels adj null (place s k v) (Function.update g v r) := by
  refine of_linked (fun a => ?_) (fun c a b hlink => ?_) fun c a b ha hg => ?_
  · by_cases hav : a = v
    · rw [hav, Function.update_self, place_self]
      exact iff_of_false hr (Option.some_ne_none k)
    · rw [Function.update_of_ne hav, place_of_ne hav]
      exact h.stone a
  · rcases linked_place free alone symm hlink with hlink | ⟨rfl, rfl⟩
    · rw [Function.update_of_ne (ne_of_free free hlink.2.1),
        Function.update_of_ne (ne_of_free free hlink.2.2), h.linked hlink]
    · rfl
  · by_cases hav : a = v <;> by_cases hbv : b = v
    · rw [hav, hbv]
      exact self_mem_group
    · rw [hav, Function.update_self, Function.update_of_ne hbv] at hg
      exact absurd hg (unused b)
    · rw [hbv, Function.update_self, Function.update_of_ne hav] at hg
      exact absurd hg.symm (unused a)
    · rw [Function.update_of_ne hav, Function.update_of_ne hbv] at hg
      rw [place_of_ne hav] at ha
      exact group_mono (fun _ _ => id) (fun _ => place_mono free) ((h.group c a b ha).mpr hg)

/-- **A stone joins the group of a neighbour** and takes its label.  The other
neighbours of its color come after that, by `merge`. -/
theorem join (symm : ∀ u v, adj u v → adj v u) (hd : s d = some k) :
    Labels (addEdge adj v d) null (place s k v) (Function.update g v (g d)) := by
  have hdv : d ≠ v := ne_of_free free hd
  have hd' : place s k v d = some k := place_mono free hd
  obtain ⟨hvd, hdv'⟩ : d ∈ Go.group (addEdge adj v d) (place s k v) k v ∧
      v ∈ Go.group (addEdge adj v d) (place s k v) k d :=
    mem_group_addEdge (place_self s k v) hd'
  have grow {c : κ} {a b : V} (ha : s a = some c) (hg : g b = g a) :
      b ∈ Go.group (addEdge adj v d) (place s k v) c a :=
    group_mono (fun _ _ => addEdge_of_adj) (fun _ => place_mono free) ((h.group c a b ha).mpr hg)
  refine of_linked (fun a => ?_) (fun c a b hlink => ?_) fun c a b ha hg => ?_
  · by_cases hav : a = v
    · rw [hav, Function.update_self, place_self]
      exact iff_of_false (h.ne_null hd) (Option.some_ne_none k)
    · rw [Function.update_of_ne hav, place_of_ne hav]
      exact h.stone a
  · obtain ⟨hadj | ⟨rfl, rfl⟩ | ⟨rfl, rfl⟩, ha, hb⟩ := hlink
    · rcases linked_place free alone symm ⟨hadj, ha, hb⟩ with hlink | ⟨rfl, rfl⟩
      · rw [Function.update_of_ne (ne_of_free free hlink.2.1),
          Function.update_of_ne (ne_of_free free hlink.2.2), h.linked hlink]
      · rfl
    · rw [Function.update_self, Function.update_of_ne hdv]
    · rw [Function.update_self, Function.update_of_ne hdv]
  · by_cases hav : a = v <;> by_cases hbv : b = v
    · rw [hav, hbv]
      exact self_mem_group
    · obtain rfl : k = c := Option.some.inj ((place_self s k v).symm.trans (hav ▸ ha))
      rw [hav, Function.update_self, Function.update_of_ne hbv] at hg
      rw [hav]
      exact mem_group_trans hvd (grow hd hg)
    · rw [hbv, Function.update_self, Function.update_of_ne hav] at hg
      rw [place_of_ne hav] at ha
      obtain rfl : k = c := Option.some.inj ((h.color hg.symm hd).symm.trans ha)
      rw [hbv]
      exact mem_group_trans (grow ha hg) hdv'
    · rw [Function.update_of_ne hav, Function.update_of_ne hbv] at hg
      rw [place_of_ne hav] at ha
      exact grow ha hg

end Place

end Labels

end Verif.Go
