import Mathlib.Order.Nat
import Mathlib.Data.Nat.Notation

/-!
# Forests given by father pointers

A forest is a partial map `father`.  `climb father k u` is the node `k` links
above `u`, and `AtOrBelow father u v` says that climbing from `u` reaches `v`.
The links of a *descending* forest go to smaller nodes, so it has no cycle.

## Main results

* `atOrBelow_total`: the nodes above one node are on one line.
* `exists_child_of_below`: what is below a node is at or below one of its
  children.
* `climb_congr`: a forest that agrees on a set closed under `father` climbs
  alike.
* `KeepsBelow.atOrBelow_iff`: so does one that keeps the links below a node, as
  far as there.
* `reaches_iff`: in a descending forest of numbers the order is decided by
  climbing.

## Design notes

**Links go up.**  A program that stores children in lists and a father in each
child has the tree twice; the father is the half that every node has exactly
once, so the order is defined by it alone, and the lists of children are related
to it by an invariant of the program.

**Freed nodes.**  A father that is gone is a father of `none`.  Deleting nodes
thus only takes links away, and `KeepsBelow` is what such a change keeps of the
part of the forest that is still used.
-/

namespace Verif

universe u

variable {ι : Type u} {father father' : ι → Option ι} {a b c : ι} {j k : ℕ}

/-- The node `k` links above a node; `none` where the way up ends before. -/
def climb (father : ι → Option ι) : ℕ → ι → Option ι
  | 0, a => some a
  | k + 1, a => (father a).bind (climb father k)

/-- Climbing from `a` reaches `b`.  In a forest without cycles this is a partial
order, with the roots on top. -/
def AtOrBelow (father : ι → Option ι) (a b : ι) : Prop := ∃ k, climb father k a = some b

/-- Climbing from `a` by at least one link reaches `b`.  The first link is
written out, since most arguments go from a node to its father. -/
def Below (father : ι → Option ι) (a b : ι) : Prop :=
  ∃ f, father a = some f ∧ AtOrBelow father f b

@[simp] theorem climb_zero : climb father 0 a = some a := rfl

theorem climb_succ : climb father (k + 1) a = (father a).bind (climb father k) := rfl

/-- A climb of `j + k` links is one of `j` links and then one of `k`. -/
theorem climb_add : climb father (j + k) a = (climb father j a).bind (climb father k) := by
  induction j generalizing a with
  | zero => simp
  | succ j ih =>
      rw [Nat.add_right_comm, climb_succ, climb_succ]
      cases father a with
      | none => rfl
      | some f => exact ih

theorem climb_succ_of_father (h : father a = some b) :
    climb father (k + 1) a = climb father k b := by
  rw [climb_succ, h]
  rfl

/-! ## The order -/

@[simp] theorem AtOrBelow.refl : AtOrBelow father a a := ⟨0, rfl⟩

/-- Climbing on from where a climb has come to. -/
theorem AtOrBelow.trans (h : AtOrBelow father a b) (h' : AtOrBelow father b c) :
    AtOrBelow father a c := by
  obtain ⟨j, hj⟩ := h
  obtain ⟨k, hk⟩ := h'
  exact ⟨j + k, by rw [climb_add, hj]; exact hk⟩

/-- At or below a node is either the node itself or below it. -/
theorem atOrBelow_iff : AtOrBelow father a b ↔ a = b ∨ Below father a b := by
  constructor
  · rintro ⟨k, hk⟩
    cases k with
    | zero => exact .inl (Option.some.inj hk)
    | succ k =>
        obtain ⟨f, hf, hk⟩ := Option.bind_eq_some_iff.mp hk
        exact .inr ⟨f, hf, k, hk⟩
  · rintro (rfl | ⟨f, hf, k, hk⟩)
    · exact .refl
    · exact ⟨k + 1, by rw [climb_succ_of_father hf, hk]⟩

theorem Below.atOrBelow (h : Below father a b) : AtOrBelow father a b :=
  atOrBelow_iff.mpr (.inr h)

/-- From a node with a father one climbs through that father: there is no other
way up. -/
theorem below_iff_of_father (h : father a = some b) :
    Below father a c ↔ AtOrBelow father b c := by
  constructor
  · rintro ⟨f, hf, hc⟩
    obtain rfl : b = f := Option.some.inj (h.symm.trans hf)
    exact hc
  · exact fun hc => ⟨b, h, hc⟩

theorem not_below_of_none (h : father a = none) : ¬ Below father a b := by
  rintro ⟨f, hf, -⟩
  simp [h] at hf

theorem below_of_father (h : father a = some b) : Below father a b :=
  (below_iff_of_father h).mpr .refl

theorem Below.trans_atOrBelow (h : Below father a b) (h' : AtOrBelow father b c) :
    Below father a c := by
  obtain ⟨f, hf, hb⟩ := h
  exact ⟨f, hf, hb.trans h'⟩

theorem AtOrBelow.trans_below (h : AtOrBelow father a b) (h' : Below father b c) :
    Below father a c := by
  rcases atOrBelow_iff.mp h with rfl | h
  · exact h'
  · exact h.trans_atOrBelow h'.atOrBelow

/-- The last link of a climb leaves a child: what is below a node is at or below
one of the nodes that have it as their father. -/
theorem exists_child_of_below (h : Below father a b) :
    ∃ f, AtOrBelow father a f ∧ father f = some b := by
  obtain ⟨f, hf, k, hk⟩ := h
  induction k generalizing a f with
  | zero =>
      obtain rfl : f = b := Option.some.inj hk
      exact ⟨a, .refl, hf⟩
  | succ k ih =>
      obtain ⟨g, hg, hk⟩ := Option.bind_eq_some_iff.mp hk
      obtain ⟨e, he, hb⟩ := ih g hg hk
      exact ⟨e, (below_of_father hf).atOrBelow.trans he, hb⟩

/-- The nodes above one node are on one line: of any two, one is at or below the
other. -/
theorem atOrBelow_total (hb : AtOrBelow father a b) (hc : AtOrBelow father a c) :
    AtOrBelow father b c ∨ Below father c b := by
  obtain ⟨j, hj⟩ := hb
  induction j generalizing a with
  | zero =>
      obtain rfl : a = b := Option.some.inj hj
      exact .inl hc
  | succ j ih =>
      obtain ⟨f, hf, hj'⟩ := Option.bind_eq_some_iff.mp hj
      rcases atOrBelow_iff.mp hc with rfl | hc
      · exact .inr ⟨f, hf, j, hj'⟩
      · exact ih ((below_iff_of_father hf).mp hc) hj'

/-! ## Descending forests -/

/-- Fathers are smaller than their children, as they are where nodes are
numbered in the order in which they are made. -/
def Descending [LT ι] (father : ι → Option ι) : Prop := ∀ a b, father a = some b → b < a

section Descending

variable [Preorder ι]

/-- Climbing goes to smaller nodes only. -/
theorem AtOrBelow.le (desc : Descending father) (h : AtOrBelow father a b) : b ≤ a := by
  obtain ⟨k, hk⟩ := h
  induction k generalizing a with
  | zero => exact (Option.some.inj hk).ge
  | succ k ih =>
      obtain ⟨f, hf, hk⟩ := Option.bind_eq_some_iff.mp hk
      exact (ih hk).trans (desc a f hf).le

theorem Below.lt (desc : Descending father) (h : Below father a b) : b < a := by
  obtain ⟨f, hf, hb⟩ := h
  exact (hb.le desc).trans_lt (desc a f hf)

/-- A descending forest has no cycle, since a climb along one would end at a
smaller node than itself. -/
theorem not_below_self (desc : Descending father) : ¬ Below father a a :=
  fun h => lt_irrefl _ (h.lt desc)

theorem not_below_of_atOrBelow (desc : Descending father) (h : AtOrBelow father a b) :
    ¬ Below father b a :=
  fun h' => not_below_self desc (h'.trans_atOrBelow h)

end Descending

/-- Decides `AtOrBelow` by climbing at most this many links.  It is a function
of the program's data, so that a definition may use it and a run may be
evaluated. -/
def reaches [DecidableEq ι] (father : ι → Option ι) : ℕ → ι → ι → Bool
  | 0, a, b => a = b
  | fuel + 1, a, b =>
      if a = b then true
      else
        match father a with
        | none => false
        | some f => reaches father fuel f b

/-- Over the naturals, a node has no more nodes above it than its number, so the
number itself is enough fuel. -/
theorem reaches_iff {father : ℕ → Option ℕ} (desc : Descending father) {fuel a b : ℕ}
    (hfuel : a ≤ fuel) : reaches father fuel a b = true ↔ AtOrBelow father a b := by
  rw [atOrBelow_iff]
  induction fuel generalizing a with
  | zero =>
      have none : ¬ Below father a b := fun h => absurd (h.lt desc) (by omega)
      simp [reaches, none]
  | succ fuel ih =>
      rw [reaches]
      split
      · simp [*]
      · rename_i hab
        rw [or_iff_right hab]
        cases hf : father a with
        | none => simp [not_below_of_none hf]
        | some f =>
            have := desc a f hf
            rw [below_iff_of_father hf, atOrBelow_iff]
            exact ih (by omega)

/-! ## Changing the forest -/

/-- On a set closed under `father` on which they agree, two forests climb alike.
The set is the part of a tree that a change has left alone. -/
theorem climb_congr {S : ι → Prop} (closed : ∀ a b, S a → father a = some b → S b)
    (agree : ∀ a, S a → father' a = father a) (ha : S a) :
    climb father' k a = climb father k a := by
  induction k generalizing a with
  | zero => rfl
  | succ k ih =>
      rw [climb_succ, climb_succ, agree a ha]
      cases hf : father a with
      | none => rfl
      | some f => exact ih (closed a f ha hf)

/-- So the nodes of such a set are at or below the same nodes in both
forests. -/
theorem atOrBelow_congr {S : ι → Prop} (closed : ∀ a b, S a → father a = some b → S b)
    (agree : ∀ a, S a → father' a = father a) (ha : S a) :
    AtOrBelow father' a b ↔ AtOrBelow father a b := by
  unfold AtOrBelow
  simp only [climb_congr closed agree ha]

/-- The second forest has no link that the first has not, and keeps those below
a node.  Above and beside the node, links may be gone. -/
structure KeepsBelow (father father' : ι → Option ι) (root : ι) : Prop where
  sub : ∀ a b, father' a = some b → father a = some b
  keeps : ∀ a, Below father a root → father' a = father a

namespace KeepsBelow

variable {root : ι}

/-- What is at or below a node below the root, or the root, is so by the kept
links: the way up passes only nodes below the root. -/
theorem atOrBelow_iff (h : KeepsBelow father father' root) (hb : AtOrBelow father b root) :
    AtOrBelow father' a b ↔ AtOrBelow father a b := by
  constructor
  · rintro ⟨k, hk⟩
    refine ⟨k, ?_⟩
    induction k generalizing a with
    | zero => exact hk
    | succ k ih =>
        obtain ⟨f, hf, hk⟩ := Option.bind_eq_some_iff.mp hk
        rw [climb_succ_of_father (h.sub a f hf)]
        exact ih hk
  · rintro ⟨k, hk⟩
    refine ⟨k, ?_⟩
    induction k generalizing a with
    | zero => exact hk
    | succ k ih =>
        obtain ⟨f, hf, hk⟩ := Option.bind_eq_some_iff.mp hk
        have below : Below father a root := ⟨f, hf, AtOrBelow.trans ⟨k, hk⟩ hb⟩
        rw [climb_succ_of_father ((h.keeps a below).trans hf)]
        exact ih hk

theorem below_iff (h : KeepsBelow father father' root) (hb : AtOrBelow father b root) :
    Below father' a b ↔ Below father a b := by
  constructor
  · rintro ⟨f, hf, above⟩
    exact ⟨f, h.sub a f hf, (h.atOrBelow_iff hb).mp above⟩
  · intro below
    obtain ⟨f, hf, above⟩ := id below
    exact ⟨f, (h.keeps a (below.trans_atOrBelow hb)).trans hf, (h.atOrBelow_iff hb).mpr above⟩

end KeepsBelow

end Verif
