import Mathlib.Data.Finset.Card
import Mathlib.Data.Finset.Dedup
import Mathlib.Logic.Function.Iterate
import Mathlib.Logic.Relation

/-!
# Flood fill

`flood` grows a set of points within a list of points, by neighbours, as many
times as the list is long.

## Main results

* `stopped_flood`: that is often enough, since a round that adds nothing is the
  last one that could.
* `mem_flood_iff`: the fill reaches exactly what is connected to its start.

## Design notes

**Bounded rounds.**  The fill has no worklist and no test for its end.  It is
run for a number of rounds that is known in advance, so it is structurally
recursive and can be evaluated, and that the number is enough is a theorem: a
fill that goes on has more points than rounds, and it stays within its list.
-/

namespace Verif

universe u

variable {α : Type u} [DecidableEq α] (neighbors : α → List α)

/-- The points of a list that are in the set or next to it.  One round looks at
each point of the list once. -/
def grow (among set : List α) : List α :=
  among.filter fun c => c ∈ set || (neighbors c).any (· ∈ set)

/-- Grow the start as often as there are points.  The start has to be within the
list, or the first round drops what is not. -/
def flood (among start : List α) : List α := (grow neighbors among)^[among.length] start

/-- A point of the list, next to the point before it. -/
def Spreads (among : List α) (c d : α) : Prop := d ∈ among ∧ c ∈ neighbors d

/-- A set that growth does not leave: it has all neighbours of its points that
are in the list. -/
def Stopped (among set : List α) : Prop := ∀ c ∈ set, ∀ d, Spreads neighbors among c d → d ∈ set

variable {neighbors} {among start set : List α} {c d : α} {n : ℕ}

theorem mem_grow : c ∈ grow neighbors among set ↔
    c ∈ among ∧ (c ∈ set ∨ ∃ d ∈ neighbors c, d ∈ set) := by
  simp [grow]

theorem grow_subset : grow neighbors among set ⊆ among := fun _ h => (mem_grow.mp h).1

/-! ## The rounds of a fill

Each round contains the one before it, so the number of points either grows or
stays as it is for good. -/

theorem round_subset (sub : start ⊆ among) (n : ℕ) :
    (grow neighbors among)^[n] start ⊆ among := by
  cases n with
  | zero => exact sub
  | succ n =>
      rw [Function.iterate_succ_apply']
      exact grow_subset

/-- A round keeps the points it has, and adds those that the fill spreads to
from one of them. -/
theorem mem_round_succ (sub : start ⊆ among) :
    d ∈ (grow neighbors among)^[n + 1] start ↔ d ∈ (grow neighbors among)^[n] start ∨
      ∃ c ∈ (grow neighbors among)^[n] start, Spreads neighbors among c d := by
  rw [Function.iterate_succ_apply', mem_grow]
  constructor
  · rintro ⟨hd, h | ⟨c, hc, h⟩⟩
    · exact .inl h
    · exact .inr ⟨c, h, hd, hc⟩
  · rintro (h | ⟨c, h, hd, hc⟩)
    · exact ⟨round_subset sub n h, .inl h⟩
    · exact ⟨hd, .inr ⟨c, hc, h⟩⟩

/-- A fill that has stopped does not go on: the next round has stopped as
well. -/
theorem Stopped.next (sub : start ⊆ among)
    (stopped : Stopped neighbors among ((grow neighbors among)^[n] start)) :
    Stopped neighbors among ((grow neighbors among)^[n + 1] start) := by
  intro c hc d hspreads
  refine (mem_round_succ sub).mpr (.inl ?_)
  rcases (mem_round_succ sub).mp hc with h | ⟨b, hb, h⟩
  · exact stopped c h d hspreads
  · exact stopped c (stopped b hb c h) d hspreads

/-- A round of a fill that has not stopped adds a point. -/
theorem card_round_lt (sub : start ⊆ among)
    (going : ¬ Stopped neighbors among ((grow neighbors among)^[n] start)) :
    ((grow neighbors among)^[n] start).toFinset.card <
      ((grow neighbors among)^[n + 1] start).toFinset.card := by
  unfold Stopped at going
  push Not at going
  obtain ⟨c, hc, d, hspreads, hd⟩ := going
  refine Finset.card_lt_card ⟨fun e he => ?_, fun hsub => hd ?_⟩
  · rw [List.mem_toFinset] at he ⊢
    exact (mem_round_succ sub).mpr (.inl he)
  · rw [← List.mem_toFinset]
    exact hsub (List.mem_toFinset.mpr ((mem_round_succ sub).mpr (.inr ⟨c, hc, hspreads⟩)))

/-- The fill has stopped, or it has more points than rounds.  This is the
induction on rounds that bounds their number. -/
theorem stopped_or_lt_card (sub : start ⊆ among) (ne : start ≠ []) (n : ℕ) :
    Stopped neighbors among ((grow neighbors among)^[n] start) ∨
      n < ((grow neighbors among)^[n] start).toFinset.card := by
  induction n with
  | zero => exact .inr (Finset.card_pos.mpr ((List.toFinset_nonempty_iff start).mpr ne))
  | succ n ih =>
      rcases ih with stopped | hlt
      · exact .inl (stopped.next sub)
      · by_cases stopped : Stopped neighbors among ((grow neighbors among)^[n] start)
        · exact .inl (stopped.next sub)
        · exact .inr (Nat.lt_of_le_of_lt hlt (card_round_lt sub stopped))

/-- **The fill stops**, since otherwise it would have more points than the list
it stays in. -/
theorem stopped_flood (sub : start ⊆ among) (ne : start ≠ []) :
    Stopped neighbors among (flood neighbors among start) := by
  have rounds : Stopped neighbors among (flood neighbors among start) ∨
      among.length < (flood neighbors among start).toFinset.card := stopped_or_lt_card sub ne _
  rcases rounds with stopped | hlt
  · exact stopped
  · have hsub : (flood neighbors among start).toFinset ⊆ among.toFinset := fun c hc =>
      List.mem_toFinset.mpr (round_subset sub _ (List.mem_toFinset.mp hc))
    have hle := (Finset.card_le_card hsub).trans (List.toFinset_card_le among)
    exact absurd hlt (Nat.not_lt_of_le hle)

theorem subset_round (sub : start ⊆ among) (n : ℕ) :
    start ⊆ (grow neighbors among)^[n] start := by
  induction n with
  | zero => exact fun _ h => h
  | succ n ih => exact fun c h => (mem_round_succ sub).mpr (.inl (ih h))

/-- What is in a round is connected to the start, by a path that the rounds have
gone. -/
theorem reached_of_mem_round (sub : start ⊆ among) (h : d ∈ (grow neighbors among)^[n] start) :
    ∃ c ∈ start, Relation.ReflTransGen (Spreads neighbors among) c d := by
  induction n generalizing d with
  | zero => exact ⟨d, h, .refl⟩
  | succ n ih =>
      rcases (mem_round_succ sub).mp h with h | ⟨b, hb, hspreads⟩
      · exact ih h
      · obtain ⟨c, hc, path⟩ := ih hb
        exact ⟨c, hc, path.tail hspreads⟩

/-- **The fill reaches exactly what is connected to its start** by paths within
the list. -/
theorem mem_flood_iff (sub : start ⊆ among) (ne : start ≠ []) :
    d ∈ flood neighbors among start ↔
      ∃ c ∈ start, Relation.ReflTransGen (Spreads neighbors among) c d := by
  refine ⟨reached_of_mem_round sub, ?_⟩
  rintro ⟨c, hc, path⟩
  induction path with
  | refl => exact subset_round sub _ hc
  | tail _ hspreads ih => exact stopped_flood sub ne _ ih _ hspreads

end Verif
