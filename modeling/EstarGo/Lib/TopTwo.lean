import Mathlib.Order.Lattice
import Mathlib.Data.List.Induction

/-!
# The two greatest entries of a list

One pass over a list keeps the greatest entry so far and the greatest of the
others, both from a value `low` below all entries.

## Main results

* `topTwo_spec`: what the pass ends with, one occurrence of the first and
  nothing else above the second.
* `exists_leader_of_lt`: where the two differ there is one leader.

The first may occur twice; then it is the second as well.  So a gap between the
two is what shows that the first is the value of a single entry, and it is by
this gap that the leader is ahead of each of the others.
-/

namespace Verif

universe u

variable {α : Type u} [LinearOrder α]

/-- One round of the pass.  An entry above the first moves that to the second
place; one between the two takes the second place. -/
def rankNext (top : α × α) (n : α) : α × α :=
  if top.1 < n then (n, top.1) else if top.2 < n then (top.1, n) else top

/-- The pass over the list, from two copies of the value below it. -/
def topTwo (low : α) (ns : List α) : α × α := ns.foldl rankNext (low, low)

theorem topTwo_append_singleton (low : α) (ns : List α) (n : α) :
    topTwo low (ns ++ [n]) = rankNext (topTwo low ns) n := by
  rw [topTwo, List.foldl_append]
  rfl

/-- What the pass knows of the entries it has seen: where the first stands, and
that no other exceeds the second. -/
inductive Ranks (low : α) : List α → α × α → Prop
  | none : Ranks low [] (low, low)
  | some (pre post : List α) (first second : α) (le : second ≤ first)
      (others : ∀ m ∈ pre ++ post, m ≤ second) :
      Ranks low (pre ++ first :: post) (first, second)

/-- A round keeps it, whether the entry is above the first, between the two, or
below. -/
theorem Ranks.next {low : α} {ns : List α} {top : α × α} (h : Ranks low ns top) {n : α}
    (above : low < n) : Ranks low (ns ++ [n]) (rankNext top n) := by
  cases h with
  | none =>
      rw [rankNext, if_pos above]
      exact .some [] [] n low above.le (by simp)
  | some pre post first second le others =>
      rw [rankNext]
      split
      · -- the new entry leads, and the old leader is one of the others
        rename_i lt
        refine .some (pre ++ first :: post) [] n first (le_of_lt lt) fun m hm => ?_
        have hm : m ∈ pre ++ post ∨ m = first := by
          simp only [List.append_nil, List.mem_append, List.mem_cons] at hm ⊢
          tauto
        rcases hm with hm | rfl
        · exact (others m hm).trans le
        · exact le_rfl
      · rename_i notLt
        have hn : n ≤ first := not_lt.mp notLt
        rw [List.append_assoc, List.cons_append]
        split
        · rename_i lt
          refine .some pre (post ++ [n]) first n hn fun m hm => ?_
          rw [← List.append_assoc, List.mem_append, List.mem_singleton] at hm
          rcases hm with hm | rfl
          · exact (others m hm).trans (le_of_lt lt)
          · exact le_rfl
        · rename_i notLt'
          refine .some pre (post ++ [n]) first second le fun m hm => ?_
          rw [← List.append_assoc, List.mem_append, List.mem_singleton] at hm
          rcases hm with hm | rfl
          · exact others m hm
          · exact not_lt.mp notLt'

/-- **What the pass ends with**, where all entries are above the value it starts
from. -/
theorem topTwo_spec {low : α} {ns : List α} (above : ∀ n ∈ ns, low < n) :
    Ranks low ns (topTwo low ns) := by
  induction ns using List.reverseRecOn with
  | nil => exact .none
  | append_singleton ns n ih =>
      rw [topTwo_append_singleton]
      exact (ih fun m hm => above m (List.mem_append_left _ hm)).next
        (above n (List.mem_append_right _ (List.mem_singleton_self n)))

/-- A first above the second is the value of one entry, and the others are at
most the second. -/
theorem exists_leader_of_lt {ι : Type*} {low : α} {value : ι → α} {entries : List ι}
    (above : ∀ c ∈ entries, low < value c)
    (lt : (topTwo low (entries.map value)).2 < (topTwo low (entries.map value)).1) :
    ∃ leader ∈ entries, value leader = (topTwo low (entries.map value)).1 ∧
      ∀ c ∈ entries, c ≠ leader → value c ≤ (topTwo low (entries.map value)).2 := by
  have spec : Ranks low (entries.map value) (topTwo low (entries.map value)) :=
    topTwo_spec (by simpa using above)
  generalize topTwo low (entries.map value) = top at spec lt ⊢
  generalize hns : entries.map value = ns at spec
  cases spec with
  | none => exact absurd lt (lt_irrefl low)
  | some pre post first second le others =>
      obtain ⟨before, rest, rfl, hpre, hrest⟩ := List.map_eq_append_iff.mp hns
      obtain ⟨leader, after, rfl, hfirst, hpost⟩ := List.map_eq_cons_iff.mp hrest
      refine ⟨leader, by simp, hfirst, fun c hc ne => others (value c) ?_⟩
      rw [← hpre, ← hpost, ← List.map_append]
      refine List.mem_map_of_mem ?_
      simp only [List.mem_append, List.mem_cons] at hc ⊢
      tauto

end Verif
