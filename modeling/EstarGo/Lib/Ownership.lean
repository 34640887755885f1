import Mathlib.Data.List.Basic
import Mathlib.Logic.Function.Basic

/-!
# Owning pointers

Cells that each own what they point to: `alloc` gives a cell a new object,
`reset` empties a cell, and `swap` exchanges two.  What a cell owned when it was
emptied or overwritten is freed.

No object then has two owners, and nothing owned is freed: `Owners.Sound` holds
whatever is done in whatever order.  So a cell cannot be left dangling, only
empty.

## Main results

* `Sound.alloc`, `Sound.reset`, `Sound.swap`: the operations keep the ownership.

## Design notes

**Objects are numbers** in the order in which they are made, and `freed` lists
those that are gone.  An object that is freed twice would be in the list twice;
since it is freed by its owner and then has none, this cannot happen.

**Interleaving.**  Each operation is atomic here.  Threads that use the
operations of one cell one after the other, with steps of other threads between,
thus keep the ownership; what they may lose is the object they meant, since the
cell can hold another one by then.
-/

namespace Verif

variable {C : Type*}

/-- The object each cell owns, the number of the next object, and the objects
freed. -/
structure Owners (C : Type*) where
  cell : C → Option ℕ
  next : ℕ
  freed : List ℕ

namespace Owners

variable [DecidableEq C] (o : Owners C)

/-- `c = new`.  What the cell owned is freed after the new object is there. -/
def alloc (c : C) : Owners C where
  cell := Function.update o.cell c (some o.next)
  next := o.next + 1
  freed := (o.cell c).toList ++ o.freed

/-- `c.reset()`.  An empty cell stays empty, and nothing is freed. -/
def reset (c : C) : Owners C where
  cell := Function.update o.cell c none
  next := o.next
  freed := (o.cell c).toList ++ o.freed

/-- `c.swap(d)`.  Nothing is freed: both objects keep an owner. -/
def swap (c d : C) : Owners C where
  cell := Function.update (Function.update o.cell c (o.cell d)) d (o.cell c)
  next := o.next
  freed := o.freed

omit [DecidableEq C] in
/-- Each object has one owner, and what is owned was made and not freed. -/
structure Sound (o : Owners C) : Prop where
  unique : ∀ c d n, o.cell c = some n → o.cell d = some n → c = d
  live : ∀ c n, o.cell c = some n → n < o.next ∧ n ∉ o.freed
  freed_lt : ∀ n ∈ o.freed, n < o.next

variable {o} {c d : C}

@[simp] theorem cell_alloc_self : (o.alloc c).cell c = some o.next := Function.update_self ..

@[simp] theorem cell_alloc_of_ne (h : d ≠ c) : (o.alloc c).cell d = o.cell d :=
  Function.update_of_ne h ..

@[simp] theorem cell_reset_self : (o.reset c).cell c = none := Function.update_self ..

@[simp] theorem cell_reset_of_ne (h : d ≠ c) : (o.reset c).cell d = o.cell d :=
  Function.update_of_ne h ..

theorem cell_swap_left : (o.swap c d).cell c = o.cell d := by
  by_cases h : c = d
  · rw [h]
    exact Function.update_self ..
  · exact (Function.update_of_ne h ..).trans (Function.update_self ..)

@[simp] theorem cell_swap_right : (o.swap c d).cell d = o.cell c := Function.update_self ..

@[simp] theorem cell_swap_of_ne {e : C} (hc : e ≠ c) (hd : e ≠ d) :
    (o.swap c d).cell e = o.cell e :=
  (Function.update_of_ne hd ..).trans (Function.update_of_ne hc ..)

/-- What a cell owns after a swap, a cell owned before. -/
theorem exists_cell_of_swap {e : C} {n : ℕ} (h : (o.swap c d).cell e = some n) :
    o.cell (if e = d then c else if e = c then d else e) = some n := by
  by_cases hd : e = d
  · rw [if_pos hd]
    rwa [hd, cell_swap_right] at h
  · rw [if_neg hd]
    by_cases hc : e = c
    · rw [if_pos hc]
      rwa [hc, cell_swap_left] at h
    · rw [if_neg hc]
      rwa [cell_swap_of_ne hc hd] at h

namespace Sound

/-- Exchanging two cells keeps the ownership. -/
theorem swap (h : o.Sound) (c d : C) : (o.swap c d).Sound := by
  refine ⟨fun e e' n he he' => ?_, fun e n he => h.live _ n (exists_cell_of_swap he), h.freed_lt⟩
  have same := h.unique _ _ n (exists_cell_of_swap he) (exists_cell_of_swap he')
  grind

omit [DecidableEq C] in
/-- What `c` owned is freed, and is owned no more; the other cells own none of
it. -/
theorem notMem_of_ne (h : o.Sound) {e : C} {n : ℕ} (ne : e ≠ c) (he : o.cell e = some n) :
    n ∉ (o.cell c).toList ++ o.freed := by
  rw [List.mem_append, Option.mem_toList]
  rintro (hc | freed)
  · exact ne (h.unique e c n he hc)
  · exact (h.live e n he).2 freed

omit [DecidableEq C] in
/-- What is freed has been made. -/
theorem lt_of_mem (h : o.Sound) {n : ℕ} (hn : n ∈ (o.cell c).toList ++ o.freed) : n < o.next := by
  rw [List.mem_append, Option.mem_toList] at hn
  exact hn.elim (fun hc => (h.live c n hc).1) (h.freed_lt n)

/-- Emptying a cell keeps the ownership. -/
theorem reset (h : o.Sound) (c : C) : (o.reset c).Sound := by
  have owned {e : C} {n : ℕ} (he : (o.reset c).cell e = some n) : e ≠ c ∧ o.cell e = some n := by
    by_cases ne : e = c
    · rw [ne, cell_reset_self] at he
      cases he
    · exact ⟨ne, by rwa [cell_reset_of_ne ne] at he⟩
  refine ⟨fun e e' n he he' => h.unique e e' n (owned he).2 (owned he').2, fun e n he => ?_,
    fun n hn => h.lt_of_mem hn⟩
  exact ⟨(h.live e n (owned he).2).1, h.notMem_of_ne (owned he).1 (owned he).2⟩

/-- A new object has no other owner, so giving it to a cell keeps the
ownership. -/
theorem alloc (h : o.Sound) (c : C) : (o.alloc c).Sound := by
  have owned {e : C} {n : ℕ} (he : (o.alloc c).cell e = some n) :
      e = c ∧ n = o.next ∨ e ≠ c ∧ o.cell e = some n := by
    by_cases ne : e = c
    · rw [ne, cell_alloc_self] at he
      exact .inl ⟨ne, (Option.some.inj he).symm⟩
    · exact .inr ⟨ne, by rwa [cell_alloc_of_ne ne] at he⟩
  refine ⟨fun e e' n he he' => ?_, fun e n he => ?_, fun n hn => Nat.lt_succ_of_lt (h.lt_of_mem hn)⟩
  · rcases owned he with ⟨rfl, rfl⟩ | ⟨-, old⟩ <;> rcases owned he' with ⟨rfl, new⟩ | ⟨-, old'⟩
    · rfl
    · exact absurd (h.live e' _ old').1 (Nat.lt_irrefl _)
    · exact absurd (h.live e _ (new ▸ old)).1 (Nat.lt_irrefl _)
    · exact h.unique e e' n old old'
  · rcases owned he with ⟨rfl, rfl⟩ | ⟨ne, old⟩
    · exact ⟨Nat.lt_succ_self _, fun hn => absurd (h.lt_of_mem hn) (Nat.lt_irrefl _)⟩
    · exact ⟨Nat.lt_succ_of_lt (h.live e n old).1, h.notMem_of_ne ne old⟩

end Sound

end Owners

end Verif
