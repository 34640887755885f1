import Mathlib.Data.Nat.Notation
import Mathlib.Data.List.Basic

/-!
# A queue with a capacity

`BoundedFifo` is a list of items, the oldest first, that is never longer than
its capacity.  `Held` says how a ring of cells stores such a list: from one cell
on, going round at the end.

## Main definitions

* `BoundedFifo`, `serve`, `run` — the queue, what it answers to a call, and to a
  sequence of calls.
* `accepted`, `delivered` — the items that went in and came out, read off the
  calls and their answers.
* `slot`, `Held` — the cells of a ring, and the items they hold.

## Main results

* `run_conserved`: what was held and what was accepted is what was delivered and
  is held.
* `Held.push`, `Held.pop`: a cell written behind the last one, and the first one
  dropped.

## Design notes

**Calls and replies are data.**  A queue is known by what it answers, so two
queues are the same when they give the same list of replies to every list of
calls.  Conservation is stated of these lists alone, and thus holds of whatever
answers as the queue does.

**A ring of `n` cells holds `n` items.**  Where the first and the last cell
meet, an empty ring and a full one look alike by their indices; a program has to
keep more than these two.
-/

namespace Verif

universe u

variable {α : Type u}

/-- The items held, the oldest first, and never more than the capacity. -/
structure BoundedFifo (α : Type u) where
  capacity : ℕ
  items : List α
  length_le : items.length ≤ capacity

namespace BoundedFifo

/-- A call on a queue.  The last one changes the capacity, which is done only
while nothing is held. -/
inductive Call (α : Type u) where
  | push (a : α)
  | pop
  | isEmpty
  | setCapacity (n : ℕ)
  deriving DecidableEq, Repr

/-- What a call answers. -/
inductive Reply (α : Type u) where
  | pushed (accepted : Bool)
  | popped (item : Option α)
  | empty (answer : Bool)
  | done
  deriving DecidableEq, Repr

/-- The queue that holds nothing. -/
def empty (n : ℕ) : BoundedFifo α := ⟨n, [], Nat.zero_le n⟩

/-- One more item, where there is room for it. -/
def push (f : BoundedFifo α) (a : α) : BoundedFifo α × Bool :=
  (⟨f.capacity, if f.items.length < f.capacity then f.items ++ [a] else f.items, by
      split
      · rw [List.length_append]
        assumption
      · exact f.length_le⟩,
    f.items.length < f.capacity)

/-- The oldest item, where one is held. -/
def pop (f : BoundedFifo α) : BoundedFifo α × Option α :=
  (⟨f.capacity, f.items.tail,
    by rw [List.length_tail]; exact Nat.le_trans (Nat.sub_le _ _) f.length_le⟩,
    f.items.head?)

/-- Another capacity, where nothing is held.  Otherwise the call does nothing,
so no item is lost by it. -/
def setCapacity (f : BoundedFifo α) (n : ℕ) : BoundedFifo α :=
  if f.items.isEmpty then empty n else f

@[simp] theorem push_capacity (f : BoundedFifo α) (a : α) :
    (f.push a).1.capacity = f.capacity := rfl

theorem push_items (f : BoundedFifo α) (a : α) :
    (f.push a).1.items = if f.items.length < f.capacity then f.items ++ [a] else f.items := rfl

theorem push_snd (f : BoundedFifo α) (a : α) :
    (f.push a).2 = decide (f.items.length < f.capacity) := rfl

@[simp] theorem pop_capacity (f : BoundedFifo α) : f.pop.1.capacity = f.capacity := rfl

@[simp] theorem pop_items (f : BoundedFifo α) : f.pop.1.items = f.items.tail := rfl

@[simp] theorem pop_snd (f : BoundedFifo α) : f.pop.2 = f.items.head? := rfl

/-- The answer to a call, and the queue after it.  A call that cannot be met
says so and changes nothing. -/
def serve (f : BoundedFifo α) : Call α → BoundedFifo α × Reply α
  | .push a => ((f.push a).1, .pushed (f.push a).2)
  | .pop => (f.pop.1, .popped f.pop.2)
  | .isEmpty => (f, .empty f.items.isEmpty)
  | .setCapacity n => (f.setCapacity n, .done)

/-- The answers to a sequence of calls, and the queue after them. -/
def run (f : BoundedFifo α) : List (Call α) → BoundedFifo α × List (Reply α)
  | [] => (f, [])
  | call :: rest =>
      (((f.serve call).1.run rest).1, (f.serve call).2 :: ((f.serve call).1.run rest).2)

/-! ## What goes in comes out -/

/-- The items of the calls that were accepted, in order. -/
def accepted : List (Call α) → List (Reply α) → List α
  | .push a :: calls, .pushed true :: replies => a :: accepted calls replies
  | _ :: calls, _ :: replies => accepted calls replies
  | _, _ => []

/-- The items that were answered, in order. -/
def delivered (replies : List (Reply α)) : List α :=
  replies.flatMap fun
    | .popped (some a) => [a]
    | _ => []

/-- The item one call was accepted with. -/
theorem accepted_cons (call : Call α) (reply : Reply α) (calls : List (Call α))
    (replies : List (Reply α)) :
    accepted (call :: calls) (reply :: replies) =
      accepted [call] [reply] ++ accepted calls replies := by
  cases call with
  | push a =>
      cases reply with
      | pushed answer => cases answer <;> rfl
      | popped item => rfl
      | empty answer => rfl
      | done => rfl
  | pop => rfl
  | isEmpty => rfl
  | setCapacity n => rfl

theorem delivered_cons (reply : Reply α) (replies : List (Reply α)) :
    delivered (reply :: replies) = delivered [reply] ++ delivered replies := by
  simp [delivered]

/-- One call puts an item behind those held, or takes the first of them, or
neither. -/
theorem serve_conserved (f : BoundedFifo α) (call : Call α) :
    f.items ++ accepted [call] [(f.serve call).2] =
      delivered [(f.serve call).2] ++ (f.serve call).1.items := by
  cases call with
  | push a =>
      by_cases h : f.items.length < f.capacity <;>
        simp [serve, push_items, push_snd, accepted, delivered, h]
  | pop =>
      cases h : f.items <;> simp [serve, accepted, delivered, h]
  | isEmpty => simp [serve, accepted, delivered]
  | setCapacity n =>
      cases h : f.items <;> simp [serve, setCapacity, empty, accepted, delivered, h]

/-- **Conservation.**  What was held and what was accepted, in this order, is
what was delivered and what is held.  So nothing is lost, doubled or
overtaken. -/
theorem run_conserved (f : BoundedFifo α) (calls : List (Call α)) :
    f.items ++ accepted calls (f.run calls).2 =
      delivered (f.run calls).2 ++ (f.run calls).1.items := by
  induction calls generalizing f with
  | nil => simp [run, accepted, delivered]
  | cons call rest ih =>
      have hstep := serve_conserved f call
      have hrest := ih (f.serve call).1
      simp only [run]
      rw [accepted_cons, delivered_cons, ← List.append_assoc, hstep, List.append_assoc, hrest,
        List.append_assoc]

end BoundedFifo

/-! ## A ring of cells

A program that stores a queue in an array goes round at its end.  The lemmas
below count places by additions that go past the end once, which is how far an
index can be ahead of another. -/

/-- The cell `i` places after the cell `h`, in a ring of `n` cells.  It goes
round once; a program that counts further has to take the remainder itself. -/
def slot (n h i : ℕ) : ℕ := if h + i < n then h + i else h + i - n

theorem slot_lt {n h i : ℕ} (hh : h < n) (hi : i ≤ n) : slot n h i < n := by
  unfold slot
  split <;> omega

theorem slot_zero {n h : ℕ} (hh : h < n) : slot n h 0 = h := by
  simp [slot, hh]

theorem slot_slot_one {n h i : ℕ} (hh : h < n) (hi : i < n) :
    slot n (slot n h i) 1 = slot n h (i + 1) := by
  unfold slot
  split <;> split <;> split <;> omega

theorem slot_one_slot {n h i : ℕ} (hh : h < n) (hi : i < n) :
    slot n (slot n h 1) i = slot n h (i + 1) := by
  unfold slot
  split <;> split <;> split <;> omega

/-- Less than a round apart, the cells differ, so an item is not overwritten
while there is room. -/
theorem slot_ne {n h i j : ℕ} (hij : i < j) (hj : j < n) : slot n h i ≠ slot n h j := by
  unfold slot
  split <;> split <;> omega

/-- A whole round comes back to the first cell, a part of one does not. -/
theorem slot_eq_self_iff {n h i : ℕ} (hi : 0 < i) :
    slot n h i = h ↔ i = n := by
  unfold slot
  split
  · constructor <;> intro <;> omega
  · constructor <;> intro <;> omega

/-- The cells from `h` on hold the items.  What the other cells hold is not
asked for. -/
structure Held (cells : List α) (h : ℕ) (items : List α) : Prop where
  lt : h < cells.length
  le : items.length ≤ cells.length
  get : ∀ i < items.length, cells[slot cells.length h i]? = items[i]?

namespace Held

variable {cells items : List α} {h : ℕ} {a : α}

/-- One item, in the first cell, whatever the cells held before. -/
theorem single (hcells : 0 < cells.length) : Held (cells.set 0 a) 0 [a] := by
  refine ⟨by rwa [List.length_set], by rwa [List.length_set], ?_⟩
  intro i hi
  have hzero : i = 0 := Nat.lt_one_iff.mp hi
  rw [hzero, slot_zero (by rwa [List.length_set])]
  simp [hcells]

/-- **One more item**, in the cell behind the last one. -/
theorem push (held : Held cells h items) (room : items.length < cells.length) :
    Held (cells.set (slot cells.length h items.length) a) h (items ++ [a]) := by
  refine ⟨by rw [List.length_set]; exact held.lt, ?_, ?_⟩
  · rw [List.length_set, List.length_append]
    exact room
  · intro i hi
    rw [List.length_append, List.length_singleton] at hi
    rw [List.length_set]
    rcases Nat.lt_succ_iff_lt_or_eq.mp hi with hold | rfl
    · rw [List.getElem?_set_ne (slot_ne hold room).symm, held.get i hold,
        List.getElem?_append_left hold]
    · rw [List.getElem?_concat_length, List.getElem?_set_self (slot_lt held.lt held.le)]

/-- **The oldest item** is in the first cell; the others start behind it. -/
theorem pop (held : Held cells h (a :: items)) :
    cells[h]? = some a ∧ Held cells (slot cells.length h 1) items := by
  have hlen : items.length + 1 ≤ cells.length := held.le
  refine ⟨?_, slot_lt held.lt (by omega), by omega, ?_⟩
  · have hget := held.get 0 (Nat.succ_pos _)
    rwa [slot_zero held.lt] at hget
  · intro i hi
    rw [slot_one_slot held.lt (by omega), held.get (i + 1) (Nat.succ_lt_succ hi),
      List.getElem?_cons_succ]

end Held

end Verif
