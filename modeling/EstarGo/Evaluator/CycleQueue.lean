import EstarGo.Lib.BoundedFifo
import Mathlib.Data.Int.Notation

/-!
# The ring buffer

`EvalCycleQueue` of `EvalQueue.h`.  Every operation runs under the queue's own
mutex, so a call is one step.  The queue is empty when `head_` is `-1`; the cell
behind the last one is found by adding one and going round at the end.

## Main definitions

* `EvalCycleQueue` — the vector and its three numbers.
* `serve` — a call and its answer.
* `Represents` — the list that a buffer holds.

## Main results

* `serve_refines`: one call, beside the same call on a list with a capacity.
* `run_eq_fifo`: every sequence of calls is answered as by the list with a
  capacity, and no call reaches outside of the buffer.

## Design notes

**The list with a capacity** is the specification, and knows nothing of cells.
The buffer holds it in the cells from `head_` on, which may go round the end,
and each call is matched with the same call on the list.

**Faults.**  An index outside of the vector, and a negative size, are `none`.
The operations are written so that each access is checked, and the result says
that none fails.
-/

namespace EstarGo

open Verif Verif.BoundedFifo

/-- `class EvalCycleQueue<T>`, whose indices are signed numbers.  Both are -1
while nothing is held. -/
structure EvalCycleQueue (T : Type) where
  dataList : List T
  queueSize : ℤ
  head : ℤ
  tail : ℤ
  deriving DecidableEq, Repr

namespace EvalCycleQueue

variable {T : Type}

/-- `data_list_[i]`; `none` outside of the vector. -/
def read (dataList : List T) (i : ℤ) : Option T :=
  if 0 ≤ i then dataList[i.toNat]? else none

/-- `data_list_[i] = value`; `none` outside of the vector. -/
def write (dataList : List T) (i : ℤ) (value : T) : Option (List T) :=
  if 0 ≤ i ∧ i.toNat < dataList.length then some (dataList.set i.toNat value) else none

/-- `std::vector::resize`: new cells hold a default value. -/
def resize [Inhabited T] (dataList : List T) (size : ℕ) : List T :=
  dataList.take size ++ List.replicate (size - dataList.length) default

/-- `SetSize(size)`, which does nothing while items are held; `none` where
`resize` throws on a negative size.  What the cells hold stays there, but
nothing refers to it. -/
def setSize [Inhabited T] (q : EvalCycleQueue T) (size : ℤ) : Option (EvalCycleQueue T) :=
  if q.head < 0 then
    if 0 ≤ size then some ⟨resize q.dataList size.toNat, size, -1, -1⟩ else none
  else some q

/-- The constructor.  `queue_size_` has no value before `SetSize` gives it
one. -/
def new [Inhabited T] (size : ℤ) : Option (EvalCycleQueue T) := setSize ⟨[], 0, -1, -1⟩ size

/-- `index + 1`, going round at the end. -/
def next (q : EvalCycleQueue T) (index : ℤ) : ℤ :=
  if q.queueSize ≤ index + 1 then index + 1 - q.queueSize else index + 1

/-- `TryPush(new_value)`, which returns false where the cell behind the last one
is the first. -/
def tryPush (q : EvalCycleQueue T) (newValue : T) : Option (EvalCycleQueue T × Bool) :=
  if q.head < 0 then
    (write q.dataList 0 newValue).map fun dataList =>
      (⟨dataList, q.queueSize, 0, 0⟩, true)
  else if q.next q.tail = q.head then some (q, false)
  else
    (write q.dataList (q.next q.tail) newValue).map fun dataList =>
      (⟨dataList, q.queueSize, q.head, q.next q.tail⟩, true)

/-- `TryPop(value)`: the value it assigns where it returns true.  With one item
left, both indices go back to -1; the later test for equal indices comes after
that and is never met. -/
def tryPop (q : EvalCycleQueue T) : Option (EvalCycleQueue T × Option T) :=
  if q.head < 0 then some (q, none)
  else if q.head = q.tail then
    (read q.dataList q.head).map fun value =>
      (⟨q.dataList, q.queueSize, -1, -1⟩, some value)
  else
    (read q.dataList q.head).map fun value =>
      (⟨q.dataList, q.queueSize, if q.head = q.tail then -1 else q.next q.head, q.tail⟩,
        some value)

/-- `Empty()`. -/
def isEmpty (q : EvalCycleQueue T) : Bool := q.head < 0

/-- The answer to a call, and the queue after it; `none` where the call goes
wrong. -/
def serve [Inhabited T] (q : EvalCycleQueue T) : Call T → Option (EvalCycleQueue T × Reply T)
  | .push newValue => (q.tryPush newValue).map fun r => (r.1, .pushed r.2)
  | .pop => q.tryPop.map fun r => (r.1, .popped r.2)
  | .isEmpty => some (q, .empty q.isEmpty)
  | .setCapacity size => (q.setSize size).map fun q' => (q', .done)

/-- The answers to a sequence of calls, and the queue after them. -/
def run [Inhabited T] (q : EvalCycleQueue T) :
    List (Call T) → Option (EvalCycleQueue T × List (Reply T))
  | [] => some (q, [])
  | call :: rest =>
      (q.serve call).bind fun r =>
        (r.1.run rest).map fun r' => (r'.1, r.2 :: r'.2)

/-! ## The list a buffer holds

The relation between the numbers of the source and the items of the list. -/

/-- The buffer has a cell for each item there is room for, and holds the items
from `head_` to `tail_`.  A capacity of zero is left out: there the constructor
makes a vector without cells, and the first push writes outside of it. -/
structure Represents (q : EvalCycleQueue T) (f : BoundedFifo T) : Prop where
  size : q.queueSize = f.capacity
  length : q.dataList.length = f.capacity
  pos : 0 < f.capacity
  ends : f.items = [] ∧ q.head = -1 ∧ q.tail = -1 ∨
    ∃ h k : ℕ, f.items.length = k + 1 ∧ q.head = h ∧ q.tail = slot f.capacity h k ∧
      Held q.dataList h f.items

variable {q : EvalCycleQueue T} {f : BoundedFifo T}

/-- Going round is one place on in the ring. -/
theorem next_eq_slot {index : ℕ} (hsize : q.queueSize = f.capacity) :
    q.next index = slot f.capacity index 1 := by
  unfold next slot
  rw [hsize]
  split <;> split <;> omega

/-- A vector has the size it is given. -/
theorem length_resize [Inhabited T] (dataList : List T) (size : ℕ) :
    (resize dataList size).length = size := by
  rw [resize, List.length_append, List.length_take, List.length_replicate]
  omega

/-- A buffer that holds nothing, of any size. -/
theorem represents_setSize [Inhabited T] {size : ℕ} (hsize : 0 < size) (hhead : q.head < 0) :
    ∃ q', q.setSize size = some q' ∧ Represents q' (empty size) := by
  refine ⟨⟨resize q.dataList size, size, -1, -1⟩, ?_, rfl, length_resize _ _, hsize,
    .inl ⟨rfl, rfl, rfl⟩⟩
  simp [setSize, hhead]

/-! ## One call

Each operation, with the same operation on the list. -/

/-- Reading a cell of the vector. -/
theorem read_cell {dataList : List T} {h : ℕ} : read dataList (h : ℤ) = dataList[h]? := by
  simp [read]

theorem write_cell {dataList : List T} {h : ℕ} (hh : h < dataList.length) (value : T) :
    write dataList (h : ℤ) value = some (dataList.set h value) := by
  simp [write, hh]

/-- `Empty` says whether nothing is held. -/
theorem isEmpty_eq (hrep : Represents q f) : q.isEmpty = f.items.isEmpty := by
  rcases hrep.ends with ⟨hitems, hhead, -⟩ | ⟨h, k, hlen, hhead, -, -⟩
  · simp [isEmpty, hhead, hitems]
  · have hne : f.items ≠ [] := List.ne_nil_of_length_pos (by omega)
    have hneg : ¬ (h : ℤ) < 0 := by omega
    simp [isEmpty, hhead, hneg, hne]

/-- The place behind the last item. -/
theorem next_tail {h k : ℕ} (hrep : Represents q f) (hlen : f.items.length = k + 1)
    (hh : h < f.capacity) (htail : q.tail = slot f.capacity h k) :
    q.next q.tail = slot f.capacity h (k + 1) := by
  have hk : k < f.capacity := by
    have := f.length_le
    omega
  rw [htail, next_eq_slot hrep.size, slot_slot_one hh hk]

/-- It is the first item's exactly when there is no room. -/
theorem next_tail_eq_head_iff {h k : ℕ} (hrep : Represents q f)
    (hlen : f.items.length = k + 1) (hh : h < f.capacity) (hhead : q.head = h)
    (htail : q.tail = slot f.capacity h k) :
    q.next q.tail = q.head ↔ ¬ f.items.length < f.capacity := by
  have hle := f.length_le
  rw [next_tail hrep hlen hh htail, hhead, Int.ofNat_inj, slot_eq_self_iff (Nat.succ_pos k)]
  omega

/-- `TryPush` takes the item exactly when there is room for it. -/
theorem tryPush_refines (hrep : Represents q f) (newValue : T) :
    ∃ q', q.tryPush newValue = some (q', (f.push newValue).2) ∧
      Represents q' (f.push newValue).1 := by
  rcases hrep.ends with ⟨hitems, hhead, htail⟩ | ⟨h, k, hlen, hhead, htail, held⟩
  · -- the first item goes into the first cell
    have hroom : f.items.length < f.capacity := by
      rw [hitems]
      exact hrep.pos
    have hcells : 0 < q.dataList.length := hrep.length ▸ hrep.pos
    have hwrite := write_cell hcells newValue
    rw [Int.natCast_zero] at hwrite
    refine ⟨⟨q.dataList.set 0 newValue, q.queueSize, 0, 0⟩, ?_, ?_⟩
    · simp [tryPush, hhead, hwrite, push_snd, hroom]
    · have hpush : (f.push newValue).1.items = [newValue] := by
        rw [push_items, if_pos hroom, hitems, List.nil_append]
      refine ⟨hrep.size, by rw [List.length_set]; exact hrep.length, hrep.pos, .inr ?_⟩
      refine ⟨0, 0, by rw [hpush]; rfl, rfl, by rw [push_capacity, slot_zero hrep.pos]; rfl, ?_⟩
      rw [hpush]
      exact Held.single hcells
  · have hh : h < f.capacity := hrep.length ▸ held.lt
    have hnext := next_tail hrep hlen hh htail
    have hfull := next_tail_eq_head_iff hrep hlen hh hhead htail
    have hneg : ¬ q.head < 0 := by omega
    by_cases hroom : f.items.length < f.capacity
    · -- the cell behind the last one is free
      have hne : q.next q.tail ≠ q.head := fun heq => hfull.mp heq hroom
      have hlast : slot f.capacity h (k + 1) < q.dataList.length := by
        rw [hrep.length]
        exact slot_lt hh (by omega)
      refine ⟨⟨q.dataList.set (slot f.capacity h (k + 1)) newValue, q.queueSize, q.head,
        q.next q.tail⟩, ?_, ?_⟩
      · rw [tryPush, if_neg hneg, if_neg hne, hnext, write_cell hlast, push_snd,
          decide_eq_true hroom]
        rfl
      · have hpush : (f.push newValue).1.items = f.items ++ [newValue] := by
          rw [push_items, if_pos hroom]
        have hheld := held.push (a := newValue) (hrep.length ▸ hroom)
        rw [hrep.length, hlen, ← hpush] at hheld
        refine ⟨hrep.size, by rw [List.length_set]; exact hrep.length, hrep.pos, .inr ?_⟩
        exact ⟨h, k + 1, by rw [hpush, List.length_append, hlen]; rfl, hhead, hnext, hheld⟩
    · -- the cell behind the last one is the first one
      refine ⟨q, ?_, ?_⟩
      · rw [tryPush, if_neg hneg, if_pos (hfull.mpr hroom), push_snd, decide_eq_false hroom]
      · have hpush : (f.push newValue).1.items = f.items := by rw [push_items, if_neg hroom]
        refine ⟨hrep.size, hrep.length, hrep.pos, .inr ⟨h, k, ?_, hhead, htail, ?_⟩⟩
        · rw [hpush, hlen]
        · rw [hpush]
          exact held

/-- `TryPop` gives the oldest item, where one is held. -/
theorem tryPop_refines (hrep : Represents q f) :
    ∃ q', q.tryPop = some (q', f.pop.2) ∧ Represents q' f.pop.1 := by
  rcases hrep.ends with ⟨hitems, hhead, htail⟩ | ⟨h, k, hlen, hhead, htail, held⟩
  · refine ⟨q, ?_, hrep.size, hrep.length, hrep.pos, .inl ⟨?_, hhead, htail⟩⟩
    · simp [tryPop, hhead, hitems]
    · rw [pop_items, hitems, List.tail_nil]
  · have hh : h < f.capacity := hrep.length ▸ held.lt
    have hneg : ¬ q.head < 0 := by omega
    obtain ⟨a, rest, hitems⟩ := List.exists_cons_of_length_eq_add_one hlen
    rw [hitems] at held
    obtain ⟨hcell, hrest⟩ := held.pop
    have hread : read q.dataList q.head = some a := by rw [hhead, read_cell, hcell]
    rw [hitems, List.length_cons, Nat.add_right_cancel_iff] at hlen
    rcases Nat.eq_zero_or_pos k with rfl | hk
    · -- the last item leaves the buffer empty
      have hone : q.head = q.tail := by rw [hhead, htail, slot_zero hh]
      refine ⟨⟨q.dataList, q.queueSize, -1, -1⟩, ?_, hrep.size, hrep.length, hrep.pos,
        .inl ⟨?_, rfl, rfl⟩⟩
      · rw [tryPop, if_neg hneg, if_pos hone, hread, pop_snd, hitems]
        rfl
      · rw [pop_items, hitems]
        exact List.length_eq_zero_iff.mp hlen
    · have hmany : q.head ≠ q.tail := by
        have hle := held.le
        rw [List.length_cons, hrep.length] at hle
        rw [hhead, htail, Ne, Int.ofNat_inj, eq_comm, slot_eq_self_iff hk]
        omega
      have hnext : q.next q.head = slot f.capacity h 1 := by rw [hhead, next_eq_slot hrep.size]
      refine ⟨⟨q.dataList, q.queueSize, q.next q.head, q.tail⟩, ?_, hrep.size, hrep.length,
        hrep.pos, .inr ⟨slot f.capacity h 1, k - 1, ?_, hnext, ?_, ?_⟩⟩
      · rw [tryPop, if_neg hneg, if_neg hmany, hread, if_neg hmany, pop_snd, hitems]
        rfl
      · rw [pop_items, hitems, List.tail_cons, hlen, Nat.sub_add_cancel hk]
      · have hle := f.length_le
        rw [hitems, List.length_cons] at hle
        rw [htail, pop_capacity, slot_one_slot hh (by omega), Nat.sub_add_cancel hk]
      · rw [pop_items, hitems, ← hrep.length]
        exact hrest

/-- `SetSize` changes the size exactly when nothing is held. -/
theorem setSize_refines [Inhabited T] (hrep : Represents q f) {size : ℕ} (hsize : 0 < size) :
    ∃ q', q.setSize size = some q' ∧ Represents q' (f.setCapacity size) := by
  rcases hrep.ends with ⟨hitems, hhead, -⟩ | ⟨h, k, hlen, hhead, -, -⟩
  · rw [setCapacity, hitems]
    exact represents_setSize hsize (by omega)
  · have hne : f.items ≠ [] := List.ne_nil_of_length_pos (by omega)
    refine ⟨q, ?_, ?_⟩
    · rw [setSize, if_neg (by omega)]
    · rw [setCapacity, if_neg (by simpa using hne)]
      exact hrep

/-- No call asks for a buffer without cells. -/
def SizesPos (calls : List (Call T)) : Prop := ∀ size, .setCapacity size ∈ calls → 0 < size

/-- **One call** is answered as by the list with a capacity, and the buffer
represents the list again.  The four kinds of calls are a lemma each. -/
theorem serve_refines [Inhabited T] (hrep : Represents q f) {call : Call T}
    (hcall : SizesPos [call]) :
    ∃ q', q.serve call = some (q', (f.serve call).2) ∧ Represents q' (f.serve call).1 := by
  cases call with
  | push newValue =>
      obtain ⟨q', hq', hrep'⟩ := tryPush_refines hrep newValue
      exact ⟨q', by rw [serve, hq']; rfl, hrep'⟩
  | pop =>
      obtain ⟨q', hq', hrep'⟩ := tryPop_refines hrep
      exact ⟨q', by rw [serve, hq']; rfl, hrep'⟩
  | isEmpty => exact ⟨q, by rw [serve, isEmpty_eq hrep]; rfl, hrep⟩
  | setCapacity size =>
      obtain ⟨q', hq', hrep'⟩ := setSize_refines hrep (hcall size (List.mem_singleton_self _))
      exact ⟨q', by rw [serve, hq']; rfl, hrep'⟩

/-! ## Every sequence of calls

By induction on the calls. -/

/-- A buffer that holds a list is called as the list is. -/
theorem run_refines [Inhabited T] (hrep : Represents q f) {calls : List (Call T)}
    (hcalls : SizesPos calls) :
    ∃ q', q.run calls = some (q', (f.run calls).2) ∧ Represents q' (f.run calls).1 := by
  induction calls generalizing q f with
  | nil => exact ⟨q, rfl, hrep⟩
  | cons call rest ih =>
      have hfirst : SizesPos [call] := by
        intro size hmem
        exact hcalls size (List.mem_cons.mpr (.inl (List.mem_singleton.mp hmem)))
      have hrest : SizesPos rest := fun size hmem => hcalls size (List.mem_cons_of_mem _ hmem)
      obtain ⟨q₁, hq₁, hrep₁⟩ := serve_refines hrep hfirst
      obtain ⟨q₂, hq₂, hrep₂⟩ := ih hrep₁ hrest
      refine ⟨q₂, ?_, hrep₂⟩
      rw [run, hq₁, Option.bind_some, hq₂]
      rfl

/-- **The ring buffer is a list with a capacity.**  From a new buffer every
sequence of calls is answered as by the list, no index leaves `data_list_`, and
the accepted items are the delivered ones and then the ones held. -/
theorem run_eq_fifo [Inhabited T] (size : ℕ) (calls : List (Call T)) (hsize : 1 ≤ size)
    (hcalls : SizesPos calls) :
    ∃ q q' replies, new size = some q ∧ q.run calls = some (q', replies) ∧
      replies = ((empty size).run calls).2 ∧
      Represents q' ((empty size).run calls).1 ∧
      accepted calls replies = delivered replies ++ ((empty size).run calls).1.items := by
  obtain ⟨q, hq, hrep⟩ := represents_setSize (q := ⟨([] : List T), 0, -1, -1⟩) hsize
    (show (-1 : ℤ) < 0 by decide)
  obtain ⟨q', hq', hrep'⟩ := run_refines hrep hcalls
  exact ⟨q, q', _, hq, hq', rfl, hrep', run_conserved (empty size) calls⟩

/-- Two cells, filled, refused, emptied and given a third cell: the buffer does
what the list does. -/
theorem run_eq_fifo_two :
    ∃ q q' replies, new (2 : ℕ) = some q ∧
      q.run [.push 5, .push 6, .push 7, .pop, .pop, .pop, .setCapacity 3, .isEmpty] =
        some (q', replies) ∧
      replies = [.pushed true, .pushed true, .pushed false, .popped (some 5), .popped (some 6),
        .popped none, .done, .empty true] := by
  have hcalls : SizesPos ([.push 5, .push 6, .push 7, .pop, .pop, .pop, .setCapacity 3,
      .isEmpty] : List (Call ℕ)) := by
    simp [SizesPos]
  obtain ⟨q, q', replies, hq, hq', hreplies, -, -⟩ := run_eq_fifo 2 _ (by decide) hcalls
  exact ⟨q, q', replies, hq, hq', hreplies.trans (by decide)⟩

end EvalCycleQueue

end EstarGo
