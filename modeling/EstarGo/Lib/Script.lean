import Mathlib.Data.Nat.Notation

/-!
# Scripts

A thread that has a list of statements left, each of which may put others in
front of the rest.  `takes m st m'` says that a statement, with all it puts in
front, leads from mode `m` to mode `m'`; `Fits` says so of a list.

## Main results

* `Fits.append`: scripts compose.
* `Fits.of_forall`: statements that each keep a mode.
* `Fits.replicate`: a statement repeated.

A mode is what is known of the thread between two statements, such as which of
its objects exist.  That a script fits says that each of its statements finds
the mode it needs, which is how a bad order of statements is excluded without
running them.
-/

namespace Verif

universe u v

variable {Mode : Type u} {Stmt : Type v}

/-- A list of statements leads from a mode to another, through a mode after each
of them. -/
inductive Fits (takes : Mode → Stmt → Mode → Prop) : Mode → List Stmt → Mode → Prop where
  | nil (m : Mode) : Fits takes m [] m
  | cons {m m' m'' : Mode} {st : Stmt} {rest : List Stmt} (head : takes m st m')
      (tail : Fits takes m' rest m'') : Fits takes m (st :: rest) m''

namespace Fits

variable {takes : Mode → Stmt → Mode → Prop} {m m' m'' : Mode} {st : Stmt} {l l' : List Stmt}

/-- Scripts compose, as the statements that a call puts in front of the rest
do. -/
theorem append (h : Fits takes m l m') (h' : Fits takes m' l' m'') :
    Fits takes m (l ++ l') m'' := by
  induction h with
  | nil => exact h'
  | cons head _ ih => exact .cons head (ih h')

theorem single (h : takes m st m') : Fits takes m [st] m' := .cons h (.nil m')

/-- The mode a script is in after its first statement, from which the rest goes
on. -/
theorem exists_of_cons (h : Fits takes m (st :: l) m'') :
    ∃ m', takes m st m' ∧ Fits takes m' l m'' := by
  cases h with
  | cons head tail => exact ⟨_, head, tail⟩

/-- Statements that each keep a mode, together keep it. -/
theorem of_forall (h : ∀ st ∈ l, takes m st m) : Fits takes m l m := by
  induction l with
  | nil => exact .nil m
  | cons st l ih =>
      obtain ⟨head, tail⟩ := List.forall_mem_cons.mp h
      exact .cons head (ih tail)

/-- A statement that leads through a sequence of modes, repeated. -/
theorem replicate (mode : ℕ → Mode) (h : ∀ k, takes (mode k) st (mode (k + 1))) (n k : ℕ) :
    Fits takes (mode k) (List.replicate n st) (mode (k + n)) := by
  induction n generalizing k with
  | zero => exact .nil _
  | succ n ih =>
      rw [List.replicate_succ, Nat.add_comm n 1, ← Nat.add_assoc]
      exact .cons (h k) (ih (k + 1))

end Fits

end Verif
