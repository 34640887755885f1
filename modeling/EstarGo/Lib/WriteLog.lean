import Mathlib.Data.Nat.Notation

/-!
# Logs of writes

A log of the values written to keys.  What a store answers for a key after a log
is the last value written to it, from where on the store takes writes to this
key.

## Main definitions

* `lastWrite` — the last value that a log writes to a key.

## Main results

* `look_foldl`: the answer of a store after a log.
* `exists_first`: the first write of a kind.
-/

namespace Verif

universe u v w

/-- A log has a first write of a kind, or none; what stands before it is of
another kind. -/
theorem exists_first {W : Type u} (P : W → Prop) [DecidablePred P] (log : List W) :
    (∀ w ∈ log, ¬ P w) ∨
      ∃ before w after, log = before ++ w :: after ∧ P w ∧ ∀ b ∈ before, ¬ P b := by
  cases hfind : log.find? (P ·) with
  | none => exact .inl fun w hw => by simpa using List.find?_eq_none.mp hfind w hw
  | some w =>
      obtain ⟨hw, before, after, rfl, hbefore⟩ := List.find?_eq_some_iff_append.mp hfind
      exact .inr ⟨before, w, after, rfl, by simpa using hw, by simpa using hbefore⟩

variable {K : Type u} {V : Type v} [DecidableEq K] {log rest : List (K × V)} {k : K}

/-- The last value that a log writes to a key; `none` where it writes none. -/
def lastWrite : List (K × V) → K → Option V
  | [], _ => none
  | w :: rest, k => (lastWrite rest k).or (if w.1 = k then some w.2 else none)

@[simp] theorem lastWrite_nil : lastWrite ([] : List (K × V)) k = none := rfl

theorem lastWrite_cons (w : K × V) :
    lastWrite (w :: rest) k = (lastWrite rest k).or (if w.1 = k then some w.2 else none) := rfl

/-- A later log decides, where it writes to the key at all. -/
theorem lastWrite_append : lastWrite (log ++ rest) k = (lastWrite rest k).or (lastWrite log k) := by
  induction log with
  | nil => rw [List.nil_append, lastWrite_nil, Option.or_none]
  | cons w log ih => rw [List.cons_append, lastWrite_cons, ih, lastWrite_cons, Option.or_assoc]

/-- A log that does not write to the key says nothing of it. -/
theorem lastWrite_eq_none (h : ∀ w ∈ log, w.1 ≠ k) : lastWrite log k = none := by
  induction log with
  | nil => rfl
  | cons w log ih =>
      obtain ⟨hw, hlog⟩ := List.forall_mem_cons.mp h
      rw [lastWrite_cons, ih hlog, if_neg hw, Option.or_none]

/-- A key with a write has a last one. -/
theorem exists_lastWrite {w : K × V} (h : w ∈ log) : ∃ v, lastWrite log w.1 = some v := by
  obtain ⟨before, after, rfl⟩ := List.append_of_mem h
  rw [lastWrite_append, lastWrite_cons, if_pos rfl]
  cases lastWrite after w.1 with
  | none => exact ⟨w.2, rfl⟩
  | some v => exact ⟨v, rfl⟩

/-- **What a store answers after a log.**  The store takes writes to a key, and
goes on doing so: each write to the key is what it answers then, and each other
write leaves the answer alone.  After the log it answers the last write, and
what it answered before where there is none. -/
theorem look_foldl {S : Type w} {write : S → K × V → S} (look : S → Option V) (Takes : S → Prop)
    (hstep : ∀ s, ∀ w ∈ log, Takes s →
      Takes (write s w) ∧ look (write s w) = if w.1 = k then some w.2 else look s)
    {s : S} (h : Takes s) : look (log.foldl write s) = (lastWrite log k).or (look s) := by
  induction log generalizing s with
  | nil => rfl
  | cons w log ih =>
      obtain ⟨htakes, hlook⟩ := hstep s w List.mem_cons_self h
      rw [List.foldl_cons, ih (fun s w hw => hstep s w (List.mem_cons_of_mem _ hw)) htakes, hlook,
        lastWrite_cons, Option.or_assoc]
      by_cases hw : w.1 = k
      · rw [if_pos hw, if_pos hw]
        rfl
      · rw [if_neg hw, if_neg hw]
        rfl

end Verif
