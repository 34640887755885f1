import Mathlib.Data.Nat.Notation

/-!
# Rounds until nothing changes

A sweep visits the entries of a list one after another, each visit sees the
state that the visits before it have left, and a visit may change the state or
leave it.  `settle` repeats the sweeps while one of their visits changes
something.

## Main results

* `inv_settle`: what the visits preserve holds at the end.
* `settled_settle`: when each change raises a bounded rank, enough rounds end in
  a state that no visit changes.

## Design notes

The loop of a program has no bound; the number of rounds here is a fuel, and
`settled_settle` says which number is enough.  The order of the list decides
which changes are made first and what the last sweep looks like, but neither
result depends on it: an invariant that determines the settled state thus shows
that all orders end alike.
-/

namespace Verif

universe u v

variable {σ : Type u} {α : Type v} (visit : σ → α → Option σ)

/-- One visit, and whether something has changed so far.  The flag is only ever
raised. -/
def visitOne (s : σ × Bool) (a : α) : σ × Bool :=
  match visit s.1 a with
  | none => s
  | some t => (t, true)

/-- Visit the entries of a list, each in the state that the ones before it have
left. -/
def sweep (l : List α) (s : σ) : σ × Bool := l.foldl (visitOne visit) (s, false)

/-- Sweep again while something changes, for a number of rounds at most. -/
def settle (l : List α) : ℕ → σ → σ
  | 0, s => s
  | n + 1, s => if (sweep visit l s).2 then settle l n (sweep visit l s).1 else (sweep visit l s).1

variable {visit} {l : List α} {s t : σ} {inv : σ → Prop} {n : ℕ}

/-! ## One sweep -/

theorem inv_foldl_visitOne (keep : ∀ s a t, a ∈ l → inv s → visit s a = some t → inv t)
    (h : inv s) (b : Bool) : inv (l.foldl (visitOne visit) (s, b)).1 := by
  induction l generalizing s b with
  | nil => exact h
  | cons a l ih =>
      rw [List.foldl_cons, visitOne]
      have keep' (s : σ) (a : α) (t : σ) (ha : a ∈ l) := keep s a t (List.mem_cons_of_mem _ ha)
      cases hv : visit s a with
      | none => exact ih keep' h b
      | some t => exact ih keep' (keep s a t List.mem_cons_self h hv) true

/-- What each visit preserves, a sweep preserves. -/
theorem inv_sweep (keep : ∀ s a t, a ∈ l → inv s → visit s a = some t → inv t) (h : inv s) :
    inv (sweep visit l s).1 :=
  inv_foldl_visitOne keep h false

/-- A sweep that reports no change has left every entry alone, so its state is
settled. -/
theorem sweep_of_unchanged (h : (sweep visit l s).2 = false) :
    (sweep visit l s).1 = s ∧ ∀ a ∈ l, visit s a = none := by
  have changed (l : List α) (s : σ) : (l.foldl (visitOne visit) (s, true)).2 = true := by
    induction l generalizing s with
    | nil => rfl
    | cons a l ih =>
        rw [List.foldl_cons, visitOne]
        cases visit s a <;> exact ih _
  unfold sweep at h ⊢
  induction l with
  | nil => exact ⟨rfl, fun a ha => absurd ha List.not_mem_nil⟩
  | cons a l ih =>
      rw [List.foldl_cons, visitOne] at h ⊢
      cases hv : visit s a with
      | none =>
          simp only [hv] at h ⊢
          obtain ⟨hs, hl⟩ := ih h
          exact ⟨hs, List.forall_mem_cons.mpr ⟨hv, hl⟩⟩
      | some t =>
          simp only [hv] at h
          exact absurd (h.symm.trans (changed l t)) Bool.false_ne_true

/-- A sweep that reports a change has raised the rank, at least once and never
lowered it. -/
theorem rank_lt_sweep {rank : σ → ℕ} (keep : ∀ s a t, a ∈ l → inv s → visit s a = some t → inv t)
    (grow : ∀ s a t, a ∈ l → inv s → visit s a = some t → rank s < rank t) (h : inv s)
    (changed : (sweep visit l s).2 = true) : rank s < rank (sweep visit l s).1 := by
  have bound (l : List α) (keep : ∀ s a t, a ∈ l → inv s → visit s a = some t → inv t)
      (grow : ∀ s a t, a ∈ l → inv s → visit s a = some t → rank s < rank t) (s : σ) (h : inv s)
      (b : Bool) : rank s ≤ rank (l.foldl (visitOne visit) (s, b)).1 ∧
        ((l.foldl (visitOne visit) (s, b)).2 = true → b = false →
          rank s < rank (l.foldl (visitOne visit) (s, b)).1) := by
    induction l generalizing s b with
    | nil =>
        refine ⟨Nat.le_refl _, fun hb hfalse => ?_⟩
        exact absurd (hfalse.symm.trans hb) Bool.false_ne_true
    | cons a l ih =>
        have keep' (s : σ) (a : α) (t : σ) (ha : a ∈ l) := keep s a t (List.mem_cons_of_mem _ ha)
        have grow' (s : σ) (a : α) (t : σ) (ha : a ∈ l) := grow s a t (List.mem_cons_of_mem _ ha)
        rw [List.foldl_cons, visitOne]
        cases hv : visit s a with
        | none => exact ih keep' grow' s h b
        | some t =>
            have hlt := grow s a t List.mem_cons_self h hv
            have hle := (ih keep' grow' t (keep s a t List.mem_cons_self h hv) true).1
            exact ⟨Nat.le_trans (Nat.le_of_lt hlt) hle, fun _ _ => Nat.lt_of_lt_of_le hlt hle⟩
  exact (bound l keep grow s h false).2 changed rfl

/-! ## All rounds -/

/-- **What the visits preserve** holds at the end, after any number of
rounds. -/
theorem inv_settle (keep : ∀ s a t, a ∈ l → inv s → visit s a = some t → inv t) (h : inv s)
    (n : ℕ) : inv (settle visit l n s) := by
  induction n generalizing s with
  | zero => exact h
  | succ n ih =>
      rw [settle]
      split
      · exact ih (inv_sweep keep h)
      · exact inv_sweep keep h

/-- **Enough rounds** end in a state that no visit changes.  Each round but the
last raises the rank, and the rank has a bound. -/
theorem settled_settle {rank : σ → ℕ} {bound : ℕ}
    (keep : ∀ s a t, a ∈ l → inv s → visit s a = some t → inv t)
    (grow : ∀ s a t, a ∈ l → inv s → visit s a = some t → rank s < rank t)
    (hbound : ∀ s, inv s → rank s ≤ bound) (h : inv s) (hn : bound < rank s + n) :
    ∀ a ∈ l, visit (settle visit l n s) a = none := by
  induction n generalizing s with
  | zero => exact absurd (hbound s h) (by omega)
  | succ n ih =>
      rw [settle]
      split
      case isTrue changed =>
        have hlt := rank_lt_sweep keep grow h changed
        exact ih (inv_sweep keep h) (by omega)
      case isFalse unchanged =>
        obtain ⟨hs, hl⟩ := sweep_of_unchanged (Bool.not_eq_true _ ▸ unchanged)
        rw [hs]
        exact hl

end Verif
