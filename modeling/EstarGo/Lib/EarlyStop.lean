import Mathlib.Data.List.MinMax

/-!
# A scan that stops early

A scan for the first greatest element that stops at the first element of some
kind looks at `upTo stop l` and leaves out `after stop l`.  Where what it leaves
out does not increase, the first element left out decides whether the scan found
the first greatest element of all.

## Main results

* `pairwise_upTo`: what stands before an element that is looked at.
* `argmax_append_eq_some_iff`: when more elements change nothing.
* `argmax_upTo_iff`: when the early scan agrees with the full one.
* `exists_split_of_argmax_filter`: where the first greatest element of some kind
  stands.

## Design notes

**The list is split, the loop is not followed.**  A loop that breaks is the scan
of an initial part, and what it has computed by then is the greatest element of
that part.  What the break costs is then a question about two lists, and no
longer about a loop.

**First among equals.**  `List.argmax` takes the first of several greatest
elements, as a loop does that replaces its choice only by a greater one.
-/

namespace Verif

variable {α β : Type*} [LinearOrder β]

/-- The elements up to the first that stops the scan, and that one: the loop
still looks at the element at which it breaks. -/
def upTo (stop : α → Bool) : List α → List α
  | [] => []
  | a :: l => if stop a then [a] else a :: upTo stop l

/-- The elements after the first that stops the scan, none where it goes to the
end. -/
def after (stop : α → Bool) : List α → List α
  | [] => []
  | a :: l => if stop a then l else after stop l

variable {stop : α → Bool} {f : α → β} {l m : List α} {a b : α}

/-- The two parts are the list. -/
theorem upTo_append_after (stop : α → Bool) (l : List α) : upTo stop l ++ after stop l = l := by
  induction l with
  | nil => rfl
  | cons a l ih =>
      rw [upTo, after]
      split
      · rfl
      · rw [List.cons_append, ih]

theorem upTo_eq_nil_iff : upTo stop l = [] ↔ l = [] := by
  cases l with
  | nil => exact iff_of_true rfl rfl
  | cons a l =>
      rw [upTo]
      split <;> simp

/-- What is left out stands after the first element that stops the scan, which
is the last one looked at. -/
theorem exists_stop (ha : a ∈ after stop l) :
    ∃ u, l.find? stop = some u ∧ u ∈ upTo stop l ∧ ∃ l₁, l = l₁ ++ u :: after stop l := by
  induction l with
  | nil => cases ha
  | cons c l ih =>
      rw [after] at ha ⊢
      rw [upTo, List.find?_cons]
      by_cases here : stop c = true
      · rw [if_pos here, if_pos here, here]
        exact ⟨c, rfl, List.mem_singleton_self c, [], rfl⟩
      · rw [if_neg here] at ha
        rw [if_neg here, if_neg here, Bool.eq_false_of_not_eq_true here]
        obtain ⟨u, first, hu, l₁, hl⟩ := ih ha
        exact ⟨u, first, List.mem_cons_of_mem c hu, c :: l₁, congrArg (c :: ·) hl⟩

theorem mem_of_mem_upTo (h : a ∈ upTo stop l) : a ∈ l := by
  rw [← upTo_append_after stop l]
  exact List.mem_append_left _ h

/-- Where some elements are skipped, what is looked at stands behind elements
that are skipped or do not stop the scan. -/
theorem pairwise_upTo (stop keep : α → Bool) (nodup : l.Nodup) :
    l.Pairwise fun a x => x ∈ upTo stop (l.filter keep) → keep a = true → stop a = false := by
  induction l with
  | nil => exact List.Pairwise.nil
  | cons a l ih =>
      obtain ⟨notMem, nodup⟩ := List.nodup_cons.mp nodup
      -- behind its first element the scan goes on as it does for the rest
      have goesOn {x : α} (hx : x ∈ l) (looked : x ∈ upTo stop ((a :: l).filter keep)) :
          x ∈ upTo stop (l.filter keep) ∧ (keep a = true → stop a = false) := by
        have other : x ≠ a := fun h => notMem (h ▸ hx)
        rw [List.filter_cons] at looked
        split at looked
        · rw [upTo] at looked
          split at looked
          · exact absurd (List.mem_singleton.mp looked) other
          · next passed =>
              exact ⟨(List.mem_cons.mp looked).resolve_left other, fun _ => by simpa using passed⟩
        · next skipped => exact ⟨looked, fun kept => absurd kept skipped⟩
      refine List.pairwise_cons.mpr ⟨fun x hx looked => (goesOn hx looked).2, ?_⟩
      exact (ih nodup).imp_of_mem fun _ hx kept looked => kept (goesOn hx looked).1

/-- **More elements.**  The first greatest element stays so exactly where no
element that is added exceeds it. -/
theorem argmax_append_eq_some_iff (h : l.argmax f = some b) :
    (l ++ m).argmax f = some b ↔ ∀ x ∈ m, f x ≤ f b := by
  classical
  obtain ⟨mem, le, first⟩ := List.argmax_eq_some_iff.mp h
  constructor
  · exact fun h' x hx => List.le_of_mem_argmax (List.mem_append_right l hx) h'
  · intro bound
    refine List.argmax_eq_some_iff.mpr
      ⟨List.mem_append_left m mem, fun x hx => ?_, fun x hx ge => ?_⟩
    · rcases List.mem_append.mp hx with hx | hx
      · exact le x hx
      · exact bound x hx
    · rw [List.idxOf_append_of_mem mem]
      by_cases hxl : x ∈ l
      · rw [List.idxOf_append_of_mem hxl]
        exact first x hxl ge
      · rw [List.idxOf_append_of_notMem hxl]
        exact (List.idxOf_le_length).trans (Nat.le_add_right _ _)

/-- **An early scan and the full one.**  Where what is left out does not
increase, they agree exactly if the first element left out does not exceed every
element looked at. -/
theorem argmax_upTo_iff (sorted : (after stop l).Pairwise fun x y => f y ≤ f x)
    (h : (upTo stop l).argmax f = some b) :
    l.argmax f = some b ↔ ∀ x ∈ (after stop l).head?, ∃ a ∈ upTo stop l, f x ≤ f a := by
  have greatest (x : α) : (∃ a ∈ upTo stop l, f x ≤ f a) ↔ f x ≤ f b :=
    ⟨fun ⟨_, ha, le⟩ => le.trans (List.le_of_mem_argmax ha h), fun le => ⟨b, List.argmax_mem h, le⟩⟩
  have split := upTo_append_after stop l
  simp only [greatest]
  rw [← split, argmax_append_eq_some_iff h, split]
  cases hafter : after stop l with
  | nil => simp
  | cons x rest =>
      rw [hafter, List.pairwise_cons] at sorted
      constructor
      · intro bound y hy
        obtain rfl := Option.some.inj hy
        exact bound x List.mem_cons_self
      · intro bound y hy
        have first := bound x rfl
        rcases List.mem_cons.mp hy with rfl | hy
        · exact first
        · exact (sorted.1 y hy).trans first

/-- **The first greatest element of some kind.**  Those of its kind are smaller
before it, and not greater behind it. -/
theorem exists_split_of_argmax_filter {p : α → Bool} (h : (l.filter p).argmax f = some b) :
    ∃ before rest, l = before ++ b :: rest ∧ (∀ a ∈ before, p a = true → f a < f b) ∧
      ∀ a ∈ rest, p a = true → f a ≤ f b := by
  induction l with
  | nil => cases h
  | cons a l ih =>
      -- the greatest element of the rest is the greatest of all, or does not exceed the first
      have later (h : (l.filter p).argmax f = some b) (first : p a = true → f a < f b) :
          ∃ before rest, a :: l = before ++ b :: rest ∧
            (∀ a ∈ before, p a = true → f a < f b) ∧ ∀ a ∈ rest, p a = true → f a ≤ f b := by
        obtain ⟨before, rest, rfl, smaller, bound⟩ := ih h
        exact ⟨a :: before, rest, rfl, List.forall_mem_cons.mpr ⟨first, smaller⟩, bound⟩
      rw [List.filter_cons] at h
      split at h
      · next kept =>
          have here (bound : ∀ x ∈ l, p x = true → f x ≤ f a) (hab : a = b) :
              ∃ before rest, a :: l = before ++ b :: rest ∧
                (∀ a ∈ before, p a = true → f a < f b) ∧ ∀ a ∈ rest, p a = true → f a ≤ f b := by
            subst hab
            exact ⟨[], l, rfl, fun _ hx => absurd hx List.not_mem_nil, bound⟩
          rw [List.argmax_cons] at h
          cases greatest : (l.filter p).argmax f with
          | none =>
              rw [greatest] at h
              rw [List.argmax_eq_none, List.filter_eq_nil_iff] at greatest
              exact here (fun x hx kept => absurd kept (greatest x hx)) (Option.some.inj h)
          | some c =>
              simp only [greatest] at h
              split at h
              · next less =>
                  obtain rfl := Option.some.inj h
                  exact later greatest fun _ => less
              · next more =>
                  refine here (fun x hx kept => ?_) (Option.some.inj h)
                  have mem : x ∈ l.filter p := List.mem_filter.mpr ⟨hx, kept⟩
                  exact (List.le_of_mem_argmax mem greatest).trans (not_lt.mp more)
      · next skipped => exact later h fun kept => absurd kept skipped

/-- Where no element of the kind is smaller than the first greatest one, that is
the first of them all. -/
theorem find?_eq_of_argmax_filter {p : α → Bool} (h : (l.filter p).argmax f = some b)
    (flat : ∀ a ∈ l, p a = true → f b ≤ f a) : l.find? p = some b := by
  have kept := (List.mem_filter.mp (List.argmax_mem h)).2
  obtain ⟨before, rest, rfl, smaller, -⟩ := exists_split_of_argmax_filter h
  have skipped : before.find? p = none := by
    refine List.find?_eq_none.mpr fun a ha here => ?_
    exact absurd (smaller a ha here) (not_lt.mpr (flat a (List.mem_append_left _ ha) here))
  rw [List.find?_append, skipped, Option.none_or, List.find?_cons, kept]

end Verif
