import Mathlib.Data.Nat.Notation
import Mathlib.Data.List.Nodup
import Mathlib.Logic.Function.Basic

/-!
# Linked lists in an array

A map `next` threads lists through the elements of a type: `Leads next c l e`
says that `next` leads from `c` along `l` to `e`.  A list that ends at a
sentinel is walked by `traverse`, which is given a number of rounds.

## Main results

* `traverse_eq`: enough rounds walk the whole list.
* `Leads.insertAfter`: one more element behind another.
* `Leads.splice`: a second list between the head of a list and the rest of it.

## Design notes

The list is a witness, not a part of the data: the same map may thread many
lists, and `Leads` is stated for each of them.  A change of one pointer leaves
alone every list that does not contain its element (`Leads.congr`), which is the
only frame condition there is.
-/

namespace Verif

universe u

variable {α : Type u}

/-- `next` leads from `c` along the list to `e`.  The list holds the elements
passed, the first of them `c` and none of them the last stop `e`. -/
def Leads (next : α → α) : α → List α → α → Prop
  | c, [], e => c = e
  | c, a :: l, e => a = c ∧ Leads next (next c) l e

/-- The elements from `c` on until the sentinel, at most `n` of them. -/
def traverse [DecidableEq α] (next : α → α) (sentinel : α) : ℕ → α → List α
  | 0, _ => []
  | n + 1, c => if c = sentinel then [] else c :: traverse next sentinel n (next c)

variable {next next' : α → α} {a c d e v : α} {l l₁ l₂ : List α}

@[simp] theorem leads_nil : Leads next c [] e ↔ c = e := Iff.rfl

theorem leads_cons : Leads next c (a :: l) e ↔ a = c ∧ Leads next (next c) l e := Iff.rfl

/-- A way along two lists passes the point between them. -/
theorem leads_append : Leads next c (l₁ ++ l₂) e ↔ ∃ d, Leads next c l₁ d ∧ Leads next d l₂ e := by
  induction l₁ generalizing c with
  | nil => simp
  | cons a l₁ ih =>
      rw [List.cons_append, leads_cons, ih]
      constructor
      · rintro ⟨hac, d, h₁, h₂⟩
        exact ⟨d, ⟨hac, h₁⟩, h₂⟩
      · rintro ⟨d, ⟨hac, h₁⟩, h₂⟩
        exact ⟨hac, d, h₁, h₂⟩

/-- Only the pointers of the listed elements matter; all others may be
anything. -/
theorem Leads.congr (h : Leads next c l e) (agree : ∀ x ∈ l, next' x = next x) :
    Leads next' c l e := by
  induction l generalizing c with
  | nil => exact h
  | cons a l ih =>
      obtain ⟨rfl, hrest⟩ := h
      obtain ⟨ha, hl⟩ := List.forall_mem_cons.mp agree
      exact ⟨rfl, ha ▸ ih hrest hl⟩

/-- **Enough rounds walk the whole list**, and stop at the sentinel, which is
not in it. -/
theorem traverse_eq [DecidableEq α] {n : ℕ} (h : Leads next c l e) (hout : e ∉ l)
    (hlen : l.length ≤ n) : traverse next e n c = l := by
  induction l generalizing c n with
  | nil =>
      obtain rfl : c = e := h
      cases n with
      | zero => rfl
      | succ n => exact if_pos rfl
  | cons a l ih =>
      obtain ⟨rfl, hrest⟩ := h
      obtain ⟨hae, hout⟩ := List.ne_and_not_mem_of_not_mem_cons hout
      cases n with
      | zero => simp at hlen
      | succ n =>
          rw [traverse, if_neg hae.symm, ih hrest hout (Nat.le_of_succ_le_succ hlen)]

section Update

variable [DecidableEq α]

/-- **One more element** behind `a`: it takes over the pointer of `a`, which
then points to it. -/
theorem Leads.insertAfter (h : Leads next c (l₁ ++ a :: l₂) e) (nodup : (l₁ ++ a :: l₂).Nodup)
    (fresh : v ∉ l₁ ++ a :: l₂) :
    Leads (Function.update (Function.update next v (next a)) a v) c (l₁ ++ a :: v :: l₂) e := by
  obtain ⟨d, h₁, rfl, h₂⟩ := leads_append.mp h
  simp only [List.mem_append, List.mem_cons, not_or] at fresh
  obtain ⟨hv₁, hva, hv₂⟩ := fresh
  have ha₁ : a ∉ l₁ := fun ha => (List.nodup_append.mp nodup).2.2 a ha a List.mem_cons_self rfl
  have ha₂ : a ∉ l₂ := (List.nodup_cons.mp (List.nodup_append.mp nodup).2.1).1
  have agree {x : α} (hxa : x ≠ a) (hxv : x ≠ v) :
      Function.update (Function.update next v (next a)) a v x = next x := by
    rw [Function.update_of_ne hxa, Function.update_of_ne hxv]
  refine leads_append.mpr ⟨a, ?_, rfl, ?_⟩
  · exact h₁.congr fun x hx => agree (fun h => ha₁ (h ▸ hx)) fun h => hv₁ (h ▸ hx)
  · rw [Function.update_self]
    refine ⟨rfl, ?_⟩
    rw [Function.update_of_ne hva, Function.update_self]
    exact h₂.congr fun x hx => agree (fun h => ha₂ (h ▸ hx)) fun h => hv₂ (h ▸ hx)

/-- **A second list** between the head of a list and the rest: its end is led to
the rest, and then the head to its beginning. -/
theorem Leads.splice (h : Leads next c (c :: l) e) (h' : Leads next d (l₁ ++ [a]) e)
    (nodup : (c :: l).Nodup) (nodup' : (l₁ ++ [a]).Nodup)
    (apart : ∀ x ∈ c :: l, x ∉ l₁ ++ [a]) :
    Leads (Function.update (Function.update next a (next c)) c d) c (c :: (l₁ ++ a :: l)) e := by
  obtain ⟨-, hl⟩ := h
  obtain ⟨b, h₁, rfl, -⟩ := leads_append.mp h'
  have hca : a ≠ c := fun hac => apart c List.mem_cons_self (by simp [hac])
  have hcl : c ∉ l := (List.nodup_cons.mp nodup).1
  have hc₁ : c ∉ l₁ := fun hc => apart c List.mem_cons_self (List.mem_append_left _ hc)
  have ha₁ : a ∉ l₁ := fun ha =>
    (List.nodup_append.mp nodup').2.2 a ha a (List.mem_singleton_self a) rfl
  have hal : a ∉ l := fun ha => apart a (List.mem_cons_of_mem _ ha) (by simp)
  have agree {x : α} (hxc : x ≠ c) (hxa : x ≠ a) :
      Function.update (Function.update next a (next c)) c d x = next x := by
    rw [Function.update_of_ne hxc, Function.update_of_ne hxa]
  refine ⟨rfl, ?_⟩
  rw [Function.update_self]
  refine leads_append.mpr ⟨a, ?_, rfl, ?_⟩
  · exact h₁.congr fun x hx => agree (fun h => hc₁ (h ▸ hx)) fun h => ha₁ (h ▸ hx)
  · rw [Function.update_of_ne hca, Function.update_self]
    exact hl.congr fun x hx => agree (fun h => hcl (h ▸ hx)) fun h => hal (h ▸ hx)

end Update

end Verif
