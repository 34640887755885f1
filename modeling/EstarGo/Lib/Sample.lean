import Mathlib.Data.List.Nodup
import Mathlib.Data.List.Perm.Subperm
import Mathlib.Data.Set.Insert
import Mathlib.Logic.Function.Basic

/-!
# Unordered lists and bounded samples

An unordered list removes an entry by moving its last one there.  A `Sample` of
a set keeps up to `keep` of its members in such a list, and all of them while
they are no more than `refill`; so a sample that has become short tells the set
exactly, and the others tell that the set is large.

## Main definitions

* `swapRemove`, `discardEntry` — removal from an unordered list, by place and by
  value.
* `Indexed` — a list with a map from its entries back to their places.
* `Sample` — distinct members of a set, and when they are all of it.

## Main results

* `swapRemove_perm`: the removal erases one entry.
* `Indexed.concat`, `Indexed.discard`: an index of the entries is kept up to
  date.
* `Sample.add`, `Sample.addAll`, `Sample.discard`: samples of the larger, the
  joint and the smaller set.

## Design notes

**What a sample is for.**  A program that only asks whether a set has no member,
one, or more, need not keep the set.  It keeps some members, and looks for
others when it is about to run out.  The condition is on the length of the list,
which the program sees, and not on the size of the set, which it does not.

**When to look again.**  Removing a member may leave a list that is short while
the set is not.  It is then filled up from candidates that are known to be the
whole set; `discard` needs this at one length only, because a list gets shorter
by one at a time.
-/

namespace Verif

universe u

variable {α : Type u}

/-! ## Unordered lists -/

/-- Move the last entry to an index, and drop the last place.  Where the index
is that of the last entry, it is just dropped. -/
def swapRemove (l : List α) (i : ℕ) : List α :=
  match l.getLast? with
  | none => l
  | some a => (l.set i a).dropLast

/-- **The removal erases one entry** and changes the order of the others. -/
theorem swapRemove_perm {l : List α} {i : ℕ} (h : i < l.length) :
    (swapRemove l i).Perm (l.eraseIdx i) := by
  rcases List.eq_nil_or_concat l with rfl | ⟨init, a, rfl⟩
  · simp at h
  · rw [List.concat_eq_append] at h ⊢
    rw [List.length_append, List.length_singleton] at h
    unfold swapRemove
    rw [List.getLast?_append_cons, List.getLast?_singleton]
    dsimp only
    rcases Nat.lt_succ_iff_lt_or_eq.mp h with hlt | rfl
    · rw [List.set_append_left _ _ hlt, List.dropLast_concat,
        List.eraseIdx_append_of_lt_length hlt]
      exact (List.set_perm_cons_eraseIdx hlt a).trans (List.perm_append_singleton a _).symm
    · rw [List.set_append_right _ _ le_rfl, List.eraseIdx_append_of_length_le le_rfl]
      simp

section Unordered

variable [DecidableEq α] {l : List α} {x y : α} {i : ℕ}

/-- Remove a value from an unordered list, at the place where a search from the
front finds it. -/
def discardEntry (l : List α) (x : α) : List α := swapRemove l (l.idxOf x)

/-- Up to order, this is the list without the value. -/
theorem discardEntry_perm (h : x ∈ l) : (discardEntry l x).Perm (l.erase x) := by
  rw [List.erase_eq_eraseIdx_of_idxOf rfl]
  exact swapRemove_perm (List.idxOf_lt_length_of_mem h)

theorem nodup_discardEntry (nodup : l.Nodup) (h : x ∈ l) : (discardEntry l x).Nodup :=
  (discardEntry_perm h).nodup_iff.mpr (nodup.erase x)

/-- Where the entries are distinct, the others stay and the value is gone. -/
theorem mem_discardEntry (nodup : l.Nodup) (h : x ∈ l) :
    y ∈ discardEntry l x ↔ y ≠ x ∧ y ∈ l := by
  rw [(discardEntry_perm h).mem_iff, nodup.mem_erase_iff]

theorem length_discardEntry (h : x ∈ l) : (discardEntry l x).length + 1 = l.length := by
  rw [(discardEntry_perm h).length_eq, List.length_erase_of_mem h]
  have := List.length_pos_of_mem h
  omega

end Unordered

/-! ## Unordered lists with an index

A program that removes a value it knows does not search for it: it keeps the
place of each entry, and corrects the place of the one that was moved. -/

/-- The place of every entry is known.  What the map says of values that are not
in the list is left open. -/
def Indexed (l : List α) (place : α → ℕ) : Prop := ∀ i a, l[i]? = some a → place a = i

namespace Indexed

variable {l : List α} {place : α → ℕ} {x : α}

/-- Two places with one entry would be one place. -/
theorem nodup (h : Indexed l place) : l.Nodup := by
  rw [List.nodup_iff_getElem?_ne_getElem?]
  intro i j hij hj heq
  obtain ⟨a, ha⟩ : ∃ a, l[j]? = some a := ⟨_, List.getElem?_eq_getElem hj⟩
  have := (h i a (heq.trans ha)).symm.trans (h j a ha)
  omega

variable [DecidableEq α]

/-- The place is where a search finds the entry. -/
theorem place_eq (h : Indexed l place) (hx : x ∈ l) : place x = l.idxOf x :=
  h _ _ (List.getElem?_idxOf hx)

/-- A new entry at the end, whose place is the length of the list before it. -/
theorem concat (h : Indexed l place) (hx : x ∉ l) :
    Indexed (l ++ [x]) (Function.update place x l.length) := by
  intro i a ha
  rcases Nat.lt_or_ge i l.length with hlt | hge
  · rw [List.getElem?_append_left hlt] at ha
    have hax : a ≠ x := fun hax => hx (hax ▸ List.mem_of_getElem? ha)
    rw [Function.update_of_ne hax, h i a ha]
  · rw [List.getElem?_append_right hge, List.getElem?_singleton] at ha
    split at ha
    case isTrue hi =>
      obtain rfl := Option.some.inj ha
      rw [Function.update_self]
      omega
    case isFalse => exact absurd ha (by simp)

/-- **An entry is removed**, and the last one is found in its place. -/
theorem discard (h : Indexed l place) (hx : x ∈ l) {last : α} (hlast : l.getLast? = some last) :
    Indexed (discardEntry l x) (Function.update place last (place x)) := by
  have hlt : place x < l.length := by
    rw [h.place_eq hx]
    exact List.idxOf_lt_length_of_mem hx
  have hend : place last = l.length - 1 :=
    h _ _ (List.getLast?_eq_getElem?.symm.trans hlast)
  intro i a ha
  rw [discardEntry, ← h.place_eq hx, swapRemove, hlast] at ha
  dsimp only at ha
  rw [List.getElem?_dropLast, List.length_set] at ha
  split at ha
  case isFalse => exact absurd ha (by simp)
  case isTrue hi =>
    by_cases hix : place x = i
    · subst hix
      rw [List.getElem?_set_self hlt] at ha
      rw [← Option.some.inj ha, Function.update_self]
    · rw [List.getElem?_set_ne hix] at ha
      have hal : a ≠ last := by
        rintro rfl
        have := h i a ha
        omega
      rw [Function.update_of_ne hal, h i a ha]

end Indexed

/-! ## Samples -/

/-- A list of distinct members of a set, at most `keep` of them, with every
member while the list is no longer than `refill`. -/
structure Sample (keep refill : ℕ) (l : List α) (S : Set α) : Prop where
  nodup : l.Nodup
  sub : ∀ x ∈ l, x ∈ S
  short : l.length ≤ keep
  full : l.length ≤ refill → ∀ x ∈ S, x ∈ l

variable [DecidableEq α] {keep refill : ℕ} {l m : List α} {S T : Set α} {x : α}

/-- Add a member, where it is new and there is room.  A full list stays as it
is: what it does not hold is not asked for. -/
def addEntry (keep : ℕ) (l : List α) (x : α) : List α :=
  if l.length < keep ∧ x ∉ l then l ++ [x] else l

theorem length_le_addEntry (l : List α) (x : α) : l.length ≤ (addEntry keep l x).length := by
  unfold addEntry
  split <;> simp

/-- Adding never makes a list shorter, so one that was long enough stays so. -/
theorem length_le_foldl_addEntry (l m : List α) :
    l.length ≤ (m.foldl (addEntry keep) l).length := by
  induction m generalizing l with
  | nil => exact le_rfl
  | cons x m ih => exact (length_le_addEntry l x).trans (ih _)

/-- There is no room in a full list, whatever is to be added. -/
theorem foldl_addEntry_of_full (h : keep ≤ l.length) (m : List α) :
    m.foldl (addEntry keep) l = l := by
  induction m with
  | nil => rfl
  | cons x m ih => rw [List.foldl_cons, addEntry, if_neg fun hx => by omega, ih]

theorem addEntry_of_mem (h : x ∈ l) : addEntry keep l x = l := if_neg fun hx => hx.2 h

theorem addEntry_of_lt (h : l.length < keep) (hx : x ∉ l) : addEntry keep l x = l ++ [x] :=
  if_pos ⟨h, hx⟩

namespace Sample

omit [DecidableEq α] in
theorem empty (keep refill : ℕ) : Sample keep refill ([] : List α) ∅ :=
  ⟨List.nodup_nil, by simp, Nat.zero_le _, by simp⟩

omit [DecidableEq α] in
/-- An empty sample is a sample of nothing: the list is short, so it is
complete. -/
theorem eq_empty (h : Sample keep refill [] S) : S = ∅ :=
  Set.eq_empty_of_forall_notMem fun x hx => List.not_mem_nil (h.full (Nat.zero_le _) x hx)

omit [DecidableEq α] in
/-- A sample of one, where more would be seen.  So a list of length one tells
that the set has one member. -/
theorem length_eq_one_iff (h : Sample keep refill l S) (pos : 0 < refill) :
    l.length = 1 ↔ ∃ x, S = {x} := by
  rw [List.length_eq_one_iff]
  constructor
  · rintro ⟨x, rfl⟩
    refine ⟨x, Set.eq_singleton_iff_unique_mem.mpr ⟨h.sub x (by simp), fun y hy => ?_⟩⟩
    exact List.mem_singleton.mp (h.full pos y hy)
  · rintro ⟨x, rfl⟩
    have only : ∀ y ∈ l, y = x := h.sub
    cases l with
    | nil => exact absurd (h.full (Nat.zero_le _) x rfl) List.not_mem_nil
    | cons a l =>
        obtain ⟨rfl, hl⟩ := List.forall_mem_cons.mp only
        refine ⟨a, ?_⟩
        cases l with
        | nil => rfl
        | cons b l =>
            have := hl b List.mem_cons_self
            exact absurd (this ▸ List.mem_cons_self) (List.nodup_cons.mp h.nodup).1

omit [DecidableEq α] in
theorem congr (h : Sample keep refill l S) (hST : S = T) : Sample keep refill l T := hST ▸ h

/-- **One more member.**  If it finds no room the list is longer than `refill`,
and need not be complete. -/
theorem add (h : Sample keep refill l S) (lt : refill < keep) (x : α) :
    Sample keep refill (addEntry keep l x) (insert x S) := by
  unfold addEntry
  split
  case isTrue hnew =>
    refine ⟨?_, fun y hy => ?_, ?_, fun hlen y hy => ?_⟩
    · exact List.nodup_append.mpr ⟨h.nodup, List.nodup_singleton x, fun a ha b hb hab =>
        hnew.2 (List.mem_singleton.mp hb ▸ hab ▸ ha)⟩
    · rcases List.mem_append.mp hy with hy | hy
      · exact Set.mem_insert_of_mem x (h.sub y hy)
      · exact List.mem_singleton.mp hy ▸ Set.mem_insert x S
    · rw [List.length_append, List.length_singleton]
      omega
    · rw [List.length_append, List.length_singleton] at hlen
      rcases hy with rfl | hy
      · simp
      · exact List.mem_append_left _ (h.full (by omega) y hy)
  case isFalse hold =>
    refine ⟨h.nodup, fun y hy => Set.mem_insert_of_mem x (h.sub y hy), h.short, fun hlen y hy => ?_⟩
    rcases hy with rfl | hy
    · by_contra hmem
      exact hold ⟨by omega, hmem⟩
    · exact h.full hlen y hy

/-- Several more members, one after another. -/
theorem addList (h : Sample keep refill l S) (lt : refill < keep) (m : List α) :
    Sample keep refill (m.foldl (addEntry keep) l) (S ∪ {x | x ∈ m}) := by
  induction m generalizing l S with
  | nil => exact h.congr (by simp)
  | cons x m ih =>
      refine (ih (h.add lt x)).congr ?_
      ext y
      simp only [Set.mem_union, Set.mem_insert_iff, Set.mem_ofPred_eq, List.mem_cons]
      tauto

/-- **A joint sample** of two sets: the members of one list are added to the
other.  Where the second list is incomplete it is long, and so is the joint
one. -/
theorem addAll (h : Sample keep refill l S) (h' : Sample keep refill m T) (lt : refill < keep) :
    Sample keep refill (m.foldl (addEntry keep) l) (S ∪ T) := by
  have hm := h.addList lt m
  refine ⟨hm.nodup, fun x hx => ?_, hm.short, fun hlen x hx => ?_⟩
  · exact (hm.sub x hx).imp id fun hx => h'.sub x hx
  · -- a short result holds all of `m`, which is therefore short as well
    have hsub : m ⊆ m.foldl (addEntry keep) l := fun y hy => hm.full hlen y (.inr hy)
    have hle : m.length ≤ refill := (List.subperm_of_subset h'.nodup hsub).length_le.trans hlen
    exact hm.full hlen x (hx.imp id fun hx => h'.full hle x hx)

/-- **One member less**: the list is filled up from the candidates when it has
become as short as `refill`. -/
theorem discard (h : Sample keep refill l S) (lt : refill < keep) {candidates : List α}
    (hcand : ∀ y, y ∈ candidates ↔ y ∈ S ∧ y ≠ x) :
    Sample keep refill
      (if x ∈ l then
        if (discardEntry l x).length = refill then
          candidates.foldl (addEntry keep) (discardEntry l x)
        else discardEntry l x
      else l) (S \ {x}) := by
  split
  case isFalse hx =>
    exact ⟨h.nodup, fun y hy => ⟨h.sub y hy, fun hyx => hx (hyx ▸ hy)⟩, h.short,
      fun hlen y hy => h.full hlen y hy.1⟩
  case isTrue hx =>
    have hlen := length_discardEntry hx
    have hsub : ∀ y ∈ discardEntry l x, y ∈ S \ {x} := fun y hy =>
      have hy := (mem_discardEntry h.nodup hx).mp hy
      ⟨h.sub y hy.2, hy.1⟩
    have hshort := h.short
    split
    case isFalse hne =>
      refine ⟨nodup_discardEntry h.nodup hx, hsub, by omega, fun hle y hy => ?_⟩
      exact (mem_discardEntry h.nodup hx).mpr ⟨hy.2, h.full (by omega) y hy.1⟩
    case isTrue heq =>
      have start : Sample keep refill (discardEntry l x) {y | y ∈ discardEntry l x} :=
        ⟨nodup_discardEntry h.nodup hx, fun _ hy => hy, by omega, fun _ _ hy => hy⟩
      refine (start.addList lt candidates).congr (Set.ext fun y => ?_)
      constructor
      · rintro (hy | hy)
        · exact hsub y hy
        · exact (hcand y).mp hy
      · exact fun hy => .inr ((hcand y).mpr hy)

end Sample

end Verif
