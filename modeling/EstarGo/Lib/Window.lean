import Mathlib.Data.List.Induction

/-!
# A window over a stream

A recorder keeps the last `n` entries of a stream, and raises a flag at an entry
that is among them.  Such an entry is not kept, and the flag is never lowered.

## Main definitions

* `lastN`, `RepeatsWithin` — the last entries of a stream, and a stream in which
  two entries close to each other are equal.
* `Recorder`, `Recorder.record` — the window with its flag, and what one more
  entry does to it.
* `RepeatsAt` — a repetition at one place, for a window with anything in it.

## Main results

* `repeatsWithin_concat`: when one more entry makes a repetition.
* `Recorder.repeated_iff`: from a window filled with one entry, the flag says
  exactly that the stream after this entry repeats within the window.
* `Recorder.sameFlags_iff`: when two windows on one stream raise their flags
  together.

## Design notes

**Filling.**  A program that starts with a window of a fixed size fills it with
some first entry.  Since membership is all that is asked of the window, the
copies count as one entry, and the stream is read as if it began with that entry
once (`mem_lastN_replicate_append`).

**After a repetition** the window is a place behind, because the entry is not
kept.  This cannot be seen in the flag, which is up already; it can be seen
where the window is compared with another one that had other entries, which is
what the last section is about.
-/

namespace Verif

universe u

variable {α : Type u}

/-- The last `n` entries, or all of them where there are fewer. -/
def lastN (n : ℕ) (l : List α) : List α := l.drop (l.length - n)

/-- Two entries that are at most `n` apart are equal.  The places are given, so
that the statement does not depend on how the stream was recorded. -/
def RepeatsWithin (n : ℕ) (l : List α) : Prop :=
  ∃ i j a, i < j ∧ j ≤ i + n ∧ l[i]? = some a ∧ l[j]? = some a

/-! ## The last entries -/

/-- A short list is its own window. -/
theorem lastN_of_length_le {n : ℕ} {l : List α} (h : l.length ≤ n) : lastN n l = l := by
  rw [lastN, Nat.sub_eq_zero_of_le h, List.drop_zero]

/-- What stands before the last entries does not matter. -/
theorem lastN_append {n : ℕ} {l : List α} (h : n ≤ l.length) (pre : List α) :
    lastN n (pre ++ l) = lastN n l := by
  have hle : pre.length ≤ (pre ++ l).length - n := by
    rw [List.length_append]
    omega
  rw [lastN, List.drop_append, List.drop_eq_nil_of_le hle, List.nil_append, lastN,
    List.length_append]
  congr 1
  omega

/-- The window after one more entry is that of the window: what has left it
stays outside. -/
theorem lastN_lastN_append (n : ℕ) (l : List α) (a : α) :
    lastN n (lastN n l ++ [a]) = lastN n (l ++ [a]) := by
  rcases Nat.le_total l.length n with h | h
  · rw [lastN_of_length_le h]
  · have hlen : (lastN n l ++ [a]).length = n + 1 := by
      simp only [lastN, List.length_append, List.length_drop, List.length_singleton]
      omega
    conv_rhs => rw [← List.take_append_drop (l.length - n) l, List.append_assoc]
    exact (lastN_append (hlen ▸ Nat.le_succ n) _).symm

/-- What is in the window stands at one of the last places. -/
theorem mem_lastN_iff {n : ℕ} {l : List α} {a : α} :
    a ∈ lastN n l ↔ ∃ i, l.length ≤ i + n ∧ l[i]? = some a := by
  rw [lastN, List.mem_iff_getElem?]
  constructor
  · rintro ⟨i, hi⟩
    rw [List.getElem?_drop] at hi
    exact ⟨_, by omega, hi⟩
  · rintro ⟨i, hle, hi⟩
    refine ⟨i - (l.length - n), ?_⟩
    rw [List.getElem?_drop, Nat.add_sub_cancel' (by omega)]
    exact hi

/-- A window that was filled with the entry before the stream has the same
members as one that was not filled and has this entry once. -/
theorem mem_lastN_replicate_append (n : ℕ) (z a : α) (l : List α) :
    a ∈ lastN n (List.replicate n z ++ l) ↔ a ∈ lastN n (z :: l) := by
  rcases Nat.lt_or_ge l.length n with h | h
  · have hsplit : List.replicate n z ++ l =
        List.replicate l.length z ++ (List.replicate (n - l.length) z ++ l) := by
      rw [← List.append_assoc, List.replicate_append_replicate,
        Nat.add_sub_cancel' (Nat.le_of_lt h)]
    have hlen : (List.replicate (n - l.length) z ++ l).length = n := by
      rw [List.length_append, List.length_replicate, Nat.sub_add_cancel (Nat.le_of_lt h)]
    have hne : n - l.length ≠ 0 := Nat.sub_ne_zero_of_lt h
    rw [hsplit, lastN_append (Nat.le_of_eq hlen.symm), lastN_of_length_le (Nat.le_of_eq hlen),
      lastN_of_length_le h]
    simp [hne]
  · rw [lastN_append h, ← List.singleton_append, lastN_append h]

/-! ## Repetitions -/

/-- **One more entry** repeats when it is among the last entries before it.
What has repeated before stays repeated. -/
theorem repeatsWithin_concat {n : ℕ} {l : List α} {a : α} :
    RepeatsWithin n (l ++ [a]) ↔ RepeatsWithin n l ∨ a ∈ lastN n l := by
  constructor
  · rintro ⟨i, j, b, hij, hn, hi, hj⟩
    have hjlen : j < (l ++ [a]).length := (List.getElem?_eq_some_iff.mp hj).1
    rw [List.length_append, List.length_singleton] at hjlen
    rw [List.getElem?_append_left (by omega)] at hi
    rcases Nat.lt_succ_iff_lt_or_eq.mp hjlen with h | h
    · rw [List.getElem?_append_left h] at hj
      exact .inl ⟨i, j, b, hij, hn, hi, hj⟩
    · rw [h, List.getElem?_concat_length] at hj
      obtain rfl := Option.some.inj hj
      exact .inr (mem_lastN_iff.mpr ⟨i, h ▸ hn, hi⟩)
  · rintro (⟨i, j, b, hij, hn, hi, hj⟩ | h)
    · have hjlen : j < l.length := (List.getElem?_eq_some_iff.mp hj).1
      refine ⟨i, j, b, hij, hn, ?_, ?_⟩
      · rw [List.getElem?_append_left (Nat.lt_trans hij hjlen), hi]
      · rw [List.getElem?_append_left hjlen, hj]
    · obtain ⟨i, hn, hi⟩ := mem_lastN_iff.mp h
      have hilen : i < l.length := (List.getElem?_eq_some_iff.mp hi).1
      refine ⟨i, l.length, a, hilen, hn, ?_, List.getElem?_concat_length⟩
      rw [List.getElem?_append_left hilen, hi]

/-- The entry at a place of the stream is among the last `n` before it, where
the entries `w` stand before the stream. -/
def RepeatsAt (n : ℕ) (w l : List α) (i : ℕ) : Prop :=
  ∃ a ∈ l[i]?, a ∈ lastN n (w ++ l.take i)

instance decidableRepeatsAt [DecidableEq α] (n : ℕ) (w l : List α) (i : ℕ) :
    Decidable (RepeatsAt n w l i) :=
  inferInstanceAs (Decidable (∃ a ∈ l[i]?, a ∈ lastN n (w ++ l.take i)))

/-- Only what stands before an entry matters: a repetition at a place is one in
every initial part that reaches it. -/
theorem repeatsAt_take {n k i : ℕ} {w l : List α} :
    RepeatsAt n w (l.take k) i ↔ i < k ∧ RepeatsAt n w l i := by
  unfold RepeatsAt
  rcases Nat.lt_or_ge i k with h | h
  · rw [List.getElem?_take_of_lt h, List.take_take, Nat.min_eq_left (Nat.le_of_lt h)]
    simp [h]
  · rw [List.getElem?_take, if_neg (Nat.not_lt.mpr h)]
    simp [Nat.not_lt.mpr h]

/-- One more entry makes a repetition at its own place and at no other. -/
theorem repeatsAt_concat {n : ℕ} {w l : List α} {a : α} :
    (∃ i, RepeatsAt n w (l ++ [a]) i) ↔ (∃ i, RepeatsAt n w l i) ∨ a ∈ lastN n (w ++ l) := by
  have hlast : RepeatsAt n w (l ++ [a]) l.length ↔ a ∈ lastN n (w ++ l) := by
    simp [RepeatsAt]
  have hold (i : ℕ) : RepeatsAt n w l i ↔ i < l.length ∧ RepeatsAt n w (l ++ [a]) i := by
    rw [← repeatsAt_take, List.take_left]
  constructor
  · rintro ⟨i, hi⟩
    obtain ⟨b, hb, -⟩ := id hi
    have hlen : i < (l ++ [a]).length := (List.getElem?_eq_some_iff.mp hb).1
    rw [List.length_append, List.length_singleton] at hlen
    rcases Nat.lt_succ_iff_lt_or_eq.mp hlen with h | rfl
    · exact .inl ⟨i, (hold i).mpr ⟨h, hi⟩⟩
    · exact .inr (hlast.mp hi)
  · rintro (⟨i, hi⟩ | h)
    · exact ⟨i, ((hold i).mp hi).2⟩
    · exact ⟨l.length, hlast.mpr h⟩

/-- Two conditions have come true by the same times exactly when they come true
first at the same time.  This is where agreement at all times becomes a
statement about the first event. -/
theorem exists_lt_iff_first {R R' : ℕ → Prop} :
    (∀ k, (∃ i < k, R i) ↔ ∃ i < k, R' i) ↔ ∀ i, (∀ j < i, ¬ R' j) → (R i ↔ R' i) := by
  constructor
  · intro h i hfirst
    have hbefore : ¬ ∃ j < i, R j := by
      rw [h i]
      rintro ⟨j, hj, hR⟩
      exact hfirst j hj hR
    constructor
    · intro hR
      obtain ⟨j, hj, hR'⟩ := (h (i + 1)).mp ⟨i, Nat.lt_succ_self i, hR⟩
      rcases Nat.lt_succ_iff_lt_or_eq.mp hj with hlt | rfl
      · exact absurd hR' (hfirst j hlt)
      · exact hR'
    · intro hR'
      obtain ⟨j, hj, hR⟩ := (h (i + 1)).mpr ⟨i, Nat.lt_succ_self i, hR'⟩
      rcases Nat.lt_succ_iff_lt_or_eq.mp hj with hlt | rfl
      · exact absurd ⟨j, hlt, hR⟩ hbefore
      · exact hR
  · intro h k
    induction k with
    | zero => simp
    | succ k ih =>
        by_cases hbefore : ∃ i < k, R' i
        · have hleft := ih.mpr hbefore
          obtain ⟨i, hi, hR'⟩ := hbefore
          obtain ⟨j, hj, hR⟩ := hleft
          exact ⟨fun _ => ⟨i, Nat.lt_succ_of_lt hi, hR'⟩, fun _ => ⟨j, Nat.lt_succ_of_lt hj, hR⟩⟩
        · have hnow := h k fun j hj hR' => hbefore ⟨j, hj, hR'⟩
          have hnone : ¬ ∃ i < k, R i := fun hex => hbefore (ih.mp hex)
          simp only [Nat.lt_succ_iff_lt_or_eq, or_and_right, exists_or, exists_eq_left]
          simp only [hbefore, hnone, false_or, hnow]

/-! ## The recorder -/

/-- A window, and whether an entry was among the ones it held. -/
@[ext]
structure Recorder (α : Type u) where
  window : List α
  repeated : Bool

namespace Recorder

variable [DecidableEq α]

/-- A window of size `n` that is filled with one entry. -/
def start (n : ℕ) (z : α) : Recorder α := ⟨List.replicate n z, false⟩

/-- Record one entry.  An entry that the window holds raises the flag and is not
kept; any other enters the window, which loses its oldest one. -/
def record (n : ℕ) (r : Recorder α) (a : α) : Recorder α :=
  if a ∈ r.window then { r with repeated := true }
  else { r with window := lastN n (r.window ++ [a]) }

theorem record_of_mem {n : ℕ} {r : Recorder α} {a : α} (h : a ∈ r.window) :
    record n r a = { r with repeated := true } := if_pos h

theorem record_of_not_mem {n : ℕ} {r : Recorder α} {a : α} (h : a ∉ r.window) :
    record n r a = { r with window := lastN n (r.window ++ [a]) } := if_neg h

/-- One more entry raises the flag when the window holds it, and nothing lowers
it. -/
theorem repeated_record {n : ℕ} {r : Recorder α} {a : α} :
    (record n r a).repeated = true ↔ r.repeated = true ∨ a ∈ r.window := by
  by_cases h : a ∈ r.window
  · simp [record_of_mem h, h]
  · simp [record_of_not_mem h, h]

/-- The recorder after a stream and one more entry. -/
theorem foldl_record_concat (n : ℕ) (r : Recorder α) (l : List α) (a : α) :
    (l ++ [a]).foldl (record n) r = record n (l.foldl (record n) r) a := by
  rw [List.foldl_append, List.foldl_cons, List.foldl_nil]

/-- Until the flag is raised, the window holds the last entries, those it
started with among them while they are recent enough. -/
theorem window_foldl_record_of_le {n : ℕ} {w : List α} (hw : w.length ≤ n) (l : List α)
    (h : (l.foldl (record n) ⟨w, false⟩).repeated = false) :
    (l.foldl (record n) ⟨w, false⟩).window = lastN n (w ++ l) := by
  induction l using List.reverseRecOn with
  | nil => rw [List.append_nil, lastN_of_length_le hw, List.foldl_nil]
  | append_singleton l a ih =>
      rw [foldl_record_concat] at h ⊢
      by_cases hmem : a ∈ (l.foldl (record n) ⟨w, false⟩).window
      · rw [record_of_mem hmem] at h
        exact absurd h (by simp)
      · rw [record_of_not_mem hmem] at h ⊢
        show lastN n (_ ++ [a]) = _
        rw [ih h, lastN_lastN_append, List.append_assoc]

/-- The same, from a window that was filled with one entry. -/
theorem window_foldl_record (n : ℕ) (z : α) (l : List α)
    (h : (l.foldl (record n) (start n z)).repeated = false) :
    (l.foldl (record n) (start n z)).window = lastN n (List.replicate n z ++ l) :=
  window_foldl_record_of_le (Nat.le_of_eq List.length_replicate) l h

/-- **The flag is exact.**  It is up after a stream if and only if two entries
of it that are at most `n` apart are equal, with the entry that filled the
window in front. -/
theorem repeated_iff (n : ℕ) (z : α) (l : List α) :
    (l.foldl (record n) (start n z)).repeated = true ↔ RepeatsWithin n (z :: l) := by
  induction l using List.reverseRecOn with
  | nil =>
      have hstart : ((([] : List α).foldl (record n) (start n z)).repeated = true) ↔ False := by
        simp [start]
      rw [hstart, false_iff]
      rintro ⟨i, j, a, hij, -, -, hj⟩
      have hjlen : j < [z].length := (List.getElem?_eq_some_iff.mp hj).1
      rw [List.length_singleton] at hjlen
      omega
  | append_singleton l a ih =>
      rw [foldl_record_concat, repeated_record, ← List.cons_append, repeatsWithin_concat, ← ih]
      -- once the flag is raised the window says nothing
      cases hr : (l.foldl (record n) (start n z)).repeated with
      | true => simp
      | false => rw [window_foldl_record n z l hr, mem_lastN_replicate_append]

/-! ## Two windows on one stream -/

/-- The flag, from any window: it is up exactly when some entry was in the
window that stood before it. -/
theorem repeated_foldl_iff {n : ℕ} {w : List α} (hw : w.length ≤ n) (l : List α) :
    (l.foldl (record n) ⟨w, false⟩).repeated = true ↔ ∃ i, RepeatsAt n w l i := by
  induction l using List.reverseRecOn with
  | nil => simp [RepeatsAt]
  | append_singleton l a ih =>
      rw [foldl_record_concat, repeated_record, repeatsAt_concat, ← ih]
      cases hr : (l.foldl (record n) ⟨w, false⟩).repeated with
      | true => simp
      | false => rw [window_foldl_record_of_le hw l hr]

/-- Two recorders of one stream raise their flags together: after every initial
part of the stream both are up or none is. -/
def SameFlags (n : ℕ) (r r' : Recorder α) (l : List α) : Prop :=
  ∀ k, ((l.take k).foldl (record n) r).repeated = ((l.take k).foldl (record n) r').repeated

theorem sameFlags_nil {n : ℕ} {r r' : Recorder α} :
    SameFlags n r r' [] ↔ r.repeated = r'.repeated := by
  simp [SameFlags]

/-- Two recorders agree when they do now, and after one more entry. -/
theorem sameFlags_cons {n : ℕ} {r r' : Recorder α} {a : α} {l : List α} :
    SameFlags n r r' (a :: l) ↔
      r.repeated = r'.repeated ∧ SameFlags n (record n r a) (record n r' a) l := by
  constructor
  · intro h
    exact ⟨h 0, fun k => h (k + 1)⟩
  · rintro ⟨h, hrest⟩ k
    cases k with
    | zero => exact h
    | succ k => exact hrest k

/-- **Two windows** on one stream agree exactly when no flag was up and the
first entry that repeats with one of them is the first that does with the other.
The second window is that of a recorder that has seen nothing. -/
theorem sameFlags_iff {n : ℕ} {w w' : List α} {flag : Bool} (hw : w.length ≤ n)
    (hw' : w'.length ≤ n) (l : List α) :
    SameFlags n ⟨w, flag⟩ ⟨w', false⟩ l ↔
      flag = false ∧ ∀ i, (∀ j < i, ¬ RepeatsAt n w' l j) →
        (RepeatsAt n w l i ↔ RepeatsAt n w' l i) := by
  have hflag (h : flag = false) : SameFlags n ⟨w, flag⟩ ⟨w', false⟩ l ↔
      ∀ i, (∀ j < i, ¬ RepeatsAt n w' l j) → (RepeatsAt n w l i ↔ RepeatsAt n w' l i) := by
    rw [← exists_lt_iff_first, h]
    refine forall_congr' fun k => ?_
    rw [Bool.eq_iff_iff, repeated_foldl_iff hw, repeated_foldl_iff hw']
    simp only [repeatsAt_take]
  constructor
  · intro h
    have hfalse : flag = false := h 0
    exact ⟨hfalse, (hflag hfalse).mp h⟩
  · rintro ⟨hfalse, h⟩
    exact (hflag hfalse).mpr h

end Recorder

end Verif
