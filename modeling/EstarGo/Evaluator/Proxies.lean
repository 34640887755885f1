import EstarGo.Lib.Machine
import EstarGo.Player.Player

/-!
# The proxy of a batch

A sender thread counts its batches in `proxy_count`, an `int` that starts at
zero and is never reset, and sends each batch to the proxy
`proxy_count % proxy_number_`.  Dummy batches are counted too.  The counter
wraps after `2 ^ 31` batches, and the remainder of a negative number is not
positive.

## Main definitions

* `SendLoop` — the locals of `ProcessEval` that choose a proxy.
* `sendLoop` — the loop of `ProcessEval`, an iteration at a time.
* `SendLoop.InRange` — everything indexed so far is in its vector.

## Main results

* `inRange_iff_count`: what a loop has indexed is in range exactly if each count
  was.
* `target_inRange_iff`: the runs in which every target is in range.

## Design notes

**A loop of its own.**  Which proxy carries a batch does not matter to the
client, and what the client does does not matter to the count.  So the count is
taken out of the client's program and stepped alone.
-/

namespace EstarGo.Client

open Verif

/-! ## The loop

What a sender thread does with its count. -/

/-- The vectors that are indexed by a target.  The constructor pushes one
element to each of them for every proxy. -/
inductive ProxyVector where
  | prxs
  | requestLatencys
  | dummyRequestLatencys
  deriving DecidableEq, Repr

/-- `proxy_count % proxy_number_`: the remainder has the sign of the count.  So
a count that has wrapped below zero gives a negative index, unless the number of
proxies divides it. -/
def target (proxyCount proxyNumber : ℤ) : ℤ := proxyCount.tmod proxyNumber

/-- What `SyncRequest` indexes: the proxy. -/
def syncRequest (proxyNumber proxyCount : ℤ) : List (ProxyVector × ℤ) :=
  [(.prxs, target proxyCount proxyNumber)]

/-- What `AsynRequest` indexes: the latency record that the batch will fill, and
the proxy. -/
def asynRequest (proxyNumber proxyCount : ℤ) : List (ProxyVector × ℤ) :=
  [(.requestLatencys, target proxyCount proxyNumber), (.prxs, target proxyCount proxyNumber)]

/-- What `AsyncRequestDummyData` indexes. -/
def asyncRequestDummyData (proxyNumber proxyCount : ℤ) : List (ProxyVector × ℤ) :=
  [(.dummyRequestLatencys, target proxyCount proxyNumber),
    (.prxs, target proxyCount proxyNumber)]

/-- The count of a sender thread, and a record: what its requests have
indexed. -/
structure SendLoop where
  proxyCount : ℤ
  indexed : List (ProxyVector × ℤ)
  deriving DecidableEq, Repr

/-- An iteration of `ProcessEval`, by what it finds: no request is waiting, or
some are. -/
inductive Iteration where
  | dummy
  | batch
  deriving DecidableEq, Repr

namespace SendLoop

/-- `int proxy_count = 0`, before the loop. -/
def start : SendLoop := ⟨0, []⟩

/-- A request, and `proxy_count += 1`. -/
def count (s : SendLoop) (indexed : List (ProxyVector × ℤ)) : SendLoop :=
  { proxyCount := toInt (s.proxyCount + 1)
    indexed := s.indexed ++ indexed }

/-- An iteration of `ProcessEval`; without asynchronous requests it waits for a
batch, and no dummy batch is sent. -/
def processEval (isAsyn : Bool) (proxyNumber : ℤ) (s : SendLoop) : Iteration → Option SendLoop
  | .dummy =>
      if isAsyn then some (s.count (asyncRequestDummyData proxyNumber s.proxyCount)) else none
  | .batch =>
      if isAsyn then some (s.count (asynRequest proxyNumber s.proxyCount))
      else some (s.count (syncRequest proxyNumber s.proxyCount))

/-- Everything indexed so far is in its vector. -/
def InRange (proxyNumber : ℤ) (s : SendLoop) : Prop :=
  ∀ access ∈ s.indexed, 0 ≤ access.2 ∧ access.2 < proxyNumber

instance (n : ℤ) (s : SendLoop) : Decidable (s.InRange n) :=
  inferInstanceAs (Decidable (∀ access ∈ s.indexed, 0 ≤ access.2 ∧ access.2 < n))

end SendLoop

/-- The loop of a sender thread. -/
def sendLoop (isAsyn : Bool) (proxyNumber : ℤ) : Machine SendLoop Iteration where
  step := SendLoop.processEval isAsyn proxyNumber

/-! ## What a run indexes

Each iteration counts once and indexes by one target. -/

section

variable {isAsyn : Bool} {n : ℤ} {s t : SendLoop}

/-- What one iteration does: it indexes by one target, at least once, and
counts. -/
theorem processEval_cases {i : Iteration} (h : s.processEval isAsyn n i = some t) :
    t.proxyCount = toInt (s.proxyCount + 1) ∧
      (t.InRange n ↔ s.InRange n ∧
        0 ≤ target s.proxyCount n ∧ target s.proxyCount n < n) := by
  have counted {indexed : List (ProxyVector × ℤ)}
      (targets : ∀ access ∈ indexed, access.2 = target s.proxyCount n)
      (some_access : indexed ≠ []) :
      (s.count indexed).InRange n ↔ s.InRange n ∧
        0 ≤ target s.proxyCount n ∧ target s.proxyCount n < n := by
    obtain ⟨access, mem⟩ := List.exists_mem_of_ne_nil _ some_access
    simp only [SendLoop.InRange, SendLoop.count, List.forall_mem_append]
    refine and_congr_right fun _ => ⟨fun all => ?_, fun h access mem => ?_⟩
    · rw [← targets access mem]
      exact all access mem
    · rw [targets access mem]
      exact h
  cases i with
  | dummy =>
      cases isAsyn with
      | false => cases h
      | true =>
          obtain rfl := Option.some.inj h
          exact ⟨rfl, counted (by simp [asyncRequestDummyData]) (by simp [asyncRequestDummyData])⟩
  | batch =>
      cases isAsyn with
      | false =>
          obtain rfl := Option.some.inj h
          exact ⟨rfl, counted (by simp [syncRequest]) (by simp [syncRequest])⟩
      | true =>
          obtain rfl := Option.some.inj h
          exact ⟨rfl, counted (by simp [asynRequest]) (by simp [asynRequest])⟩

/-- Wrapping at each step is wrapping once. -/
theorem toInt_toInt_add_one (x : ℤ) : toInt (toInt x + 1) = toInt (x + 1) :=
  Int.bmod_add_bmod

/-- From a count on, everything indexed is in range exactly if it was and each
target is. -/
theorem inRange_iff_count {m : ℕ} {run : List Iteration} (start : s.proxyCount = toInt m)
    (h : (sendLoop isAsyn n).exec s run = some t) :
    t.InRange n ↔ s.InRange n ∧
      ∀ k < run.length, 0 ≤ target (toInt (m + k : ℕ)) n ∧ target (toInt (m + k : ℕ)) n < n := by
  induction run generalizing s m with
  | nil =>
      cases h
      simp
  | cons i run ih =>
      obtain ⟨r, hr, rest⟩ := Machine.exec_cons_eq_some _ h
      obtain ⟨next, step⟩ := processEval_cases hr
      have counted : r.proxyCount = toInt (m + 1 : ℕ) := by
        rw [next, start, toInt_toInt_add_one]
        rfl
      rw [ih counted rest, step, start, List.length_cons, and_assoc]
      refine and_congr_right fun _ => ⟨fun ⟨head, tail⟩ k hk => ?_, fun all => ⟨?_, fun k hk => ?_⟩⟩
      · cases k with
        | zero => exact head
        | succ k =>
            rw [show m + (k + 1) = m + 1 + k by omega]
            exact tail k (by omega)
      · exact all 0 (by omega)
      · rw [show m + 1 + k = m + (k + 1) by omega]
        exact all (k + 1) (by omega)

end

/-! ## The counts that are in range

Which counts a remainder takes into the range of the proxies. -/

/-- A target is in range exactly if the count is not negative or is divided. -/
theorem target_inRange {n : ℤ} (hn : 1 ≤ n) (c : ℤ) :
    0 ≤ target c n ∧ target c n < n ↔ 0 ≤ c ∨ n ∣ c := by
  refine ⟨fun ⟨nonneg, _⟩ => ?_, fun h => ⟨?_, Int.tmod_lt_of_pos c (by omega)⟩⟩
  · rcases le_or_gt 0 c with hc | hc
    · exact .inl hc
    · -- the remainder of a negative number is not positive
      have negated := Int.tmod_nonneg n (a := -c) (by omega)
      rw [Int.neg_tmod] at negated
      exact .inr (Int.dvd_of_tmod_eq_zero (le_antisymm (by omega) nonneg))
  · rcases h with hc | hc
    · exact Int.tmod_nonneg n hc
    · exact (Int.tmod_eq_zero_of_dvd hc).ge

/-- Up to the wrap the count is the number of batches. -/
theorem toInt_of_lt {k : ℕ} (h : k < 2 ^ 31) : toInt k = k :=
  Int.bmod_eq_of_le (by omega) (by omega)

/-- The counter wraps to the smallest `int`. -/
theorem toInt_wrapped {j : ℕ} (h : j < 2 ^ 31) : toInt ((2 ^ 31 + j : ℕ)) = j - 2 ^ 31 := by
  have shift : ((2 ^ 31 + j : ℕ) : ℤ) = (j - 2 ^ 31 : ℤ) + (2 ^ 32 : ℕ) := by
    push_cast
    ring
  rw [toInt, shift, Int.add_bmod_right, Int.bmod_eq_of_le] <;> omega

/-- The targets of a number of iterations are in range with one proxy; up to the
wrap; and at the wrap itself, if the number of proxies is a power of two.  The
count at the wrap is `-2 ^ 31` and the next one is `-2 ^ 31 + 1`, and no number
but one divides both. -/
theorem targets_inRange_iff {n : ℤ} (hn : 1 ≤ n) (iterations : ℕ) :
    (∀ k < iterations, 0 ≤ target (toInt k) n ∧ target (toInt k) n < n) ↔
      n = 1 ∨ iterations ≤ 2 ^ 31 ∨ iterations = 2 ^ 31 + 1 ∧ n ∣ 2 ^ 31 := by
  simp only [target_inRange hn]
  constructor
  · intro all
    rcases Nat.lt_or_ge (2 ^ 31) iterations with wrapped | short
    · have first := all (2 ^ 31 + 0) wrapped
      rw [toInt_wrapped (by norm_num)] at first
      have divides : n ∣ 2 ^ 31 := by
        rcases first with h | h
        · exact absurd h (by omega)
        · simpa using h
      rcases Nat.lt_or_ge (2 ^ 31 + 1) iterations with longer | atWrap
      · have second := all (2 ^ 31 + 1) longer
        rw [toInt_wrapped (by norm_num)] at second
        have unit : n ∣ 1 := by
          rcases second with h | h
          · exact absurd h (by omega)
          · simpa using dvd_add h divides
        exact .inl (Int.eq_one_of_dvd_one (by omega) unit)
      · exact .inr (.inr ⟨by omega, divides⟩)
    · exact .inr (.inl short)
  · rintro (rfl | short | ⟨rfl, divides⟩) k hk
    · exact .inr (one_dvd _)
    · rw [toInt_of_lt (by omega)]
      exact .inl (by omega)
    · rcases Nat.lt_or_ge k (2 ^ 31) with before | atWrap
      · rw [toInt_of_lt before]
        exact .inl (by omega)
      · obtain rfl : k = 2 ^ 31 + 0 := by omega
        rw [toInt_wrapped (by norm_num)]
        exact .inr (by simpa using divides)

/-! ## The runs of a sender thread -/

theorem inRange_iff_targets {isAsyn : Bool} {n : ℤ} {run : List Iteration} {t : SendLoop}
    (h : (sendLoop isAsyn n).exec .start run = some t) :
    t.InRange n ↔ ∀ k < run.length, 0 ≤ target (toInt k) n ∧ target (toInt k) n < n := by
  have zero : SendLoop.start.proxyCount = toInt (0 : ℕ) := rfl
  have nothing : SendLoop.start.InRange n := fun _ mem => absurd mem List.not_mem_nil
  rw [inRange_iff_count zero h]
  simp only [nothing, Nat.zero_add, true_and]

/-- **The runs whose targets are all in range**: those with one proxy, those of
at most `2 ^ 31` iterations, and those of one more where `2 ^ 31` is a multiple
of the number of proxies. -/
theorem target_inRange_iff (isAsyn : Bool) (n : ℤ) (hn : 1 ≤ n) (run : List Iteration)
    (t : SendLoop) (h : (sendLoop isAsyn n).exec .start run = some t) :
    t.InRange n ↔
      n = 1 ∨ run.length ≤ 2 ^ 31 ∨ run.length = 2 ^ 31 + 1 ∧ n ∣ 2 ^ 31 := by
  rw [inRange_iff_targets h]
  exact targets_inRange_iff hn run.length

/-- A dummy batch and two real ones go to the proxies 0, 1 and 0 of two. -/
theorem target_inRange_two :
    ∃ t, (sendLoop true 2).exec .start [.dummy, .batch, .batch] = some t ∧ t.InRange 2 ∧
      t.indexed.map Prod.snd = [0, 0, 1, 1, 0, 0] := by
  refine ⟨_, rfl, ?_, by decide⟩
  exact (target_inRange_iff true 2 (by decide) [.dummy, .batch, .batch] _ rfl).mpr
    (.inr (.inl (by decide)))

/-- While nothing is to be evaluated, a sender thread can send any number of
dummy batches. -/
theorem exec_dummies (n : ℤ) (iterations : ℕ) (s : SendLoop) :
    ∃ t, (sendLoop true n).exec s (List.replicate iterations .dummy) = some t := by
  induction iterations generalizing s with
  | zero => exact ⟨s, rfl⟩
  | succ k ih => exact ih _

theorem dummies_outOfRange (iterations : ℕ) (wrapped : 2 ^ 31 < iterations) :
    ∃ t, (sendLoop true 3).exec .start (List.replicate iterations .dummy) = some t ∧
      ¬ t.InRange 3 := by
  obtain ⟨t, ht⟩ := exec_dummies 3 iterations .start
  refine ⟨t, ht, fun inRange => ?_⟩
  have targets := (inRange_iff_targets ht).mp inRange
  rw [List.length_replicate] at targets
  rcases (targets_inRange_iff (by decide) iterations).mp targets with one | short | ⟨-, divides⟩
  · exact absurd one (by decide)
  · omega
  · exact absurd divides (by decide)

/-- With three proxies, the dummy batch after `2 ^ 31` others is sent outside
the vectors. -/
theorem target_outOfRange_three :
    ∃ t, (sendLoop true 3).exec .start (List.replicate (2 ^ 31 + 1) .dummy) = some t ∧
      ¬ t.InRange 3 :=
  dummies_outOfRange (2 ^ 31 + 1) (Nat.lt_succ_self _)

end EstarGo.Client
