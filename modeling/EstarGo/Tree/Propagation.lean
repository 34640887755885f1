import EstarGo.Board.Stones
import EstarGo.Tree.EarlyBreak

/-!
# What a scan proves of its node

A scan sets `is_terminate` and `result` of its node from the child that it
leaves in `best`: `max` after a child that is won, and `-max` where `best` is a
lost child.  A child that is not terminal has a score above the initial one, and
takes the place of a lost child in `best`.  So below the root `best` is a lost
child only where all the unmarked children are.

At the root the scan also skips children by their visits.  Where every unmarked
child that is not terminal is skipped so, `best` is a lost child, and the root
is lost without a proof.

## Main definitions

* `ProvedBy` — what the children prove.
* `SetsProved` — what a call sets of a node is proved by its children.
* `FalseLoss` — the roots that are lost without a proof.

## Main results

* `setsProved_decideBy_iff`: what one scan sets, by what it leaves in `best`.
* `proof_propagation`: below the root all that is set is proved, and at the root
  what is not a false loss.
* `proof_propagation_pruned`: a false loss.

## Design notes

**Both functions at once.**  The scan is the same, with and without pruning.
The results about it are stated for any `prune`, and the two functions differ
only in whether an undecided child can be passed.
-/

namespace EstarGo

open Verif

variable {B K : Type}

namespace Tree

/-- An unmarked child is won for the side that `max` stands for.  A marked child
may not be played to, so its result counts for nothing. -/
def Won (t : Tree K) (cs : List ℕ) (max : ℤ) : Prop :=
  ∃ c ∈ t.unmarked cs, (t.nodes c).isTerminate = true ∧ (t.nodes c).result = max

/-- Every unmarked child is lost for that side.  Where all children are marked
there is none to be lost, and the scan finds nothing. -/
def Lost (t : Tree K) (cs : List ℕ) (max : ℤ) : Prop :=
  ∀ c ∈ t.unmarked cs, (t.nodes c).isTerminate = true ∧ (t.nodes c).result = -max

/-- What the children prove of the result of their father.  One won child is
enough, and a loss needs all of them. -/
def ProvedBy (t : Tree K) (cs : List ℕ) (max result : ℤ) : Prop :=
  t.Won cs max ∧ result = max ∨ t.Lost cs max ∧ result = -max

/-- If the flag of a node is set from one tree to the other, then its children
prove the result.  The children are those of the first tree, as the scan has
found them. -/
def SetsProved (t t' : Tree K) (v : ℕ) (max : ℤ) : Prop :=
  (t.nodes v).isTerminate = false → (t'.nodes v).isTerminate = true →
    ∃ cs, (t.nodes v).nexts = some cs ∧ t.ProvedBy cs max (t'.nodes v).result

/-- There are unmarked children of both kinds: the terminal ones are not won,
and the others have too few visits.  Only a root with `max = 1` is pruned. -/
def FalseLoss (t : Tree K) (v : ℕ) (max remain : ℤ) : Prop :=
  max = 1 ∧ (t.nodes v).evalReady = true ∧ (t.nodes v).isTerminate = false ∧
    ∃ cs, (t.nodes v).nexts = some cs ∧
      (∃ c ∈ t.unmarked cs, (t.nodes c).isTerminate = true) ∧
      (∃ c ∈ t.unmarked cs, (t.nodes c).isTerminate = false) ∧
      ∀ c ∈ t.unmarked cs,
        (t.nodes c).isTerminate = true ∧ (t.nodes c).result ≠ max ∨
          (t.nodes c).isTerminate = false ∧ (t.visits c : ℤ) < t.visitPruneThr cs remain

variable [Field K] [LinearOrder K] {P : Pachi B} {cfg : Settings K} {t t' : Tree K} {v u : ℕ}
variable {max max' : ℤ} {board board' : GoBoard B}

/-! ## The scan

By induction over the children, with the child and the score kept so far. -/

section Scan

variable {score : Edge K → K} {prune : Edge K → Bool} {nexts : List ℕ}

/-- A child that the scan skips or prunes, or that is terminal and not won.
Such a child is not scored, whatever its score would be. -/
def Passed (t : Tree K) (max : ℤ) (prune : Edge K → Bool) (c : ℕ) : Prop :=
  (t.nodes c).isTerminate = true ∧ (t.nodes c).result ≠ max ∨
    (t.nodes c).isTerminate = false ∧ ∃ e, (t.nodes c).edge = some e ∧ prune e = true

omit [Field K] in
/-- A scan says that its node is won only of a won child, which it leaves in
`best`. -/
theorem scanChildren_won {best : Option ℕ} {bestScore : K} {b : Option ℕ}
    (h : t.scanChildren max score prune nexts best bestScore = (b, true)) :
    ∃ c ∈ t.unmarked nexts, b = some c ∧ (t.nodes c).isTerminate = true ∧
      (t.nodes c).result = max := by
  induction nexts generalizing best bestScore with
  | nil => cases h
  | cons i rest ih =>
      rw [scanChildren] at h
      dsimp only at h
      rw [unmarked_cons, Node.skipped]
      split at h
      · next skipped =>
          rw [if_pos skipped]
          exact ih h
      next kept =>
        rw [if_neg kept]
        have later {best : Option ℕ} {bestScore : K}
            (h : t.scanChildren max score prune rest best bestScore = (b, true)) :
            ∃ c ∈ i :: t.unmarked rest, b = some c ∧ (t.nodes c).isTerminate = true ∧
              (t.nodes c).result = max := by
          obtain ⟨c, hc, won⟩ := ih h
          exact ⟨c, List.mem_cons_of_mem i hc, won⟩
        split at h
        · next terminal =>
            split at h
            · next won =>
                exact ⟨i, List.mem_cons_self, (Prod.mk.inj h).1.symm, terminal, won⟩
            · exact later h
        · split at h
          · exact later h
          · split at h
            · exact later h
            · split at h
              · cases (Prod.mk.inj h).2
              · exact later h

omit [Field K] in
/-- A child that is not terminal stays in `best`, or another one takes its
place. -/
theorem scanChildren_live {best b : ℕ} {bestScore : K} (live : (t.nodes best).isTerminate = false)
    (h : t.scanChildren max score prune nexts (some best) bestScore = (some b, false)) :
    (t.nodes b).isTerminate = false := by
  induction nexts generalizing best bestScore with
  | nil =>
      obtain rfl := Option.some.inj (Prod.mk.inj h).1
      exact live
  | cons i rest ih =>
      rw [scanChildren] at h
      dsimp only at h
      split at h
      · exact ih live h
      split at h
      · split at h
        · cases (Prod.mk.inj h).2
        · exact ih live h
      next other =>
      split at h
      · exact ih live h
      split at h
      · exact ih live h
      split at h <;> split at h
      · obtain rfl := Option.some.inj (Prod.mk.inj h).1
        simpa using other
      · obtain rfl := Option.some.inj (Prod.mk.inj h).1
        exact live
      · exact ih (by simpa using other) h
      · exact ih live h

omit [Field K] in
/-- **A terminal child in `best`.**  Then no unmarked child was scored, since
the first score is above the initial one and would have taken its place. -/
theorem scanChildren_terminal {best : Option ℕ} {bestScore : K} {b : ℕ}
    (edge : ∀ i ∈ nexts, ∃ e, (t.nodes i).edge = some e ∧ bestScore < score e)
    (h : t.scanChildren max score prune nexts best bestScore = (some b, false))
    (terminal : (t.nodes b).isTerminate = true) :
    ∀ c ∈ t.unmarked nexts, t.Passed max prune c := by
  induction nexts generalizing best with
  | nil => exact fun c hc => absurd hc List.not_mem_nil
  | cons i rest ih =>
      obtain ⟨⟨e, he, better⟩, rest_edge⟩ := List.forall_mem_cons.mp edge
      rw [scanChildren] at h
      simp only [he, better, if_true] at h
      rw [unmarked_cons, Node.skipped]
      split at h
      · next skipped =>
          rw [if_pos skipped]
          exact ih rest_edge h
      next kept =>
        rw [if_neg kept, List.forall_mem_cons]
        split at h
        · next here =>
            split at h
            · cases (Prod.mk.inj h).2
            · next lost => exact ⟨.inl ⟨here, lost⟩, ih rest_edge h⟩
        · next here =>
            have live : (t.nodes i).isTerminate = false := by simpa using here
            split at h
            · next pruned => exact ⟨.inr ⟨live, e, he, pruned⟩, ih rest_edge h⟩
            · -- once it is scored, a child that is not terminal stays in `best`
              have other : (t.nodes b).isTerminate = false := by
                split at h
                · obtain rfl := Option.some.inj (Prod.mk.inj h).1
                  exact live
                · exact scanChildren_live live h
              cases other.symm.trans terminal

omit [Field K] in
/-- Where no unmarked child is scored or won, `best` is the first terminal
one. -/
theorem scanChildren_passed {best : Option ℕ} {bestScore : K}
    (passed : ∀ c ∈ t.unmarked nexts, t.Passed max prune c) :
    t.scanChildren max score prune nexts best bestScore =
      (best.or ((t.unmarked nexts).find? fun c => (t.nodes c).isTerminate), false) := by
  induction nexts generalizing best bestScore with
  | nil => rw [scanChildren, unmarked, List.filter_nil, List.find?_nil, Option.or_none]
  | cons i rest ih =>
      rw [scanChildren]
      rw [unmarked_cons, Node.skipped] at passed ⊢
      split
      · next skipped =>
          rw [if_pos skipped] at passed
          exact ih passed
      next kept =>
        rw [if_neg kept, List.forall_mem_cons] at passed
        obtain ⟨here, passed⟩ := passed
        rw [List.find?_cons]
        rcases here with ⟨terminal, lost⟩ | ⟨live, e, he, pruned⟩
        · simp only [terminal, lost, if_true, if_false]
          rw [ih passed, Option.or_assoc]
          rfl
        · simp only [live, he, pruned, Bool.false_eq_true, if_true, if_false]
          exact ih passed

end Scan

/-! ## What is set

`decideBy` writes to the node itself; what comes after it in a descent is
below. -/

omit [Field K] [LinearOrder K] in
/-- The flags of a node after the choice of another one.  The loss is written
over a win, which the source tests first; that both are found at once is ruled
out by the scan. -/
theorem nodes_decideBy {best : ℕ} {won : Bool} (other : best ≠ v) :
    (t.decideBy v best won max).nodes v =
      if (t.nodes best).isTerminate = true ∧ (t.nodes best).result = -max then
        { t.nodes v with isTerminate := true, result := -max }
      else if won then { t.nodes v with isTerminate := true, result := max } else t.nodes v := by
  have decide (t : Tree K) (r : ℤ) :
      (t.decideNode v r).nodes v = { t.nodes v with isTerminate := true, result := r } := if_pos rfl
  have same : (if won then t.decideNode v max else t).nodes best = t.nodes best := by
    split
    · exact if_neg other
    · rfl
  rw [decideBy]
  dsimp only
  rw [same]
  by_cases lost : (t.nodes best).isTerminate = true ∧ (t.nodes best).result = -max
  · rw [if_pos (by simpa using lost), if_pos lost, decide]
    split <;> simp [decide]
  · rw [if_neg (by simpa using lost), if_neg lost]
    split
    · exact decide t max
    · rfl

/-- The results of terminal children are values of the game.  A result of zero
would be taken for neither side's win. -/
def Valued (t : Tree K) (cs : List ℕ) : Prop :=
  ∀ c ∈ cs, (t.nodes c).isTerminate = true → (t.nodes c).result = 1 ∨ (t.nodes c).result = -1

omit [Field K] in
/-- **What a scan sets.**  It is not proved exactly where a lost child is left
in `best` and another unmarked child is not terminal.  That other child was
pruned, or it would have been scored. -/
theorem setsProved_decideBy_iff {cs : List ℕ} (hnexts : (t.nodes v).nexts = some cs)
    (undecided : (t.nodes v).isTerminate = false) (values : t.Valued cs)
    (hmax : max = 1 ∨ max = -1) {score : Edge K → K} {prune : Edge K → Bool} {worst : K}
    (edge : ∀ i ∈ cs, ∃ e, (t.nodes i).edge = some e ∧ worst < score e) {best : ℕ} {won : Bool}
    (scan : t.scanChildren max score prune cs none worst = (some best, won)) (other : best ≠ v) :
    t.SetsProved (t.decideBy v best won max) v max ↔
      ¬ (won = false ∧ (t.nodes best).isTerminate = true ∧
        ∃ c ∈ t.unmarked cs, (t.nodes c).isTerminate = false) := by
  have apart : max ≠ -max := by omega
  rw [SetsProved, nodes_decideBy other]
  cases won with
  | true =>
      obtain ⟨c, hc, hbest, terminal, result⟩ := scanChildren_won scan
      obtain rfl := Option.some.inj hbest
      have notLost : ¬ ((t.nodes best).isTerminate = true ∧ (t.nodes best).result = -max) :=
        fun h => apart (result.symm.trans h.2)
      rw [if_neg notLost, if_pos rfl]
      exact iff_of_true (fun _ _ => ⟨cs, hnexts, .inl ⟨⟨best, hc, terminal, result⟩, rfl⟩⟩)
        fun h => by cases h.1
  | false =>
      by_cases terminal : (t.nodes best).isTerminate = true
      · have passed := scanChildren_terminal edge scan terminal
        have lost {c : ℕ} (hc : c ∈ t.unmarked cs) (terminal : (t.nodes c).isTerminate = true) :
            (t.nodes c).result = -max := by
          rcases passed c hc with ⟨-, notWon⟩ | ⟨live, -⟩
          · have value := values c (List.mem_filter.mp hc).1 terminal
            omega
          · cases live.symm.trans terminal
        have first := scan
        rw [scanChildren_passed passed, Option.none_or] at first
        have mem := List.mem_of_find?_eq_some (Prod.mk.inj first).1
        rw [if_pos ⟨terminal, lost mem terminal⟩]
        constructor
        · rintro proved ⟨-, -, c, hc, live⟩
          obtain ⟨cs', hcs', proof⟩ := proved undecided rfl
          obtain rfl := Option.some.inj (hnexts.symm.trans hcs')
          rcases proof with ⟨-, result⟩ | ⟨all, -⟩
          · exact apart result.symm
          · cases live.symm.trans (all c hc).1
        · intro none _ _
          refine ⟨cs, hnexts, .inr ⟨fun c hc => ?_, rfl⟩⟩
          have here : (t.nodes c).isTerminate = true := by
            by_contra live
            exact none ⟨rfl, terminal, c, hc, by simpa using live⟩
          exact ⟨here, lost hc here⟩
      · rw [if_neg fun h => terminal h.1, if_neg (by simp)]
        refine iff_of_true (fun _ h => ?_) fun h => terminal h.2.1
        cases undecided.symm.trans h

omit [Field K] [LinearOrder K] in
/-- A call that enters a child leaves what the scan has set. -/
theorem setsProved_of_enterChild (wf : t.Wf) {nexts : List ℕ} {best : ℕ}
    {won : Bool} {next : Tree K → GoBoard B → Descent B K}
    (hnexts : (t.nodes v).nexts = some nexts) (mem : best ∈ nexts)
    (h : enterChild P cfg t v best won max board next = .leaf t' u board' max')
    (rest : ∀ t board, next t board = .leaf t' u board' max' →
      Walk P cfg.virtualLoss t best (-max) board t' u max' board') :
    t.SetsProved t' v max ↔ t.SetsProved (t.decideBy v best won max) v max := by
  have father := wf.father_of_mem hnexts mem
  have shape := (SameShape.of_decideBy t v best won max).trans
    (SameShape.of_addVl (t := t.decideBy v best won max) best cfg.virtualLoss)
  have above : ¬ AtOrBelow t.father v best := fun h =>
    not_below_of_atOrBelow wf.descending h (below_of_father father)
  unfold enterChild at h
  dsimp only at h
  split at h
  · cases h
  split at h
  · cases h
  have same := (rest _ _ h).nodes_eq (wf.of_sameShape shape) (x := v) (by rwa [shape.father])
  have terminate : (t'.nodes v).isTerminate =
      ((t.decideBy v best won max).nodes v).isTerminate := by
    rw [same, addVl_field (fun nd => nd.isTerminate) fun _ _ => rfl]
  have result : (t'.nodes v).result = ((t.decideBy v best won max).nodes v).result := by
    rw [same, addVl_field (fun nd => nd.result) fun _ _ => rfl]
  rw [SetsProved, terminate, result]
  rfl

/-- The scores of the children are above the initial one.  In the searches of
the source they are, by eight orders of magnitude. -/
def ScoresAbove (cfg : Settings K) (t : Tree K) (v : ℕ) (max : ℤ) (default : K) : Prop :=
  ∀ cs, (t.nodes v).nexts = some cs → ∀ c ∈ cs, ∃ e, (t.nodes c).edge = some e ∧
    worstScore < e.score (exploration cfg (t.nodes v)) max
      (fatherValue (t.nodes v) default).1 (fatherValue (t.nodes v) default).2

omit [Field K] [LinearOrder K] in
/-- A call that returns its tree as it is sets nothing.  It is what happens at a
leaf. -/
theorem setsProved_refl : t.SetsProved t v max := fun undecided decided => by
  cases undecided.symm.trans decided

/-- **Below the root all is proved.**  Nothing is pruned there, so a lost child
in `best` means that no child was scored. -/
theorem setsProved_of_mctsSelectPath (wf : t.Wf) (hmax : max = 1 ∨ max = -1)
    (values : ∀ cs, (t.nodes v).nexts = some cs → t.Valued cs)
    (above : t.ScoresAbove cfg v max 0) {fuel : ℕ}
    (h : mctsSelectPath P cfg fuel t v max board = .leaf t' u board' max') :
    t.SetsProved t' v max := by
  cases fuel with
  | zero => cases h
  | succ fuel =>
      rw [mctsSelectPath] at h
      dsimp only at h
      split at h
      · cases h
        exact setsProved_refl
      next hready =>
      split at h
      · cases h
      · cases h
        exact setsProved_refl
      next nexts _ hnexts =>
      split at h
      · cases h
      next best hbest =>
      have mem : best ∈ nexts := by simpa using scanChildren_mem hbest
      have older := wf.descending best v (wf.father_of_mem hnexts mem)
      have undecided : (t.nodes v).isTerminate = false := by simp_all
      have edge := above nexts hnexts
      rw [setsProved_of_enterChild wf hnexts mem h fun _ _ => walk_of_mctsSelectPath,
        setsProved_decideBy_iff hnexts undecided (values nexts hnexts) hmax edge
          (Prod.ext hbest rfl) older.ne']
      rintro ⟨won, terminal, c, hc, live⟩
      -- nothing was pruned
      rcases scanChildren_terminal edge (Prod.ext hbest won) terminal c hc with
        ⟨terminal, -⟩ | ⟨-, e, -, pruned⟩
      · cases live.symm.trans terminal
      · cases pruned

omit [Field K] [LinearOrder K] in
/-- A child that is skipped by its visits, in the words of the scan and of the
tree. -/
theorem few_iff {c : ℕ} (edge : ∃ e, (t.nodes c).edge = some e) {thr : ℤ} :
    (∃ e, (t.nodes c).edge = some e ∧ decide ((e.n : ℤ) < thr) = true) ↔
      (t.visits c : ℤ) < thr := by
  obtain ⟨e, he⟩ := edge
  simp [he, Tree.visits]

omit [Field K] [LinearOrder K] in
/-- A false loss of an expanded node, by what its scan skips. -/
theorem falseLoss_iff {nexts : List ℕ} (remain : ℤ) (hnexts : (t.nodes v).nexts = some nexts)
    (ready : (t.nodes v).evalReady = true) (undecided : (t.nodes v).isTerminate = false)
    (edge : ∀ c ∈ nexts, ∃ e, (t.nodes c).edge = some e) :
    t.FalseLoss v max remain ↔
      max = 1 ∧ (∃ c ∈ t.unmarked nexts, (t.nodes c).isTerminate = true) ∧
        (∃ c ∈ t.unmarked nexts, (t.nodes c).isTerminate = false) ∧
        ∀ c ∈ t.unmarked nexts, t.Passed max
          (fun e => decide ((e.n : ℤ) < t.visitPruneThr nexts remain)) c := by
  have few {c : ℕ} (hc : c ∈ t.unmarked nexts) {thr : ℤ} :
      (∃ e, (t.nodes c).edge = some e ∧ decide ((e.n : ℤ) < thr) = true) ↔
        (t.visits c : ℤ) < thr := few_iff (edge c (List.mem_filter.mp hc).1)
  constructor
  · rintro ⟨one, -, -, cs, hcs, terminal, live, all⟩
    obtain rfl := Option.some.inj (hnexts.symm.trans hcs)
    exact ⟨one, terminal, live, fun c hc =>
      (all c hc).imp_right fun h => ⟨h.1, (few hc).mpr h.2⟩⟩
  · rintro ⟨one, terminal, live, all⟩
    exact ⟨one, ready, undecided, nexts, hnexts, terminal, live, fun c hc =>
      (all c hc).imp_right fun h => ⟨h.1, (few hc).mp h.2⟩⟩

/-- **At the root all is proved that is no false loss.**  The scan there prunes
where it plays for the side to move, and a pruned child is passed over as if it
were lost. -/
theorem setsProved_mctsSelectPathRoot_iff (wf : t.Wf) (hmax : max = 1 ∨ max = -1)
    (values : ∀ cs, (t.nodes v).nexts = some cs → t.Valued cs)
    (above : t.ScoresAbove cfg v max (t.nodes v).valuePred) {remain : ℤ}
    (h : mctsSelectPathRoot P cfg t v max board remain = .leaf t' u board' max') :
    t.SetsProved t' v max ↔ ¬ t.FalseLoss v max remain := by
  unfold mctsSelectPathRoot at h
  dsimp only at h
  split at h
  · next hready =>
      cases h
      refine iff_of_true setsProved_refl ?_
      rintro ⟨-, ready, live, -⟩
      simp [ready, live] at hready
  next hready =>
  split at h
  · next hnexts =>
      cases h
  · next hnexts =>
      cases h
      refine iff_of_true setsProved_refl ?_
      rintro ⟨-, -, -, cs, hcs, ⟨c, hc, -⟩, -⟩
      obtain rfl := Option.some.inj (hnexts.symm.trans hcs)
      cases hc
  next nexts _ hnexts =>
  obtain ⟨ready, undecided⟩ : (t.nodes v).evalReady = true ∧ (t.nodes v).isTerminate = false := by
    simpa using hready
  have edge := above nexts hnexts
  have hasEdge (c : ℕ) (hc : c ∈ nexts) : ∃ e, (t.nodes c).edge = some e :=
    (edge c hc).imp fun _ h => h.1
  rw [falseLoss_iff remain hnexts ready undecided hasEdge]
  split at h
  · next hbest =>
      cases h
      refine iff_of_true setsProved_refl ?_
      rintro ⟨rfl, ⟨c, hc, terminal⟩, -, passed⟩
      rw [if_pos rfl, scanChildren_passed passed, Option.none_or, List.find?_eq_none] at hbest
      exact hbest c hc terminal
  next best hbest =>
  have mem : best ∈ nexts := by simpa using scanChildren_mem hbest
  have older := wf.descending best v (wf.father_of_mem hnexts mem)
  rw [setsProved_of_enterChild wf hnexts mem h fun _ _ => walk_of_mctsSelectPath,
    setsProved_decideBy_iff hnexts undecided (values nexts hnexts) hmax edge
      (Prod.ext hbest rfl) older.ne', not_iff_not]
  constructor
  · rintro ⟨won, terminal, c, hc, live⟩
    have passed := scanChildren_terminal edge (Prod.ext hbest won) terminal
    -- a child that is not terminal was skipped by its visits
    have one : max = 1 := by
      by_contra other
      rw [if_neg other] at passed
      rcases passed c hc with ⟨terminal, -⟩ | ⟨-, few⟩
      · cases live.symm.trans terminal
      · have := (few_iff (hasEdge c (List.mem_filter.mp hc).1)).mp few
        omega
    rw [if_pos one] at hbest passed
    rw [scanChildren_passed passed, Option.none_or] at hbest
    have here := List.mem_of_find?_eq_some hbest
    exact ⟨one, ⟨best, here, terminal⟩, ⟨c, hc, live⟩, passed⟩
  · rintro ⟨rfl, ⟨c, hc, terminal⟩, ⟨d, hd, live⟩, passed⟩
    rw [if_pos rfl] at hbest ⊢
    rw [scanChildren_passed passed, Option.none_or] at hbest ⊢
    have here := List.find?_some hbest
    exact ⟨rfl, here, d, hd, live⟩

/-! ## Propagation

Both functions, with the two results put together. -/

/-- **Soundness of propagation.**  Below the root what a call sets is proved by
the children.  At the root it is, if and only if the root is no false loss. -/
theorem proof_propagation (wf : t.Wf) (hmax : max = 1 ∨ max = -1)
    (values : ∀ cs, (t.nodes v).nexts = some cs → t.Valued cs) :
    (∀ fuel board t' u board' max', t.ScoresAbove cfg v max 0 →
      mctsSelectPath P cfg fuel t v max board = .leaf t' u board' max' →
        t.SetsProved t' v max) ∧
      ∀ remain board t' u board' max', t.ScoresAbove cfg v max (t.nodes v).valuePred →
        mctsSelectPathRoot P cfg t v max board remain = .leaf t' u board' max' →
          (t.SetsProved t' v max ↔ ¬ t.FalseLoss v max remain) :=
  ⟨fun _ _ _ _ _ _ above => setsProved_of_mctsSelectPath wf hmax values above,
    fun _ _ _ _ _ _ above => setsProved_mctsSelectPathRoot_iff wf hmax values above⟩

/-- A child after some visits, lost or not decided. -/
def searched (n : ℕ) (w : ℚ) (lost : Bool) (nd : Node ℚ) : Node ℚ :=
  { nd with
    edge := nd.edge.map fun e => { e with n := n, w := w }
    isTerminate := lost
    result := if lost then -1 else 0 }

/-- Visits and results are no part of the shape. -/
theorem shape_searched (n : ℕ) (w : ℚ) (lost : Bool) (nd : Node ℚ) :
    (searched n w lost nd).shape = nd.shape := by
  cases edge : nd.edge <;> simp [searched, Node.shape, edge]

/-- A root with two children.  A pass is lost after ten visits.  A stone has
three visits, and is lost, too, or is not decided; its mean value is zero. -/
def endgame (lost : Bool) : Tree ℚ :=
  (opened.modify 1 (searched 10 (-10) true)).modify 2 (searched 3 0 lost)

/-- The tree has the shape of an opened one. -/
theorem wf_endgame (lost : Bool) : (endgame lost).Wf :=
  wf_opened.of_sameShape ((SameShape.of_modify 1 _ (shape_searched _ _ _)).trans
    (SameShape.of_modify 2 _ (shape_searched _ _ _)))

theorem nexts_endgame (lost : Bool) : ((endgame lost).nodes 0).nexts = some [1, 2] := by
  cases lost <;> rfl

/-- A lost child has result -1. -/
theorem valued_endgame (lost : Bool) :
    ∀ cs, ((endgame lost).nodes 0).nexts = some cs → (endgame lost).Valued cs := by
  intro cs hcs
  obtain rfl := Option.some.inj ((nexts_endgame lost).symm.trans hcs)
  unfold Valued
  revert lost
  decide

/-- No child has a score at which the scan starts. -/
theorem scoresAbove_endgame (lost : Bool) :
    (endgame lost).ScoresAbove shippedSettings 0 1 0 := by
  have above : ∀ lost, ∀ c ∈ [1, 2], (((endgame lost).nodes c).edge.map fun e =>
      decide (worstScore < e.score (exploration shippedSettings ((endgame lost).nodes 0)) 1
        (fatherValue ((endgame lost).nodes 0) 0).1
        (fatherValue ((endgame lost).nodes 0) 0).2)) = some true := by decide +kernel
  intro cs hcs c hc
  obtain rfl := Option.some.inj ((nexts_endgame lost).symm.trans hcs)
  obtain ⟨e, he, better⟩ := Option.map_eq_some_iff.mp (above lost c hc)
  exact ⟨e, he, of_decide_eq_true better⟩

/-- Where the stone is lost, too, the root is lost by a proof. -/
theorem proof_propagation_lost : ∃ t' u board' max',
    mctsSelectPathRoot pachi shippedSettings (endgame true) 0 1 (GoBoard.new pachi) 2 =
      .leaf t' u board' max' ∧ (endgame true).SetsProved t' 0 1 := by
  have ends : (mctsSelectPathRoot pachi shippedSettings (endgame true) 0 1
      (GoBoard.new pachi) 2).max = some (-1) := by decide +kernel
  obtain ⟨t', u, board', h⟩ := Descent.max_eq_some ends
  refine ⟨t', u, board', -1, h, ((proof_propagation (wf_endgame true) (.inl rfl)
    (valued_endgame true)).2 2 _ _ _ _ _ (scoresAbove_endgame true) h).mpr ?_⟩
  rintro ⟨-, -, -, cs, hcs, -, live, -⟩
  obtain rfl := Option.some.inj ((nexts_endgame true).symm.trans hcs)
  revert live
  decide

/-- Two rollouts remain, so a stone with three visits is skipped beside a pass
with ten.  The lost pass is all that the scan finds, and the root is set to lost
while the stone is not decided. -/
theorem proof_propagation_pruned : ∃ t' u board' max', (endgame false).Wf ∧
    (∀ cs, ((endgame false).nodes 0).nexts = some cs → (endgame false).Valued cs) ∧
      (endgame false).ScoresAbove shippedSettings 0 1 0 ∧
      mctsSelectPathRoot pachi shippedSettings (endgame false) 0 1 (GoBoard.new pachi) 2 =
        .leaf t' u board' max' ∧ ¬ (endgame false).SetsProved t' 0 1 := by
  have ends : (mctsSelectPathRoot pachi shippedSettings (endgame false) 0 1
      (GoBoard.new pachi) 2).max = some (-1) := by decide +kernel
  obtain ⟨t', u, board', h⟩ := Descent.max_eq_some ends
  refine ⟨t', u, board', -1, wf_endgame false, valued_endgame false, scoresAbove_endgame false,
    h, ?_⟩
  rw [setsProved_mctsSelectPathRoot_iff (wf_endgame false) (.inl rfl) (valued_endgame false)
    (scoresAbove_endgame false) h, not_not]
  exact ⟨rfl, rfl, rfl, [1, 2], nexts_endgame false, by decide, by decide, by decide⟩

end Tree

end EstarGo
