import EstarGo.Tree.Select
import Mathlib.Algebra.Order.Ring.Abs
import Mathlib.Tactic.FieldSimp
import Mathlib.Tactic.Linarith
import Mathlib.Tactic.Positivity

/-!
# A descent finds a child

With values in [-1, 1], priors and virtual losses that are not negative, no
score is below -1, so it beats the initial `best_score`; and virtual loss only
lowers a score.  A scan of children one of which is not marked as a repetition
then finds a child, and a descent dereferences no null pointer.

## Main definitions

* `Settings.Sane` — what the code assumes of its settings.
* `Searchable` — what a descent relies on in the tree.

## Main results

* `Edge.neg_one_le_score`: the bound of a score.
* `Edge.score_antitone`: virtual loss lowers a score.
* `Searchable.mctsSelectPathRoot_safe`: a descent ends at a leaf or with a
  refused move.

## Design notes

**A value is a mean.**  The sum on an edge is at most its visits in absolute
value, and virtual loss adds visits that lost; so a weighted value is at least
-1 whoever is to move.  The same argument bounds a child without visits, which
is judged by its father.

**-1e8 is far below.**  The scan starts from a score that no child has.  That is
all there is to its choosing some child, and it rests on the bound: with values
out of range it could fail.
-/

namespace EstarGo

open Verif

variable {B K : Type} [Field K] [LinearOrder K]

/-- What the code assumes of its settings: a virtual loss, an exploration factor
and square roots that are not negative.  The shipped file gives such values, and
`sqrt` returns no negative ones. -/
structure Settings.Sane (cfg : Settings K) : Prop where
  virtualLoss : 0 ≤ cfg.virtualLoss
  cPuct : 0 ≤ cfg.cPuct
  sqrt : ∀ x, 0 ≤ cfg.sqrt x

section Score

variable [IsStrictOrderedRing K]

/-- A weighted value with virtual loss is not below -1, for either player. -/
theorem neg_one_le_value {w n q d : K} {vl max : ℤ} (hmax : max = 1 ∨ max = -1) (hw : |w| ≤ n)
    (hvl : 0 ≤ vl) (hd : 0 < d) (hn : n + vl ≤ d) (hq : q = (vl * max : ℤ)) :
    -1 ≤ (w - q) / d * max := by
  have hvl : (0 : K) ≤ vl := by exact_mod_cast hvl
  obtain ⟨lower, upper⟩ := abs_le.mp hw
  subst hq
  rw [div_mul_eq_mul_div, le_div_iff₀ hd]
  rcases hmax with rfl | rfl <;> push_cast <;> linarith

/-- **No score is below -1**: the exploration term is not negative, and the
value is bounded.  The virtual loss takes the value no further than to -1, since
it enters as visits that lost. -/
theorem Edge.neg_one_le_score {e : Edge K} {c faW faN : K} {max : ℤ}
    (hmax : max = 1 ∨ max = -1) (hc : 0 ≤ c) (hp : 0 ≤ e.p) (hw : |e.w| ≤ e.n) (hvl : 0 ≤ e.vl)
    (hfa : |faW| ≤ faN) : -1 ≤ e.score c max faW faN := by
  have hb : (0 : K) ≤ e.vl := by exact_mod_cast hvl
  have prior : 0 ≤ c * e.p / (1 + e.n + e.vl) := by positivity
  have hfaN : 0 ≤ faN := (abs_nonneg faW).trans hfa
  unfold score
  dsimp only
  split
  · rename_i visited
    have hn : (0 : K) < e.n := by exact_mod_cast Nat.pos_of_ne_zero visited
    have value := neg_one_le_value hmax hw hvl (add_pos_of_pos_of_nonneg hn hb) le_rfl rfl
    linarith
  · have value := neg_one_le_value hmax hfa hvl (d := faN + e.vl + 1 / 10) (by positivity)
      (by norm_num) rfl
    linarith

/-- Virtual loss lowers a weighted value: it adds visits, each of them as bad as
can be. -/
theorem value_antitone {w d : K} {max vl vl' : ℤ} (hmax : max = 1 ∨ max = -1) (hw : |w| ≤ d)
    (hd : 0 < d) (hvl : 0 ≤ vl) (hle : vl ≤ vl') :
    (w - (vl' * max : ℤ)) / (d + vl') * max ≤ (w - (vl * max : ℤ)) / (d + vl) * max := by
  have hvl : (0 : K) ≤ vl := by exact_mod_cast hvl
  have hle : (vl : K) ≤ vl' := by exact_mod_cast hle
  obtain ⟨lower, upper⟩ := abs_le.mp hw
  have before : 0 < d + (vl : K) := add_pos_of_pos_of_nonneg hd hvl
  have after : 0 < d + (vl' : K) := before.trans_le (add_le_add_right hle d)
  rw [div_mul_eq_mul_div, div_mul_eq_mul_div, div_le_div_iff₀ after before]
  -- the difference is that of the virtual losses times what the value is above its least one
  rcases hmax with rfl | rfl
  · have gap := mul_nonneg (sub_nonneg.mpr hle) (by linarith : 0 ≤ d + w)
    push_cast
    linarith
  · have gap := mul_nonneg (sub_nonneg.mpr hle) (by linarith : 0 ≤ d - w)
    push_cast
    linarith

/-- **Virtual loss lowers a score**, of a child with visits and of one without.
Both terms get a greater denominator, and what is subtracted from the value
grows along with it. -/
theorem Edge.score_antitone {e : Edge K} {c faW faN : K} {max vl vl' : ℤ}
    (hmax : max = 1 ∨ max = -1) (hc : 0 ≤ c) (hp : 0 ≤ e.p) (hw : |e.w| ≤ e.n)
    (hfa : |faW| ≤ faN) (hvl : 0 ≤ vl) (hle : vl ≤ vl') :
    ({ e with vl := vl' } : Edge K).score c max faW faN ≤
      ({ e with vl := vl } : Edge K).score c max faW faN := by
  have hb : (0 : K) ≤ vl := by exact_mod_cast hvl
  have hb' : (vl : K) ≤ vl' := by exact_mod_cast hle
  have prior : c * e.p / (1 + e.n + vl') ≤ c * e.p / (1 + e.n + vl) :=
    div_le_div_of_nonneg_left (mul_nonneg hc hp) (by positivity) (add_le_add_right hb' _)
  have hfaN : 0 ≤ faN := (abs_nonneg faW).trans hfa
  rw [score_eq, score_eq]
  refine add_le_add prior ?_
  simp only [valueDenominator]
  split
  · next visited =>
      have hn : (0 : K) < e.n := by exact_mod_cast Nat.pos_of_ne_zero visited
      exact value_antitone hmax hw hn hvl hle
  · have value := value_antitone hmax (hfa.trans (le_add_of_nonneg_right (by norm_num)))
      (by positivity : 0 < faN + 1 / 10) hvl hle
    rwa [add_right_comm faN _ (vl' : K), add_right_comm faN _ (vl : K)] at value

/-- An edge with one visit, without virtual loss and with that of one
descent. -/
theorem Edge.score_antitone_one : (⟨72, 1 / 2, 1, 1 / 3, 3⟩ : Edge ℚ).score 1 1 (1 / 3) 1 ≤
    (⟨72, 1 / 2, 1, 1 / 3, 0⟩ : Edge ℚ).score 1 1 (1 / 3) 1 :=
  score_antitone (e := ⟨72, 1 / 2, 1, 1 / 3, 0⟩) (.inl rfl) (by norm_num) (by norm_num)
    (by norm_num [abs_of_pos]) (by norm_num [abs_of_pos]) (by norm_num) (by norm_num)

omit [IsStrictOrderedRing K] in
/-- The value a child without visits is judged by is in range as well. -/
theorem fatherValue_bounded {nd : Node K} {default : K}
    (hdefault : |default| ≤ 1) (bounded : ∀ e, nd.edge = some e → |e.w| ≤ e.n) :
    |(Tree.fatherValue nd default).1| ≤ (Tree.fatherValue nd default).2 := by
  unfold Tree.fatherValue
  split
  · exact hdefault
  · rename_i e he
    split
    · exact hdefault
    · exact bounded e he

end Score

namespace Tree

variable {P : Pachi B} {cfg : Settings K} {t : Tree K}

omit [Field K] in
/-- A scan keeps a child once it has one. -/
theorem scanChildren_of_some {max : ℤ} {score : Edge K → K} {prune : Edge K → Bool}
    (undecided : ∀ v, (t.nodes v).isTerminate = false) {nexts : List ℕ} {best : ℕ}
    {bestScore : K} : (t.scanChildren max score prune nexts (some best) bestScore).1.isSome := by
  induction nexts generalizing best bestScore with
  | nil => rfl
  | cons i rest ih =>
      rw [scanChildren]
      simp only [undecided, Bool.false_eq_true, if_false]
      split
      · exact ih
      split
      · exact ih
      split
      · exact ih
      split <;> split
      · rfl
      · rfl
      · exact ih
      · exact ih

omit [Field K] in
/-- A scan without pruning finds a child that is not marked as a repetition, if
every child has a score above the first one. -/
theorem scanChildren_isSome (max : ℤ) {score : Edge K → K}
    (undecided : ∀ v, (t.nodes v).isTerminate = false) {nexts : List ℕ} {bestScore : K}
    (edge : ∀ i ∈ nexts, ∃ e, (t.nodes i).edge = some e ∧ bestScore < score e)
    (escape : ∃ i ∈ nexts, (t.nodes i).isRepetition = false) :
    (t.scanChildren max score (fun _ => false) nexts none bestScore).1.isSome := by
  induction nexts with
  | nil => simp at escape
  | cons i rest ih =>
      obtain ⟨⟨e, he, better⟩, rest_edge⟩ := List.forall_mem_cons.mp edge
      rw [scanChildren]
      simp only [undecided, he, better, Bool.false_eq_true, if_false, if_true]
      split
      · rename_i marked
        refine ih rest_edge ?_
        obtain ⟨j, hj, hrep⟩ := escape
        rcases List.mem_cons.mp hj with rfl | hj
        · simp [hrep] at marked
        · exact ⟨j, hj, hrep⟩
      split
      · rfl
      · exact scanChildren_of_some undecided

/-- What a descent from the root relies on: pointers that agree, nothing
decided, a way out at each node, and values, priors and virtual losses in range.
The way out is a child that is not marked, and in practice the pass. -/
structure Searchable (t : Tree K) (root : ℕ) : Prop where
  wf : t.Wf
  undecided : ∀ v, (t.nodes v).isTerminate = false
  escape : ∀ v cs, (t.nodes v).nexts = some cs → ∃ c ∈ cs, (t.nodes c).isRepetition = false
  bounded : ∀ v e, (t.nodes v).edge = some e → |e.w| ≤ e.n
  prior : ∀ v e, (t.nodes v).edge = some e → 0 ≤ e.p
  vl : ∀ v, Below t.father v root → ∀ e, (t.nodes v).edge = some e → 0 ≤ e.vl

namespace Searchable

variable {root : ℕ}

/-- Adding virtual loss to an edge. -/
theorem addVl (h : t.Searchable root) (u : ℕ) {vl : ℤ} (hvl : 0 ≤ vl) :
    (t.addVl u vl).Searchable root := by
  have shape : SameShape t (t.addVl u vl) := SameShape.of_addVl u vl
  have edge {v : ℕ} {e' : Edge K} (he' : ((t.addVl u vl).nodes v).edge = some e') :
      ∃ e, (t.nodes v).edge = some e ∧ e'.w = e.w ∧ e'.n = e.n ∧ e'.p = e.p ∧ e.vl ≤ e'.vl := by
    obtain ⟨e, he, rfl⟩ := exists_edge_of_addVl he'
    refine ⟨e, he, rfl, rfl, rfl, le_add_of_nonneg_right ?_⟩
    split
    · exact hvl
    · exact le_rfl
  constructor
  · exact h.wf.of_sameShape shape
  · intro v
    rw [addVl_field (fun nd => nd.isTerminate) fun _ _ => rfl]
    exact h.undecided v
  · intro v cs hcs
    rw [shape.nexts] at hcs
    obtain ⟨c, hc, hrep⟩ := h.escape v cs hcs
    refine ⟨c, hc, ?_⟩
    rwa [addVl_field (fun nd => nd.isRepetition) fun _ _ => rfl]
  · intro v e' he'
    obtain ⟨e, he, hw, hn, -, -⟩ := edge he'
    rw [hw, hn]
    exact h.bounded v e he
  · intro v e' he'
    obtain ⟨e, he, -, -, hp, -⟩ := edge he'
    rw [hp]
    exact h.prior v e he
  · intro v hv e' he'
    obtain ⟨e, he, -, -, -, hle⟩ := edge he'
    rw [shape.father] at hv
    exact (h.vl v hv e he).trans hle

variable [IsStrictOrderedRing K]

/-- Every child of a node at or below the root has a score above the initial
one. -/
theorem lt_score (h : t.Searchable root) {factor : K} (hfactor : 0 ≤ factor) {v : ℕ} {cs : List ℕ}
    {max : ℤ} {default : K} (hmax : max = 1 ∨ max = -1) (hdefault : |default| ≤ 1)
    (above : AtOrBelow t.father v root) (hcs : (t.nodes v).nexts = some cs) :
    ∀ c ∈ cs, ∃ e, (t.nodes c).edge = some e ∧
      worstScore < e.score factor max
        (fatherValue (t.nodes v) default).1 (fatherValue (t.nodes v) default).2 := by
  intro c hc
  have father := h.wf.father_of_mem hcs hc
  obtain ⟨e, he⟩ := h.wf.exists_edge father
  have below : Below t.father c root := (below_of_father father).trans_atOrBelow above
  have score := Edge.neg_one_le_score hmax hfactor (h.prior c e he) (h.bounded c e he)
    (h.vl c below e he) (fatherValue_bounded hdefault (h.bounded v))
  have worst : (worstScore : K) < -1 := by norm_num [worstScore]
  exact ⟨e, he, worst.trans_le score⟩

omit [IsStrictOrderedRing K] in
/-- A child that was chosen is entered, and the rest of the descent is safe or
not by itself. -/
theorem enterChild_safe (h : t.Searchable root) {v best : ℕ} {won : Bool} {max : ℤ}
    {board : GoBoard B} {next : Tree K → GoBoard B → Descent B K}
    (hwon : won = false) (father : t.father best = some v)
    (rest : ∀ board, next (t.addVl best cfg.virtualLoss) board ≠ .nullPointer ∧
      next (t.addVl best cfg.virtualLoss) board ≠ .outOfFuel) :
    enterChild P cfg t v best won max board next ≠ .nullPointer ∧
      enterChild P cfg t v best won max board next ≠ .outOfFuel := by
  have same : t.decideBy v best won max = t := by simp [decideBy, hwon, h.undecided]
  have shape : SameShape t (t.addVl best cfg.virtualLoss) := SameShape.of_addVl _ _
  have father' : (t.addVl best cfg.virtualLoss).father best = some v := by
    rw [shape.father, father]
  obtain ⟨e, he⟩ := (h.wf.of_sameShape shape).exists_edge father'
  unfold enterChild
  simp only [same, he]
  split
  · simp
  · exact rest _

/-- **A descent below the root is safe**, by induction on the fuel; a child has
a greater number than its father, so the fuel lasts. -/
theorem mctsSelectPath_safe (sane : cfg.Sane) {fuel v : ℕ} {max : ℤ} {board : GoBoard B}
    (h : t.Searchable root) (hmax : max = 1 ∨ max = -1) (above : AtOrBelow t.father v root)
    (hv : v < t.next) (hfuel : t.next ≤ v + fuel) :
    mctsSelectPath P cfg fuel t v max board ≠ .nullPointer ∧
      mctsSelectPath P cfg fuel t v max board ≠ .outOfFuel := by
  induction fuel generalizing t v max board with
  | zero => omega
  | succ fuel ih =>
      rw [mctsSelectPath]
      dsimp only
      split
      · simp
      rename_i hready
      split
      · -- a ready node has a list of children
        rename_i hnexts
        have := (h.wf.ready_iff v).mp (by simp_all)
        simp [hnexts] at this
      · simp
      · rename_i nexts _ hnexts
        have zero : |(0 : K)| ≤ 1 := by simp
        have factor : 0 ≤ exploration cfg (t.nodes v) := mul_nonneg sane.cPuct (sane.sqrt _)
        have scan := scanChildren_isSome max h.undecided (h.lt_score factor hmax zero above hnexts)
          (h.escape v nexts hnexts)
        split
        · rename_i none
          simp [none] at scan
        · rename_i best hbest
          have mem : best ∈ nexts := by simpa using scanChildren_mem hbest
          have father := h.wf.father_of_mem hnexts mem
          have older := h.wf.descending best v father
          have shape : SameShape t (t.addVl best cfg.virtualLoss) := SameShape.of_addVl _ _
          refine h.enterChild_safe (scanChildren_undecided h.undecided) father fun board => ?_
          refine ih (h.addVl best sane.virtualLoss) ?_ ?_ ?_ ?_
          · rcases hmax with rfl | rfl <;> simp
          · rw [shape.father]
            exact (below_of_father father).atOrBelow.trans above
          · exact h.wf.lt_next_of_father father
          · rw [shape.next]
            omega

/-- **A descent from the root is safe.**  It ends at a leaf, or with a refused
move; the root itself may be the leaf. -/
theorem mctsSelectPathRoot_safe (sane : cfg.Sane) {max remain : ℤ} {board : GoBoard B}
    (h : t.Searchable root) (hmax : max = 1 ∨ max = -1) :
    t.mctsSelectPathRoot P cfg root max board remain ≠ .nullPointer ∧
      t.mctsSelectPathRoot P cfg root max board remain ≠ .outOfFuel := by
  unfold mctsSelectPathRoot
  dsimp only
  split
  · simp
  rename_i hready
  split
  · rename_i hnexts
    have := (h.wf.ready_iff root).mp (by simp_all)
    simp [hnexts] at this
  · simp
  · rename_i nexts _ hnexts
    split
    · simp
    · rename_i best hbest
      have mem : best ∈ nexts := by simpa using scanChildren_mem hbest
      have father := h.wf.father_of_mem hnexts mem
      have shape : SameShape t (t.addVl best cfg.virtualLoss) := SameShape.of_addVl _ _
      refine h.enterChild_safe (scanChildren_undecided h.undecided) father fun board => ?_
      refine mctsSelectPath_safe sane (h.addVl best sane.virtualLoss) ?_ ?_ ?_ ?_
      · rcases hmax with rfl | rfl <;> simp
      · rw [shape.father]
        exact (below_of_father father).atOrBelow
      · exact h.wf.lt_next_of_father father
      · rw [shape.next]
        omega

end Searchable

end Tree

end EstarGo
