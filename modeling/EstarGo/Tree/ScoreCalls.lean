import EstarGo.Tree.Score

/-!
# The scores of a descent

Every call of `Edge::score` that a descent makes, with its arguments.  The sign
of the two denominators of a score is what makes it defined; both are positive
where the virtual loss of the edge is not negative, since the visits of the
father count as one at least.

## Main definitions

* `ScoreCall` — a call of `Edge::score`; `ScoreCall.Defined` — it divides by
  positive numbers.
* `scoredEdges` — the edges that a scan scores.
* `mctsSelectPathLogged`, `mctsSelectPathRootLogged` — the descent with its
  calls.
* `Paid` — below the root, no edge holds negative virtual loss.

## Main results

* `fst_mctsSelectPathRootLogged`: the log changes nothing.
* `Paid.defined_of_mctsSelectPathRootLogged`: every call divides by positive
  numbers.

## Design notes

**A second descent with a log.**  The scores are inside of a recursion that
returns a leaf.  To speak of each of them, the recursion is written again so
that it returns its calls as well, and it is proved to return the same leaf.
-/

namespace EstarGo

open Verif

variable {B K : Type} [Field K]

/-- A call of `Edge::score`: the edge it is called on and its four arguments.
The edge is as it was at the call, before the descent adds its virtual loss. -/
structure ScoreCall (K : Type) where
  edge : Edge K
  c : K
  max : ℤ
  faW : K
  faN : K

variable [LinearOrder K]

/-- Both denominators of a call are positive, so both divisions of the score are
defined.  In floats a division by zero would give an infinity, with which the
scan goes on. -/
structure ScoreCall.Defined (call : ScoreCall K) : Prop where
  prior : 0 < call.edge.priorDenominator
  value : 0 < call.edge.valueDenominator call.faN

section Denominators

variable [IsStrictOrderedRing K]

/-- Without negative virtual loss, the denominators are positive. -/
theorem ScoreCall.defined {call : ScoreCall K} (hvl : 0 ≤ call.edge.vl) (hfaN : 1 ≤ call.faN) :
    call.Defined := by
  have hb : (0 : K) ≤ call.edge.vl := by exact_mod_cast hvl
  constructor
  · unfold Edge.priorDenominator
    positivity
  · unfold Edge.valueDenominator
    split
    · next visited =>
        have hn : (0 : K) < call.edge.n := by exact_mod_cast Nat.pos_of_ne_zero visited
        exact add_pos_of_pos_of_nonneg hn hb
    · have : 0 < call.faN := one_pos.trans_le hfaN
      positivity

/-- The visits of the father count as one at least, also where it was never
backed up. -/
theorem one_le_fatherValue (nd : Node K) (default : K) :
    1 ≤ (Tree.fatherValue nd default).2 := by
  unfold Tree.fatherValue
  split
  · exact le_rfl
  · split
    · exact le_rfl
    · next visited => exact Nat.one_le_cast.mpr (Nat.le_of_not_lt visited)

end Denominators

namespace Tree

/-- The edges that the loop over the children scores, in order.  A marked,
terminal or pruned child is not scored, and the first child without a visit is
the last. -/
def scoredEdges (t : Tree K) (max : ℤ) (prune : Edge K → Bool) : List ℕ → List (Edge K)
  | [] => []
  | i :: rest =>
      let child := t.nodes i
      if child.isRepetitionChecked && child.isRepetition then t.scoredEdges max prune rest
      else if child.isTerminate then
        if child.result = max then [] else t.scoredEdges max prune rest
      else
        match child.edge with
        | none => t.scoredEdges max prune rest
        | some edge =>
            if prune edge then t.scoredEdges max prune rest
            else if edge.n = 0 then [edge]
            else edge :: t.scoredEdges max prune rest

/-- The calls at a node, which share all arguments but the edge. -/
def scoreCalls (cfg : Settings K) (t : Tree K) (nd : Node K) (max : ℤ) (fa : K × K)
    (prune : Edge K → Bool) (nexts : List ℕ) : List (ScoreCall K) :=
  (t.scoredEdges max prune nexts).map fun e => ⟨e, exploration cfg nd, max, fa.1, fa.2⟩

/-- `enterChild`, where the call at the child returns its calls as well. -/
def enterChildLogged (P : Pachi B) (cfg : Settings K) (t : Tree K) (cur best : ℕ) (won : Bool)
    (max : ℤ) (board : GoBoard B)
    (next : Tree K → GoBoard B → Descent B K × List (ScoreCall K)) :
    Descent B K × List (ScoreCall K) :=
  let t := (t.decideBy cur best won max).addVl best cfg.virtualLoss
  match (t.nodes best).edge with
  | none => (.nullPointer, [])
  | some edge =>
      match GoBoard.applyMove P board edge.action with
      | (false, _) => (.invalidMove, [])
      | (true, board) => next t board

/-- `mcts_select_path`, with its calls of `Edge::score`, in the order in which
they are made. -/
def mctsSelectPathLogged (P : Pachi B) (cfg : Settings K) :
    ℕ → Tree K → ℕ → ℤ → GoBoard B → Descent B K × List (ScoreCall K)
  | 0, _, _, _, _ => (.outOfFuel, [])
  | fuel + 1, t, cur, max, board =>
      let nd := t.nodes cur
      if !nd.evalReady || nd.isTerminate then (.leaf t cur board max, [])
      else
        match nd.nexts with
        | none => (.nullPointer, [])
        | some [] => (.leaf t cur board max, [])
        | some nexts =>
            let fa := fatherValue nd 0
            let scan := t.scanChildren max (fun e => e.score (exploration cfg nd) max fa.1 fa.2)
              (fun _ => false) nexts none worstScore
            let calls := t.scoreCalls cfg nd max fa (fun _ => false) nexts
            match scan.1 with
            | none => (.nullPointer, calls)
            | some best =>
                let rest := enterChildLogged P cfg t cur best scan.2 max board fun t board =>
                  mctsSelectPathLogged P cfg fuel t best (-max) board
                (rest.1, calls ++ rest.2)

/-- `mcts_select_path_root`, with its calls of `Edge::score`.  A scan that finds
nothing may still have scored. -/
def mctsSelectPathRootLogged (P : Pachi B) (cfg : Settings K) (t : Tree K) (root : ℕ) (max : ℤ)
    (board : GoBoard B) (rolloutRemain : ℤ) : Descent B K × List (ScoreCall K) :=
  let nd := t.nodes root
  if !nd.evalReady || nd.isTerminate then (.leaf t root board max, [])
  else
    match nd.nexts with
    | none => (.nullPointer, [])
    | some [] => (.leaf t root board max, [])
    | some nexts =>
        let thr := if max = 1 then t.visitPruneThr nexts rolloutRemain else -1
        let fa := fatherValue nd nd.valuePred
        let prune : Edge K → Bool := fun e => decide ((e.n : ℤ) < thr)
        let scan := t.scanChildren max (fun e => e.score (exploration cfg nd) max fa.1 fa.2)
          prune nexts none worstScore
        let calls := t.scoreCalls cfg nd max fa prune nexts
        match scan.1 with
        | none => (.leaf t root board max, calls)
        | some best =>
            let rest := enterChildLogged P cfg t root best scan.2 max board fun t board =>
              mctsSelectPathLogged P cfg t.next t best (-max) board
            (rest.1, calls ++ rest.2)

variable {P : Pachi B} {cfg : Settings K} {t : Tree K} {max : ℤ} {board : GoBoard B}

/-! ## The log is right

Without its second component, the logged descent is the descent. -/

omit [Field K] [LinearOrder K] in
/-- Entering a child does not look at the log. -/
theorem fst_enterChildLogged {cur best : ℕ} {won : Bool}
    {next : Tree K → GoBoard B → Descent B K × List (ScoreCall K)} :
    (enterChildLogged P cfg t cur best won max board next).1 =
      enterChild P cfg t cur best won max board fun t board => (next t board).1 := by
  unfold enterChildLogged enterChild
  dsimp only
  rcases (((t.decideBy cur best won max).addVl best cfg.virtualLoss).nodes best).edge with
    _ | edge
  · rfl
  · dsimp only
    rcases GoBoard.applyMove P board edge.action with ⟨_ | _, board'⟩
    · rfl
    · rfl

/-- Below the root the log changes nothing, by induction on the fuel. -/
theorem fst_mctsSelectPathLogged {fuel cur : ℕ} :
    (mctsSelectPathLogged P cfg fuel t cur max board).1 =
      mctsSelectPath P cfg fuel t cur max board := by
  induction fuel generalizing t cur max board with
  | zero => rfl
  | succ fuel ih =>
      rw [mctsSelectPathLogged, mctsSelectPath]
      dsimp only
      split
      · rfl
      rcases (t.nodes cur).nexts with _ | _ | ⟨c, cs⟩
      · rfl
      · rfl
      · dsimp only
        rcases t.scanChildren max (fun e => e.score (exploration cfg (t.nodes cur)) max
          (fatherValue (t.nodes cur) 0).1 (fatherValue (t.nodes cur) 0).2) (fun _ => false)
          (c :: cs) none worstScore with ⟨_ | best, won⟩
        · rfl
        · simp only [fst_enterChildLogged, ih]

/-- **The log changes nothing.**  So what is said of the logged functions is
said of those that the player runs. -/
theorem fst_mctsSelectPathRootLogged {root : ℕ} {remain : ℤ} :
    (t.mctsSelectPathRootLogged P cfg root max board remain).1 =
      t.mctsSelectPathRoot P cfg root max board remain := by
  unfold mctsSelectPathRootLogged mctsSelectPathRoot
  dsimp only
  split
  · rfl
  rcases (t.nodes root).nexts with _ | _ | ⟨c, cs⟩
  · rfl
  · rfl
  · dsimp only
    rcases t.scanChildren max (fun e => e.score (exploration cfg (t.nodes root)) max
      (fatherValue (t.nodes root) (t.nodes root).valuePred).1
      (fatherValue (t.nodes root) (t.nodes root).valuePred).2) _ (c :: cs) none worstScore with
      ⟨_ | best, won⟩
    · rfl
    · simp only [fst_enterChildLogged, fst_mctsSelectPathLogged]

/-! ## Every call is defined

Virtual loss below the root is the only thing that a score can fail by. -/

omit [Field K] [LinearOrder K] in
/-- A scored edge is that of a child. -/
theorem mem_of_scoredEdges {prune : Edge K → Bool} {nexts : List ℕ} {e : Edge K}
    (he : e ∈ t.scoredEdges max prune nexts) : ∃ c ∈ nexts, (t.nodes c).edge = some e := by
  induction nexts with
  | nil => cases he
  | cons i rest ih =>
      have later (he : e ∈ t.scoredEdges max prune rest) :
          ∃ c ∈ i :: rest, (t.nodes c).edge = some e := by
        obtain ⟨c, hc, hedge⟩ := ih he
        exact ⟨c, List.mem_cons_of_mem i hc, hedge⟩
      rw [scoredEdges] at he
      split at he
      · exact later he
      split at he
      · split at he
        · cases he
        · exact later he
      split at he
      · exact later he
      next edge hedge =>
      split at he
      · exact later he
      split at he
      · exact ⟨i, List.mem_cons_self, by rw [hedge, List.mem_singleton.mp he]⟩
      · rcases List.mem_cons.mp he with rfl | he
        · exact ⟨i, List.mem_cons_self, hedge⟩
        · exact later he

/-- Below the root, no edge holds negative virtual loss.  The root's own edge
may hold anything, for no descent scores it. -/
structure Paid (t : Tree K) (root : ℕ) : Prop where
  wf : t.Wf
  vl : ∀ v, Below t.father v root → ∀ e, (t.nodes v).edge = some e → 0 ≤ e.vl

namespace Paid

variable {root : ℕ}

omit [Field K] [LinearOrder K] in
/-- What a descent changes on its way keeps it: results do not matter, and
virtual loss is only added. -/
theorem enter (h : t.Paid root) (v best : ℕ) (won : Bool) (max : ℤ) {vl : ℤ} (hvl : 0 ≤ vl) :
    ((t.decideBy v best won max).addVl best vl).Paid root := by
  have shape := (SameShape.of_decideBy t v best won max).trans (SameShape.of_addVl best vl)
  refine ⟨h.wf.of_sameShape shape, fun u below e he => ?_⟩
  rw [shape.father] at below
  obtain ⟨e', he', rfl⟩ := exists_edge_of_addVl he
  rw [decideBy_field (·.edge) v best won max fun _ _ => rfl] at he'
  refine add_nonneg (h.vl u below e' he') ?_
  split
  · exact hvl
  · exact le_rfl

variable [IsStrictOrderedRing K]

/-- The calls at a node at or below the root.  The children of such a node are
below the root. -/
theorem defined_of_scoreCalls (h : t.Paid root) (cfg : Settings K) (max : ℤ) (default : K)
    (prune : Edge K → Bool) {cur : ℕ} {nexts : List ℕ} (above : AtOrBelow t.father cur root)
    (hnexts : (t.nodes cur).nexts = some nexts) :
    ∀ call ∈ t.scoreCalls cfg (t.nodes cur) max (fatherValue (t.nodes cur) default) prune nexts,
      call.Defined := by
  intro call hcall
  obtain ⟨e, he, rfl⟩ := List.mem_map.mp hcall
  obtain ⟨c, hc, hedge⟩ := mem_of_scoredEdges he
  have below := (below_of_father (h.wf.father_of_mem hnexts hc)).trans_atOrBelow above
  exact ScoreCall.defined (h.vl c below e hedge) (one_le_fatherValue (t.nodes cur) default)

omit [IsStrictOrderedRing K] in
/-- The calls after a child was entered. -/
theorem defined_of_enterChildLogged {cur best : ℕ} {won : Bool}
    {next : Tree K → GoBoard B → Descent B K × List (ScoreCall K)} {calls : List (ScoreCall K)}
    (here : ∀ call ∈ calls, call.Defined)
    (rest : ∀ board, ∀ call ∈ (next ((t.decideBy cur best won max).addVl best cfg.virtualLoss)
      board).2, call.Defined) :
    ∀ call ∈ calls ++ (enterChildLogged P cfg t cur best won max board next).2,
      call.Defined := by
  intro call hcall
  rcases List.mem_append.mp hcall with hcall | hcall
  · exact here call hcall
  · unfold enterChildLogged at hcall
    dsimp only at hcall
    split at hcall
    · cases hcall
    · split at hcall
      · cases hcall
      · exact rest _ call hcall

/-- **Below the root, every score is defined.**  A descent adds virtual loss on
its way, which can only make the denominators greater. -/
theorem defined_of_mctsSelectPathLogged (hvl : 0 ≤ cfg.virtualLoss) {fuel cur : ℕ}
    (h : t.Paid root) (above : AtOrBelow t.father cur root) :
    ∀ call ∈ (mctsSelectPathLogged P cfg fuel t cur max board).2, call.Defined := by
  induction fuel generalizing t cur max board with
  | zero => simp [mctsSelectPathLogged]
  | succ fuel ih =>
      rw [mctsSelectPathLogged]
      dsimp only
      split
      · simp
      split
      · simp
      · simp
      · next nexts _ hnexts =>
          have here := h.defined_of_scoreCalls cfg max 0 (fun _ => false) above hnexts
          split
          · exact here
          · next best hbest =>
              have mem : best ∈ nexts := by simpa using scanChildren_mem hbest
              have father := h.wf.father_of_mem hnexts mem
              refine defined_of_enterChildLogged here fun board => ih (h.enter _ _ _ _ hvl) ?_
              rw [((SameShape.of_decideBy _ _ _ _ _).trans (SameShape.of_addVl _ _)).father]
              exact (below_of_father father).atOrBelow.trans above

/-- **Every score of a descent from the root is defined.** -/
theorem defined_of_mctsSelectPathRootLogged (hvl : 0 ≤ cfg.virtualLoss) {remain : ℤ}
    (h : t.Paid root) :
    ∀ call ∈ (t.mctsSelectPathRootLogged P cfg root max board remain).2, call.Defined := by
  unfold mctsSelectPathRootLogged
  dsimp only
  split
  · simp
  split
  · simp
  · simp
  · next nexts _ hnexts =>
      have here := h.defined_of_scoreCalls cfg max (t.nodes root).valuePred
        (fun e => decide ((e.n : ℤ) < if max = 1 then t.visitPruneThr nexts remain else -1))
        .refl hnexts
      split
      · exact here
      · next best hbest =>
          have mem : best ∈ nexts := by simpa using scanChildren_mem hbest
          have father := h.wf.father_of_mem hnexts mem
          refine defined_of_enterChildLogged here fun board =>
            defined_of_mctsSelectPathLogged hvl (h.enter _ _ _ _ hvl) ?_
          rw [((SameShape.of_decideBy _ _ _ _ _).trans (SameShape.of_addVl _ _)).father]
          exact (below_of_father father).atOrBelow

end Paid

end Tree

end EstarGo
