import EstarGo.Player.Expansion

/-!
# Results without the terminal flag

`server_evaluate` gives a second pass beyond depth 300 a result when it makes
the child, and does not set its `is_terminate`.  Nothing else gives a first
result: selection derives `is_terminate` and `result` of a node from the
`is_terminate` of its children, and finds none.  So a state has a decided node
exactly if a reply of the run made such a child, and no search recognises it.

## Main definitions

* `NoDoublePass` — an answer that makes no second pass beyond depth 300.
* `Recognised` — the two fields agree.

## Main results

* `recognised_iff`: in exactly which runs they do.
* `double_pass_not_recognised`: a game of passes in which they do not.

## Design notes

**An exact condition on replies.**  A result once given is never taken back, so
the condition is on each step of the run and needs no look at what came before.
It is exact because a request from beyond depth 300 always carries a score that
is not zero.
-/

namespace EstarGo

open Verif

variable {B K : Type}

/-- `is_terminate` and `result` of each node agree.  `result` is what the
callback writes at a second pass beyond depth 300, and `is_terminate` is what
the scans and the final choice ask; nothing in the source ever sets the second
one for the first. -/
def Recognised (s : Player B K) : Prop :=
  ∀ v < s.tree.next, (s.tree.nodes v).isTerminate = true ↔ (s.tree.nodes v).result ≠ 0

/-- The answer makes no pass child of a pass beyond depth 300.  It is asked of
the state before the reply, in which the leaf of the request still has the depth
and the action that the callback looks at. -/
def NoDoublePass (s : Player B K) : Action K → Prop
  | .reply i _ policy => ∀ rq ∈ s.requests[i]?,
      ¬ (300 < (s.tree.nodes rq.leaf).depth ∧
        (s.tree.nodes rq.leaf).edge.map (·.action) = some GoBoard.posPass ∧
        ∃ item ∈ policy, item.pos = GoBoard.posPass)
  | _ => True

instance (s : Player B K) : DecidablePred (NoDoublePass s)
  | .reply _ _ _ => inferInstanceAs (Decidable (∀ rq ∈ _, ¬ (_ ∧ _ ∧ _)))
  | .select _ _ | .decide _ | .play _ | .genApplyMove | .recycle _ | .stop => .isTrue trivial

variable [Field K] [LinearOrder K] {P : Pachi B} {cfg : Settings K} {s s' : Player B K}

/-! ## The score of a request

A request keeps its score, and its leaf its depth. -/

/-- A step keeps the depth of a node. -/
theorem depth_of_step {a : Action K} (wf : Structured s) (h : s.step P cfg a = some s') {v : ℕ}
    (hv : v < s.tree.next) : (s'.tree.nodes v).depth = (s.tree.nodes v).depth := by
  cases moves_of_step h with
  | select root max remain t leaf board max' hroot found =>
      obtain ⟨path, -, rfl⟩ := wf.exists_path found
      rw [Tree.nodes_addPathVl]
  | repetition | revisit | request | recycle =>
      dsimp only
      rw [Tree.nodes_modify]
      split <;> rfl
  | finished i sel =>
      dsimp only
      rw [Tree.nodes_mctsBackUpdate (wf.mark sel.leaf false).wf.descending_lock, Tree.backedUp,
        Tree.nodes_modify]
      split <;> rfl
  | reply i rq value policy hrq =>
      obtain ⟨hleaf, hnexts⟩ := wf.unexpanded hrq
      rw [Player.evaluateCallback, Tree.nodes_answer_of_lt wf.wf hleaf hnexts hv]
  | freshRoot =>
      rw [Player.newRoot, Tree.nodes_alloc_of_ne hv.ne]
  | childRoot | resigned | stopped | ignored => rfl

/-- A request beyond depth 300 has a score for a second pass.  `server_evaluate`
computes it whenever the leaf is that deep, and it is 1 or -1, so a second pass
that is answered is sure to get a result. -/
def PassScored (s : Player B K) : Prop :=
  ∀ rq ∈ s.requests, 300 < (s.tree.nodes rq.leaf).depth → rq.trompTaylor ≠ 0

/-- The score is computed when the request is sent, at the depth that the node
keeps. -/
theorem passScored_step {a : Action K} (wf : Structured s) (hs : PassScored s)
    (h : s.step P cfg a = some s') : PassScored s' := by
  have older {rq : Request} (hrq : rq ∈ s.requests)
      (deep : 300 < (s'.tree.nodes rq.leaf).depth) : rq.trompTaylor ≠ 0 := by
    rw [depth_of_step wf h (wf.asked rq hrq).1] at deep
    exact hs rq hrq deep
  intro rq hrq deep
  cases moves_of_step h with
  | request i sel hsel flag result terminate sent rq' hrq' =>
      rcases List.mem_append.mp hrq with hrq | hrq
      · exact older hrq deep
      · obtain rfl := List.mem_singleton.mp hrq
        subst hrq'
        obtain ⟨root, hroot, above⟩ := wf.selected sel (List.mem_of_getElem? hsel)
        have deep : 300 < (s.tree.nodes sel.leaf).depth := by
          rw [← depth_of_step wf h (wf.lt_next hroot above)]
          exact deep
        rw [requestFor]
        dsimp only
        rw [if_pos deep]
        split <;> split <;> decide
  | reply => exact older (List.eraseIdx_subset hrq) deep
  | _ => exact older hrq deep

/-! ## The results

Which step gives a first result. -/

/-- No node has a result, so no backup starts from one. -/
def Unscored (s : Player B K) : Prop := ∀ v < s.tree.next, (s.tree.nodes v).result = 0

omit [Field K] [LinearOrder K] in
/-- No node is terminal, so the fields agree where there is no result. -/
theorem recognised_iff_unscored (wf : Structured s) : Recognised s ↔ Unscored s := by
  refine forall₂_congr fun v _ => ?_
  rw [(wf.nodes v).undecided]
  simp

/-- A step whose new nodes have no result. -/
theorem unscored_iff_of_new {a : Action K} (wf : Structured s) (h : s.step P cfg a = some s')
    (le : s.tree.next ≤ s'.tree.next)
    (new : ∀ v, s.tree.next ≤ v → v < s'.tree.next → (s'.tree.nodes v).result = 0) :
    Unscored s' ↔ Unscored s := by
  constructor
  · intro hs v hv
    rw [← (kept_of_step wf h hv).1]
    exact hs v (hv.trans_le le)
  · intro hs v hv
    by_cases older : v < s.tree.next
    · rw [(kept_of_step wf h older).1]
      exact hs v older
    · exact new v (not_lt.mp older) hv

/-- The callback makes no second pass beyond depth 300 if and only if its
children have no result. -/
theorem noDoublePass_iff (scored : PassScored s) {i : ℕ} {rq : Request}
    {value : K} {policy : List (PolicyItem K)} (hrq : s.requests[i]? = some rq) :
    NoDoublePass s (.reply i value policy) ↔ ∀ item ∈ keptItems cfg policy,
      (childNode rq.leaf (s.tree.nodes rq.leaf) rq.trompTaylor item).result = 0 := by
  have score := scored rq (List.mem_of_getElem? hrq)
  simp only [NoDoublePass, hrq, Option.mem_some_iff, forall_eq', childNode]
  constructor
  · intro free item hitem
    refine if_neg ?_
    rintro ⟨hpass, deep, second⟩
    exact free ⟨deep, second, item, (mem_keptItems.mp hitem).1, hpass⟩
  · rintro unscored ⟨deep, second, item, hitem, hpass⟩
    have zero := unscored item (mem_keptItems.mpr ⟨hitem, .inl hpass⟩)
    rw [if_pos ⟨hpass, deep, second⟩] at zero
    exact score deep zero

/-- **A step.**  Results stay away exactly where the answer makes no second
pass. -/
theorem unscored_step {a : Action K} (wf : Structured s) (scored : PassScored s)
    (h : s.step P cfg a = some s') : Unscored s' ↔ Unscored s ∧ NoDoublePass s a := by
  have same (le : s'.tree.next = s.tree.next) : Unscored s' ↔ Unscored s :=
    unscored_iff_of_new wf h le.ge fun v hv hv' => absurd (le ▸ hv') (not_lt.mpr hv)
  have harmless (free : NoDoublePass s a) (hs : Unscored s' ↔ Unscored s) :
      Unscored s' ↔ Unscored s ∧ NoDoublePass s a := hs.trans (and_iff_left free).symm
  cases moves_of_step h with
  | select root max remain t leaf board max' hroot found =>
      obtain ⟨path, -, rfl⟩ := wf.exists_path found
      exact harmless trivial (same (Tree.SameShape.of_addPathVl _ _ _).next)
  | reply i rq value policy hrq =>
      obtain ⟨hleaf, hnexts⟩ := wf.unexpanded hrq
      let answered := s.tree.answer rq.leaf rq.trompTaylor rq.vl (value * rq.minMax)
        (keptItems cfg policy)
      have child {k : ℕ} {item : PolicyItem K} (hk : (keptItems cfg policy)[k]? = some item) :
          answered.nodes (s.tree.next + k) =
            childNode rq.leaf (s.tree.nodes rq.leaf) rq.trompTaylor item :=
        Tree.nodes_answer_child wf.wf hleaf hnexts hk
      have next : answered.next = s.tree.next + (keptItems cfg policy).length := Tree.next_answer
      have le : s.tree.next ≤ s.tree.next + (keptItems cfg policy).length := Nat.le_add_right _ _
      rw [noDoublePass_iff scored hrq]
      constructor
      · intro hs
        refine ⟨fun v hv => ?_, fun item hitem => ?_⟩
        · rw [← (kept_of_step wf h hv).1]
          exact hs v (hv.trans_le (le.trans_eq next.symm))
        · obtain ⟨k, hk⟩ := List.mem_iff_getElem?.mp hitem
          obtain ⟨hlt, -⟩ := List.getElem?_eq_some_iff.mp hk
          rw [← child hk]
          exact hs _ (next ▸ Nat.add_lt_add_left hlt _)
      · rintro ⟨hs, unscored⟩
        refine (unscored_iff_of_new wf h (le.trans_eq next.symm) fun v hv hv' => ?_).mpr hs
        have hv' : v < s.tree.next + (keptItems cfg policy).length := next ▸ hv'
        rcases Tree.expand_cases s.tree (keptItems cfg policy) v with old | ⟨k, item, hk, rfl⟩ | new
        · exact absurd old (not_lt.mpr hv)
        · rw [Player.evaluateCallback, child hk]
          exact unscored item (List.mem_of_getElem? hk)
        · exact absurd hv' (not_lt.mpr new)
  | freshRoot pos root board action opAction hroot idle applied =>
      refine harmless trivial (unscored_iff_of_new wf h (Nat.le_succ _) fun v hv hv' => ?_)
      obtain rfl : v = s.tree.next := Nat.le_antisymm (Nat.le_of_lt_succ hv') hv
      rw [Player.newRoot, Tree.nodes_alloc_next]
      rfl
  | finished i sel => exact harmless trivial (same (Tree.next_mctsBackUpdate ..))
  | repetition | revisit | request | recycle | resigned | stopped =>
      exact harmless trivial (same rfl)
  | childRoot _ _ _ _ _ _ _ command =>
      rcases command with rfl | ⟨pos, rfl⟩ <;> exact harmless trivial (same rfl)
  | ignored _ command =>
      rcases command with rfl | ⟨pos, rfl⟩ <;> exact harmless trivial (same rfl)

/-- **Decided nodes.**  They are recognised exactly in the runs in which no
answer makes a second pass beyond depth 300.  No node of a reachable player is
terminal, so recognition means that no node has a result, and only such an
answer makes one. -/
theorem recognised_iff {board : GoBoard B} {as : List (Action K)}
    (run : (playerMachine P cfg).exec (Player.start board) as = some s) :
    Recognised s ↔ (playerMachine P cfg).Guarded NoDoublePass (Player.start board) as := by
  have start : Unscored (Player.start board : Player B K) := fun v _ => by
    rw [Player.nodes_start]
    rfl
  have scored : PassScored (Player.start board : Player B K) := fun _ hrq => by cases hrq
  rw [recognised_iff_unscored (structured_run run),
    (playerMachine P cfg).holds_iff_guarded (G := NoDoublePass)
      (I := fun s => Structured s ∧ PassScored s)
      (fun ⟨wf, scored⟩ h => ⟨structured_step wf h, passScored_step wf scored h⟩)
      (fun ⟨wf, scored⟩ h => unscored_step wf scored h) ⟨structured_start board, scored⟩ run]
  exact and_iff_right start

/-- The search with two replies makes no node with a result. -/
theorem recognised_iff_searched : ∃ s : Player Stones ℚ,
    (playerMachine pachi shippedSettings).exec newGame searchedGame = some s ∧ Recognised s := by
  have ends : ((playerMachine pachi shippedSettings).exec newGame searchedGame).isSome = true := by
    decide +kernel
  obtain ⟨s, run⟩ := Option.isSome_iff_exists.mp ends
  exact ⟨s, run, (recognised_iff run).mpr (by decide +kernel)⟩

/-- Three hundred passes, and a search that opens the root and its pass
child. -/
def passGame : List (Action ℚ) :=
  List.replicate 300 (.play ['p', 'a', 's', 's']) ++
    [.select 1 9, .decide 0, .reply 0 (1 / 2) [⟨-1, 3 / 5⟩, ⟨72, 2 / 5⟩], .select 1 8, .decide 0,
      .reply 0 (-1 / 2) [⟨-1, 3 / 5⟩, ⟨72, 2 / 5⟩]]

/-- After three hundred passes, the search opens the root and its pass child.
The pass child of the pass child gets its result there, and is not terminal. -/
theorem double_pass_not_recognised : ∃ s : Player Stones ℚ,
    (playerMachine pachi shippedSettings).exec newGame passGame = some s ∧ ¬ Recognised s := by
  have made : ((playerMachine pachi shippedSettings).exec newGame passGame).map (fun s =>
      (decide (303 < s.tree.next), (s.tree.nodes 303).isTerminate,
        decide ((s.tree.nodes 303).result = 0))) = some (true, false, false) := by decide +kernel
  obtain ⟨s, run, facts⟩ := Option.map_eq_some_iff.mp made
  simp only [Prod.mk.injEq, decide_eq_true_eq, decide_eq_false_iff_not] at facts
  obtain ⟨lt, open_, result⟩ := facts
  refine ⟨s, run, fun agree => ?_⟩
  cases open_.symm.trans ((agree 303 lt).mpr result)

end EstarGo
