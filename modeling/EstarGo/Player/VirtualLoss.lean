import EstarGo.Player.Structure
import EstarGo.Tree.ScoreCalls
import Mathlib.Algebra.Order.BigOperators.Group.List
import Mathlib.Tactic.LinearCombination

/-!
# Virtual loss

A selection adds `virtual_loss` to each edge between the root and its leaf, and
a later step removes it: the decision on a finished leaf, or the reply to the
request of the leaf, which also removes what the visits counted by
`invalid_visit` have added.  So an edge below the root holds `virtual_loss` for
each selection in progress at or below it and, for each unanswered request at or
below it, once more than its leaf was visited again: its *debts*.

Two decisions break the account.  The decision on a repetition removes nothing,
and the one on a leaf that was answered since its selection counts a visit that
no reply will read.  The edges keep what such a decision has *lost*.

## Main definitions

* `selectionDebts`, `requestDebts` — what will be removed from an edge.
* `Player.account` — what an edge holds beyond its debts.
* `Player.lost` — what a step leaves on an edge.
* `Settling` — a step that loses nothing, by its state alone.

## Main results

* `account_step`: the change of an account is what the step loses.
* `scores_defined`: no score that a descent computes divides by zero or less.
* `virtual_loss_drained`: where no step loses anything, an idle tree holds no
  virtual loss.
* `virtual_loss_kept`: a run after which an idle tree holds some.

## Design notes

**Accounts.**  The virtual loss of an edge goes up and down with whatever is in
progress.  Its account does not: it is zero, and changes only by what is lost.
So the same step lemma serves both results, for accounts that are zero and for
accounts that are not negative.

**Edges below the root.**  Dropped nodes keep whatever they held, and a late
reply to one of them stops at an expired pointer.  Nothing is said of them, and
a node that comes to be below the root was below the old root.
-/

namespace EstarGo

open Verif

variable {B K : Type}

/-- `vl` of the edge of a node, zero where there is no edge. -/
def Tree.vl (t : Tree K) (v : ℕ) : ℤ := ((t.nodes v).edge.map (·.vl)).getD 0

open Classical in
/-- Whether an edge is between a node and the root, as a number. -/
noncomputable def Tree.passes (t : Tree K) (u v : ℕ) : ℤ := if AtOrBelow t.father u v then 1 else 0

/-- What the selections in progress have added to an edge: a unit of virtual
loss for each one whose leaf is at or below the edge's node. -/
noncomputable def selectionDebts (t : Tree K) (selections : List (Selection B)) (v : ℕ) : ℤ :=
  (selections.map fun sel => t.passes sel.leaf v).sum

/-- What the replies to requests will remove from an edge.  A request whose leaf
was visited again before its reply owes for these visits too. -/
noncomputable def requestDebts (t : Tree K) (requests : List Request) (v : ℕ) : ℤ :=
  (requests.map fun rq => t.passes rq.leaf v * ((t.nodes rq.leaf).invalidVisit + 1)).sum

/-- What an edge holds beyond its debts.  In a search without losses it is zero
at every moment, not only at the end. -/
noncomputable def Player.account (cfg : Settings K) (s : Player B K) (v : ℕ) : ℤ :=
  s.tree.vl v - cfg.virtualLoss *
    (selectionDebts s.tree s.selections v + requestDebts s.tree s.requests v)

/-- The decisions that remove nothing: on a repetition, and on a leaf that is
answered and has no result. -/
def Player.loses (s : Player B K) (sel : Selection B) : Prop :=
  sel.board.boardRepetition = true ∨
    (s.tree.nodes sel.leaf).result = 0 ∧ (s.tree.nodes sel.leaf).evalReady = true

instance (s : Player B K) (sel : Selection B) : Decidable (s.loses sel) :=
  inferInstanceAs (Decidable (_ ∨ _ ∧ _))

/-- What a step leaves on an edge.  Only a decision can leave anything, and it
leaves one unit on each edge of the descent that it decides on. -/
noncomputable def Player.lost (cfg : Settings K) (s : Player B K) (a : Action K) (v : ℕ) : ℤ :=
  match a with
  | .decide i =>
      match s.selections[i]? with
      | some sel => if s.loses sel then cfg.virtualLoss * s.tree.passes sel.leaf v else 0
      | none => 0
  | _ => 0

section Debts

variable {t t' : Tree K} {s s' : Player B K} {cfg : Settings K}

/-- What passes an edge depends on the pointers. -/
theorem passes_congr (father : t'.father = t.father) (u v : ℕ) : t'.passes u v = t.passes u v := by
  rw [Tree.passes, father, Tree.passes]

/-- An edge is passed or not. -/
theorem passes_nonneg (t : Tree K) (u v : ℕ) : 0 ≤ t.passes u v := by
  rw [Tree.passes]
  split <;> simp

/-- Debts of selections depend on the pointers, too. -/
theorem selectionDebts_congr (father : t'.father = t.father) (selections : List (Selection B))
    (v : ℕ) : selectionDebts t' selections v = selectionDebts t selections v := by
  simp only [selectionDebts, passes_congr father]

/-- A decided selection owes nothing any more. -/
theorem selectionDebts_eraseIdx {selections : List (Selection B)} {i : ℕ} {sel : Selection B}
    (hsel : selections[i]? = some sel) (v : ℕ) :
    selectionDebts t (selections.eraseIdx i) v =
      selectionDebts t selections v - t.passes sel.leaf v := by
  have perm := (cons_eraseIdx_perm hsel).map fun sel => t.passes sel.leaf v
  rw [selectionDebts, selectionDebts, ← perm.sum_eq, List.map_cons, List.sum_cons]
  ring

theorem requestDebts_eraseIdx {requests : List Request} {i : ℕ} {rq : Request}
    (hrq : requests[i]? = some rq) (v : ℕ) :
    requestDebts t (requests.eraseIdx i) v = requestDebts t requests v -
      t.passes rq.leaf v * ((t.nodes rq.leaf).invalidVisit + 1) := by
  have perm := (cons_eraseIdx_perm hrq).map fun rq =>
    t.passes rq.leaf v * ((t.nodes rq.leaf).invalidVisit + 1 : ℤ)
  rw [requestDebts, requestDebts, ← perm.sum_eq, List.map_cons, List.sum_cons]
  ring

/-- Debts of requests depend on the pointers and on the visits of their
leaves. -/
theorem requestDebts_congr {requests : List Request} {v : ℕ}
    (passes : ∀ rq ∈ requests, t'.passes rq.leaf v = t.passes rq.leaf v)
    (visits : ∀ rq ∈ requests,
      (t'.nodes rq.leaf).invalidVisit = (t.nodes rq.leaf).invalidVisit) :
    requestDebts t' requests v = requestDebts t requests v := by
  refine congrArg List.sum (List.map_congr_left fun rq hrq => ?_)
  rw [passes rq hrq, visits rq hrq]

/-- A visit more at a leaf is owed by its request. -/
theorem requestDebts_visitAgain {requests : List Request} {u : ℕ}
    (father : t'.father = t.father)
    (visits : ∀ v, ((t'.nodes v).invalidVisit : ℤ) =
      (t.nodes v).invalidVisit + if v = u then 1 else 0) (v : ℕ) :
    requestDebts t' requests v = requestDebts t requests v +
      (requests.map Request.leaf).count u * t.passes u v := by
  induction requests with
  | nil => simp [requestDebts]
  | cons rq requests ih =>
      simp only [requestDebts, List.map_cons, List.sum_cons] at ih ⊢
      rw [ih, passes_congr father, visits, List.count_cons]
      by_cases hu : rq.leaf = u
      · subst hu
        simp
        ring
      · simp [hu]
        ring

end Debts

section Account

variable [Field K] [LinearOrder K] {P : Pachi B} {cfg : Settings K} {s s' : Player B K}

omit [Field K] [LinearOrder K] in
/-- A step that keeps the pointers changes an account by what it adds to the
edge less what it adds to the debts. -/
theorem account_of_sameShape (change gain : ℤ) (shape : Tree.SameShape s.tree s'.tree) {v : ℕ}
    (vl : s'.tree.vl v = s.tree.vl v + change)
    (debts : selectionDebts s.tree s'.selections v + requestDebts s'.tree s'.requests v =
      selectionDebts s.tree s.selections v + requestDebts s.tree s.requests v + gain) :
    s'.account cfg v = s.account cfg v + (change - cfg.virtualLoss * gain) := by
  rw [Player.account, Player.account, vl, selectionDebts_congr shape.father, debts]
  ring

omit [Field K] [LinearOrder K] in
/-- An edge that nothing passes has no debts. -/
theorem account_eq_vl {v : ℕ} (selected : ∀ sel ∈ s.selections, s.tree.passes sel.leaf v = 0)
    (asked : ∀ rq ∈ s.requests, s.tree.passes rq.leaf v = 0) :
    s.account cfg v = s.tree.vl v := by
  have selections : selectionDebts s.tree s.selections v = 0 := by
    refine List.sum_eq_zero fun n hn => ?_
    obtain ⟨sel, hsel, rfl⟩ := List.mem_map.mp hn
    exact selected sel hsel
  have requests : requestDebts s.tree s.requests v = 0 := by
    refine List.sum_eq_zero fun n hn => ?_
    obtain ⟨rq, hrq, rfl⟩ := List.mem_map.mp hn
    rw [asked rq hrq, zero_mul]
  rw [Player.account, selections, requests]
  ring

omit [Field K] [LinearOrder K] in
/-- A change that leaves the edges alone. -/
theorem vl_modify (t : Tree K) (u : ℕ) (f : Node K → Node K) (edge : ∀ nd, (f nd).edge = nd.edge)
    (v : ℕ) : (t.modify u f).vl v = t.vl v := by
  rw [Tree.vl, Tree.modify_field (·.edge) f edge]
  rfl

omit [LinearOrder K] in
/-- Below the root, a backup removes virtual loss from the edges it passes. -/
theorem Structured.vl_backUp (wf : Structured s) {root u v : ℕ} (hroot : s.root = some root)
    (below : Below s.tree.father v root) {vl : ℤ} {z : K} {invalidVisit : ℕ} :
    (s.tree.mctsBackUpdate u vl z invalidVisit).vl v =
      s.tree.vl v - s.tree.passes u v * ((invalidVisit + 1) * vl) := by
  classical
  obtain ⟨f, hf, -⟩ := id below
  obtain ⟨e, he⟩ := wf.wf.exists_edge hf
  have locked : (s.tree.lock v).isSome := by simp [wf.lock_eq hroot below, hf]
  rw [Tree.vl, Tree.nodes_mctsBackUpdate wf.wf.descending_lock, Tree.backedUp, Tree.passes,
    Tree.vl]
  simp only [wf.atOrBelow_lock_iff hroot below, locked, and_true]
  split <;> simp [he, Edge.backUp]

omit [Field K] [LinearOrder K] in
/-- Virtual loss along a path from the root. -/
theorem Structured.vl_addPathVl (wf : Structured s) {root leaf v : ℕ} {path : List ℕ}
    {board : GoBoard B} (hpath : Tree.Path P s.tree root s.rootBoard path leaf board)
    (below : Below s.tree.father v root) (vl : ℤ) :
    (s.tree.addPathVl path vl).vl v = s.tree.vl v + s.tree.passes leaf v * vl := by
  classical
  obtain ⟨f, hf, -⟩ := id below
  obtain ⟨e, he⟩ := wf.wf.exists_edge hf
  have count : (path.count v : ℤ) = s.tree.passes leaf v := by
    rw [hpath.count_eq wf.wf below, Tree.passes]
    split <;> rfl
  rw [Tree.vl, Tree.nodes_addPathVl, count, Tree.vl]
  simp [he]

/-- An answer settles the debts of its request. -/
theorem account_reply (wf : Structured s) (asked : ∀ rq ∈ s.requests, rq.vl = cfg.virtualLoss)
    {i : ℕ} {rq : Request} {value : K} {policy : List (PolicyItem K)}
    (hrq : s.requests[i]? = some rq) {root v : ℕ} (hroot : s.root = some root)
    (hv : v < s.tree.next) (below : Below s.tree.father v root) :
    ({ s with requests := s.requests.eraseIdx i }.evaluateCallback P cfg rq value
      policy).account cfg v = s.account cfg v := by
  classical
  obtain ⟨hleaf, hnexts⟩ := wf.unexpanded hrq
  obtain ⟨f, hf, -⟩ := id below
  obtain ⟨e, he⟩ := wf.wf.exists_edge hf
  have locked : (s.tree.lock v).isSome := by simp [wf.lock_eq hroot below, hf]
  have passes {u : ℕ} (hu : u < s.tree.next) :
      (s.tree.answer rq.leaf rq.trompTaylor rq.vl (value * rq.minMax)
        (keptItems cfg policy)).passes u v = s.tree.passes u v := by
    rw [Tree.passes, Tree.passes]
    simp only [Tree.atOrBelow_answer wf.wf hleaf hnexts hu]
  have vl : (s.tree.answer rq.leaf rq.trompTaylor rq.vl (value * rq.minMax)
      (keptItems cfg policy)).vl v = s.tree.vl v -
        s.tree.passes rq.leaf v * (((s.tree.nodes rq.leaf).invalidVisit + 1) * rq.vl) := by
    rw [Tree.vl, Tree.nodes_answer_of_lt wf.wf hleaf hnexts hv, Tree.passes, Tree.vl]
    simp only [wf.atOrBelow_lock_iff hroot below, locked, and_true]
    split <;> simp [he, Edge.backUp]
  have selections : selectionDebts (s.tree.answer rq.leaf rq.trompTaylor rq.vl
      (value * rq.minMax) (keptItems cfg policy)) s.selections v =
        selectionDebts s.tree s.selections v := by
    refine congrArg List.sum (List.map_congr_left fun sel hsel => passes ?_)
    obtain ⟨root, hroot, above⟩ := wf.selected sel hsel
    exact wf.lt_next hroot above
  have requests : requestDebts (s.tree.answer rq.leaf rq.trompTaylor rq.vl
      (value * rq.minMax) (keptItems cfg policy)) (s.requests.eraseIdx i) v =
        requestDebts s.tree (s.requests.eraseIdx i) v := by
    refine requestDebts_congr (fun rq' hrq' => passes ?_) fun rq' hrq' => ?_
    · exact (wf.asked rq' (List.eraseIdx_subset hrq')).1
    · have := (wf.asked rq' (List.eraseIdx_subset hrq')).1
      rw [Tree.nodes_answer_of_lt wf.wf hleaf hnexts this]
  simp only [Player.account, Player.evaluateCallback]
  rw [vl, selections, requests, requestDebts_eraseIdx hrq,
    asked rq (List.mem_of_getElem? hrq)]
  ring

omit [Field K] [LinearOrder K] in
/-- A step that changes one node and keeps its edge and its visits. -/
theorem account_of_modify (u : ℕ) (f : Node K → Node K) (tree : s'.tree = s.tree.modify u f)
    (shape : ∀ nd, (f nd).shape = nd.shape) (edge : ∀ nd, (f nd).edge = nd.edge)
    (visits : ∀ nd, (f nd).invalidVisit = nd.invalidVisit) {v : ℕ} {g : ℤ}
    (debts : selectionDebts s.tree s'.selections v + requestDebts s.tree s'.requests v =
      selectionDebts s.tree s.selections v + requestDebts s.tree s.requests v + g) :
    s'.account cfg v = s.account cfg v - cfg.virtualLoss * g := by
  have same : Tree.SameShape s.tree s'.tree := tree ▸ Tree.SameShape.of_modify u f shape
  have vl : s'.tree.vl v = s.tree.vl v + 0 := by rw [tree, vl_modify s.tree u f edge, add_zero]
  have requests : requestDebts s'.tree s'.requests v = requestDebts s.tree s'.requests v := by
    refine requestDebts_congr (fun _ _ => passes_congr same.father _ _) fun _ _ => ?_
    rw [tree]
    exact Tree.modify_field (·.invalidVisit) f visits _ _
  rw [account_of_sameShape 0 g same vl (by rw [requests, debts])]
  ring

/-- A selection owes what it adds. -/
theorem account_select (wf : Structured s) {root leaf : ℕ} {max max' remain : ℤ} {t : Tree K}
    {board : GoBoard B}
    (found : s.tree.mctsSelectPathRoot P cfg root max s.rootBoard remain = .leaf t leaf board max')
    {v : ℕ} (below : Below t.father v root) :
    Below s.tree.father v root ∧
      Player.account cfg
        { s with tree := t, selections := s.selections ++ [⟨leaf, board, max⟩] } v =
          s.account cfg v := by
  obtain ⟨path, hpath, rfl⟩ := wf.exists_path found
  have shape := Tree.SameShape.of_addPathVl s.tree path cfg.virtualLoss
  rw [shape.father] at below
  have requests : requestDebts (s.tree.addPathVl path cfg.virtualLoss) s.requests v =
      requestDebts s.tree s.requests v :=
    requestDebts_congr (fun _ _ => passes_congr shape.father _ _)
      fun _ _ => by rw [Tree.nodes_addPathVl]
  refine ⟨below, ?_⟩
  rw [account_of_sameShape (s.tree.passes leaf v * cfg.virtualLoss) (s.tree.passes leaf v) shape
    (wf.vl_addPathVl hpath below cfg.virtualLoss)]
  · ring
  · simp only [requests, selectionDebts, List.map_append, List.sum_append, List.map_cons,
      List.map_nil, List.sum_singleton]
    ring

omit [LinearOrder K] in
/-- The backup of a finished leaf settles the debts of its selection. -/
theorem account_finished (wf : Structured s) {i : ℕ} {sel : Selection B}
    (hsel : s.selections[i]? = some sel) {root v : ℕ} (hroot : s.root = some root)
    (below : Below s.tree.father v root) {z : K} (counted : List ℕ) :
    Player.account cfg
      { s with
        selections := s.selections.eraseIdx i
        counted := counted
        tree := (s.tree.modify sel.leaf fun nd => nd.setRepetition false).mctsBackUpdate
          sel.leaf cfg.virtualLoss z 0 } v = s.account cfg v := by
  have shape := Tree.SameShape.of_modify (t := s.tree) sel.leaf (·.setRepetition false)
    fun _ => rfl
  have marked := wf.mark sel.leaf false
  have backed := wf.shape_finished sel.leaf cfg.virtualLoss z
  have vl : ((s.tree.modify sel.leaf (·.setRepetition false)).mctsBackUpdate sel.leaf
      cfg.virtualLoss z 0).vl v =
        s.tree.vl v + -(s.tree.passes sel.leaf v * cfg.virtualLoss) := by
    have below : Below (s.tree.modify sel.leaf (·.setRepetition false)).father v root := by
      rwa [shape.father]
    refine (marked.vl_backUp hroot below).trans ?_
    simp only [vl_modify s.tree sel.leaf (·.setRepetition false) (fun _ => rfl) v,
      passes_congr shape.father]
    push_cast
    ring
  rw [account_of_sameShape _ (-s.tree.passes sel.leaf v) backed vl]
  · ring
  · rw [selectionDebts_eraseIdx hsel, requestDebts_congr
      (fun _ _ => passes_congr backed.father _ _) fun _ _ => ?_]
    · ring
    · rw [Tree.nodes_mctsBackUpdate marked.wf.descending_lock]
      exact Tree.modify_field (·.invalidVisit) (·.setRepetition false) (fun _ => rfl) _ _

omit [Field K] [LinearOrder K] in
/-- A visit that is counted at a leaf is owed by its request, or lost. -/
theorem account_revisit (wf : Structured s) {i : ℕ} {sel : Selection B}
    (hsel : s.selections[i]? = some sel) (flag : sel.board.boardRepetition = false)
    (result : (s.tree.nodes sel.leaf).result = 0) (sent : (s.tree.nodes sel.leaf).rqSent = true)
    (v : ℕ) :
    Player.account cfg
      { s with
        selections := s.selections.eraseIdx i
        tree := s.tree.modify sel.leaf fun nd => (nd.setRepetition false).visitAgain } v =
          s.account cfg v + s.lost cfg (.decide i) v := by
  have shape := Tree.SameShape.of_modify (t := s.tree) sel.leaf
    (fun nd => (nd.setRepetition false).visitAgain) fun _ => rfl
  have visits (u : ℕ) : (((s.tree.modify sel.leaf fun nd =>
      (nd.setRepetition false).visitAgain).nodes u).invalidVisit : ℤ) =
        (s.tree.nodes u).invalidVisit + if u = sel.leaf then 1 else 0 := by
    rw [Tree.nodes_modify]
    split <;> simp [Node.visitAgain, Node.setRepetition]
  rw [account_of_sameShape 0 ((s.requests.map Request.leaf).count sel.leaf *
    s.tree.passes sel.leaf v - s.tree.passes sel.leaf v) shape]
  · -- the request of an unready leaf is the one that owes the visit
    cases ready : (s.tree.nodes sel.leaf).evalReady with
    | true =>
        have loses : s.loses sel := .inr ⟨result, ready⟩
        have unasked : sel.leaf ∉ s.requests.map Request.leaf := by
          intro mem
          obtain ⟨rq, hrq, leaf⟩ := List.mem_map.mp mem
          have := (wf.asked rq hrq).2.2
          simp [leaf, ready] at this
        simp only [Player.lost, hsel, loses, if_true, List.count_eq_zero_of_not_mem unasked]
        push_cast
        ring
    | false =>
        have kept : ¬ s.loses sel := by simp [Player.loses, flag, ready]
        have one := List.count_eq_one_of_mem wf.once (wf.pending sel.leaf sent ready)
        simp only [Player.lost, hsel, kept, if_false, one]
        push_cast
        ring
  · rw [add_zero]
    exact vl_modify s.tree sel.leaf (fun nd => (nd.setRepetition false).visitAgain)
      (fun _ => rfl) v
  · rw [selectionDebts_eraseIdx hsel, requestDebts_visitAgain shape.father visits]
    ring

/-- A child that an answer adds has no virtual loss and no debts. -/
theorem account_child (wf : Structured s) {i : ℕ} {rq : Request} {value : K}
    {policy : List (PolicyItem K)} (hrq : s.requests[i]? = some rq) {k : ℕ} {item : PolicyItem K}
    (hk : (keptItems cfg policy)[k]? = some item) :
    ({ s with requests := s.requests.eraseIdx i }.evaluateCallback P cfg rq value
      policy).account cfg (s.tree.next + k) = 0 := by
  obtain ⟨hleaf, hnexts⟩ := wf.unexpanded hrq
  have passes {u : ℕ} (hu : u < s.tree.next) :
      ({ s with requests := s.requests.eraseIdx i }.evaluateCallback P cfg rq value
        policy).tree.passes u (s.tree.next + k) = 0 := by
    refine if_neg fun above => ?_
    have := ((Tree.atOrBelow_answer wf.wf hleaf hnexts hu).mp above).le wf.wf.descending
    omega
  refine (account_eq_vl (fun sel hsel => ?_) fun rq' hrq' => ?_).trans ?_
  · obtain ⟨root, hroot, above⟩ := wf.selected sel hsel
    exact passes (wf.lt_next hroot above)
  · exact passes (wf.asked rq' (List.eraseIdx_subset hrq')).1
  · rw [Player.evaluateCallback, Tree.vl, Tree.nodes_answer_child wf.wf hleaf hnexts hk]
    rfl

/-- **What a step does to an account.**  An edge below the new root was below
the old one, and keeps its account but for what the step loses; or it is new.  A
command drops debts together with the edges that have them. -/
theorem account_step {a : Action K} (wf : Structured s)
    (asked : ∀ rq ∈ s.requests, rq.vl = cfg.virtualLoss) (h : s.step P cfg a = some s')
    {root' v : ℕ} (hroot' : s'.root = some root') (below' : Below s'.tree.father v root') :
    s'.account cfg v = 0 ∨ ∃ root, s.root = some root ∧ Below s.tree.father v root ∧
      s'.account cfg v = s.account cfg v + s.lost cfg a v := by
  cases moves_of_step h with
  | select root max remain t leaf board max' hroot found =>
      obtain rfl := Option.some.inj (hroot.symm.trans hroot')
      obtain ⟨below, account⟩ := account_select wf found below'
      exact .inr ⟨root, hroot, below, account.trans (add_zero _).symm⟩
  | repetition i sel hsel flag =>
      have shape := Tree.SameShape.of_modify (t := s.tree) sel.leaf (·.setRepetition true)
        fun _ => rfl
      have loses : s.loses sel := .inl flag
      refine .inr ⟨root', hroot', by rwa [shape.father] at below', ?_⟩
      rw [account_of_modify (s := s) sel.leaf (·.setRepetition true) rfl (fun _ => rfl)
        (fun _ => rfl) (fun _ => rfl) (v := v) (g := -s.tree.passes sel.leaf v)]
      · simp only [Player.lost, hsel, loses, if_true]
        ring
      · rw [selectionDebts_eraseIdx hsel]
        ring
  | finished i sel hsel flag result =>
      have below : Below s.tree.father v root' := by
        rwa [(wf.shape_finished sel.leaf _ _).father] at below'
      have decided := result.resolve_right (by simp [(wf.nodes sel.leaf).undecided])
      have kept : ¬ s.loses sel := by simp [Player.loses, flag, decided]
      refine .inr ⟨root', hroot', below, ?_⟩
      rw [account_finished wf hsel hroot' below]
      simp [Player.lost, hsel, kept]
  | revisit i sel hsel flag result terminate sent =>
      have shape := Tree.SameShape.of_modify (t := s.tree) sel.leaf
        (fun nd => (nd.setRepetition false).visitAgain) fun _ => rfl
      exact .inr ⟨root', hroot', by rwa [shape.father] at below',
        account_revisit wf hsel flag result sent v⟩
  | request i sel hsel flag result terminate sent rq hrq =>
      have shape := Tree.SameShape.of_modify (t := s.tree) sel.leaf
        (fun nd => (nd.setRepetition false).send) fun _ => rfl
      have leaf : rq.leaf = sel.leaf := by rw [hrq]; rfl
      have fresh := (wf.nodes sel.leaf).unvisited sent
      have unready : (s.tree.nodes sel.leaf).evalReady = false := by
        simpa [sent] using mt (wf.nodes sel.leaf).answered
      have kept : ¬ s.loses sel := by simp [Player.loses, flag, unready]
      refine .inr ⟨root', hroot', by rwa [shape.father] at below', ?_⟩
      rw [account_of_modify (s := s) sel.leaf (fun nd => (nd.setRepetition false).send) rfl
        (fun _ => rfl) (fun _ => rfl) (fun _ => rfl) (v := v) (g := 0)]
      · simp [Player.lost, hsel, kept]
      · -- the request takes over the debt of the selection
        rw [selectionDebts_eraseIdx hsel]
        simp only [requestDebts, List.map_append, List.sum_append, List.map_cons, List.map_nil,
          List.sum_singleton, leaf, fresh]
        push_cast
        ring
  | reply i rq value policy hrq =>
      obtain ⟨hleaf, hnexts⟩ := wf.unexpanded hrq
      rcases Tree.expand_cases s.tree (keptItems cfg policy) v with hv | ⟨k, item, hk, rfl⟩ | hv
      · have below := (Tree.below_answer wf.wf hleaf hnexts hv).mp below'
        refine .inr ⟨root', hroot', below, ?_⟩
        rw [account_reply wf asked hrq hroot' hv below]
        exact (add_zero _).symm
      · exact .inl (account_child wf hrq hk)
      · exact absurd below' (not_below_of_none (Tree.father_answer_fresh wf.wf hleaf hnexts hv))
  | freshRoot pos root board action opAction hroot idle applied =>
      have father : ({ s with opAction := opAction }.newRoot board).tree.father = s.tree.father :=
        Tree.father_alloc wf.wf rfl
      obtain rfl : s.tree.next = root' := Option.some.inj hroot'
      rw [father] at below'
      exact absurd below' (wf.wf.not_below_next v)
  | childRoot a root child nexts board action opAction command hroot idle hnexts mem haction
      applied =>
      obtain rfl : child = root' := Option.some.inj hroot'
      have father := below_of_father (wf.wf.father_of_mem hnexts mem)
      refine .inr ⟨root, hroot, below'.trans_atOrBelow father.atOrBelow, ?_⟩
      rcases command with rfl | ⟨pos, rfl⟩ <;> exact (add_zero _).symm
  | resigned idle => cases hroot'
  | recycle u dropped =>
      have shape := Tree.SameShape.of_modify (t := s.tree) u Node.expireFather fun _ => rfl
      refine .inr ⟨root', hroot', by rwa [shape.father] at below', ?_⟩
      have same : ({ s with tree := s.tree.modify u Node.expireFather } : Player B K).account
          cfg v = s.account cfg v - cfg.virtualLoss * 0 :=
        account_of_modify u Node.expireFather rfl (fun _ => rfl) (fun _ => rfl) (fun _ => rfl)
          (add_zero _).symm
      simp [same, Player.lost]
  | stopped => exact .inr ⟨root', hroot', below', (add_zero _).symm⟩
  | ignored a command stop =>
      refine .inr ⟨root', hroot', below', ?_⟩
      rcases command with rfl | ⟨pos, rfl⟩ <;> exact (add_zero _).symm

/-! ## Runs

The two uses of the account: `Q` is being zero, or being not negative. -/

/-- A decision that removes what its selection added: on the root, or on another
leaf that is not a repetition and has a result or no answer. -/
def Settling (cfg : Settings K) (s : Player B K) : Action K → Prop
  | .decide i => ∀ sel ∈ s.selections[i]?, s.root ≠ some sel.leaf → cfg.virtualLoss ≠ 0 →
      sel.board.boardRepetition = false ∧
        ((s.tree.nodes sel.leaf).result ≠ 0 ∨ (s.tree.nodes sel.leaf).evalReady = false)
  | _ => True

omit [Field K] [LinearOrder K] in
/-- A settling step loses nothing on edges below the root. -/
theorem lost_eq_zero {a : Action K} (wf : Structured s) (settling : Settling cfg s a)
    {root v : ℕ} (hroot : s.root = some root) (below : Below s.tree.father v root) :
    s.lost cfg a v = 0 := by
  cases a with
  | decide i =>
      cases hsel : s.selections[i]? with
      | none => simp [Player.lost, hsel]
      | some sel =>
          simp only [Player.lost, hsel]
          split
          · rename_i loses
            by_cases leaf : sel.leaf = root
            · -- the root is not below an edge that is below it
              have above : ¬ AtOrBelow s.tree.father sel.leaf v := fun h =>
                not_below_of_atOrBelow wf.wf.descending h (leaf ▸ below)
              simp [Tree.passes, above]
            · by_cases zero : cfg.virtualLoss = 0
              · simp [zero]
              · have other : s.root ≠ some sel.leaf := by
                  rw [hroot]
                  exact fun h => leaf (Option.some.inj h).symm
                obtain ⟨flag, kept⟩ := settling sel hsel other zero
                rcases loses with loses | ⟨result, ready⟩
                · simp [flag] at loses
                · rcases kept with kept | kept
                  · exact absurd result kept
                  · simp [ready] at kept
          · rfl
  | _ => rfl

/-- Requests carry the virtual loss of the settings. -/
theorem asked_step {a : Action K}
    (asked : ∀ rq ∈ s.requests, rq.vl = cfg.virtualLoss) (h : s.step P cfg a = some s') :
    ∀ rq ∈ s'.requests, rq.vl = cfg.virtualLoss := by
  cases moves_of_step h with
  | request i sel hsel flag result terminate sent rq hrq =>
      intro rq' hrq'
      rcases List.mem_append.mp hrq' with hrq' | hrq'
      · exact asked rq' hrq'
      · rw [List.mem_singleton.mp hrq', hrq]
        rfl
  | reply i rq value policy hrq => exact fun rq' hrq' => asked rq' (List.eraseIdx_subset hrq')
  | _ => exact asked

/-- The accounts of the edges below the root meet `Q`, which holds of zero and
of what can be lost. -/
structure Accounts (cfg : Settings K) (Q : ℤ → Prop) (s : Player B K) : Prop where
  wf : Structured s
  asked : ∀ rq ∈ s.requests, rq.vl = cfg.virtualLoss
  account : ∀ root, s.root = some root → ∀ v, Below s.tree.father v root → Q (s.account cfg v)

/-- A step keeps the accounts, where `Q` withstands what it loses. -/
theorem accounts_step {Q : ℤ → Prop} (zero : Q 0) {a : Action K} (hs : Accounts cfg Q s)
    (lost : ∀ root, s.root = some root → ∀ v, Below s.tree.father v root →
      ∀ x, Q x → Q (x + s.lost cfg a v))
    (h : s.step P cfg a = some s') : Accounts cfg Q s' := by
  refine ⟨structured_step hs.wf h, asked_step hs.asked h, fun root' hroot' v below' => ?_⟩
  rcases account_step hs.wf hs.asked h hroot' below' with new | ⟨root, hroot, below, account⟩
  · rwa [new]
  · rw [account]
    exact lost root hroot v below _ (hs.account root hroot v below)

omit [LinearOrder K] in
/-- A new player has no edge. -/
theorem accounts_start {Q : ℤ → Prop} (board : GoBoard B) :
    Accounts cfg Q (Player.start board : Player B K) := by
  refine ⟨structured_start board, by simp [Player.start], fun root hroot v below => ?_⟩
  exact absurd below (not_below_of_none (Player.father_start board v))

omit [Field K] [LinearOrder K] in
/-- What is lost is not negative. -/
theorem lost_nonneg (hvl : 0 ≤ cfg.virtualLoss) (a : Action K) (v : ℕ) : 0 ≤ s.lost cfg a v := by
  cases a with
  | decide i =>
      simp only [Player.lost]
      split
      · split
        · exact mul_nonneg hvl (passes_nonneg _ _ _)
        · exact le_rfl
      · exact le_rfl
  | _ => exact le_rfl

omit [Field K] [LinearOrder K] in
theorem debts_nonneg (s : Player B K) (v : ℕ) :
    0 ≤ selectionDebts s.tree s.selections v + requestDebts s.tree s.requests v := by
  refine add_nonneg (List.sum_nonneg fun n hn => ?_) (List.sum_nonneg fun n hn => ?_)
  · obtain ⟨sel, -, rfl⟩ := List.mem_map.mp hn
    exact passes_nonneg _ _ _
  · obtain ⟨rq, -, rfl⟩ := List.mem_map.mp hn
    exact mul_nonneg (passes_nonneg _ _ _) (by omega)

/-- Whatever is lost, the virtual loss below the root of a reachable player is
not negative. -/
theorem vl_nonneg_of_run (hvl : 0 ≤ cfg.virtualLoss) {board : GoBoard B} {as : List (Action K)}
    (run : (playerMachine P cfg).exec (Player.start board) as = some s) {root v : ℕ}
    (hroot : s.root = some root) (below : Below s.tree.father v root) : 0 ≤ s.tree.vl v := by
  have solvent : Accounts cfg (0 ≤ ·) s :=
    (playerMachine P cfg).invariant_of_step (I := Accounts cfg (0 ≤ ·))
      (fun hs h => accounts_step le_rfl hs
        (fun _ _ v _ _ hx => add_nonneg hx (lost_nonneg hvl _ v)) h)
      (accounts_start board) run
  have account := solvent.account root hroot v below
  have debts := mul_nonneg hvl (debts_nonneg s v)
  rw [Player.account] at account
  omega

/-- **Every score is defined.**  Whatever the run lost, no edge below the root
of a reachable player holds negative virtual loss, and a descent from there
divides by positive numbers only. -/
theorem scores_defined [IsStrictOrderedRing K] (hvl : 0 ≤ cfg.virtualLoss) {board : GoBoard B}
    {as : List (Action K)} (run : (playerMachine P cfg).exec (Player.start board) as = some s)
    {root : ℕ} (hroot : s.root = some root) :
    (∀ v, Below s.tree.father v root → ∃ e, (s.tree.nodes v).edge = some e ∧ 0 ≤ e.vl) ∧
      ∀ max board remain,
        (s.tree.mctsSelectPathRootLogged P cfg root max board remain).1 =
            s.tree.mctsSelectPathRoot P cfg root max board remain ∧
          ∀ call ∈ (s.tree.mctsSelectPathRootLogged P cfg root max board remain).2,
            call.Defined := by
  have wf := (structured_run run).wf
  have paid (v : ℕ) (below : Below s.tree.father v root) (e : Edge K)
      (he : (s.tree.nodes v).edge = some e) : 0 ≤ e.vl := by
    have := vl_nonneg_of_run hvl run hroot below
    rwa [Tree.vl, he] at this
  constructor
  · intro v below
    obtain ⟨f, hf, -⟩ := id below
    obtain ⟨e, he⟩ := wf.exists_edge hf
    exact ⟨e, he, paid v below e he⟩
  · intro max board remain
    exact ⟨Tree.fst_mctsSelectPathRootLogged,
      Tree.Paid.defined_of_mctsSelectPathRootLogged hvl ⟨wf, paid⟩⟩

/-- **Virtual loss drains.**  In a run whose decisions all remove what their
selections added, no edge below the root holds virtual loss when no selection is
in progress and no request unanswered. -/
theorem virtual_loss_drained {board : GoBoard B} {as : List (Action K)}
    (settling : (playerMachine P cfg).Guarded (Settling cfg) (Player.start board) as)
    (run : (playerMachine P cfg).exec (Player.start board) as = some s)
    (idle : s.selections = []) (answered : s.requests = []) {root v : ℕ}
    (hroot : s.root = some root) (below : Below s.tree.father v root) :
    ∃ e, (s.tree.nodes v).edge = some e ∧ e.vl = 0 := by
  have settled : Accounts cfg (· = 0) s :=
    (playerMachine P cfg).invariant (I := Accounts cfg (· = 0))
      (fun hs settling h => accounts_step rfl hs (fun root hroot v below x hx => by
        rw [hx, lost_eq_zero hs.wf settling hroot below, add_zero]) h)
      (accounts_start board) settling run
  have account : s.account cfg v = 0 := settled.account root hroot v below
  rw [account_eq_vl (by simp [idle]) (by simp [answered])] at account
  obtain ⟨f, hf, -⟩ := below
  obtain ⟨e, he⟩ := settled.wf.wf.exists_edge hf
  exact ⟨e, he, by simpa [Tree.vl, he] using account⟩

end Account

instance (cfg : Settings K) (s : Player B K) : DecidablePred (Settling cfg s)
  | .decide i =>
      match h : s.selections[i]? with
      | none => .isTrue (by simp [Settling, h])
      | some sel =>
          decidable_of_iff (s.root ≠ some sel.leaf → cfg.virtualLoss ≠ 0 →
            sel.board.boardRepetition = false ∧
              ((s.tree.nodes sel.leaf).result ≠ 0 ∨ (s.tree.nodes sel.leaf).evalReady = false))
            (by simp [Settling, h])
  | .select .. | .reply .. | .play _ | .genApplyMove | .recycle _ | .stop => .isTrue trivial

/-- After one answer, a descent from the root scores its first child, so there
is a call to speak of.  Both of its denominators are positive. -/
theorem scores_defined_searched : ∃ s : Player Stones ℚ,
    ∃ call ∈ (s.tree.mctsSelectPathRootLogged pachi shippedSettings 0 1 s.rootBoard 8).2,
      call.Defined := by
  have seen : (((playerMachine pachi shippedSettings).exec newGame (searchedGame.take 3)).map
      fun s => (s.root, (s.tree.mctsSelectPathRootLogged pachi shippedSettings 0 1
        s.rootBoard 8).2.length)) = some (some 0, 1) := by decide +kernel
  obtain ⟨s, run, facts⟩ := Option.map_eq_some_iff.mp seen
  simp only [Prod.mk.injEq] at facts
  obtain ⟨hroot, length⟩ := facts
  obtain ⟨call, hcall⟩ := List.length_eq_one_iff.mp length
  have mem : call ∈ (s.tree.mctsSelectPathRootLogged pachi shippedSettings 0 1 s.rootBoard 8).2 :=
    hcall ▸ List.mem_singleton_self call
  exact ⟨s, call, mem, ((scores_defined (by decide) run hroot).2 1 s.rootBoard 8).2 call mem⟩

/-- After one answered descent, the edge has its visit and no virtual loss. -/
theorem virtual_loss_drained_searched : ∃ s : Player Stones ℚ,
    ∃ e, (s.tree.nodes 1).edge = some e ∧ e.vl = 0 ∧ e.n = 1 := by
  have seen : (((playerMachine pachi shippedSettings).exec newGame (searchedGame.take 6)).map
      fun s => (s.selections.length, s.requests.length, s.root, s.tree.father 1,
        (s.tree.nodes 1).edge.map (·.n))) = some (0, 0, some 0, some 0, some 1) := by
    decide +kernel
  obtain ⟨s, run, counts⟩ := Option.map_eq_some_iff.mp seen
  simp only [Prod.mk.injEq, List.length_eq_zero_iff] at counts
  obtain ⟨idle, answered, hroot, father, visits⟩ := counts
  obtain ⟨e, he, hvl⟩ := virtual_loss_drained (by decide +kernel) run idle answered hroot
    (below_of_father father)
  exact ⟨s, e, he, hvl, by simpa [he] using visits⟩

/-- A second iteration selects the leaf of a request, the reply arrives, and the
iteration counts its visit.  The backup of the reply has taken off one unit
only, as the second visit was not known to it. -/
def lateVisitRun : List (Action ℚ) :=
  [.select 1 9, .decide 0, .reply 0 (1 / 2) [⟨72, 3 / 5⟩, ⟨-1, 2 / 5⟩], .select 1 8, .decide 0,
    .select 1 7, .reply 0 (-1 / 2) [⟨60, 1 / 2⟩, ⟨-1, 1 / 2⟩], .decide 0]

/-- The edge keeps the virtual loss of the second selection.  Nothing is in
progress and nothing is unanswered, so there is no step left that would take it
off. -/
theorem virtual_loss_kept : ∃ s : Player Stones ℚ,
    (playerMachine pachi shippedSettings).exec newGame lateVisitRun = some s ∧
      s.selections = [] ∧ s.requests = [] ∧ ∃ root v e, s.root = some root ∧
        Below s.tree.father v root ∧ (s.tree.nodes v).edge = some e ∧ e.vl ≠ 0 := by
  have seen : (((playerMachine pachi shippedSettings).exec newGame lateVisitRun).map
      fun s => (s.selections.length, s.requests.length, s.root, s.tree.father 1,
        (s.tree.nodes 1).edge.map (·.vl))) = some (0, 0, some 0, some 0, some 3) := by
    decide +kernel
  obtain ⟨s, run, counts⟩ := Option.map_eq_some_iff.mp seen
  simp only [Prod.mk.injEq, List.length_eq_zero_iff] at counts
  obtain ⟨idle, answered, hroot, father, hvl⟩ := counts
  obtain ⟨e, he, hvl⟩ := Option.map_eq_some_iff.mp hvl
  exact ⟨s, run, idle, answered, 0, 1, e, hroot, below_of_father father, he, by simp [hvl]⟩

end EstarGo
