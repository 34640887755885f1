import EstarGo.Player.Structure

/-!
# What opened a node

A node is opened once, by the callback of the one request that was sent for it.
From then on it keeps the value and the children that this reply gave it,
through selections, backups, other replies, moves and expired pointers.

## Main definitions

* `Node.opening`, `Tree.offspring` — what a node keeps once it is opened.
* `OpenedBy` — a node has the value and the children of a reply.
* `Openings` — every opened node was opened by a reply to its one request.

## Main results

* `openings_reply`: a reply opens its leaf.
* `openings_step`: a step keeps the openings, if its reply satisfies `Q`.

## Design notes

**What is known of the replies.**  `Openings Q` says so for whatever `Q` is
known of the replies.  The player knows nothing of them; a caller who knows more
chooses `Q`, as `Linked` does with the answers of a network.

**One request.**  That a node has one request rests on `rq_sent` being read and
set in one step, as `serverEvaluate` does.
-/

namespace EstarGo

open Verif

variable {B K : Type}

/-- The action and the prior of a node. -/
def Node.move (nd : Node K) : Option (ℤ × K) := nd.edge.map fun e => (e.action, e.p)

/-- Those of its children, in their order. -/
def Tree.offspring (t : Tree K) (v : ℕ) : List (Option (ℤ × K)) :=
  ((t.nodes v).nexts.getD []).map fun c => (t.nodes c).move

/-- What a node keeps once it is opened.  Backups, virtual loss and flags change
none of it, so a node that was opened once is told by these three fields. -/
def Node.opening (nd : Node K) : Option (List ℕ) × Bool × K :=
  (nd.nexts, nd.evalReady, nd.valuePred)

/-- A node has the value and the children of a reply.  Which items are kept, and
in which order, is a matter of the settings, and so they appear in the
statement. -/
structure OpenedBy [Field K] [LinearOrder K] (cfg : Settings K) (t : Tree K) (rq : Request)
    (value : K) (policy : List (PolicyItem K)) : Prop where
  value : (t.nodes rq.leaf).valuePred = value * rq.minMax
  offspring : t.offspring rq.leaf =
    (keptItems cfg policy).map fun item => some (item.pos, item.prob)

/-- Every opened node was opened by a reply to its one request, of which `Q`
holds. -/
structure Openings [Field K] [LinearOrder K] (cfg : Settings K)
    (Q : Request → K → List (PolicyItem K) → Prop) (s : Player B K) : Prop where
  asked : ∀ rq ∈ s.requests, rq ∈ s.sent
  marked : ∀ rq ∈ s.sent, rq.leaf < s.tree.next ∧ (s.tree.nodes rq.leaf).rqSent = true
  once : (s.sent.map Request.leaf).Nodup
  opened : ∀ v, (s.tree.nodes v).evalReady = true → ∃ rq ∈ s.sent, rq.leaf = v ∧
    ∃ value policy, Q rq value policy ∧ OpenedBy cfg s.tree rq value policy

section Frame

variable {t t' : Tree K}

/-- The children of a node depend on its list and on their moves alone. -/
theorem offspring_congr (wf : t.Wf) {v : ℕ} (nexts : (t'.nodes v).nexts = (t.nodes v).nexts)
    (move : ∀ u < t.next, (t'.nodes u).move = (t.nodes u).move) :
    t'.offspring v = t.offspring v := by
  rw [Tree.offspring, Tree.offspring, nexts]
  refine List.map_congr_left fun c hc => ?_
  cases hnexts : (t.nodes v).nexts with
  | none => simp [hnexts] at hc
  | some cs =>
      rw [hnexts] at hc
      exact move c (wf.lt_next_of_father (wf.father_of_mem hnexts hc))

/-- What is opened is a node. -/
theorem Tree.Wf.lt_next_of_ready (wf : t.Wf) {v : ℕ} (ready : (t.nodes v).evalReady = true) :
    v < t.next := by
  by_contra hv
  have := (wf.ready_iff v).mp ready
  simp [(wf.fresh v (Nat.le_of_not_lt hv)).2] at this

end Frame

section Steps

variable [Field K] [LinearOrder K] {P : Pachi B} {cfg : Settings K} {s s' : Player B K}
variable {Q : Request → K → List (PolicyItem K) → Prop}

/-- A node that keeps its opening and the moves of its children was opened by
the same reply. -/
theorem OpenedBy.of_opening {t t' : Tree K} {rq : Request} {value : K}
    {policy : List (PolicyItem K)} (h : OpenedBy cfg t rq value policy) (wf : t.Wf)
    (same : (t'.nodes rq.leaf).opening = (t.nodes rq.leaf).opening)
    (move : ∀ u < t.next, (t'.nodes u).move = (t.nodes u).move) :
    OpenedBy cfg t' rq value policy := by
  simp only [Node.opening, Prod.mk.injEq] at same
  exact ⟨same.2.2.trans h.value, (offspring_congr wf same.1 move).trans h.offspring⟩

/-- A step within the same nodes. -/
theorem Openings.of_sameShape (hs : Openings cfg Q s) (wf : s.tree.Wf)
    (shape : Tree.SameShape s.tree s'.tree)
    (same : ∀ u, (s'.tree.nodes u).opening = (s.tree.nodes u).opening)
    (move : ∀ u, (s'.tree.nodes u).move = (s.tree.nodes u).move)
    (sent : ∀ u, (s.tree.nodes u).rqSent = true → (s'.tree.nodes u).rqSent = true)
    (requests : s'.requests = s.requests) (log : s'.sent = s.sent) : Openings cfg Q s' := by
  constructor
  case asked =>
    rw [requests, log]
    exact hs.asked
  case marked =>
    intro rq hrq
    rw [log] at hrq
    rw [shape.next]
    exact ⟨(hs.marked rq hrq).1, sent rq.leaf (hs.marked rq hrq).2⟩
  case once =>
    rw [log]
    exact hs.once
  case opened =>
    intro v ready
    rw [shape.evalReady] at ready
    obtain ⟨rq, hrq, rfl, value, policy, hQ, opened⟩ := hs.opened v ready
    exact ⟨rq, log ▸ hrq, rfl, value, policy, hQ,
      opened.of_opening wf (same rq.leaf) fun u _ => move u⟩

/-- A change of one node that keeps what it was opened with. -/
theorem Openings.of_modify (hs : Openings cfg Q s) (wf : s.tree.Wf) (v : ℕ)
    (f : Node K → Node K) (tree : s'.tree = s.tree.modify v f)
    (shape : ∀ nd, (f nd).shape = nd.shape) (same : ∀ nd, (f nd).opening = nd.opening)
    (move : ∀ nd, (f nd).move = nd.move)
    (sent : ∀ nd, nd.rqSent = true → (f nd).rqSent = true)
    (requests : s'.requests = s.requests) (log : s'.sent = s.sent) : Openings cfg Q s' := by
  refine hs.of_sameShape wf ?_ (fun u => ?_) (fun u => ?_) (fun u h => ?_) requests log
  · rw [tree]
    exact Tree.SameShape.of_modify v f shape
  · rw [tree]
    exact Tree.modify_field Node.opening f same v u
  · rw [tree]
    exact Tree.modify_field Node.move f move v u
  · rw [tree, Tree.nodes_modify]
    split
    · exact sent _ h
    · exact h

omit [Field K] [LinearOrder K] in
/-- An update of an edge that keeps its action and its prior. -/
theorem move_update {nd nd' : Node K} {f : Edge K → Edge K} (edge : nd'.edge = nd.edge.map f)
    (hf : ∀ e, ((f e).action, (f e).p) = (e.action, e.p)) : nd'.move = nd.move := by
  rw [Node.move, edge, Option.map_map]
  exact congrArg (Option.map · nd.edge) (funext hf)

omit [LinearOrder K] in
/-- A backup keeps actions and priors. -/
theorem move_backedUp {t : Tree K} (u : ℕ) (tvl : ℤ) (z : K) (v : ℕ) :
    (t.backedUp u tvl z v).move = (t.nodes v).move := by
  by_cases line : AtOrBelow t.lock u v ∧ (t.lock v).isSome
  · exact move_update (if_pos line) fun _ => rfl
  · exact congrArg (Option.map _) (if_neg line)

omit [LinearOrder K] in
/-- An answer keeps the actions and priors of the old nodes. -/
theorem move_answer_of_lt {t : Tree K} {leaf u : ℕ} {trompTaylor vl : ℤ} {scoreValue : K}
    {items : List (PolicyItem K)} (wf : t.Wf) (hleaf : leaf < t.next)
    (hnexts : (t.nodes leaf).nexts = none) (hu : u < t.next) :
    ((t.answer leaf trompTaylor vl scoreValue items).nodes u).move = (t.nodes u).move := by
  rw [Tree.nodes_answer wf hleaf hnexts, move_backedUp, Tree.nodes_expandValued_of_lt hu]
  rfl

omit [LinearOrder K] in
/-- The children an answer makes are those of its items. -/
theorem offspring_answer {t : Tree K} {leaf : ℕ} {trompTaylor vl : ℤ} {scoreValue : K}
    {items : List (PolicyItem K)} (wf : t.Wf) (hleaf : leaf < t.next)
    (hnexts : (t.nodes leaf).nexts = none) :
    (t.answer leaf trompTaylor vl scoreValue items).offspring leaf =
      items.map fun item => some (item.pos, item.prob) := by
  have nexts : ((t.answer leaf trompTaylor vl scoreValue items).nodes leaf).nexts =
      some (List.range' t.next items.length) := by
    rw [Tree.nodes_answer_of_lt wf hleaf hnexts hleaf]
    exact if_pos rfl
  rw [Tree.offspring, nexts]
  refine List.ext_getElem (by simp) fun i hi hi' => ?_
  have bound : i < items.length := by simpa using hi'
  have item : items[i]? = some items[i] := List.getElem?_eq_getElem bound
  simp only [Option.getD_some, List.getElem_map, List.getElem_range', one_mul, Node.move,
    Tree.nodes_answer_child wf hleaf hnexts item]
  rfl

/-- A reply opens its leaf. -/
theorem openings_reply (wf : Structured s) (hs : Openings cfg Q s) {i : ℕ} {rq : Request}
    {value : K} {policy : List (PolicyItem K)} (hrq : s.requests[i]? = some rq)
    (hQ : Q rq value policy) :
    Openings cfg Q ({ s with requests := s.requests.eraseIdx i }.evaluateCallback P cfg rq value
      policy) := by
  obtain ⟨hleaf, hnexts⟩ := wf.unexpanded hrq
  constructor
  case asked => exact fun rq' hrq' => hs.asked rq' (List.eraseIdx_subset hrq')
  case marked =>
    intro rq' hrq'
    obtain ⟨hlt, mark⟩ := hs.marked rq' hrq'
    rw [Player.evaluateCallback, Tree.nodes_answer_of_lt wf.wf hleaf hnexts hlt]
    exact ⟨hlt.trans_le (by simp), mark⟩
  case once => exact hs.once
  case opened =>
    intro v ready
    rw [Player.evaluateCallback] at ready ⊢
    have hv : v < s.tree.next := by
      rcases Tree.expand_cases s.tree (keptItems cfg policy) v with h | ⟨k, item, hk, rfl⟩ | h
      · exact h
      · rw [Tree.nodes_answer_child wf.wf hleaf hnexts hk] at ready
        simp [childNode, Node.new] at ready
      · rw [Tree.nodes_answer_fresh wf.wf hleaf hnexts h] at ready
        exact wf.wf.lt_next_of_ready ready
    by_cases same : v = rq.leaf
    · subst same
      refine ⟨rq, hs.asked rq (List.mem_of_getElem? hrq), rfl, value, policy, hQ, ?_,
        offspring_answer wf.wf hleaf hnexts⟩
      rw [Tree.nodes_answer_of_lt wf.wf hleaf hnexts hleaf]
      exact if_pos rfl
    · rw [Tree.nodes_answer_of_lt wf.wf hleaf hnexts hv] at ready
      obtain ⟨rq', hrq', rfl, value', policy', hQ', opened⟩ :=
        hs.opened v (by simpa [same] using ready)
      refine ⟨rq', hrq', rfl, value', policy', hQ', opened.of_opening wf.wf ?_ fun u hu =>
        move_answer_of_lt wf.wf hleaf hnexts hu⟩
      rw [Tree.nodes_answer_of_lt wf.wf hleaf hnexts hv]
      simp [Node.opening, same]

/-- A request goes into both lists. -/
theorem openings_request (wf : Structured s) (hs : Openings cfg Q s) {v : ℕ} {rq : Request}
    (f : Node K → Node K) (hv : v < s.tree.next) (hrq : rq.leaf = v)
    (unsent : (s.tree.nodes v).rqSent = false) (tree : s'.tree = s.tree.modify v f)
    (shape : ∀ nd, (f nd).shape = nd.shape) (same : ∀ nd, (f nd).opening = nd.opening)
    (move : ∀ nd, (f nd).move = nd.move) (sent : ∀ nd, (f nd).rqSent = true)
    (requests : s'.requests = s.requests ++ [rq]) (log : s'.sent = s.sent ++ [rq]) :
    Openings cfg Q s' := by
  have marked : Openings cfg Q { s with tree := s.tree.modify v f } :=
    hs.of_modify wf.wf v f rfl shape same move (fun nd _ => sent nd) rfl rfl
  have new : rq.leaf ∉ s.sent.map Request.leaf := by
    intro mem
    obtain ⟨rq', hrq', leaf⟩ := List.mem_map.mp mem
    have mark := (hs.marked rq' hrq').2
    rw [leaf, hrq, unsent] at mark
    cases mark
  constructor
  case asked =>
    rw [requests, log]
    intro rq' hrq'
    rw [List.mem_append] at hrq' ⊢
    exact hrq'.imp_left (hs.asked rq')
  case marked =>
    rw [log, tree]
    intro rq' hrq'
    rcases List.mem_append.mp hrq' with hrq' | hrq'
    · exact marked.marked rq' hrq'
    · rw [List.mem_singleton.mp hrq', hrq, Tree.nodes_modify, if_pos rfl]
      exact ⟨hv, sent _⟩
  case once =>
    rw [log, List.map_append, List.map_singleton]
    exact List.nodup_append.mpr ⟨hs.once, List.nodup_singleton _, fun a ha b hb => by
      rintro rfl
      exact new (List.mem_singleton.mp hb ▸ ha)⟩
  case opened =>
    intro u ready
    rw [tree] at ready ⊢
    obtain ⟨rq', hrq', leaf, value, policy, hQ, opened⟩ := marked.opened u ready
    exact ⟨rq', log ▸ List.mem_append_left _ hrq', leaf, value, policy, hQ, opened⟩

/-- A fresh root is not opened. -/
theorem openings_newRoot (wf : Structured s) (hs : Openings cfg Q s)
    (board : GoBoard B) : Openings cfg Q (s.newRoot board) := by
  have nodes {u : ℕ} (hu : u < s.tree.next) :
      (s.newRoot board).tree.nodes u = s.tree.nodes u := Tree.nodes_alloc_of_ne hu.ne
  constructor
  case asked => exact hs.asked
  case marked =>
    intro rq hrq
    obtain ⟨hlt, mark⟩ := hs.marked rq hrq
    rw [nodes hlt]
    exact ⟨Nat.lt_succ_of_lt hlt, mark⟩
  case once => exact hs.once
  case opened =>
    intro v ready
    by_cases same : v = s.tree.next
    · subst same
      simp [Player.newRoot, Node.new] at ready
    · have old : (s.newRoot board).tree.nodes v = s.tree.nodes v := Tree.nodes_alloc_of_ne same
      rw [old] at ready
      obtain ⟨rq, hrq, rfl, value, policy, hQ, opened⟩ := hs.opened v ready
      refine ⟨rq, hrq, rfl, value, policy, hQ, opened.of_opening wf.wf ?_ fun u hu => ?_⟩
      · rw [old]
      · rw [nodes hu]

/-- **A step keeps the openings**, if what it replies satisfies `Q`.  A node is
opened by a reply and by nothing else, and a second reply cannot come, because
each request has a leaf of its own. -/
theorem openings_step {a : Action K} (wf : Structured s) (hs : Openings cfg Q s)
    (replies : ∀ i value policy, a = .reply i value policy →
      ∀ rq, s.requests[i]? = some rq → Q rq value policy)
    (h : s.step P cfg a = some s') : Openings cfg Q s' := by
  have leaf_lt {i : ℕ} {sel : Selection B} (hsel : s.selections[i]? = some sel) :
      sel.leaf < s.tree.next := by
    obtain ⟨root, hroot, hleaf⟩ := wf.selected sel (List.mem_of_getElem? hsel)
    exact wf.lt_next hroot hleaf
  cases moves_of_step h with
  | select root max remain t leaf board max' hroot found =>
      obtain ⟨path, -, rfl⟩ := wf.exists_path found
      refine hs.of_sameShape wf.wf (Tree.SameShape.of_addPathVl _ _ _) (fun u => ?_) (fun u => ?_)
        (fun u sent => ?_) rfl rfl
      · rw [Tree.nodes_addPathVl]
        rfl
      · rw [Tree.nodes_addPathVl]
        exact move_update rfl fun _ => rfl
      · rw [Tree.nodes_addPathVl]
        exact sent
  | repetition i sel hsel flag =>
      exact hs.of_modify wf.wf sel.leaf (fun nd => nd.setRepetition true) rfl (fun _ => rfl)
        (fun _ => rfl) (fun _ => rfl) (fun _ => id) rfl rfl
  | finished i sel hsel flag result =>
      have marked : Openings cfg Q { s with
          tree := s.tree.modify sel.leaf fun nd => nd.setRepetition false } :=
        hs.of_modify wf.wf sel.leaf (fun nd => nd.setRepetition false) rfl (fun _ => rfl)
          (fun _ => rfl) (fun _ => rfl) (fun _ => id) rfl rfl
      have desc := (wf.mark sel.leaf false).wf.descending_lock
      refine marked.of_sameShape (wf.mark sel.leaf false).wf
        (Tree.SameShape.of_mctsBackUpdate desc _ _ _) (fun u => ?_) (fun u => ?_) (fun u sent => ?_)
        rfl rfl
      · rw [Tree.nodes_mctsBackUpdate desc]
        rfl
      · rw [Tree.nodes_mctsBackUpdate desc]
        exact move_backedUp _ _ _ _
      · rw [Tree.nodes_mctsBackUpdate desc]
        exact sent
  | revisit i sel hsel flag result terminate sent =>
      exact hs.of_modify wf.wf sel.leaf (fun nd => (nd.setRepetition false).visitAgain) rfl
        (fun _ => rfl) (fun _ => rfl) (fun _ => rfl) (fun _ => id) rfl rfl
  | request i sel hsel flag result terminate sent rq hrq =>
      exact openings_request wf hs (fun nd => (nd.setRepetition false).send) (leaf_lt hsel)
        (by rw [hrq]; rfl) sent rfl (fun _ => rfl) (fun _ => rfl) (fun _ => rfl) (fun _ => rfl)
        rfl rfl
  | reply i rq value policy hrq =>
      exact openings_reply wf hs hrq (replies i value policy rfl rq hrq)
  | freshRoot pos root board action opAction hroot idle applied =>
      exact openings_newRoot (s := { s with opAction := opAction })
        (wf.of_tree_eq rfl rfl rfl (List.Subset.refl _))
        ⟨hs.asked, hs.marked, hs.once, hs.opened⟩ board
  | childRoot | resigned | stopped => exact ⟨hs.asked, hs.marked, hs.once, hs.opened⟩
  | recycle v dropped =>
      exact hs.of_modify wf.wf v Node.expireFather rfl (fun _ => rfl) (fun _ => rfl)
        (fun _ => rfl) (fun _ => id) rfl rfl
  | ignored => exact hs

/-- A new player has opened nothing. -/
theorem openings_start (board : GoBoard B) :
    Openings cfg Q (Player.start board : Player B K) := by
  refine ⟨by simp [Player.start], by simp [Player.start], by simp [Player.start], ?_⟩
  intro v ready
  rw [Player.nodes_start] at ready
  cases ready

end Steps

end EstarGo
