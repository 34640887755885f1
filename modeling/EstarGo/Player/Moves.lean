import EstarGo.Player.Player

/-!
# The transitions of the player

`Moves` lists what a step of the player can be, one constructor for each
outcome, with the state after it; `moves_of_step` is the inversion of
`Player.step`.  The two commands share their outcomes: a fresh root, a child
that becomes the root, or no change.

## Main definitions

* `Moves` — the outcomes of a step.

## Main results

* `moves_of_step`: every step is one of the outcomes.
* `exists_of_select`: a selection is a descent.

## Design notes

**Invariants by outcomes.**  An invariant of the player is proved once for each
constructor, and no proof but those here opens the definition of a step.  Where
only some fields matter, several outcomes go the same way: most of the
invariants need no more than the tree before and after.
-/

namespace EstarGo

open Verif

variable {B K : Type} [Field K] [LinearOrder K]

/-- The outcomes of a step.  An iteration selects; it marks a repetition, backs
up a result, visits again or asks; a reply expands; a command makes a fresh
root, moves the root or changes nothing; a pointer expires; and the search is
stopped. -/
inductive Moves (P : Pachi B) (cfg : Settings K) (s : Player B K) :
    Action K → Player B K → Prop where
  | select (root : ℕ) (max remain : ℤ) (t : Tree K) (leaf : ℕ) (board : GoBoard B) (max' : ℤ)
      (hroot : s.root = some root)
      (found : s.tree.mctsSelectPathRoot P cfg root max s.rootBoard remain =
        .leaf t leaf board max') :
      Moves P cfg s (.select max remain)
        { s with tree := t, selections := s.selections ++ [⟨leaf, board, max⟩] }
  | repetition (i : ℕ) (sel : Selection B) (hsel : s.selections[i]? = some sel)
      (flag : sel.board.boardRepetition = true) :
      Moves P cfg s (.decide i)
        { s with
          selections := s.selections.eraseIdx i
          tree := s.tree.modify sel.leaf fun nd => nd.setRepetition true }
  | finished (i : ℕ) (sel : Selection B) (hsel : s.selections[i]? = some sel)
      (flag : sel.board.boardRepetition = false)
      (result : (s.tree.nodes sel.leaf).result ≠ 0 ∨ (s.tree.nodes sel.leaf).isTerminate = true) :
      Moves P cfg s (.decide i)
        { s with
          selections := s.selections.eraseIdx i
          counted := s.counted ++ [sel.leaf]
          tree := (s.tree.modify sel.leaf fun nd => nd.setRepetition false).mctsBackUpdate
            sel.leaf cfg.virtualLoss ((s.tree.nodes sel.leaf).result : K) 0 }
  | revisit (i : ℕ) (sel : Selection B) (hsel : s.selections[i]? = some sel)
      (flag : sel.board.boardRepetition = false)
      (result : (s.tree.nodes sel.leaf).result = 0)
      (terminate : (s.tree.nodes sel.leaf).isTerminate = false)
      (sent : (s.tree.nodes sel.leaf).rqSent = true) :
      Moves P cfg s (.decide i)
        { s with
          selections := s.selections.eraseIdx i
          tree := s.tree.modify sel.leaf fun nd => (nd.setRepetition false).visitAgain }
  | request (i : ℕ) (sel : Selection B) (hsel : s.selections[i]? = some sel)
      (flag : sel.board.boardRepetition = false)
      (result : (s.tree.nodes sel.leaf).result = 0)
      (terminate : (s.tree.nodes sel.leaf).isTerminate = false)
      (sent : (s.tree.nodes sel.leaf).rqSent = false) (rq : Request)
      (hrq : rq = requestFor P cfg s.rootBoard sel.board (s.tree.nodes sel.leaf) sel.leaf sel.max) :
      Moves P cfg s (.decide i)
        { s with
          selections := s.selections.eraseIdx i
          tree := s.tree.modify sel.leaf fun nd => (nd.setRepetition false).send
          counted := s.counted ++ [sel.leaf]
          requests := s.requests ++ [rq]
          sent := s.sent ++ [rq] }
  | reply (i : ℕ) (rq : Request) (value : K) (policy : List (PolicyItem K))
      (hrq : s.requests[i]? = some rq) :
      Moves P cfg s (.reply i value policy)
        ({ s with requests := s.requests.eraseIdx i }.evaluateCallback P cfg rq value policy)
  | freshRoot (pos : List Char) (root : ℕ) (board : GoBoard B) (action opAction : ℤ)
      (hroot : s.root = some root) (idle : s.selections = [])
      (applied : GoBoard.applyMove P s.rootBoard action = (true, board)) :
      Moves P cfg s (.play pos) ({ s with opAction := opAction }.newRoot board)
  | childRoot (a : Action K) (root child : ℕ) (nexts : List ℕ) (board : GoBoard B)
      (action opAction : ℤ) (command : a = .genApplyMove ∨ ∃ pos, a = .play pos)
      (hroot : s.root = some root) (idle : s.selections = [])
      (hnexts : (s.tree.nodes root).nexts = some nexts) (mem : child ∈ nexts)
      (haction : (s.tree.nodes child).edge.map (·.action) = some action)
      (applied : GoBoard.applyMove P s.rootBoard action = (true, board)) :
      Moves P cfg s a { s with opAction := opAction, root := some child, rootBoard := board }
  | resigned (idle : s.selections = []) : Moves P cfg s .genApplyMove { s with root := none }
  | recycle (v : ℕ) (dropped : s.belowRoot v = false) :
      Moves P cfg s (.recycle v)
        { s with tree := s.tree.modify v Node.expireFather }
  | stopped : Moves P cfg s .stop { s with stopRollout := true }
  | ignored (a : Action K) (command : a = .genApplyMove ∨ ∃ pos, a = .play pos)
      (stop : s.stopRollout = true) : Moves P cfg s a s

variable {P : Pachi B} {cfg : Settings K} {s s' : Player B K}

omit [Field K] [LinearOrder K] in
/-- A child with an action is a child of an expanded root. -/
theorem childWith_eq_some {root child : ℕ} {action : ℤ}
    (h : s.childWith root action = some child) :
    ∃ nexts, (s.tree.nodes root).nexts = some nexts ∧ child ∈ nexts ∧
      (s.tree.nodes child).edge.map (·.action) = some action := by
  unfold Player.childWith at h
  have haction := List.find?_some h
  have mem := List.mem_of_find?_eq_some h
  cases hnexts : (s.tree.nodes root).nexts with
  | none => simp [hnexts] at mem
  | some nexts => exact ⟨nexts, rfl, by simpa [hnexts] using mem, by simpa using haction⟩

/-- The four outcomes of a decision, by the tests of `rollout()`. -/
theorem moves_of_decideLeaf {i : ℕ} {sel : Selection B} (hsel : s.selections[i]? = some sel) :
    Moves P cfg s (.decide i)
      ({ s with selections := s.selections.eraseIdx i }.decideLeaf P cfg sel) := by
  unfold Player.decideLeaf
  split
  · exact .repetition i sel hsel (by assumption)
  rename_i flag
  have flag : sel.board.boardRepetition = false := by simpa using flag
  dsimp only
  simp only [Tree.nodes_modify, if_true, Node.setRepetition]
  split
  · exact .finished i sel hsel flag (by assumption)
  rename_i live
  obtain ⟨result, terminate⟩ := not_or.mp live
  have result : (s.tree.nodes sel.leaf).result = 0 := not_not.mp result
  have terminate : (s.tree.nodes sel.leaf).isTerminate = false := by simpa using terminate
  unfold Player.serverEvaluate
  simp only [Tree.nodes_modify, if_true, Tree.modify_modify]
  split
  · exact .revisit i sel hsel flag result terminate (by assumption)
  · have unready := Bool.eq_false_of_not_eq_true (by assumption)
    exact .request i sel hsel flag result terminate unready _ rfl

/-- The outcomes of `play`, which needs the search threads to have returned. -/
theorem moves_of_play {pos : List Char} (idle : s.selections = [])
    (h : s.play P pos = some s') : Moves P cfg s (.play pos) s' := by
  obtain ⟨root, hroot, h⟩ := Option.bind_eq_some_iff.mp h
  split at h
  · cases h
    exact .ignored _ (.inr ⟨pos, rfl⟩) (by assumption)
  split at h
  · cases h
    exact .freshRoot pos root _ GoBoard.posPass s.opAction hroot idle (GoBoard.applyMove_pass _)
  dsimp only at h
  generalize (if strcasecmp pos ['p', 'a', 's', 's'] = true then GoBoard.posPass
    else vertexAction pos) = action at h
  split at h
  · cases h
  split at h
  · cases h
  rename_i board happlied
  split at h
  · cases h
    exact .freshRoot pos root board _ _ hroot idle happlied
  · rename_i child hchild
    cases h
    obtain ⟨nexts, hnexts, mem, haction⟩ := childWith_eq_some hchild
    exact .childRoot _ root child nexts board _ _ (.inr ⟨pos, rfl⟩) hroot idle hnexts mem haction
      happlied

/-- The outcomes of `gen_apply_move` after its search. -/
theorem moves_of_genApplyMove {text : List Char} (idle : s.selections = [])
    (h : s.genApplyMove P cfg = some (text, s')) : Moves P cfg s .genApplyMove s' := by
  obtain ⟨root, hroot, h⟩ := Option.bind_eq_some_iff.mp h
  split at h
  · cases h
    exact .ignored _ (.inl rfl) (by assumption)
  obtain ⟨res, hres, h⟩ := Option.bind_eq_some_iff.mp h
  split at h
  · cases h
    exact .resigned idle
  rename_i notResign
  rcases Tree.mctsSelectAction_eq_some hres with resign | ⟨nexts, hnexts, mem, haction⟩
  · exact absurd resign notResign
  split at h
  · cases h
  split at h
  · cases h
  · cases h
    exact .childRoot _ root res.node nexts _ _ s.opAction (.inl rfl) hroot idle hnexts mem haction
      (by assumption)

/-- A selection is a descent from the root. -/
theorem exists_of_select {max remain : ℤ} (h : s.step P cfg (.select max remain) = some s') :
    ∃ root t leaf board max', s.root = some root ∧
      s.tree.mctsSelectPathRoot P cfg root max s.rootBoard remain = .leaf t leaf board max' ∧
      s' = { s with tree := t, selections := s.selections ++ [⟨leaf, board, max⟩] } := by
  obtain ⟨root, hroot, h⟩ := Option.bind_eq_some_iff.mp h
  split at h
  · cases h
  split at h
  · next t leaf board max' found =>
      split at h
      · exact ⟨root, t, leaf, board, max', hroot, found, (Option.some.inj h).symm⟩
      · cases h
  · cases h

/-- **Every step is one of the outcomes.** -/
theorem moves_of_step {a : Action K} (h : s.step P cfg a = some s') : Moves P cfg s a s' := by
  cases a with
  | select max remain =>
      obtain ⟨root, t, leaf, board, max', hroot, found, rfl⟩ := exists_of_select h
      exact .select root max remain t leaf board max' hroot found
  | decide i =>
      obtain ⟨sel, hsel, rfl⟩ := Option.map_eq_some_iff.mp h
      exact moves_of_decideLeaf hsel
  | reply i value policy =>
      obtain ⟨rq, hrq, rfl⟩ := Option.map_eq_some_iff.mp h
      exact .reply i rq value policy hrq
  | play pos =>
      simp only [Player.step, List.isEmpty_iff] at h
      split at h
      · exact moves_of_play (by assumption) h
      · cases h
  | genApplyMove =>
      simp only [Player.step, List.isEmpty_iff] at h
      split at h
      · obtain ⟨⟨text, s''⟩, hgen, rfl⟩ := Option.map_eq_some_iff.mp h
        exact moves_of_genApplyMove (by assumption) hgen
      · cases h
  | recycle v =>
      simp only [Player.step] at h
      split at h
      · cases h
      · cases h
        exact .recycle v (Bool.eq_false_of_not_eq_true (by assumption))
  | stop =>
      cases h
      exact .stopped

end EstarGo
