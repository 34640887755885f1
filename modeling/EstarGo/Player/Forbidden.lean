import EstarGo.Player.Repetition
import EstarGo.Tree.Choice

/-!
# A marked child can be played

Selection skips the children that are marked as repetitions;
`mcts_select_action` does not look at the marks.  A marked child has no visit,
so it is played only where no child that the choice looks at has one, and it is
the first of them.

## Main definitions

* `PlaysMarked` — the children among which a marked one is chosen.

## Main results

* `forbidden_repetition_iff`: when a marked child is played.
* `forbidden_repetition_played`: a game in which one is.

## Design notes

**Before the choice.**  The condition is on the children of the root before the
choice, in the order in which they stand.  It is what a search must avoid, and
it is one iteration away from every new root.
-/

namespace EstarGo

open Verif

variable {B K : Type} [Field K] [LinearOrder K]

/-- No child but an unsafe pass has a visit or answers a pass, and the first of
these children is marked as a repetition.  It is a condition on the children
before the choice, not on what is chosen. -/
structure PlaysMarked (P : Pachi B) (cfg : Settings K) (s : Player B K) (cs : List ℕ) : Prop where
  unvisited : ∀ c ∈ cs, s.tree.playable P cfg s.rootBoard c = true → s.tree.visits c = 0
  unanswered : ∀ c ∈ cs, s.tree.playable P cfg s.rootBoard c = true →
    s.tree.answersPass cfg s.rootBoard (s.opAction = GoBoard.posPass) c = false
  first : ∃ c, cs.find? (s.tree.playable P cfg s.rootBoard) = some c ∧
    (s.tree.nodes c).isRepetition = true ∧
    (s.tree.nodes c).edge.map (·.action) ≠ some actionResign

variable {P : Pachi B} {cfg : Settings K} {s s' : Player B K} {root : ℕ} {cs : List ℕ}

omit [Field K] [LinearOrder K] in
/-- A pass of an expanded root is not marked. -/
theorem unmarked_of_isPass (hs : Judged P s) (hcs : (s.tree.nodes root).nexts = some cs)
    {c : ℕ} (hc : c ∈ cs) (pass : s.tree.isPass c = true) :
    (s.tree.nodes c).isRepetition = false := by
  have ready := (hs.wf.wf.ready_iff root).mpr (by rw [hcs]; rfl)
  have clear := hs.flags.sent root ((hs.wf.nodes root).answered ready)
  have here := flagged_pass hs.inStep (hs.wf.wf.father_of_mem hcs hc) (of_decide_eq_true pass) clear
  by_contra marked
  cases here.unique (hs.flags.marked c (by simpa using marked))

omit [Field K] [LinearOrder K] in
theorem Judged.exists_edge (hs : Judged P s) (hcs : (s.tree.nodes root).nexts = some cs) (c : ℕ)
    (hc : c ∈ cs) : ∃ e, (s.tree.nodes c).edge = some e :=
  hs.wf.wf.exists_edge (hs.wf.wf.father_of_mem hcs hc)

/-- No child is a proven win, so only an answered pass ends the loop. -/
theorem Judged.ends_eq (hs : Judged P s) (c : ℕ) :
    s.tree.ends cfg s.rootBoard (s.opAction = GoBoard.posPass) c =
      s.tree.answersPass cfg s.rootBoard (s.opAction = GoBoard.posPass) c := by
  rw [Tree.ends, Tree.provenWin, (hs.wf.nodes c).undecided, Bool.false_and, Bool.or_false]

/-- The first child that is looked at is picked, where none of them has a
visit. -/
theorem PlaysMarked.exists_picked (plays : PlaysMarked P cfg s cs) (hs : Judged P s)
    (hcs : (s.tree.nodes root).nexts = some cs) :
    ∃ c, cs.find? (s.tree.playable P cfg s.rootBoard) = some c ∧
      (s.tree.nodes c).isRepetition = true ∧
      s.tree.mctsSelectAction P cfg root s.rootBoard (s.opAction = GoBoard.posPass) =
        some (s.tree.moveOf cfg c) := by
  obtain ⟨unvisited, unanswered, c, first, marked, notResign⟩ := plays
  refine ⟨c, first, marked, Tree.mctsSelectAction_of_found (hs.exists_edge hcs) hcs ?_ notResign⟩
  cases found : s.tree.found P cfg s.rootBoard (s.opAction = GoBoard.posPass) cs with
  | none =>
      have skipped := List.filter_eq_nil_iff.mp (Tree.found_eq_none_iff.mp found)
      exact absurd (List.find?_some first) (skipped c (List.mem_of_find?_eq_some first))
  | some m =>
      obtain ⟨mem, kept, ended | ⟨-, most⟩⟩ := Tree.found_cases found
      · rw [hs.ends_eq, unanswered m mem kept] at ended
        cases ended
      · have here := find?_eq_of_argmax_filter most fun x hx _ => by
          rw [unvisited m mem kept]
          exact Nat.zero_le _
        exact here.symm.trans first

/-- **A marked child is picked** exactly where the children are so: what is
picked otherwise has a visit, or is a pass.  A visited child is not marked, and
neither is the pass of a node whose own board is clear. -/
theorem marked_iff_of_mctsSelectAction (hs : Judged P s)
    (hcs : (s.tree.nodes root).nexts = some cs) {pair : MCTSPair}
    (picked : s.tree.mctsSelectAction P cfg root s.rootBoard (s.opAction = GoBoard.posPass) =
      some pair) :
    (s.tree.nodes pair.node).isRepetition = true ↔ PlaysMarked P cfg s cs := by
  have edge := hs.exists_edge hcs
  constructor
  · intro marked
    have unpassed {c : ℕ} (hc : c ∈ cs) (here : (s.tree.nodes c).isRepetition = true) :
        ¬ s.tree.isPass c = true := fun pass => by
      cases here.symm.trans (unmarked_of_isPass hs hcs hc pass)
    -- it was found by the loop, which picks a pass elsewhere
    obtain ⟨c, hfound, notResign⟩ : ∃ c,
        s.tree.found P cfg s.rootBoard (s.opAction = GoBoard.posPass) cs = some c ∧
          (s.tree.nodes c).edge.map (·.action) ≠ some actionResign := by
      by_contra elsewhere
      simp only [not_exists, not_and, not_not] at elsewhere
      obtain ⟨mem, pass⟩ := Tree.mem_isPass_of_mctsSelectAction edge hcs elsewhere picked
      exact unpassed mem marked pass
    rw [Tree.mctsSelectAction_of_found edge hcs hfound notResign] at picked
    obtain rfl := Option.some.inj picked
    rw [Tree.node_moveOf] at marked
    obtain ⟨mem, playable, ended | ⟨unended, most⟩⟩ := Tree.found_cases hfound
    · rw [hs.ends_eq, Tree.answersPass, Bool.and_eq_true, Bool.and_eq_true,
        Bool.and_eq_true] at ended
      exact absurd ended.1.1.1 (unpassed mem marked)
    · have unvisited : s.tree.visits c = 0 := (hs.marked marked).2
      have flat (x : ℕ) (hx : x ∈ cs) (kept : s.tree.playable P cfg s.rootBoard x = true) :
          s.tree.visits x = 0 := by
        have := List.le_of_mem_argmax (List.mem_filter.mpr ⟨hx, kept⟩) most
        omega
      refine ⟨flat, fun x hx kept => ?_, c, ?_, marked, notResign⟩
      · rw [← hs.ends_eq]
        exact unended x hx kept
      · exact find?_eq_of_argmax_filter most fun x hx kept => by rw [unvisited]; exact Nat.zero_le _
  · intro plays
    obtain ⟨c, -, marked, here⟩ := plays.exists_picked hs hcs
    rw [here] at picked
    obtain rfl := Option.some.inj picked
    rwa [Tree.node_moveOf]

theorem picked_of_genApplyMove (hroot : s.root = some root)
    (going : s.stopRollout = false) {text : List Char}
    (h : s.genApplyMove P cfg = some (text, s')) {c : ℕ} (played : s'.root = some c) :
    ∃ pair, s.tree.mctsSelectAction P cfg root s.rootBoard (s.opAction = GoBoard.posPass) =
      some pair ∧ pair.node = c := by
  unfold Player.genApplyMove at h
  rw [hroot, Option.bind_some, if_neg (by simp [going])] at h
  obtain ⟨res, hres, h⟩ := Option.bind_eq_some_iff.mp h
  split at h
  · cases h
    cases played
  split at h
  · cases h
  split at h
  · cases h
  · cases h
    exact ⟨res, hres, Option.some.inj played⟩

/-- What is picked is played, where it is no resignation and the board takes
it. -/
theorem exists_played_of_picked (hroot : s.root = some root) (going : s.stopRollout = false)
    {pair : MCTSPair} (picked : s.tree.mctsSelectAction P cfg root s.rootBoard
      (s.opAction = GoBoard.posPass) = some pair) (stays : pair.action ≠ actionResign)
    (legal : (GoBoard.applyMove P s.rootBoard pair.action).1 = true)
    (withstood : s.rootBoard.withstands P pair.action = true) :
    ∃ text s', s.genApplyMove P cfg = some (text, s') ∧ s'.root = some pair.node := by
  obtain ⟨board, applied⟩ : ∃ board,
      GoBoard.applyMove P s.rootBoard pair.action = (true, board) := ⟨_, Prod.ext legal rfl⟩
  unfold Player.genApplyMove
  rw [hroot, Option.bind_some, if_neg (by simp [going]), picked, Option.bind_some, if_neg stays,
    withstood, if_neg (by simp), applied]
  exact ⟨_, _, rfl, rfl⟩

/-- **Forbidden repetitions.**  The child that is picked, and played, is marked
exactly if no child that the choice looks at was visited or answers a pass, and
the first of them is marked. -/
theorem forbidden_repetition_iff {board : GoBoard B} {as : List (Action K)}
    (run : (playerMachine P cfg).exec (Player.start board) as = some s)
    (hroot : s.root = some root) (hcs : (s.tree.nodes root).nexts = some cs) :
    (∀ pair, s.tree.mctsSelectAction P cfg root s.rootBoard (s.opAction = GoBoard.posPass) =
        some pair → ((s.tree.nodes pair.node).isRepetition = true ↔ PlaysMarked P cfg s cs)) ∧
      ∀ text s' c, s.stopRollout = false → s.genApplyMove P cfg = some (text, s') →
        s'.root = some c → ((s.tree.nodes c).isRepetition = true ↔ PlaysMarked P cfg s cs) := by
  have judged := judged_run run
  refine ⟨fun pair => marked_iff_of_mctsSelectAction judged hcs, ?_⟩
  intro text s' c going h played
  obtain ⟨pair, picked, rfl⟩ := picked_of_genApplyMove hroot going h played
  exact marked_iff_of_mctsSelectAction judged hcs picked

/-- In the corner the first child is marked and can be played, and nothing was
visited. -/
theorem playsMarked_cornerGame : ∃ s : Player Stones ℚ,
    (playerMachine pachi shippedSettings).exec newGame (cornerGame ++ [.select 1 8, .decide 0]) =
        some s ∧ s.root = some 8 ∧ (s.tree.nodes 8).nexts = some [9, 10] ∧
      ((s.tree.nodes 9).isRepetition = true ∧ (s.tree.nodes 10).isRepetition = false) ∧
      PlaysMarked pachi shippedSettings s [9, 10] ∧
      ∃ text s', s.genApplyMove pachi shippedSettings = some (text, s') ∧ s'.root = some 9 := by
  have seen : ((playerMachine pachi shippedSettings).exec newGame
      (cornerGame ++ [.select 1 8, .decide 0])).map (fun s => decide (
        s.root = some 8 ∧ (s.tree.nodes 8).nexts = some [9, 10] ∧
        ((s.tree.nodes 9).isRepetition = true ∧ (s.tree.nodes 10).isRepetition = false) ∧
        (s.tree.visits 9 = 0 ∧ s.tree.visits 10 = 0) ∧
        ((s.tree.nodes 9).edge.map (·.action) = some 1 ∧
          (s.tree.nodes 10).edge.map Edge.winRate = some 0) ∧
        s.stopRollout = false ∧ s.tree.moveOf shippedSettings 9 = ⟨9, 1⟩ ∧
        (GoBoard.applyMove pachi s.rootBoard 1).1 = true ∧
        s.rootBoard.withstands pachi 1 = true)) = some true := by decide +kernel
  obtain ⟨s, run, facts⟩ := Option.map_eq_some_iff.mp seen
  obtain ⟨hroot, hcs, ⟨marked, unmarked⟩, ⟨visits, visits'⟩, ⟨stone, rate⟩, going, move, legal,
    withstood⟩ := of_decide_eq_true facts
  have unpassed : s.tree.isPass 9 = false := by simp [Tree.isPass, stone, GoBoard.posPass]
  have first : [9, 10].find? (s.tree.playable pachi shippedSettings s.rootBoard) = some 9 := by
    simp [Tree.playable, unpassed]
  have plays : PlaysMarked pachi shippedSettings s [9, 10] := by
    refine ⟨fun c hc _ => ?_, fun c hc _ => ?_, 9, first, marked, by simp [stone, actionResign]⟩
    · rcases List.mem_pair.mp hc with rfl | rfl
      · exact visits
      · exact visits'
    · rcases List.mem_pair.mp hc with rfl | rfl
      · simp [Tree.answersPass, unpassed]
      · obtain ⟨e, he, zero⟩ := Option.map_eq_some_iff.mp rate
        simp [Tree.answersPass, he, zero, shippedSettings]
  obtain ⟨c, hc, -, picked⟩ := plays.exists_picked (judged_run run) hcs
  obtain rfl := Option.some.inj (first.symm.trans hc)
  rw [move] at picked
  exact ⟨s, run, hroot, hcs, ⟨marked, unmarked⟩, plays,
    exists_played_of_picked hroot going picked (by decide) legal withstood⟩

/-- The search of the corner stops when it has marked the child that repeats.
It is the first of the children, none of them has a visit, and the child that is
picked is marked. -/
theorem forbidden_repetition_iff_cornerGame : ∃ (s : Player Stones ℚ) (pair : MCTSPair),
    (playerMachine pachi shippedSettings).exec newGame (cornerGame ++ [.select 1 8, .decide 0]) =
      some s ∧ s.tree.mctsSelectAction pachi shippedSettings 8 s.rootBoard
        (s.opAction = GoBoard.posPass) = some pair ∧
      (s.tree.nodes pair.node).isRepetition = true := by
  obtain ⟨s, run, hroot, hcs, -, plays, -⟩ := playsMarked_cornerGame
  obtain ⟨c, -, -, picked⟩ := plays.exists_picked (judged_run run) hcs
  exact ⟨s, _, run, picked, ((forbidden_repetition_iff run hroot hcs).1 _ picked).mpr plays⟩

/-- The search stops when it has marked that child, and the child is played:
`gen_apply_move` makes it the new root, although there are children that repeat
nothing. -/
theorem forbidden_repetition_played : ∃ (s s' : Player Stones ℚ) (root c : ℕ) (cs : List ℕ)
    (text : List Char), (playerMachine pachi shippedSettings).exec newGame
        (cornerGame ++ [.select 1 8, .decide 0]) = some s ∧ s.root = some root ∧
      (s.tree.nodes root).nexts = some cs ∧ (∃ x ∈ cs, (s.tree.nodes x).isRepetition = false) ∧
      s.genApplyMove pachi shippedSettings = some (text, s') ∧ s'.root = some c ∧ c ∈ cs ∧
      (s.tree.nodes c).isRepetition = true := by
  obtain ⟨s, run, hroot, hcs, ⟨marked, unmarked⟩, -, text, s', played, hroot'⟩ :=
    playsMarked_cornerGame
  exact ⟨s, s', 8, 9, [9, 10], text, run, hroot, hcs, ⟨10, by decide, unmarked⟩, played, hroot',
    by decide, marked⟩

end EstarGo
