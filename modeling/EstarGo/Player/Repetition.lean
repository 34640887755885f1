import EstarGo.Board.Game
import EstarGo.Player.Flags

/-!
# Repetition marks are exact

An iteration marks its leaf by the flag of the board it has played on, a flag
that the board inherits from the root and that is never lowered.  But only nodes
whose board has no flag are expanded.  So up to the last move of a descent the
flag is down, the window holds the last eight positions of the game and the
descent, and the flag of the leaf's board says what the last move did.

## Main definitions

* `Tree.moves` — the moves along a path.
* `LastRepeats` — the last move brings back one of the last eight positions.

## Main results

* `boardRepetition_concat`: what one more move does to a flag that is down.
* `repetition_marks_exact`: the mark of the leaf of an iteration.

## Design notes

**Positions are hashes.**  The window compares hashes of the vendored board, and
so does the statement.  That two positions with one hash are the same is nothing
that the code checks, and nothing that is used.
-/

namespace EstarGo

open Verif

variable {B K : Type}

namespace GoBoard

variable {P : Pachi B} {board board' : GoBoard B} {game earlier moves rest : List ℤ} {last : ℤ}

theorem applyMoves_append (board : GoBoard B) (moves rest : List ℤ) :
    applyMoves P board (moves ++ rest) =
      (applyMoves P board moves).bind fun board => applyMoves P board rest := by
  induction moves generalizing board with
  | nil => rfl
  | cons action moves ih =>
      rw [List.cons_append, applyMoves, applyMoves]
      split
      · exact ih _
      · rfl

/-- Until the flag is raised, the window holds the last eight positions. -/
theorem mem_hash8_of_applyMoves (h : applyMoves P (new P) game = some board)
    (clear : board.boardRepetition = false) (curHash : UInt64) :
    curHash ∈ board.hash8 ↔ curHash ∈ lastN 8 (positionHashes P game) := by
  have recorded : board.recorder = (stoneHashes P (new P) game).foldl (Recorder.record 8)
      (Recorder.start 8 0) := recorder_applyMoves (by simp [new]) h
  have window := Recorder.window_foldl_record 8 0 (stoneHashes P (new P) game) (recorded ▸ clear)
  rw [← recorded] at window
  rw [show board.hash8 = board.recorder.window from rfl, window, mem_lastN_replicate_append]
  rfl

/-- The window is full from the start, and each move that enters a hash drops
one. -/
theorem length_hash8_of_applyMoves (full : board.hash8.length = 8)
    (h : applyMoves P board game = some board') : board'.hash8.length = 8 := by
  have recorded := recorder_applyMoves full h
  have kept (l : List UInt64) {r : Recorder UInt64} (full : r.window.length = 8) :
      (l.foldl (Recorder.record 8) r).window.length = 8 := by
    induction l generalizing r with
    | nil => exact full
    | cons a l ih => exact ih (length_record full a)
  rw [show board'.hash8 = board'.recorder.window from rfl, recorded]
  exact kept _ full

/-- **One more move.**  It raises the flag exactly if it is a stone and brings
back one of the last eight positions.  A pass is not looked up in the window, so
it raises no flag although it does bring back a position. -/
theorem boardRepetition_concat (h : applyMoves P (new P) game = some board)
    (clear : board.boardRepetition = false) (applied : applyMove P board last = (true, board')) :
    board'.boardRepetition = true ↔
      0 ≤ last ∧ P.hash board'.b ∈ lastN 8 (positionHashes P game) := by
  rw [← mem_hash8_of_applyMoves h clear]
  by_cases stone : 0 ≤ last
  · obtain ⟨played, hplayed, rfl⟩ := applyMove_stone stone applied
    have full : board.hash8.length = 8 := length_hash8_of_applyMoves (by simp [new]) h
    have recorded : played.recorder = board.recorder.record 8 (P.hash played.b) := by
      simpa only [hplayed] using _applyMove_recorder (P := P) full last.toNat board.getColor
    show played.recorder.repeated = true ↔ 0 ≤ last ∧ P.hash played.b ∈ board.recorder.window
    rw [recorded, and_iff_right stone]
    by_cases mem : P.hash played.b ∈ board.recorder.window
    · rw [Recorder.record_of_mem mem]
      exact iff_of_true rfl mem
    · rw [Recorder.record_of_not_mem mem]
      exact iff_of_false (Bool.eq_false_iff.mp clear) mem
  · obtain rfl := applyMove_neg stone applied
    exact iff_of_false (Bool.eq_false_iff.mp clear) fun h => stone h.1

end GoBoard

/-- The last of the moves is a stone, and the position after it has the hash of
one of the eight positions before it.  The positions of the game itself are
among these while the path is short. -/
def LastRepeats (P : Pachi B) (game moves : List ℤ) : Prop :=
  ∃ earlier last board board', moves = earlier ++ [last] ∧
    GoBoard.applyMoves P (GoBoard.new P) (game ++ earlier) = some board ∧
    GoBoard.applyMove P board last = (true, board') ∧ 0 ≤ last ∧
    P.hash board'.b ∈ lastN 8 (GoBoard.positionHashes P (game ++ earlier))

/-- The moves before the last one lead to one board, and so does the last one
from there. -/
theorem lastRepeats_concat {P : Pachi B} {board board' : GoBoard B} {game earlier : List ℤ}
    {last : ℤ} (h : GoBoard.applyMoves P (GoBoard.new P) (game ++ earlier) = some board)
    (applied : GoBoard.applyMove P board last = (true, board')) :
    LastRepeats P game (earlier ++ [last]) ↔ 0 ≤ last ∧
      P.hash board'.b ∈ lastN 8 (GoBoard.positionHashes P (game ++ earlier)) := by
  constructor
  · rintro ⟨earlier₁, last₁, board₁, board₂, eq, h₁, applied₁, stone, mem⟩
    obtain ⟨rfl, tail⟩ := List.append_inj' eq rfl
    obtain rfl := List.singleton_injective tail
    obtain rfl := Option.some.inj (h.symm.trans h₁)
    obtain rfl := (Prod.mk.inj (applied.symm.trans applied₁)).2
    exact ⟨stone, mem⟩
  · rintro ⟨stone, mem⟩
    exact ⟨earlier, last, board, board', rfl, h, applied, stone, mem⟩

namespace Tree

variable {P : Pachi B} {t : Tree K} {v u : ℕ} {board board' : GoBoard B} {path : List ℕ}

/-- The moves along a path, which are the actions of its edges. -/
def moves (t : Tree K) (path : List ℕ) : List ℤ :=
  path.filterMap fun c => (t.nodes c).edge.map (·.action)

/-- The moves of a path take the board at its start to the board at its end. -/
theorem Path.applyMoves_moves (h : Path P t v board path u board') :
    GoBoard.applyMoves P board (t.moves path) = some board' := by
  induction h with
  | nil => rfl
  | cons ready father haction applied _ ih =>
      rw [moves, List.filterMap_cons]
      simp only [haction, GoBoard.applyMoves, applied]
      exact ih

/-- The last step of a path leaves an expanded node. -/
theorem Path.exists_last (h : Path P t v board path u board') (moved : path ≠ []) :
    ∃ earlier f board₁ action, path = earlier ++ [u] ∧ Path P t v board earlier f board₁ ∧
      (t.nodes f).evalReady = true ∧ (t.nodes u).edge.map (·.action) = some action ∧
      GoBoard.applyMove P board₁ action = (true, board') := by
  induction h with
  | nil => exact absurd rfl moved
  | @cons v board c action board' path u board'' ready father haction applied rest ih =>
      by_cases stopped : path = []
      · subst stopped
        cases rest
        exact ⟨[], v, board, action, rfl, .nil v board, ready, haction, applied⟩
      · obtain ⟨earlier, f, board₁, action₁, rfl, hpath, ready', haction', applied'⟩ := ih stopped
        exact ⟨c :: earlier, f, board₁, action₁, rfl, .cons ready father haction applied hpath,
          ready', haction', applied'⟩

end Tree

variable [Field K] [LinearOrder K] {P : Pachi B} {cfg : Settings K} {s s' : Player B K}

/-- The decision on a leaf writes the flag of its board. -/
theorem isRepetition_of_decide {i : ℕ} {sel : Selection B} (wf : Structured s)
    (hsel : s.selections[i]? = some sel) (h : s.step P cfg (.decide i) = some s') :
    (s'.tree.nodes sel.leaf).isRepetition = sel.board.boardRepetition := by
  have same {sel' : Selection B} (hsel' : s.selections[i]? = some sel') : sel' = sel :=
    Option.some.inj (hsel'.symm.trans hsel)
  cases moves_of_step h with
  | repetition _ sel' hsel' flag | revisit _ sel' hsel' flag | request _ sel' hsel' flag =>
      obtain rfl := same hsel'
      rw [flag, Tree.nodes_modify, if_pos rfl]
      rfl
  | finished _ sel' hsel' flag =>
      obtain rfl := same hsel'
      dsimp only
      rw [flag, Tree.nodes_mctsBackUpdate (wf.mark sel'.leaf false).wf.descending_lock,
        Tree.backedUp, Tree.nodes_modify, if_pos rfl]
      rfl
  | childRoot _ _ _ _ _ _ _ command => rcases command with command | ⟨_, command⟩ <;> cases command
  | ignored _ command => rcases command with command | ⟨_, command⟩ <;> cases command

/-- The root board is that of a game, where the player was started on one. -/
theorem exists_game_of_run {board : GoBoard B} {as : List (Action K)} {opening : List ℤ}
    (loaded : GoBoard.applyMoves P (GoBoard.new P) opening = some board)
    (run : (playerMachine P cfg).exec (Player.start board) as = some s) :
    ∃ game, GoBoard.applyMoves P (GoBoard.new P) game = some s.rootBoard := by
  have moved {s : Player B K} {board : GoBoard B} {action : ℤ}
      (hs : ∃ game, GoBoard.applyMoves P (GoBoard.new P) game = some s.rootBoard)
      (applied : GoBoard.applyMove P s.rootBoard action = (true, board)) :
      ∃ game, GoBoard.applyMoves P (GoBoard.new P) game = some board := by
    obtain ⟨game, hgame⟩ := hs
    refine ⟨game ++ [action], ?_⟩
    rw [GoBoard.applyMoves_append, hgame, Option.bind_some, GoBoard.applyMoves, applied]
    rfl
  refine (playerMachine P cfg).invariant_of_step
    (I := fun s => ∃ game, GoBoard.applyMoves P (GoBoard.new P) game = some s.rootBoard)
    (fun hs h => ?_) ⟨opening, loaded⟩ run
  cases moves_of_step h with
  | freshRoot _ _ _ _ _ _ _ applied | childRoot _ _ _ _ _ _ _ _ _ _ _ _ _ applied =>
      exact moved hs applied
  | _ => exact hs

/-- **Marks are exact.**  An iteration descends from the root, and other threads
may take steps before it decides.  If it has played a move, it marks its leaf
exactly where the last move brings back one of the last eight positions of the
game and the descent. -/
theorem repetition_marks_exact {board : GoBoard B} {as : List (Action K)}
    (run : (playerMachine P cfg).exec (Player.start board) as = some s) {game : List ℤ}
    (played : GoBoard.applyMoves P (GoBoard.new P) game = some s.rootBoard) {root : ℕ}
    (hroot : s.root = some root) {max max' remain : ℤ} {t : Tree K} {leaf : ℕ}
    {cur : GoBoard B}
    (descent : s.tree.mctsSelectPathRoot P cfg root max s.rootBoard remain =
      .leaf t leaf cur max') :
    ∃ path, Tree.Path P s.tree root s.rootBoard path leaf cur ∧
      t = s.tree.addPathVl path cfg.virtualLoss ∧
      (path ≠ [] → ∀ bs s₁ s₂ i,
        (playerMachine P cfg).exec s (.select max remain :: bs) = some s₁ →
        s₁.selections[i]? = some ⟨leaf, cur, max⟩ → s₁.step P cfg (.decide i) = some s₂ →
          ((s₂.tree.nodes leaf).isRepetition = true ↔ LastRepeats P game (s.tree.moves path))) := by
  have judged := judged_run run
  obtain ⟨path, hpath, rfl⟩ := judged.wf.exists_path descent
  refine ⟨path, hpath, rfl, fun moved bs s₁ s₂ i rest hsel decided => ?_⟩
  have wf₁ : Structured s₁ :=
    (playerMachine P cfg).invariant_of_step structured_step judged.wf rest
  rw [isRepetition_of_decide wf₁ hsel decided]
  -- the father of the leaf was sent, so its board has no flag
  obtain ⟨earlier, f, before, last, rfl, hbefore, ready, haction, applied⟩ :=
    hpath.exists_last moved
  obtain ⟨board', hboard', clear⟩ := judged.flags.sent f ((judged.wf.nodes f).answered ready)
  have ghost := judged.inStep.ghost_of_path hbefore (judged.inStep.root root hroot).1
  obtain rfl : before = board' := by
    rw [ghost] at hboard'
    exact Option.some.inj hboard'
  have reached : GoBoard.applyMoves P (GoBoard.new P) (game ++ s.tree.moves earlier) =
      some before := by
    rw [GoBoard.applyMoves_append, played]
    exact hbefore.applyMoves_moves
  have moves : s.tree.moves (earlier ++ [leaf]) = s.tree.moves earlier ++ [last] := by
    rw [Tree.moves, List.filterMap_append]
    simp only [List.filterMap_cons, haction, List.filterMap_nil]
    rfl
  rw [moves, lastRepeats_concat reached applied,
    GoBoard.boardRepetition_concat reached clear applied]

/-- Black can fill the second point of a corner, which captures both of Black's
stones. -/
def cornerGame : List (Action ℚ) :=
  [.play ['p', 'a', 's', 's'], .play ['C', '1'], .play ['p', 'a', 's', 's'], .play ['A', '2'],
    .play ['p', 'a', 's', 's'], .play ['B', '2'], .play ['A', '1'], .play ['p', 'a', 's', 's'],
    .select 1 9, .decide 0, .reply 0 0 [⟨1, 9 / 10⟩, ⟨-1, 1 / 10⟩]]

/-- The child that fills the corner is marked: its path is one move long, and
after it the corner is empty again, as it was some moves before. -/
theorem repetition_marks_exact_cornerGame : ∃ (s : Player Stones ℚ) (game : List ℤ)
    (path : List ℕ), (playerMachine pachi shippedSettings).exec newGame cornerGame = some s ∧
      GoBoard.applyMoves pachi (GoBoard.new pachi) game = some s.rootBoard ∧
      LastRepeats pachi game (s.tree.moves path) := by
  have marks : ((playerMachine pachi shippedSettings).exec newGame
      (cornerGame ++ [.select 1 8, .decide 0])).map
        (fun s => (s.tree.nodes 9).isRepetition) = some true := by decide +kernel
  have leaves : ((playerMachine pachi shippedSettings).exec newGame
      (cornerGame ++ [.select 1 8])).map (fun s => s.selections.map (·.leaf)) = some [9] := by
    decide +kernel
  have roots : ((playerMachine pachi shippedSettings).exec newGame cornerGame).map
      (fun s => (s.root, s.selections.length)) = some (some 8, 0) := by decide +kernel
  obtain ⟨s, run, facts⟩ := Option.map_eq_some_iff.mp roots
  obtain ⟨hroot, idle⟩ := Prod.mk.inj facts
  rw [List.length_eq_zero_iff] at idle
  have opening : GoBoard.applyMoves pachi (GoBoard.new pachi) [] = some (GoBoard.new pachi) := rfl
  obtain ⟨game, played⟩ := exists_game_of_run opening run
  rw [Machine.exec_append, run, Option.bind_some] at marks leaves
  obtain ⟨s₁, selected, leaf⟩ := Option.map_eq_some_iff.mp leaves
  obtain ⟨s₂, iterated, mark⟩ := Option.map_eq_some_iff.mp marks
  obtain ⟨s₁', selected', decided⟩ := Machine.exec_cons_eq_some _ iterated
  obtain ⟨s₂', decided, last⟩ := Machine.exec_cons_eq_some _ decided
  cases last
  rw [Machine.exec_cons, selected', Option.bind_some] at selected
  cases selected
  obtain ⟨root, t, u, cur, max', hroot', found, rfl⟩ := exists_of_select selected'
  obtain rfl := Option.some.inj (hroot.symm.trans hroot')
  rw [idle] at leaf
  obtain rfl := List.singleton_injective leaf
  obtain ⟨path, hpath, -, exact⟩ := repetition_marks_exact run played hroot found
  refine ⟨s, game, path, run, played, (exact ?_ [] _ _ 0 ?_ ?_ decided).mp mark⟩
  · rintro rfl
    cases hpath
  · rw [Machine.exec_cons, selected']
    rfl
  · rw [idle]
    rfl

end EstarGo
