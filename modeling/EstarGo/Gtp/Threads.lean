import EstarGo.Lib.Machine
import EstarGo.Lib.Ownership
import Mathlib.Data.Int.Notation
import Mathlib.Data.List.Basic

/-!
# The threads of a session

The main thread runs the handlers of the commands statement by statement; the
workers of the executor run the rollouts that were committed; and each
re-rooting and each `clear_board` leaves a detached thread that frees what was
replaced.  All interleave.

## Main definitions

* `Process` — the players, the executor, what is left of the handler, the
  detached threads.
* `Statement`, `Process.exec` — the statements of the handlers.
* `Recycle`, `Process.execRecycle` — those of the detached threads.
* `Process.step`, `threadMachine` — all interleavings.

## Main results

* `does_of_step`: what a step does.
* `unfolds_of_execPlayer`: what a statement puts in front of the rest.

## Design notes

**What a command finds.**  What a handler finds on the board and in the tree is
in the label of its command: whether a move is legal and has a child, and how a
search answers.  A rollout may return at any time.

Two things are not modelled, because C++ leaves them undefined.

* **A freed player.**  The detached threads of `play` capture `this`.  Where
  they run after the player was deleted, they work on freed memory; here on
  cells that nothing else has.  So a statement about the reclamation has to
  exclude such runs: `Process.pending` says that a player has a detached thread
  left.
* **Locals of a handler that has returned.**  These threads also capture the
  locals `id` and `res` by reference, and read them after `play` and
  `gen_apply_move` have returned.  They are taken to find what their own call
  left there.
-/

namespace EstarGo

open Verif

/-- Where a pointer to a node is kept: `root` and `tmp` of a player, and the
pointer that a re-rooting swaps with `root`. -/
inductive Cell where
  | root (player : ℕ)
  | tmp (player : ℕ)
  | child (k : ℕ)
  deriving DecidableEq, Repr

/-- A rollout that was committed: its future, its player and the argument of
`rollout()`. -/
structure Rollout where
  future : ℕ
  player : ℕ
  max : ℤ
  deriving DecidableEq, Repr

/-- The members of `MCTSPlayer` that the threads are synchronised by.  The board
and the tree are not among them: which of the rollouts and handlers may use them
at the same time is the question here. -/
structure Members where
  stopRollout : Bool
  isExitRollout : Bool
  searchThreadVec : List ℕ
  deriving DecidableEq, Repr

/-- What `play` finds for its argument: `resign`, an illegal move, a move
without a child or one with a child. -/
inductive Played where
  | resign
  | illegal
  | fresh
  | child
  deriving DecidableEq, Repr

/-- What `gen_apply_move` finds: a resignation, an illegal move or a move. -/
inductive Answer where
  | resign
  | illegal
  | move
  deriving DecidableEq, Repr

/-- A command, with what its handler finds.  `other` stands for the commands
that touch neither the tree nor the threads.  A `genmove` may imply a pass,
which finds something too. -/
inductive Call where
  | play (played : Played)
  | genmove (pass : Played) (answer : Answer)
  | quit
  | clearBoard
  | other
  deriving DecidableEq, Repr

/-- The statements of the handlers, as far as they touch a pointer, a flag, a
future or the player. -/
inductive Statement where
  /-- The head of `stop_pondering`, which raises `_mIsExitRollout`. -/
  | stopPondering
  /-- `for (; i < bound; ++i) search_thread_vec[i].wait()`. -/
  | wait (i bound : ℕ)
  /-- `search_thread_vec.clear()`. -/
  | clearVec
  /-- `_mIsExitRollout=false`. -/
  | lowerExit
  /-- `play`, up to its branches. -/
  | play (played : Played)
  /-- `root_board->apply_move`, and the exit after a refused move. -/
  | applyMove (legal : Bool)
  /-- `tmp = NodePtr(new Node())`. -/
  | newTmp
  /-- `root.swap(tmp)`. -/
  | swapTmp
  /-- The thread that runs `tmp.reset()`. -/
  | detachTmp
  /-- `root->depth=root_board->get_total_moves()`. -/
  | setDepth
  /-- `root.swap(nexts[id])`, or `root.swap(res.node)`. -/
  | swapChild
  /-- The thread that runs `nexts[id].reset()` and `root->father.reset()`. -/
  | detachChild
  /-- The thread that runs `res.node.reset()`. -/
  | detachNode
  /-- `gen_apply_move`, up to its search. -/
  | genApplyMove (answer : Answer)
  /-- A commit of `rollout(max)`. -/
  | commit (max : ℤ)
  /-- `mcts_select_action`. -/
  | selectAction (answer : Answer)
  /-- `root.reset()`. -/
  | resetRoot
  /-- `start_pondering`. -/
  | startPondering
  /-- `is_lcmd_genmove = lcmd`. -/
  | setLcmd (lcmd : Bool)
  /-- `std::swap(mcts_player, tmp_mcts_player)`. -/
  | swapPlayers
  /-- `mcts_player = NULL`. -/
  | nullPlayer
  /-- The thread that runs `delete tmp_mcts_player` and
  `tmp_mcts_player = NULL`. -/
  | detachDelete
  /-- `mcts_player = new MCTSPlayer(executor, history)`. -/
  | newPlayer
  /-- `delete mcts_player`, after the `stop_pondering` of its destructor, and
  `mcts_player = NULL`. -/
  | deletePlayer
  /-- `is_quit = true`. -/
  | setQuit
  deriving DecidableEq, Repr

/-- What a detached thread is about to run, with the pointers that it has
captured. -/
inductive Recycle where
  /-- `tmp.reset()`. -/
  | resetTmp (player : ℕ)
  /-- `nexts[id].reset()`, then `root->father.reset()`. -/
  | resetChild (player k : ℕ)
  /-- `root->father.reset()`. -/
  | resetFather (player : ℕ)
  /-- `res.node.reset()`. -/
  | resetNode (k : ℕ)
  /-- `delete tmp_mcts_player`, then `tmp_mcts_player = NULL`. -/
  | deleteTmp
  /-- `tmp_mcts_player = NULL`. -/
  | nullTmp
  deriving DecidableEq, Repr

/-- The player whose members a detached thread uses. -/
def Recycle.player : Recycle → Option ℕ
  | .resetTmp p | .resetChild p _ | .resetFather p => some p
  | .resetNode _ | .deleteTmp | .nullTmp => none

/-- The session, its executor and its threads.  Players are numbered in the
order in which they are made. -/
structure Process where
  nodes : Owners Cell
  players : ℕ → Members
  /-- The players that were constructed. -/
  made : ℕ
  /-- How often a player was deleted. -/
  deleted : ℕ → ℕ
  mctsPlayer : Option ℕ
  tmpMctsPlayer : Option ℕ
  isLcmdGenmove : Bool
  isQuit : Bool
  /-- `mTaskQueue`. -/
  queue : List Rollout
  /-- What the workers run. -/
  running : List Rollout
  /-- The rollouts that were committed. -/
  committed : ℕ
  /-- The pointers to children that were swapped with a root. -/
  swapped : ℕ
  /-- What the main thread has left of its handler. -/
  todo : List Statement
  detached : List Recycle

/-- What the threads read of `Config`: how many they are, and whether to
ponder. -/
structure ThreadConfig where
  searchThreads : ℕ
  isPondering : Bool

/-- A step: a command for the idle main thread, its next statement, a worker
that takes a rollout, a rollout that returns or stops the rollouts of its
player, a detached thread.  Rollouts take time, so the start and the end of one
are two steps. -/
inductive Event where
  | command (c : Call)
  | main
  | start
  | finish (i : ℕ)
  | timeout (i : ℕ)
  | recycle (i : ℕ)
  deriving DecidableEq, Repr

namespace Process

variable (cfg : ThreadConfig) (s : Process)

/-- A change of the members of a player. -/
def modifyPlayer (p : ℕ) (f : Members → Members) : Process :=
  { s with players := Function.update s.players p (f (s.players p)) }

/-- A rollout has returned: it is neither queued nor running.  This is what
waiting for its future means. -/
def Returned (future : ℕ) : Prop := ∀ t ∈ s.queue ++ s.running, t.future ≠ future

instance (future : ℕ) : Decidable (s.Returned future) :=
  inferInstanceAs (Decidable (∀ t ∈ s.queue ++ s.running, t.future ≠ future))

/-- A detached thread has still to use the members of a player.  It has captured
`this`, and the player's destructor does not wait for it. -/
def pending (p : ℕ) : Bool := s.detached.any fun r => r.player = some p

/-- `search_thread_vec.push_back(executor->commit(&MCTSPlayer::rollout, this, max))`. -/
def commit (p : ℕ) (max : ℤ) : Process :=
  { s.modifyPlayer p fun m =>
      { m with searchThreadVec := m.searchThreadVec ++ [s.committed] } with
    queue := s.queue ++ [⟨s.committed, p, max⟩]
    committed := s.committed + 1 }

/-- The destructor after its `stop_pondering`: the two pointers of the player
are reset. -/
def destroy (p : ℕ) : Process :=
  { s with
    nodes := (s.nodes.reset (.root p)).reset (.tmp p)
    deleted := Function.update s.deleted p (s.deleted p + 1) }

/-- `GTP::initialize`: a new player, with a root. -/
def initializePlayer : Process :=
  { s with
    nodes := s.nodes.alloc (.root s.made)
    players := Function.update s.players s.made ⟨false, false, []⟩
    made := s.made + 1
    mctsPlayer := some s.made
    isLcmdGenmove := false }

/-- The session of `main`, after its `initialize`. -/
def start : Process :=
  initializePlayer
    { nodes := ⟨fun _ => none, 0, []⟩
      players := fun _ => ⟨false, false, []⟩
      made := 0
      deleted := fun _ => 0
      mctsPlayer := none
      tmpMctsPlayer := none
      isLcmdGenmove := false
      isQuit := false
      queue := []
      running := []
      committed := 0
      swapped := 0
      todo := []
      detached := [] }

/-! ## Handlers

Each as a list of statements, which later ones may make longer. -/

/-- `process_cmd_play`, which deletes the player after a resignation.  Its
statements are those of the handler; what `play` itself does is unfolded when it
is called. -/
def processCmdPlay (played : Played) : List Statement :=
  .stopPondering :: .play played ::
    ((if played = .resign then [.stopPondering, .deletePlayer] else []) ++ [.setLcmd false])

/-- `process_cmd_genmove`, with the pass that it may imply before the search. -/
def processCmdGenmove (pass : Played) (answer : Answer) : List Statement :=
  .stopPondering ::
    ((if s.isLcmdGenmove then [.play pass] else []) ++
      .genApplyMove answer ::
        ((if cfg.isPondering ∧ answer ≠ .resign then [.startPondering] else []) ++
          [.setLcmd true]))

/-- `process_cmd_quit`, whose delete stops the pondering a second time. -/
def processCmdQuit : List Statement :=
  (if s.mctsPlayer.isSome then [.stopPondering, .stopPondering, .deletePlayer] else []) ++
    [.setQuit]

/-- `process_cmd_clearboard`, which leaves the deleting to a detached thread.
The old player is put into a slot that this thread reads when it runs. -/
def processCmdClearboard : List Statement :=
  (if s.mctsPlayer.isSome then [.stopPondering, .swapPlayers, .nullPlayer, .detachDelete]
    else []) ++ [.newPlayer, .setLcmd false]

/-- `process_cmd`, by the statements it consists of. -/
def processCmd : Call → List Statement
  | .play played => processCmdPlay played
  | .genmove pass answer => s.processCmdGenmove cfg pass answer
  | .quit => s.processCmdQuit
  | .clearBoard => s.processCmdClearboard
  | .other => []

/-! ## Statements

What one statement does to the state. -/

/-- The rest of `play`: the board, then the root, and a thread for what was
replaced. -/
def playBody : Played → List Statement
  | .illegal => [.applyMove false]
  | .resign | .fresh => [.applyMove true, .newTmp, .swapTmp, .detachTmp, .setDepth]
  | .child => [.applyMove true, .swapChild, .detachChild]

/-- The rest of `gen_apply_move` after its search. -/
def answerBody : Answer → List Statement
  | .resign => [.resetRoot]
  | .illegal => [.swapChild, .detachNode, .applyMove false]
  | .move => [.swapChild, .detachNode, .applyMove true]

/-- A statement of the main thread for a player that is there: the state after
it and what it puts in front of the rest; `none` where the thread waits or the
process ends. -/
def execPlayer (p : ℕ) : Statement → Option (Process × List Statement)
  | .stopPondering =>
      if (s.players p).isExitRollout then some (s, [.lowerExit])
      else some (s.modifyPlayer p fun m => { m with isExitRollout := true },
        [.wait 0 (s.players p).searchThreadVec.length, .clearVec, .lowerExit])
  | .wait i bound =>
      if bound ≤ i then some (s, [])
      else (s.players p).searchThreadVec[i]?.bind fun future =>
        if s.Returned future then some (s, [.wait (i + 1) bound]) else none
  | .clearVec => some (s.modifyPlayer p fun m => { m with searchThreadVec := [] }, [])
  | .lowerExit => some (s.modifyPlayer p fun m => { m with isExitRollout := false }, [])
  | .play played =>
      if s.nodes.cell (.root p) = none then none
      else if (s.players p).stopRollout then some (s, [])
      else some (s, playBody played)
  | .applyMove legal => if legal then some (s, []) else none
  | .newTmp => some ({ s with nodes := s.nodes.alloc (.tmp p) }, [])
  | .swapTmp => some ({ s with nodes := s.nodes.swap (.root p) (.tmp p) }, [])
  | .detachTmp => some ({ s with detached := s.detached ++ [.resetTmp p] }, [])
  | .setDepth => if s.nodes.cell (.root p) = none then none else some (s, [])
  | .swapChild =>
      if s.nodes.cell (.root p) = none then none
      else some ({ s with
        nodes := (s.nodes.alloc (.child s.swapped)).swap (.root p) (.child s.swapped)
        swapped := s.swapped + 1 }, [])
  | .detachChild =>
      some ({ s with detached := s.detached ++ [.resetChild p (s.swapped - 1)] }, [])
  | .detachNode => some ({ s with detached := s.detached ++ [.resetNode (s.swapped - 1)] }, [])
  | .genApplyMove answer =>
      if (s.players p).searchThreadVec ≠ [] then none
      else if (s.players p).stopRollout then some (s, [])
      else some (s, List.replicate cfg.searchThreads (.commit 1) ++
        [.wait 0 cfg.searchThreads, .clearVec, .selectAction answer])
  | .commit max => some (s.commit p max, [])
  | .selectAction answer =>
      if s.nodes.cell (.root p) = none then none else some (s, answerBody answer)
  | .resetRoot => some ({ s with nodes := s.nodes.reset (.root p) }, [])
  | .startPondering =>
      if (s.players p).stopRollout then some (s, [])
      else some (s, List.replicate cfg.searchThreads (.commit (-1)))
  | .deletePlayer => some ({ s.destroy p with mctsPlayer := none }, [])
  | _ => none

/-- A statement of the main thread.  A null `mcts_player` ends the process where
it is used, which is no step here. -/
def exec : Statement → Option (Process × List Statement)
  | .setLcmd lcmd => some ({ s with isLcmdGenmove := lcmd }, [])
  | .setQuit => some ({ s with isQuit := true }, [])
  | .swapPlayers =>
      some ({ s with mctsPlayer := s.tmpMctsPlayer, tmpMctsPlayer := s.mctsPlayer }, [])
  | .nullPlayer => some ({ s with mctsPlayer := none }, [])
  | .detachDelete => some ({ s with detached := s.detached ++ [.deleteTmp] }, [])
  | .newPlayer => some (s.initializePlayer, [])
  | st => s.mctsPlayer.bind fun p => s.execPlayer cfg p st

/-- A statement of a detached thread, and what it runs next; `none` where it
waits or the process ends. -/
def execRecycle : Recycle → Option (Process × List Recycle)
  | .resetTmp p => some ({ s with nodes := s.nodes.reset (.tmp p) }, [])
  | .resetChild p k => some ({ s with nodes := s.nodes.reset (.child k) }, [.resetFather p])
  | .resetFather p => if s.nodes.cell (.root p) = none then none else some (s, [])
  | .resetNode k => some ({ s with nodes := s.nodes.reset (.child k) }, [])
  | .deleteTmp =>
      match s.tmpMctsPlayer with
      | none => some (s, [.nullTmp])
      | some q =>
          if (s.players q).isExitRollout then
            some ((s.destroy q).modifyPlayer q fun m => { m with isExitRollout := false },
              [.nullTmp])
          else if ∀ future ∈ (s.players q).searchThreadVec, s.Returned future then
            some ((s.destroy q).modifyPlayer q fun m => { m with searchThreadVec := [] },
              [.nullTmp])
          else none
  | .nullTmp => some ({ s with tmpMctsPlayer := none }, [])

/-- One step.  A command comes when the handler before it is through; everything
else may happen at any time. -/
def step : Event → Option Process
  | .command c =>
      if s.todo = [] ∧ s.isQuit = false then some { s with todo := s.processCmd cfg c } else none
  | .main =>
      match s.todo with
      | [] => none
      | st :: rest => (s.exec cfg st).map fun r => { r.1 with todo := r.2 ++ rest }
  | .start =>
      match s.queue with
      | [] => none
      | t :: queue =>
          if s.running.length < max 1 cfg.searchThreads ∧ s.nodes.cell (.root t.player) ≠ none then
            some { s with queue := queue, running := s.running ++ [t] }
          else none
  | .finish i =>
      if i < s.running.length then some { s with running := s.running.eraseIdx i } else none
  | .timeout i =>
      s.running[i]?.bind fun t =>
        if t.max = 1 then some (s.modifyPlayer t.player fun m => { m with stopRollout := true })
        else none
  | .recycle i =>
      s.detached[i]?.bind fun r =>
        (s.execRecycle r).map fun x =>
          { x.1 with detached := s.detached.take i ++ x.2 ++ s.detached.drop (i + 1) }

end Process

/-- All the steps, in any order. -/
def threadMachine (cfg : ThreadConfig) : Machine Process Event where
  step s e := s.step cfg e

/-! ## Inversion

What the invariants need to know of a step. -/

/-- What a statement of the player puts in front of the rest, with `n` search
threads.  The scripts of the proofs follow these lists. -/
inductive Statement.Unfolds (n : ℕ) : Statement → List Statement → Prop where
  | none (st : Statement) : Unfolds n st []
  | exit : Unfolds n .stopPondering [.lowerExit]
  | stop (bound : ℕ) : Unfolds n .stopPondering [.wait 0 bound, .clearVec, .lowerExit]
  | wait (i bound : ℕ) : Unfolds n (.wait i bound) [.wait (i + 1) bound]
  | play (played : Played) : Unfolds n (.play played) (Process.playBody played)
  | search (answer : Answer) : Unfolds n (.genApplyMove answer)
      (List.replicate n (.commit 1) ++ [.wait 0 n, .clearVec, .selectAction answer])
  | answer (answer : Answer) : Unfolds n (.selectAction answer) (Process.answerBody answer)
  | ponder : Unfolds n .startPondering (List.replicate n (.commit (-1)))

/-- **What a step does.**  There are four kinds: a command, a statement of the
main thread, something of a worker, a statement of a detached thread. -/
inductive Process.Does (cfg : ThreadConfig) (s : Process) : Event → Process → Prop where
  | command (c : Call) (idle : s.todo = []) :
      Does cfg s (.command c) { s with todo := s.processCmd cfg c }
  | main {st : Statement} {rest new : List Statement} {s₁ : Process}
      (todo : s.todo = st :: rest) (exec : s.exec cfg st = some (s₁, new)) :
      Does cfg s .main { s₁ with todo := new ++ rest }
  /-- A worker starts no rollout, and leaves the futures and `_mIsExitRollout`
  alone. -/
  | worker {e : Event} {queue running : List Rollout} {players : ℕ → Members}
      (unreturned : queue ++ running ⊆ s.queue ++ s.running)
      (vec : ∀ p, (players p).searchThreadVec = (s.players p).searchThreadVec)
      (exit : ∀ p, (players p).isExitRollout = (s.players p).isExitRollout) :
      Does cfg s e { s with queue := queue, running := running, players := players }
  | recycle {i : ℕ} {r : Recycle} {new : List Recycle} {s₁ : Process}
      (thread : s.detached[i]? = some r) (exec : s.execRecycle r = some (s₁, new)) :
      Does cfg s (.recycle i)
        { s₁ with detached := s.detached.take i ++ new ++ s.detached.drop (i + 1) }

namespace Process

variable {cfg : ThreadConfig} {s s' : Process} {p : ℕ}

@[simp] theorem players_modifyPlayer_self (f : Members → Members) :
    (s.modifyPlayer p f).players p = f (s.players p) := Function.update_self ..

@[simp] theorem players_modifyPlayer_of_ne {q : ℕ} (h : q ≠ p) (f : Members → Members) :
    (s.modifyPlayer p f).players q = s.players q := Function.update_of_ne h ..

/-- A change of a player that keeps a field. -/
theorem field_modifyPlayer {α : Type} (g : Members → α) {f : Members → Members}
    (same : g (f (s.players p)) = g (s.players p)) (q : ℕ) :
    g ((s.modifyPlayer p f).players q) = g (s.players q) := by
  by_cases h : q = p
  · rw [h, players_modifyPlayer_self, same]
  · rw [players_modifyPlayer_of_ne h]

/-- What each statement of a player unfolds to, by its function in the
source. -/
theorem unfolds_of_execPlayer {st : Statement} {new : List Statement}
    (h : s.execPlayer cfg p st = some (s', new)) : st.Unfolds cfg.searchThreads new := by
  cases st with
  | setLcmd | setQuit | swapPlayers | nullPlayer | detachDelete | newPlayer => cases h
  | stopPondering =>
      simp only [execPlayer] at h
      split at h <;> cases h
      · exact .exit
      · exact .stop _
  | wait i bound =>
      simp only [execPlayer] at h
      split at h
      · cases h
        exact .none _
      · obtain ⟨future, -, h⟩ := Option.bind_eq_some_iff.mp h
        split at h <;> cases h
        exact .wait i bound
  | play played =>
      simp only [execPlayer] at h
      split at h
      · cases h
      split at h <;> cases h
      · exact .none _
      · exact .play played
  | genApplyMove answer =>
      simp only [execPlayer] at h
      split at h
      · cases h
      split at h <;> cases h
      · exact .none _
      · exact .search answer
  | selectAction answer =>
      simp only [execPlayer] at h
      split at h <;> cases h
      exact .answer answer
  | startPondering =>
      simp only [execPlayer] at h
      split at h <;> cases h
      · exact .none _
      · exact .ponder
  | applyMove | setDepth | swapChild =>
      simp only [execPlayer] at h
      split at h <;> cases h
      exact .none _
  | clearVec | lowerExit | newTmp | swapTmp | detachTmp | detachChild | detachNode | commit
    | resetRoot | deletePlayer =>
      cases h
      exact .none _

/-- The destructor of a player leaves the flag and the futures of a quiet one as
they are. -/
theorem cases_of_deleteTmp {new : List Recycle} (h : s.execRecycle .deleteTmp = some (s', new)) :
    new = [.nullTmp] ∧ (s.tmpMctsPlayer = none ∧ s' = s ∨
      ∃ q f, s.tmpMctsPlayer = some q ∧ s' = (s.destroy q).modifyPlayer q f ∧
        ∀ m : Members, m.isExitRollout = false → m.searchThreadVec = [] → f m = m) := by
  simp only [execRecycle] at h
  split at h
  · next none =>
      cases h
      exact ⟨rfl, .inl ⟨none, rfl⟩⟩
  · next q hq =>
      split at h
      · cases h
        exact ⟨rfl, .inr ⟨q, _, hq, rfl, fun m lowered _ => by rw [← lowered]⟩⟩
      split at h <;> cases h
      exact ⟨rfl, .inr ⟨q, _, hq, rfl, fun m _ cleared => by rw [← cleared]⟩⟩

/-- Every step is one of the four. -/
theorem does_of_step {e : Event} (h : s.step cfg e = some s') : s.Does cfg e s' := by
  cases e with
  | command c =>
      simp only [step] at h
      split at h <;> cases h
      next idle => exact .command c idle.1
  | main =>
      simp only [step] at h
      split at h
      · cases h
      · next st rest todo =>
          obtain ⟨⟨s₁, new⟩, exec, rfl⟩ := Option.map_eq_some_iff.mp h
          exact .main todo exec
  | start =>
      simp only [step] at h
      split at h
      · cases h
      · next t queue hqueue =>
          split at h <;> cases h
          refine .worker (fun x hx => ?_) (fun _ => rfl) (fun _ => rfl)
          simp only [hqueue, List.mem_append, List.mem_cons, List.not_mem_nil, or_false] at hx ⊢
          tauto
  | finish i =>
      simp only [step] at h
      split at h <;> cases h
      refine .worker (List.append_subset.mpr ⟨List.subset_append_left _ _, fun _ ht => ?_⟩)
        (fun _ => rfl) (fun _ => rfl)
      exact List.mem_append_right _ (List.eraseIdx_subset ht)
  | timeout i =>
      obtain ⟨t, -, h⟩ := Option.bind_eq_some_iff.mp h
      split at h <;> cases h
      have kept {α : Type} (g : Members → α)
          (same : ∀ m : Members, g { m with stopRollout := true } = g m) (q : ℕ) :
          g ((s.modifyPlayer t.player fun m => { m with stopRollout := true }).players q) =
            g (s.players q) :=
        field_modifyPlayer g (same _) q
      exact .worker (List.Subset.refl _) (kept (·.searchThreadVec) fun _ => rfl)
        (kept (·.isExitRollout) fun _ => rfl)
  | recycle i =>
      obtain ⟨r, thread, h⟩ := Option.bind_eq_some_iff.mp h
      obtain ⟨⟨s₁, new⟩, exec, rfl⟩ := Option.map_eq_some_iff.mp h
      exact .recycle thread exec

end Process

end EstarGo
