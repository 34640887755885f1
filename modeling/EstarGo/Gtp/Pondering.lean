import EstarGo.Gtp.Threads
import EstarGo.Lib.Script

/-!
# Search and re-rooting exclude each other

The main thread knows of its rollouts by the futures in `search_thread_vec`.  It
is in one of a few modes: pondering may go on, it waits for futures, all
rollouts have returned, or the futures are cleared as well.  `Statement.Takes`
says how the statements lead from mode to mode, and every handler leads from the
first mode back to it.

A rollout that has not returned is one of the current player, whose
`search_thread_vec` holds its future.  So when the futures up to the last have
been waited for, no rollout is left: also none that is queued and has not
started.

## Main definitions

* `Tracked` — where the futures of rollouts that have not returned are.
* `Mode`, `Mode.Holds` — the modes of the main thread.
* `Statement.Takes` — how the statements lead from mode to mode.

## Main results

* `handles_processCmd`: every handler leads back to the first mode.
* `takes_of_exec`: a statement leads to the mode it promises.
* `search_excluded`: what changes the root, the board or the player finds no
  rollout.

## Design notes

**The rest of a handler.**  What the main thread has left is a list of
statements, and `Fits` says that it leads from the mode it is in to the one in
which handlers start.  A statement that unfolds into others is replaced by a
list that leads to the same mode.

**Deleted players.**  The detached thread of `clear_board` deletes a player that
was current once.  It had no rollout left when it was replaced, and gets none.
-/

namespace EstarGo

open Verif

/-- The rollouts that have not returned. -/
def Process.unreturned (s : Process) : List Rollout := s.queue ++ s.running

/-- The statements that change or destroy the root, `root_board` or the
player. -/
def Statement.changes : Statement → Bool
  | .applyMove _ | .swapTmp | .setDepth | .swapChild | .resetRoot => true
  | .swapPlayers | .nullPlayer | .newPlayer | .deletePlayer => true
  | _ => false

/-- Rollouts that have not returned are the current player's, and it has their
futures.  The player that waits to be deleted is another one, so whoever deletes
it disturbs no rollout. -/
structure Tracked (s : Process) : Prop where
  owner : ∀ t ∈ s.unreturned, s.mctsPlayer = some t.player ∧
    t.future ∈ (s.players t.player).searchThreadVec
  current : ∀ p, (s.players p).searchThreadVec ≠ [] → s.mctsPlayer = some p
  apart : ∀ q, s.tmpMctsPlayer = some q → s.mctsPlayer ≠ some q
  tmp_lt : ∀ q, s.tmpMctsPlayer = some q → q < s.made
  player_lt : ∀ p, s.mctsPlayer = some p → p < s.made

/-- `_mIsExitRollout` is raised for the current player or for none, and only
within `stop_pondering`.  A rollout that finds it raised ends soon; nothing here
depends on how soon. -/
def Raised (stop : Bool) (s : Process) : Prop :=
  ∀ p, (s.players p).isExitRollout = true → stop = true ∧ s.mctsPlayer = some p

/-- The modes of the main thread, by how far it has come with ending the
rollouts. -/
inductive Mode where
  /-- Rollouts may be under way. -/
  | free
  /-- The first `i` of `bound` futures have been waited for. -/
  | waiting (stop : Bool) (i bound : ℕ)
  /-- The rollouts have returned. -/
  | drained (stop : Bool)
  /-- And their futures are cleared. -/
  | quiet (stop : Bool)

/-- What holds in a mode. -/
def Mode.Holds : Mode → Process → Prop
  | .free, s => Raised false s
  | .waiting stop i bound, s => Raised stop s ∧ ∃ p, s.mctsPlayer = some p ∧
      (s.players p).searchThreadVec.length = bound ∧
      ∀ future ∈ (s.players p).searchThreadVec.take i, s.Returned future
  | .drained stop, s => Raised stop s ∧ s.unreturned = []
  | .quiet stop, s => Raised stop s ∧ s.unreturned = [] ∧ ∀ p, (s.players p).searchThreadVec = []

/-- The statements that run when the search is over and leave it so. -/
def Statement.calm : Statement → Bool
  | .play _ | .applyMove _ | .newTmp | .swapTmp | .detachTmp | .setDepth | .swapChild => true
  | .detachChild | .detachNode | .genApplyMove _ | .selectAction _ | .resetRoot => true
  | .swapPlayers | .nullPlayer | .detachDelete | .newPlayer | .deletePlayer => true
  | _ => false

/-- The statements of a member function of the player. -/
def Statement.ofPlayer : Statement → Bool
  | .swapPlayers | .nullPlayer | .detachDelete | .newPlayer | .setLcmd _ | .setQuit => false
  | _ => true

/-- How a statement, with what it puts in front of the rest, leads from mode to
mode.  A statement that changes the player or the tree may be taken in one mode
only, the quiet one. -/
inductive Statement.Takes : Mode → Statement → Mode → Prop where
  | stopPondering : Takes .free .stopPondering (.quiet false)
  | wait (stop : Bool) (i bound : ℕ) : Takes (.waiting stop i bound) (.wait i bound) (.drained stop)
  | clearVec (stop : Bool) : Takes (.drained stop) .clearVec (.quiet stop)
  | lowerExit : Takes (.quiet true) .lowerExit (.quiet false)
  | calm {st : Statement} (h : st.calm = true) : Takes (.quiet false) st (.quiet false)
  | commitSearch (max : ℤ) (k : ℕ) :
      Takes (.waiting false 0 k) (.commit max) (.waiting false 0 (k + 1))
  | commitPondering (max : ℤ) : Takes .free (.commit max) .free
  | startPondering : Takes .free .startPondering .free
  | setLcmd (lcmd : Bool) : Takes .free (.setLcmd lcmd) .free
  | setQuit : Takes .free .setQuit .free
  | weaken {st : Statement} {m : Mode} (h : Takes .free st m) : Takes (.quiet false) st m

/-- What is left of a handler leads back to where handlers start. -/
abbrev Handles (m : Mode) (todo : List Statement) : Prop := Fits Statement.Takes m todo .free

section Handlers

open Statement

/-- Calm statements lead from the quiet to the quiet. -/
theorem fits_calm {l : List Statement} (calm : ∀ st ∈ l, st.calm = true) :
    Fits Takes (.quiet false) l (.quiet false) :=
  .of_forall fun st hst => .calm (calm st hst)

/-- The rest of `play` is calm. -/
theorem calm_playBody (played : Played) : ∀ st ∈ Process.playBody played, st.calm = true := by
  cases played <;> decide

theorem calm_answerBody (answer : Answer) : ∀ st ∈ Process.answerBody answer, st.calm = true := by
  cases answer <;> decide

/-- **Every handler leads back.**  Where there is no player there are no
rollouts either, and the handler may start as if they had ended. -/
theorem handles_processCmd (cfg : ThreadConfig) (s : Process) (c : Call) :
    Handles .free (s.processCmd cfg c) ∨
      s.mctsPlayer = none ∧ Handles (.quiet false) (s.processCmd cfg c) := by
  have reset (lcmd : Bool) : Handles (.quiet false) [.setLcmd lcmd] :=
    .single (.weaken (.setLcmd lcmd))
  cases c with
  | play played =>
      refine .inl (.cons .stopPondering (.cons (.calm rfl) (Fits.append ?_ (reset false))))
      split
      · exact .cons (.weaken .stopPondering) (.single (.calm rfl))
      · exact .nil _
  | genmove pass answer =>
      have implicit : Fits Takes (.quiet false)
          (if s.isLcmdGenmove then [.play pass] else []) (.quiet false) := by
        split
        · exact .single (.calm rfl)
        · exact .nil _
      refine .inl (.cons .stopPondering (implicit.append (.cons (.calm rfl) ?_)))
      split
      · exact .cons (.weaken .startPondering) (.single (.setLcmd true))
      · exact reset true
  | quit =>
      rw [Process.processCmd, Process.processCmdQuit]
      cases s.mctsPlayer with
      | none => exact .inr ⟨rfl, .single (.weaken .setQuit)⟩
      | some p =>
          exact .inl (.cons .stopPondering (.cons (.weaken .stopPondering) (.cons (.calm rfl)
            (.single (.weaken .setQuit)))))
  | clearBoard =>
      rw [Process.processCmd, Process.processCmdClearboard]
      cases s.mctsPlayer with
      | none => exact .inr ⟨rfl, .cons (.calm rfl) (reset false)⟩
      | some p =>
          have retired : Fits Takes (.quiet false)
              [.swapPlayers, .nullPlayer, .detachDelete, .newPlayer] (.quiet false) :=
            fits_calm (by decide)
          exact .inl (.cons .stopPondering (retired.append (reset false)))
  | other => exact .inl (.nil _)

end Handlers

/-! ## Steps

Those that are not the main thread's leave its mode alone. -/

section Steps

variable {cfg : ThreadConfig} {s s' : Process}

/-- A step that starts no rollout and leaves the futures and flags alone. -/
structure Keeps (s s' : Process) : Prop where
  player : s'.mctsPlayer = s.mctsPlayer
  tmp : ∀ q, s'.tmpMctsPlayer = some q → s.tmpMctsPlayer = some q
  made : s'.made = s.made
  vec : ∀ p, (s'.players p).searchThreadVec = (s.players p).searchThreadVec
  exit : ∀ p, (s'.players p).isExitRollout = (s.players p).isExitRollout
  unreturned : s'.unreturned ⊆ s.unreturned

/-- Such a step keeps what is tracked. -/
theorem Keeps.tracked (h : Keeps s s') (hs : Tracked s) : Tracked s' where
  owner t ht := by
    rw [h.player, h.vec]
    exact hs.owner t (h.unreturned ht)
  current p hp := by
    rw [h.vec] at hp
    rw [h.player]
    exact hs.current p hp
  apart q hq := by
    rw [h.player]
    exact hs.apart q (h.tmp q hq)
  tmp_lt q hq := by
    rw [h.made]
    exact hs.tmp_lt q (h.tmp q hq)
  player_lt p hp := by
    rw [h.made]
    exact hs.player_lt p (h.player ▸ hp)

theorem Keeps.raised (h : Keeps s s') {stop : Bool} (hs : Raised stop s) : Raised stop s' := by
  intro p hp
  rw [h.exit] at hp
  rw [h.player]
  exact hs p hp

theorem Keeps.holds (h : Keeps s s') {m : Mode} (hs : m.Holds s) : m.Holds s' := by
  have empty (done : s.unreturned = []) : s'.unreturned = [] :=
    List.subset_nil.mp (done ▸ h.unreturned)
  cases m with
  | free => exact h.raised hs
  | waiting stop i bound =>
      obtain ⟨raised, p, player, length, waited⟩ := hs
      refine ⟨h.raised raised, p, h.player.trans player, (h.vec p).symm ▸ length, ?_⟩
      rw [h.vec]
      exact fun future mem t ht => waited future mem t (h.unreturned ht)
  | drained stop => exact ⟨h.raised hs.1, empty hs.2⟩
  | quiet stop => exact ⟨h.raised hs.1, empty hs.2.1, fun p => (h.vec p).trans (hs.2.2 p)⟩

/-- A change of nothing that is tracked. -/
theorem Keeps.of_eq (player : s'.mctsPlayer = s.mctsPlayer)
    (tmp : s'.tmpMctsPlayer = s.tmpMctsPlayer) (made : s'.made = s.made)
    (players : s'.players = s.players) (queue : s'.queue = s.queue)
    (running : s'.running = s.running) : Keeps s s' := by
  refine ⟨player, fun q => ?_, made, fun p => ?_, fun p => ?_, ?_⟩
  · rw [tmp]
    exact id
  · rw [players]
  · rw [players]
  · rw [Process.unreturned, queue, running]
    exact List.Subset.refl _

/-- A flag is raised for the current player only. -/
theorem Mode.Holds.exit {m : Mode} (h : m.Holds s) (p : ℕ)
    (raised : (s.players p).isExitRollout = true) : s.mctsPlayer = some p := by
  cases m with
  | free => exact (h p raised).2
  | waiting => exact (h.1 p raised).2
  | drained => exact (h.1 p raised).2
  | quiet => exact (h.1 p raised).2

/-- **The detached threads.**  The player that one deletes has no rollouts, so
its destructor waits for nothing.  They may run at any time, within a search as
well. -/
theorem keeps_of_execRecycle {r : Recycle} {new : List Recycle} (tracked : Tracked s)
    (exit : ∀ p, (s.players p).isExitRollout = true → s.mctsPlayer = some p)
    (h : s.execRecycle r = some (s', new)) : Keeps s s' ∧ s'.todo = s.todo := by
  cases r with
  | deleteTmp =>
      obtain ⟨-, ⟨-, rfl⟩ | ⟨q, f, hq, rfl, quiet⟩⟩ := Process.cases_of_deleteTmp h
      · exact ⟨.of_eq rfl rfl rfl rfl rfl rfl, rfl⟩
      · have apart := tracked.apart q hq
        have lowered : (s.players q).isExitRollout = false :=
          Bool.eq_false_iff.mpr fun h => apart (exit q h)
        have cleared : (s.players q).searchThreadVec = [] := by
          by_contra h
          exact apart (tracked.current q h)
        -- so the destructor changes no flag and no futures
        have same : f (s.players q) = s.players q := quiet _ lowered cleared
        refine ⟨⟨rfl, fun _ => id, rfl, fun p => ?_, fun p => ?_, List.Subset.refl _⟩, rfl⟩
        · exact Process.field_modifyPlayer (s := s.destroy q) (·.searchThreadVec)
            (congrArg _ same) p
        · exact Process.field_modifyPlayer (s := s.destroy q) (·.isExitRollout)
            (congrArg _ same) p
  | nullTmp =>
      cases h
      exact ⟨⟨rfl, nofun, rfl, fun _ => rfl, fun _ => rfl, List.Subset.refl _⟩, rfl⟩
  | resetFather p =>
      simp only [Process.execRecycle] at h
      split at h <;> cases h
      exact ⟨.of_eq rfl rfl rfl rfl rfl rfl, rfl⟩
  | resetTmp | resetChild | resetNode =>
      cases h
      exact ⟨.of_eq rfl rfl rfl rfl rfl rfl, rfl⟩

/-! ## The main thread

Statement by statement. -/

/-- A statement of a player runs on the current one. -/
theorem execPlayer_of_exec {st : Statement} {new : List Statement}
    (h : s.exec cfg st = some (s', new)) (player : st.ofPlayer = true) :
    ∃ p, s.mctsPlayer = some p ∧ s.execPlayer cfg p st = some (s', new) := by
  cases st with
  | swapPlayers | nullPlayer | detachDelete | newPlayer | setLcmd | setQuit => cases player
  | _ => exact Option.bind_eq_some_iff.mp h

/-- A calm statement of a player leaves what is tracked alone. -/
theorem keeps_of_calm {st : Statement} {new : List Statement} {p : ℕ} (calm : st.calm = true)
    (kept : st ≠ .deletePlayer) (h : s.execPlayer cfg p st = some (s', new)) : Keeps s s' := by
  cases st with
  | stopPondering | wait | clearVec | lowerExit | commit | startPondering | setLcmd | setQuit =>
      cases calm
  | deletePlayer => exact absurd rfl kept
  | swapPlayers | nullPlayer | detachDelete | newPlayer => cases h
  | play | applyMove | setDepth | swapChild | genApplyMove | selectAction =>
      simp only [Process.execPlayer] at h
      repeat' split at h
      all_goals
        cases h
        try exact .of_eq rfl rfl rfl rfl rfl rfl
  | newTmp | swapTmp | detachTmp | detachChild | detachNode | resetRoot =>
      cases h
      exact .of_eq rfl rfl rfl rfl rfl rfl

/-- A quiet player has no rollout and no future. -/
theorem tracked_of_quiet (unreturned : s.unreturned = [])
    (vec : ∀ p, (s.players p).searchThreadVec = [])
    (apart : ∀ q, s.tmpMctsPlayer = some q → s.mctsPlayer ≠ some q)
    (tmp_lt : ∀ q, s.tmpMctsPlayer = some q → q < s.made)
    (player_lt : ∀ p, s.mctsPlayer = some p → p < s.made) : Tracked s :=
  ⟨fun t ht => by simp [unreturned] at ht, fun p hp => absurd (vec p) hp, apart, tmp_lt, player_lt⟩

/-- **The statements that change the player.**  They run when all rollouts have
returned, so that the new player starts with none. -/
theorem quiet_of_swap {st : Statement} {new : List Statement} (tracked : Tracked s)
    (holds : (Mode.quiet false).Holds s) (player : st.ofPlayer = false) (calm : st.calm = true)
    (h : s.exec cfg st = some (s', new)) :
    Tracked s' ∧ (Mode.quiet false).Holds s' ∧ new = [] := by
  obtain ⟨raised, unreturned, vec⟩ := holds
  have lowered (p : ℕ) : ¬ (s.players p).isExitRollout = true := fun h => by cases (raised p h).1
  cases st with
  | swapPlayers =>
      cases h
      refine ⟨tracked_of_quiet unreturned vec (fun q hq hp => tracked.apart q hp hq)
        tracked.player_lt tracked.tmp_lt, ⟨fun p hp => absurd hp (lowered p), unreturned, vec⟩, rfl⟩
  | nullPlayer =>
      cases h
      exact ⟨tracked_of_quiet unreturned vec (by simp) tracked.tmp_lt (by simp),
        ⟨fun p hp => absurd hp (lowered p), unreturned, vec⟩, rfl⟩
  | detachDelete =>
      cases h
      have keeps : Keeps s { s with detached := s.detached ++ [.deleteTmp] } :=
        .of_eq rfl rfl rfl rfl rfl rfl
      exact ⟨keeps.tracked tracked, keeps.holds ⟨raised, unreturned, vec⟩, rfl⟩
  | newPlayer =>
      cases h
      have players (p : ℕ) : (s.initializePlayer.players p).searchThreadVec = [] ∧
          ¬ (s.initializePlayer.players p).isExitRollout = true := by
        by_cases hp : p = s.made
        · simp [Process.initializePlayer, hp]
        · simpa [Process.initializePlayer, hp, vec p] using lowered p
      refine ⟨tracked_of_quiet unreturned (fun p => (players p).1) ?_ ?_ ?_,
        ⟨fun p hp => absurd hp (players p).2, unreturned, fun p => (players p).1⟩, rfl⟩
      · -- the number of the new player is a new one
        rintro q hq ⟨⟩
        exact absurd (tracked.tmp_lt _ hq) (Nat.lt_irrefl _)
      · exact fun q hq => Nat.lt_succ_of_lt (tracked.tmp_lt q hq)
      · rintro p ⟨⟩
        exact Nat.lt_succ_self _
  | setLcmd | setQuit => cases calm
  | _ => cases player

/-- What a calm statement of a player puts in front of the rest. -/
theorem fits_of_calm {st : Statement} {new : List Statement} {p : ℕ} (calm : st.calm = true)
    (other : ∀ answer, st ≠ .genApplyMove answer) (h : s.execPlayer cfg p st = some (s', new)) :
    Fits Statement.Takes (.quiet false) new (.quiet false) := by
  cases Process.unfolds_of_execPlayer h with
  | none => exact .nil _
  | play played => exact fits_calm (calm_playBody played)
  | answer answer => exact fits_calm (calm_answerBody answer)
  | search answer => exact absurd rfl (other answer)
  | exit | stop | wait | ponder => cases calm

/-- **A search.**  The commits, the waiting and the clearing lead back to a
quiet player. -/
theorem fits_search (answer : Answer) (n : ℕ) :
    Fits Statement.Takes (.waiting false 0 0) (List.replicate n (.commit 1) ++
      [.wait 0 n, .clearVec, .selectAction answer]) (.quiet false) := by
  have commits :=
    Fits.replicate (Mode.waiting false 0) (fun k => Statement.Takes.commitSearch 1 k) n 0
  rw [Nat.zero_add] at commits
  exact commits.append (.cons (.wait false 0 n) (.cons (.clearVec false) (.single (.calm rfl))))

/-- **Calm statements.**  They run in the quiet mode and leave it so, or begin a
search of their own. -/
theorem takes_of_calm {st : Statement} {new : List Statement} (tracked : Tracked s)
    (holds : (Mode.quiet false).Holds s) (calm : st.calm = true)
    (h : s.exec cfg st = some (s', new)) :
    Tracked s' ∧ ∃ m, m.Holds s' ∧ Fits Statement.Takes m new (.quiet false) := by
  cases player : st.ofPlayer with
  | false =>
      obtain ⟨tracked', holds', rfl⟩ := quiet_of_swap tracked holds player calm h
      exact ⟨tracked', .quiet false, holds', .nil _⟩
  | true =>
      obtain ⟨p, hp, h⟩ := execPlayer_of_exec h player
      by_cases search : ∃ answer, st = .genApplyMove answer
      · obtain ⟨answer, rfl⟩ := search
        have keeps := keeps_of_calm calm nofun h
        refine ⟨keeps.tracked tracked, ?_⟩
        simp only [Process.execPlayer] at h
        split at h
        · cases h
        split at h
        · cases h
          exact ⟨.quiet false, holds, .nil _⟩
        · cases h
          refine ⟨.waiting false 0 0, ⟨holds.1, p, hp, ?_, by simp⟩, fits_search answer _⟩
          rw [holds.2.2 p, List.length_nil]
      · have fits := fits_of_calm calm (fun answer h => search ⟨answer, h⟩) h
        by_cases gone : st = .deletePlayer
        · subst gone
          cases h
          obtain ⟨raised, unreturned, vec⟩ := holds
          have lowered (p : ℕ) : ¬ (s.players p).isExitRollout = true := fun h => by
            cases (raised p h).1
          exact ⟨tracked_of_quiet unreturned vec (by simp) tracked.tmp_lt (by simp),
            .quiet false, ⟨fun p hp => absurd hp (lowered p), unreturned, vec⟩, fits⟩
        · have keeps := keeps_of_calm calm gone h
          exact ⟨keeps.tracked tracked, .quiet false, keeps.holds holds, fits⟩

/-- A change of the flags of the current player. -/
theorem Tracked.modifyPlayer (tracked : Tracked s) (p : ℕ) (f : Members → Members)
    (same : (f (s.players p)).searchThreadVec = (s.players p).searchThreadVec) :
    Tracked (s.modifyPlayer p f) := by
  have vec (q : ℕ) : ((s.modifyPlayer p f).players q).searchThreadVec =
      (s.players q).searchThreadVec := Process.field_modifyPlayer (·.searchThreadVec) same q
  refine ⟨fun t ht => ?_, fun q hq => ?_, tracked.apart, tracked.tmp_lt, tracked.player_lt⟩
  · rw [vec]
    exact tracked.owner t ht
  · rw [vec] at hq
    exact tracked.current q hq

/-- The futures of the current player are the only ones. -/
theorem Tracked.vec_of_ne (tracked : Tracked s) {p q : ℕ} (hp : s.mctsPlayer = some p)
    (ne : q ≠ p) : (s.players q).searchThreadVec = [] := by
  by_contra h
  exact ne (Option.some.inj ((tracked.current q h).symm.trans hp))

/-- A commit adds a future to its player. -/
theorem players_commit (p : ℕ) (max : ℤ) : (s.commit p max).players p =
    { s.players p with searchThreadVec := (s.players p).searchThreadVec ++ [s.committed] } :=
  Function.update_self ..

theorem players_commit_of_ne {p q : ℕ} (h : q ≠ p) (max : ℤ) :
    (s.commit p max).players q = s.players q :=
  Function.update_of_ne h ..

theorem exit_commit (p q : ℕ) (max : ℤ) : ((s.commit p max).players q).isExitRollout =
    (s.players q).isExitRollout := by
  by_cases same : q = p
  · rw [same, players_commit]
  · rw [players_commit_of_ne same]

/-- A commit gives the current player one more rollout, and its future. -/
theorem Tracked.commit {p : ℕ} (tracked : Tracked s) (hp : s.mctsPlayer = some p) (max : ℤ) :
    Tracked (s.commit p max) := by
  refine ⟨fun t ht => ?_, fun q hq => ?_, tracked.apart, tracked.tmp_lt, tracked.player_lt⟩
  · have cases : t ∈ s.unreturned ∨ t = ⟨s.committed, p, max⟩ := by
      simp only [Process.unreturned, Process.commit, Process.modifyPlayer, List.mem_append,
        List.mem_singleton] at ht ⊢
      tauto
    rcases cases with old | rfl
    · obtain ⟨owner, mem⟩ := tracked.owner t old
      obtain rfl := Option.some.inj (hp.symm.trans owner)
      exact ⟨hp, by simp [players_commit, mem]⟩
    · exact ⟨hp, by simp [players_commit]⟩
  · by_cases same : q = p
    · rw [same]
      exact hp
    · rw [players_commit_of_ne same] at hq
      exact absurd (tracked.vec_of_ne hp same) hq

/-- The flag is raised, and the futures there are have to be waited for. -/
theorem takes_of_stopPondering {new : List Statement} (tracked : Tracked s)
    (holds : Mode.free.Holds s) (h : s.exec cfg .stopPondering = some (s', new)) :
    Tracked s' ∧ ∃ m₁ : Mode, m₁.Holds s' ∧ Fits Statement.Takes m₁ new (.quiet false) := by
  obtain ⟨p, hp, h⟩ := execPlayer_of_exec h rfl
  have lowered : ¬ (s.players p).isExitRollout = true := fun h => by cases (holds p h).1
  rw [Process.execPlayer, if_neg lowered] at h
  cases h
  refine ⟨tracked.modifyPlayer p _ rfl, .waiting true 0 (s.players p).searchThreadVec.length,
    ⟨fun q hq => ⟨rfl, ?_⟩, p, hp, by simp, by simp⟩,
    .cons (.wait true 0 _) (.cons (.clearVec true) (.single .lowerExit))⟩
  by_cases same : q = p
  · rw [same]
    exact hp
  · rw [Process.players_modifyPlayer_of_ne same] at hq
    cases (holds q hq).1

/-- One more future has been waited for; after the last one no rollout is
left. -/
theorem takes_of_wait {stop : Bool} {i bound : ℕ} {new : List Statement} (tracked : Tracked s)
    (holds : (Mode.waiting stop i bound).Holds s)
    (h : s.exec cfg (.wait i bound) = some (s', new)) :
    Tracked s' ∧ ∃ m₁ : Mode, m₁.Holds s' ∧ Fits Statement.Takes m₁ new (.drained stop) := by
  obtain ⟨p, hp, h⟩ := execPlayer_of_exec h rfl
  obtain ⟨raised, q, hq, length, waited⟩ := holds
  obtain rfl := Option.some.inj (hp.symm.trans hq)
  simp only [Process.execPlayer] at h
  split at h
  · next last =>
      cases h
      refine ⟨tracked, .drained stop, ⟨raised, ?_⟩, .nil _⟩
      rw [List.take_of_length_le (length ▸ last)] at waited
      -- a rollout that has not returned is one of the current player, and has a future there
      refine List.eq_nil_iff_forall_not_mem.mpr fun t ht => ?_
      obtain ⟨owner, mem⟩ := tracked.owner t ht
      obtain rfl := Option.some.inj (hp.symm.trans owner)
      exact waited t.future mem t ht rfl
  · next more =>
      obtain ⟨future, hfuture, h⟩ := Option.bind_eq_some_iff.mp h
      split at h <;> cases h
      next returned =>
      refine ⟨tracked, .waiting stop (i + 1) bound, ⟨raised, p, hp, length, ?_⟩,
        .single (.wait stop (i + 1) bound)⟩
      rw [List.take_add_one, hfuture]
      intro f hf
      rcases List.mem_append.mp hf with hf | hf
      · exact waited f hf
      · rwa [List.mem_singleton.mp hf]

/-- The futures are cleared when all rollouts have returned. -/
theorem takes_of_clearVec {stop : Bool} {new : List Statement} (tracked : Tracked s)
    (holds : (Mode.drained stop).Holds s) (h : s.exec cfg .clearVec = some (s', new)) :
    Tracked s' ∧ ∃ m₁ : Mode, m₁.Holds s' ∧ Fits Statement.Takes m₁ new (.quiet stop) := by
  obtain ⟨p, hp, h⟩ := execPlayer_of_exec h rfl
  cases h
  obtain ⟨raised, unreturned⟩ := holds
  have vec (q : ℕ) : ((s.modifyPlayer p fun m => { m with searchThreadVec := [] }).players
      q).searchThreadVec = [] := by
    by_cases same : q = p
    · rw [same, Process.players_modifyPlayer_self]
    · rw [Process.players_modifyPlayer_of_ne same]
      exact tracked.vec_of_ne hp same
  refine ⟨tracked_of_quiet unreturned vec tracked.apart tracked.tmp_lt tracked.player_lt,
    .quiet stop, ⟨fun q hq => raised q ?_, unreturned, vec⟩, .nil _⟩
  rwa [Process.field_modifyPlayer (·.isExitRollout) rfl q] at hq

/-- The flag is lowered at the end of `stop_pondering`. -/
theorem takes_of_lowerExit {new : List Statement} (tracked : Tracked s)
    (holds : (Mode.quiet true).Holds s) (h : s.exec cfg .lowerExit = some (s', new)) :
    Tracked s' ∧ ∃ m₁ : Mode, m₁.Holds s' ∧ Fits Statement.Takes m₁ new (.quiet false) := by
  obtain ⟨p, hp, h⟩ := execPlayer_of_exec h rfl
  cases h
  obtain ⟨raised, unreturned, vec⟩ := holds
  refine ⟨tracked.modifyPlayer p _ rfl, .quiet false, ⟨fun q hq => ?_, unreturned, fun q => ?_⟩,
    .nil _⟩
  · by_cases same : q = p
    · rw [same, Process.players_modifyPlayer_self] at hq
      cases hq
    · rw [Process.players_modifyPlayer_of_ne same] at hq
      exact absurd (Option.some.inj ((raised q hq).2.symm.trans hp)) same
  · rw [Process.field_modifyPlayer (·.searchThreadVec) rfl q]
    exact vec q

/-- A commit of `gen_apply_move` is one more future to wait for. -/
theorem takes_of_commit {max : ℤ} {k : ℕ} {new : List Statement} (tracked : Tracked s)
    (holds : (Mode.waiting false 0 k).Holds s) (h : s.exec cfg (.commit max) = some (s', new)) :
    Tracked s' ∧ ∃ m₁ : Mode, m₁.Holds s' ∧
      Fits Statement.Takes m₁ new (.waiting false 0 (k + 1)) := by
  obtain ⟨p, hp, h⟩ := execPlayer_of_exec h rfl
  obtain ⟨raised, q, hq, length, -⟩ := holds
  obtain rfl := Option.some.inj (hp.symm.trans hq)
  cases h
  refine ⟨tracked.commit hp max, .waiting false 0 (k + 1),
    ⟨fun q hq => raised q ?_, p, hp, ?_, by simp⟩, .nil _⟩
  · rwa [exit_commit] at hq
  · rw [players_commit, List.length_append, length]
    rfl

/-- **What a statement leads to.**  It is in the mode that its script has given
it, and what it puts in front of the rest leads from there to the mode after
it. -/
theorem takes_of_exec {m m' : Mode} {st : Statement} {new : List Statement} (tracked : Tracked s)
    (holds : m.Holds s) (takes : st.Takes m m') (h : s.exec cfg st = some (s', new)) :
    Tracked s' ∧ ∃ m₁, m₁.Holds s' ∧ Fits Statement.Takes m₁ new m' := by
  induction takes with
  | stopPondering => exact takes_of_stopPondering tracked holds h
  | wait => exact takes_of_wait tracked holds h
  | clearVec => exact takes_of_clearVec tracked holds h
  | lowerExit => exact takes_of_lowerExit tracked holds h
  | calm calm => exact takes_of_calm tracked holds calm h
  | commitSearch => exact takes_of_commit tracked holds h
  | commitPondering max =>
      obtain ⟨p, hp, h⟩ := execPlayer_of_exec h rfl
      cases h
      refine ⟨tracked.commit hp max, .free, fun q hq => holds q ?_, .nil _⟩
      rwa [exit_commit] at hq
  | startPondering =>
      obtain ⟨p, hp, h⟩ := execPlayer_of_exec h rfl
      simp only [Process.execPlayer] at h
      split at h <;> cases h
      · exact ⟨tracked, .free, holds, .nil _⟩
      · exact ⟨tracked, .free, holds,
          Fits.replicate (fun _ => Mode.free) (fun _ => .commitPondering (-1)) _ 0⟩
  | setLcmd lcmd =>
      cases h
      have keeps : Keeps s { s with isLcmdGenmove := lcmd } := .of_eq rfl rfl rfl rfl rfl rfl
      exact ⟨keeps.tracked tracked, .free, keeps.raised holds, .nil _⟩
  | setQuit =>
      cases h
      have keeps : Keeps s { s with isQuit := true } := .of_eq rfl rfl rfl rfl rfl rfl
      exact ⟨keeps.tracked tracked, .free, keeps.raised holds, .nil _⟩
  | weaken _ ih => exact ih holds.1 h

/-! ## Runs

From a new session on, with any interleaving. -/

/-- The main thread is in a mode from which the rest of its handler leads
back. -/
structure Exclusive (s : Process) : Prop where
  tracked : Tracked s
  handled : ∃ m : Mode, m.Holds s ∧ Handles m s.todo

/-- A step that keeps what is tracked and the rest of the handler. -/
theorem Exclusive.of_keeps (hs : Exclusive s) (keeps : Keeps s s') (todo : s'.todo = s.todo) :
    Exclusive s' := by
  obtain ⟨tracked, m, holds, handles⟩ := hs
  exact ⟨keeps.tracked tracked, m, keeps.holds holds, todo ▸ handles⟩

/-- Each step: the main thread by its statement, the others since they keep its
mode. -/
theorem exclusive_step {e : Event} (hs : Exclusive s) (h : s.step cfg e = some s') :
    Exclusive s' := by
  have tracked := hs.tracked
  obtain ⟨m, holds, handles⟩ := hs.handled
  cases Process.does_of_step h with
  | command c idle =>
      rw [idle] at handles
      cases handles
      have keeps : Keeps s { s with todo := s.processCmd cfg c } := .of_eq rfl rfl rfl rfl rfl rfl
      refine ⟨keeps.tracked tracked, ?_⟩
      rcases handles_processCmd cfg s c with handles | ⟨player, handles⟩
      · exact ⟨.free, keeps.raised holds, handles⟩
      · -- without a player there is no rollout and no future
        refine ⟨.quiet false, keeps.holds ⟨holds, ?_, fun p => ?_⟩, handles⟩
        · refine List.eq_nil_iff_forall_not_mem.mpr fun t ht => ?_
          cases player.symm.trans (tracked.owner t ht).1
        · by_contra vec
          cases player.symm.trans (tracked.current p vec)
  | @main st rest new s₁ todo exec =>
      rw [todo] at handles
      obtain ⟨m', takes, handles⟩ := handles.exists_of_cons
      obtain ⟨tracked₁, m₁, holds₁, fits⟩ := takes_of_exec tracked holds takes exec
      have keeps : Keeps s₁ { s₁ with todo := new ++ rest } := .of_eq rfl rfl rfl rfl rfl rfl
      exact ⟨keeps.tracked tracked₁, m₁, keeps.holds holds₁, fits.append handles⟩
  | worker unreturned vec exit =>
      exact hs.of_keeps ⟨rfl, fun _ => id, rfl, vec, exit, unreturned⟩ rfl
  | recycle thread exec =>
      obtain ⟨keeps, todo⟩ := keeps_of_execRecycle tracked holds.exit exec
      exact hs.of_keeps
        ⟨keeps.player, keeps.tmp, keeps.made, keeps.vec, keeps.exit, keeps.unreturned⟩ todo

/-- A new session has no rollout. -/
theorem exclusive_start : Exclusive Process.start := by
  have players (p : ℕ) : Process.start.players p = ⟨false, false, []⟩ := by
    simp [Process.start, Process.initializePlayer]
  refine ⟨tracked_of_quiet rfl (fun p => by rw [players]) nofun nofun ?_, .free,
    fun p hp => ?_, .nil _⟩
  · rintro p ⟨⟩
    exact Nat.one_pos
  · rw [players] at hp
    cases hp

/-- What changes the root, the board or the player runs while all is quiet. -/
theorem Exclusive.quiet (hs : Exclusive s) {st : Statement} (head : st ∈ s.todo.head?)
    (calm : st.calm = true) : (Mode.quiet false).Holds s := by
  obtain ⟨-, m, holds, handles⟩ := hs
  obtain ⟨rest, htodo⟩ : ∃ rest, s.todo = st :: rest := List.head?_eq_some_iff.mp head
  rw [htodo] at handles
  obtain ⟨m', takes, -⟩ := handles.exists_of_cons
  cases takes with
  | calm => exact holds
  | weaken => exact holds
  | stopPondering | wait | clearVec | lowerExit | commitSearch | commitPondering | startPondering
    | setLcmd | setQuit => cases calm

/-- What changes the root, the board or the player is calm. -/
theorem calm_of_changes {st : Statement} (h : st.changes = true) : st.calm = true := by
  cases st with
  | applyMove | swapTmp | setDepth | swapChild | resetRoot | swapPlayers | nullPlayer | newPlayer
    | deletePlayer => rfl
  | _ => cases h

end Steps

/-- **Search and re-rooting exclude each other.**  When the main thread changes
or destroys the root, the board or the player, no rollout is queued or running;
`gen_apply_move` starts without futures; and no rollout is left of a player that
a detached thread is about to delete. -/
theorem search_excluded {cfg : ThreadConfig} {es : List Event} {s : Process}
    (run : (threadMachine cfg).exec Process.start es = some s) :
    (∀ st ∈ s.todo.head?, st.changes = true → s.queue = [] ∧ s.running = []) ∧
    (∀ answer, s.todo.head? = some (.genApplyMove answer) →
      ∀ p, s.mctsPlayer = some p → (s.players p).searchThreadVec = []) ∧
    ∀ q, Recycle.deleteTmp ∈ s.detached → s.tmpMctsPlayer = some q →
      ∀ t ∈ s.queue ++ s.running, t.player ≠ q := by
  have exclusive : Exclusive s :=
    (threadMachine cfg).invariant_of_step exclusive_step exclusive_start run
  refine ⟨fun st head changes => ?_, fun answer head p _ => ?_, fun q _ hq t ht same => ?_⟩
  · obtain ⟨-, unreturned, -⟩ := exclusive.quiet head (calm_of_changes changes)
    exact List.append_eq_nil_iff.mp unreturned
  · exact (exclusive.quiet head rfl).2.2 p
  · have owner := (exclusive.tracked.owner t ht).1
    exact exclusive.tracked.apart q hq (same ▸ owner)

/-- `genmove` with two search threads, then `play` while one of the rollouts
that ponder runs and the other is queued. -/
def ponderingRun : List Event :=
  .command (.genmove .fresh .move) :: List.replicate 7 .main ++
    [.start, .start, .finish 0, .finish 0] ++ List.replicate 12 .main ++
    [.start, .command (.play .fresh), .main, .finish 0, .start, .main, .finish 0] ++
    List.replicate 5 .main

/-- The move is applied when both rollouts have returned.  One of them was still
in the queue of the executor when `play` came, and had to be started and to
end. -/
theorem search_excluded_ponderingRun : ∃ s,
    (threadMachine ⟨2, true⟩).exec Process.start ponderingRun = some s ∧
      s.todo.head? = some (.applyMove true) ∧ s.queue = [] ∧ s.running = [] := by
  have seen : (((threadMachine ⟨2, true⟩).exec Process.start ponderingRun).map
      fun s => s.todo.head?) = some (some (.applyMove true)) := by decide +kernel
  obtain ⟨s, run, head⟩ := Option.map_eq_some_iff.mp seen
  exact ⟨s, run, head, (search_excluded run).1 _ head rfl⟩

end EstarGo
